import MiniGU.Lib.Generators
import MiniGU.Model.HashJoin

/-!
# Expand and flatten (`gql/execution/src/executor/expand.rs`, `flatten.rs`)

For each logical row, `Expand` asks a source for the neighbours of the vertex in one of the columns.
They come in batches of columns; for each batch the row is yielded with the columns appended, each
as the one list in a column of lists. `Flatten` lays such lists out and repeats the other columns
along.

An executor ends at the first error, as do the loops that it is made of (`forEach`).
-/

namespace MiniGU

/-- What is used of the arrow arrays: vertex ids, nulls, and lists that are not null. -/
structure ListArrays (E Ty Val : Type) where
  vertexType : Ty
  vertex : Val → Nat
  isNull : Val → Bool
  listType : Ty → Ty
  itemType : Ty → Option Ty
  list : List Val → Val
  items : Val → List Val
  itemType_listType : ∀ ty, itemType (listType ty) = some ty
  items_list : ∀ vs, items (list vs) = vs
  list_not_null : ∀ vs, isNull (list vs) = false
  /-- The error of a list of non-null items with a null among them. -/
  nonNullableField : E
  /-- The error of putting no arrays together. -/
  nothingToConcat : E

namespace StreamExecutor

section Expand

variable {E Ty Val : Type}

/-- `expand_from_vertex`: batches of columns, `none` where the vertex does not exist. -/
abbrev ExpandSource (E Ty Val : Type) :=
  Nat → Option (Cubes Nat) → Option (Cubes Nat) →
    Option (List (Except (Fault E) (List (ArrayRef Ty Val))))

variable (arrow : ListArrays E Ty Val)

/-- The column as the one list of a column of lists. Its length is an `i32`. -/
def listColumn (c : ArrayRef Ty Val) : Except (Fault E) (ArrayRef Ty Val) :=
  if 2 ^ 31 ≤ c.values.length then .error .panicked
  else if c.values.any arrow.isNull then .error (.error arrow.nonNullableField)
  else .ok ⟨arrow.listType c.dataType, [arrow.list c.values]⟩

section Source

variable [DecidableEq Ty] (source : ExpandSource E Ty Val) (inputColumnIndex : Nat)
  (edgeLabels targetVertexLabels : Option (Cubes Nat))

/-- The chunks that `Expand` yields for one row. -/
def expandRow (chunk : DataChunk Ty Val) (vertex i : Nat) : Stream E Ty Val :=
  forEach (fun row =>
    match source vertex edgeLabels targetVertexLabels with
    | none => []
    | some expandIter => forEach (fun neighborColumns => [do
        let lists ← neighborColumns.mapM (listColumn arrow)
        appendColumns row lists]) expandIter) [slice chunk i 1]

/-- Only columns of vertices without nulls are expanded. -/
def expandChunk (chunk : DataChunk Ty Val) : Stream E Ty Val :=
  let chunk := chunk.compact
  if chunk.len = 0 then []
  else
    match chunk.columns[inputColumnIndex]? with
    | none => [.error .panicked]
    | some inputColumn =>
      if inputColumn.dataType ≠ arrow.vertexType ∨ inputColumn.values.any arrow.isNull then
        [.error .panicked]
      else forEach (fun p =>
        expandRow arrow source edgeLabels targetVertexLabels chunk (arrow.vertex p.1) p.2)
        (inputColumn.values.zipIdx.map .ok)

def expand (child : Stream E Ty Val) : Stream E Ty Val :=
  forEach (expandChunk arrow source inputColumnIndex edgeLabels targetVertexLabels) child

end Source

/-- A column of lists, as the type of the items and the lists. -/
def asList (c : ArrayRef Ty Val) : Option (Ty × List (List Val)) :=
  (arrow.itemType c.dataType).map fun ty => (ty, c.values.map arrow.items)

/-- `Flatten` on one chunk. The lists of a row are as long as each other. -/
def flattenChunk (columnIndices : List Nat) (chunk : DataChunk Ty Val) :
    Except (Fault E) (DataChunk Ty Val) :=
  let chunk := chunk.compact
  match columnIndices.mapM fun i => chunk.columns[i]? with
  | none => .error .panicked
  | some columns =>
    match columns.mapM (asList arrow) with
    | none => .error .panicked
    | some columnsToFlatten =>
      let counts := ((columnsToFlatten.head?.map Prod.snd).getD []).map List.length
      if (columns.any fun c => c.values.any arrow.isNull) = false ∧
          columnsToFlatten.all (fun c => c.2.map List.length == counts) then
        if chunk.len = 0 then .error (.error arrow.nothingToConcat)
        else
          let indices := counts.zipIdx.flatMap fun (n, i) => List.replicate n i
          .ok (DataChunk.new (chunk.columns.zipIdx.map fun (column, i) =>
            match (columnIndices.idxOf? i).bind fun j => columnsToFlatten[j]? with
            | some (ty, segments) => ⟨ty, segments.flatten⟩
            | none => { column with values := indices.filterMap fun i => column.values[i]? }))
      else .error .panicked

def flatten (columnIndices : List Nat) (child : Stream E Ty Val) : Stream E Ty Val :=
  if columnIndices = [] ∨ ¬columnIndices.Nodup then [.error .panicked]
  else forEach (fun chunk => [flattenChunk arrow columnIndices chunk]) child

end Expand

end StreamExecutor

end MiniGU
