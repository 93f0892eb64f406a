import MiniGU.Model.DataChunk

/-!
# The flat executors (`gql/execution/src/executor`)

Expand and flatten over streams of data chunks. A stream that is drained either gives all its
chunks or ends in an error; a failed assertion or a cast to the wrong kind of array counts as
one. The columns that these executors look into hold ids, or lists of ids.
-/

namespace MiniGU

inductive Cell where
  | id (n : Nat)
  | list (ns : List Nat)
deriving DecidableEq, Repr

inductive CellType where
  | uint64
  | list
deriving DecidableEq, Repr

abbrev Column := ArrayRef CellType Cell
abbrev Chunk := DataChunk CellType Cell

inductive ExecutionError where
  | panicked
  | nothingToConcat
deriving DecidableEq, Repr

abbrev ExecutionResult (α : Type) := Except ExecutionError α

def idColumn (ns : List Nat) : Column := ⟨.uint64, ns.map .id⟩

def listColumn (lists : List (List Nat)) : Column := ⟨.list, lists.map .list⟩

def asPrimitive (c : Column) : Option (List Nat) :=
  match c.dataType with
  | .list => none
  | .uint64 => c.values.mapM fun
    | .id n => some n
    | .list _ => none

def asList (c : Column) : Option (List (List Nat)) :=
  match c.dataType with
  | .uint64 => none
  | .list => c.values.mapM fun
    | .id _ => none
    | .list ns => some ns

namespace DataChunk

variable {Ty Val : Type}

/-- The rows at the given positions of every column. -/
def takeRows (c : DataChunk Ty Val) (rows : List Nat) : List (ArrayRef Ty Val) :=
  c.columns.map fun a => { a with values := rows.filterMap fun i => a.values[i]? }

def compact (c : DataChunk Ty Val) : DataChunk Ty Val :=
  match c.filter with
  | none => c
  | some _ => { c with columns := c.takeRows c.keptRows, filter := none }

/-- `slice(i, 1)`. -/
def slice1 (c : DataChunk Ty Val) (i : Nat) : DataChunk Ty Val where
  columns := c.takeRows [i]
  filter := c.filter.map fun f => f[i]?.toList
  curIdx := some 0

def appendColumns (c : DataChunk Ty Val) (columns : List (ArrayRef Ty Val)) :
    ExecutionResult (DataChunk Ty Val) :=
  let all := c.columns ++ columns
  if all.all fun a => a.values.length == (DataChunk.mk all c.filter c.curIdx).len then
    .ok { c with columns := all }
  else .error .panicked

end DataChunk

/-- `expand_from_vertex`: batches of columns, `none` where the vertex cannot be read. -/
abbrev ExpandSource :=
  Nat → Option (Cubes Nat) → Option (Cubes Nat) → Option (List (List (List Nat)))

namespace Executor

/-- What `Expand` makes of the row `i` of a chunk, at the vertex that stands there: for each batch
of neighbours the row with the batch's columns as lists. -/
def expandRow (source : ExpandSource) (edgeLabels targetLabels : Option (Cubes Nat)) (chunk : Chunk)
    (vertex i : Nat) : ExecutionResult (List Chunk) :=
  match source vertex edgeLabels targetLabels with
  | none => .ok []
  | some expandIter => expandIter.mapM fun neighborColumns =>
    (chunk.slice1 i).appendColumns (neighborColumns.map fun column => listColumn [column])

def expandChunk (source : ExpandSource) (inputColumnIndex : Nat)
    (edgeLabels targetLabels : Option (Cubes Nat)) (c : Chunk) : ExecutionResult (List Chunk) :=
  let chunk := c.compact
  if chunk.len = 0 then .ok []
  else
    match chunk.columns[inputColumnIndex]?.bind asPrimitive with
    | none => .error .panicked
    | some inputColumn => do
      let expanded ← inputColumn.zipIdx.mapM fun p =>
        expandRow source edgeLabels targetLabels chunk p.1 p.2
      .ok expanded.flatten

def expand (source : ExpandSource) (inputColumnIndex : Nat)
    (edgeLabels targetLabels : Option (Cubes Nat)) (child : List Chunk) :
    ExecutionResult (List Chunk) := do
  let expanded ← child.mapM (expandChunk source inputColumnIndex edgeLabels targetLabels)
  .ok expanded.flatten

/-- `Flatten` on one chunk: the lists of the given columns are laid out, and the rows of the
other columns repeated along. -/
def flattenChunk (columnIndices : List Nat) (c : Chunk) : ExecutionResult Chunk :=
  let chunk := c.compact
  match columnIndices.mapM fun i => chunk.columns[i]?.bind asList with
  | none => .error .panicked
  | some columnsToFlatten =>
    let counts := (columnsToFlatten.head?.getD []).map List.length
    if columnsToFlatten.all fun segments => segments.map List.length == counts then
      if chunk.len = 0 then .error .nothingToConcat
      else
        let indices := counts.zipIdx.flatMap fun (n, i) => List.replicate n i
        let newColumns := chunk.columns.zipIdx.map fun (column, i) =>
          match columnIndices.idxOf? i with
          | some j => idColumn (columnsToFlatten[j]?.getD []).flatten
          | none => { column with values := indices.filterMap fun i => column.values[i]? }
        .ok (DataChunk.new newColumns)
    else .error .panicked

def flatten (columnIndices : List Nat) (child : List Chunk) : ExecutionResult (List Chunk) :=
  if columnIndices = [] ∨ ¬columnIndices.Nodup then .error .panicked
  else child.mapM (flattenChunk columnIndices)

end Executor

def Cell.id? : Cell → Option Nat
  | .id n => some n
  | .list _ => none

/-- The rows of a chunk of ids that its filter keeps. -/
def idRows (c : Chunk) : List (List (Option Nat)) :=
  c.keptRows.map fun i => c.columns.map fun a => a.values[i]?.bind Cell.id?

end MiniGU
