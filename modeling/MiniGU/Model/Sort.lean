import MiniGU.Model.ArrayValue

/-!
# Sorting (`gql/execution/src/executor/sort.rs`, `common/src/ordering.rs`)

The chunks of the child are put together, the keys are evaluated over the whole, and the rows are
taken in the order of the keys and cut into chunks again.

What the arrow library does to the key columns is a parameter (`RowConverter`): it compares values
of a column, makes rows of columns of one length, and these compare lexicographically under the
options of their columns. So is the unstable sort of the standard library.
-/

namespace MiniGU

inductive SortOrdering where
  | ascending
  | descending
deriving DecidableEq, Repr

inductive NullOrdering where
  | first
  | last
deriving DecidableEq, Repr

structure SortOptions where
  descending : Bool
  nullsFirst : Bool
deriving DecidableEq, Repr

def buildSortOptions (ordering : SortOrdering) (nullOrdering : NullOrdering) : SortOptions :=
  ⟨ordering = .descending, nullOrdering = .first⟩

/-- `arrow::row`: how the values of a column compare, nulls apart, the types that it supports, and
its errors. -/
structure RowConverter (E Ty Val : Type) where
  isNull : Val → Bool
  le : Val → Val → Bool
  total : ∀ a b, le a b = true ∨ le b a = true
  trans : ∀ a b c, le a b = true → le b c = true → le a c = true
  supports : Ty → Bool
  unsupported : E
  lengthMismatch : E

/-- An unstable sort puts elements in order, in whichever way it likes. -/
structure UnstableSort (α : Type) where
  sort : (α → α → Bool) → List α → List α
  perm : ∀ le l, (sort le l).Perm l
  sorted : ∀ (le : α → α → Bool) (l : List α),
    (∀ a ∈ l, ∀ b ∈ l, le a b = true ∨ le b a = true) →
    (∀ a ∈ l, ∀ b ∈ l, ∀ c ∈ l, le a b = true → le b c = true → le a c = true) →
    (sort le l).Pairwise fun a b => le a b = true

section Sorting

variable {E Ty Val : Type}

namespace RowConverter

variable (arrow : RowConverter E Ty Val)

/-- Values of one column under its options. -/
def optionLe (o : SortOptions) (a b : Val) : Bool :=
  match arrow.isNull a, arrow.isNull b with
  | true, true => true
  | true, false => o.nullsFirst
  | false, true => !o.nullsFirst
  | false, false => if o.descending then arrow.le b a else arrow.le a b

/-- Rows compare lexicographically. -/
def rowLe : List SortOptions → List Val → List Val → Bool
  | o :: os, a :: as, b :: bs => arrow.optionLe o a b && (!arrow.optionLe o b a || rowLe os as bs)
  | _, _, _ => true

/-- `RowConverter::new` and `convert_columns`: there are as many rows as the first column has
values, and the others have to have as many. -/
def convertColumns (columns : List (ArrayRef Ty Val)) : Except (Fault E) (List (List Val)) :=
  if columns.all fun a => arrow.supports a.dataType then
    let numRows := (columns.head?.map fun a => a.values.length).getD 0
    if columns.all fun a => a.values.length == numRows then
      .ok ((List.range numRows).map fun i => columns.filterMap fun a => a.values[i]?)
    else .error (.error arrow.lengthMismatch)
  else .error (.error arrow.unsupported)

end RowConverter

structure SortSpec (E Ty Val : Type) where
  key : Evaluator E Ty Val
  sortOrdering : SortOrdering
  nullOrdering : NullOrdering

def SortSpec.options (spec : SortSpec E Ty Val) : SortOptions :=
  buildSortOptions spec.sortOrdering spec.nullOrdering

namespace StreamExecutor

variable (arrow : RowConverter E Ty Val) (unstable : UnstableSort (Nat × List Val))
  (specs : List (SortSpec E Ty Val))

/-- The places of the rows in the order of the keys. -/
def sortedIndices (rows : List (List Val)) : List Nat :=
  (unstable.sort (fun p q => arrow.rowLe (specs.map SortSpec.options) p.2 q.2)
    (rows.zipIdx.map fun p => (p.2, p.1))).map Prod.fst

/-- The chunk of all rows in order, if there is a row. -/
def sortChunk [DecidableEq Ty] (child : Stream E Ty Val) :
    Except (Fault E) (Option (DataChunk Ty Val)) := do
  let chunk ← tryCollect child
  if chunk.len = 0 then .ok none
  else do
    let keyColumns ← specs.mapM fun spec => (spec.key chunk).map DatumRef.array
    let rows ← arrow.convertColumns keyColumns
    let sorted ← take chunk (sortedIndices arrow unstable specs rows)
    .ok (some sorted)

/-- The slices of a chunk at the multiples of a size. -/
def slices (size : Nat) (chunk : DataChunk Ty Val) : Stream E Ty Val :=
  (List.range' 0 ((chunk.len + size - 1) / size) size).map fun offset =>
    slice chunk offset (min size (chunk.len - offset))

/-- `Sort`. The constructor asserts that there is a key, and that the chunk size is positive. -/
def sort [DecidableEq Ty] (maxChunkSize : Nat) (child : Stream E Ty Val) : Stream E Ty Val :=
  if specs = [] ∨ maxChunkSize = 0 then [.error .panicked]
  else
    match sortChunk arrow unstable specs child with
    | .error e => [.error e]
    | .ok none => []
    | .ok (some chunk) => slices maxChunkSize chunk

end StreamExecutor

end Sorting

end MiniGU
