import MiniGU.Lib.Segments
import MiniGU.Model.Executor

/-!
# List arrays and their compaction (`factorized_compact` of `common/src/data_chunk/mod.rs`)

A list array of the arrow library keeps the elements of all its lists in one array, and offsets
that cut the lists out of it. A slice keeps all elements, so that offsets need not start at the
first element or end at the last. `DataChunk.factorizedCompact` takes lists for what they stand
for; here they are as they are stored.
-/

namespace MiniGU

/-- `ListArray`: `nulls` says of each row whether its list is there. -/
structure ListArray (α : Type) where
  offsets : List Nat
  values : List α
  nulls : Option (List Bool)
  ne_nil : offsets ≠ []
  sorted : offsets.Pairwise (· ≤ ·)
  bounded : ∀ o ∈ offsets, o ≤ values.length

namespace ListArray

variable {α : Type}

def len (a : ListArray α) : Nat := a.offsets.length - 1

/-- `value(i)`, which does not look at the nulls. -/
def value (a : ListArray α) (i : Nat) : List α :=
  match a.offsets[i]?, a.offsets[i + 1]? with
  | some start, some stop => (a.values.take stop).drop start
  | _, _ => []

def isValid (a : ListArray α) (i : Nat) : Bool :=
  match a.nulls with
  | none => true
  | some nulls => nulls[i]?.getD false

/-- The list of a row. -/
def row (a : ListArray α) (i : Nat) : Option (List α) := if a.isValid i then some (a.value i) else none

/-- `ListArray::new` without nulls; it panics on offsets that are out of order or out of bounds. -/
def new (offsets : List Nat) (values : List α) : ExecutionResult (ListArray α) :=
  if h : offsets ≠ [] ∧ offsets.Pairwise (· ≤ ·) ∧ ∀ o ∈ offsets, o ≤ values.length then
    .ok ⟨offsets, values, none, h.1, h.2.1, h.2.2⟩
  else .error .panicked

end ListArray

/-- A column: one value a row, or a list of them. -/
inductive ColumnArray (Ty Val : Type) where
  | flat (array : ArrayRef Ty Val)
  | list (field : Ty) (array : ListArray Val)

def ColumnArray.len {Ty Val : Type} : ColumnArray Ty Val → Nat
  | .flat array => array.values.length
  | .list _ array => array.len

/-- A data chunk with its arrays as they are stored. -/
structure ArrayChunk (Ty Val : Type) where
  columns : List (ColumnArray Ty Val)
  filter : Option (List Bool)
  curIdx : Option Nat

namespace ArrayChunk

variable {Ty Val : Type}

def len (c : ArrayChunk Ty Val) : Nat := (c.columns.head?.map ColumnArray.len).getD 0

/-- The bits of a mask; a null counts as false. -/
def bits (mask : List (Option Bool)) : List Bool := mask.map fun b => b == some true

/-- `filter` of the compute kernels. -/
def filterValues (values : List Val) (flatFilter : List (Option Bool)) : List Val :=
  selectBy values (bits flatFilter)

def trueCount (mask : List (Option Bool)) : Nat := (bits mask).count true

/-- The offsets after the number of `true`s in each list of the mask. -/
def newOffsets (filterList : ListArray (Option Bool)) : List Nat :=
  offsetsFrom 0 ((List.range filterList.len).map fun i => trueCount (filterList.value i))

/-- The body of the loop over the columns. -/
def compactColumn (filterList : ListArray (Option Bool)) :
    ColumnArray Ty Val → ExecutionResult (ColumnArray Ty Val)
  | .flat _ => .error .panicked
  | .list field listArray =>
    if listArray.values.length = filterList.values.length then do
      let newListArray ← ListArray.new (newOffsets filterList)
        (filterValues listArray.values filterList.values)
      return .list field newListArray
    else .error .panicked

def factorizedCompact (c : ArrayChunk Ty Val) (filterList : ListArray (Option Bool))
    (unflatColumnIndices : List Nat) : ExecutionResult (ArrayChunk Ty Val) :=
  if c.len = filterList.len then
    unflatColumnIndices.foldlM (fun c colIdx =>
      match c.columns[colIdx]? with
      | none => .error .panicked
      | some column => do
        let newColumn ← compactColumn filterList column
        return { c with columns := c.columns.set colIdx newColumn }) c
  else .error .panicked

end ArrayChunk

end MiniGU
