import MiniGU.Lib.Products

/-!
# Data chunks and result sets (`common/src/data_chunk`, `common/src/result_set.rs`)

A data chunk is a list of columns of one length, with a filter over its rows and, inside a
factorized result set, a cursor: a chunk with a cursor is flat and stands for one row, one
without is unflat and stands for all that its filter keeps. A result set stands for the
Cartesian product of its chunks, `factor` times.

The arrays are those of the arrow library, here a data type and the list of their values;
`Ty` and `Val` are what the library takes for these.
-/

namespace MiniGU

variable {Ty Val : Type}

structure ArrayRef (Ty Val : Type) where
  dataType : Ty
  values : List Val
deriving DecidableEq, Repr

structure DataChunk (Ty Val : Type) where
  columns : List (ArrayRef Ty Val)
  filter : Option (List Bool)
  curIdx : Option Nat
deriving DecidableEq, Repr

namespace DataChunk

def new (columns : List (ArrayRef Ty Val)) : DataChunk Ty Val where
  columns := columns
  filter := none
  curIdx := some 0

def setCurIdx (c : DataChunk Ty Val) (idx : Option Nat) : DataChunk Ty Val :=
  { c with curIdx := idx }

def setUnflat (c : DataChunk Ty Val) : DataChunk Ty Val := c.setCurIdx none

def isUnflat (c : DataChunk Ty Val) : Bool := c.curIdx.isNone

/-- The length of the first column; there is one. -/
def len (c : DataChunk Ty Val) : Nat := (c.columns.head?.map fun a => a.values.length).getD 0

/-- The rows that the filter keeps. -/
def keptRows (c : DataChunk Ty Val) : List Nat :=
  match c.filter with
  | none => List.range c.len
  | some f => (List.range c.len).filter fun i => f[i]?.getD false

def cardinality (c : DataChunk Ty Val) : Nat :=
  match c.filter with
  | none => c.len
  | some f => f.count true

/-- Columns and filter are as long as each other, and the cursor is at a row. -/
structure WellFormed (c : DataChunk Ty Val) : Prop where
  columns : c.columns ≠ []
  lengths : ∀ a ∈ c.columns, a.values.length = c.len
  filter : ∀ f, c.filter = some f → f.length = c.len
  curIdx : ∀ i, c.curIdx = some i → i < c.len

end DataChunk

structure DataPos where
  dataChunkPos : Nat
  columnPos : Nat
deriving DecidableEq, Repr

structure ResultSet (Ty Val : Type) where
  factor : Nat
  dataChunks : List (DataChunk Ty Val)
deriving DecidableEq, Repr

namespace ResultSet

def new : ResultSet Ty Val := ⟨1, []⟩

def getDataChunk (rs : ResultSet Ty Val) (pos : Nat) : Option (DataChunk Ty Val) :=
  rs.dataChunks[pos]?

/-- `get_column`, which panics where there is none. -/
def getColumn (rs : ResultSet Ty Val) (pos : DataPos) : Option (ArrayRef Ty Val) :=
  (rs.getDataChunk pos.dataChunkPos).bind fun c => c.columns[pos.columnPos]?

def push (rs : ResultSet Ty Val) (c : DataChunk Ty Val) : ResultSet Ty Val :=
  { rs with dataChunks := rs.dataChunks ++ [c] }

def getFlatChunks (rs : ResultSet Ty Val) : List Nat :=
  (rs.dataChunks.zipIdx.filter fun p => !p.1.isUnflat).map Prod.snd

/-- `get_num_tuples_without_factor` at 64 bits, wrapping as in a release build; `none` is the failed
assertion that there are positions. A flat chunk does not count. -/
def numTuplesWithoutFactorU64 (rs : ResultSet Ty Val) (positions : List Nat) : Option Nat :=
  if positions = [] then none
  else some (positions.foldl (fun numTuples pos =>
    match rs.dataChunks[pos]? with
    | some c => if c.isUnflat then numTuples * c.cardinality % 2 ^ 64 else numTuples
    | none => numTuples) 1)

/-- `get_num_tuples` at 64 bits. -/
def numTuplesU64 (rs : ResultSet Ty Val) (positions : List Nat) : Option Nat :=
  (rs.numTuplesWithoutFactorU64 positions).map fun n => n * rs.factor % 2 ^ 64

def allChunks (rs : ResultSet Ty Val) : List Nat := List.range rs.dataChunks.length

/-- `remove_chunk` at each position. The higher positions are removed first. -/
def removeMultipleChunks (rs : ResultSet Ty Val) (positions : List Nat) : ResultSet Ty Val :=
  { rs with dataChunks := swapRemoveAll rs.dataChunks positions }

/-- Every chunk of the result set is well formed. -/
def WellFormed (rs : ResultSet Ty Val) : Prop := ∀ c ∈ rs.dataChunks, c.WellFormed

end ResultSet

end MiniGU
