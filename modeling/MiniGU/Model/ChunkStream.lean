import MiniGU.Lib.Collect
import MiniGU.Model.Executor

/-!
# Streams of data chunks

The logical rows of a data chunk and of a stream of them (`common/src/data_chunk`), and the
executors that cut a stream short (`gql/execution/src/executor/limit.rs`, `offset.rs`).

An executor makes a stream out of streams. A stream that fails ends in its error; a panic counts
as one (`Fault`). The cells of a chunk are what the arrow library takes for values, nulls among
them; a null entry of a filter counts as `false`.
-/

namespace MiniGU

section Streams

variable {E Ty Val : Type}

abbrev Stream (E Ty Val : Type) := List (Except (Fault E) (DataChunk Ty Val))

namespace DataChunk

/-- The values of the row at a position. -/
def rowAt (c : DataChunk Ty Val) (i : Nat) : List Val := c.columns.filterMap fun a => a.values[i]?

/-- `rows`: the logical rows, those that the filter keeps. -/
def rows (c : DataChunk Ty Val) : List (List Val) := c.keptRows.map c.rowAt

/-- Whether the filter keeps the row at a position. -/
def keeps (c : DataChunk Ty Val) (i : Nat) : Bool :=
  match c.filter with
  | none => true
  | some f => f[i]?.getD false

/-- The physical rows, each with whether the filter keeps it. -/
def flagged (c : DataChunk Ty Val) : List (Bool × List Val) :=
  (List.range c.len).map fun i => (c.keeps i, c.rowAt i)

/-- There is a column, and columns and filter are as long as each other. -/
structure Aligned (c : DataChunk Ty Val) : Prop where
  columns : c.columns ≠ []
  lengths : ∀ a ∈ c.columns, a.values.length = c.len
  filter : ∀ f, c.filter = some f → f.length = c.len

end DataChunk

/-- The logical rows of a stream. -/
def rowsOf (cs : List (DataChunk Ty Val)) : List (List Val) := cs.flatMap DataChunk.rows

/-- The physical rows of a stream, each with whether it is a logical one. -/
def flaggedOf (cs : List (DataChunk Ty Val)) : List (Bool × List Val) :=
  cs.flatMap DataChunk.flagged

/-! ## Cutting and joining chunks -/

namespace StreamExecutor

/-- `DataChunk::slice`, which panics out of bounds. -/
def slice (c : DataChunk Ty Val) (offset length : Nat) : Except (Fault E) (DataChunk Ty Val) :=
  if offset + length ≤ c.len then
    .ok {
      columns := c.columns.map fun a => { a with values := (a.values.drop offset).take length }
      filter := c.filter.map fun f => (f.drop offset).take length
      curIdx := some 0 }
  else .error .panicked

/-- `DataChunk::take`, which panics out of bounds. -/
def take (c : DataChunk Ty Val) (indices : List Nat) : Except (Fault E) (DataChunk Ty Val) :=
  if indices.all fun i => i < c.len then
    .ok {
      columns := c.takeRows indices
      filter := c.filter.map fun f => indices.filterMap fun i => f[i]?
      curIdx := some 0 }
  else .error .panicked

/-- `DataChunk::concat`, which compacts the chunks. It panics without a chunk, and on chunks whose
columns do not match. -/
def concat [DecidableEq Ty] (chunks : List (DataChunk Ty Val)) :
    Except (Fault E) (DataChunk Ty Val) :=
  match chunks.map DataChunk.compact with
  | [] => .error .panicked
  | first :: rest =>
    if rest.all fun c => c.columns.map ArrayRef.dataType = first.columns.map ArrayRef.dataType then
      .ok (DataChunk.new (first.columns.zipIdx.map fun (a, i) =>
        { a with values := (first :: rest).flatMap fun c =>
            ((c.columns[i]?).map ArrayRef.values).getD [] }))
    else .error .panicked

/-- The chunks before the first error of a stream. -/
def chunksBefore : Stream E Ty Val → List (DataChunk Ty Val)
  | .ok chunk :: rest => chunk :: chunksBefore rest
  | .error _ :: _ | [] => []

/-- The first error of a stream. -/
def firstError : Stream E Ty Val → Option (Fault E)
  | .ok _ :: rest => firstError rest
  | .error e :: _ => some e
  | [] => none

/-- `try_collect` into a chunk: the chunks before an error are put together all the same. -/
def tryCollect [DecidableEq Ty] (child : Stream E Ty Val) : Except (Fault E) (DataChunk Ty Val) := do
  let chunk ← concat (chunksBefore child)
  match firstError child with
  | some e => .error e
  | none => .ok chunk

/-! ## Limit and offset -/

/-- The loop of `Limit`, where `count` rows have been let through. -/
def limitFrom (limit : Nat) : Nat → Stream E Ty Val → Stream E Ty Val
  | _, [] => []
  | _, .error e :: _ => [.error e]
  | count, .ok chunk :: rest =>
    if limit ≤ count then []
    else
      let remaining := limit - count
      if chunk.len ≤ remaining then .ok chunk :: limitFrom limit (count + chunk.len) rest
      else [slice chunk 0 remaining]

def limit (n : Nat) (child : Stream E Ty Val) : Stream E Ty Val := limitFrom n 0 child

/-- The loop of `Offset`, where `skipped` rows have been left out. -/
def offsetFrom (offset : Nat) : Nat → Stream E Ty Val → Stream E Ty Val
  | _, [] => []
  | _, .error e :: _ => [.error e]
  | skipped, .ok chunk :: rest =>
    if skipped < offset then
      let remaining := offset - skipped
      if chunk.len ≤ remaining then offsetFrom offset (skipped + chunk.len) rest
      else slice chunk remaining (chunk.len - remaining) :: offsetFrom offset offset rest
    else .ok chunk :: offsetFrom offset skipped rest

def offset (n : Nat) (child : Stream E Ty Val) : Stream E Ty Val := offsetFrom n 0 child

end StreamExecutor

end Streams

end MiniGU
