import MiniGU.Lib.MultiMap
import MiniGU.Model.Aggregate

/-!
# Hash join (`gql/execution/src/executor/join.rs`)

The left side is put into a hash table from join keys to places, a place being the number of a
chunk and a row there; each chunk of the right side is probed with its keys, row by row. Both go
over the physical rows of their chunks. The pairs that match are grouped by the left chunk, and
their rows taken and put side by side.

Chunk and row numbers are `u32`. The order in which the map of the groups is iterated is a
parameter.
-/

namespace MiniGU

section Join

variable {E Ty Val F32 F64 : Type}

/-- The evaluator of a join key, whose array is one that is indexed. -/
abbrev KeyEvaluator (E Ty Val F32 F64 : Type) :=
  DataChunk Ty Val → Except (Fault E) (DatumRef ArrayType (Value F32 F64))

structure JoinCond (E Ty Val F32 F64 : Type) where
  leftKey : KeyEvaluator E Ty Val F32 F64
  rightKey : KeyEvaluator E Ty Val F32 F64

namespace StreamExecutor

/-- `try_into` a `u32`, which is expected to succeed. -/
def toU32 (n : Nat) : Except (Fault E) Nat := if n < 2 ^ 32 then .ok n else .error .panicked

def makeJoinKey (arrs : List (ValueArray F32 F64)) (row : Nat) :
    Except (Fault E) (GroupKey F32 F64) :=
  arrs.mapM fun arr => arr.index row

/-- The key columns of a chunk. -/
def keyColumns (evals : List (KeyEvaluator E Ty Val F32 F64)) (chunk : DataChunk Ty Val) :
    Except (Fault E) (List (ValueArray F32 F64)) :=
  evals.mapM fun e => (e chunk).map DatumRef.array

/-- The hash table, and the chunks that it has places in. -/
structure BuildSide (Ty Val F32 F64 : Type) where
  hashTable : List (GroupKey F32 F64 × List (Nat × Nat))
  chunks : List (DataChunk Ty Val)

section Join

variable [DecidableEq F32] [DecidableEq F64] (ops : FloatOps F32 F64)

/-- One chunk of the left side goes into the table. -/
def buildChunk (leftEval : List (KeyEvaluator E Ty Val F32 F64)) (side : BuildSide Ty Val F32 F64)
    (chunk : DataChunk Ty Val) : Except (Fault E) (BuildSide Ty Val F32 F64) := do
  let keyCols ← keyColumns leftEval chunk
  let chunkId ← toU32 side.chunks.length
  let hashTable ← (List.range chunk.len).foldlM (fun table row => do
    let rowId ← toU32 row
    let key ← makeJoinKey keyCols row
    .ok (pushEntry (sameKey ops) key (chunkId, rowId) table)) side.hashTable
  .ok ⟨hashTable, side.chunks ++ [chunk]⟩

def build (leftEval : List (KeyEvaluator E Ty Val F32 F64)) (left : Stream E Ty Val) :
    Except (Fault E) (BuildSide Ty Val F32 F64) :=
  left.foldlM (fun side item => do
    let chunk ← item
    buildChunk ops leftEval side chunk) ⟨[], []⟩

/-- `append_columns`, which panics on columns of another length. -/
def appendColumns (c : DataChunk Ty Val) (columns : List (ArrayRef Ty Val)) :
    Except (Fault E) (DataChunk Ty Val) :=
  let all := { c with columns := c.columns ++ columns }
  if all.columns.all fun a => a.values.length == all.len then .ok all else .error .panicked

/-- The rows of a left chunk next to those of the right one. -/
def joinPairs (chunks : List (DataChunk Ty Val)) (chunk : DataChunk Ty Val) (chunkId : Nat)
    (pairs : List (Nat × Nat)) : Except (Fault E) (DataChunk Ty Val) :=
  match chunks[chunkId]? with
  | none => .error .panicked
  | some left => do
    let leftChunk ← take left (pairs.map Prod.fst)
    let rightChunk ← take chunk (pairs.map Prod.snd)
    appendColumns leftChunk rightChunk.columns

/-- The places that a chunk of the right side matches, each with its row. -/
def probeRows (rightEval : List (KeyEvaluator E Ty Val F32 F64)) (side : BuildSide Ty Val F32 F64)
    (chunk : DataChunk Ty Val) : Except (Fault E) (List (Nat × Nat × Nat)) := do
  let keyCols ← keyColumns rightEval chunk
  let triples ← (List.range chunk.len).mapM fun row => do
    let rowId ← toU32 row
    let key ← makeJoinKey keyCols row
    .ok ((getEntry (sameKey ops) key side.hashTable).map fun (chunkId, leftRow) =>
      (chunkId, leftRow, rowId))
  .ok triples.flatten

/-- The pairs of rows of each left chunk. -/
def groupTriples (triples : List (Nat × Nat × Nat)) : List (Nat × List (Nat × Nat)) :=
  triples.foldl (fun grouped t => pushEntry (fun k k' => k == k') t.1 t.2 grouped) []

/-- What a chunk of the right side is joined with; nothing where no row matches. -/
def probeChunk [DecidableEq Ty] (order : List (Nat × List (Nat × Nat)) → List (Nat × List (Nat × Nat)))
    (rightEval : List (KeyEvaluator E Ty Val F32 F64)) (side : BuildSide Ty Val F32 F64)
    (chunk : DataChunk Ty Val) : Except (Fault E) (Option (DataChunk Ty Val)) := do
  let triples ← probeRows ops rightEval side chunk
  if triples = [] then .ok none
  else do
    let joinedChunks ← (order (groupTriples triples)).mapM fun g =>
      joinPairs side.chunks chunk g.1 g.2
    let joinedChunk ← concat joinedChunks
    .ok (some joinedChunk)

/-- The loop over the right side. -/
def probe [DecidableEq Ty] (order : List (Nat × List (Nat × Nat)) → List (Nat × List (Nat × Nat)))
    (rightEval : List (KeyEvaluator E Ty Val F32 F64)) (side : BuildSide Ty Val F32 F64) :
    Stream E Ty Val → Stream E Ty Val
  | [] => []
  | .error e :: _ => [.error e]
  | .ok chunk :: rest =>
    match probeChunk ops order rightEval side chunk with
    | .error e => [.error e]
    | .ok none => probe order rightEval side rest
    | .ok (some joined) => .ok joined :: probe order rightEval side rest

def join [DecidableEq Ty] (order : List (Nat × List (Nat × Nat)) → List (Nat × List (Nat × Nat)))
    (conds : List (JoinCond E Ty Val F32 F64)) (left right : Stream E Ty Val) : Stream E Ty Val :=
  match build ops (conds.map JoinCond.leftKey) left with
  | .error e => [.error e]
  | .ok side => probe ops order (conds.map JoinCond.rightKey) side right

end Join

end StreamExecutor

end Join

end MiniGU
