import MiniGU.Model.Evaluator
import MiniGU.Model.Executor
import MiniGU.Model.FactorizedAggregate
import Mathlib.Data.List.SplitLengths

/-!
# The factorized executors (`gql/execution/src/factorized_executor`)

Transfer, expand, flatten and projection over streams of result sets, and the flat executors that
they stand beside: filter and the filter inside list columns (`gql/execution/src/executor`). The
aggregations are those of `FactorizedAggregate` and `Aggregate`, which look at ids as values.

As with the flat executors, a drained stream gives all its results or an error.

In the projection (`factorized_project.rs`) the chunks that the expressions evaluate to become the
chunks of the output, whose factor is the number of tuples of the input over that of the new chunks.
-/

namespace MiniGU

abbrev IdResultSet := ResultSet CellType Cell

/-- The ids in row `i` of a chunk. -/
def idRow (c : Chunk) (i : Nat) : List (Option Nat) := c.columns.map fun a => a.values[i]?.bind Cell.id?

/-- `DataChunk::new`, with what it asserts. -/
def newChunk {Ty Val : Type} (columns : List (ArrayRef Ty Val)) :
    ExecutionResult (DataChunk Ty Val) :=
  if columns ≠ [] ∧ ∀ a ∈ columns, a.values.length = (DataChunk.new columns).len then
    .ok (DataChunk.new columns)
  else .error .panicked

namespace FactorizedExecutor

/-- One result set for each row. -/
def factorizedTransfer (child : List Chunk) : List IdResultSet :=
  child.flatMap fun c =>
    (List.range c.compact.len).map fun i => ResultSet.new.push (c.compact.setCurIdx (some i))

/-- The column `colIdx` of the batches, one after the other. -/
def concatColumn (allNeighborColumns : List (List (List Nat))) (colIdx : Nat) :
    ExecutionResult Column :=
  match allNeighborColumns.mapM fun batch => batch[colIdx]? with
  | none => .error .panicked
  | some arrays => .ok (idColumn arrays.flatten)

def expandResultSet (source : ExpandSource) (pos : DataPos) (rs : IdResultSet) :
    ExecutionResult IdResultSet :=
  match (rs.getColumn pos).bind asPrimitive, (rs.getDataChunk pos.dataChunkPos).bind DataChunk.curIdx with
  | some inputColumn, some curIdx =>
    match inputColumn[curIdx]? with
    | none => .ok rs
    | some vertexId =>
      match (source vertexId none none).getD [] with
      -- no neighbours: the result set goes on as it came
      | [] => .ok rs
      | first :: rest => do
        let mergedColumns ← (List.range first.length).mapM (concatColumn (first :: rest))
        let chunk ← newChunk mergedColumns
        .ok (rs.push chunk.setUnflat)
  | _, _ => .error .panicked

def factorizedExpand (source : ExpandSource) (pos : DataPos) (child : List IdResultSet) :
    ExecutionResult (List IdResultSet) :=
  child.mapM (expandResultSet source pos)

section Flatten

variable {Ty Val : Type}

/-- The value at the cursor, `n` times. -/
def replicateColumn (curIdx n : Nat) (column : ArrayRef Ty Val) :
    ExecutionResult (ArrayRef Ty Val) :=
  match column.values[curIdx]? with
  | none => .error .panicked
  | some v => .ok { column with values := List.replicate n v }

def flattenResultSet (target : Nat) (rs : ResultSet Ty Val) :
    ExecutionResult (List (ResultSet Ty Val)) :=
  match rs.getDataChunk target, rs.getFlatChunks.head? with
  | some targetChunk, some flatChunkPos =>
    match (rs.getDataChunk flatChunkPos).map fun c => (c, c.curIdx) with
    | some (flatChunk, some curIdx) =>
      if targetChunk.isUnflat then do
        let replicated ← flatChunk.columns.mapM (replicateColumn curIdx targetChunk.len)
        let merged ← newChunk (replicated ++ targetChunk.columns)
        let rest := rs.removeMultipleChunks [flatChunkPos, target]
        .ok ((List.range targetChunk.len).map fun row => rest.push (merged.setCurIdx (some row)))
      else .error .panicked
    | _ => .error .panicked
  | _, _ => .error .panicked

def factorizedFlatten (target : Nat) (child : List (ResultSet Ty Val)) :
    ExecutionResult (List (ResultSet Ty Val)) := do
  let flattened ← child.mapM (flattenResultSet target)
  .ok flattened.flatten

end Flatten

end FactorizedExecutor

/-! ## Ids under an aggregate -/

section Values

variable {F32 F64 : Type}

/-- An entry as `index` reads it; a list is no scalar. -/
def Cell.value : Cell → Value F32 F64
  | .id n => .int .uint64 (some n)
  | .list _ => .scalar .null

def CellType.arrayType : CellType → ArrayType
  | .uint64 => .scalar (.int .uint64)
  | .list => .other

/-- The chunk as an aggregation looks at it. -/
def DataChunk.asValues (c : Chunk) : ValueChunk F32 F64 where
  columns := c.columns.map fun a => ⟨a.dataType.arrayType, a.values.map Cell.value⟩
  filter := c.filter
  curIdx := c.curIdx

def ResultSet.asValues (rs : IdResultSet) : StreamExecutor.ValueResultSet F32 F64 where
  factor := rs.factor
  dataChunks := rs.dataChunks.map DataChunk.asValues

end Values

/-! ## Filters -/

/-- `factorized_compact`: the lists of some columns are filtered, those of each row by its list. -/
def DataChunk.factorizedCompact (c : Chunk) (filterList : List (List Bool))
    (unflatColumnIndices : List Nat) : ExecutionResult Chunk :=
  if c.len = filterList.length then
    let flatFilter := filterList.flatten
    let counts := filterList.map (List.count true)
    unflatColumnIndices.foldlM (fun c colIdx =>
      match c.columns[colIdx]?.bind asList with
      | none => .error .panicked
      | some lists =>
        let flatValues := lists.flatten
        if flatValues.length = flatFilter.length then
          let newFlatValues := ((flatValues.zip flatFilter).filter Prod.snd).map Prod.fst
          .ok { c with columns := c.columns.set colIdx (listColumn (counts.splitLengths newFlatValues)) }
        else .error .panicked) c
  else .error .panicked

namespace Executor

variable (predicate : Chunk → ExecutionResult (List Bool))

/-- The old filter and the new one; a null in either counts as false. -/
def andFilter (c : Chunk) (filter : List Bool) : ExecutionResult (List Bool) :=
  match c.filter with
  | none => .ok filter
  | some old =>
    if old.length = filter.length then .ok (List.zipWith (· && ·) old filter) else .error .panicked

def filterChunk (c : Chunk) : ExecutionResult (List Chunk) := do
  let filter ← predicate c
  let filter ← andFilter c filter
  if filter.count true = 0 then .ok []
  else if filter.count true = c.len then .ok [{ c with filter := none }]
  else if filter.length = c.len then .ok [{ c with filter := some filter }]
  else .error .panicked

def filter (child : List Chunk) : ExecutionResult (List Chunk) := do
  let filtered ← child.mapM (filterChunk predicate)
  .ok filtered.flatten

def factorizedFilter (predicate : Chunk → ExecutionResult (List (List Bool)))
    (unflatColumnIndices : List Nat) (child : List Chunk) : ExecutionResult (List Chunk) :=
  child.mapM fun c => do
    let filterList ← predicate c
    c.factorizedCompact filterList unflatColumnIndices

end Executor

/-! ## Projection -/

section Project

variable {K : Kernels}

def orPanic {α : Type} : Option α → K.Result α
  | none => .error .panicked
  | some a => .ok a

/-- The output for one result set. A division by zero panics. -/
def projectResultSet (evaluators : List (FactorizedExpr K.Ty K.Val)) (input : K.Rows) :
    K.Result K.Rows := do
  let inputTotalNumTuples ← orPanic (input.numTuplesU64 input.allChunks)
  let chunks ← evaluators.mapM (FactorizedExpr.evaluate input)
  let resultSet : K.Rows := chunks.foldl ResultSet.push ResultSet.new
  let outputNumTuplesWithoutFactor ←
    orPanic (resultSet.numTuplesWithoutFactorU64 resultSet.allChunks)
  if outputNumTuplesWithoutFactor = 0 then .error .panicked
  else .ok { resultSet with factor := inputTotalNumTuples / outputNumTuplesWithoutFactor }

def factorizedProject (evaluators : List (FactorizedExpr K.Ty K.Val)) (child : List K.Rows) :
    K.Result (List K.Rows) :=
  child.mapM (projectResultSet evaluators)

end Project

end MiniGU
