import MiniGU.Model.Aggregate

/-!
# Factorized aggregation (`gql/execution/src/factorized_executor/factorized_simple_aggregate.rs`)

The aggregates of `executor/aggregate.rs` over a stream of result sets, without grouping. A value
of the payload chunk of an aggregate goes into its state as often as the other chunks have tuples;
`COUNT(*)` counts the tuples of all chunks.

A drained stream gives all its result sets or an error.
-/

namespace MiniGU

namespace StreamExecutor

variable {E F32 F64 : Type}

abbrev ValueResultSet (F32 F64 : Type) := ResultSet ArrayType (Value F32 F64)

/-- The chunk that an expression operates on; there is no expression for `COUNT(*)`. -/
structure FactorizedExpression (E F32 F64 : Type) where
  chunkPos : Nat
  expression : Option (Evaluator E ArrayType (Value F32 F64))

structure SimpleAggregateSpec (E F32 F64 : Type) where
  function : AggregateFunction
  distinct : Bool
  expression : FactorizedExpression E F32 F64

namespace SimpleAggregateSpec

def count : SimpleAggregateSpec E F32 F64 := ⟨.count, false, ⟨0, none⟩⟩

variable (chunkPos : Nat) (expression : Option (Evaluator E ArrayType (Value F32 F64)))

def countExpression (distinct : Bool) : SimpleAggregateSpec E F32 F64 :=
  ⟨.countExpression, distinct, ⟨chunkPos, expression⟩⟩

def sum (distinct : Bool) : SimpleAggregateSpec E F32 F64 := ⟨.sum, distinct, ⟨chunkPos, expression⟩⟩

def avg (distinct : Bool) : SimpleAggregateSpec E F32 F64 := ⟨.avg, distinct, ⟨chunkPos, expression⟩⟩

def min : SimpleAggregateSpec E F32 F64 := ⟨.min, false, ⟨chunkPos, expression⟩⟩

def max : SimpleAggregateSpec E F32 F64 := ⟨.max, false, ⟨chunkPos, expression⟩⟩

end SimpleAggregateSpec

section Process

variable (ops : FloatOps F32 F64) (computeError : String → E)

/-- A panic where there is nothing. -/
def unwrap {α : Type} : Option α → Except (Fault E) α
  | some a => .ok a
  | none => .error .panicked

/-- A value goes into the state, `factor` times. -/
def updateTimes (factor : Nat) (state : AggregateState F64) (value : Option (Value F32 F64)) :
    Except (Fault E) (AggregateState F64) :=
  (List.replicate factor value).foldlM (AggregateState.update ops) state

/-- How often a value of the payload chunk counts. Only the last multiplication is checked. -/
def payloadFactor (input : ValueResultSet F32 F64) (payloadChunkIdx : Nat) :
    Except (Fault E) Nat := do
  let chunksInScope := input.allChunks.filter fun i => i != payloadChunkIdx
  if chunksInScope = [] then .ok input.factor
  else
    let numTuples ← unwrap (input.numTuplesWithoutFactorU64 chunksInScope)
    if numTuples * input.factor < 2 ^ 64 then .ok (numTuples * input.factor)
    else .error (.error (computeError "Factor multiplication overflow during aggregation"))

/-- A scalar that is not null goes into the state. -/
def updateScalar (factor : Nat) (state : AggregateState F64) (scalar : Value F32 F64) :
    Except (Fault E) (AggregateState F64) :=
  if scalar.isNullValue then .ok state else updateTimes ops factor state (some scalar)

/-- `process_aggregate`. -/
def processAggregate (state : AggregateState F64) (input : ValueResultSet F32 F64)
    (expression : FactorizedExpression E F32 F64) : Except (Fault E) (AggregateState F64) := do
  let payloadChunk ← unwrap (input.getDataChunk expression.chunkPos)
  let factor ← payloadFactor computeError input expression.chunkPos
  let expr ← unwrap expression.expression
  match payloadChunk.curIdx with
  | none => do
    let result ← expr payloadChunk
    (List.range payloadChunk.len).foldlM (fun state rowIdx => do
      let scalar ← result.array.index rowIdx
      updateScalar ops factor state scalar) state
  | some curIdx => do
    let singleRowChunk ← slice payloadChunk curIdx 1
    let result ← expr singleRowChunk
    let scalar ← result.array.index 0
    updateScalar ops factor state scalar

/-- What one result set does to the state of an aggregate. -/
def processSpec (input : ValueResultSet F32 F64) (spec : SimpleAggregateSpec E F32 F64)
    (state : AggregateState F64) : Except (Fault E) (AggregateState F64) :=
  match spec.function with
  | .count => do
    let totalFactor ← unwrap (input.numTuplesU64 input.allChunks)
    updateTimes ops totalFactor state none
  | .countExpression | .sum | .avg | .min | .max =>
    processAggregate ops computeError state input spec.expression

def processSpecs (input : ValueResultSet F32 F64) :
    List (SimpleAggregateSpec E F32 F64) → List (AggregateState F64) →
      Except (Fault E) (List (AggregateState F64))
  | spec :: specs, state :: states => do
    let state' ← processSpec ops computeError input spec state
    let states' ← processSpecs input specs states
    .ok (state' :: states')
  | _, _ => .ok []

/-- The loop over the child; a result set without chunks is skipped. -/
def processChild (specs : List (SimpleAggregateSpec E F32 F64)) :
    Bool → List (AggregateState F64) → List (ValueResultSet F32 F64) →
      Except (Fault E) (Bool × List (AggregateState F64))
  | hasData, states, [] => .ok (hasData, states)
  | hasData, states, resultSet :: child =>
    if resultSet.dataChunks.isEmpty then processChild specs hasData states child
    else do
      let states' ← processSpecs ops computeError resultSet specs states
      processChild specs true states' child

/-- A result set of one flat chunk. -/
def flatResult (columns : List (ValueArray F32 F64)) : ValueResultSet F32 F64 :=
  ResultSet.new.push (DataChunk.new columns)

/-- `FactorizedAggregateBuilder`. Without data the defaults are given, if there are any; with data a
chunk without columns is a panic. -/
def factorizedAggregate (specs : List (SimpleAggregateSpec E F32 F64))
    (child : List (ValueResultSet F32 F64)) : Except (Fault E) (List (ValueResultSet F32 F64)) := do
  let newStates := specs.map fun spec => AggregateState.new ops spec.function spec.distinct
  let (hasData, states) ← processChild ops computeError specs false newStates child
  if hasData then
    if specs = [] then .error .panicked
    else .ok [flatResult (states.map fun state => (state.finalize ops).toScalarArray)]
  else if specs = [] then .ok []
  else .ok [flatResult (specs.map fun spec => spec.function.defaultColumn)]

end Process

end StreamExecutor

end MiniGU
