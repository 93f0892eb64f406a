import MiniGU.Model.ArrayValue

/-!
# Aggregation (`gql/execution/src/executor/aggregate.rs`)

The states of the aggregate functions, with their `update` and `finalize`, and the `Aggregate`
executor over streams of chunks, with and without grouping.

The integers of every width go through `as i64`, and sums of `i64` wrap around, as they do without
overflow checks. The operations of the machine on floats are a parameter, and so is the order in
which a hash map is iterated.
-/

namespace MiniGU

/-- Floats: the representative of those that `OrderedFloat` holds equal (the zeros, the NaNs), the
arithmetic on `f64`, and the texts of floats and strings in debug output. -/
structure FloatOps (F32 F64 : Type) where
  canon32 : F32 → F32
  canon64 : F64 → F64
  zero : F64
  ofInt : Int → F64
  widen : F32 → F64
  add : F64 → F64 → F64
  div : F64 → F64 → F64
  min : F64 → F64 → F64
  max : F64 → F64 → F64
  debug32 : F32 → String
  debug64 : F64 → String
  debugString : String → String

/-- Whole numbers in the place of floats. -/
def FloatOps.whole : FloatOps Int Int where
  canon32 := id
  canon64 := id
  zero := 0
  ofInt := id
  widen := id
  add := (· + ·)
  div := (· / ·)
  min := Min.min
  max := Max.max
  debug32 := intToString
  debug64 := intToString
  debugString := id

section Aggregation

variable {E F32 F64 : Type}

/-! ## Debug texts and keys -/

/-- The name of the variant of `ScalarValue`. -/
def IntType.variantName (t : IntType) : String :=
  (if t.signed then "Int" else "UInt") ++ intToString t.bits

def debugOption {α : Type} (debug : α → String) : Option α → String
  | some a => "Some(" ++ debug a ++ ")"
  | none => "None"

namespace Value

/-- `format!("{:?}", val)`. -/
def debug (ops : FloatOps F32 F64) : Value F32 F64 → String
  | .scalar .null => "Null"
  | .scalar (.boolean v) => "Boolean(" ++ debugOption ScalarValue.boolToString v ++ ")"
  | .scalar (.int t v) => t.variantName ++ "(" ++ debugOption intToString v ++ ")"
  | .scalar (.float32 v) => "Float32(" ++ debugOption ops.debug32 v ++ ")"
  | .scalar (.float64 v) => "Float64(" ++ debugOption ops.debug64 v ++ ")"
  | .scalar (.string v) => "String(" ++ debugOption ops.debugString v ++ ")"
  | .vector dimension v =>
    "Vector \x7b dimension: " ++ intToString dimension ++ ", value: " ++
      debugOption (fun data => "VectorValue \x7b data: [" ++
        String.intercalate ", " (data.map ops.debug32) ++ "] \x7d") v ++ " \x7d"

/-- Values are equal as keys if they have one representative. -/
def canon (ops : FloatOps F32 F64) : Value F32 F64 → Value F32 F64
  | .scalar (.float32 v) => .scalar (.float32 (v.map ops.canon32))
  | .scalar (.float64 v) => .scalar (.float64 (v.map ops.canon64))
  | .vector dimension v => .vector dimension (v.map (List.map ops.canon32))
  | v => v

end Value

/-! ## Aggregate states -/

namespace StreamExecutor

inductive AggregateFunction where
  | count
  | countExpression
  | sum
  | avg
  | min
  | max
deriving DecidableEq, Repr

/-- `distinctValues` holds the keys of a hash map. -/
inductive AggregateState (F64 : Type) where
  | count (count : Int64)
  | countExpression (count : Int64) (distinctValues : Option (List String))
  | sum (sumI64 : Option Int64) (sumF64 : Option F64) (distinctValues : Option (List String))
  | avg (sumF64 : F64) (count : Int64) (distinctValues : Option (List String))
  | min (minI64 : Option Int64) (minF64 : Option F64) (minString : Option String)
  | max (maxI64 : Option Int64) (maxF64 : Option F64) (maxString : Option String)

namespace AggregateState

def new (ops : FloatOps F32 F64) (func : AggregateFunction) (distinct : Bool) :
    AggregateState F64 :=
  let distinctValues := if distinct then some [] else none
  match func with
  | .count => .count 0
  | .countExpression => .countExpression 0 distinctValues
  | .sum => .sum none none distinctValues
  | .avg => .avg ops.zero 0 distinctValues
  | .min => .min none none none
  | .max => .max none none none

/-- The accumulator with one more value: every arm of the updates has this form. -/
def accumulate {α : Type} (f : α → α → α) (current : Option α) (v : α) : Option α :=
  match current with
  | some current => some (f current v)
  | none => some v

def updateSumAggregate (ops : FloatOps F32 F64) (state : AggregateState F64) (val : Value F32 F64) :
    Except (Fault E) (AggregateState F64) :=
  match state with
  | .sum sumI64 sumF64 distinctValues =>
    match val with
    | .scalar (.int _ (some v)) =>
      .ok (.sum (accumulate (· + ·) sumI64 (Int64.ofInt v)) sumF64 distinctValues)
    | .scalar (.float32 (some v)) =>
      .ok (.sum sumI64 (accumulate ops.add sumF64 (ops.widen v)) distinctValues)
    | .scalar (.float64 (some v)) =>
      .ok (.sum sumI64 (accumulate ops.add sumF64 v) distinctValues)
    | _ => .error .panicked
  | .avg sumF64 n distinctValues =>
    match val with
    | .scalar (.int _ (some v)) => .ok (.avg (ops.add sumF64 (ops.ofInt v)) (n + 1) distinctValues)
    | .scalar (.float32 (some v)) =>
      .ok (.avg (ops.add sumF64 (ops.widen v)) (n + 1) distinctValues)
    | .scalar (.float64 (some v)) => .ok (.avg (ops.add sumF64 v) (n + 1) distinctValues)
    | _ => .error .panicked
  | _ => .error .panicked

def updateMinAggregate (ops : FloatOps F32 F64) (state : AggregateState F64) (val : Value F32 F64) :
    Except (Fault E) (AggregateState F64) :=
  match state with
  | .min minI64 minF64 minString =>
    match val with
    | .scalar (.int _ (some v)) =>
      .ok (.min (accumulate (fun c v => if v < c then v else c) minI64 (Int64.ofInt v)) minF64 minString)
    | .scalar (.float32 (some v)) =>
      .ok (.min minI64 (accumulate ops.min minF64 (ops.widen v)) minString)
    | .scalar (.float64 (some v)) => .ok (.min minI64 (accumulate ops.min minF64 v) minString)
    | .scalar (.string (some s)) =>
      .ok (.min minI64 minF64 (accumulate (fun c s => if s < c then s else c) minString s))
    | _ => .error .panicked
  | state => .ok state

def updateMaxAggregate (ops : FloatOps F32 F64) (state : AggregateState F64) (val : Value F32 F64) :
    Except (Fault E) (AggregateState F64) :=
  match state with
  | .max maxI64 maxF64 maxString =>
    match val with
    | .scalar (.int _ (some v)) =>
      .ok (.max (accumulate (fun c v => if c < v then v else c) maxI64 (Int64.ofInt v)) maxF64 maxString)
    | .scalar (.float32 (some v)) =>
      .ok (.max maxI64 (accumulate ops.max maxF64 (ops.widen v)) maxString)
    | .scalar (.float64 (some v)) => .ok (.max maxI64 (accumulate ops.max maxF64 v) maxString)
    | .scalar (.string (some s)) =>
      .ok (.max maxI64 maxF64 (accumulate (fun c s => if c < s then s else c) maxString s))
    | _ => .error .panicked
  | state => .ok state

def update (ops : FloatOps F32 F64) (state : AggregateState F64) (value : Option (Value F32 F64)) :
    Except (Fault E) (AggregateState F64) :=
  match state, value.filter fun val => !val.isNullValue with
  | .count n, _ => .ok (.count (n + 1))
  | state, none => .ok state
  | .countExpression n (some distinctSet), some val =>
    .ok (.countExpression n (some (distinctSet.insert (val.debug ops))))
  | .countExpression n none, some _ => .ok (.countExpression (n + 1) none)
  | .sum sumI64 sumF64 (some distinctSet), some val =>
    .ok (.sum sumI64 sumF64 (some (distinctSet.insert (val.debug ops))))
  | .avg sumF64 n (some distinctSet), some val =>
    .ok (.avg sumF64 n (some (distinctSet.insert (val.debug ops))))
  | .sum sumI64 sumF64 none, some val => updateSumAggregate ops (.sum sumI64 sumF64 none) val
  | .avg sumF64 n none, some val => updateSumAggregate ops (.avg sumF64 n none) val
  | .min minI64 minF64 minString, some val =>
    updateMinAggregate ops (.min minI64 minF64 minString) val
  | .max maxI64 maxF64 maxString, some val =>
    updateMaxAggregate ops (.max maxI64 maxF64 maxString) val

/-- The integer extremum comes before the float one, and that before the string one. -/
def firstOf (i64 : Option Int64) (f64 : Option F64) (string : Option String) : Value F32 F64 :=
  match i64, f64, string with
  | some value, _, _ => .int .int64 (some value.toInt)
  | none, some value, _ => .scalar (.float64 (some value))
  | none, none, some value => .scalar (.string (some value))
  | none, none, none => .scalar .null

/-- How many values an average divides by. -/
def effectiveCount (n : Int64) : Option (List String) → Int64
  | some distinctSet => Int64.ofNat distinctSet.length
  | none => n

def finalize (ops : FloatOps F32 F64) : AggregateState F64 → Value F32 F64
  | .count n => .int .int64 (some n.toInt)
  | .countExpression n distinctValues =>
    .int .int64 (some (effectiveCount n distinctValues).toInt)
  | .sum sumI64 sumF64 _ => firstOf sumI64 sumF64 none
  | .avg sumF64 n distinctValues =>
    let count := effectiveCount n distinctValues
    if 0 < count then .scalar (.float64 (some (ops.div sumF64 (ops.ofInt count.toInt))))
    else .scalar .null
  | .min minI64 minF64 minString => firstOf minI64 minF64 minString
  | .max maxI64 maxF64 maxString => firstOf maxI64 maxF64 maxString

end AggregateState

/-! ## The executor -/

structure AggregateSpec (E F32 F64 : Type) where
  function : AggregateFunction
  expression : Option (Evaluator E ArrayType (Value F32 F64))
  distinct : Bool

namespace AggregateSpec

variable (expr : Evaluator E ArrayType (Value F32 F64))

/-- `COUNT(*)`. -/
def count : AggregateSpec E F32 F64 := ⟨.count, none, false⟩

def countExpression (distinct : Bool) : AggregateSpec E F32 F64 :=
  ⟨.countExpression, some expr, distinct⟩

def sum (distinct : Bool) : AggregateSpec E F32 F64 := ⟨.sum, some expr, distinct⟩

def avg (distinct : Bool) : AggregateSpec E F32 F64 := ⟨.avg, some expr, distinct⟩

def min : AggregateSpec E F32 F64 := ⟨.min, some expr, false⟩

def max : AggregateSpec E F32 F64 := ⟨.max, some expr, false⟩

end AggregateSpec

/-- An evaluator's value at one row: it evaluates a chunk of this row alone. -/
def evaluateRow (expr : Evaluator E ArrayType (Value F32 F64)) (chunk : ValueChunk F32 F64)
    (i : Nat) : Except (Fault E) (Value F32 F64) := do
  let result ← expr (DataChunk.new (chunk.takeRows [i]))
  result.array.index 0

/-- What goes into the state of an aggregate at one row. -/
def AggregateSpec.valueAt (spec : AggregateSpec E F32 F64) (chunk : ValueChunk F32 F64) (i : Nat) :
    Except (Fault E) (Option (Value F32 F64)) :=
  match spec.expression with
  | some expr => do
    let scalarValue ← evaluateRow expr chunk i
    .ok (some scalarValue)
  | none => .ok (some (.int .int64 (some 1)))

/-- One row goes into the states, one state after another. -/
def updateStates (ops : FloatOps F32 F64) (chunk : ValueChunk F32 F64) (i : Nat) :
    List (AggregateSpec E F32 F64) → List (AggregateState F64) →
    Except (Fault E) (List (AggregateState F64))
  | spec :: specs, state :: states => do
    let value ← spec.valueAt chunk i
    let state' ← state.update ops value
    let states' ← updateStates ops chunk i specs states
    .ok (state' :: states')
  | _, _ => .ok []

/-- The loop over the logical rows of a stream, with whether there was a chunk that is not empty. -/
def foldRows {σ Ty Val : Type} (f : σ → DataChunk Ty Val → Nat → Except (Fault E) σ) :
    Bool → σ → Stream E Ty Val → Except (Fault E) (Bool × σ)
  | hasData, s, [] => .ok (hasData, s)
  | _, _, .error e :: _ => .error e
  | hasData, s, .ok chunk :: rest =>
    if chunk.len = 0 then foldRows f hasData s rest
    else do
      let s' ← chunk.keptRows.foldlM (fun s i => f s chunk i) s
      foldRows f true s' rest

/-- Each state at its start. -/
def newStates (ops : FloatOps F32 F64) (specs : List (AggregateSpec E F32 F64)) :
    List (AggregateState F64) :=
  specs.map fun spec => AggregateState.new ops spec.function spec.distinct

/-- The output expressions, if any, over the columns of the result. -/
def applyOutput (outputExpressions : List (Evaluator E ArrayType (Value F32 F64)))
    (resultColumns : List (ValueArray F32 F64)) : Except (Fault E) (ValueChunk F32 F64) :=
  if outputExpressions = [] then .ok (DataChunk.new resultColumns)
  else do
    let outputs ← outputExpressions.mapM fun expr => expr (DataChunk.new resultColumns)
    .ok (DataChunk.new (outputs.map DatumRef.array))

/-- The column of one row where there was no input. -/
def AggregateFunction.defaultColumn : AggregateFunction → ValueArray F32 F64
  | .count | .countExpression => ⟨.scalar (.int .int64), [.int .int64 (some 0)]⟩
  | .sum | .avg | .min | .max => ⟨.scalar (.int .int64), [.int .int64 none]⟩

/-- `Aggregate` without grouping. -/
def aggregateAll (ops : FloatOps F32 F64) (specs : List (AggregateSpec E F32 F64))
    (outputExpressions : List (Evaluator E ArrayType (Value F32 F64)))
    (child : Stream E ArrayType (Value F32 F64)) : Except (Fault E) (ValueChunk F32 F64) := do
  let (hasData, states) ← foldRows (fun states chunk i => updateStates ops chunk i specs states)
    false (newStates ops specs) child
  if hasData then
    applyOutput outputExpressions (states.map fun state => (state.finalize ops).toScalarArray)
  else .ok (DataChunk.new (specs.map fun spec => spec.function.defaultColumn))

abbrev GroupKey (F32 F64 : Type) := List (Value F32 F64)

def sameKey (ops : FloatOps F32 F64) [DecidableEq F32] [DecidableEq F64]
    (key key' : GroupKey F32 F64) : Bool :=
  key.map (Value.canon ops) = key'.map (Value.canon ops)

/-- The states of each group. -/
abbrev Groups (F32 F64 : Type) := List (GroupKey F32 F64 × List (AggregateState F64))

section Grouping

variable [DecidableEq F32] [DecidableEq F64] (ops : FloatOps F32 F64)
  (specs : List (AggregateSpec E F32 F64))
  (groupByExpressions : List (Evaluator E ArrayType (Value F32 F64)))

/-- The states of the group of a key are updated, from new ones if there is no such group. -/
def updateGroup (key : GroupKey F32 F64) (chunk : ValueChunk F32 F64) (i : Nat) :
    Groups F32 F64 → Except (Fault E) (Groups F32 F64)
  | [] => do
    let states ← updateStates ops chunk i specs (newStates ops specs)
    .ok [(key, states)]
  | (k, states) :: groups =>
    if sameKey ops k key then do
      let states' ← updateStates ops chunk i specs states
      .ok ((k, states') :: groups)
    else do
      let groups' ← updateGroup key chunk i groups
      .ok ((k, states) :: groups')

/-- The body of the loop over the rows. -/
def groupRow (groups : Groups F32 F64) (chunk : ValueChunk F32 F64) (i : Nat) :
    Except (Fault E) (Groups F32 F64) := do
  let groupKey ← groupByExpressions.mapM fun expr => evaluateRow expr chunk i
  updateGroup ops specs groupKey chunk i groups

/-- The columns of the keys and those of the aggregates, one row for each group. -/
def resultColumns (groups : Groups F32 F64) : List (ValueArray F32 F64) :=
  let resultRows := groups.map fun g => g.1 ++ g.2.map (AggregateState.finalize ops)
  (List.range (groupByExpressions.length + specs.length)).map fun i =>
    scalarValuesToArray (resultRows.filterMap fun row => row[i]?)

/-- `Aggregate` with grouping; `order` is the order in which the groups come out of the map. -/
def aggregateGroups (order : Groups F32 F64 → Groups F32 F64)
    (outputExpressions : List (Evaluator E ArrayType (Value F32 F64)))
    (child : Stream E ArrayType (Value F32 F64)) :
    Except (Fault E) (List (ValueChunk F32 F64)) := do
  let (hasData, groups) ← foldRows (groupRow ops specs groupByExpressions) false [] child
  if hasData && !groups.isEmpty then do
    let chunk ← applyOutput outputExpressions
      (resultColumns ops specs groupByExpressions (order groups))
    .ok [chunk]
  else .ok []

/-- The chunks of an execution that drains its child before it yields. -/
def yieldAll {Ty Val : Type} : Except (Fault E) (List (DataChunk Ty Val)) → Stream E Ty Val
  | .ok chunks => chunks.map .ok
  | .error e => [.error e]

/-- `Aggregate`. The constructor asserts that there is an aggregate. -/
def aggregate (order : Groups F32 F64 → Groups F32 F64)
    (outputExpressions : List (Evaluator E ArrayType (Value F32 F64)))
    (child : Stream E ArrayType (Value F32 F64)) : Stream E ArrayType (Value F32 F64) :=
  if specs = [] then [.error .panicked]
  else if groupByExpressions = [] then
    yieldAll ((aggregateAll ops specs outputExpressions child).map fun chunk => [chunk])
  else yieldAll (aggregateGroups ops specs groupByExpressions order outputExpressions child)

end Grouping

end StreamExecutor

end Aggregation

end MiniGU
