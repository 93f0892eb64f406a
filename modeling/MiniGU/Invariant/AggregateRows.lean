import Mathlib.Data.List.ReduceOption
import MiniGU.Invariant.ChunkRows
import MiniGU.Lib.Collect
import MiniGU.Model.Aggregate

/-!
# Aggregation over the rows of a stream

The loop of `Aggregate` goes over the logical rows of the stream, whatever the chunks
(`foldRows_ok`). One aggregate without grouping gives one row, the value of the state that the
values of its expression lead to (`aggregateAll_single`). Sums of integers wrap around at 64 bits.

## The types of aggregates

`scalarValuesToArray` keeps what a column stands for as long as its values are of one type, nulls
apart (`map_known_scalarValuesToArray`). The values of one aggregate are: the type that the state
gives in the end depends on the function and on the type of the expression only
(`finalize_type`).
-/

namespace MiniGU

section AggregateRows

variable {E F32 F64 : Type}

/-- What a value stands for, which is nothing for a null. -/
def Value.known (v : Value F32 F64) : Option (Value F32 F64) :=
  if v.isNullValue then none else some v

namespace StreamExecutor

/-! ## The loop over the rows -/

/-- The logical rows of a stream, each as its chunk and its place there. -/
def positions {Ty Val : Type} (cs : List (DataChunk Ty Val)) : List (DataChunk Ty Val × Nat) :=
  cs.flatMap fun c => c.keptRows.map fun i => (c, i)

theorem rowsOf_eq_positions {Ty Val : Type} (cs : List (DataChunk Ty Val)) :
    rowsOf cs = (positions cs).map fun p => p.1.rowAt p.2 := by
  simp only [rowsOf, positions, List.map_flatMap, List.map_map]
  rfl

theorem keptRows_of_len_zero {Ty Val : Type} {c : DataChunk Ty Val} (h : c.len = 0) :
    c.keptRows = [] := by
  simp [DataChunk.keptRows_eq, h]

theorem foldRows_ok {σ Ty Val : Type} (f : σ → DataChunk Ty Val → Nat → Except (Fault E) σ)
    (cs : List (DataChunk Ty Val)) (hasData : Bool) (s : σ) :
    foldRows f hasData s (cs.map .ok) =
      (do let s' ← (positions cs).foldlM (fun s p => f s p.1 p.2) s
          .ok (hasData || cs.any fun c => c.len != 0, s')) := by
  induction cs generalizing hasData s with
  | nil => simp [foldRows, positions, ok_bind, pure, Except.pure]
  | cons c cs ih =>
    have hSplit : positions (c :: cs) = (c.keptRows.map fun i => (c, i)) ++ positions cs := rfl
    rw [List.map_cons, foldRows, hSplit, List.foldlM_append, List.foldlM_map]
    by_cases hEmpty : c.len = 0
    · rw [if_pos hEmpty, ih, keptRows_of_len_zero hEmpty]
      simp [hEmpty, ok_bind, pure, Except.pure]
    · rw [if_neg hEmpty]
      cases c.keptRows.foldlM (fun s i => f s c i) s with
      | error e => rfl
      | ok s' =>
        have hLen : (c.len != 0) = true := bne_iff_ne.mpr hEmpty
        rw [ok_bind, ok_bind, ih, List.any_cons, hLen, Bool.true_or, Bool.or_true]

/-- Where there is a logical row, there is a chunk that is not empty. -/
theorem any_len_of_positions {Ty Val : Type} {cs : List (DataChunk Ty Val)}
    (h : positions cs ≠ []) : (cs.any fun c => c.len != 0) = true := by
  obtain ⟨p, hp⟩ := List.exists_mem_of_ne_nil _ h
  obtain ⟨c, hc, hp⟩ := List.mem_flatMap.mp hp
  rw [List.any_eq_true]
  refine ⟨c, hc, ?_⟩
  rw [bne_iff_ne]
  intro hZero
  rw [keptRows_of_len_zero hZero] at hp
  cases hp

/-! ## One aggregate -/

/-- What the expression gives at the logical rows of the stream. -/
def Column (expr : Evaluator E ArrayType (Value F32 F64)) (cs : List (ValueChunk F32 F64))
    (vs : List (Value F32 F64)) : Prop :=
  (positions cs).map (fun p => evaluateRow expr p.1 p.2) = vs.map .ok

/-- The aggregate alone gives one row, which stands for `x`. -/
def Yields (ops : FloatOps F32 F64) (spec : AggregateSpec E F32 F64)
    (cs : List (ValueChunk F32 F64)) (x : Option (Value F32 F64)) : Prop :=
  ∃ chunk, aggregateAll ops [spec] [] (cs.map .ok) = .ok chunk ∧
    chunk.rows.map (List.map Value.known) = [[x]]

/-- The state after a list of values. -/
def runStates (ops : FloatOps F32 F64) (state : AggregateState F64) (vs : List (Value F32 F64)) :
    Except (Fault E) (AggregateState F64) :=
  vs.foldlM (fun state v => state.update ops (some v)) state

theorem updateStates_single (ops : FloatOps F32 F64) {func : AggregateFunction}
    {expr : Evaluator E ArrayType (Value F32 F64)} {distinct : Bool} {c : ValueChunk F32 F64}
    {i : Nat} {v : Value F32 F64} (hv : evaluateRow expr c i = .ok v) (state : AggregateState F64) :
    updateStates ops c i [⟨func, some expr, distinct⟩] [state] =
      (state.update ops (some v)).map fun state' => [state'] := by
  simp only [updateStates, AggregateSpec.valueAt, hv, ok_bind]
  cases state.update (E := E) ops (some v) <;> rfl

theorem foldlM_updateStates_single (ops : FloatOps F32 F64) (func : AggregateFunction)
    (distinct : Bool) {expr : Evaluator E ArrayType (Value F32 F64)}
    {ps : List (ValueChunk F32 F64 × Nat)} {vs : List (Value F32 F64)}
    (h : ps.map (fun p => evaluateRow expr p.1 p.2) = vs.map .ok) (state : AggregateState F64) :
    ps.foldlM (fun states p => updateStates ops p.1 p.2 [⟨func, some expr, distinct⟩] states)
      [state] = (runStates ops state vs).map fun state' => [state'] := by
  induction ps generalizing vs state with
  | nil =>
    cases vs with
    | nil => rfl
    | cons v vs => cases h
  | cons p ps ih =>
    cases vs with
    | nil => cases h
    | cons v vs =>
      rw [List.map_cons, List.map_cons, List.cons.injEq] at h
      rw [List.foldlM_cons, updateStates_single ops h.1, runStates, List.foldlM_cons]
      cases state.update (E := E) ops (some v) with
      | error e => rfl
      | ok state' => exact ih h.2 state'

theorem known_defaultColumn (ops : FloatOps F32 F64) (func : AggregateFunction) (distinct : Bool) :
    (func.defaultColumn : ValueArray F32 F64).values.map Value.known =
      [((AggregateState.new ops func distinct).finalize ops).known] := by
  cases func <;> cases distinct <;> rfl

theorem rows_new_single (a : ValueArray F32 F64) :
    (DataChunk.new [a]).rows = a.values.map fun v => [v] := by
  apply List.ext_getElem?
  intro i
  simp only [DataChunk.rows, DataChunk.keptRows, DataChunk.new, DataChunk.len, List.head?_cons,
    Option.map_some, Option.getD_some, List.getElem?_map]
  by_cases h : i < a.values.length
  · simp [DataChunk.rowAt, h]
  · simp [h]

/-- One aggregate gives one row, with the value of the state that its values lead to. -/
theorem aggregateAll_single (ops : FloatOps F32 F64) {func : AggregateFunction}
    {expr : Evaluator E ArrayType (Value F32 F64)} {distinct : Bool}
    {cs : List (ValueChunk F32 F64)} {vs : List (Value F32 F64)} (hColumn : Column expr cs vs)
    {state : AggregateState F64}
    (hRun : runStates (E := E) ops (AggregateState.new ops func distinct) vs = .ok state)
    (x : Option (Value F32 F64)) :
    Yields ops ⟨func, some expr, distinct⟩ cs x ↔ (state.finalize ops).known = x := by
  have hFold := foldlM_updateStates_single ops func distinct hColumn
    (AggregateState.new ops func distinct)
  rw [hRun] at hFold
  have hChunk : ∃ a : ValueArray F32 F64, aggregateAll ops
      [(⟨func, some expr, distinct⟩ : AggregateSpec E F32 F64)] [] (cs.map .ok) =
        .ok (DataChunk.new [a]) ∧ a.values.map Value.known = [(state.finalize ops).known] := by
    rw [aggregateAll, foldRows_ok]
    simp only [newStates, List.map_cons, List.map_nil]
    rw [hFold]
    simp only [Except.map, ok_bind, Bool.false_or]
    by_cases hData : (cs.any fun c => c.len != 0) = true
    · exact ⟨(state.finalize ops).toScalarArray, by simp [hData, applyOutput], rfl⟩
    · -- without a row the state is still the first one
      have hNone : positions cs = [] := by
        by_contra hSome
        exact hData (any_len_of_positions hSome)
      have hVs : vs = [] := by
        rw [Column, hNone] at hColumn
        exact List.map_eq_nil_iff.mp hColumn.symm
      have hState : state = AggregateState.new ops func distinct := by
        rw [hVs] at hRun
        exact (Except.ok.inj hRun).symm
      exact ⟨func.defaultColumn, by simp [hData], hState ▸ known_defaultColumn ops func distinct⟩
  obtain ⟨a, hOut, hKnown⟩ := hChunk
  have hRows : (DataChunk.new [a]).rows.map (List.map Value.known) =
      [[(state.finalize ops).known]] := by
    have hMap : (DataChunk.new [a]).rows.map (List.map Value.known) =
        (a.values.map Value.known).map fun x => [x] := by
      simp [rows_new_single]
    rw [hMap, hKnown]
    rfl
  constructor
  · rintro ⟨chunk, hChunk, hX⟩
    rw [hOut] at hChunk
    cases hChunk
    rw [hRows] at hX
    simpa using hX
  · rintro rfl
    exact ⟨_, hOut, hRows⟩

/-! ## Sums of integers -/

section Sums

variable {ops : FloatOps F32 F64}

open StreamExecutor.AggregateState

/-- The values of an integer column. -/
def intValues (t : IntType) (vs : List (Option Int)) : List (Value F32 F64) := vs.map (Value.int t)

@[simp] theorem foldl_accumulate {α : Type} (f : α → α → α) (a : α) (l : List α) :
    l.foldl (accumulate f) (some a) = some (l.foldl f a) := by
  induction l generalizing a with
  | nil => rfl
  | cons b l ih => exact ih (f a b)

theorem runStates_sum (t : IntType) (vs : List (Option Int)) (i : Option Int64) (f : Option F64) :
    runStates (E := E) ops (.sum i f none) (intValues t vs) =
      .ok (.sum ((vs.reduceOption.map Int64.ofInt).foldl (accumulate (· + ·)) i) f none) := by
  induction vs generalizing i with
  | nil => rfl
  | cons v vs ih =>
    rw [intValues, List.map_cons, runStates, List.foldlM_cons]
    cases v with
    | none => exact ih i
    | some n => exact ih (accumulate (· + ·) i (Int64.ofInt n))

theorem foldl_add_ofInt (a : Int) (ns : List Int) :
    (ns.map Int64.ofInt).foldl (· + ·) (Int64.ofInt a) = Int64.ofInt (a + ns.sum) := by
  induction ns generalizing a with
  | nil => simp
  | cons n ns ih =>
    rw [List.map_cons, List.foldl_cons, ← Int64.ofInt_add, ih, List.sum_cons, Int.add_assoc]

end Sums

end StreamExecutor

end AggregateRows

section AggregateTypes

variable {E F32 F64 : Type}

/-! ## Columns of one type -/

namespace Value

/-- The value is of the type, or the untyped null. -/
def OfType (t : ScalarType) (v : Value F32 F64) : Prop := v.type = .scalar t ∨ v = .scalar .null

theorem isNullValue_nullOf (t : ScalarType) :
    (Value.scalar (ScalarValue.nullOf t) : Value F32 F64).isNullValue = true := by
  cases t <;> rfl

theorem known_of_isNullValue {v : Value F32 F64} (h : v.isNullValue = true) : v.known = none := by
  simp [known, h]

theorem known_keepType {t : ScalarType} {v : Value F32 F64} (h : v.OfType t) :
    (keepType t v).known = v.known := by
  unfold keepType
  split
  · rfl
  · rename_i hType
    rcases h with h | rfl
    · exact absurd h hType
    · exact known_of_isNullValue (isNullValue_nullOf t)

end Value

/-- Values of one type, nulls apart, stand for the same in the column that is made of them. -/
theorem map_known_scalarValuesToArray {t : ScalarType} {vs : List (Value F32 F64)}
    (h : ∀ v ∈ vs, v.OfType t) :
    (scalarValuesToArray vs).values.map Value.known = vs.map Value.known := by
  cases vs with
  | nil => rfl
  | cons v vs =>
    have hKeep : ∀ s : ScalarType, (∀ w ∈ v :: vs, w.OfType s ∨ w.isNullValue = true) →
        ((v :: vs).map (keepType s)).map Value.known = (v :: vs).map Value.known := by
      intro s hs
      rw [List.map_map]
      refine List.map_congr_left fun w hw => ?_
      rcases hs w hw with hw | hw
      · exact Value.known_keepType hw
      · -- a null of any type stays null
        show (keepType s w).known = w.known
        unfold keepType
        split
        · rfl
        · rw [Value.known_of_isNullValue hw,
            Value.known_of_isNullValue (Value.isNullValue_nullOf s)]
    have hNulls : (∀ w ∈ v :: vs, w.isNullValue = true) →
        ((v :: vs).map fun _ => (Value.int .int64 none : Value F32 F64)).map Value.known =
          (v :: vs).map Value.known := by
      intro hAll
      rw [List.map_map]
      exact List.map_congr_left fun w hw => (Value.known_of_isNullValue (hAll w hw)).symm
    cases hFind : (v :: vs).find? fun w => !w.isNullValue with
    | none =>
      have hAll : ∀ w ∈ v :: vs, w.isNullValue = true := by
        intro w hw
        simpa using List.find?_eq_none.mp hFind w hw
      simp only [scalarValuesToArray, hFind, Option.getD_none]
      split
      · exact hNulls hAll
      · exact hNulls hAll
      · exact hKeep _ fun w hw => .inr (hAll w hw)
    | some w =>
      -- the sample is of the type, and not null
      have hSome : w.isNullValue = false := by simpa using List.find?_some hFind
      have hType := h w (List.mem_of_find?_eq_some hFind)
      simp only [scalarValuesToArray, hFind, Option.getD_some]
      split
      · cases hSome
      · rcases hType with hType | hType <;> cases hType
      · rename_i s _
        have hs : s.type = t := by
          rcases hType with hType | hType
          · exact ArrayType.scalar.inj hType
          · cases hType
            cases hSome
        rw [hs]
        exact hKeep t fun w hw => .inl (h w hw)

/-! ## The types of states -/

namespace StreamExecutor

namespace AggregateState

/-- The function that the state is for. -/
def kind : AggregateState F64 → AggregateFunction
  | .count _ => .count
  | .countExpression _ _ => .countExpression
  | .sum _ _ _ => .sum
  | .avg _ _ _ => .avg
  | .min _ _ _ => .min
  | .max _ _ _ => .max

/-- The type of an accumulator for values of a type. -/
def accumulatorType : ArrayType → ScalarType
  | .scalar (.int _) => .int .int64
  | .scalar .float32 | .scalar .float64 => .float64
  | .scalar .string => .string
  | .scalar .null | .scalar .boolean | .vector _ | .other => .null

/-- Only the accumulator of the type of the values is in use. -/
structure Slots (ty : ArrayType) (i : Option Int64) (f : Option F64) (s : Option String) : Prop where
  int : i ≠ none → accumulatorType ty = .int .int64
  float : f ≠ none → accumulatorType ty = .float64
  string : s ≠ none → accumulatorType ty = .string

/-- The state has taken values of a type. -/
def TypedBy (ty : ArrayType) : AggregateState F64 → Prop
  | .count _ | .countExpression _ _ | .avg _ _ _ => True
  | .sum i f _ => Slots ty i f none
  | .min i f s => Slots ty i f s
  | .max i f s => Slots ty i f s

/-- The type of the result, where it is not null. -/
def resultType (ty : ArrayType) : AggregateFunction → ScalarType
  | .count | .countExpression => .int .int64
  | .avg => .float64
  | .sum | .min | .max => accumulatorType ty

@[simp] theorem kind_new (ops : FloatOps F32 F64) (func : AggregateFunction) (distinct : Bool) :
    (new ops func distinct).kind = func := by
  cases func <;> rfl

theorem typedBy_new (ops : FloatOps F32 F64) (func : AggregateFunction) (distinct : Bool)
    (ty : ArrayType) : (new ops func distinct).TypedBy ty := by
  have hEmpty : Slots ty (none : Option Int64) (none : Option F64) (none : Option String) :=
    ⟨by simp, by simp, by simp⟩
  cases func with
  | count | countExpression | avg => trivial
  | sum | min | max => exact hEmpty

/-- An update stays with the function, and with the type of its values. -/
structure Follows (ty : ArrayType) (state state' : AggregateState F64) : Prop where
  kind : state'.kind = state.kind
  typed : state.TypedBy ty → state'.TypedBy ty

theorem Follows.refl (ty : ArrayType) (state : AggregateState F64) : Follows ty state state :=
  ⟨rfl, id⟩

variable {ops : FloatOps F32 F64} {state state' : AggregateState F64}

theorem updateSumAggregate_follows {val : Value F32 F64}
    (h : updateSumAggregate (E := E) ops state val = .ok state') :
    Follows val.type state state' := by
  unfold updateSumAggregate at h
  split at h
  · split at h
    all_goals cases h
    · exact ⟨rfl, fun hSlots => ⟨fun _ => rfl, hSlots.float, hSlots.string⟩⟩
    · exact ⟨rfl, fun hSlots => ⟨hSlots.int, fun _ => rfl, hSlots.string⟩⟩
    · exact ⟨rfl, fun hSlots => ⟨hSlots.int, fun _ => rfl, hSlots.string⟩⟩
  · split at h
    all_goals cases h
    all_goals exact ⟨rfl, fun _ => trivial⟩
  · cases h

theorem updateMinAggregate_follows {val : Value F32 F64}
    (h : updateMinAggregate (E := E) ops state val = .ok state') :
    Follows val.type state state' := by
  unfold updateMinAggregate at h
  split at h
  · split at h
    all_goals cases h
    · exact ⟨rfl, fun hSlots => ⟨fun _ => rfl, hSlots.float, hSlots.string⟩⟩
    · exact ⟨rfl, fun hSlots => ⟨hSlots.int, fun _ => rfl, hSlots.string⟩⟩
    · exact ⟨rfl, fun hSlots => ⟨hSlots.int, fun _ => rfl, hSlots.string⟩⟩
    · exact ⟨rfl, fun hSlots => ⟨hSlots.int, hSlots.float, fun _ => rfl⟩⟩
  · cases h
    exact Follows.refl _ _

theorem updateMaxAggregate_follows {val : Value F32 F64}
    (h : updateMaxAggregate (E := E) ops state val = .ok state') :
    Follows val.type state state' := by
  unfold updateMaxAggregate at h
  split at h
  · split at h
    all_goals cases h
    · exact ⟨rfl, fun hSlots => ⟨fun _ => rfl, hSlots.float, hSlots.string⟩⟩
    · exact ⟨rfl, fun hSlots => ⟨hSlots.int, fun _ => rfl, hSlots.string⟩⟩
    · exact ⟨rfl, fun hSlots => ⟨hSlots.int, fun _ => rfl, hSlots.string⟩⟩
    · exact ⟨rfl, fun hSlots => ⟨hSlots.int, hSlots.float, fun _ => rfl⟩⟩
  · cases h
    exact Follows.refl _ _

theorem update_follows {val : Value F32 F64}
    (h : state.update (E := E) ops (some val) = .ok state') : Follows val.type state state' := by
  unfold update at h
  by_cases hNull : val.isNullValue = true
  · have hFilter : ((some val).filter fun val => !val.isNullValue) = none := by simp [hNull]
    rw [hFilter] at h
    cases state <;> (cases h; exact ⟨rfl, id⟩)
  · have hFilter : ((some val).filter fun val => !val.isNullValue) = some val := by simp [hNull]
    rw [hFilter] at h
    cases state with
    | count n =>
      cases h
      exact ⟨rfl, id⟩
    | countExpression n d => cases d <;> (cases h; exact ⟨rfl, id⟩)
    | sum i f d =>
      cases d with
      | none => exact updateSumAggregate_follows h
      | some set =>
        cases h
        exact ⟨rfl, id⟩
    | avg s n d =>
      cases d with
      | none => exact updateSumAggregate_follows h
      | some set =>
        cases h
        exact ⟨rfl, id⟩
    | min i f s => exact updateMinAggregate_follows h
    | max i f s => exact updateMaxAggregate_follows h

theorem firstOf_type {ty : ArrayType} {i : Option Int64} {f : Option F64} {s : Option String}
    (h : Slots ty i f s) : (firstOf i f s : Value F32 F64).OfType (accumulatorType ty) := by
  cases i with
  | some x =>
    left
    rw [h.int (by simp)]
    rfl
  | none =>
    cases f with
    | some x =>
      left
      rw [h.float (by simp)]
      rfl
    | none =>
      cases s with
      | some x =>
        left
        rw [h.string (by simp)]
        rfl
      | none => exact .inr rfl

/-- The result is of the type that function and expression have, or null. -/
theorem finalize_type {ty : ArrayType} (h : state.TypedBy ty) :
    (state.finalize ops).OfType (resultType ty state.kind) := by
  cases state with
  | count n => exact .inl rfl
  | countExpression n d => exact .inl rfl
  | sum i f d => exact firstOf_type h
  | avg s n d =>
    unfold finalize
    dsimp only
    split
    · exact .inl rfl
    · exact .inr rfl
  | min i f s => exact firstOf_type h
  | max i f s => exact firstOf_type h

end AggregateState

end StreamExecutor

end AggregateTypes

end MiniGU
