import Mathlib.Algebra.GroupWithZero.Nat
import MiniGU.Invariant.AggregatedTuples
import MiniGU.Invariant.Layout

/-!
# Aggregates of a plan

`COUNT(*)` and `SUM`, over the flat rows of a chain and over the result sets of a plan beside it.
Either aggregation leads to one state for each aggregate, which the rows alone determine:

* `aggregate_rows`: the flat aggregation counts the rows, and adds up a value for each.
* `factorizedAggregate_sets`: the factorized one adds each value of a chunk as often as the other
  chunks have tuples, a number that wraps around at 64 bits.
-/

namespace MiniGU

variable {E F32 F64 : Type}

/-! ## The aggregates -/

/-- What an expression gives at a row: an integer, or null. -/
abbrev RowExpr (F32 F64 : Type) := List (Value F32 F64) → Option Int64

def intOf (v : Option Int64) : Value F32 F64 := .int .int64 (v.map Int64.toInt)

/-- The evaluator of an expression, a value for each row. -/
def rowEvaluator (expr : RowExpr F32 F64) : Evaluator E ArrayType (Value F32 F64) := fun chunk =>
  .ok ⟨⟨.scalar (.int .int64), (List.range chunk.len).map fun i => intOf (expr (chunk.rowAt i))⟩, false⟩

/-- An aggregate over a plan; a sum is over the rows of one chunk of its result sets. -/
inductive PlanAggregate (F32 F64 : Type) where
  | count
  | sum (chunkPos : Nat) (expr : RowExpr F32 F64)

/-- What a flat row has in the columns of a chunk of the layout. -/
def chunkColumns (layout : List Slot) (chunkPos : Nat) (row : List (Value F32 F64)) :
    List (Value F32 F64) :=
  ((layout[chunkPos]?.map Slot.cols).getD []).map fun c => row.getD c (.scalar .null)

namespace PlanAggregate

open StreamExecutor

def factorized : PlanAggregate F32 F64 → SimpleAggregateSpec E F32 F64
  | .count => .count
  | .sum chunkPos expr => .sum chunkPos (some (rowEvaluator expr)) false

/-- The aggregate over the flat rows; a sum reads the columns of its chunk. -/
def flat (layout : List Slot) : PlanAggregate F32 F64 → AggregateSpec E F32 F64
  | .count => .count
  | .sum chunkPos expr => .sum (rowEvaluator fun row => expr (chunkColumns layout chunkPos row)) false

def function : PlanAggregate F32 F64 → AggregateFunction
  | .count => .count
  | .sum .. => .sum

/-- The chunk of a sum is there. -/
def Placed (layout : List Slot) : PlanAggregate F32 F64 → Prop
  | .count => True
  | .sum chunkPos _ => chunkPos < layout.length

end PlanAggregate

namespace StreamExecutor

/-! ## Row by row -/

section RowEvaluator

variable {expr : RowExpr F32 F64} {c : ValueChunk F32 F64} {i : Nat}

theorem rowAt_singleRow (i : Nat) :
    (DataChunk.new (c.takeRows [i])).rowAt 0 = c.rowAt i := by
  unfold DataChunk.rowAt DataChunk.new DataChunk.takeRows
  rw [List.filterMap_map]
  refine List.filterMap_congr fun a _ => ?_
  show ([i].filterMap fun i => a.values[i]?)[0]? = a.values[i]?
  cases h : a.values[i]? <;> simp [h]

theorem len_singleRow (hc : c.WellFormed) (hi : i < c.len) :
    (DataChunk.new (c.takeRows [i])).len = 1 := by
  obtain ⟨a, columns, hColumns⟩ := List.exists_cons_of_ne_nil hc.columns
  have hLength := hc.lengths a (hColumns ▸ List.mem_cons_self)
  have hBound : i < a.values.length := hLength ▸ hi
  unfold DataChunk.len DataChunk.new DataChunk.takeRows
  rw [hColumns]
  simp [hBound]

theorem evaluateRow_rowEvaluator (hc : c.WellFormed) (hi : i < c.len) :
    evaluateRow (E := E) (rowEvaluator expr) c i = .ok (intOf (expr (c.rowAt i))) := by
  unfold evaluateRow rowEvaluator
  rw [ok_bind, len_singleRow hc hi]
  show ArrayRef.index ⟨_, [intOf (expr ((DataChunk.new (c.takeRows [i])).rowAt 0))]⟩ 0 = _
  rw [rowAt_singleRow]
  rfl

theorem index_map_range {t : ScalarType} {g : Nat → Value F32 F64} {n : Nat} (hi : i < n) :
    (⟨.scalar t, (List.range n).map g⟩ : ValueArray F32 F64).index (E := E) i = .ok (g i) := by
  unfold ArrayRef.index
  simp [hi]

theorem rowWise_rowEvaluator (expr : RowExpr F32 F64) : RowWise (E := E) (rowEvaluator expr) where
  columns c c' h := by
    unfold rowEvaluator DataChunk.len DataChunk.rowAt
    rw [h]
  rows c d i v hc hd hi hv := by
    obtain rfl := Except.ok.inj hd
    rw [evaluateRow_rowEvaluator hc hi]
    exact (index_map_range hi).symm.trans hv

end RowEvaluator

/-! ## Chunks of ids -/

/-- An id as a value. -/
def idValue (n : Nat) : Value F32 F64 := .int .uint64 (some n)

section Tables

variable {w : Nat} {all : List (List Nat)}

theorem len_asValues (c : Chunk) : (c.asValues : ValueChunk F32 F64).len = c.len := by
  unfold DataChunk.asValues DataChunk.len
  simp only [List.head?_map, Option.map_map]
  congr 1
  cases c.columns.head? <;> simp

theorem wellFormed_table (cursor : Option Nat) (hw : 0 < w) (hCursor : ∀ i, cursor = some i → i < all.length) :
    (((table w all).setCurIdx cursor).asValues : ValueChunk F32 F64).WellFormed where
  columns := by
    intro h
    have hLength := congrArg List.length h
    simp only [DataChunk.asValues, DataChunk.setCurIdx, table, DataChunk.new, List.length_map,
      List.length_range, List.length_nil] at hLength
    omega
  lengths a ha := by
    obtain ⟨b, hb, rfl⟩ := List.mem_map.mp ha
    rw [len_asValues, List.length_map]
    exact (table_columns_lengths b hb).trans (table_len hw).symm
  filter f hf := nomatch hf
  curIdx i hi := by
    rw [len_asValues]
    exact Nat.lt_of_lt_of_eq (hCursor i hi) (table_len hw).symm

theorem rowAt_table (cursor : Option Nat) {i : Nat} {r : List Nat} (hr : r.length = w) (hi : all[i]? = some r) :
    (((table w all).setCurIdx cursor).asValues : ValueChunk F32 F64).rowAt i = r.map idValue := by
  have hEach : ∀ j < w, (columnOf all j).values[i]? = some (.id (r.getD j 0)) := by
    intro j _
    unfold columnOf idColumn
    simp [hi]
  unfold DataChunk.rowAt DataChunk.asValues DataChunk.setCurIdx table DataChunk.new
  rw [List.map_map, List.filterMap_map]
  have hSome : (List.range w).filterMap (fun j => (((columnOf all j).values.map Cell.value)[i]? :
      Option (Value F32 F64))) = (List.range w).filterMap fun j => some (idValue (r.getD j 0)) := by
    refine List.filterMap_congr fun j hj => ?_
    rw [List.getElem?_map, hEach j (List.mem_range.mp hj)]
    rfl
  refine hSome.trans ?_
  rw [List.filterMap_eq_map']
  refine List.ext_getElem (by simp [hr]) fun j hj hj' => ?_
  have hBound : j < r.length := by simpa using hj'
  simp [hBound]

end Tables

/-! ## The states -/

/-- The state of a sum after some numbers. -/
def sumState (ns : List Int) : AggregateState F64 :=
  .sum (if ns = [] then none else some (Int64.ofInt ns.sum)) none none

theorem runStates_sumState (ops : FloatOps F32 F64) (vs : List (Option Int64)) :
    runStates (E := E) ops (.sum none none none) (vs.map intOf) =
      .ok (sumState ((vs.filterMap id).map Int64.toInt)) := by
  change _ = Except.ok (sumState (vs.reduceOption.map Int64.toInt))
  have hValues : (vs.map intOf : List (Value F32 F64)) = intValues .int64 (vs.map (Option.map Int64.toInt)) := by
    unfold intValues
    rw [List.map_map]
    rfl
  rw [hValues, runStates_sum, List.reduceOption_map]
  unfold sumState
  congr 2
  cases vs.reduceOption with
  | nil => rfl
  | cons v vs =>
    simp only [List.map_cons, List.foldl_cons, AggregateState.accumulate, foldl_accumulate,
      foldl_add_ofInt]
    rw [if_neg (List.cons_ne_nil _ _), List.sum_cons]

theorem ofNat_sum_mod (l : List Nat) :
    Int64.ofNat (l.map (· % 2 ^ 64)).sum = Int64.ofNat l.sum := by
  induction l with
  | nil => rfl
  | cons n l ih =>
    have hWrap : Int64.ofNat (n % 2 ^ 64) = Int64.ofNat n := 
      Int64.toBitVec.inj (BitVec.eq_of_toNat_eq (by simp))
    rw [List.map_cons, List.sum_cons, Int64.ofNat_add, hWrap, ih, List.sum_cons, Int64.ofNat_add]

theorem sum_flatMap_replicate (vs : List Int64) (n : Nat) :
    ((vs.flatMap (List.replicate n)).map Int64.toInt).sum = n * (vs.map Int64.toInt).sum := by
  induction vs with
  | nil => simp
  | cons v vs ih =>
    rw [List.flatMap_cons, List.map_append, List.sum_append, ih, List.map_cons, List.sum_cons,
      Int.mul_add, List.map_replicate, List.sum_replicate, nsmul_eq_mul]

/-- Weights that wrap around change a sum by multiples of 2^64. -/
theorem sum_weighted_mod {α : Type} (values : α → List Int64) (weight : α → Nat) (l : List α) :
    ((l.flatMap fun a => (values a).flatMap (List.replicate (weight a % 2 ^ 64))).map Int64.toInt).sum %
        2 ^ 64 =
      ((l.flatMap fun a => (values a).flatMap (List.replicate (weight a))).map Int64.toInt).sum %
        2 ^ 64 := by
  induction l with
  | nil => rfl
  | cons a l ih =>
    have hHead : ((weight a % 2 ^ 64 : Nat) : Int) * ((values a).map Int64.toInt).sum % 2 ^ 64 =
        (weight a : Int) * ((values a).map Int64.toInt).sum % 2 ^ 64 := by
      push_cast
      rw [Int.mul_emod, Int.emod_emod_of_dvd _ (dvd_refl _), ← Int.mul_emod]
    simp only [List.flatMap_cons, List.map_append, List.sum_append, sum_flatMap_replicate]
    rw [Int.add_emod, hHead, ih, ← Int.add_emod]

/-- As many numbers more, up to multiples of 2^64, make the same sum unless there are none. -/
theorem sumState_congr {ns ns' : List Int} (hNil : ns = [] ↔ ns' = [])
    (hSum : ns.sum % 2 ^ 64 = ns'.sum % 2 ^ 64) : (sumState ns : AggregateState F64) = sumState ns' := by
  have hWrap : Int64.ofInt ns.sum = Int64.ofInt ns'.sum := by
    have hBmod : ns.sum.bmod Int64.size = ns'.sum.bmod Int64.size := by
      rw [← Int.emod_bmod, ← Int.emod_bmod (x := ns'.sum)]
      exact congrArg (fun m => Int.bmod m Int64.size) hSum
    rw [← Int64.toInt_inj, Int64.toInt_ofInt, Int64.toInt_ofInt, hBmod]
  unfold sumState
  simp only [hNil, hWrap]

theorem runStates_eq (ops : FloatOps F32 F64) (state : AggregateState F64)
    (vs : List (Value F32 F64)) :
    runStates (E := E) ops state vs = applyUpdates ops (vs.map some) state := by
  unfold runStates applyUpdates
  rw [List.foldlM_map]

theorem applyUpdates_tuples (ops : FloatOps F32 F64) (us : List (Option (Value F32 F64))) (n : Int64) :
    applyUpdates (E := E) ops us (.count n) = .ok (.count (n + Int64.ofNat us.length)) := by
  unfold applyUpdates
  induction us generalizing n with
  | nil =>
    have hZero : n + Int64.ofNat 0 = n := Int64.add_zero n
    rw [List.length_nil, hZero]
    rfl
  | cons u us ih =>
    have hStep : (AggregateState.count n).update (E := E) ops u = .ok (.count (n + 1)) := rfl
    rw [List.foldlM_cons, hStep, ok_bind, ih, List.length_cons, Nat.add_comm us.length,
      Int64.ofNat_add, ← Int64.add_assoc]
    rfl

/-- The columns of the result, which without input are those of the defaults. -/
def finalColumns (ops : FloatOps F32 F64) (isEmpty : Bool)
    (state : PlanAggregate F32 F64 → AggregateState F64) (aggregates : List (PlanAggregate F32 F64)) :
    List (ValueArray F32 F64) :=
  aggregates.map fun a =>
    if isEmpty then a.function.defaultColumn else ((state a).finalize ops).toScalarArray

/-! ## The flat aggregation -/

section Flat

variable {ops : FloatOps F32 F64} {layout : List Slot}

theorem updateStates_map {α : Type} {c : ValueChunk F32 F64} {i : Nat}
    {spec : α → AggregateSpec E F32 F64} {st st' : α → AggregateState F64} {val : α → Value F32 F64}
    {l : List α} (h : ∀ a ∈ l, (spec a).valueAt c i = .ok (some (val a)) ∧
      (st a).update (E := E) ops (some (val a)) = .ok (st' a)) :
    updateStates ops c i (l.map spec) (l.map st) = .ok (l.map st') := by
  induction l with
  | nil => rfl
  | cons a l ih =>
    obtain ⟨⟨hValue, hUpdate⟩, hTail⟩ := List.forall_mem_cons.mp h
    rw [List.map_cons, List.map_cons, updateStates, hValue, ok_bind, hUpdate, ok_bind, ih hTail]
    rfl

/-- Each state takes the values of its aggregate. -/
theorem foldlM_updateStates {α : Type} {ps : List (ValueChunk F32 F64 × Nat)}
    {spec : α → AggregateSpec E F32 F64} {st st' : α → AggregateState F64}
    {val : α → ValueChunk F32 F64 × Nat → Value F32 F64} {l : List α}
    (hVal : ∀ a ∈ l, ∀ p ∈ ps, (spec a).valueAt p.1 p.2 = .ok (some (val a p)))
    (hRun : ∀ a ∈ l, runStates (E := E) ops (st a) (ps.map (val a)) = .ok (st' a)) :
    ps.foldlM (fun states p => updateStates ops p.1 p.2 (l.map spec) states) (l.map st) =
      .ok (l.map st') := by
  induction ps generalizing st with
  | nil =>
    refine congrArg Except.ok (List.map_congr_left fun a ha => ?_)
    exact Except.ok.inj (hRun a ha)
  | cons p ps ih =>
    have hSteps : ∀ a, ∃ s, a ∈ l → (st a).update (E := E) ops (some (val a p)) = .ok s ∧
        runStates (E := E) ops s (ps.map (val a)) = .ok (st' a) := by
      intro a
      by_cases ha : a ∈ l
      · have hFirst := hRun a ha
        rw [List.map_cons, runStates, List.foldlM_cons, bind_ok_iff] at hFirst
        obtain ⟨s, hStep, hRest⟩ := hFirst
        exact ⟨s, fun _ => ⟨hStep, hRest⟩⟩
      · exact ⟨st a, fun h => absurd h ha⟩
    choose s hs using hSteps
    have hStep : updateStates ops p.1 p.2 (l.map spec) (l.map st) = .ok (l.map s) :=
      updateStates_map fun a ha => ⟨hVal a ha p List.mem_cons_self, (hs a ha).1⟩
    rw [List.foldlM_cons, hStep, ok_bind]
    exact ih (fun a ha q hq => hVal a ha q (List.mem_cons_of_mem p hq)) fun a ha => (hs a ha).2

/-- What a flat row brings to the state of an aggregate. -/
def rowValue (layout : List Slot) : PlanAggregate F32 F64 → List (Value F32 F64) → Value F32 F64
  | .count, _ => .int .int64 (some 1)
  | .sum chunkPos expr, row => intOf (expr (chunkColumns layout chunkPos row))

/-- The state after some flat rows. -/
def flatState (layout : List Slot) (rows : List (List (Value F32 F64))) :
    PlanAggregate F32 F64 → AggregateState F64
  | .count => .count (Int64.ofNat rows.length)
  | .sum chunkPos expr => sumState
      ((rows.filterMap fun row => expr (chunkColumns layout chunkPos row)).map Int64.toInt)

theorem runStates_flatState (ops : FloatOps F32 F64) (rows : List (List (Value F32 F64)))
    (a : PlanAggregate F32 F64) :
    runStates (E := E) ops (AggregateState.new ops a.function false) (rows.map (rowValue layout a)) =
      .ok (flatState layout rows a) := by
  cases a with
  | count =>
    show runStates ops (.count 0) _ = .ok (.count _)
    rw [runStates_eq, applyUpdates_tuples, Int64.zero_add, List.length_map, List.length_map]
  | sum chunkPos expr =>
    have hRun := runStates_sumState (E := E) ops
      (rows.map fun row => expr (chunkColumns layout chunkPos row))
    rw [List.map_map, List.filterMap_map] at hRun
    exact hRun

theorem valueAt_flat {c : ValueChunk F32 F64} {i : Nat} (hc : c.WellFormed) (hi : i < c.len)
    (a : PlanAggregate F32 F64) :
    (a.flat layout).valueAt (E := E) c i = .ok (some (rowValue layout a (c.rowAt i))) := by
  cases a with
  | count => rfl
  | sum chunkPos expr =>
    unfold AggregateSpec.valueAt PlanAggregate.flat AggregateSpec.sum
    dsimp only
    rw [evaluateRow_rowEvaluator hc hi]
    rfl

variable {w : Nat} {chunks : List Chunk} {rows : List (List Nat)}

variable (F32 F64) in
/-- The rows of the chunks are those of the tables. -/
theorem positions_tabled (hw : 0 < w) (h : Tabled w chunks rows) :
    (∀ p ∈ positions (chunks.map DataChunk.asValues),
      (p.1 : ValueChunk F32 F64).WellFormed ∧ p.2 < p.1.len) ∧
    (positions (chunks.map DataChunk.asValues)).map (fun p => p.1.rowAt p.2) =
      (rows.map (List.map idValue) : List (List (Value F32 F64))) ∧
    ((chunks.map DataChunk.asValues).any fun c : ValueChunk F32 F64 => c.len != 0) = !rows.isEmpty := by
  obtain ⟨parts, rfl, rfl, hRows⟩ := h
  have hPart : ∀ rs ∈ parts, ∀ r ∈ rs, r.length = w := fun rs hrs r hr =>
    hRows r (List.mem_flatten.mpr ⟨rs, hrs, hr⟩)
  have hLen : ∀ rs, ((table w rs).asValues : ValueChunk F32 F64).len = rs.length := fun rs =>
    (len_asValues _).trans (table_len hw)
  have hKept : ∀ rs, ((table w rs).asValues : ValueChunk F32 F64).keptRows = List.range rs.length :=
    fun rs => congrArg List.range (hLen rs)
  refine ⟨fun p hp => ?_, ?_, ?_⟩
  · obtain ⟨c, hc, hp⟩ := List.mem_flatMap.mp hp
    obtain ⟨t, ht, rfl⟩ := List.mem_map.mp hc
    obtain ⟨rs, -, rfl⟩ := List.mem_map.mp ht
    obtain ⟨i, hi, rfl⟩ := List.mem_map.mp hp
    rw [hKept, List.mem_range] at hi
    refine ⟨wellFormed_table (some 0) hw fun j hj => ?_, (hLen rs).symm ▸ hi⟩
    obtain rfl := Option.some.inj hj
    exact Nat.zero_lt_of_lt hi
  · unfold positions
    rw [List.map_map, List.flatMap_map, List.map_flatMap, List.map_flatten, ← List.flatMap_def]
    refine List.flatMap_congr fun rs hrs => ?_
    rw [Function.comp_apply, hKept, List.map_map]
    refine List.ext_getElem (by simp) fun i hi hi' => ?_
    have hBound : i < rs.length := by simpa using hi'
    have hAt : rs[i]? = some rs[i] := List.getElem?_eq_getElem hBound
    rw [List.getElem_map, List.getElem_map, List.getElem_range]
    exact rowAt_table (some 0) (hPart rs hrs _ (List.getElem_mem hBound)) hAt
  · rw [List.map_map, List.any_map, Bool.eq_iff_iff]
    simp [hLen]

/-- The flat aggregation gives one row, which the rows alone determine. -/
theorem aggregate_rows [DecidableEq F32] [DecidableEq F64] (ops : FloatOps F32 F64)
    (order : Groups F32 F64 → Groups F32 F64) (hw : 0 < w) (h : Tabled w chunks rows)
    {aggregates : List (PlanAggregate F32 F64)} (hNe : aggregates ≠ []) :
    aggregate ops (aggregates.map (PlanAggregate.flat (E := E) layout)) [] order []
        (chunks.map fun c => .ok c.asValues) =
      [.ok (DataChunk.new (finalColumns ops rows.isEmpty
        (flatState layout (rows.map (List.map idValue))) aggregates))] := by
  obtain ⟨hPositions, hRowsAt, hAny⟩ := positions_tabled F32 F64 hw h
  have hRun : ∀ a, runStates (E := E) ops (AggregateState.new ops a.function false)
      ((positions (chunks.map DataChunk.asValues)).map fun p => rowValue layout a (p.1.rowAt p.2)) =
        .ok (flatState layout (rows.map (List.map idValue)) a) := by
    intro a
    rw [← hRowsAt]
    refine Eq.trans ?_ (runStates_flatState ops _ a)
    rw [List.map_map]
    rfl
  have hFold : (positions (chunks.map DataChunk.asValues)).foldlM
      (fun states p => updateStates ops p.1 p.2 (aggregates.map (PlanAggregate.flat (E := E) layout)) states)
      (aggregates.map fun a => AggregateState.new ops a.function false) =
        .ok (aggregates.map (flatState layout (rows.map (List.map idValue)))) :=
    foldlM_updateStates
      (fun a _ p hp => valueAt_flat (hPositions p hp).1 (hPositions p hp).2 a) fun a _ => hRun a
  have hNew : newStates ops (aggregates.map (PlanAggregate.flat (E := E) layout)) =
      aggregates.map fun a => AggregateState.new ops a.function false := by
    unfold newStates
    rw [List.map_map]
    exact List.map_congr_left fun a _ => by cases a <;> rfl
  have hChild : (chunks.map fun c => (.ok c.asValues : Except (Fault E) (ValueChunk F32 F64))) =
      (chunks.map DataChunk.asValues).map .ok := by
    rw [List.map_map]
    rfl
  have hSpecs : aggregates.map (PlanAggregate.flat (E := E) layout) ≠ [] := by simpa using hNe
  unfold aggregate aggregateAll
  rw [if_neg hSpecs, if_pos rfl, hChild, foldRows_ok, hNew, hFold, ok_bind, ok_bind, hAny]
  unfold finalColumns
  cases rows.isEmpty with
  | true =>
    show [Except.ok (DataChunk.new ((aggregates.map _).map _))] = _
    rw [List.map_map]
    refine congrArg (fun columns => [Except.ok (DataChunk.new columns)]) ?_
    exact List.map_congr_left fun a _ => by cases a <;> rfl
  | false =>
    show [Except.ok (DataChunk.new ((aggregates.map _).map _))] = _
    rw [List.map_map]
    rfl

end Flat

/-! ## The factorized aggregation -/

section Factorized

variable {ops : FloatOps F32 F64} {computeError : String → E} {layout : List Slot} {P : List Part}
  {sets : List (List Part)} {k : Nat} {x : Part} {expr : RowExpr F32 F64}

abbrev valuesOfParts (P : List Part) : ValueResultSet F32 F64 := (ofParts P).asValues

theorem wellFormed_part (x : Part) : (x.chunk.asValues : ValueChunk F32 F64).WellFormed := by
  obtain ⟨slot, chunk, rows, fits⟩ := x
  cases fits with
  | @flat cols all i r hCols hAll hi =>
    refine wellFormed_table (some i) (List.length_pos_iff.mpr hCols) fun j hj => ?_
    obtain rfl := Option.some.inj hj
    exact (List.getElem?_eq_some_iff.mp hi).1
  | unflat hCols hAll hRows => exact wellFormed_table none (List.length_pos_iff.mpr hCols) nofun

theorem wellFormed_ofParts (P : List Part) : (valuesOfParts P : ValueResultSet F32 F64).WellFormed := by
  intro c hc
  obtain ⟨chunk, hChunk, rfl⟩ := List.mem_map.mp hc
  obtain ⟨x, -, rfl⟩ := List.mem_map.mp hChunk
  exact wellFormed_part x

theorem getDataChunk_values (P : List Part) (pos : Nat) :
    (valuesOfParts P : ValueResultSet F32 F64).getDataChunk pos =
      P[pos]?.map fun x => x.chunk.asValues := by
  unfold ResultSet.getDataChunk valuesOfParts ResultSet.asValues ofParts
  rw [List.getElem?_map, List.getElem?_map, Option.map_map]
  rfl

variable (F32 F64) in
/-- The rows that are visited are those that the chunk stands for. -/
theorem visited_part (x : Part) :
    (visited (x.chunk.asValues : ValueChunk F32 F64)).map x.chunk.asValues.rowAt =
      (x.rows.map (List.map idValue) : List (List (Value F32 F64))) ∧
    (x.chunk.asValues : ValueChunk F32 F64).places =
      visited (x.chunk.asValues : ValueChunk F32 F64) := by
  obtain ⟨slot, chunk, rows, fits⟩ := x
  cases fits with
  | @flat cols all i r hCols hAll hi =>
    refine ⟨congrArg (fun row => [row]) ?_, rfl⟩
    exact rowAt_table (some i) (hAll r (List.mem_of_getElem? hi)) hi
  | @unflat cols _ hCols hAll hRows =>
    have hLen : ((table cols.length rows).setUnflat.asValues : ValueChunk F32 F64).len = rows.length :=
      (len_asValues _).trans (table_len (List.length_pos_iff.mpr hCols))
    refine ⟨?_, rfl⟩
    show (List.range ((table cols.length rows).setUnflat.asValues : ValueChunk F32 F64).len).map _ = _
    rw [hLen]
    refine List.ext_getElem (by simp) fun i hi hi' => ?_
    have hBound : i < rows.length := by simpa using hi'
    rw [List.getElem_map, List.getElem_map, List.getElem_range]
    exact rowAt_table none (hAll _ (List.getElem_mem hBound)) (List.getElem?_eq_getElem hBound)

theorem length_places_part (x : Part) :
    (x.chunk.asValues : ValueChunk F32 F64).places.length = x.rows.length := by
  obtain ⟨hRows, hPlaces⟩ := visited_part F32 F64 x
  have hLength := congrArg List.length hRows
  rwa [List.length_map, List.length_map, ← hPlaces] at hLength

theorem placeCount_values (P : List Part) (pos : Nat) :
    (valuesOfParts P : ValueResultSet F32 F64).placeCount pos =
      (P[pos]?.map fun x => x.rows.length).getD 1 := by
  unfold ResultSet.placeCount
  rw [getDataChunk_values, Option.map_map]
  congr 2
  exact funext length_places_part

theorem length_assigned (P : List Part) :
    (Part.assigned P).length = (P.map fun x => x.rows.length).prod := by
  unfold Part.assigned
  rw [length_assignments, List.map_map]
  rfl

theorem length_tuples_values (P : List Part) :
    (valuesOfParts P : ValueResultSet F32 F64).tuples.length = (Part.assigned P).length := by
  have hChunks : (valuesOfParts P : ValueResultSet F32 F64).dataChunks =
      P.map fun x => x.chunk.asValues := List.map_map ..
  rw [length_tuples_eq, length_assigned, hChunks, List.map_map]
  refine (Nat.one_mul _).trans (congrArg List.prod (List.map_congr_left fun x _ => ?_))
  exact length_places_part x

/-- How often a row of a part comes up: the other parts are free. -/
def othersOf (k : Nat) (P : List Part) : Nat := (Part.assigned (P.eraseIdx k)).length

/-- The other chunks have as many tuples together as they have assignments. -/
theorem prod_others (hx : P[k]? = some x) :
    (((valuesOfParts P : ValueResultSet F32 F64).allChunks.filter fun i => i ∉ [k]).map
      (valuesOfParts P : ValueResultSet F32 F64).placeCount).prod = othersOf k P := by
  obtain ⟨hk, rfl⟩ := List.getElem?_eq_some_iff.mp hx
  have hLength : (valuesOfParts P : ValueResultSet F32 F64).dataChunks.length = P.length := by
    show (List.map _ (List.map _ P)).length = _
    rw [List.length_map, List.length_map]
  have hCounts : (valuesOfParts P : ValueResultSet F32 F64).placeCount =
      fun i => (P[i]?.map fun x => x.rows.length).getD 1 := funext (placeCount_values P)
  have hAll : (List.range P.length).map (fun i => (P[i]?.map fun x => x.rows.length).getD 1) =
      P.map fun x => x.rows.length := by
    refine List.ext_getElem (by simp) fun i hi hi' => ?_
    have hBound : i < P.length := by simpa using hi'
    simp [hBound]
  have hPos : 0 < P[k].rows.length := List.length_pos_iff.mpr P[k].fits.rows_ne_nil
  refine Nat.eq_of_mul_eq_mul_left hPos ?_
  have hRange : (List.range P.length).Perm (k :: (List.range P.length).filter fun i => i ∉ [k]) := by
    have hErase := List.perm_cons_erase (List.mem_range.mpr hk)
    rw [List.nodup_range.erase_eq_filter] at hErase
    refine hErase.trans (List.Perm.of_eq ?_)
    congr 1
    refine List.filter_congr fun i _ => ?_
    simp [bne, Bool.beq_eq_decide_eq]
  have hLeft := (hRange.map fun i => (P[i]?.map fun x => x.rows.length).getD 1).prod_eq
  rw [hAll, List.map_cons, List.prod_cons, hx] at hLeft
  have hParts : (P[k] :: P.eraseIdx k).Perm P := List.getElem_cons_eraseIdx_perm hk
  have hRight := (hParts.map fun x => x.rows.length).prod_eq
  rw [List.map_cons, List.prod_cons] at hRight
  unfold ResultSet.allChunks
  rw [hLength, hCounts, othersOf, length_assigned, hRight]
  exact hLeft.symm

theorem payloadValues_part (hx : P[k]? = some x) :
    payloadValues (E := E) ⟨k, some (rowEvaluator expr)⟩ (valuesOfParts P) =
      .ok ((x.rows.map fun r => expr (r.map idValue)).map intOf) := by
  obtain ⟨hRows, -⟩ := visited_part F32 F64 x
  have hWf : (x.chunk.asValues : ValueChunk F32 F64).WellFormed := wellFormed_part x
  have hValues : (visited (x.chunk.asValues : ValueChunk F32 F64)).map
      (fun i => intOf (expr (x.chunk.asValues.rowAt i))) =
        ((x.rows.map fun r => expr (r.map idValue)).map intOf : List (Value F32 F64)) := by
    have hMap := congrArg (List.map fun row => (intOf (expr row) : Value F32 F64)) hRows
    rw [List.map_map, List.map_map] at hMap
    rw [List.map_map]
    exact hMap
  unfold payloadValues
  rw [getDataChunk_values, hx, ← hValues, Option.map_some]
  simp only [unwrap, ok_bind]
  unfold visited
  cases hIdx : (x.chunk.asValues : ValueChunk F32 F64).curIdx with
  | none =>
    refine mapM_eq_ok fun i hi => ?_
    exact index_map_range (List.mem_range.mp hi)
  | some i =>
    dsimp only
    rw [evaluateRow_rowEvaluator hWf (hWf.curIdx i hIdx)]
    rfl

/-- The values at the rows of a part. -/
def valuesAt (k : Nat) (expr : RowExpr F32 F64) (P : List Part) : List Int64 :=
  ((P[k]?.map Part.rows).getD []).filterMap fun r => expr (r.map idValue)

/-- What a result set adds to a sum. -/
def addedBy (k : Nat) (expr : RowExpr F32 F64) (P : List Part) : List Int64 :=
  (valuesAt k expr P).flatMap (List.replicate (othersOf k P % 2 ^ 64))

theorem updatesOf_sum (computeError : String → E) (hx : P[k]? = some x) :
    updatesOf computeError (PlanAggregate.sum k expr).factorized (valuesOfParts P) =
      .ok ((addedBy k expr P).map fun v => some (intOf (some v))) := by
  have hFactor : payloadFactor computeError (valuesOfParts P : ValueResultSet F32 F64) k =
      .ok (othersOf k P % 2 ^ 64) := by
    have hOne : (valuesOfParts P : ValueResultSet F32 F64).factor = 1 := rfl
    have hLt : (valuesOfParts P : ValueResultSet F32 F64).factor < 2 ^ 64 := hOne ▸ by decide
    rw [payloadFactor_eq (wellFormed_ofParts P) hLt, prod_others hx, hOne]
    simp only [Nat.mul_one]
    exact if_pos (Nat.mod_lt _ (by decide))
  unfold updatesOf PlanAggregate.factorized SimpleAggregateSpec.sum
  dsimp only
  rw [if_neg nofun, payloadValues_part hx, ok_bind, hFactor, ok_bind, addedBy, valuesAt, hx]
  refine congrArg Except.ok ?_
  generalize othersOf k P % 2 ^ 64 = n
  show _ = ((x.rows.filterMap fun r => expr (r.map idValue)).flatMap (List.replicate n)).map _
  induction x.rows with
  | nil => rfl
  | cons r rows ih =>
    rw [List.map_cons, List.map_cons, List.filter_cons, List.filterMap_cons]
    cases expr (r.map idValue) with
    | none => exact ih
    | some v =>
      rw [List.flatMap_cons, List.map_append, List.map_replicate, ← ih]
      rfl

/-- The state after some result sets. -/
def setsState (sets : List (List Part)) : PlanAggregate F32 F64 → AggregateState F64
  | .count => .count (Int64.ofNat (sets.map fun P => (Part.assigned P).length % 2 ^ 64).sum)
  | .sum chunkPos expr => sumState ((sets.flatMap (addedBy chunkPos expr)).map Int64.toInt)

variable (hLayout : layout ≠ []) (hSets : ∀ P ∈ sets, P.map Part.slot = layout)

include hLayout hSets in
theorem filled_sets : filled (sets.map valuesOfParts) =
    (sets.map valuesOfParts : List (ValueResultSet F32 F64)) := by
  refine List.filter_eq_self.mpr fun rs hrs => ?_
  obtain ⟨P, hP, rfl⟩ := List.mem_map.mp hrs
  cases P with
  | nil => exact absurd (hSets [] hP).symm hLayout
  | cons x P => rfl

include hLayout hSets in
/-- A specification over the result sets leads to the state that their parts prescribe. -/
theorem runSpec_sets (ops : FloatOps F32 F64) (computeError : String → E)
    {a : PlanAggregate F32 F64} (ha : a.Placed layout) :
    runSpec ops computeError (sets.map valuesOfParts) a.factorized = .ok (setsState sets a) := by
  have hPart : ∀ P ∈ sets, P.length = layout.length := fun P hP => by
    rw [← hSets P hP, List.length_map]
  unfold runSpec allUpdates
  rw [filled_sets hLayout hSets]
  cases a with
  | count =>
    have hUpdates : (sets.map valuesOfParts).mapM
        (updatesOf computeError (PlanAggregate.count : PlanAggregate F32 F64).factorized) =
          .ok (sets.map fun P => List.replicate ((Part.assigned P).length % 2 ^ 64) none) := by
      rw [mapM_ok_iff, List.map_map, List.map_map]
      refine List.map_congr_left fun P hP => ?_
      have hNe : (valuesOfParts P : ValueResultSet F32 F64).dataChunks ≠ [] := fun hNil =>
        hLayout (List.length_eq_zero_iff.mp (by
          have hLength := congrArg List.length hNil
          rw [← hPart P hP]
          simpa [valuesOfParts, ResultSet.asValues, ofParts] using hLength))
      rw [Function.comp_apply, updatesOf_count (wellFormed_ofParts P) hNe rfl, length_tuples_values]
      rfl
    rw [hUpdates, ok_bind, ok_bind]
    refine (applyUpdates_tuples ops _ 0).trans ?_
    rw [Int64.zero_add, List.length_flatten, List.map_map]
    unfold setsState
    simp [Function.comp_def]
  | sum k expr =>
    have hUpdates : (sets.map valuesOfParts).mapM (updatesOf computeError
        (PlanAggregate.sum k expr : PlanAggregate F32 F64).factorized) =
          .ok (sets.map fun P => (addedBy k expr P).map fun v => some (intOf (some v))) := by
      rw [mapM_ok_iff, List.map_map, List.map_map]
      refine List.map_congr_left fun P hP => ?_
      have hk : k < P.length := (hPart P hP).symm ▸ ha
      exact updatesOf_sum computeError (List.getElem?_eq_getElem hk)
    rw [hUpdates, ok_bind, ok_bind]
    have hRun := runStates_sumState (E := E) ops ((sets.flatMap (addedBy k expr)).map some)
    rw [List.map_map, List.filterMap_map, Function.id_comp, List.filterMap_some, runStates_eq,
      List.map_map] at hRun
    rw [← List.flatMap_def, ← List.map_flatMap]
    exact hRun

include hLayout hSets in
/-- The factorized aggregation gives one row, which the rows of the parts alone determine. -/
theorem factorizedAggregate_sets (ops : FloatOps F32 F64) (computeError : String → E)
    {aggregates : List (PlanAggregate F32 F64)} (hNe : aggregates ≠ [])
    (hPlaced : ∀ a ∈ aggregates, a.Placed layout) :
    factorizedAggregate ops computeError (aggregates.map PlanAggregate.factorized)
        (sets.map valuesOfParts) =
      .ok [flatResult (finalColumns ops sets.isEmpty (setsState sets) aggregates)] := by
  have hSpecs : aggregates.map (PlanAggregate.factorized (E := E)) ≠ [] := by simpa using hNe
  have hSound : Sound (sets.map valuesOfParts : List (ValueResultSet F32 F64)) := by
    intro rs hrs
    obtain ⟨P, -, rfl⟩ := List.mem_map.mp hrs
    have hOne : (valuesOfParts P : ValueResultSet F32 F64).factor = 1 := rfl
    exact ⟨wellFormed_ofParts P, hOne ▸ by decide⟩
  have hRowWise : RowWiseSpecs (aggregates.map (PlanAggregate.factorized (E := E))) := by
    intro spec hSpec expr hExpr
    obtain ⟨a, -, rfl⟩ := List.mem_map.mp hSpec
    cases a with
    | count => cases hExpr
    | sum k e =>
      obtain rfl := Option.some.inj hExpr
      exact rowWise_rowEvaluator e
  refine (factorizedAggregate_ok_iff hSpecs hSound hRowWise).mpr
    ⟨aggregates.map (setsState sets), ?_, ?_⟩
  · rw [List.map_map, List.map_map]
    exact List.map_congr_left fun a ha => runSpec_sets hLayout hSets ops computeError (hPlaced a ha)
  · rw [List.zipWith_map, List.zipWith_self]
    refine congrArg (fun columns => [flatResult columns]) (List.map_congr_left fun a _ => ?_)
    have hFunction : (a.factorized : SimpleAggregateSpec E F32 F64).function = a.function := by
      cases a <;> rfl
    unfold resultColumn
    rw [filled_sets hLayout hSets, hFunction, List.isEmpty_map]

end Factorized

end StreamExecutor

end MiniGU
