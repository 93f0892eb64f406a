import MiniGU.Results.IntegerAggregates

/-!
# Distinct aggregates

With `DISTINCT`, a state collects the debug texts of its values, and `finalize` counts them. That
is all that `COUNT` needs; the sum of a `SUM` or an `AVG` is not touched.
-/

namespace MiniGU

-- ----
-- Debug texts of integers
-- ----

theorem Value.debug_int {F32 F64 : Type} (ops : FloatOps F32 F64) (t : IntType) (n : Int) :
    (Value.int t (some n)).debug ops =
      (t.variantName ++ "(" ++ "Some(") ++ (intToString n ++ (")" ++ ")")) := by
  show t.variantName ++ "(" ++ ("Some(" ++ intToString n ++ ")") ++ ")" = _
  simp only [String.append_assoc]

theorem Value.debug_int_inj {F32 F64 : Type} {ops : FloatOps F32 F64} {t : IntType} {m n : Int}
    (hm : t.InRange m) (hn : t.InRange n)
    (h : (Value.int t (some m)).debug ops = (Value.int t (some n)).debug ops) : m = n := by
  rw [debug_int, debug_int, String.append_right_inj, String.append_left_inj] at h
  have hParse := IntType.parse_toString hm
  rw [h, IntType.parse_toString hn] at hParse
  exact (Option.some.inj hParse).symm

namespace StreamExecutor

variable {E F32 F64 : Type} {ops : FloatOps F32 F64}

open StreamExecutor.AggregateState

-- ----
-- The states with and without DISTINCT
-- ----

/-- The texts that a distinct state holds after some values. -/
def distinctSet (ops : FloatOps F32 F64) (t : IntType) (ns : List Int) (set : List String) :
    List String :=
  ns.foldl (fun set n => set.insert ((Value.int t (some n)).debug ops)) set

theorem runStates_countDistinct (t : IntType) (vs : List (Option Int)) (c : Int64)
    (set : List String) :
    runStates (E := E) ops (.countExpression c (some set)) (intValues t vs) =
      .ok (.countExpression c (some (distinctSet ops t vs.reduceOption set))) := by
  induction vs generalizing set with
  | nil => rfl
  | cons v vs ih =>
    rw [intValues, List.map_cons, runStates, List.foldlM_cons]
    cases v with
    | none => exact ih set
    | some n => exact ih (set.insert _)

theorem runStates_sumDistinct (t : IntType) (vs : List (Option Int)) (i : Option Int64)
    (f : Option F64) (set : List String) :
    runStates (E := E) ops (.sum i f (some set)) (intValues t vs) =
      .ok (.sum i f (some (distinctSet ops t vs.reduceOption set))) := by
  induction vs generalizing set with
  | nil => rfl
  | cons v vs ih =>
    rw [intValues, List.map_cons, runStates, List.foldlM_cons]
    cases v with
    | none => exact ih set
    | some n => exact ih (set.insert _)

theorem runStates_avgDistinct (t : IntType) (vs : List (Option Int)) (s : F64) (c : Int64)
    (set : List String) :
    runStates (E := E) ops (.avg s c (some set)) (intValues t vs) =
      .ok (.avg s c (some (distinctSet ops t vs.reduceOption set))) := by
  induction vs generalizing set with
  | nil => rfl
  | cons v vs ih =>
    rw [intValues, List.map_cons, runStates, List.foldlM_cons]
    cases v with
    | none => exact ih set
    | some n => exact ih (set.insert _)

theorem runStates_count (t : IntType) (ds : List Int) (c : Int64) :
    runStates (E := E) ops (.countExpression c none) (intValues t (ds.map some)) =
      .ok (.countExpression (c + Int64.ofNat ds.length) none) := by
  induction ds generalizing c with
  | nil => simp [runStates, intValues, pure, Except.pure]
  | cons d ds ih =>
    rw [intValues, List.map_cons, List.map_cons, runStates, List.foldlM_cons]
    refine (ih (c + 1)).trans ?_
    rw [List.length_cons, Nat.add_comm ds.length 1, Int64.ofNat_add, Int64.add_assoc]
    rfl

/-- The sum of integers as floats, one after another. -/
def floatSum (ops : FloatOps F32 F64) (s : F64) (ds : List Int) : F64 :=
  ds.foldl (fun s d => ops.add s (ops.ofInt d)) s

theorem runStates_avg (t : IntType) (ds : List Int) (s : F64) (c : Int64) :
    runStates (E := E) ops (.avg s c none) (intValues t (ds.map some)) =
      .ok (.avg (floatSum ops s ds) (c + Int64.ofNat ds.length) none) := by
  induction ds generalizing s c with
  | nil => simp [runStates, intValues, floatSum, pure, Except.pure]
  | cons d ds ih =>
    rw [intValues, List.map_cons, List.map_cons, runStates, List.foldlM_cons]
    refine (ih (ops.add s (ops.ofInt d)) (c + 1)).trans ?_
    rw [List.length_cons, Nat.add_comm ds.length 1, Int64.ofNat_add, Int64.add_assoc]
    rfl

-- ----
-- The set counts the distinct values
-- ----

theorem mem_distinctSet {t : IntType} {ns : List Int} {set : List String} {text : String} :
    text ∈ distinctSet ops t ns set ↔
      text ∈ set ∨ ∃ n ∈ ns, (Value.int t (some n)).debug ops = text := by
  induction ns generalizing set with
  | nil => simp [distinctSet]
  | cons n ns ih =>
    have hStep : distinctSet ops t (n :: ns) set =
        distinctSet ops t ns (set.insert ((Value.int t (some n)).debug ops)) := rfl
    rw [hStep, ih, List.mem_insert_iff, List.exists_mem_cons_iff]
    constructor
    · rintro ((rfl | h) | h)
      · exact .inr (.inl rfl)
      · exact .inl h
      · exact .inr (.inr h)
    · rintro (h | rfl | h)
      · exact .inl (.inr h)
      · exact .inl (.inl rfl)
      · exact .inr h

theorem nodup_distinctSet {t : IntType} {ns : List Int} {set : List String} (h : set.Nodup) :
    (distinctSet ops t ns set).Nodup := by
  induction ns generalizing set with
  | nil => exact h
  | cons n ns ih => exact ih h.insert

/-- The distinct values among those that are not null, in some order. -/
structure DistinctValues (vs : List (Option Int)) (ds : List Int) : Prop where
  nodup : ds.Nodup
  mem_iff : ∀ n, n ∈ ds ↔ some n ∈ vs

theorem length_distinctSet (ops : FloatOps F32 F64) {t : IntType} {vs : List (Option Int)} {ds : List Int}
    (hvs : ∀ n, some n ∈ vs → t.InRange n) (hds : DistinctValues vs ds) :
    (distinctSet ops t vs.reduceOption []).length = ds.length := by
  have hNodup : (ds.map fun n => (Value.int t (some n)).debug ops).Nodup := by
    refine List.Nodup.map_on (fun m hm n hn h => ?_) hds.nodup
    exact Value.debug_int_inj (hvs m ((hds.mem_iff m).mp hm)) (hvs n ((hds.mem_iff n).mp hn)) h
  have hPerm : (distinctSet ops t vs.reduceOption []).Perm
      (ds.map fun n => (Value.int t (some n)).debug ops) := by
    rw [List.perm_ext_iff_of_nodup (nodup_distinctSet List.nodup_nil) hNodup]
    intro text
    rw [mem_distinctSet, List.mem_map]
    simp only [List.not_mem_nil, false_or, List.reduceOption_mem_iff, hds.mem_iff]
  rw [hPerm.length_eq, List.length_map]

-- ----
-- Agreement
-- ----

/-- The state that the rows of a stream lead to. -/
def Reaches (ops : FloatOps F32 F64) (spec : AggregateSpec E F32 F64)
    (cs : List (ValueChunk F32 F64)) (state : AggregateState F64) : Prop :=
  ∃ hasData, foldRows (fun states chunk i => updateStates ops chunk i [spec] states) false
    (newStates ops [spec]) (cs.map .ok) = .ok (hasData, [state])

theorem reaches_of_runStates {func : AggregateFunction}
    {expr : Evaluator E ArrayType (Value F32 F64)} {distinct : Bool}
    {cs : List (ValueChunk F32 F64)} {vs : List (Value F32 F64)} (hColumn : Column expr cs vs)
    {state : AggregateState F64}
    (hRun : runStates (E := E) ops (AggregateState.new ops func distinct) vs = .ok state)
    (state' : AggregateState F64) :
    Reaches ops ⟨func, some expr, distinct⟩ cs state' ↔ state' = state := by
  have hFold := foldlM_updateStates_single ops func distinct hColumn
    (AggregateState.new ops func distinct)
  rw [hRun] at hFold
  have hRows := foldRows_ok
    (fun states chunk i => updateStates ops chunk i
      [(⟨func, some expr, distinct⟩ : AggregateSpec E F32 F64)] states) cs false
    [AggregateState.new ops func distinct]
  rw [hFold] at hRows
  constructor
  · rintro ⟨hasData, h⟩
    simp only [newStates, List.map_cons, List.map_nil] at h
    rw [hRows] at h
    simp only [Except.map, ok_bind, Except.ok.injEq, Prod.mk.injEq, List.cons.injEq, and_true] at h
    exact h.2.symm
  · rintro rfl
    exact ⟨_, hRows⟩

/-- The pair of sum and count that an average divides. -/
def dividedPair : AggregateState F64 → Option (F64 × Int64)
  | .avg sumF64 n distinctValues => some (sumF64, effectiveCount n distinctValues)
  | _ => none

/-- Two aggregates give the same over two streams. -/
def SameResult (ops : FloatOps F32 F64) (spec spec' : AggregateSpec E F32 F64)
    (cs cs' : List (ValueChunk F32 F64)) : Prop :=
  ∃ x, Yields ops spec cs x ∧ Yields ops spec' cs' x

/-- Two averages divide the same over two streams. -/
def SamePair (ops : FloatOps F32 F64) (spec spec' : AggregateSpec E F32 F64)
    (cs cs' : List (ValueChunk F32 F64)) : Prop :=
  ∃ state state', Reaches ops spec cs state ∧ Reaches ops spec' cs' state' ∧
    dividedPair state = dividedPair state'

section Agreement

variable {t : IntType} {vs : List (Option Int)} {ds : List Int} {cs cs' : List (ValueChunk F32 F64)}
  {expr expr' : Evaluator E ArrayType (Value F32 F64)}

theorem count_distinct_agrees (ops : FloatOps F32 F64) (hvs : ∀ n, some n ∈ vs → t.InRange n) (hds : DistinctValues vs ds)
    (hColumn : Column expr cs (intValues t vs))
    (hColumn' : Column expr' cs' (intValues t (ds.map some))) :
    SameResult ops (.countExpression expr true) (.countExpression expr' false) cs cs' := by
  refine ⟨some (.int .int64 (some (Int64.ofNat ds.length).toInt)), ?_, ?_⟩
  · rw [AggregateSpec.countExpression,
      aggregateAll_single ops hColumn (runStates_countDistinct t vs 0 [])]
    simp only [finalize, effectiveCount, length_distinctSet ops hvs hds]
    rfl
  · rw [AggregateSpec.countExpression, aggregateAll_single ops hColumn' (runStates_count t ds 0),
      Int64.zero_add]
    rfl

theorem sum_distinct_agrees_iff (ops : FloatOps F32 F64) (hColumn : Column expr cs (intValues t vs))
    (hColumn' : Column expr' cs' (intValues t (ds.map some))) :
    SameResult ops (.sum expr true) (.sum expr' false) cs cs' ↔ ds = [] := by
  have hNull : ∀ x, Yields ops (.sum expr true) cs x ↔ none = x := by
    intro x
    rw [AggregateSpec.sum, aggregateAll_single ops hColumn (runStates_sumDistinct t vs none none [])]
    rfl
  have hPlain : Yields ops (.sum expr' false) cs' none ↔ ds = [] := by
    have hSum := sum_yields ops hColumn' none
    have hAll : (ds.map some).reduceOption = ds := by
      rw [List.reduceOption, List.filterMap_map]
      exact List.filterMap_some
    rw [Option.map_none, hAll, sum?] at hSum
    rw [hSum]
    by_cases hNil : ds = []
    · rw [if_pos hNil]
      exact ⟨fun _ => hNil, fun _ => rfl⟩
    · rw [if_neg hNil]
      exact ⟨fun h => (by cases h), fun h => absurd h hNil⟩
  constructor
  · rintro ⟨x, hx, hx'⟩
    rw [← (hNull x).mp hx] at hx'
    exact hPlain.mp hx'
  · intro h
    exact ⟨none, (hNull none).mpr rfl, hPlain.mpr h⟩

theorem avg_distinct_agrees_iff (ops : FloatOps F32 F64) (hvs : ∀ n, some n ∈ vs → t.InRange n) (hds : DistinctValues vs ds)
    (hColumn : Column expr cs (intValues t vs))
    (hColumn' : Column expr' cs' (intValues t (ds.map some))) :
    SamePair ops (.avg expr true) (.avg expr' false) cs cs' ↔
      floatSum ops ops.zero ds = ops.zero := by
  have hRun : runStates (E := E) ops (AggregateState.new ops .avg true) (intValues t vs) =
      .ok (.avg ops.zero 0 (some (distinctSet ops t vs.reduceOption []))) :=
    runStates_avgDistinct t vs ops.zero 0 []
  have hRun' : runStates (E := E) ops (AggregateState.new ops .avg false)
      (intValues t (ds.map some)) =
        .ok (.avg (floatSum ops ops.zero ds) (0 + Int64.ofNat ds.length) none) :=
    runStates_avg t ds ops.zero 0
  have hDistinct := reaches_of_runStates hColumn hRun
  have hPlain := reaches_of_runStates hColumn' hRun'
  have hPair : dividedPair (.avg ops.zero 0 (some (distinctSet ops t vs.reduceOption []))) =
      dividedPair (.avg (floatSum ops ops.zero ds) (0 + Int64.ofNat ds.length) none) ↔
      floatSum ops ops.zero ds = ops.zero := by
    simp only [dividedPair, effectiveCount, length_distinctSet ops hvs hds, Int64.zero_add,
      Option.some.injEq, Prod.mk.injEq, and_true]
    exact eq_comm
  rw [← hPair]
  constructor
  · rintro ⟨state, state', hState, hState', hSame⟩
    rw [(hDistinct state).mp hState, (hPlain state').mp hState'] at hSame
    exact hSame
  · intro h
    exact ⟨_, _, (hDistinct _).mpr rfl, (hPlain _).mpr rfl, h⟩

/-- **Distinct aggregates and the distinct values.** Over values `vs` of an integer type on the one
side and their distinct values `ds` on the other, in any chunks: the three agree only where all
values are null. `COUNT` agrees always, `SUM` only there, and `AVG` where the distinct values add up
to `0.0`, the sum that it never leaves. -/
theorem distinct_aggregates_iff (ops : FloatOps F32 F64) (hvs : ∀ n, some n ∈ vs → t.InRange n)
    (hds : DistinctValues vs ds) (hColumn : Column expr cs (intValues t vs))
    (hColumn' : Column expr' cs' (intValues t (ds.map some))) :
    (SameResult ops (.countExpression expr true) (.countExpression expr' false) cs cs' ∧
      SameResult ops (.sum expr true) (.sum expr' false) cs cs' ∧
      SamePair ops (.avg expr true) (.avg expr' false) cs cs' ↔ ∀ v ∈ vs, v = none) ∧
    SameResult ops (.countExpression expr true) (.countExpression expr' false) cs cs' ∧
    (SameResult ops (.sum expr true) (.sum expr' false) cs cs' ↔ ∀ v ∈ vs, v = none) ∧
    (SamePair ops (.avg expr true) (.avg expr' false) cs cs' ↔
      floatSum ops ops.zero ds = ops.zero) := by
  have hNull : ds = [] ↔ ∀ v ∈ vs, v = none := by
    rw [List.eq_nil_iff_forall_not_mem]
    constructor
    · intro h v hv
      cases v with
      | none => rfl
      | some n => exact absurd ((hds.mem_iff n).mpr hv) (h n)
    · intro h n hn
      cases h _ ((hds.mem_iff n).mp hn)
  have hCount := count_distinct_agrees ops hvs hds hColumn hColumn'
  have hSum := sum_distinct_agrees_iff ops hColumn hColumn'
  have hAvg := avg_distinct_agrees_iff ops hvs hds hColumn hColumn'
  rw [hNull] at hSum
  refine ⟨⟨fun h => hSum.mp h.2.1, fun h => ⟨hCount, hSum.mpr h, hAvg.mpr ?_⟩⟩, hCount, hSum, hAvg⟩
  rw [hNull.mpr h]
  rfl

end Agreement

/-- Two nulls count for nothing, distinct or not. -/
theorem nulls_agree :
    SameResult (E := Unit) FloatOps.whole (.countExpression (columnRef 0) true)
      (.countExpression (columnRef 0) false) [intChunk .int32 [none, none]] [intChunk .int32 []] ∧
    SameResult (E := Unit) FloatOps.whole (.sum (columnRef 0) true) (.sum (columnRef 0) false)
      [intChunk .int32 [none, none]] [intChunk .int32 []] ∧
    SamePair (E := Unit) FloatOps.whole (.avg (columnRef 0) true) (.avg (columnRef 0) false)
      [intChunk .int32 [none, none]] [intChunk .int32 []] := by
  have hColumn : Column (E := Unit) (columnRef 0) [intChunk .int32 [none, none]]
      (intValues .int32 [none, none]) := rfl
  have hColumn' : Column (E := Unit) (columnRef 0) [intChunk .int32 []]
      (intValues .int32 (([] : List Int).map some)) := rfl
  have hAgree := distinct_aggregates_iff FloatOps.whole (t := .int32) (by simp)
    ⟨List.nodup_nil, by simp⟩ hColumn hColumn'
  exact hAgree.1.mpr (by simp)

/-- The values `3, 3` have the distinct sum null, the distinct value `3` has the sum `3`. -/
theorem sum_distinct_lost :
    ¬SameResult (E := Unit) FloatOps.whole (.sum (columnRef 0) true) (.sum (columnRef 0) false)
      [intChunk .int32 [some 3, some 3]] [intChunk .int32 [some 3]] := by
  have hColumn : Column (E := Unit) (columnRef 0) [intChunk .int32 [some 3, some 3]]
      (intValues .int32 [some 3, some 3]) := rfl
  have hColumn' : Column (E := Unit) (columnRef 0) [intChunk .int32 [some 3]]
      (intValues .int32 ([3].map some)) := rfl
  intro h
  have hNone := (sum_distinct_agrees_iff FloatOps.whole (t := .int32) hColumn hColumn').mp h
  cases hNone

end StreamExecutor

end MiniGU
