import MiniGU.Invariant.AggregatedTuples

/-!
# Factorized aggregation and flat aggregation

The factorized aggregation weighs each value of a payload chunk by the other chunks; the flat one
goes over the tuples. They differ where a filter drops a row of the payload chunk, where a scalar
is read at a second row, and where a product of cardinalities wraps around.
-/

namespace MiniGU

namespace StreamExecutor

variable {E F32 F64 : Type}

-- ----
-- The agreement
-- ----

section Agreement

variable {ops : FloatOps F32 F64} {computeError : String → E}
  {specs : List (SimpleAggregateSpec E F32 F64)} {spec : SimpleAggregateSpec E F32 F64}
  {child : List (ValueResultSet F32 F64)}

/-- A multiplicity does not fit 64 bits. -/
def Overflows (spec : SimpleAggregateSpec E F32 F64) (child : List (ValueResultSet F32 F64)) : Prop :=
  ∃ rs ∈ filled child, 2 ^ 64 ≤ weight spec rs

/-- Multiplicities and counters do not wrap around. -/
def Exact (computeError : String → E) (spec : SimpleAggregateSpec E F32 F64)
    (child : List (ValueResultSet F32 F64)) : Prop :=
  ¬Overflows spec child ∧ ∃ us, allUpdates computeError spec child = .ok us ∧ us.length < 2 ^ 63

/-- The aggregates are those of the tuples, with exact multiplicities; or there is an error, and the
flat aggregation fails too or a multiplicity overflows. -/
def Agrees (ops : FloatOps F32 F64) (computeError : String → E)
    (specs : List (SimpleAggregateSpec E F32 F64)) (child : List (ValueResultSet F32 F64)) : Prop :=
  (∃ out states, factorizedAggregate ops computeError specs child = .ok out ∧
    Shows out (states.map fun state => (state.finalize ops).known) ∧
    List.Forall₂ (fun spec state => FlatRun ops child spec (.ok state)) specs states ∧
    ∀ spec ∈ specs, Exact computeError spec child) ∨
  ((∃ e, factorizedAggregate ops computeError specs child = .error e) ∧
    ∃ spec ∈ specs, (∃ e, FlatRun ops child spec (.error e)) ∨ Overflows spec child)

/-- The number of values that the tuples bring. -/
def numTupleValues (spec : SimpleAggregateSpec E F32 F64) (child : List (ValueResultSet F32 F64)) :
    Nat :=
  match (filled child).mapM (tupleValues spec) with
  | .ok values => values.flatten.length
  | .error _ => 0

/-- Physical rows and multiplicities are those of the tuples. -/
def Weighted (spec : SimpleAggregateSpec E F32 F64) (child : List (ValueResultSet F32 F64)) : Prop :=
  ((∃ rs ∈ filled child, Stops spec rs) ∧
    ((∃ rs ∈ filled child, ∃ e, tupleValues spec rs = .error e) ∨ Overflows spec child)) ∨
  ((∀ rs ∈ filled child, ¬Stops spec rs ∧ weight spec rs < 2 ^ 64 ∧ Undropped spec rs) ∧
    numTupleValues spec child < 2 ^ 63)

theorem sound_of_filled (hChild : Sound child) {rs : ValueResultSet F32 F64}
    (hrs : rs ∈ filled child) : rs.WellFormed ∧ rs.factor < 2 ^ 64 ∧ rs.dataChunks ≠ [] := by
  obtain ⟨hMem, hNe⟩ := List.mem_filter.mp hrs
  refine ⟨(hChild rs hMem).1, (hChild rs hMem).2, fun hNil => ?_⟩
  rw [hNil] at hNe
  cases hNe

theorem fails_of_not_ok {ε α : Type} {x : Except ε α} (h : ∀ a, x ≠ .ok a) : ∃ e, x = .error e := by
  cases x with
  | error e => exact ⟨e, rfl⟩
  | ok a => exact absurd rfl (h a)

theorem allUpdates_ok_iff {us : List (Option (Value F32 F64))} :
    allUpdates computeError spec child = .ok us ↔
      ∃ uss : List (List (Option (Value F32 F64))),
        (filled child).map (updatesOf computeError spec) = uss.map .ok ∧ us = uss.flatten := by
  unfold allUpdates
  simp only [bind_ok_iff, mapM_ok_iff, Except.ok.injEq, eq_comm (a := us)]

/-- A result set at which an aggregate stops ends the aggregation. -/
theorem fails_of_stops (hSpecs : specs ≠ []) (hChild : Sound child) (hExprs : RowWiseSpecs specs)
    (hSpec : spec ∈ specs) {rs : ValueResultSet F32 F64} (hrs : rs ∈ filled child)
    (hStops : Stops spec rs) : ∃ e, factorizedAggregate ops computeError specs child = .error e := by
  refine fails_of_not_ok fun out hOut => ?_
  obtain ⟨states, hStates, -⟩ := (factorizedAggregate_ok_iff hSpecs hChild hExprs).mp hOut
  obtain ⟨state, hState⟩ := ok_of_map_ok hStates spec hSpec
  obtain ⟨us, hUs, -⟩ := bind_ok_iff.mp hState
  obtain ⟨uss, hUss, -⟩ := allUpdates_ok_iff.mp hUs
  obtain ⟨hWf, hFactor, hNe⟩ := sound_of_filled hChild hrs
  obtain ⟨e, he⟩ := (stops_iff computeError hWf hFactor hNe).mp hStops
  obtain ⟨us', hUs'⟩ := ok_of_map_ok hUss rs hrs
  cases he.symm.trans hUs'

/-- Where nothing stops and nothing is dropped, the updates are the values of the tuples. -/
theorem updates_perm (hChild : Sound child)
    (hExpr : ∀ expr, spec.expression.expression = some expr → RowWise expr)
    (hAll : ∀ rs ∈ filled child, ¬Stops spec rs ∧ weight spec rs < 2 ^ 64 ∧ Undropped spec rs) :
    ∃ us values, allUpdates computeError spec child = .ok us ∧
      (filled child).mapM (tupleValues spec) = .ok values ∧ us.Perm values.flatten := by
  suffices hLists : ∀ l : List (ValueResultSet F32 F64), (∀ rs ∈ l, rs ∈ filled child) →
      ∃ uss values : List (List (Option (Value F32 F64))),
        l.map (updatesOf computeError spec) = uss.map .ok ∧ l.map (tupleValues spec) = values.map .ok ∧ uss.flatten.Perm values.flatten by
    obtain ⟨uss, values, hUss, hValues, hPerm⟩ := hLists (filled child) fun _ h => h
    exact ⟨uss.flatten, values, allUpdates_ok_iff.mpr ⟨uss, hUss, rfl⟩, mapM_ok_iff.mpr hValues, hPerm⟩
  intro l hl
  induction l with
  | nil => exact ⟨[], [], rfl, rfl, .refl _⟩
  | cons rs l ih =>
    obtain ⟨uss, values, hUss, hValues, hPerm⟩ := ih fun r hr => hl r (List.mem_cons_of_mem _ hr)
    have hrs := hl rs List.mem_cons_self
    obtain ⟨hWf, hFactor, hNe⟩ := sound_of_filled hChild hrs
    obtain ⟨hRuns, hWeight, hKeep⟩ := hAll rs hrs
    obtain ⟨us, vs, hUs, hVs, -, -, hSame⟩ := updates_of_tuples hWf hFactor hNe hExpr hRuns hWeight
    refine ⟨us :: uss, vs :: values, ?_, ?_, (hSame hKeep).append hPerm⟩
    · rw [List.map_cons, List.map_cons, hUs, hUss]
    · rw [List.map_cons, List.map_cons, hVs, hValues]

/-- Where rows and multiplicities are those of the tuples, the two aggregations agree. -/
theorem agrees_of_weighted (hSpecs : specs ≠ []) (hChild : Sound child)
    (hExprs : RowWiseSpecs specs) (hAll : ∀ spec ∈ specs, Weighted spec child) :
    Agrees ops computeError specs child := by
  by_cases hStop : ∃ spec ∈ specs, ∃ rs ∈ filled child, Stops spec rs
  · obtain ⟨spec, hSpec, rs, hrs, hStops⟩ := hStop
    refine .inr ⟨fails_of_stops hSpecs hChild hExprs hSpec hrs hStops, spec, hSpec, ?_⟩
    rcases hAll spec hSpec with ⟨-, ⟨rs', hrs', hFails⟩ | hOver⟩ | ⟨hNone, -⟩
    · obtain ⟨e, he⟩ := mapM_fails hrs' hFails
      refine .inl ⟨e, ?_⟩
      unfold FlatRun
      rw [he]
    · exact .inr hOver
    · exact absurd hStops (hNone rs hrs).1
  · have hUpdates : ∀ spec ∈ specs, ∃ us values, allUpdates computeError spec child = .ok us ∧
        (filled child).mapM (tupleValues spec) = .ok values ∧ us.Perm values.flatten ∧
        Exact computeError spec child := by
      intro spec hSpec
      obtain ⟨hRows, hCount⟩ := (hAll spec hSpec).resolve_left fun h =>
        hStop ⟨spec, hSpec, h.1⟩
      obtain ⟨us, values, hUs, hValues, hPerm⟩ := updates_perm hChild (hExprs spec hSpec) hRows
      refine ⟨us, values, hUs, hValues, hPerm, fun ⟨rs, hrs, hOver⟩ => ?_, us, hUs, ?_⟩
      · exact absurd (hRows rs hrs).2.1 (Nat.not_lt.mpr hOver)
      · unfold numTupleValues at hCount
        rw [hValues] at hCount
        rw [hPerm.length_eq]
        exact hCount
    have hFlat : ∀ spec ∈ specs, FlatRun ops child spec (runSpec ops computeError child spec) := by
      intro spec hSpec
      obtain ⟨us, values, hUs, hValues, hPerm, -⟩ := hUpdates spec hSpec
      unfold FlatRun
      rw [hValues]
      refine ⟨us, hPerm, ?_⟩
      unfold runSpec
      rw [hUs, ok_bind]
    by_cases hRuns : ∀ spec ∈ specs, ∃ state, runSpec ops computeError child spec = .ok state
    · obtain ⟨states, hStates⟩ := exists_map_ok hRuns
      refine .inl ⟨_, states, (factorizedAggregate_ok_iff hSpecs hChild hExprs).mpr
        ⟨states, hStates, rfl⟩, shows_states hStates, ?_, fun spec hSpec => ?_⟩
      · clear hUpdates hRuns hStop hAll hExprs hSpecs
        induction specs generalizing states with
        | nil =>
          obtain rfl := List.map_eq_nil_iff.mp hStates.symm
          exact .nil
        | cons spec specs ih =>
          match states, hStates with
          | state :: states, hStates =>
            obtain ⟨hHead, hTail⟩ := List.cons.inj hStates
            exact .cons (hHead ▸ hFlat spec List.mem_cons_self)
              (ih (fun s hs => hFlat s (List.mem_cons_of_mem _ hs)) states hTail)
      · obtain ⟨_, _, -, -, -, hExact⟩ := hUpdates spec hSpec
        exact hExact
    · obtain ⟨spec, hSpec, hNone⟩ : ∃ spec ∈ specs, ∀ state,
          runSpec ops computeError child spec ≠ .ok state := by
        simpa using hRuns
      obtain ⟨e, he⟩ := fails_of_not_ok hNone
      refine .inr ⟨fails_of_not_ok fun out hOut => ?_, spec, hSpec, .inl ⟨e, he ▸ hFlat spec hSpec⟩⟩
      obtain ⟨states, hStates, -⟩ := (factorizedAggregate_ok_iff hSpecs hChild hExprs).mp hOut
      obtain ⟨state, hState⟩ := ok_of_map_ok hStates spec hSpec
      exact hNone state hState

/-- Two aggregates of the same argument. -/
def SameArgument (s spec : SimpleAggregateSpec E F32 F64) : Prop :=
  s.expression = spec.expression ∧ (s.function = .count ↔ spec.function = .count)

/-- The aggregate that counts an argument. -/
def counting (spec : SimpleAggregateSpec E F32 F64) : SimpleAggregateSpec E F32 F64 :=
  if spec.function = .count then ⟨.count, false, spec.expression⟩
  else ⟨.countExpression, false, spec.expression⟩

theorem sameArgument_counting (spec : SimpleAggregateSpec E F32 F64) :
    SameArgument (counting spec) spec := by
  unfold SameArgument counting
  split
  · rename_i h
    exact ⟨rfl, fun _ => h, fun _ => rfl⟩
  · rename_i h
    exact ⟨rfl, nofun, fun h' => absurd h' h⟩

theorem weighted_congr {s : SimpleAggregateSpec E F32 F64} (h : SameArgument s spec) :
    Weighted s child ↔ Weighted spec child := by
  have hWeight : ∀ rs : ValueResultSet F32 F64, weight s rs = weight spec rs := fun rs => by
    simp only [weight, h.1, h.2]
  have hValues : tupleValues s = tupleValues spec := funext fun rs => by
    simp only [tupleValues, h.1, h.2]
  have hStops : ∀ rs : ValueResultSet F32 F64, Stops s rs ↔ Stops spec rs := fun rs => by
    simp only [Stops, h.1, ne_eq, h.2]
  have hKeep : ∀ rs : ValueResultSet F32 F64, Undropped s rs ↔ Undropped spec rs := fun rs => by
    simp only [Undropped, h.1, ne_eq, h.2, hWeight]
  simp only [Weighted, Overflows, numTupleValues, hWeight, hValues, hStops, hKeep]

/-- What a count holds. -/
def countState (spec : SimpleAggregateSpec E F32 F64) (n : Int64) : AggregateState F64 :=
  if spec.function = .count then .count n else .countExpression n none

/-- The values that count. -/
def Counted (spec : SimpleAggregateSpec E F32 F64) (us : List (Option (Value F32 F64))) : Prop :=
  spec.function = .count ∨ ∀ u ∈ us, ∃ v, u = some v ∧ known? v = true

theorem newState_counting : newState ops (counting spec) = countState spec 0 := by
  unfold newState counting countState
  split <;> rfl

theorem known_countState (n : Int64) :
    ((countState spec n).finalize ops).known = some (.int .int64 (some n.toInt)) := by
  unfold countState
  split <;> rfl

theorem applyUpdates_count {us : List (Option (Value F32 F64))} (h : Counted spec us) (n : Int64) :
    applyUpdates (E := E) ops us (countState spec n) =
      .ok (countState spec (n + Int64.ofNat us.length)) := by
  unfold applyUpdates
  induction us generalizing n with
  | nil => simp [pure, Except.pure]
  | cons u us ih =>
    have hTail : Counted spec us := h.imp id fun hAll v hv => hAll v (List.mem_cons_of_mem u hv)
    have hStep : (countState spec n).update (E := E) ops u = .ok (countState spec (n + 1)) := by
      unfold countState
      by_cases hCount : spec.function = .count
      · rw [if_pos hCount, if_pos hCount]
        rfl
      · rw [if_neg hCount, if_neg hCount]
        obtain ⟨v, rfl, hKnown⟩ := h.resolve_left hCount u List.mem_cons_self
        have hFilter : (some v).filter (fun val => !val.isNullValue) = some v := by
          rw [Option.filter_some]
          exact if_pos hKnown
        unfold AggregateState.update
        rw [hFilter]
    rw [List.foldlM_cons, hStep, ok_bind, ih hTail, List.length_cons, Nat.add_comm us.length 1,
      Int64.ofNat_add, ← Int64.add_assoc]
    rfl

theorem counted_append {us vs : List (Option (Value F32 F64))} (hUs : Counted spec us)
    (hVs : Counted spec vs) : Counted spec (us ++ vs) := by
  by_cases hCount : spec.function = .count
  · exact .inl hCount
  · refine .inr fun u hu => ?_
    rcases List.mem_append.mp hu with hu | hu
    · exact hUs.resolve_left hCount u hu
    · exact hVs.resolve_left hCount u hu

theorem counted_updates {rs : ValueResultSet F32 F64} {us : List (Option (Value F32 F64))}
    (h : updatesOf computeError spec rs = .ok us) : Counted spec us := by
  by_cases hCount : spec.function = .count
  · exact .inl hCount
  · unfold updatesOf at h
    rw [if_neg hCount] at h
    obtain ⟨values, -, h⟩ := bind_ok_iff.mp h
    obtain ⟨factor, -, h⟩ := bind_ok_iff.mp h
    obtain rfl := Except.ok.inj h
    refine .inr fun u hu => ?_
    obtain ⟨v, hv, hMem⟩ := List.mem_flatMap.mp hu
    exact ⟨v, (List.mem_replicate.mp hMem).2, (List.mem_filter.mp hv).2⟩

theorem counted_tupleValues {rs : ValueResultSet F32 F64} {us : List (Option (Value F32 F64))}
    (h : tupleValues spec rs = .ok us) : Counted spec us := by
  by_cases hCount : spec.function = .count
  · exact .inl hCount
  · unfold tupleValues at h
    rw [if_neg hCount] at h
    obtain ⟨payload, -, h⟩ := bind_ok_iff.mp h
    obtain ⟨expr, -, h⟩ := bind_ok_iff.mp h
    obtain ⟨values, -, h⟩ := bind_ok_iff.mp h
    obtain rfl := Except.ok.inj h
    refine .inr fun u hu => ?_
    obtain ⟨v, hv, rfl⟩ := List.mem_map.mp hu
    exact ⟨v, rfl, (List.mem_filter.mp hv).2⟩

theorem counted_flatten {α : Type} {f : α → Except (Fault E) (List (Option (Value F32 F64)))}
    (hf : ∀ a us, f a = .ok us → Counted spec us) {l : List α}
    {uss : List (List (Option (Value F32 F64)))} (h : l.map f = uss.map .ok) :
    Counted spec uss.flatten := by
  induction l generalizing uss with
  | nil =>
    obtain rfl := List.map_eq_nil_iff.mp h.symm
    exact .inr nofun
  | cons a l ih =>
    match uss, h with
    | us :: uss, h =>
      obtain ⟨hHead, hTail⟩ := List.cons.inj h
      exact counted_append (hf a us hHead) (ih hTail)

/-- As many updates as values: nothing is dropped at any result set. -/
theorem undropped_of_length (hChild : Sound child)
    (hExpr : ∀ expr, spec.expression.expression = some expr → RowWise expr)
    (hNone : ∀ rs ∈ filled child, ¬Stops spec rs) (hExact : ¬Overflows spec child)
    {uss values : List (List (Option (Value F32 F64)))}
    (hUss : (filled child).map (updatesOf computeError spec) = uss.map .ok)
    (hValues : (filled child).map (tupleValues spec) = values.map .ok) :
    values.flatten.length ≤ uss.flatten.length ∧
      (values.flatten.length = uss.flatten.length → ∀ rs ∈ filled child, Undropped spec rs) := by
  suffices hLists : ∀ (l : List (ValueResultSet F32 F64))
      (uss values : List (List (Option (Value F32 F64)))), (∀ rs ∈ l, rs ∈ filled child) →
      l.map (updatesOf computeError spec) = uss.map .ok →
      l.map (tupleValues spec) = values.map .ok →
      values.flatten.length ≤ uss.flatten.length ∧
        (values.flatten.length = uss.flatten.length → ∀ rs ∈ l, Undropped spec rs) from
    hLists (filled child) uss values (fun _ h => h) hUss hValues
  intro l
  induction l with
  | nil =>
    intro uss values _ hUss hValues
    obtain rfl := List.map_eq_nil_iff.mp hUss.symm
    obtain rfl := List.map_eq_nil_iff.mp hValues.symm
    exact ⟨Nat.le_refl _, nofun⟩
  | cons rs l ih =>
    intro uss values hl hUss hValues
    match uss, values, hUss, hValues with
    | us :: uss, vs :: values, hUss, hValues =>
      obtain ⟨hUs, hUss⟩ := List.cons.inj hUss
      obtain ⟨hVs, hValues⟩ := List.cons.inj hValues
      have hrs := hl rs List.mem_cons_self
      obtain ⟨hWf, hFactor, hNe⟩ := sound_of_filled hChild hrs
      have hWeight : weight spec rs < 2 ^ 64 := Nat.lt_of_not_le fun hLe => hExact ⟨rs, hrs, hLe⟩
      obtain ⟨us', vs', hUs', hVs', hLe, hKeep, -⟩ :=
        updates_of_tuples hWf hFactor hNe hExpr (hNone rs hrs) hWeight
      obtain rfl := Except.ok.inj (hUs.symm.trans hUs')
      obtain rfl := Except.ok.inj (hVs.symm.trans hVs')
      obtain ⟨hLeTail, hKeepTail⟩ := ih uss values (fun r hr => hl r (List.mem_cons_of_mem _ hr))
        hUss hValues
      simp only [List.flatten_cons, List.length_append]
      refine ⟨Nat.add_le_add hLe hLeTail, fun hEq => ?_⟩
      exact List.forall_mem_cons.mpr ⟨hKeep (by omega), hKeepTail (by omega)⟩

theorem shows_unique {out : List (ValueResultSet F32 F64)} {xs ys : List (Option (Value F32 F64))}
    (hx : Shows out xs) (hy : Shows out ys) : xs = ys := by
  obtain ⟨columns, rfl, hColumns⟩ := hx.result
  obtain ⟨columns', hOut, hColumns'⟩ := hy.result
  obtain rfl : columns = columns' := by
    simpa [flatResult, ResultSet.push, DataChunk.new, ResultSet.new] using hOut
  have hSame := hColumns.symm.trans hColumns'
  exact List.map_injective_iff.mpr (fun _ _ h => (List.cons.inj h).1) hSame

/-- The count of an argument tells when its aggregates are those of the tuples. -/
theorem weighted_of_count (hChild : Sound child)
    (hExpr : ∀ expr, spec.expression.expression = some expr → RowWise expr)
    (hAgrees : Agrees ops computeError [counting spec] child) : Weighted spec child := by
  have hSame := sameArgument_counting spec
  have hExprs : RowWiseSpecs [counting spec] := by
    intro s hs expr hSome
    rw [List.mem_singleton.mp hs, hSame.1] at hSome
    exact hExpr expr hSome
  refine (weighted_congr hSame).mp ?_
  have hExpr' : ∀ expr, (counting spec).expression.expression = some expr → RowWise expr :=
    hExprs _ (List.mem_singleton_self _)
  -- the values of the tuples are counted without fail
  have hFlat : ∀ {values result}, (filled child).mapM (tupleValues (counting spec)) = .ok values →
      FlatRun ops child (counting spec) result →
        result = .ok (countState spec (0 + Int64.ofNat values.flatten.length)) := by
    intro values result hValues hRun
    unfold FlatRun at hRun
    rw [hValues] at hRun
    obtain ⟨order, hOrder, rfl⟩ := hRun
    have hCounted : Counted (counting spec) values.flatten :=
      counted_flatten (fun _ _ => counted_tupleValues) (mapM_ok_iff.mp hValues)
    have hCounted' : Counted spec order := by
      rcases hCounted with hCount | hAll
      · exact .inl (hSame.2.mp hCount)
      · exact .inr fun u hu => hAll u (hOrder.subset hu)
    rw [newState_counting, applyUpdates_count hCounted', hOrder.length_eq]
  by_cases hStop : ∃ rs ∈ filled child, Stops (counting spec) rs
  · obtain ⟨rs, hrs, hStops⟩ := hStop
    obtain ⟨e, he⟩ : ∃ e, factorizedAggregate ops computeError [counting spec] child = .error e :=
      fails_of_stops (List.cons_ne_nil _ _) hChild hExprs (List.mem_singleton_self _) hrs hStops
    refine .inl ⟨⟨rs, hrs, hStops⟩, ?_⟩
    rcases hAgrees with ⟨out, _, hOut, -⟩ | ⟨-, s, hs, hFails⟩
    · cases he.symm.trans hOut
    · obtain rfl := List.mem_singleton.mp hs
      refine hFails.imp (fun ⟨e', hRun⟩ => ?_) id
      by_contra hNone
      obtain ⟨values, hValues⟩ := exists_map_ok fun rs' hrs' =>
        not_forall_not.mp fun h => hNone ⟨rs', hrs', fails_of_not_ok h⟩
      cases hFlat (mapM_ok_iff.mpr hValues) hRun
  · have hNone : ∀ rs ∈ filled child, ¬Stops (counting spec) rs :=
      fun rs hrs hStops => hStop ⟨rs, hrs, hStops⟩
    obtain ⟨uss, hUss⟩ := exists_map_ok fun rs (hrs : rs ∈ filled child) => by
      obtain ⟨hWf, hFactor, hNe⟩ := sound_of_filled hChild hrs
      exact not_forall_not.mp fun h => hNone rs hrs
        ((stops_iff computeError hWf hFactor hNe).mpr (fails_of_not_ok h))
    have hUpdates : allUpdates computeError (counting spec) child = .ok uss.flatten :=
      allUpdates_ok_iff.mpr ⟨uss, hUss, rfl⟩
    have hCounted : Counted spec uss.flatten :=
      (counted_flatten (fun _ _ => counted_updates) hUss).imp hSame.2.mp id
    have hRun : runSpec ops computeError child (counting spec) =
        .ok (countState spec (0 + Int64.ofNat uss.flatten.length)) := by
      unfold runSpec
      rw [hUpdates, ok_bind, newState_counting, applyUpdates_count hCounted]
    have hStates : [counting spec].map (runSpec ops computeError child) =
        [countState spec (0 + Int64.ofNat uss.flatten.length)].map .ok := by
      rw [List.map_singleton, List.map_singleton, hRun]
    have hGives := (factorizedAggregate_ok_iff (List.cons_ne_nil _ _) hChild hExprs).mpr
      ⟨_, hStates, rfl⟩
    rcases hAgrees with ⟨out, states, hOut, hShows, hRuns, hExact⟩ | ⟨⟨e, he⟩, -⟩
    · obtain rfl := Except.ok.inj (hGives.symm.trans hOut)
      obtain ⟨hOver, us, hUs, hSmall⟩ := hExact _ (List.mem_singleton_self _)
      obtain rfl := Except.ok.inj (hUpdates.symm.trans hUs)
      obtain _ | ⟨hFirst, hRest⟩ := hRuns
      cases hRest
      rename_i state
      cases hValues : (filled child).mapM (tupleValues (counting spec)) with
      | error e =>
        unfold FlatRun at hFirst
        rw [hValues] at hFirst
        cases hFirst
      | ok values =>
        obtain rfl := Except.ok.inj (hFlat hValues hFirst)
        have hKnown := shows_unique (shows_states hStates) hShows
        simp only [List.map_cons, List.map_nil, known_countState, List.cons.injEq, and_true,
          Option.some.injEq, Value.scalar.injEq, ScalarValue.int.injEq, true_and] at hKnown
        obtain ⟨hLe, hKeep⟩ := undropped_of_length hChild hExpr' hNone hOver hUss
          (mapM_ok_iff.mp hValues)
        have hEq : values.flatten.length = uss.flatten.length := by
          rw [Int64.zero_add, Int64.zero_add, Int64.toInt_ofNat_of_lt hSmall,
            Int64.toInt_ofNat_of_lt (Nat.lt_of_le_of_lt hLe hSmall)] at hKnown
          exact_mod_cast hKnown.symm
        refine .inr ⟨fun rs hrs => ⟨hNone rs hrs, Nat.lt_of_not_le fun h => hOver ⟨rs, hrs, h⟩,
          hKeep hEq rs hrs⟩, ?_⟩
        unfold numTupleValues
        rw [hValues]
        show values.flatten.length < 2 ^ 63
        rw [hEq]
        exact hSmall
    · cases he.symm.trans hGives

/-- **When factorized aggregation is flat aggregation.** Where for each aggregate the physical rows
and multiplicities are those of the tuples; and for all aggregates of one argument, only then. -/
theorem aggregates_agree (ops : FloatOps F32 F64) (computeError : String → E) (hChild : Sound child) :
    (∀ specs, specs ≠ [] → RowWiseSpecs specs → (∀ spec ∈ specs, Weighted spec child) →
      Agrees ops computeError specs child) ∧
    ∀ spec, RowWiseSpecs [spec] →
      ((∀ s, SameArgument s spec → Agrees ops computeError [s] child) ↔ Weighted spec child) := by
  refine ⟨fun specs hSpecs hExprs hAll => agrees_of_weighted hSpecs hChild hExprs hAll,
    fun spec hExprs => ⟨fun h => ?_, fun h s hs => ?_⟩⟩
  · exact weighted_of_count hChild (hExprs spec (List.mem_singleton_self _))
      (h _ (sameArgument_counting spec))
  · refine agrees_of_weighted (List.cons_ne_nil _ _) hChild (fun s' hs' expr hSome => ?_)
      fun s' hs' => ?_
    · rw [List.mem_singleton.mp hs', hs.1] at hSome
      exact hExprs spec (List.mem_singleton_self _) expr hSome
    · rw [List.mem_singleton.mp hs']
      exact (weighted_congr hs).mpr h

end Agreement

-- ----
-- Three result sets
-- ----

section Examples

def intColumn (is : List Int) : ValueArray Int Int :=
  ⟨.scalar (.int .int32), is.map fun i => .int .int32 (some i)⟩

/-- An unflat chunk of two rows. -/
def twoRows (factor : Nat) (filter : Option (List Bool)) : ValueResultSet Int Int :=
  ⟨factor, [⟨[intColumn [1, 2]], filter, none⟩]⟩

theorem sound_twoRows {factor : Nat} {filter : Option (List Bool)} (hFactor : factor < 2 ^ 64)
    (hFilter : ∀ l ∈ filter, l.length = 2) : Sound [twoRows factor filter] := by
  intro rs hrs
  obtain rfl := List.mem_singleton.mp hrs
  refine ⟨fun c hc => ?_, hFactor⟩
  obtain rfl := List.mem_singleton.mp hc
  exact ⟨List.cons_ne_nil _ _, by simp [DataChunk.len], fun l hl => hFilter l hl, nofun⟩

/-- The sum of the column. -/
def sumOfRows : SimpleAggregateSpec String Int Int := .sum 0 (some (columnRef 0)) false

/-- The number of its values. -/
def countOfRows : SimpleAggregateSpec String Int Int :=
  .countExpression 0 (some (columnRef 0)) false

theorem rowWise_sumOfRows : RowWiseSpecs [sumOfRows] := by
  intro spec hSpec expr hExpr
  obtain rfl := List.mem_singleton.mp hSpec
  obtain rfl := Option.some.inj hExpr
  exact rowWise_columnRef 0

theorem weighted_sumOfRows : Weighted sumOfRows [twoRows 3 none] := by
  refine .inr ⟨fun rs hrs => ?_, by decide⟩
  obtain rfl := List.mem_singleton.mp hrs
  refine ⟨fun ⟨_, hStops⟩ => ?_, by decide, fun _ payload expr hChunk hExpr i hi hDropped => ?_⟩
  · rcases hStops with ⟨e, he⟩ | hOver
    · cases he
    · revert hOver
      decide
  · obtain rfl := Option.some.inj hChunk
    exact absurd hi hDropped

theorem aggregates_agree_sum :
    Agrees FloatOps.whole id [sumOfRows] [twoRows 3 none] ∧
      ∀ s, SameArgument s sumOfRows → Agrees FloatOps.whole id [s] [twoRows 3 none] := by
  have hChild : Sound [twoRows 3 none] := sound_twoRows (by decide) nofun
  obtain ⟨hAll, hOne⟩ := aggregates_agree FloatOps.whole id hChild
  refine ⟨hAll _ (List.cons_ne_nil _ _) rowWise_sumOfRows fun spec hSpec => ?_,
    (hOne sumOfRows rowWise_sumOfRows).mpr weighted_sumOfRows⟩
  obtain rfl := List.mem_singleton.mp hSpec
  exact weighted_sumOfRows

/-- The second row is dropped, and counted; and `COUNT(*)` of twice 2^63 tuples is zero. -/
theorem dropped_row_counted :
    Sound [twoRows 1 (some [true, false])] ∧
      ¬Agrees FloatOps.whole id [countOfRows] [twoRows 1 (some [true, false])] ∧
      Sound [twoRows (2 ^ 63) none] ∧ (twoRows (2 ^ 63) none).tuples.length = 2 ^ 64 ∧
      factorizedAggregate FloatOps.whole id [SimpleAggregateSpec.count] [twoRows (2 ^ 63) none] =
        .ok [flatResult [⟨.scalar (.int .int64), [.int .int64 (some 0)]⟩]] := by
  refine ⟨sound_twoRows (by decide) (by decide), ?_, sound_twoRows (by decide) nofun, ?_, rfl⟩
  · have hGives : factorizedAggregate FloatOps.whole id [countOfRows]
        [twoRows 1 (some [true, false])] =
          .ok [flatResult [⟨.scalar (.int .int64), [.int .int64 (some 2)]⟩]] := rfl
    rintro (⟨out, states, hOut, hShows, hRuns, -⟩ | ⟨⟨e, he⟩, -⟩)
    · obtain rfl := Except.ok.inj (hGives.symm.trans hOut)
      obtain _ | ⟨hFirst, hRest⟩ := hRuns
      cases hRest
      obtain ⟨order, hOrder, hState⟩ : ∃ order : List (Option (Value Int Int)),
          order.Perm [some (.int .int32 (some 1))] ∧ _ = applyUpdates (E := String) _ order _ := hFirst
      obtain rfl := List.perm_singleton.mp hOrder
      obtain rfl := Except.ok.inj hState
      obtain ⟨columns, hColumns, hKnown⟩ := hShows.result
      obtain rfl : [_] = columns := by
        simpa [flatResult, ResultSet.push, DataChunk.new, ResultSet.new] using hColumns
      cases hKnown
    · cases he
  · rw [length_tuples_eq]
    decide

end Examples

end StreamExecutor

end MiniGU
