import MiniGU.Invariant.AggregateRows
import MiniGU.Invariant.ResultTuples
import MiniGU.Invariant.RowWise
import MiniGU.Model.FactorizedAggregate

/-!
# The values that are aggregated

The values that go into the state of an aggregate are those of the physical rows of the payload
chunk, each as often as the other chunks have tuples. The flat aggregation takes the value of each
tuple. In what order the values come is left open, as the sum of floats depends on it.

A result set without chunks is an empty one, and stands for nothing.
-/

namespace MiniGU

namespace StreamExecutor

variable {E F32 F64 : Type}

/-! ## The values of the tuples -/

/-- The result sets that are not skipped. -/
def filled (child : List (ValueResultSet F32 F64)) : List (ValueResultSet F32 F64) :=
  child.filter fun rs => !rs.dataChunks.isEmpty

def known? (v : Value F32 F64) : Bool := !v.isNullValue

/-- What the tuples of a result set bring to an aggregate: nothing but their number for `COUNT(*)`,
their values that are not null for the others. -/
def tupleValues (spec : SimpleAggregateSpec E F32 F64) (rs : ValueResultSet F32 F64) :
    Except (Fault E) (List (Option (Value F32 F64))) :=
  if spec.function = .count then .ok (rs.tuples.map fun _ => none)
  else do
    let payload ← unwrap (rs.getDataChunk spec.expression.chunkPos)
    let expr ← unwrap spec.expression.expression
    let values ← rs.tuples.mapM fun t => evaluateRow expr payload (rowIn t spec.expression.chunkPos)
    .ok ((values.filter known?).map some)

/-- A state after some updates. -/
def applyUpdates (ops : FloatOps F32 F64) (us : List (Option (Value F32 F64)))
    (state : AggregateState F64) : Except (Fault E) (AggregateState F64) :=
  us.foldlM (AggregateState.update ops) state

/-- The state at its start. -/
def newState (ops : FloatOps F32 F64) (spec : SimpleAggregateSpec E F32 F64) : AggregateState F64 :=
  AggregateState.new ops spec.function spec.distinct

/-- A run of the flat aggregation: the values of the tuples, in some order. -/
def FlatRun (ops : FloatOps F32 F64) (child : List (ValueResultSet F32 F64))
    (spec : SimpleAggregateSpec E F32 F64) (result : Except (Fault E) (AggregateState F64)) : Prop :=
  match (filled child).mapM (tupleValues spec) with
  | .error e => result = .error e
  | .ok values => ∃ order : List (Option (Value F32 F64)), order.Perm values.flatten ∧
      result = applyUpdates ops order (newState ops spec)

/-- How often a tuple of the payload chunk comes up, or a tuple at all for `COUNT(*)`. -/
def weight (spec : SimpleAggregateSpec E F32 F64) (rs : ValueResultSet F32 F64) : Nat :=
  if spec.function = .count then rs.tuples.length else rs.numOthers [spec.expression.chunkPos]

/-! ## The values that are taken -/

/-- The rows of a payload chunk that are visited. -/
def visited (c : ValueChunk F32 F64) : List Nat :=
  match c.curIdx with
  | none => List.range c.len
  | some i => [i]

/-- The values of a payload chunk, all rows at once or the row at the cursor alone. -/
def payloadValues (expression : FactorizedExpression E F32 F64) (rs : ValueResultSet F32 F64) :
    Except (Fault E) (List (Value F32 F64)) := do
  let payload ← unwrap (rs.getDataChunk expression.chunkPos)
  let expr ← unwrap expression.expression
  match payload.curIdx with
  | none => do
    let result ← expr payload
    (List.range payload.len).mapM fun i => result.array.index i
  | some i => do
    let v ← evaluateRow expr payload i
    .ok [v]

/-- The updates that a result set brings to a state. -/
def updatesOf (computeError : String → E) (spec : SimpleAggregateSpec E F32 F64)
    (rs : ValueResultSet F32 F64) : Except (Fault E) (List (Option (Value F32 F64))) :=
  if spec.function = .count then do
    let totalFactor ← unwrap (rs.numTuplesU64 rs.allChunks)
    .ok (List.replicate totalFactor none)
  else do
    let values ← payloadValues spec.expression rs
    let factor ← payloadFactor computeError rs spec.expression.chunkPos
    .ok ((values.filter known?).flatMap fun v => List.replicate factor (some v))

/-- All updates of a stream. -/
def allUpdates (computeError : String → E) (spec : SimpleAggregateSpec E F32 F64)
    (child : List (ValueResultSet F32 F64)) : Except (Fault E) (List (Option (Value F32 F64))) := do
  let updates ← (filled child).mapM (updatesOf computeError spec)
  .ok updates.flatten

section Updates

variable {ops : FloatOps F32 F64} {computeError : String → E}
  {spec : SimpleAggregateSpec E F32 F64} {rs : ValueResultSet F32 F64}

theorem unwrap_ok_iff {α : Type} {o : Option α} {a : α} :
    (unwrap o : Except (Fault E) α) = .ok a ↔ o = some a := by
  cases o with
  | none => exact ⟨nofun, nofun⟩
  | some b =>
    show Except.ok b = .ok a ↔ some b = some a
    rw [Except.ok.injEq, Option.some.injEq]

/-- The scalars of a column that are not null, each `factor` times. -/
theorem foldlM_updateScalar (factor : Nat) (vs : List (Value F32 F64)) (state : AggregateState F64) :
    vs.foldlM (updateScalar (E := E) ops factor) state =
      applyUpdates ops ((vs.filter known?).flatMap fun v => List.replicate factor (some v)) state := by
  unfold applyUpdates
  induction vs generalizing state with
  | nil => rfl
  | cons v vs ih =>
    rw [List.foldlM_cons, updateScalar, List.filter_cons, known?]
    cases hNull : v.isNullValue with
    | true => exact ih state
    | false =>
      simp only [Bool.not_false, if_true, Bool.false_eq_true, if_false, List.flatMap_cons,
        List.foldlM_append]
      rw [updateTimes]
      congr 1
      funext s
      exact ih s

/-- A loop whose steps first compute something of the element. -/
theorem foldlM_ok_iff_mapM {α β σ ε : Type} {g : α → Except ε β} {f : σ → β → Except ε σ}
    {k : σ → α → Except ε σ} {l : List α}
    (hk : ∀ a ∈ l, ∀ s s', k s a = .ok s' ↔ ∃ b, g a = .ok b ∧ f s b = .ok s') {s s' : σ} :
    l.foldlM k s = .ok s' ↔ ∃ bs, l.mapM g = .ok bs ∧ bs.foldlM f s = .ok s' := by
  induction l generalizing s with
  | nil =>
    constructor
    · exact fun h => ⟨[], rfl, h⟩
    · rintro ⟨bs, hBs, h⟩
      obtain rfl := Except.ok.inj hBs
      exact h
  | cons a l ih =>
    have ihTail := @ih fun b hb => hk b (List.mem_cons_of_mem a hb)
    rw [List.foldlM_cons, List.mapM_cons, bind_ok_iff]
    constructor
    · rintro ⟨s₁, hHead, hTail⟩
      obtain ⟨b, hb, hStep⟩ := (hk a List.mem_cons_self s s₁).mp hHead
      obtain ⟨bs, hBs, hRest⟩ := ihTail.mp hTail
      refine ⟨b :: bs, ?_, ?_⟩
      · rw [hb, ok_bind, hBs]
        rfl
      · rw [List.foldlM_cons, hStep, ok_bind, hRest]
    · rintro ⟨bs, hBs, hRun⟩
      obtain ⟨b, hb, hBs⟩ := bind_ok_iff.mp hBs
      obtain ⟨bs', hBs', hEq⟩ := bind_ok_iff.mp hBs
      obtain rfl := Except.ok.inj hEq
      rw [List.foldlM_cons] at hRun
      obtain ⟨s₁, hStep, hRest⟩ := bind_ok_iff.mp hRun
      exact ⟨s₁, (hk a List.mem_cons_self s s₁).mpr ⟨b, hb, hStep⟩, ihTail.mpr ⟨bs', hBs', hRest⟩⟩

theorem evaluate_slice {expr : Evaluator E ArrayType (Value F32 F64)} (hExpr : RowWise expr)
    {c : ValueChunk F32 F64} {i : Nat} (hi : i < c.len) :
    (do let singleRowChunk ← slice c i 1
        let result ← expr singleRowChunk
        result.array.index 0) = evaluateRow expr c i := by
  have hColumns : (c.columns.map fun a => { a with values := (a.values.drop i).take 1 }) =
      c.takeRows [i] := by
    unfold DataChunk.takeRows
    refine List.map_congr_left fun a _ => ?_
    congr 1
    rw [List.filterMap_cons, List.filterMap_nil]
    by_cases hBound : i < a.values.length
    · rw [List.drop_eq_getElem_cons hBound, List.getElem?_eq_getElem hBound]
      rfl
    · rw [List.drop_eq_nil_of_le (Nat.le_of_not_lt hBound),
        List.getElem?_eq_none (Nat.le_of_not_lt hBound)]
      rfl
  have hBound : i + 1 ≤ c.len := hi
  unfold slice evaluateRow
  rw [if_pos hBound, ok_bind]
  exact congrArg (fun x => x >>= fun result : DatumRef ArrayType (Value F32 F64) =>
    result.array.index 0) (hExpr.columns _ _ hColumns)

/-- One aggregate over one result set: the known values of its payload, each as often as the factor.
-/
theorem processAggregate_ok_iff (hrs : rs.WellFormed)
    (hExpr : ∀ expr, spec.expression.expression = some expr → RowWise expr)
    {state state' : AggregateState F64} :
    processAggregate ops computeError state rs spec.expression = .ok state' ↔
      ∃ us, (do
        let values ← payloadValues spec.expression rs
        let factor ← payloadFactor computeError rs spec.expression.chunkPos
        .ok ((values.filter known?).flatMap fun v => List.replicate factor (some v))) = .ok us ∧
        applyUpdates (E := E) ops us state = .ok state' := by
  unfold processAggregate payloadValues
  simp only [bind_ok_iff, unwrap_ok_iff, Except.ok.injEq]
  constructor
  · rintro ⟨payload, hPayload, factor, hFactor, expr, hSome, hRun⟩
    cases hIdx : payload.curIdx with
    | none =>
      rw [hIdx] at hRun
      obtain ⟨result, hResult, hRun⟩ := bind_ok_iff.mp hRun
      obtain ⟨values, hValues, hRun⟩ := (foldlM_ok_iff_mapM fun _ _ _ _ => bind_ok_iff).mp hRun
      rw [foldlM_updateScalar] at hRun
      refine ⟨_, ⟨values, ⟨payload, hPayload, expr, hSome, ?_⟩, factor, hFactor, rfl⟩, hRun⟩
      rw [hIdx]
      exact bind_ok_iff.mpr ⟨result, hResult, hValues⟩
    | some i =>
      rw [hIdx] at hRun
      have hBound := (hrs payload (List.mem_of_getElem? hPayload)).curIdx i hIdx
      have hSlice := evaluate_slice (hExpr expr hSome) hBound
      obtain ⟨single, hSingle, result, hResult, v, hv, hRun⟩ : ∃ single, slice payload i 1 = .ok single ∧
          ∃ result, expr single = .ok result ∧ ∃ v, result.array.index 0 = .ok v ∧
            updateScalar ops factor state v = .ok state' := by
        simpa only [bind_ok_iff] using hRun
      rw [hSingle, ok_bind, hResult, ok_bind, hv] at hSlice
      have hSingleton : [v].foldlM (updateScalar (E := E) ops factor) state = _ :=
        foldlM_updateScalar factor [v] state
      rw [List.foldlM_cons, hRun] at hSingleton
      refine ⟨_, ⟨[v], ⟨payload, hPayload, expr, hSome, ?_⟩, factor, hFactor, rfl⟩,
        hSingleton.symm⟩
      rw [hIdx]
      exact bind_ok_iff.mpr ⟨v, hSlice.symm, rfl⟩
  · rintro ⟨us, ⟨values, ⟨payload, hPayload, expr, hSome, hValues⟩, factor, hFactor, rfl⟩, hRun⟩
    refine ⟨payload, hPayload, factor, hFactor, expr, hSome, ?_⟩
    rw [← foldlM_updateScalar] at hRun
    cases hIdx : payload.curIdx with
    | none =>
      rw [hIdx] at hValues
      obtain ⟨result, hResult, hValues⟩ := bind_ok_iff.mp hValues
      exact bind_ok_iff.mpr ⟨result, hResult,
        (foldlM_ok_iff_mapM fun _ _ _ _ => bind_ok_iff).mpr ⟨values, hValues, hRun⟩⟩
    | some i =>
      rw [hIdx] at hValues
      obtain ⟨v, hv, hValues⟩ := bind_ok_iff.mp hValues
      obtain rfl := Except.ok.inj hValues
      have hBound := (hrs payload (List.mem_of_getElem? hPayload)).curIdx i hIdx
      have hSlice := (evaluate_slice (hExpr expr hSome) hBound).trans hv
      obtain ⟨single, hSingle, result, hResult, hIndex⟩ : ∃ single, slice payload i 1 = .ok single ∧
          ∃ result, expr single = .ok result ∧ result.array.index (E := E) 0 = .ok v := by
        simpa only [bind_ok_iff] using hSlice
      rw [List.foldlM_cons] at hRun
      obtain ⟨s, hs, hEnd⟩ := bind_ok_iff.mp hRun
      obtain rfl := Except.ok.inj hEnd
      exact bind_ok_iff.mpr ⟨single, hSingle, bind_ok_iff.mpr ⟨result, hResult,
        bind_ok_iff.mpr ⟨v, hIndex, hs⟩⟩⟩

theorem processSpec_ok_iff (hrs : rs.WellFormed)
    (hExpr : ∀ expr, spec.expression.expression = some expr → RowWise expr)
    {state state' : AggregateState F64} :
    processSpec ops computeError rs spec state = .ok state' ↔
      ∃ us, updatesOf computeError spec rs = .ok us ∧
        applyUpdates (E := E) ops us state = .ok state' := by
  unfold processSpec updatesOf
  by_cases hCount : spec.function = .count
  · rw [hCount, if_pos rfl]
    simp only [bind_ok_iff, Except.ok.injEq]
    constructor
    · rintro ⟨n, hn, hRun⟩
      exact ⟨_, ⟨n, hn, rfl⟩, hRun⟩
    · rintro ⟨us, ⟨n, hn, rfl⟩, hRun⟩
      exact ⟨n, hn, hRun⟩
  · have hProcess : processSpec ops computeError rs spec state =
        processAggregate ops computeError state rs spec.expression := by
      unfold processSpec
      cases hFunction : spec.function with
      | count => exact absurd hFunction hCount
      | _ => rfl
    unfold processSpec at hProcess
    rw [if_neg hCount, hProcess]
    exact processAggregate_ok_iff hrs hExpr

theorem foldlM_applyUpdates (uss : List (List (Option (Value F32 F64)))) (state : AggregateState F64) :
    uss.foldlM (fun state us => applyUpdates (E := E) ops us state) state =
      applyUpdates ops uss.flatten state := by
  unfold applyUpdates
  induction uss generalizing state with
  | nil => rfl
  | cons us uss ih =>
    rw [List.foldlM_cons, List.flatten_cons, List.foldlM_append]
    congr 1
    funext s
    exact ih s

end Updates

/-! ## The run -/

section Run

variable {ops : FloatOps F32 F64} {computeError : String → E}
  {specs : List (SimpleAggregateSpec E F32 F64)} {child : List (ValueResultSet F32 F64)}

/-- The state that an aggregate comes to. -/
def runSpec (ops : FloatOps F32 F64) (computeError : String → E)
    (child : List (ValueResultSet F32 F64)) (spec : SimpleAggregateSpec E F32 F64) :
    Except (Fault E) (AggregateState F64) := do
  let us ← allUpdates computeError spec child
  applyUpdates ops us (newState ops spec)

/-- What the theorems ask of the child: the chunks are well formed, and the factor is a `u64`. -/
def Sound (child : List (ValueResultSet F32 F64)) : Prop :=
  ∀ rs ∈ child, rs.WellFormed ∧ rs.factor < 2 ^ 64

/-- The expressions of the aggregates are evaluated row by row. -/
def RowWiseSpecs (specs : List (SimpleAggregateSpec E F32 F64)) : Prop :=
  ∀ spec ∈ specs, ∀ expr, spec.expression.expression = some expr → RowWise expr

theorem processChild_eq (hasData : Bool) (states : List (AggregateState F64))
    (child : List (ValueResultSet F32 F64)) :
    processChild ops computeError specs hasData states child =
      (do let states' ← (filled child).foldlM
            (fun states rs => processSpecs ops computeError rs specs states) states
          .ok (hasData || !(filled child).isEmpty, states')) := by
  induction child generalizing hasData states with
  | nil => simp [processChild, filled, ok_bind, pure, Except.pure]
  | cons rs child ih =>
    unfold processChild filled
    rw [List.filter_cons]
    cases hEmpty : rs.dataChunks.isEmpty with
    | true => exact ih hasData states
    | false =>
      simp only [Bool.false_eq_true, if_false, Bool.not_false, if_true, List.foldlM_cons,
        List.isEmpty_cons, Bool.or_true]
      cases processSpecs ops computeError rs specs states with
      | error e => rfl
      | ok states₁ =>
        rw [ok_bind, ok_bind, ih]
        simp [filled]

theorem processSpecs_eq (rs : ValueResultSet F32 F64)
    (ps : List (SimpleAggregateSpec E F32 F64 × AggregateState F64)) :
    processSpecs ops computeError rs (ps.map Prod.fst) (ps.map Prod.snd) =
      ps.mapM fun p => processSpec ops computeError rs p.1 p.2 := by
  induction ps with
  | nil => rfl
  | cons p ps ih =>
    rw [List.map_cons, List.map_cons, processSpecs, ih, List.mapM_cons]
    rfl

/-- One step of an aggregate, with the aggregate. -/
def stepPair (ops : FloatOps F32 F64) (computeError : String → E) (rs : ValueResultSet F32 F64)
    (p : SimpleAggregateSpec E F32 F64 × AggregateState F64) :
    Except (Fault E) (SimpleAggregateSpec E F32 F64 × AggregateState F64) := do
  let state' ← processSpec ops computeError rs p.1 p.2
  .ok (p.1, state')

theorem mapM_stepPair_ok {rs : ValueResultSet F32 F64}
    {ps ps' : List (SimpleAggregateSpec E F32 F64 × AggregateState F64)} :
    ps.mapM (stepPair ops computeError rs) = .ok ps' ↔
      ps'.map Prod.fst = ps.map Prod.fst ∧
        ps.mapM (fun p => processSpec ops computeError rs p.1 p.2) = .ok (ps'.map Prod.snd) := by
  rw [mapM_ok_iff, mapM_ok_iff]
  induction ps generalizing ps' with
  | nil => cases ps' <;> simp
  | cons p ps ih =>
    cases ps' with
    | nil => simp
    | cons p' ps' =>
      have hHead : stepPair ops computeError rs p = .ok p' ↔
          p'.1 = p.1 ∧ processSpec ops computeError rs p.1 p.2 = .ok p'.2 := by
        unfold stepPair
        rw [bind_ok_iff]
        constructor
        · rintro ⟨s, hs, hEq⟩
          obtain rfl := Except.ok.inj hEq
          exact ⟨rfl, hs⟩
        · rintro ⟨hFst, hs⟩
          exact ⟨p'.2, hs, by rw [← hFst]⟩
      simp only [List.map_cons, List.cons.injEq, hHead, ih]
      tauto

/-- The loop over the result sets treats each specification by itself. -/
theorem foldlM_processSpecs {l : List (ValueResultSet F32 F64)}
    {ps : List (SimpleAggregateSpec E F32 F64 × AggregateState F64)}
    {states' : List (AggregateState F64)} :
    l.foldlM (fun states rs => processSpecs ops computeError rs (ps.map Prod.fst) states)
        (ps.map Prod.snd) = .ok states' ↔
      (ps.map fun p => l.foldlM (fun s rs => processSpec ops computeError rs p.1 s) p.2) =
        states'.map .ok := by
  have hSingle : ∀ p : SimpleAggregateSpec E F32 F64 × AggregateState F64,
      l.foldlM (fun p rs => stepPair ops computeError rs p) p =
        (do let s ← l.foldlM (fun s rs => processSpec ops computeError rs p.1 s) p.2
            .ok (p.1, s)) := by
    intro p
    induction l generalizing p with
    | nil => rfl
    | cons rs l ih =>
      rw [List.foldlM_cons, List.foldlM_cons, stepPair]
      cases processSpec ops computeError rs p.1 p.2 with
      | error e => rfl
      | ok s => exact ih (p.1, s)
  have hPairs : l.foldlM
      (fun states rs => processSpecs ops computeError rs (ps.map Prod.fst) states)
      (ps.map Prod.snd) = .ok states' ↔ ∃ ps', l.foldlM (fun ps rs => ps.mapM (stepPair ops computeError rs)) ps = .ok ps' ∧
        ps'.map Prod.fst = ps.map Prod.fst ∧ ps'.map Prod.snd = states' := by
    clear hSingle
    induction l generalizing ps with
    | nil =>
      constructor
      · intro h
        exact ⟨ps, rfl, rfl, Except.ok.inj h⟩
      · rintro ⟨ps', h, -, rfl⟩
        obtain rfl := Except.ok.inj h
        rfl
    | cons rs l ih =>
      rw [List.foldlM_cons, List.foldlM_cons, processSpecs_eq, bind_ok_iff]
      simp only [bind_ok_iff, mapM_stepPair_ok]
      constructor
      · rintro ⟨states₁, hStep, hRest⟩
        have hLength := congrArg List.length (mapM_ok_iff.mp hStep)
        rw [List.length_map, List.length_map] at hLength
        obtain ⟨ps₁, hFst, rfl⟩ : ∃ ps₁ : List (SimpleAggregateSpec E F32 F64 × AggregateState F64),
            ps₁.map Prod.fst = ps.map Prod.fst ∧ ps₁.map Prod.snd = states₁ :=
          ⟨(ps.map Prod.fst).zip states₁, List.map_fst_zip (by rw [List.length_map, hLength]),
            List.map_snd_zip (by rw [List.length_map, hLength])⟩
        rw [← hFst] at hRest
        obtain ⟨ps', hRun, hFst', hSnd'⟩ := ih.mp hRest
        exact ⟨ps', ⟨_, ⟨hFst, hStep⟩, hRun⟩, hFst'.trans hFst, hSnd'⟩
      · rintro ⟨ps', ⟨ps₁, ⟨hFst, hStep⟩, hRun⟩, hFst', hSnd'⟩
        refine ⟨_, hStep, ?_⟩
        rw [← hFst]
        exact ih.mpr ⟨ps', hRun, hFst'.trans hFst.symm, hSnd'⟩
  rw [hPairs]
  simp only [foldlM_mapM_ok, hSingle]
  constructor
  · rintro ⟨ps', hRun, hFst, rfl⟩
    clear hFst hPairs hSingle
    induction ps generalizing ps' with
    | nil =>
      obtain rfl := List.map_eq_nil_iff.mp hRun.symm
      rfl
    | cons p ps ih =>
      match ps', hRun with
      | p' :: ps', hRun =>
        obtain ⟨hHead, hTail⟩ := List.cons.inj hRun
        obtain ⟨s, hs, hEq⟩ := bind_ok_iff.mp hHead
        obtain rfl := Except.ok.inj hEq
        rw [List.map_cons, List.map_cons, List.map_cons, hs, ih ps' hTail]
  · intro h
    have hLength := congrArg List.length h
    rw [List.length_map, List.length_map] at hLength
    refine ⟨(ps.map Prod.fst).zip states', ?_, List.map_fst_zip (by rw [List.length_map, hLength]),
      List.map_snd_zip (by rw [List.length_map, hLength])⟩
    clear hLength hPairs hSingle
    induction ps generalizing states' with
    | nil => rfl
    | cons p ps ih =>
      match states', h with
      | s :: states', h =>
        obtain ⟨hHead, hTail⟩ := List.cons.inj h
        have hState : l.foldlM (fun s rs => processSpec ops computeError rs p.1 s) p.2 = .ok s := hHead
        rw [List.map_cons, List.map_cons, List.zip_cons_cons, List.map_cons, ih hTail, hState]
        rfl

theorem foldlM_processSpec_ok_iff {spec : SimpleAggregateSpec E F32 F64} (hChild : Sound child)
    (hExpr : ∀ expr, spec.expression.expression = some expr → RowWise expr)
    {state' : AggregateState F64} :
    (filled child).foldlM (fun s rs => processSpec ops computeError rs spec s) (newState ops spec) =
      .ok state' ↔ runSpec ops computeError child spec = .ok state' := by
  have hSteps : ∀ rs ∈ filled child, ∀ s s', processSpec ops computeError rs spec s = .ok s' ↔
      ∃ us, updatesOf computeError spec rs = .ok us ∧ applyUpdates (E := E) ops us s = .ok s' :=
    fun rs hrs s s' => processSpec_ok_iff (hChild rs (List.mem_filter.mp hrs).1).1 hExpr
  rw [foldlM_ok_iff_mapM hSteps]
  simp only [foldlM_applyUpdates]
  unfold runSpec allUpdates
  simp only [bind_ok_iff, Except.ok.injEq]
  constructor
  · rintro ⟨uss, hUss, hRun⟩
    exact ⟨_, ⟨uss, hUss, rfl⟩, hRun⟩
  · rintro ⟨us, ⟨uss, hUss, rfl⟩, hRun⟩
    exact ⟨uss, hUss, hRun⟩

/-- The column that stands for a state. -/
def resultColumn (ops : FloatOps F32 F64) (child : List (ValueResultSet F32 F64))
    (spec : SimpleAggregateSpec E F32 F64) (state : AggregateState F64) : ValueArray F32 F64 :=
  if (filled child).isEmpty then spec.function.defaultColumn
  else (state.finalize ops).toScalarArray

/-- The aggregation gives one result set, with the states that the aggregates come to. -/
theorem factorizedAggregate_ok_iff (hSpecs : specs ≠ []) (hChild : Sound child)
    (hExprs : RowWiseSpecs specs) {out : List (ValueResultSet F32 F64)} :
    factorizedAggregate ops computeError specs child = .ok out ↔
      ∃ states, specs.map (runSpec ops computeError child) = states.map .ok ∧
        out = [flatResult (List.zipWith (resultColumn ops child) specs states)] := by
  let ps := specs.map fun spec => (spec, newState ops spec)
  have hFst : ps.map Prod.fst = specs := by
    rw [List.map_map]
    exact List.map_id _
  have hSnd : ps.map Prod.snd =
      specs.map fun spec => AggregateState.new ops spec.function spec.distinct := by
    rw [List.map_map]
    rfl
  have hStates : ∀ states : List (AggregateState F64),
      (filled child).foldlM (fun states rs => processSpecs ops computeError rs specs states)
        (specs.map fun spec => AggregateState.new ops spec.function spec.distinct) = .ok states ↔
      specs.map (runSpec ops computeError child) = states.map .ok := by
    intro states
    have hRuns : (filled child).foldlM
        (fun states rs => processSpecs ops computeError rs (ps.map Prod.fst) states)
        (ps.map Prod.snd) = .ok states ↔ (ps.map fun p => (filled child).foldlM
          (fun s rs => processSpec ops computeError rs p.1 s) p.2) = states.map .ok :=
      foldlM_processSpecs
    rw [hFst, hSnd] at hRuns
    rw [hRuns, List.map_map]
    exact map_ok_congr fun spec hSpec _ => foldlM_processSpec_ok_iff hChild (hExprs spec hSpec)
  have hColumns : ∀ states : List (AggregateState F64), specs.length = states.length →
      List.zipWith (resultColumn ops child) specs states =
        if (filled child).isEmpty then specs.map fun spec => spec.function.defaultColumn
        else states.map fun state => (state.finalize ops).toScalarArray := by
    intro states hLength
    unfold resultColumn
    cases (filled child).isEmpty with
    | true => exact List.ext_getElem (by simp [hLength]) (by simp)
    | false => exact List.ext_getElem (by simp [hLength]) (by simp)
  unfold factorizedAggregate
  rw [bind_ok_iff, processChild_eq]
  simp only [bind_ok_iff, Bool.false_or, if_neg hSpecs]
  constructor
  · rintro ⟨⟨hasData, states⟩, ⟨states', hRun, hEq⟩, hOut⟩
    obtain ⟨rfl, rfl⟩ := Prod.mk.inj (Except.ok.inj hEq)
    have hAll := (hStates states').mp hRun
    have hLength := congrArg List.length hAll
    rw [List.length_map, List.length_map] at hLength
    refine ⟨states', hAll, ?_⟩
    rw [hColumns states' hLength]
    cases hEmpty : (filled child).isEmpty with
    | true =>
      rw [hEmpty] at hOut
      exact (Except.ok.inj hOut).symm
    | false =>
      rw [hEmpty] at hOut
      exact (Except.ok.inj hOut).symm
  · rintro ⟨states, hAll, rfl⟩
    have hLength := congrArg List.length hAll
    rw [List.length_map, List.length_map] at hLength
    refine ⟨(!(filled child).isEmpty, states), ⟨states, (hStates states).mpr hAll, rfl⟩, ?_⟩
    rw [hColumns states hLength]
    cases (filled child).isEmpty <;> rfl

/-- A result of one row. -/
structure Shows (out : List (ValueResultSet F32 F64)) (values : List (Option (Value F32 F64))) :
    Prop where
  result : ∃ columns : List (ValueArray F32 F64), out = [flatResult columns] ∧
    columns.map (fun a => a.values.map Value.known) = values.map fun v => [v]

theorem shows_states {states : List (AggregateState F64)}
    (h : specs.map (runSpec ops computeError child) = states.map .ok) :
    Shows [flatResult (List.zipWith (resultColumn ops child) specs states)]
      (states.map fun state => (state.finalize ops).known) := by
  refine ⟨_, rfl, ?_⟩
  induction specs generalizing states with
  | nil =>
    obtain rfl := List.map_eq_nil_iff.mp h.symm
    rfl
  | cons spec specs ih =>
    match states, h with
    | state :: states, h =>
      obtain ⟨hHead, hTail⟩ := List.cons.inj h
      rw [List.zipWith_cons_cons, List.map_cons, List.map_cons, List.map_cons, ih hTail]
      congr 1
      unfold resultColumn
      cases hEmpty : (filled child).isEmpty with
      | true =>
        -- without input the state is the first one
        obtain rfl : newState ops spec = state := by
          unfold runSpec allUpdates at hHead
          rw [List.isEmpty_iff.mp hEmpty] at hHead
          exact Except.ok.inj hHead
        exact known_defaultColumn ops spec.function spec.distinct
      | false => rfl

end Run

/-! ## Physical rows and tuples -/

section Rows

variable {ops : FloatOps F32 F64} {computeError : String → E}
  {spec : SimpleAggregateSpec E F32 F64} {rs : ValueResultSet F32 F64}

/-- What the payload chunk of an aggregate holds: its values at the visited rows are `g`. -/
structure Payload (expression : FactorizedExpression E F32 F64) (rs : ValueResultSet F32 F64)
    (payload : ValueChunk F32 F64) (expr : Evaluator E ArrayType (Value F32 F64))
    (g : Nat → Value F32 F64) : Prop where
  chunk : rs.getDataChunk expression.chunkPos = some payload
  evaluator : expression.expression = some expr
  values : ∀ i ∈ visited payload, evaluateRow expr payload i = .ok (g i)

/-- The values are those of a row-wise payload, read at the rows that are visited. -/
theorem payloadValues_ok {expression : FactorizedExpression E F32 F64} (hrs : rs.WellFormed)
    (hExpr : ∀ expr, expression.expression = some expr → RowWise expr)
    {vs : List (Value F32 F64)} (h : payloadValues expression rs = .ok vs) :
    ∃ payload expr g, Payload expression rs payload expr g ∧ vs = (visited payload).map g := by
  unfold payloadValues at h
  obtain ⟨payload, hPayload, h⟩ := bind_ok_iff.mp h
  obtain ⟨expr, hSome, h⟩ := bind_ok_iff.mp h
  rw [unwrap_ok_iff] at hPayload hSome
  have hWf := hrs payload (List.mem_of_getElem? hPayload)
  -- the value at a row, where it has one
  let g : Nat → Value F32 F64 := fun i =>
    match evaluateRow expr payload i with
    | .ok v => v
    | .error _ => .scalar .null
  have hg : ∀ {i v}, evaluateRow expr payload i = .ok v → g i = v := by
    intro i v hv
    show (match evaluateRow expr payload i with | .ok v => v | .error _ => .scalar .null) = v
    rw [hv]
  cases hIdx : payload.curIdx with
  | none =>
    rw [hIdx] at h
    obtain ⟨result, hResult, h⟩ := bind_ok_iff.mp h
    rw [mapM_ok_iff] at h
    have hRows : ∀ i < payload.len, evaluateRow expr payload i = .ok (g i) := by
      intro i hi
      obtain ⟨v, hv⟩ := ok_of_map_ok h i (List.mem_range.mpr hi)
      have hRow := (hExpr expr hSome).rows payload result i v hWf hResult hi hv
      rw [hg hRow, hRow]
    have hVisited : visited payload = List.range payload.len := by rw [visited, hIdx]
    refine ⟨payload, expr, g, ⟨hPayload, hSome, fun i hi => ?_⟩, ?_⟩
    · rw [hVisited] at hi
      exact hRows i (List.mem_range.mp hi)
    · rw [hVisited]
      have hAll : (List.range payload.len).map (fun i => result.array.index (E := E) i) =
          ((List.range payload.len).map g).map .ok := by
        rw [List.map_map]
        refine List.map_congr_left fun i hi => ?_
        obtain ⟨v, hv⟩ := ok_of_map_ok h i hi
        rw [hv]
        have hRow := (hExpr expr hSome).rows payload result i v hWf hResult (List.mem_range.mp hi) hv
        exact congrArg Except.ok (hg hRow).symm
      exact List.map_injective_iff.mpr (fun _ _ h => Except.ok.inj h) (h.symm.trans hAll)
  | some i =>
    rw [hIdx] at h
    obtain ⟨v, hv, h⟩ := bind_ok_iff.mp h
    obtain rfl := Except.ok.inj h
    have hVisited : visited payload = [i] := by rw [visited, hIdx]
    refine ⟨payload, expr, g, ⟨hPayload, hSome, fun j hj => ?_⟩, ?_⟩
    · rw [hVisited] at hj
      obtain rfl := List.mem_singleton.mp hj
      rw [hg hv, hv]
    · rw [hVisited, List.map_singleton, hg hv]

theorem places_sublist_visited (c : ValueChunk F32 F64) : c.places.Sublist (visited c) := by
  unfold DataChunk.places visited
  cases c.curIdx with
  | some i => exact List.Sublist.refl _
  | none =>
    show c.keptRows.Sublist (List.range c.len)
    unfold DataChunk.keptRows
    cases c.filter with
    | none => exact List.Sublist.refl _
    | some f => exact List.filter_sublist

theorem visited_filter (c : ValueChunk F32 F64) :
    (visited c).filter (fun i => i ∈ c.places) = c.places := by
  unfold visited DataChunk.places
  cases c.curIdx with
  | some i => simp
  | none =>
    show (List.range c.len).filter (fun i => decide (i ∈ c.keptRows)) = c.keptRows
    unfold DataChunk.keptRows
    cases c.filter with
    | none => simp
    | some f =>
      refine List.filter_congr fun i hi => ?_
      simp only [List.mem_filter, hi, true_and, Bool.decide_eq_true]

/-- The values of the tuples are those at the rows that the chunk stands for, each with its weight. -/
theorem tupleValues_perm {payload : ValueChunk F32 F64}
    {expr : Evaluator E ArrayType (Value F32 F64)} {g : Nat → Value F32 F64}
    (hCount : spec.function ≠ .count) (hPayload : Payload spec.expression rs payload expr g) :
    ∃ values, tupleValues spec rs = .ok values ∧
      values.Perm (((payload.places.map g).filter known?).flatMap fun v =>
        List.replicate (weight spec rs) (some v)) := by
  let pos := spec.expression.chunkPos
  have hRow : ∀ t ∈ rs.tuples, evaluateRow expr payload (rowIn t pos) = .ok (g (rowIn t pos)) :=
    fun t ht => hPayload.values _ ((places_sublist_visited payload).subset
      (rowIn_mem ht hPayload.chunk))
  refine ⟨((rs.tuples.map fun t => g (rowIn t pos)).filter known?).map some, ?_, ?_⟩
  · unfold tupleValues
    rw [if_neg hCount, hPayload.chunk, hPayload.evaluator]
    have hMap := mapM_eq_ok hRow
    show (rs.tuples.mapM fun t => evaluateRow expr payload (rowIn t pos)) >>= _ = _
    rw [hMap, ok_bind]
  · have hBound : ∀ c ∈ [pos], c < rs.dataChunks.length := by
      intro c hc
      rw [List.mem_singleton.mp hc]
      exact (List.getElem?_eq_some_iff.mp hPayload.chunk).1
    have hPlaces : (rs.dataChunks.map DataChunk.places).getD pos [] = payload.places := by
      rw [List.getD_eq_getElem?_getD, List.getElem?_map,
        show rs.dataChunks[pos]? = some payload from hPayload.chunk]
      rfl
    have hPerm := (perm_tuples_of_chunks (List.nodup_singleton pos) hBound).map fun p => g (p.headD 0)
    rw [List.map_map, List.map_singleton, hPlaces, List.map_flatMap] at hPerm
    have hSingles : picks [payload.places] = payload.places.map fun i => [i] := by
      simp [picks, List.map_eq_flatMap]
    rw [hSingles, List.flatMap_map] at hPerm
    simp only [List.map_replicate, List.headD_cons] at hPerm
    have hWeight : weight spec rs = rs.numOthers [pos] := if_neg hCount
    rw [hWeight]
    refine ((hPerm.filter known?).map some).trans (List.Perm.of_eq ?_)
    generalize payload.places = l
    generalize rs.numOthers [pos] = k
    induction l with
    | nil => rfl
    | cons i l ih =>
      rw [List.flatMap_cons, List.filter_append, List.map_append, ih, List.map_cons,
        List.filter_cons]
      cases hKnown : known? (g i) with
      | true => simp [hKnown]
      | false => simp [hKnown]

/-- The factor of a payload chunk, which wraps around before it is checked. -/
theorem payloadFactor_eq (hrs : rs.WellFormed) (hFactor : rs.factor < 2 ^ 64) (pos : Nat) :
    payloadFactor computeError rs pos =
      let numTuples := ((rs.allChunks.filter fun i => i ∉ [pos]).map rs.placeCount).prod % 2 ^ 64
      if numTuples * rs.factor < 2 ^ 64 then .ok (numTuples * rs.factor)
      else .error (.error (computeError "Factor multiplication overflow during aggregation")) := by
  have hScope : (rs.allChunks.filter fun i => i != pos) = rs.allChunks.filter fun i => i ∉ [pos] :=
    List.filter_congr fun i _ => by simp [bne, Bool.beq_eq_decide_eq]
  unfold payloadFactor
  rw [hScope]
  by_cases hNone : (rs.allChunks.filter fun i => i ∉ [pos]) = []
  · have hOne : 1 % 2 ^ 64 * rs.factor = rs.factor := Nat.one_mul _
    simp only [hNone, if_true, List.map_nil, List.prod_nil, hOne, if_pos hFactor]
  · simp only [if_neg hNone, numTuplesWithoutFactorU64_eq hrs hNone]
    rfl

theorem payloadFactor_of_lt (hrs : rs.WellFormed) (hFactor : rs.factor < 2 ^ 64)
    (hCount : spec.function ≠ .count) (hWeight : weight spec rs < 2 ^ 64) :
    payloadFactor computeError rs spec.expression.chunkPos = .ok (weight spec rs) := by
  have hEq : weight spec rs = rs.numOthers [spec.expression.chunkPos] := if_neg hCount
  rw [hEq, ResultSet.numOthers] at hWeight ⊢
  rw [payloadFactor_eq hrs hFactor]
  generalize ((rs.allChunks.filter fun i => i ∉ [spec.expression.chunkPos]).map
    rs.placeCount).prod = n at hWeight
  rcases Nat.eq_zero_or_pos rs.factor with hZero | hPos
  · simp [hZero]
  · have hn : n < 2 ^ 64 := Nat.lt_of_le_of_lt (Nat.le_mul_of_pos_left n hPos) hWeight
    simp only [Nat.mod_eq_of_lt hn, Nat.mul_comm n]
    rw [if_pos hWeight]

/-- The aggregation stops at a result set: a value of the payload chunk cannot be read, or the
multiplication that is checked overflows. -/
def Stops (spec : SimpleAggregateSpec E F32 F64) (rs : ValueResultSet F32 F64) : Prop :=
  spec.function ≠ .count ∧ ((∃ e, payloadValues spec.expression rs = .error e) ∨
    2 ^ 64 ≤ ((rs.allChunks.filter fun i => i ∉ [spec.expression.chunkPos]).map
      rs.placeCount).prod % 2 ^ 64 * rs.factor)

/-- No visited row that no tuple takes has a value that counts. -/
def Undropped (spec : SimpleAggregateSpec E F32 F64) (rs : ValueResultSet F32 F64) : Prop :=
  spec.function ≠ .count → ∀ payload expr, rs.getDataChunk spec.expression.chunkPos = some payload →
    spec.expression.expression = some expr → ∀ i ∈ visited payload, i ∉ payload.places →
      ∀ v, evaluateRow expr payload i = .ok v → v.isNullValue = true ∨ weight spec rs = 0

theorem updatesOf_count (hrs : rs.WellFormed) (hNe : rs.dataChunks ≠ [])
    (hCount : spec.function = .count) :
    updatesOf computeError spec rs = .ok (List.replicate (rs.tuples.length % 2 ^ 64) none) := by
  unfold updatesOf
  rw [if_pos hCount, numTuplesU64_all hrs hNe]
  rfl

theorem stops_iff (computeError : String → E) (hrs : rs.WellFormed) (hFactor : rs.factor < 2 ^ 64)
    (hNe : rs.dataChunks ≠ []) :
    Stops spec rs ↔ ∃ e, updatesOf computeError spec rs = .error e := by
  by_cases hCount : spec.function = .count
  · rw [updatesOf_count hrs hNe hCount]
    exact ⟨fun h => absurd hCount h.1, nofun⟩
  · unfold Stops updatesOf
    rw [if_neg hCount, payloadFactor_eq hrs hFactor]
    cases payloadValues spec.expression rs with
    | error e => exact ⟨fun _ => ⟨e, rfl⟩, fun _ => ⟨hCount, .inl ⟨e, rfl⟩⟩⟩
    | ok values =>
      rw [ok_bind]
      by_cases hLt : ((rs.allChunks.filter fun i => i ∉ [spec.expression.chunkPos]).map
          rs.placeCount).prod % 2 ^ 64 * rs.factor < 2 ^ 64
      · simp only [if_pos hLt, ok_bind]
        exact ⟨fun h => h.2.elim nofun fun hLe => absurd hLt (Nat.not_lt.mpr hLe), nofun⟩
      · simp only [if_neg hLt]
        exact ⟨fun _ => ⟨_, rfl⟩, fun _ => ⟨hCount, .inr (Nat.le_of_not_lt hLt)⟩⟩

/-- The updates of a result set are the values of its tuples, and those at dropped rows. -/
theorem updates_of_tuples (hrs : rs.WellFormed) (hFactor : rs.factor < 2 ^ 64)
    (hNe : rs.dataChunks ≠ [])
    (hExpr : ∀ expr, spec.expression.expression = some expr → RowWise expr)
    (hRuns : ¬Stops spec rs) (hWeight : weight spec rs < 2 ^ 64) :
    ∃ us values, updatesOf computeError spec rs = .ok us ∧ tupleValues spec rs = .ok values ∧
      values.length ≤ us.length ∧ (values.length = us.length → Undropped spec rs) ∧
      (Undropped spec rs → us.Perm values) := by
  -- COUNT(*) has no payload: one update for each tuple
  by_cases hCount : spec.function = .count
  · have hLt : rs.tuples.length < 2 ^ 64 := by
      have hEq : weight spec rs = rs.tuples.length := if_pos hCount
      rwa [← hEq]
    refine ⟨_, rs.tuples.map fun _ => none, updatesOf_count hrs hNe hCount, if_pos hCount, ?_,
      fun _ hNot => absurd hCount hNot, fun _ => ?_⟩
    · rw [Nat.mod_eq_of_lt hLt, List.length_replicate, List.length_map]
    · rw [Nat.mod_eq_of_lt hLt, List.map_const']
  · cases hValues : payloadValues spec.expression rs with
    | error e => exact absurd ⟨hCount, .inl ⟨e, hValues⟩⟩ hRuns
    | ok vs =>
      obtain ⟨payload, expr, g, hPayload, rfl⟩ := payloadValues_ok hrs hExpr hValues
      obtain ⟨values, hTuples, hPerm⟩ := tupleValues_perm hCount hPayload
      have hUpdates : updatesOf computeError spec rs =
          .ok ((((visited payload).map g).filter known?).flatMap fun v =>
            List.replicate (weight spec rs) (some v)) := by
        unfold updatesOf
        rw [if_neg hCount, hValues, payloadFactor_of_lt hrs hFactor hCount hWeight]
        rfl
      have hLengths : ∀ l : List Nat, (((l.map g).filter known?).flatMap fun v =>
          List.replicate (weight spec rs) (some v)).length =
            (l.filter (known? ∘ g)).length * weight spec rs := by
        intro l
        rw [List.filter_map, List.length_flatMap]
        simp only [List.length_replicate, List.map_const', List.sum_replicate_nat, List.length_map]
      -- the places of the tuples are among the rows visited; equal lengths leave no row to be dropped
      have hSub := (places_sublist_visited payload).filter (known? ∘ g)
      refine ⟨_, values, hUpdates, hTuples, ?_, fun hLength => ?_, fun hKeep => ?_⟩
      · rw [hPerm.length_eq, hLengths, hLengths]
        exact Nat.mul_le_mul_right _ hSub.length_le
      · rw [hPerm.length_eq, hLengths, hLengths] at hLength
        intro _ payload' expr' hChunk hEvaluator i hi hDropped v hv
        obtain rfl := Option.some.inj (hPayload.chunk.symm.trans hChunk)
        obtain rfl := Option.some.inj (hPayload.evaluator.symm.trans hEvaluator)
        obtain rfl := Except.ok.inj ((hPayload.values i hi).symm.trans hv)
        rcases Nat.eq_zero_or_pos (weight spec rs) with hZero | hPos
        · exact .inr hZero
        · refine .inl ?_
          have hSame := hSub.eq_of_length (Nat.eq_of_mul_eq_mul_right hPos hLength)
          by_contra hNull
          have hMem : i ∈ (visited payload).filter (known? ∘ g) :=
            List.mem_filter.mpr ⟨hi, by
              show (!(g i).isNullValue) = true
              rw [Bool.eq_false_iff.mpr hNull]
              rfl⟩
          rw [← hSame] at hMem
          exact hDropped (List.mem_filter.mp hMem).1
      · rcases Nat.eq_zero_or_pos (weight spec rs) with hZero | hPos
        · have hNone : ∀ l : List (Value F32 F64),
              (l.flatMap fun v => List.replicate 0 (some v)) = [] := fun l => by simp
          rw [hZero, hNone] at hPerm ⊢
          exact hPerm.symm
        · have hSame : (visited payload).filter (known? ∘ g) = payload.places.filter (known? ∘ g) := by
            conv_rhs => rw [← visited_filter payload, List.filter_filter]
            refine List.filter_congr fun i hi => ?_
            by_cases hPlace : i ∈ payload.places
            · simp [hPlace]
            · have hNull := (hKeep hCount payload expr hPayload.chunk hPayload.evaluator i hi hPlace
                (g i) (hPayload.values i hi)).resolve_right (Nat.ne_of_gt hPos)
              simp [hPlace, known?, hNull]
          rw [List.filter_map, hSame, ← List.filter_map]
          exact hPerm.symm

end Rows

end StreamExecutor

end MiniGU
