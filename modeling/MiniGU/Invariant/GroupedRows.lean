import MiniGU.Lib.Grouping
import MiniGU.Invariant.AggregateRows
import MiniGU.Invariant.RowTables

/-!
# Grouped aggregation over rows

Aggregation looks at one row at a time, so over one schema it depends on the rows of the stream
only (`foldlM_rows`): neither on the chunks nor on the rows that the filters drop. The states of
the groups are an instance of the loop of `Lib/Grouping` (`groupRow_eq`).
-/

namespace MiniGU

section Rows

variable {E Ty Val : Type}

/-! ## Rows over a schema -/

/-- The chunk of one row. -/
def rowChunk (schema : List Ty) (row : List Val) : DataChunk Ty Val :=
  DataChunk.new (List.zipWith (fun ty v => ⟨ty, [v]⟩) schema row)

theorem takeRows_rowChunk {c : DataChunk Ty Val} (hc : c.Aligned) {i : Nat} (hi : i < c.len) :
    (rowChunk (c.columns.map ArrayRef.dataType) (c.rowAt i)).takeRows [0] = c.takeRows [i] := by
  have hColumns : ∀ cols : List (ArrayRef Ty Val), (∀ a ∈ cols, i < a.values.length) →
      (List.zipWith (fun ty v => (⟨ty, [v]⟩ : ArrayRef Ty Val)) (cols.map ArrayRef.dataType)
        (cols.filterMap fun a => a.values[i]?)).map
          (fun a => { a with values := [0].filterMap fun j => a.values[j]? }) =
        cols.map fun a => { a with values := [i].filterMap fun j => a.values[j]? } := by
    intro cols
    induction cols with
    | nil => intro _; rfl
    | cons a cols ih =>
      intro h
      have ha : i < a.values.length := h a List.mem_cons_self
      have hAt : a.values[i]? = some a.values[i] := List.getElem?_eq_getElem ha
      have hRest := ih fun b hb => h b (List.mem_cons_of_mem a hb)
      have hFirst : (a :: cols).filterMap (fun a => a.values[i]?) =
          a.values[i] :: cols.filterMap fun a => a.values[i]? := by
        rw [List.filterMap_cons]
        simp only [hAt]
      rw [hFirst, List.map_cons, List.zipWith_cons_cons, List.map_cons, hRest, List.map_cons]
      simp [hAt]
  exact hColumns c.columns fun a ha => by rw [hc.lengths a ha]; exact hi

theorem mem_positions {cs : List (DataChunk Ty Val)} {p : DataChunk Ty Val × Nat}
    (h : p ∈ StreamExecutor.positions cs) : p.1 ∈ cs ∧ p.2 < p.1.len := by
  obtain ⟨c, hc, hp⟩ := List.mem_flatMap.mp h
  obtain ⟨i, hi, rfl⟩ := List.mem_map.mp hp
  rw [DataChunk.keptRows_eq] at hi
  exact ⟨hc, List.mem_range.mp (List.mem_filter.mp hi).1⟩

/-- A loop that looks at one row at a time depends on the rows only. -/
theorem foldlM_rows {σ : Type} {f : σ → DataChunk Ty Val → Nat → Except (Fault E) σ}
    (hf : ∀ (s : σ) (c d : DataChunk Ty Val) (i j : Nat), c.takeRows [i] = d.takeRows [j] →
      f s c i = f s d j)
    {schema : List Ty} {cs : List (DataChunk Ty Val)} (hcs : OfSchema schema cs) (s : σ) :
    (StreamExecutor.positions cs).foldlM (fun s p => f s p.1 p.2) s =
      (rowsOf cs).foldlM (fun s row => f s (rowChunk schema row) 0) s := by
  rw [StreamExecutor.rowsOf_eq_positions, List.foldlM_map]
  refine foldlM_congr fun p hp s => hf s _ _ _ _ ?_
  obtain ⟨hc, hi⟩ := mem_positions hp
  rw [← hcs.types p.1 hc, takeRows_rowChunk (hcs.aligned p.1 hc) hi]

end Rows

/-! ## The rows of a chunk of columns -/

section Columns

variable {α Ty Val : Type}

theorem rows_new {l : List α} (hl : l ≠ []) {f : α → ArrayRef Ty Val} {n : Nat}
    (h : ∀ a ∈ l, (f a).values.length = n) :
    (DataChunk.new (l.map f)).rows =
      (List.range n).map fun j => l.filterMap fun a => (f a).values[j]? := by
  obtain ⟨a, as, rfl⟩ := List.exists_cons_of_ne_nil hl
  have hLen : (DataChunk.new ((a :: as).map f)).len = n := by
    simpa [DataChunk.len, DataChunk.new] using h a List.mem_cons_self
  rw [DataChunk.rows, DataChunk.keptRows]
  show (List.range (DataChunk.new ((a :: as).map f)).len).map _ = _
  rw [hLen]
  refine List.map_congr_left fun j _ => ?_
  rw [DataChunk.rowAt, DataChunk.new, List.filterMap_map]
  rfl

theorem rows_new_singletons {l : List α} (hl : l ≠ []) {f : α → ArrayRef Ty Val} {g : α → Val}
    (h : ∀ a ∈ l, (f a).values = [g a]) : (DataChunk.new (l.map f)).rows = [l.map g] := by
  rw [rows_new hl (n := 1) fun a ha => by rw [h a ha]; rfl]
  have hRow : (l.filterMap fun a => (f a).values[0]?) = l.map g := by
    rw [← List.filterMap_eq_map]
    exact List.filterMap_congr fun a ha => by rw [h a ha]; rfl
  simp [hRow]

end Columns

namespace StreamExecutor

variable {E F32 F64 : Type} {ops : FloatOps F32 F64} {specs : List (AggregateSpec E F32 F64)}
  {schema : List ArrayType}

/-! ## Aggregation looks at one row -/

section OneRow

variable {c d : ValueChunk F32 F64} {i j : Nat} (h : c.takeRows [i] = d.takeRows [j])

include h

theorem evaluateRow_congr (expr : Evaluator E ArrayType (Value F32 F64)) :
    evaluateRow expr c i = evaluateRow expr d j := by
  rw [evaluateRow, h, evaluateRow]

theorem valueAt_congr (spec : AggregateSpec E F32 F64) : spec.valueAt c i = spec.valueAt d j := by
  unfold AggregateSpec.valueAt
  cases spec.expression with
  | none => rfl
  | some expr => simp only [evaluateRow_congr h]

theorem updateStates_congr (specs : List (AggregateSpec E F32 F64))
    (states : List (AggregateState F64)) :
    updateStates ops c i specs states = updateStates ops d j specs states := by
  induction specs generalizing states with
  | nil => rfl
  | cons spec specs ih =>
    cases states with
    | nil => rfl
    | cons state states => simp only [updateStates, valueAt_congr h, ih]

theorem updateGroup_congr [DecidableEq F32] [DecidableEq F64] (key : GroupKey F32 F64)
    (g : Groups F32 F64) : updateGroup ops specs key c i g = updateGroup ops specs key d j g := by
  induction g with
  | nil => simp only [updateGroup, updateStates_congr h]
  | cons p g ih => simp only [updateGroup, updateStates_congr h, ih]

theorem groupRow_congr [DecidableEq F32] [DecidableEq F64]
    (gs : List (Evaluator E ArrayType (Value F32 F64))) (g : Groups F32 F64) :
    groupRow ops specs gs g c i = groupRow ops specs gs g d j := by
  simp only [groupRow, evaluateRow_congr h, updateGroup_congr h]

end OneRow

/-! ## States of one type -/

/-- The expression of an aggregate has values of the type at the rows. -/
def SpecOfType (schema : List ArrayType) (rows : List (List (Value F32 F64)))
    (spec : AggregateSpec E F32 F64) (ty : ArrayType) : Prop :=
  ∀ row ∈ rows, ∀ v, spec.valueAt (rowChunk schema row) 0 = .ok (some v) → v.type = ty

/-- The state is one of the aggregate, and of the type of its expression. -/
def StateOf (schema : List ArrayType) (rows : List (List (Value F32 F64)))
    (spec : AggregateSpec E F32 F64) (state : AggregateState F64) : Prop :=
  state.kind = spec.function ∧ ∀ ty, SpecOfType schema rows spec ty → state.TypedBy ty

theorem valueAt_isSome {spec : AggregateSpec E F32 F64} {c : ValueChunk F32 F64} {i : Nat}
    {value : Option (Value F32 F64)} (h : spec.valueAt c i = .ok value) : ∃ v, value = some v := by
  unfold AggregateSpec.valueAt at h
  split at h
  · obtain ⟨v, -, hv⟩ := bind_ok_iff.mp h
    exact ⟨v, (Except.ok.inj hv).symm⟩
  · exact ⟨_, (Except.ok.inj h).symm⟩

variable {rows : List (List (Value F32 F64))}

theorem stateOf_new (ops : FloatOps F32 F64) (specs : List (AggregateSpec E F32 F64)) :
    List.Forall₂ (StateOf schema rows) specs (newStates ops specs) := by
  induction specs with
  | nil => exact List.Forall₂.nil
  | cons spec specs ih =>
    exact List.Forall₂.cons ⟨AggregateState.kind_new .., fun ty _ => AggregateState.typedBy_new ..⟩ ih

theorem stateOf_step {row : List (Value F32 F64)} (hRow : row ∈ rows)
    {states states' : List (AggregateState F64)}
    (h : List.Forall₂ (StateOf schema rows) specs states)
    (hStep : updateStates ops (rowChunk schema row) 0 specs states = .ok states') :
    List.Forall₂ (StateOf schema rows) specs states' := by
  induction h generalizing states' with
  | nil =>
    cases hStep
    exact List.Forall₂.nil
  | @cons spec state specs states hState hStates ih =>
    rw [updateStates] at hStep
    obtain ⟨value, hValue, hStep⟩ := bind_ok_iff.mp hStep
    obtain ⟨state', hUpdate, hStep⟩ := bind_ok_iff.mp hStep
    obtain ⟨rest, hRest, hStep⟩ := bind_ok_iff.mp hStep
    cases hStep
    obtain ⟨v, rfl⟩ := valueAt_isSome hValue
    have hFollows := AggregateState.update_follows hUpdate
    refine List.Forall₂.cons ⟨hFollows.kind.trans hState.1, fun ty hTy => ?_⟩ (ih hRest)
    have hType := hTy row hRow v hValue
    subst hType
    exact hFollows.typed (hState.2 _ hTy)

theorem stateOf_run {rs : List (List (Value F32 F64))} (hRows : ∀ row ∈ rs, row ∈ rows)
    {states states' : List (AggregateState F64)}
    (h : List.Forall₂ (StateOf schema rows) specs states)
    (hRun : rs.foldlM (fun states row => updateStates ops (rowChunk schema row) 0 specs states)
      states = .ok states') :
    List.Forall₂ (StateOf schema rows) specs states' := by
  induction rs generalizing states with
  | nil =>
    cases hRun
    exact h
  | cons row rs ih =>
    rw [List.foldlM_cons] at hRun
    obtain ⟨states₁, hStep, hRun⟩ := bind_ok_iff.mp hRun
    exact ih (fun r hr => hRows r (List.mem_cons_of_mem row hr))
      (stateOf_step (hRows row List.mem_cons_self) h hStep) hRun

/-! ## Aggregation without grouping -/

/-- The states that the rows lead to. -/
def statesOver (ops : FloatOps F32 F64) (schema : List ArrayType)
    (specs : List (AggregateSpec E F32 F64)) (rows : List (List (Value F32 F64))) :
    Except (Fault E) (List (AggregateState F64)) :=
  rows.foldlM (fun states row => updateStates ops (rowChunk schema row) 0 specs states)
    (newStates ops specs)

theorem length_statesOver {states : List (AggregateState F64)}
    (h : statesOver ops schema specs rows = .ok states) : states.length = specs.length :=
  (stateOf_run (fun _ hRow => hRow) (stateOf_new ops specs) h).length_eq.symm

variable {cs : List (ValueChunk F32 F64)}

theorem foldRows_states (hcs : OfSchema schema cs) :
    foldRows (fun states chunk i => updateStates ops chunk i specs states) false
        (newStates ops specs) (cs.map .ok) =
      (do let states ← statesOver ops schema specs (rowsOf cs)
          .ok (cs.any fun c => c.len != 0, states)) := by
  rw [foldRows_ok, foldlM_rows (fun states _ _ _ _ h => updateStates_congr h specs states) hcs]
  simp only [Bool.false_or]
  rfl

theorem aggregateAll_error (hcs : OfSchema schema cs) {e : Fault E}
    (h : statesOver ops schema specs (rowsOf cs) = .error e) :
    aggregateAll ops specs [] (cs.map .ok) = .error e := by
  rw [aggregateAll, foldRows_states hcs, h]
  rfl

/-- Without grouping there is one row, with what the states of all rows give. -/
theorem aggregateAll_ok (hSpecs : specs ≠ []) (hcs : OfSchema schema cs)
    {states : List (AggregateState F64)}
    (h : statesOver ops schema specs (rowsOf cs) = .ok states) :
    ∃ chunk, aggregateAll ops specs [] (cs.map .ok) = .ok chunk ∧
      chunk.rows.map (List.map Value.known) = [states.map fun s => (s.finalize ops).known] := by
  have hLength := length_statesOver h
  have hStates : states ≠ [] := by
    intro hNil
    rw [hNil, List.length_nil] at hLength
    exact hSpecs (List.eq_nil_of_length_eq_zero hLength.symm)
  rw [aggregateAll, foldRows_states hcs, h]
  simp only [ok_bind]
  by_cases hData : (cs.any fun c => c.len != 0) = true
  · refine ⟨DataChunk.new (states.map fun s => (s.finalize ops).toScalarArray),
      by simp [hData, applyOutput], ?_⟩
    rw [rows_new_singletons hStates (g := fun s => s.finalize ops) fun _ _ => rfl]
    simp
  · -- no row: the defaults stand for the states at their start
    have hNone : rowsOf cs = [] := by
      rw [rowsOf_eq_positions]
      by_contra hSome
      exact hData (any_len_of_positions fun hNil => hSome (by rw [hNil]; rfl))
    have hNew : states = newStates ops specs := by
      rw [hNone] at h
      exact (Except.ok.inj h).symm
    refine ⟨DataChunk.new (specs.map fun spec => spec.function.defaultColumn), by simp [hData], ?_⟩
    have hRows : (DataChunk.new (specs.map fun spec => spec.function.defaultColumn)).rows =
        [specs.map fun spec =>
          (spec.function.defaultColumn : ValueArray F32 F64).values.headD (.scalar .null)] :=
      rows_new_singletons hSpecs fun spec _ => by cases spec.function <;> rfl
    rw [hRows, hNew, newStates]
    simp only [List.map_cons, List.map_nil, List.map_map, List.cons.injEq, and_true]
    refine List.map_congr_left fun spec _ => ?_
    have hKnown := known_defaultColumn ops spec.function spec.distinct
    cases hFunc : spec.function
    all_goals
      rw [hFunc] at hKnown
      simpa [AggregateFunction.defaultColumn, hFunc] using hKnown

/-! ## The groups -/

section Groups

variable [DecidableEq F32] [DecidableEq F64] {gs : List (Evaluator E ArrayType (Value F32 F64))}

/-- The grouping key of a row. -/
def keyOf (schema : List ArrayType) (gs : List (Evaluator E ArrayType (Value F32 F64)))
    (row : List (Value F32 F64)) : Except (Fault E) (GroupKey F32 F64) :=
  gs.mapM fun expr => evaluateRow expr (rowChunk schema row) 0

theorem sameKey_equivalence (ops : FloatOps F32 F64) :
    Equivalence fun k k' => sameKey ops k k' = true where
  refl _ := decide_eq_true rfl
  symm h := decide_eq_true (of_decide_eq_true h).symm
  trans h h' := decide_eq_true ((of_decide_eq_true h).trans (of_decide_eq_true h'))

theorem updateGroup_eq_upsert (key : GroupKey F32 F64) (c : ValueChunk F32 F64) (i : Nat)
    (g : Groups F32 F64) :
    updateGroup ops specs key c i g =
      upsert (sameKey ops) (updateStates ops c i specs) (newStates ops specs) key g := by
  induction g with
  | nil => rfl
  | cons p g ih =>
    rw [updateGroup, upsert, ih]

theorem groupRow_eq (row : List (Value F32 F64)) (g : Groups F32 F64) :
    groupRow ops specs gs g (rowChunk schema row) 0 =
      groupStep (sameKey ops) (keyOf schema gs)
        (fun row => updateStates ops (rowChunk schema row) 0 specs) (newStates ops specs) g row := by
  unfold groupRow groupStep keyOf
  congr 1
  funext key
  exact updateGroup_eq_upsert key _ _ g

theorem foldRows_groups (hcs : OfSchema schema cs) :
    foldRows (groupRow ops specs gs) false [] (cs.map .ok) =
      (do let g ← (rowsOf cs).foldlM (groupStep (sameKey ops) (keyOf schema gs)
            (fun row => updateStates ops (rowChunk schema row) 0 specs) (newStates ops specs)) []
          .ok (cs.any fun c => c.len != 0, g)) := by
  rw [foldRows_ok, foldlM_rows (fun g _ _ _ _ h => groupRow_congr h gs g) hcs]
  simp only [Bool.false_or, groupRow_eq]

end Groups

end StreamExecutor

end MiniGU
