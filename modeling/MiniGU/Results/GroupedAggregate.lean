import MiniGU.Invariant.GroupedRows

/-!
# Grouped aggregation

With grouping, `Aggregate` gives one row for each key that the logical rows have, and next to the
key what the same aggregates give over the rows of this key alone, in any chunks, without grouping.
Where it fails, the key of some row cannot be evaluated, or the aggregates of some group alone
fail as well.

The key columns are those of `scalar_values_to_array`, which handles the scalar types. A column of
vectors comes out as nulls (`vector_keys_lost`).
-/

namespace MiniGU

namespace StreamExecutor

variable {E F32 F64 : Type} {ops : FloatOps F32 F64}
  {specs : List (AggregateSpec E F32 F64)} {gs : List (Evaluator E ArrayType (Value F32 F64))}
  {schema : List ArrayType} {rows : List (List (Value F32 F64))}

-- ----
-- The columns of the result
-- ----

/-- The row of a group, before it goes into columns. -/
def groupValues (ops : FloatOps F32 F64) (g : GroupKey F32 F64 × List (AggregateState F64)) :
    List (Value F32 F64) :=
  g.1 ++ g.2.map (AggregateState.finalize ops)

@[simp] theorem length_scalarValuesToArray (vs : List (Value F32 F64)) :
    (scalarValuesToArray vs).values.length = vs.length := by
  cases vs with
  | nil => rfl
  | cons v vs =>
    simp only [scalarValuesToArray]
    split <;> simp

/-- A column of a type that is no scalar type comes out as nulls. -/
theorem vector_keys_lost {dimension : Nat} {vs : List (Value F32 F64)}
    (h : ∀ v ∈ vs, v.type = .vector dimension) :
    ∀ v ∈ (scalarValuesToArray vs).values, v = .int .int64 none := by
  cases vs with
  | nil => intro v hv; cases hv
  | cons v vs =>
    have hFind : ∃ w d, (((v :: vs).find? fun w => !w.isNullValue).getD v) = .vector w d := by
      have hType := h v List.mem_cons_self
      cases v with
      | scalar s => cases hType
      | vector w d => exact ⟨w, d, rfl⟩
    obtain ⟨w, d, hFind⟩ := hFind
    simp only [scalarValuesToArray, hFind]
    intro u hu
    obtain ⟨_, -, rfl⟩ := List.mem_map.mp hu
    rfl

section Columns

variable {groups : Groups F32 F64}
  (hWidth : ∀ g ∈ groups, (groupValues ops g).length = gs.length + specs.length)

include hWidth

theorem getElem?_column {i : Nat} (hi : i < gs.length + specs.length) (j : Nat) :
    ((groups.map (groupValues ops)).filterMap fun row => row[i]?)[j]? =
      (groups[j]?).bind fun g => (groupValues ops g)[i]? := by
  rw [List.filterMap_map, getElem?_filterMap]
  · rfl
  · intro g hg
    simp [hWidth g hg, hi]

theorem length_column {i : Nat} (hi : i < gs.length + specs.length) :
    ((groups.map (groupValues ops)).filterMap fun row => row[i]?).length = groups.length := by
  rw [List.filterMap_map]
  have hMap := congrArg List.length (map_some_filterMap (l := groups)
    (f := fun g => (groupValues ops g)[i]?) fun g hg => by simp [hWidth g hg, hi])
  rw [List.length_map, List.length_map] at hMap
  exact hMap

/-- The rows of the result are as many as the groups, and each is as wide as they are. -/
theorem rows_resultColumns (hSpecs : specs ≠ []) :
    (DataChunk.new (resultColumns ops specs gs groups)).rows =
      (List.range groups.length).map fun j =>
        (List.range (gs.length + specs.length)).filterMap fun i =>
          (scalarValuesToArray ((groups.map (groupValues ops)).filterMap fun row =>
            row[i]?)).values[j]? := by
  have hRange : List.range (gs.length + specs.length) ≠ [] := by
    have hLength := List.length_pos_of_ne_nil hSpecs
    rw [Ne, List.range_eq_nil]
    omega
  have hColumns : resultColumns ops specs gs groups =
      (List.range (gs.length + specs.length)).map fun i =>
        scalarValuesToArray ((groups.map (groupValues ops)).filterMap fun row => row[i]?) := rfl
  rw [hColumns]
  exact rows_new hRange fun i hi => by
    rw [length_scalarValuesToArray, length_column hWidth (List.mem_range.mp hi)]

/-- Where a column is of one scalar type, the row of a group has what the group has there. -/
theorem known_cell {t : ScalarType} {i j : Nat} {g : GroupKey F32 F64 × List (AggregateState F64)}
    (hg : groups[j]? = some g) (hi : i < gs.length + specs.length)
    (hType : ∀ g ∈ groups, ∀ v, (groupValues ops g)[i]? = some v → v.OfType t) :
    ((scalarValuesToArray ((groups.map (groupValues ops)).filterMap fun row =>
      row[i]?)).values[j]?).map Value.known = ((groupValues ops g)[i]?).map Value.known := by
  have hAll : ∀ v ∈ (groups.map (groupValues ops)).filterMap fun row => row[i]?, v.OfType t := by
    intro v hv
    obtain ⟨row, hRow, hv⟩ := List.mem_filterMap.mp hv
    obtain ⟨g, hg, rfl⟩ := List.mem_map.mp hRow
    exact hType g hg v hv
  have hColumn := map_known_scalarValuesToArray hAll
  have hCell := congrArg (fun l => l[j]?) hColumn
  simp only [List.getElem?_map] at hCell
  rw [hCell, getElem?_column hWidth hi j, hg]
  rfl

end Columns

-- ----
-- The groups
-- ----

theorem length_keyOf {row : List (Value F32 F64)} {key : GroupKey F32 F64}
    (h : keyOf schema gs row = .ok key) : key.length = gs.length := by
  have hLength := congrArg List.length (mapM_ok_iff.mp h)
  rw [List.length_map, List.length_map] at hLength
  exact hLength.symm

theorem getElem?_keyOf {row : List (Value F32 F64)} {key : GroupKey F32 F64}
    (h : keyOf schema gs row = .ok key) {i : Nat} {expr : Evaluator E ArrayType (Value F32 F64)}
    (hi : gs[i]? = some expr) {v : Value F32 F64} (hv : key[i]? = some v) :
    evaluateRow expr (rowChunk schema row) 0 = .ok v := by
  have hAt := congrArg (fun l => l[i]?) (mapM_ok_iff.mp h)
  simpa [List.getElem?_map, hi, hv] using hAt

section Grouped

variable [DecidableEq F32] [DecidableEq F64]

/-- The rows of a key. -/
def groupRows (ops : FloatOps F32 F64) (schema : List ArrayType)
    (gs : List (Evaluator E ArrayType (Value F32 F64))) (key : GroupKey F32 F64)
    (rows : List (List (Value F32 F64))) : List (List (Value F32 F64)) :=
  rows.filter (hasKey (sameKey ops) (keyOf schema gs) key)

/-- The expression gives values of the type at the rows. -/
def ExprOfType (schema : List ArrayType) (rows : List (List (Value F32 F64)))
    (expr : Evaluator E ArrayType (Value F32 F64)) (ty : ArrayType) : Prop :=
  ∀ row ∈ rows, ∀ v, evaluateRow expr (rowChunk schema row) 0 = .ok v → v.type = ty

/-- The aggregates give the one row `x` without grouping, over any stream of these rows. -/
def AloneGives (ops : FloatOps F32 F64) (schema : List ArrayType)
    (specs : List (AggregateSpec E F32 F64)) (rows : List (List (Value F32 F64)))
    (x : List (Option (Value F32 F64))) : Prop :=
  ∀ cs, OfSchema schema cs → rowsOf cs = rows →
    ∃ chunk, aggregate ops specs [] id [] (cs.map .ok) = [.ok chunk] ∧
      chunk.rows.map (List.map Value.known) = [x]

/-- The aggregates fail without grouping, over any stream of these rows. -/
def AloneFails (ops : FloatOps F32 F64) (schema : List ArrayType)
    (specs : List (AggregateSpec E F32 F64)) (rows : List (List (Value F32 F64))) (e : Fault E) :
    Prop :=
  ∀ cs, OfSchema schema cs → rowsOf cs = rows →
    aggregate ops specs [] id [] (cs.map .ok) = [.error e]

/-- The row of a key: the key, in the columns of scalar types, and then what the aggregates give
over the rows of the key alone. -/
structure IsGroupRow (ops : FloatOps F32 F64) (schema : List ArrayType)
    (specs : List (AggregateSpec E F32 F64))
    (gs : List (Evaluator E ArrayType (Value F32 F64))) (rows : List (List (Value F32 F64)))
    (out : List (Value F32 F64)) (key : GroupKey F32 F64) : Prop where
  width : out.length = gs.length + specs.length
  keyCells : ∀ (i : Nat) (expr : Evaluator E ArrayType (Value F32 F64)) (t : ScalarType),
    gs[i]? = some expr → ExprOfType schema rows expr (.scalar t) →
      (out[i]?).map Value.known = (key[i]?).map Value.known
  aggregates : AloneGives ops schema specs (groupRows ops schema gs key rows)
    ((out.drop gs.length).map Value.known)

theorem aggregate_alone (hSpecs : specs ≠ []) {cs : List (ValueChunk F32 F64)} :
    aggregate ops specs [] id [] (cs.map .ok) =
      yieldAll ((aggregateAll ops specs [] (cs.map .ok)).map fun chunk => [chunk]) := by
  simp [aggregate, hSpecs]

/-- The states of a group give the aggregates of its rows alone. -/
theorem aloneGives_of_states (hSpecs : specs ≠ []) {states : List (AggregateState F64)}
    (h : statesOver ops schema specs rows = .ok states) :
    AloneGives ops schema specs rows (states.map fun s => (s.finalize ops).known) := by
  intro cs hcs hRows
  subst hRows
  obtain ⟨chunk, hChunk, hKnown⟩ := aggregateAll_ok hSpecs hcs h
  refine ⟨chunk, ?_, hKnown⟩
  rw [aggregate_alone hSpecs, hChunk]
  rfl

theorem aloneFails_of_states (hSpecs : specs ≠ []) {e : Fault E}
    (h : statesOver ops schema specs rows = .error e) : AloneFails ops schema specs rows e := by
  intro cs hcs hRows
  subst hRows
  rw [aggregate_alone hSpecs, aggregateAll_error hcs h]
  rfl

/-- The rows that are put out are those of the groups, keys first and then the aggregates. -/
theorem isGroupRow_of_grouped (hSpecs : specs ≠ [])
    (hTypes : ∀ spec ∈ specs, ∃ ty, SpecOfType schema rows spec ty) {groups : Groups F32 F64}
    (hFirst : ∀ g ∈ groups, ∃ row ∈ rows, keyOf schema gs row = .ok g.1)
    (hStates : ∀ g ∈ groups,
      statesOver ops schema specs (groupRows ops schema gs g.1 rows) = .ok g.2) :
    List.Forall₂ (IsGroupRow ops schema specs gs rows)
      (DataChunk.new (resultColumns ops specs gs groups)).rows (groups.map Prod.fst) := by
  have hKeyLength : ∀ g ∈ groups, g.1.length = gs.length := by
    intro g hg
    obtain ⟨row, -, hKey⟩ := hFirst g hg
    exact length_keyOf hKey
  have hWidth : ∀ g ∈ groups, (groupValues ops g).length = gs.length + specs.length := by
    intro g hg
    rw [groupValues, List.length_append, List.length_map, hKeyLength g hg,
      length_statesOver (hStates g hg)]
  have hStateOf : ∀ g ∈ groups, List.Forall₂ (StateOf schema rows) specs g.2 := fun g hg =>
    stateOf_run (fun row hRow => List.mem_of_mem_filter hRow) (stateOf_new ops specs) (hStates g hg)
  rw [rows_resultColumns hWidth hSpecs]
  refine List.forall₂_iff_get.mpr ⟨by simp, fun j hj hj' => ?_⟩
  have hIn : j < groups.length := by simpa using hj
  have hGroup : groups[j]? = some groups[j] := List.getElem?_eq_getElem hIn
  have hMem : groups[j] ∈ groups := List.getElem_mem hIn
  simp only [List.get_eq_getElem, List.getElem_map, List.getElem_range]
  -- the cells of the row are all there
  have hSome : ∀ i ∈ List.range (gs.length + specs.length),
      ((scalarValuesToArray ((groups.map (groupValues ops)).filterMap fun row =>
        row[i]?)).values[j]?).isSome = true := by
    intro i hi
    rw [List.getElem?_eq_getElem]
    · rfl
    · rw [length_scalarValuesToArray, length_column hWidth (List.mem_range.mp hi)]
      exact hIn
  have hCell : ∀ i, i < gs.length + specs.length →
      ((List.range (gs.length + specs.length)).filterMap fun i =>
        (scalarValuesToArray ((groups.map (groupValues ops)).filterMap fun row =>
          row[i]?)).values[j]?)[i]? =
      (scalarValuesToArray ((groups.map (groupValues ops)).filterMap fun row =>
        row[i]?)).values[j]? := by
    intro i hi
    rw [getElem?_filterMap hSome, List.getElem?_range hi]
    rfl
  have hLength : ((List.range (gs.length + specs.length)).filterMap fun i =>
      (scalarValuesToArray ((groups.map (groupValues ops)).filterMap fun row =>
        row[i]?)).values[j]?).length = gs.length + specs.length := by
    have hMap := congrArg List.length (map_some_filterMap hSome)
    rwa [List.length_map, List.length_map, List.length_range] at hMap
  refine ⟨hLength, ?_, ?_⟩
  · -- the columns of the key
    intro i expr t hExpr hType
    have hi : i < gs.length := (List.getElem?_eq_some_iff.mp hExpr).1
    have hKey : (groupValues ops groups[j])[i]? = groups[j].1[i]? := by
      rw [groupValues, List.getElem?_append_left (by rw [hKeyLength _ hMem]; exact hi)]
    rw [hCell i (by omega), known_cell (t := t) hWidth hGroup (by omega), hKey]
    intro g hg v hv
    obtain ⟨row, hRow, hKeyOf⟩ := hFirst g hg
    rw [groupValues, List.getElem?_append_left (by rw [hKeyLength g hg]; exact hi)] at hv
    exact .inl (hType row hRow v (getElem?_keyOf hKeyOf hExpr hv))
  · -- the columns of the aggregates
    have hAlone := aloneGives_of_states hSpecs (hStates _ hMem)
    convert hAlone using 1
    apply List.ext_getElem?
    intro m
    rw [List.getElem?_map, List.getElem?_drop, List.getElem?_map]
    have hStatesLength : groups[j].2.length = specs.length := length_statesOver (hStates _ hMem)
    by_cases hm : m < specs.length
    · have hAt : (groupValues ops groups[j])[gs.length + m]? =
          (groups[j].2[m]?).map (AggregateState.finalize ops) := by
        rw [groupValues, List.getElem?_append_right (by rw [hKeyLength _ hMem]; omega),
          hKeyLength _ hMem, Nat.add_sub_cancel_left, List.getElem?_map]
      obtain ⟨ty, hTy⟩ := hTypes specs[m] (List.getElem_mem hm)
      rw [hCell _ (by omega),
        known_cell (t := AggregateState.resultType ty specs[m].function) hWidth hGroup (by omega),
        hAt, Option.map_map]
      · rfl
      · -- each group has a state of this aggregate here
        intro g hg v hv
        have hGLength : g.2.length = specs.length := length_statesOver (hStates g hg)
        rw [groupValues, List.getElem?_append_right (by rw [hKeyLength g hg]; omega),
          hKeyLength g hg, Nat.add_sub_cancel_left, List.getElem?_map,
          List.getElem?_eq_getElem (by omega)] at hv
        cases hv
        have hState := (List.forall₂_iff_get.mp (hStateOf g hg)).2 m hm (by omega)
        simp only [List.get_eq_getElem] at hState
        rw [← hState.1]
        exact AggregateState.finalize_type (hState.2 ty hTy)
    · rw [List.getElem?_eq_none (by omega), List.getElem?_eq_none (by omega)]
      rfl

-- ----
-- The executor
-- ----

/-- **Grouped aggregation** over a stream of chunks, in any chunks and with any filters. Either it
fails, and then so does the key of some logical row, or the aggregates over the rows of some key
alone; or it gives exactly one row for each key that there is, with the key and with what the
aggregates give over the rows of the key alone. -/
theorem aggregate_grouped {cs : List (ValueChunk F32 F64)} (hcs : OfSchema schema cs)
    (hSpecs : specs ≠ []) (hGroup : gs ≠ [])
    (hTypes : ∀ spec ∈ specs, ∃ ty, SpecOfType schema (rowsOf cs) spec ty)
    {order : Groups F32 F64 → Groups F32 F64} (hOrder : ∀ g, (order g).Perm g) :
    (∃ e, aggregate ops specs gs order [] (cs.map .ok) = [.error e] ∧
      ((∃ row ∈ rowsOf cs, keyOf schema gs row = .error e) ∨
        ∃ row ∈ rowsOf cs, ∃ key, keyOf schema gs row = .ok key ∧
          AloneFails ops schema specs (groupRows ops schema gs key (rowsOf cs)) e)) ∨
    ∃ out keys, aggregate ops specs gs order [] (cs.map .ok) = out.map .ok ∧
      keys.Pairwise (fun k k' => sameKey ops k k' = false) ∧
      (∀ k ∈ keys, ∃ row ∈ rowsOf cs, keyOf schema gs row = .ok k) ∧
      (∀ row ∈ rowsOf cs, ∃ k, keyOf schema gs row = .ok k ∧ ∃ k' ∈ keys, sameKey ops k' k = true) ∧
      List.Forall₂ (IsGroupRow ops schema specs gs (rowsOf cs)) (rowsOf out) keys := by
  have hSame := sameKey_equivalence ops
  have hRun : aggregate ops specs gs order [] (cs.map .ok) =
      yieldAll (aggregateGroups ops specs gs order [] (cs.map .ok)) := by
    simp [aggregate, hSpecs, hGroup]
  rw [hRun, aggregateGroups, foldRows_groups hcs]
  cases hFold : (rowsOf cs).foldlM (groupStep (sameKey ops) (keyOf schema gs)
    (fun row => updateStates ops (rowChunk schema row) 0 specs) (newStates ops specs)) [] with
  | error e =>
    left
    refine ⟨e, rfl, ?_⟩
    rcases failed_foldlM hSame hFold with hKey | ⟨row, hRow, key, hKey, hAlone⟩
    · exact .inl hKey
    · exact .inr ⟨row, hRow, key, hKey, aloneFails_of_states hSpecs hAlone⟩
  | ok g =>
    right
    have hGrouped := grouped_foldlM hSame hFold
    simp only [ok_bind]
    cases g with
    | nil =>
      -- no group, so no row
      have hNone : rowsOf cs = [] := by
        rw [List.eq_nil_iff_forall_not_mem]
        intro row hRow
        obtain ⟨_, -, p, hp, -⟩ := hGrouped.keyed row hRow
        cases hp
      refine ⟨[], [], ?_, List.Pairwise.nil, by simp, by simp [hNone], List.Forall₂.nil⟩
      simp [yieldAll]
    | cons p g =>
      have hData : (cs.any fun c => c.len != 0) = true := by
        obtain ⟨row, hRow, -⟩ := hGrouped.first p List.mem_cons_self
        apply any_len_of_positions
        intro hNil
        rw [rowsOf_eq_positions, hNil] at hRow
        cases hRow
      have hPerm := hOrder (p :: g)
      have hMem : ∀ q, q ∈ order (p :: g) ↔ q ∈ p :: g := fun q => hPerm.mem_iff
      refine ⟨[DataChunk.new (resultColumns ops specs gs (order (p :: g)))],
        (order (p :: g)).map Prod.fst, ?_, ?_, ?_, ?_, ?_⟩
      · simp [hData, applyOutput, ok_bind, yieldAll]
      · -- being different does not depend on the order
        rw [List.pairwise_map]
        refine (hPerm.pairwise_iff fun {a b} hab => ?_).mpr hGrouped.apart
        rw [Bool.eq_false_iff] at hab ⊢
        exact fun hba => hab (hSame.symm hba)
      · intro k hk
        obtain ⟨q, hq, rfl⟩ := List.mem_map.mp hk
        exact hGrouped.first q ((hMem q).mp hq)
      · intro row hRow
        obtain ⟨k, hk, q, hq, hqk⟩ := hGrouped.keyed row hRow
        exact ⟨k, hk, q.1, List.mem_map_of_mem ((hMem q).mpr hq), hqk⟩
      · have hRows := isGroupRow_of_grouped hSpecs hTypes
          (fun q hq => hGrouped.first q ((hMem q).mp hq))
          (fun q hq => hGrouped.states q ((hMem q).mp hq))
        simpa [rowsOf] using hRows

end Grouped

/-- Three rows of a key and a number, of which the filter drops the first. -/
def keyedNumbers : ValueChunk Int Int :=
  ⟨[⟨.scalar .string, [.scalar (.string (some "b")), .scalar (.string (some "a")),
      .scalar (.string (some "a"))]⟩,
    ⟨.scalar (.int .int32), [.int .int32 (some 1), .int .int32 (some 2), .int .int32 none]⟩],
    some [false, true, true], some 0⟩

/-- Counted and summed by key, with a null among the numbers. -/
theorem keyedNumbers_grouped :
    ∃ out keys, aggregate (E := Unit) FloatOps.whole [.count, .sum (columnRef 1) false]
        [columnRef 0] id [] [.ok keyedNumbers] = out.map .ok ∧
      keys.Pairwise (fun k k' => sameKey FloatOps.whole k k' = false) ∧
      List.Forall₂ (IsGroupRow (E := Unit) FloatOps.whole [.scalar .string, .scalar (.int .int32)]
        [.count, .sum (columnRef 1) false] [columnRef 0] (rowsOf [keyedNumbers])) (rowsOf out) keys := by
  have hSchema : OfSchema [.scalar .string, .scalar (.int .int32)] [keyedNumbers] := by
    constructor
    all_goals
      intro c hc
      rw [List.mem_singleton] at hc
      subst hc
    · exact ⟨by decide, by decide, by simp [keyedNumbers, DataChunk.len]⟩
    · rfl
  have hRows : rowsOf [keyedNumbers] =
      [[.scalar (.string (some "a")), .int .int32 (some 2)],
        [.scalar (.string (some "a")), .int .int32 none]] := rfl
  have hTypes : ∀ spec ∈ [AggregateSpec.count, .sum (columnRef (E := Unit) 1) false],
      ∃ ty, SpecOfType [.scalar .string, .scalar (.int .int32)] (rowsOf [keyedNumbers]) spec ty := by
    intro spec hSpec
    simp only [List.mem_cons, List.not_mem_nil, or_false] at hSpec
    rcases hSpec with rfl | rfl
    · exact ⟨.scalar (.int .int64), fun row _ v hv => by cases hv; rfl⟩
    · refine ⟨.scalar (.int .int32), fun row hRow v hv => ?_⟩
      rw [hRows] at hRow
      simp only [List.mem_cons, List.not_mem_nil, or_false] at hRow
      rcases hRow with rfl | rfl
      all_goals
        cases hv
        rfl
  rcases @aggregate_grouped Unit Int Int FloatOps.whole _ [columnRef 0] _ _ _ [keyedNumbers] hSchema
    (by simp) (by simp) hTypes id fun g => List.Perm.refl g with ⟨e, hError, -⟩ | h
  · cases hError
  · obtain ⟨out, keys, hOut, hApart, -, -, hResult⟩ := h
    exact ⟨out, keys, hOut, hApart, hResult⟩

end StreamExecutor

end MiniGU
