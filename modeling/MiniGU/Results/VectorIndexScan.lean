import Mathlib.Data.Finset.Card
import MiniGU.Invariant.FilterMask
import MiniGU.Invariant.RowTables

/-!
# A vector index scan and its child

The scan looks at the physical rows of its child, so that a vertex in a row that a filter has
dropped is a candidate like any other. It returns only vertices of logical rows, and all of them
where the limit allows, exactly when no indexed vertex stands in dropped rows alone.
-/

namespace MiniGU

variable {E F32 F64 : Type} {b : Nat}

-- ----
-- Ids in rows
-- ----

/-- The vertex id that a value stands for, where it is not null. -/
def idOfValue : Value F32 F64 → Option Nat
  | .scalar (.int _ v) => v.map Int.toNat
  | _ => none

/-- The vertex id in a row. -/
def idOfRow (b : Nat) (row : List (Value F32 F64)) : Option Nat := row[b]?.bind idOfValue

/-- The vertex ids of the logical rows. -/
def logicalIds (b : Nat) (cs : List (ValueChunk F32 F64)) : List Nat :=
  (rowsOf cs).filterMap (idOfRow b)

/-- The vertex ids of the physical rows. -/
def physicalIds (b : Nat) (cs : List (ValueChunk F32 F64)) : List Nat :=
  (flaggedOf cs).filterMap fun r => idOfRow b r.2

/-- The binding column is there, and one of `u64`s. -/
structure Bindable (b : Nat) (c : ValueChunk F32 F64) : Prop where
  aligned : c.Aligned
  column : c.len ≠ 0 → ∃ column ids, c.columns[b]? = some column ∧ asUInt64 column = some ids

theorem mem_logicalIds {cs : List (ValueChunk F32 F64)} {id : Nat} :
    id ∈ logicalIds b cs ↔ ∃ r ∈ flaggedOf cs, r.1 = true ∧ idOfRow b r.2 = some id := by
  unfold logicalIds
  rw [rowsOf_eq_filter, List.mem_filterMap]
  constructor
  · rintro ⟨row, hRow, hId⟩
    obtain ⟨r, hr, rfl⟩ := List.mem_map.mp hRow
    obtain ⟨hMem, hKept⟩ := List.mem_filter.mp hr
    exact ⟨r, hMem, hKept, hId⟩
  · rintro ⟨r, hMem, hKept, hId⟩
    exact ⟨r.2, List.mem_map.mpr ⟨r, List.mem_filter.mpr ⟨hMem, hKept⟩, rfl⟩, hId⟩

theorem mem_physicalIds {cs : List (ValueChunk F32 F64)} {id : Nat} :
    id ∈ physicalIds b cs ↔ ∃ r ∈ flaggedOf cs, idOfRow b r.2 = some id := by
  unfold physicalIds
  exact List.mem_filterMap

theorem physical_of_logical {cs : List (ValueChunk F32 F64)} {id : Nat}
    (h : id ∈ logicalIds b cs) : id ∈ physicalIds b cs := by
  obtain ⟨r, hr, -, hId⟩ := mem_logicalIds.mp h
  exact mem_physicalIds.mpr ⟨r, hr, hId⟩

theorem asUInt64_eq {a : ValueArray F32 F64} {ids : List (Option Nat)}
    (h : asUInt64 a = some ids) : ids = a.values.map idOfValue := by
  unfold asUInt64 at h
  split at h
  · rw [eq_map_of_mapM h none]
    refine List.map_congr_left fun v hv => ?_
    have hSome := exists_mapM_iff.mp ⟨ids, h⟩ v hv
    split at hSome
    · rfl
    · cases hSome
  · cases h

/-- The entries of the binding column are the ids of the rows. -/
theorem ids_of_column {c : ValueChunk F32 F64} (hc : c.Aligned) {column : ValueArray F32 F64}
    {ids : List (Option Nat)} (hColumn : c.columns[b]? = some column)
    (hIds : asUInt64 column = some ids) :
    ids.filterMap id = c.flagged.filterMap fun r => idOfRow b r.2 := by
  have hLength : column.values.length = c.len := hc.lengths column (List.mem_of_getElem? hColumn)
  have hRows : ∀ i ∈ List.range c.len, idOfRow b (c.rowAt i) = column.values[i]?.bind idOfValue := by
    intro i hi
    rw [idOfRow, hc.getElem?_rowAt (List.mem_range.mp hi), hColumn, Option.bind_some]
  rw [asUInt64_eq hIds, List.filterMap_map, Function.id_comp, DataChunk.flagged,
    List.filterMap_map]
  calc column.values.filterMap idOfValue
      = ((List.range column.values.length).filterMap fun i => column.values[i]?).filterMap
          idOfValue := by rw [filterMap_range_getElem?]
    _ = (List.range c.len).filterMap fun i => column.values[i]?.bind idOfValue := by
        rw [List.filterMap_filterMap, hLength]
    _ = _ := (List.filterMap_congr hRows).symm

-- ----
-- The bitmap
-- ----

/-- The candidates are the ids of a list. -/
structure Candidates.Tracks (s : Candidates) (l : List Nat) : Prop where
  indices : s.candidateIndices = l
  bound : ∀ idx ∈ l, ∃ m, s.maxIndex = some m ∧ idx ≤ m
  attained : ∀ m, s.maxIndex = some m → m ∈ l

namespace Candidates.Tracks

variable {s : Candidates} {l : List Nat}

theorem take (h : s.Tracks l) (id : Option Nat) : (s.take id).Tracks (l ++ id.toList) := by
  cases id with
  | none =>
    show s.Tracks (l ++ [])
    rwa [List.append_nil]
  | some idx =>
    cases hMax : s.maxIndex with
    | none =>
      have hNil : l = [] := by
        refine List.eq_nil_iff_forall_not_mem.mpr fun j hj => ?_
        obtain ⟨m, hm, -⟩ := h.bound j hj
        rw [hMax] at hm
        cases hm
      have hIndices := h.indices
      constructor <;> simp_all [Candidates.take]
    | some m =>
      refine ⟨by simp [Candidates.take, h.indices], fun j hj => ?_, fun m' hm' => ?_⟩
      · simp only [Candidates.take, hMax]
        refine ⟨_, rfl, ?_⟩
        rcases List.mem_append.mp hj with hj | hj
        · obtain ⟨m', hm', hle⟩ := h.bound j hj
          obtain rfl : m = m' := Option.some.inj (hMax.symm.trans hm')
          split <;> omega
        · obtain rfl := List.mem_singleton.mp hj
          split <;> omega
      · simp only [Candidates.take, hMax] at hm'
        have hMem := h.attained m hMax
        split at hm' <;> obtain rfl := Option.some.inj hm' <;> simp [hMem]

theorem foldl (h : s.Tracks l) (ids : List (Option Nat)) :
    (ids.foldl Candidates.take s).Tracks (l ++ ids.filterMap id) := by
  induction ids generalizing s l with
  | nil => simpa using h
  | cons i ids ih =>
    have hRest := ih (h.take i)
    cases i with
    | none => simpa using hRest
    | some idx => simpa using hRest

end Candidates.Tracks

theorem takeCandidates_tracks {s : Candidates} {l : List Nat} (h : s.Tracks l)
    {c : ValueChunk F32 F64} (hc : Bindable b c) : ∃ s', takeCandidates (E := E) b s c = .ok s' ∧
      s'.Tracks (l ++ c.flagged.filterMap fun r => idOfRow b r.2) := by
  unfold takeCandidates
  by_cases hLen : c.len = 0
  · have hNil : c.flagged = [] := List.length_eq_zero_iff.mp ((c.length_flagged).trans hLen)
    rw [if_pos hLen, hNil]
    exact ⟨s, rfl, by simpa using h⟩
  · obtain ⟨column, ids, hColumn, hIds⟩ := hc.column hLen
    rw [if_neg hLen, hColumn]
    simp only [hIds]
    refine ⟨_, rfl, ?_⟩
    rw [← ids_of_column hc.aligned hColumn hIds]
    exact h.foldl ids

theorem consumeChildBitmap_eq {cs : List (ValueChunk F32 F64)} (hcs : ∀ c ∈ cs, Bindable b c) :
    ∃ s : Candidates, s.Tracks (physicalIds b cs) ∧
      consumeChildBitmap (E := E) b (cs.map .ok) = candidateBitmap s := by
  have hRun : ∀ (s : Candidates) (l : List Nat), s.Tracks l → ∃ s' : Candidates,
      s'.Tracks (l ++ physicalIds b cs) ∧
      (cs.map Except.ok).foldlM (fun s item => do
        let chunk ← ofChild item
        takeCandidates (E := E) b s chunk) s = .ok s' := by
    induction cs with
    | nil => exact fun s l h => ⟨s, by simpa [physicalIds, flaggedOf] using h, rfl⟩
    | cons c cs ih =>
      intro s l h
      obtain ⟨s₁, hTake, h₁⟩ := takeCandidates_tracks h (hcs c List.mem_cons_self)
      obtain ⟨s', h', hRest⟩ := ih (fun c' hc' => hcs c' (List.mem_cons_of_mem c hc')) s₁ _ h₁
      refine ⟨s', by simpa [physicalIds] using h', ?_⟩
      rw [List.map_cons, List.foldlM_cons]
      show (takeCandidates b s c >>= _) = _
      rw [hTake, ok_bind]
      exact hRest
  have hStart : (⟨none, []⟩ : Candidates).Tracks [] :=
    ⟨rfl, fun _ h => (by cases h), fun _ h => (by cases h)⟩
  obtain ⟨s, hs, hFold⟩ := hRun _ _ hStart
  refine ⟨s, by simpa using hs, ?_⟩
  unfold consumeChildBitmap
  rw [hFold, ok_bind]

theorem getElem?_foldl_set (l : List Nat) (bits : List Bool) (n : Nat) :
    (l.foldl (fun bits idx => bits.set idx true) bits)[n]? = some true ↔
      (n ∈ l ∧ n < bits.length) ∨ bits[n]? = some true := by
  induction l generalizing bits with
  | nil => simp
  | cons i l ih =>
    rw [List.foldl_cons, ih, List.length_set, List.getElem?_set, List.mem_cons]
    by_cases hi : i = n
    · subst hi
      by_cases hn : i < bits.length <;> simp [hn]
    · have hNe : n ≠ i := fun h => hi h.symm
      simp [hi, hNe]

section Bitmap

variable {s : Candidates} {l : List Nat}

theorem candidateBitmap_empty (h : s.Tracks l) (hNil : l = []) :
    candidateBitmap (E := E) s = .ok none := by
  cases hMax : s.maxIndex with
  | none => rw [candidateBitmap, hMax]
  | some m => simpa [hNil] using h.attained m hMax

theorem candidateBitmap_fails (h : s.Tracks l) {id : Nat} (hId : id ∈ l) (hLarge : 2 ^ 63 ≤ id + 1) :
    ∃ e, candidateBitmap (E := E) s = .error e := by
  obtain ⟨m, hMax, hle⟩ := h.bound id hId
  rw [candidateBitmap, hMax]
  have hLong : 2 ^ 63 ≤ m + 1 := by omega
  by_cases hOver : 2 ^ 64 ≤ m + 1
  · exact ⟨_, if_pos hOver⟩
  · exact ⟨_, (if_neg hOver).trans (if_pos hLong)⟩

theorem candidateBitmap_ok (h : s.Tracks l) (hNe : l ≠ []) (hSmall : ∀ id ∈ l, id + 1 < 2 ^ 63) :
    ∃ bits, candidateBitmap (E := E) s = .ok (some bits) ∧ ∀ n, bits[n]? = some true ↔ n ∈ l := by
  obtain ⟨id, hId⟩ := List.exists_mem_of_ne_nil l hNe
  obtain ⟨m, hMax, -⟩ := h.bound id hId
  have hBound := hSmall m (h.attained m hMax)
  have hOver : ¬2 ^ 64 ≤ m + 1 := by omega
  have hLong : ¬2 ^ 63 ≤ m + 1 := by omega
  rw [candidateBitmap, hMax]
  refine ⟨_, (if_neg hOver).trans (if_neg hLong), fun n => ?_⟩
  rw [getElem?_foldl_set, h.indices, List.length_replicate]
  constructor
  · rintro (⟨hn, -⟩ | hn)
    · exact hn
    · rw [List.getElem?_replicate] at hn
      split at hn <;> cases hn
  · intro hn
    obtain ⟨m', hm', hle⟩ := h.bound n hn
    obtain rfl : m = m' := Option.some.inj (hMax.symm.trans hm')
    exact .inl ⟨hn, by omega⟩

end Bitmap

-- ----
-- The mask
-- ----

/-- What the mask lets through are the indexed vertices of the bitmap. -/
theorem candidate_iff (index : VectorIndex E F32) (bits : List Bool) (n : Nat) :
    (∃ v, index.nodeToVectorId n = some v ∧ (filterMaskOf bits index).containsVector v = true) ↔
      bits[n]? = some true ∧ (index.nodeToVectorId n).isSome = true := by
  have hMem : ∀ v, v ∈ bitmapToVectorIds bits index ↔
      ∃ m, bits[m]? = some true ∧ index.nodeToVectorId m = some v := by
    intro v
    unfold bitmapToVectorIds
    simp only [List.mem_filterMap, mem_extractTrueNodeIds]
  have hMask : ∀ v, (filterMaskOf bits index).containsVector v = true ↔
      v ∈ bitmapToVectorIds bits index := by
    intro v
    rw [filterMaskOf, FilterMask.containsVector_new]
    refine ⟨And.left, fun hv => ⟨hv, ?_⟩⟩
    cases hMax : (bitmapToVectorIds bits index).max? with
    | none =>
      rw [List.max?_eq_none_iff.mp hMax] at hv
      cases hv
    | some m =>
      obtain ⟨hAt, hLe⟩ := List.max?_eq_some_iff.mp hMax
      obtain ⟨k, -, hk⟩ := (hMem m).mp hAt
      have hSmall := index.id_lt k m hk
      have hvm := hLe v hv
      show v < (m + 1) % 2 ^ 32
      rw [Nat.mod_eq_of_lt hSmall]
      omega
  constructor
  · rintro ⟨v, hv, hIn⟩
    obtain ⟨m, hm, hmv⟩ := (hMem v).mp ((hMask v).mp hIn)
    have hSame : some m = some n :=
      ((index.inverse m v).mp hmv).symm.trans ((index.inverse n v).mp hv)
    obtain rfl := Option.some.inj hSame
    exact ⟨hm, by rw [hv]; rfl⟩
  · rintro ⟨hn, hSome⟩
    obtain ⟨v, hv⟩ := Option.isSome_iff_exists.mp hSome
    exact ⟨v, hv, (hMask v).mpr ((hMem v).mpr ⟨n, hn, hv⟩)⟩

-- ----
-- The scan
-- ----

/-- `k` candidates that are as near as any, the nearest first, or all of them. -/
structure Nearest [LinearOrder F32] (dist : Nat → F32) (candidate : Nat → Prop) (k : Nat)
    (results : List (Nat × F32)) : Prop where
  nodup : (results.map Prod.fst).Nodup
  sound : ∀ r ∈ results, candidate r.1 ∧ r.2 = dist r.1
  length_le : results.length ≤ k
  complete : results.length < k → ∀ n, candidate n → n ∈ results.map Prod.fst
  nearest : ∀ n, candidate n → n ∉ results.map Prod.fst → ∀ r ∈ results, r.2 ≤ dist n
  sorted : results.Pairwise fun r r' => r.2 ≤ r'.2

/-- The search of the index is exact on the vertices that the mask lets through. -/
def ExactSearch [LinearOrder F32] (index : VectorIndex E F32) : Prop :=
  ∀ query k lValue mask shouldPre, ∃ (dist : Nat → F32) (results : List (Nat × F32)),
    index.search query k lValue (some mask) shouldPre = .ok results ∧
    Nearest dist (fun n => ∃ v, index.nodeToVectorId n = some v ∧ mask.containsVector v = true) k
      results

/-- The index is in the graph, the query is a vector of its dimension, and no transaction fails. -/
structure Ready (plan : VectorIndexScan F32 F64) (graph : MemoryGraphView E F32)
    (index : VectorIndex E F32) : Prop where
  inGraph : graph.vectorIndices plan.indexKey = some index
  query : ∃ v, plan.query = some (.vector plan.dimension (some v))
  dimension : plan.dimension = index.dimension
  beginTransaction : graph.beginTransaction = .ok ()
  commit : graph.commit = .ok ()

/-- A scan returns vertices of logical rows only, and all that are indexed if the limit is at
least their number. -/
def RespectsChild (t : IdTranslation) (b : Nat) (cs : List (ValueChunk F32 F64)) (limit : Nat)
    (result : ScanResult E (ValueChunk F32 F64)) : Prop :=
  ∃ chunk, result = .ok chunk ∧
    (∀ id ∈ logicalIds 0 [chunk], id ∈ logicalIds b cs) ∧
    (((logicalIds b cs).filter fun id => (t.nodeToVectorId id).isSome).length ≤ limit →
      ∀ id ∈ logicalIds b cs, (t.nodeToVectorId id).isSome = true → id ∈ logicalIds 0 [chunk])

theorem logicalIds_resultChunk (results : List (Nat × F32)) :
    logicalIds 0 [(resultChunk results : ValueChunk F32 F64)] = results.map Prod.fst := by
  have hAligned : (resultChunk results : ValueChunk F32 F64).Aligned := by
    constructor <;> simp [resultChunk, DataChunk.new, DataChunk.len]
  have hIds : asUInt64 (⟨.scalar (.int .uint64), results.map fun r => .int .uint64 (some r.1)⟩ :
      ValueArray F32 F64) = some (results.map fun r => some r.1) := by
    rw [asUInt64, if_pos rfl, List.mapM_map]
    exact mapM_eq_some fun r _ => rfl
  have hFirst : (resultChunk results : ValueChunk F32 F64).columns[0]? =
      some ⟨.scalar (.int .uint64), results.map fun r => .int .uint64 (some r.1)⟩ := rfl
  have hColumn := ids_of_column hAligned hFirst hIds
  rw [logicalIds, rowsOf_eq_filter, flaggedOf_cons]
  rw [show flaggedOf ([] : List (ValueChunk F32 F64)) = [] from rfl, List.append_nil,
    List.filter_eq_self.mpr (DataChunk.flagged_of_filter_none rfl), List.filterMap_map]
  refine hColumn.symm.trans ?_
  rw [List.filterMap_map, ← List.filterMap_eq_map]
  rfl

section Respects

variable {cs : List (ValueChunk F32 F64)}

/-- No indexed vertex stands in dropped rows alone, and none has an id too large for a bitmap. -/
structure DropsNoVertex (t : IdTranslation) (b : Nat) (cs : List (ValueChunk F32 F64)) : Prop where
  small : ∀ r ∈ flaggedOf cs, ∀ id, idOfRow b r.2 = some id → id + 1 < 2 ^ 63
  dropped : ∀ r ∈ flaggedOf cs, r.1 = false → ∀ id, idOfRow b r.2 = some id →
    (t.nodeToVectorId id).isSome = true → id ∈ logicalIds b cs

theorem DropsNoVertex.logical {t : IdTranslation} (h : DropsNoVertex t b cs) {id : Nat}
    (hId : id ∈ physicalIds b cs) (hIndexed : (t.nodeToVectorId id).isSome = true) :
    id ∈ logicalIds b cs := by
  obtain ⟨r, hr, hRow⟩ := mem_physicalIds.mp hId
  cases hKept : r.1 with
  | true => exact mem_logicalIds.mpr ⟨r, hr, hKept, hRow⟩
  | false => exact h.dropped r hr hKept id hRow hIndexed

/-- As many of a list's members as the list is long are all of them. -/
theorem mem_of_length_le {l ids : List Nat} (hNodup : ids.Nodup) (hSub : ∀ id ∈ ids, id ∈ l)
    (hLength : l.length ≤ ids.length) {id : Nat} (hId : id ∈ l) : id ∈ ids := by
  have hSubset : ids.toFinset ⊆ l.toFinset := by
    intro j hj
    exact List.mem_toFinset.mpr (hSub j (List.mem_toFinset.mp hj))
  have hCard : l.toFinset.card ≤ ids.toFinset.card := by
    rw [List.toFinset_card_of_nodup hNodup]
    exact (List.toFinset_card_le l).trans hLength
  have hEq := Finset.eq_of_subset_of_card_le hSubset hCard
  exact List.mem_toFinset.mp (hEq ▸ List.mem_toFinset.mpr hId)

/-- Once the bitmap is there, the scan gives what the search finds. -/
theorem executeScan_search {plan : VectorIndexScan F32 F64} {graph : MemoryGraphView E F32}
    {index : VectorIndex E F32} (hReady : Ready plan graph index)
    {child : Stream E ArrayType (Value F32 F64)} {bits : List Bool}
    (hBits : consumeChildBitmap b child = .ok (some bits)) (hLimit : plan.limit ≠ 0) :
    ∃ v lValue, ∀ results,
      index.search v plan.limit lValue (some (filterMaskOf bits index)) plan.approximate =
        .ok results →
      executeScan plan (.ok graph) b child =
        .ok (resultChunk (results.map fun r => (r.1, graph.sqrt r.2))) := by
  obtain ⟨v, hQuery⟩ := hReady.query
  refine ⟨v, max defaultLValue (plan.limit % 2 ^ 32), fun results hSearch => ?_⟩
  have hVectorSearch : vectorSearch graph plan.indexKey plan.dimension v plan.limit
      (max defaultLValue (plan.limit % 2 ^ 32)) (some bits) plan.approximate =
      .ok (results.map fun r => (r.1, graph.sqrt r.2)) := by
    simp only [vectorSearch, hReady.inGraph, if_pos hReady.dimension, Option.map_some, hSearch]
  have hScan : scanWithGraph plan graph (some bits) =
      .ok (resultChunk (results.map fun r => (r.1, graph.sqrt r.2))) := by
    simp only [scanWithGraph, hQuery, if_pos, hVectorSearch, ok_bind]
  rw [executeScan, hBits, ok_bind, if_neg hLimit]
  show (ofSession graph.beginTransaction >>= _) = _
  rw [hReady.beginTransaction]
  show (scanWithGraph plan graph (some bits) >>= _) = _
  rw [hScan, hReady.commit]
  rfl

variable [LinearOrder F32]

/-- Where no vertex is dropped and the search is exact, a scan respects its child. -/
theorem scan_respects {t : IdTranslation} (hcs : ∀ c ∈ cs, Bindable b c)
    (hDrops : DropsNoVertex t b cs) {plan : VectorIndexScan F32 F64}
    {graph : MemoryGraphView E F32} {index : VectorIndex E F32}
    (hSame : index.toIdTranslation = t) (hReady : Ready plan graph index)
    (hExact : ExactSearch index) :
    RespectsChild t b cs plan.limit (executeScan plan (.ok graph) b (cs.map .ok)) := by
  subst hSame
  obtain ⟨s, hs, hConsume⟩ := consumeChildBitmap_eq (E := E) hcs
  by_cases hNil : physicalIds b cs = []
  · have hRun : executeScan plan (.ok graph) b (cs.map .ok) = .ok (resultChunk []) := by
      rw [executeScan, hConsume, candidateBitmap_empty hs hNil, ok_bind]
      split <;> rfl
    have hNone : ∀ id, id ∉ logicalIds b cs := by
      intro id hId
      have hPhysical := physical_of_logical hId
      rw [hNil] at hPhysical
      cases hPhysical
    refine ⟨_, hRun, fun id hId => ?_, fun _ id hId => absurd hId (hNone id)⟩
    rw [logicalIds_resultChunk] at hId
    cases hId
  · have hSmall : ∀ id ∈ physicalIds b cs, id + 1 < 2 ^ 63 := by
      intro id hId
      obtain ⟨r, hr, hRow⟩ := mem_physicalIds.mp hId
      exact hDrops.small r hr id hRow
    obtain ⟨bits, hBits, hMem⟩ := candidateBitmap_ok (E := E) hs hNil hSmall
    rw [hBits] at hConsume
    by_cases hLimit : plan.limit = 0
    · have hRun : executeScan plan (.ok graph) b (cs.map .ok) = .ok (resultChunk []) := by
        rw [executeScan, hConsume, ok_bind, if_pos hLimit]
      refine ⟨_, hRun, fun id hId => ?_, fun hLe id hId hIndexed => ?_⟩
      · rw [logicalIds_resultChunk] at hId
        cases hId
      · have hFilter : id ∈ (logicalIds b cs).filter fun id => (index.nodeToVectorId id).isSome :=
          List.mem_filter.mpr ⟨hId, hIndexed⟩
        have hPositive := List.length_pos_of_mem hFilter
        omega
    · obtain ⟨v, lValue, hScan⟩ := executeScan_search hReady hConsume hLimit
      obtain ⟨dist, results, hSearch, hNearest⟩ :=
        hExact v plan.limit lValue (filterMaskOf bits index) plan.approximate
      have hRun := hScan results hSearch
      simp only [candidate_iff] at hNearest
      have hIds : logicalIds 0 [(resultChunk (results.map fun r => (r.1, graph.sqrt r.2)) :
          ValueChunk F32 F64)] = results.map Prod.fst := by
        rw [logicalIds_resultChunk, List.map_map]
        rfl
      have hLogical : ∀ id ∈ results.map Prod.fst, id ∈ logicalIds b cs ∧
          (index.nodeToVectorId id).isSome = true := by
        intro id hId
        obtain ⟨r, hr, rfl⟩ := List.mem_map.mp hId
        obtain ⟨⟨hBit, hIndexed⟩, -⟩ := hNearest.sound r hr
        exact ⟨hDrops.logical ((hMem r.1).mp hBit) hIndexed, hIndexed⟩
      refine ⟨_, hRun, fun id hId => ?_, fun hLe id hId hIndexed => ?_⟩
      · rw [hIds] at hId
        exact (hLogical id hId).1
      · rw [hIds]
        have hCandidate : bits[id]? = some true ∧ (index.nodeToVectorId id).isSome = true :=
          ⟨(hMem id).mpr (physical_of_logical hId), hIndexed⟩
        by_cases hFull : results.length < plan.limit
        · exact hNearest.complete hFull id hCandidate
        · have hMembers : ∀ j ∈ results.map Prod.fst, j ∈ (logicalIds b cs).filter fun id =>
              (index.nodeToVectorId id).isSome := fun j hj => List.mem_filter.mpr (hLogical j hj)
          have hLength : ((logicalIds b cs).filter fun id =>
              (index.nodeToVectorId id).isSome).length ≤ (results.map Prod.fst).length := by
            rw [List.length_map]
            omega
          exact mem_of_length_le hNearest.nodup hMembers hLength
            (List.mem_filter.mpr ⟨hId, hIndexed⟩)

end Respects

-- ----
-- An index that prefers a vertex
-- ----

namespace IdTranslation

variable (t : IdTranslation)

/-- The vertices that a mask lets through. -/
def candidates (mask : FilterMask) : List Nat :=
  (List.range mask.bitmap.length).filterMap fun v =>
    if mask.containsVector v then t.vectorToNode v else none

/-- The candidates, the given vertex first. -/
def ranked (node : Nat) (mask : FilterMask) : List Nat :=
  if node ∈ t.candidates mask then node :: (t.candidates mask).erase node else t.candidates mask

/-- An index that has all its vertices at one distance, and the given one first among them. -/
def preferring (node dimension : Nat) (distance : F32) : VectorIndex E F32 where
  toIdTranslation := t
  dimension := dimension
  search := fun _ k _ filterMask _ =>
    match filterMask with
    | none => .ok []
    | some mask => .ok (((t.ranked node mask).take k).map fun n => (n, distance))

theorem mem_candidates (mask : FilterMask) (n : Nat) : n ∈ t.candidates mask ↔
    ∃ v, t.nodeToVectorId n = some v ∧ mask.containsVector v = true := by
  unfold candidates
  rw [List.mem_filterMap]
  constructor
  · rintro ⟨v, -, hv⟩
    split at hv
    · rename_i hIn
      exact ⟨v, (t.inverse n v).mpr hv, hIn⟩
    · cases hv
  · rintro ⟨v, hv, hIn⟩
    have hBound : v < mask.bitmap.length := by
      by_contra hOut
      rw [FilterMask.containsVector, List.getElem?_eq_none (Nat.le_of_not_lt hOut)] at hIn
      cases hIn
    exact ⟨v, List.mem_range.mpr hBound, by rw [if_pos hIn, (t.inverse n v).mp hv]⟩

theorem nodup_candidates (mask : FilterMask) : (t.candidates mask).Nodup := by
  refine List.nodup_range.filterMap fun v v' n hv hv' => ?_
  have hNode : ∀ u, n ∈ (if mask.containsVector u then t.vectorToNode u else none) →
      t.nodeToVectorId n = some u := by
    intro u hu
    split at hu
    · exact (t.inverse n u).mpr hu
    · cases hu
  exact Option.some.inj ((hNode v hv).symm.trans (hNode v' hv'))

theorem ranked_perm (node : Nat) (mask : FilterMask) :
    (t.ranked node mask).Perm (t.candidates mask) := by
  unfold ranked
  split
  · rename_i hMem
    exact (List.perm_cons_erase hMem).symm
  · exact .refl _

theorem preferring_exact [LinearOrder F32] (node dimension : Nat) (distance : F32) :
    ExactSearch (t.preferring node dimension distance : VectorIndex E F32) := by
  intro query k lValue mask shouldPre
  have hIds : (((t.ranked node mask).take k).map fun n => (n, distance)).map Prod.fst =
      (t.ranked node mask).take k := by
    rw [List.map_map]
    exact List.map_id _
  refine ⟨fun _ => distance, _, rfl, ?_, ?_, ?_, ?_, ?_, ?_⟩
  · rw [hIds]
    exact ((t.ranked_perm node mask).nodup_iff.mpr (t.nodup_candidates mask)).sublist
      (List.take_sublist k _)
  · intro r hr
    obtain ⟨n, hn, rfl⟩ := List.mem_map.mp hr
    have hMem := (t.ranked_perm node mask).mem_iff.mp (List.mem_of_mem_take hn)
    exact ⟨(t.mem_candidates mask n).mp hMem, rfl⟩
  · rw [List.length_map, List.length_take]
    omega
  · intro hShort n hn
    rw [List.length_map, List.length_take] at hShort
    rw [hIds, List.take_of_length_le (by omega)]
    exact (t.ranked_perm node mask).mem_iff.mpr ((t.mem_candidates mask n).mpr hn)
  · intro n _ _ r hr
    obtain ⟨m, -, rfl⟩ := List.mem_map.mp hr
    exact le_refl _
  · exact List.pairwise_map.mpr (List.pairwise_iff_forall_sublist.mpr fun _ => le_refl _)

end IdTranslation

-- ----
-- When the scan respects its child
-- ----

section Iff

variable [LinearOrder F32] [Inhabited F32] {cs : List (ValueChunk F32 F64)}

/-- A graph with one index for every key, over distances that need no root. -/
def graphOf (index : VectorIndex E F32) : MemoryGraphView E F32 where
  vectorIndices := fun _ => some index
  sqrt := id
  beginTransaction := .ok ()
  commit := .ok ()

/-- A plan with the empty vector for its query. -/
def planOf (limit : Nat) : VectorIndexScan F32 F64 where
  indexKey := (0, 0)
  query := some (.vector 0 (some []))
  dimension := 0
  limit := limit
  approximate := true

omit [LinearOrder F32] in
theorem ready_preferring (t : IdTranslation) (node limit : Nat) : Ready
    (planOf limit : VectorIndexScan F32 F64)
    (graphOf (t.preferring node 0 default) : MemoryGraphView E F32)
    (t.preferring node 0 default) where
  inGraph := rfl
  query := ⟨[], rfl⟩
  dimension := rfl
  beginTransaction := rfl
  commit := rfl

/-- **The scan respects its child exactly where no indexed vertex stands in dropped rows alone**,
and no vertex has an id for which there is no bitmap. -/
theorem scan_respects_child_iff (t : IdTranslation) (hcs : ∀ c ∈ cs, Bindable b c) :
    (∀ (plan : VectorIndexScan F32 F64) (graph : MemoryGraphView E F32)
      (index : VectorIndex E F32), index.toIdTranslation = t → Ready plan graph index →
      ExactSearch index →
      RespectsChild t b cs plan.limit (executeScan plan (.ok graph) b (cs.map .ok))) ↔
    DropsNoVertex t b cs := by
  refine ⟨fun h => ?_, fun hDrops plan graph index hSame hReady hExact =>
    scan_respects hcs hDrops hSame hReady hExact⟩
  obtain ⟨s, hs, hConsume⟩ := consumeChildBitmap_eq (E := E) hcs
  have hRespects : ∀ node limit, RespectsChild t b cs limit
      (executeScan (planOf limit) (.ok (graphOf (t.preferring node 0 default : VectorIndex E F32)))
        b (cs.map .ok)) := fun node limit =>
    h (planOf limit) _ _ rfl (ready_preferring t node limit) (t.preferring_exact node 0 default)
  have hSmall : ∀ id ∈ physicalIds b cs, id + 1 < 2 ^ 63 := by
    intro id hId
    by_contra hLarge
    obtain ⟨e, hFails⟩ := candidateBitmap_fails (E := E) hs hId (Nat.le_of_not_lt hLarge)
    obtain ⟨chunk, hOk, -⟩ := hRespects 0 0
    rw [executeScan, hConsume, hFails] at hOk
    cases hOk
  refine ⟨fun r hr id hId => hSmall id (mem_physicalIds.mpr ⟨r, hr, hId⟩), ?_⟩
  intro r hr hDropped id hId hIndexed
  have hPhysical : id ∈ physicalIds b cs := mem_physicalIds.mpr ⟨r, hr, hId⟩
  obtain ⟨bits, hBits, hMem⟩ :=
    candidateBitmap_ok (E := E) hs (List.ne_nil_of_mem hPhysical) hSmall
  rw [hBits] at hConsume
  -- the index prefers the dropped vertex, and one vertex is asked for
  have hReady : Ready (planOf 1 : VectorIndexScan F32 F64)
      (graphOf (t.preferring id 0 default) : MemoryGraphView E F32) (t.preferring id 0 default) :=
    ready_preferring t id 1
  obtain ⟨v, lValue, hScan⟩ := executeScan_search hReady hConsume Nat.one_ne_zero
  have hCandidate : id ∈ t.candidates (filterMaskOf bits
      (t.preferring id 0 default : VectorIndex E F32)) := by
    have hMask := candidate_iff (t.preferring id 0 default : VectorIndex E F32) bits id
    exact (t.mem_candidates _ id).mpr (hMask.mpr ⟨(hMem id).mpr hPhysical, hIndexed⟩)
  have hRun := hScan [(id, default)] (by
    show Except.ok _ = _
    rw [IdTranslation.ranked, if_pos hCandidate]
    rfl)
  obtain ⟨chunk, hOk, hLogical, -⟩ := hRespects id 1
  obtain rfl := Except.ok.inj (hRun.symm.trans hOk)
  refine hLogical id ?_
  rw [logicalIds_resultChunk]
  exact List.mem_singleton_self id

end Iff

/-- Vertices below ten, each with itself for its vector id. -/
def tenVertices : IdTranslation where
  nodeToVectorId := fun n => if n < 10 then some n else none
  vectorToNode := fun v => if v < 10 then some v else none
  inverse := fun n v => by
    split <;> split <;> simp <;> omega
  id_lt := fun n v h => by
    split at h
    · obtain rfl := Option.some.inj h
      omega
    · cases h

/-- Rows with the given vertices, and whether each is kept. -/
def bindingRows (rows : List (Nat × Bool)) : ValueChunk Nat Nat where
  columns := [⟨.scalar (.int .uint64), rows.map fun r => .int .uint64 (some r.1)⟩]
  filter := some (rows.map Prod.snd)
  curIdx := some 0

theorem bindable_bindingRows (rows : List (Nat × Bool)) : Bindable 0 (bindingRows rows) where
  aligned := by constructor <;> simp [bindingRows, DataChunk.len]
  column := fun _ => ⟨_, rows.map fun r => some r.1, rfl, by
    rw [asUInt64, if_pos rfl, List.mapM_map]
    exact mapM_eq_some fun r _ => rfl⟩

/-- Vertex 1 is in two rows, one of which the filter drops. -/
theorem scan_respects_duplicate : RespectsChild tenVertices 0
    [bindingRows [(1, true), (2, true), (1, false)]] 2
    (executeScan (E := Unit) (planOf 2) (.ok (graphOf (tenVertices.preferring 1 0 0))) 0
      [.ok (bindingRows [(1, true), (2, true), (1, false)])]) := by
  have hcs : ∀ c ∈ [bindingRows [(1, true), (2, true), (1, false)]], Bindable 0 c := by
    intro c hc
    obtain rfl := List.mem_singleton.mp hc
    exact bindable_bindingRows _
  have hDrops : DropsNoVertex tenVertices 0 [bindingRows [(1, true), (2, true), (1, false)]] := by
    constructor <;> decide
  exact (scan_respects_child_iff tenVertices hcs).mpr hDrops (planOf 2) _ _ rfl
    (ready_preferring tenVertices 1 2) (tenVertices.preferring_exact 1 0 0)

/-- Vertex 2 is dropped by the filter of the child, and returned. -/
theorem dropped_row_returned :
    ExactSearch (tenVertices.preferring 2 0 0 : VectorIndex Unit Nat) ∧
    executeScan (E := Unit) (planOf 1) (.ok (graphOf (tenVertices.preferring 2 0 0))) 0
      [.ok (bindingRows [(1, true), (2, false)])] = .ok (resultChunk [(2, 0)]) ∧
    2 ∉ logicalIds 0 [bindingRows [(1, true), (2, false)]] :=
  ⟨tenVertices.preferring_exact 2 0 0, by decide +kernel, by decide⟩

end MiniGU
