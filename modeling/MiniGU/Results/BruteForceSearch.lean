import MiniGU.Invariant.FilterMask
import MiniGU.Lib.BoundedHeap
import MiniGU.Lib.Collect
import MiniGU.Model.BruteForceSearch

/-!
# What the search by brute force returns

The heap keeps the `k` nearest of all candidates (`foldlM_keep`), and only then are those dropped
that have no vertex any more. The live candidates that are nearest are returned if and only if no
dead one is among the `k` nearest while a live one is not (`brute_force_search_iff`).
-/

namespace MiniGU

namespace InMemANN

variable {F32 D : Type}

-- ----
-- The candidates with their distances
-- ----

def InMemANNAdapter.live (a : InMemANNAdapter) (v : Nat) : Bool := (a.vectorToNode.get v).isSome

/-- The vertex and the distance of a candidate that is live. -/
def InMemANNAdapter.resultOf (a : InMemANNAdapter) (p : D ×ₗ Nat) : Option (Nat × D) :=
  (a.vectorToNode.get (ofLex p).2).map fun nodeId => (nodeId, (ofLex p).1)

/-- The candidates that have a distance. -/
def scored (inner : DiskANN F32 D) (query : List F32) (l : List Nat) : List (D ×ₗ Nat) :=
  l.filterMap fun v =>
    match inner.distanceTo query v with
    | .ok d => some (toLex (d, v))
    | .error _ => none

section Scored

variable {a : InMemANNAdapter} {inner : DiskANN F32 D} {query : List F32} {l : List Nat}

theorem mem_scored {p : D ×ₗ Nat} : p ∈ scored inner query l ↔
    (ofLex p).2 ∈ l ∧ inner.distanceTo query (ofLex p).2 = .ok (ofLex p).1 := by
  unfold scored
  rw [List.mem_filterMap]
  constructor
  · rintro ⟨v, hv, hSome⟩
    cases hDist : inner.distanceTo query v with
    | error e =>
      rw [hDist] at hSome
      cases hSome
    | ok d =>
      rw [hDist] at hSome
      obtain rfl := Option.some.inj hSome
      exact ⟨hv, hDist⟩
  · rintro ⟨hv, hDist⟩
    refine ⟨_, hv, ?_⟩
    rw [hDist]
    rfl

theorem scored_cons {v : Nat} {d : D} (h : inner.distanceTo query v = .ok d) :
    scored inner query (v :: l) = toLex (d, v) :: scored inner query l := by
  unfold scored
  rw [List.filterMap_cons, h]

theorem map_snd_scored (hAll : ∀ v ∈ l, ∃ d, inner.distanceTo query v = .ok d) :
    ((scored inner query l).map fun p => (ofLex p).2) = l := by
  induction l with
  | nil => rfl
  | cons v l ih =>
    obtain ⟨d, hDist⟩ := hAll v List.mem_cons_self
    rw [scored_cons hDist, List.map_cons, ih fun v' hv' => hAll v' (List.mem_cons_of_mem _ hv')]
    rfl

theorem length_filterMap_resultOf (S : List (D ×ₗ Nat)) :
    (S.filterMap a.resultOf).length = (S.filter fun p => a.live (ofLex p).2).length := by
  rw [List.length_filterMap_eq_countP, List.countP_eq_length_filter]
  congr 1
  refine List.filter_congr fun p _ => ?_
  unfold InMemANNAdapter.resultOf InMemANNAdapter.live
  rw [Option.isSome_map]

/-- The results belong to the live ones of a list, in its order. -/
theorem forall₂_resultOf {S : List (D ×ₗ Nat)}
    (hDist : ∀ p ∈ S, inner.distanceTo query (ofLex p).2 = .ok (ofLex p).1) :
    List.Forall₂ (fun v (r : Nat × D) => a.vectorToNode.get v = some r.1 ∧
      inner.distanceTo query v = .ok r.2)
      ((S.filter fun p => a.live (ofLex p).2).map fun p => (ofLex p).2)
      (S.filterMap a.resultOf) := by
  induction S with
  | nil => exact .nil
  | cons p S ih =>
    have hTail := ih fun q hq => hDist q (List.mem_cons_of_mem _ hq)
    cases hGet : a.vectorToNode.get (ofLex p).2 with
    | none =>
      have hDead : ¬ a.live (ofLex p).2 = true := by
        rw [InMemANNAdapter.live, hGet]
        exact Bool.false_ne_true
      have hNone : a.resultOf p = none := by
        rw [InMemANNAdapter.resultOf, hGet]
        rfl
      rw [List.filter_cons, if_neg hDead, List.filterMap_cons_none hNone]
      exact hTail
    | some n =>
      have hLive : a.live (ofLex p).2 = true := by
        rw [InMemANNAdapter.live, hGet]
        rfl
      have hSome : a.resultOf p = some (n, (ofLex p).1) := by
        rw [InMemANNAdapter.resultOf, hGet]
        rfl
      rw [List.filter_cons, if_pos hLive, List.filterMap_cons_some hSome]
      exact .cons ⟨hGet, hDist p List.mem_cons_self⟩ hTail

end Scored

variable [LinearOrder D]

-- ----
-- The order of the candidates
-- ----

/-- `x` comes before `y`: by distance, then by id. -/
def closer (inner : DiskANN F32 D) (query : List F32) (x y : Nat) : Bool :=
  match inner.distanceTo query x, inner.distanceTo query y with
  | .ok dx, .ok dy => decide (toLex (dx, x) < toLex (dy, y))
  | _, _ => false

/-- How many of the candidates come before `x`. -/
def rank (inner : DiskANN F32 D) (query : List F32) (mask : FilterMask) (x : Nat) : Nat :=
  (mask.iterCandidates.filter fun y => closer inner query y x).length

/-- The `min k n` least of the `n` live candidates, in order and each once, with their vertices and
distances. -/
def IsLeastLive (a : InMemANNAdapter) (inner : DiskANN F32 D) (query : List F32) (k : Nat)
    (mask : FilterMask) (results : List (Nat × D)) : Prop :=
  ∃ l : List Nat,
    (l.Pairwise fun x y => closer inner query x y = true) ∧
    (∀ v ∈ l, v ∈ mask.iterCandidates ∧ a.live v = true) ∧
    l.length = min k (mask.iterCandidates.filter a.live).length ∧
    (∀ x ∈ l, ∀ y ∈ mask.iterCandidates, a.live y = true → y ∉ l →
      closer inner query x y = true) ∧
    List.Forall₂ (fun v (r : Nat × D) => a.vectorToNode.get v = some r.1 ∧
      inner.distanceTo query v = .ok r.2) l results

/-- No dead candidate is among the `k` nearest while a live one is not. -/
def NoDeadBefore (a : InMemANNAdapter) (inner : DiskANN F32 D) (query : List F32) (k : Nat)
    (mask : FilterMask) : Prop :=
  ∀ x ∈ mask.iterCandidates, ∀ y ∈ mask.iterCandidates, a.live x = false → a.live y = true →
    rank inner query mask x < k → rank inner query mask y < k

section Loop

variable {inner : DiskANN F32 D} {query : List F32} {l : List Nat}

theorem closer_eq {p q : D ×ₗ Nat} (hp : p ∈ scored inner query l) (hq : q ∈ scored inner query l) :
    closer inner query (ofLex p).2 (ofLex q).2 = decide (p < q) := by
  unfold closer
  rw [(mem_scored.mp hp).2, (mem_scored.mp hq).2]
  rfl

-- ----
-- The loop
-- ----

/-- An element that comes after all ids in the heap is kept or not by its distance alone. -/
theorem keep_eq_offer {heap : BinaryHeap D} {d : D} {v : Nat} (k : Nat)
    (hBefore : ∀ m ∈ heap, (ofLex m).2 < v) :
    BinaryHeap.keep k heap d v = offer k heap (toLex (d, v)) := by
  unfold BinaryHeap.keep offer BinaryHeap.peek
  by_cases hRoom : heap.length < k
  · rw [if_pos hRoom, if_pos hRoom]
    rfl
  · rw [if_neg hRoom, if_neg hRoom]
    cases hLast : heap.getLast? with
    | none => rfl
    | some m =>
      have hId := hBefore m (List.mem_of_getLast? hLast)
      have hTest : d < (ofLex m).1 ↔ toLex (d, v) < m := by
        rw [Prod.Lex.lt_iff]
        refine ⟨.inl, fun h => ?_⟩
        rcases h with h | ⟨-, h⟩
        · exact h
        · exact absurd h (Nat.lt_asymm hId)
      show (if d < (ofLex m).1 then _ else _) = if toLex (d, v) < m then _ else _
      by_cases hLess : d < (ofLex m).1
      · rw [if_pos hLess, if_pos (hTest.mp hLess)]
        rfl
      · rw [if_neg hLess, if_neg fun h => hLess (hTest.mpr h)]

theorem mem_of_mem_offer {k : Nat} {heap : List (D ×ₗ Nat)} {x m : D ×ₗ Nat}
    (h : m ∈ offer k heap x) : m = x ∨ m ∈ heap := by
  unfold offer at h
  split at h
  · exact (List.mem_orderedInsert _).mp h
  · split at h
    · split at h
      · rcases (List.mem_orderedInsert _).mp h with hx | hOld
        · exact .inl hx
        · exact .inr ((List.dropLast_sublist heap).subset hOld)
      · exact .inr h
    · exact .inr h

/-- **The loop**: over candidates in ascending order it offers each to the bounded heap. -/
theorem foldlM_keep {heap : BinaryHeap D} (k : Nat) (hIncreasing : l.Pairwise (· < ·))
    (hBefore : ∀ m ∈ heap, ∀ v ∈ l, (ofLex m).2 < v)
    (hAll : ∀ v ∈ l, ∃ d, inner.distanceTo query v = .ok d) :
    (l.foldlM (fun heap vectorId => do
      let distance ← inner.distanceTo query vectorId
      return BinaryHeap.keep k heap distance vectorId) heap) =
      .ok ((scored inner query l).foldl (offer k) heap) := by
  induction l generalizing heap with
  | nil => rfl
  | cons v l ih =>
    obtain ⟨d, hDist⟩ := hAll v List.mem_cons_self
    obtain ⟨hFirst, hRest⟩ := List.pairwise_cons.mp hIncreasing
    have hKeep := keep_eq_offer (d := d) k fun m hm => hBefore m hm v List.mem_cons_self
    have hNext : ∀ m ∈ offer k heap (toLex (d, v)), ∀ v' ∈ l, (ofLex m).2 < v' := by
      intro m hm v' hv'
      rcases mem_of_mem_offer hm with rfl | hOld
      · exact hFirst v' hv'
      · exact hBefore m hOld v' (List.mem_cons_of_mem _ hv')
    rw [List.foldlM_cons, hDist, ok_bind]
    show ((Except.ok (BinaryHeap.keep k heap d v) : Except VectorIndexError _) >>= _) = _
    rw [ok_bind, hKeep, scored_cons hDist, List.foldl_cons]
    exact ih hRest hNext fun v' hv' => hAll v' (List.mem_cons_of_mem _ hv')

/-- A loop that ends has found a distance for every candidate. -/
theorem distances_of_foldlM {k : Nat} {heap heap' : BinaryHeap D}
    (h : (l.foldlM (fun heap vectorId => do
      let distance ← inner.distanceTo query vectorId
      return BinaryHeap.keep k heap distance vectorId) heap) = .ok heap') :
    ∀ v ∈ l, ∃ d, inner.distanceTo query v = .ok d := by
  induction l generalizing heap with
  | nil => exact fun v hv => (nomatch hv)
  | cons v l ih =>
    rw [List.foldlM_cons] at h
    cases hDist : inner.distanceTo query v with
    | error e =>
      rw [hDist] at h
      cases h
    | ok d =>
      rw [hDist, ok_bind] at h
      intro v' hv'
      rcases List.mem_cons.mp hv' with rfl | hv'
      · exact ⟨d, hDist⟩
      · exact ih h v' hv'

end Loop

-- ----
-- What is returned
-- ----

section Search

variable {a : InMemANNAdapter} {inner : DiskANN F32 D} {query : List F32} {k : Nat}
  {mask : FilterMask}

/-- The candidates of the mask, nearest first. -/
def ordered (inner : DiskANN F32 D) (query : List F32) (mask : FilterMask) : List (D ×ₗ Nat) :=
  (scored inner query mask.iterCandidates).insertionSort (· ≤ ·)

theorem mem_ordered {p : D ×ₗ Nat} :
    p ∈ ordered inner query mask ↔ p ∈ scored inner query mask.iterCandidates :=
  List.mem_insertionSort _

theorem pairwise_ordered (hIncreasing : mask.iterCandidates.Pairwise (· < ·))
    (hAll : ∀ v ∈ mask.iterCandidates, ∃ d, inner.distanceTo query v = .ok d) :
    (ordered inner query mask).Pairwise (· < ·) := by
  have hNodup : (ordered inner query mask).Nodup := by
    refine (List.perm_insertionSort _ _).nodup_iff.mpr (List.Nodup.of_map (fun p => (ofLex p).2) ?_)
    rw [map_snd_scored hAll]
    exact hIncreasing.imp fun h => Nat.ne_of_lt h
  have hSorted : (ordered inner query mask).Pairwise (· ≤ ·) := List.pairwise_insertionSort _ _
  exact (hSorted.and hNodup).imp fun h => lt_of_le_of_ne h.1 h.2

theorem length_filter_ordered (hAll : ∀ v ∈ mask.iterCandidates, ∃ d, inner.distanceTo query v = .ok d)
    (f : Nat → Bool) : (mask.iterCandidates.filter f).length =
      ((ordered inner query mask).filter fun p => f (ofLex p).2).length := by
  have hPerm := (List.perm_insertionSort (· ≤ ·) (scored inner query mask.iterCandidates)).filter
    fun p => f (ofLex p).2
  conv_lhs => rw [← map_snd_scored hAll]
  rw [List.filter_map, List.length_map]
  exact hPerm.length_eq.symm

theorem rank_eq (hAll : ∀ v ∈ mask.iterCandidates, ∃ d, inner.distanceTo query v = .ok d)
    {p : D ×ₗ Nat} (hp : p ∈ ordered inner query mask) :
    rank inner query mask (ofLex p).2 =
      ((ordered inner query mask).filter fun q => decide (q < p)).length := by
  unfold rank
  rw [length_filter_ordered hAll]
  congr 1
  exact List.filter_congr fun q hq => closer_eq (mem_ordered.mp hq) (mem_ordered.mp hp)

/-- **The search takes the `k` nearest and then drops the dead ones.** -/
theorem bruteForceSearch_eq (hk : k ≠ 0) (hRoom : 8 * k < 2 ^ 63)
    (hIncreasing : mask.iterCandidates.Pairwise (· < ·))
    (hAll : ∀ v ∈ mask.iterCandidates, ∃ d, inner.distanceTo query v = .ok d) :
    a.bruteForceSearch inner query k mask =
      some (.ok (((ordered inner query mask).take k).filterMap a.resultOf)) := by
  unfold InMemANNAdapter.bruteForceSearch
  rw [if_neg hk, if_neg (Nat.not_le.mpr hRoom),
    foldlM_keep k hIncreasing (fun m hm => absurd hm List.not_mem_nil) hAll, foldl_offer, ok_bind]
  show some (Except.ok (List.filterMap _ (List.map ofLex _))) = _
  rw [List.filterMap_map]
  rfl

-- ----
-- When the result is what is asked for
-- ----

/-- Selecting first loses nothing exactly when no dead candidate stands before a live one across
the limit. -/
theorem noDeadBefore_iff (hIncreasing : mask.iterCandidates.Pairwise (· < ·))
    (hAll : ∀ v ∈ mask.iterCandidates, ∃ d, inner.distanceTo query v = .ok d) :
    NoDeadBefore a inner query k mask ↔
      (((ordered inner query mask).take k).filter fun p => a.live (ofLex p).2).length =
        min k (mask.iterCandidates.filter a.live).length := by
  have hSorted := pairwise_ordered hIncreasing hAll
  have hTake : ∀ p ∈ ordered inner query mask,
      (p ∈ (ordered inner query mask).take k ↔ rank inner query mask (ofLex p).2 < k) := by
    intro p hp
    rw [mem_take_iff_rank hSorted hp, rank_eq hAll hp]
  rw [length_filter_ordered hAll, length_filter_take_eq_min_iff]
  constructor
  · intro hNone p hp q hq hDead
    by_contra hLive
    have hpMem := List.mem_of_mem_take hp
    have hqMem := List.mem_of_mem_drop hq
    have hRank := hNone (ofLex p).2 (mem_scored.mp (mem_ordered.mp hpMem)).1 (ofLex q).2
      (mem_scored.mp (mem_ordered.mp hqMem)).1 hDead (by simpa using hLive) ((hTake p hpMem).mp hp)
    have hSplit := hSorted
    rw [← List.take_append_drop k (ordered inner query mask), List.pairwise_append] at hSplit
    exact lt_irrefl q (hSplit.2.2 q ((hTake q hqMem).mpr hRank) q hq)
  · intro hAcross x hx y hy hDead hLive hRank
    obtain ⟨dx, hdx⟩ := hAll x hx
    obtain ⟨dy, hdy⟩ := hAll y hy
    have hp : toLex (dx, x) ∈ ordered inner query mask := mem_ordered.mpr (mem_scored.mpr ⟨hx, hdx⟩)
    have hq : toLex (dy, y) ∈ ordered inner query mask := mem_ordered.mpr (mem_scored.mpr ⟨hy, hdy⟩)
    by_contra hFar
    have hDrop : toLex (dy, y) ∈ (ordered inner query mask).drop k := by
      rw [← List.take_append_drop k (ordered inner query mask)] at hq
      refine (List.mem_append.mp hq).resolve_left fun hIn => hFar ?_
      exact (hTake _ (List.mem_of_mem_take hIn)).mp hIn
    have hFails := hAcross _ ((hTake _ hp).mpr hRank) _ hDrop hDead
    exact Bool.false_ne_true (hFails.symm.trans hLive)

/-- The live ones among the `k` nearest are the least live ones when there are enough of them. -/
theorem isLeastLive_of_length (hIncreasing : mask.iterCandidates.Pairwise (· < ·))
    (hAll : ∀ v ∈ mask.iterCandidates, ∃ d, inner.distanceTo query v = .ok d)
    (hLength : (((ordered inner query mask).take k).filter fun p => a.live (ofLex p).2).length =
      min k (mask.iterCandidates.filter a.live).length) :
    IsLeastLive a inner query k mask
      (((ordered inner query mask).take k).filterMap a.resultOf) := by
  have hSorted := pairwise_ordered hIncreasing hAll
  have hMem : ∀ p ∈ (ordered inner query mask).take k,
      p ∈ scored inner query mask.iterCandidates := fun p hp =>
    mem_ordered.mp (List.mem_of_mem_take hp)
  refine ⟨(((ordered inner query mask).take k).filter fun p => a.live (ofLex p).2).map
    fun p => (ofLex p).2, ?_, ?_, ?_, ?_, forall₂_resultOf fun p hp => (mem_scored.mp (hMem p hp)).2⟩
  · -- in order
    rw [List.pairwise_map]
    have hSub : (((ordered inner query mask).take k).filter fun p => a.live (ofLex p).2).Sublist
        (ordered inner query mask) := List.filter_sublist.trans (List.take_sublist ..)
    refine (hSorted.sublist hSub).imp_of_mem fun {p q} hp hq hLess => ?_
    rw [closer_eq (hMem p (List.mem_filter.mp hp).1) (hMem q (List.mem_filter.mp hq).1)]
    exact decide_eq_true hLess
  · intro v hv
    obtain ⟨p, hp, rfl⟩ := List.mem_map.mp hv
    obtain ⟨hTake, hLive⟩ := List.mem_filter.mp hp
    exact ⟨(mem_scored.mp (hMem p hTake)).1, hLive⟩
  · rw [List.length_map]
    exact hLength
  · -- before all that are left out
    intro x hx y hy hLive hOut
    obtain ⟨p, hp, rfl⟩ := List.mem_map.mp hx
    obtain ⟨hTake, -⟩ := List.mem_filter.mp hp
    obtain ⟨d, hDist⟩ := hAll y hy
    have hq : toLex (d, y) ∈ scored inner query mask.iterCandidates := mem_scored.mpr ⟨hy, hDist⟩
    have hDrop : toLex (d, y) ∈ (ordered inner query mask).drop k := by
      have hIn := mem_ordered.mpr hq
      rw [← List.take_append_drop k (ordered inner query mask)] at hIn
      refine (List.mem_append.mp hIn).resolve_left fun hTakeY => hOut ?_
      exact List.mem_map.mpr ⟨_, List.mem_filter.mpr ⟨hTakeY, hLive⟩, rfl⟩
    have hSplit := hSorted
    rw [← List.take_append_drop k (ordered inner query mask), List.pairwise_append] at hSplit
    have hLess := closer_eq (hMem p hTake) hq
    exact hLess.trans (decide_eq_true (hSplit.2.2 p hTake _ hDrop))

/-- **When the search is exact**: for every index, query, limit and mask. -/
theorem brute_force_search_iff (a : InMemANNAdapter) (inner : DiskANN F32 D) (query : List F32)
    (k : Nat) (candidates : List UInt32) (totalVectorNum : Nat) :
    let mask := FilterMask.new (candidates.map UInt32.toNat) totalVectorNum
    (∃ results, a.bruteForceSearch inner query k mask = some (.ok results) ∧
      IsLeastLive a inner query k mask results) ↔
    k = 0 ∨ (8 * k < 2 ^ 63 ∧ (∀ v ∈ mask.iterCandidates, inner.Measures query v) ∧
      NoDeadBefore a inner query k mask) := by
  intro mask
  simp only [← DiskANN.distance_iff]
  have hIncreasing : mask.iterCandidates.Pairwise (· < ·) :=
    FilterMask.pairwise_iterCandidates_new candidates totalVectorNum
  constructor
  · rintro ⟨results, hSearch, hLeast⟩
    by_cases hk : k = 0
    · exact .inl hk
    · have hParts := hSearch
      unfold InMemANNAdapter.bruteForceSearch at hParts
      rw [if_neg hk] at hParts
      split at hParts
      · cases hParts
      · rename_i hRoom
        have hRoom := Nat.not_le.mp hRoom
        have hAll : ∀ v ∈ mask.iterCandidates, ∃ d, inner.distanceTo query v = .ok d := by
          have hOk := Option.some.inj hParts
          cases hFold : mask.iterCandidates.foldlM (fun heap vectorId => do
              let distance ← inner.distanceTo query vectorId
              return BinaryHeap.keep k heap distance vectorId) ([] : BinaryHeap D) with
          | error e =>
            rw [hFold] at hOk
            cases hOk
          | ok heap => exact distances_of_foldlM hFold
        rw [bruteForceSearch_eq hk hRoom hIncreasing hAll] at hSearch
        obtain rfl := Except.ok.inj (Option.some.inj hSearch)
        obtain ⟨l, -, -, hLength, -, hResults⟩ := hLeast
        have hCount := hResults.length_eq
        rw [length_filterMap_resultOf, hLength] at hCount
        exact .inr ⟨hRoom, hAll, (noDeadBefore_iff hIncreasing hAll).mpr hCount.symm⟩
  · rintro (rfl | ⟨hRoom, hAll, hNone⟩)
    · refine ⟨[], if_pos rfl, [], .nil, fun v hv => (nomatch hv), ?_, fun x hx => (nomatch hx), .nil⟩
      rw [Nat.zero_min]
      rfl
    · by_cases hk : k = 0
      · subst hk
        refine ⟨[], if_pos rfl, [], .nil, fun v hv => (nomatch hv), ?_,
          fun x hx => (nomatch hx), .nil⟩
        rw [Nat.zero_min]
        rfl
      · exact ⟨_, bruteForceSearch_eq hk hRoom hIncreasing hAll,
          isLeastLive_of_length hIncreasing hAll ((noDeadBefore_iff hIncreasing hAll).mp hNone)⟩

end Search

-- ----
-- The nearest candidate is dead
-- ----

/-- Vectors of 128 coordinates, each with one coordinate throughout, room for as many more, and the
squared distance. -/
def constantVectors (coordinates : List Nat) : DiskANN Nat Nat where
  dim := 128
  data := coordinates.flatMap (List.replicate 128) ++ List.replicate (128 * coordinates.length) 0
  distanceL2 query stored :=
    (List.zipWith (fun x y => (x - y) ^ 2 + (y - x) ^ 2) query stored).sum
  supported := .inr (.inl rfl)

/-- Vertices 5 to 8 are indexed as vectors 0 to 3; vertex 5 is deleted again. -/
def indexOfFour : InMemANNAdapter :=
  let built := (InMemANNAdapter.new 128).build
    [(5, List.replicate 128 0), (6, List.replicate 128 1), (7, List.replicate 128 2),
      (8, List.replicate 128 3)] true
  (built.1.softDelete [5] true).1

/-- The one nearest of the four vectors is the deleted one, and nothing is returned. -/
theorem dead_nearest_candidate :
    let mask := FilterMask.new [0, 1, 2, 3] 4
    let query := List.replicate 128 0
    indexOfFour.bruteForceSearch (constantVectors [0, 1, 2, 3]) query 1 mask = some (.ok []) ∧
      ¬ ∃ results, indexOfFour.bruteForceSearch (constantVectors [0, 1, 2, 3]) query 1 mask =
          some (.ok results) ∧
        IsLeastLive indexOfFour (constantVectors [0, 1, 2, 3]) query 1 mask results := by
  intro mask query
  have hSearch : indexOfFour.bruteForceSearch (constantVectors [0, 1, 2, 3]) query 1 mask =
      some (.ok []) := by decide +kernel
  have hLive : (mask.iterCandidates.filter indexOfFour.live).length = 3 := by decide +kernel
  refine ⟨hSearch, ?_⟩
  rintro ⟨results, hOk, l, -, -, hLength, -, hResults⟩
  obtain rfl := Except.ok.inj (Option.some.inj (hSearch.symm.trans hOk))
  have hNone := hResults.length_eq
  rw [hLength, hLive] at hNone
  cases hNone

end InMemANN

end MiniGU
