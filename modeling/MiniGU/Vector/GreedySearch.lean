import Mathlib.Logic.Relation
import MiniGU.Vector.CandidateQueue

/-!
# What a search of the DiskANN index finds

A search for `1 ≤ k ≤ l` points with `2 ≤ l` ends in a local optimum, whatever such searches its
scratch was used for before (`search_finds`): no neighbour of a candidate would be a better one.
Where the list has room for all points the nearest that can be reached are found (`search_exact`).

A search with `l < k` is refused and leaves the scratch alone; one for no points panics where it
finds any.
-/

namespace MiniGU

namespace InMemANN

variable {D : Type} [LinearOrder D] {distance : Nat → D} {ix : InmemIndex} {f : SearchFilter}
  {q : NeighborPriorityQueue D} {s : InMemQueryScratch D} {scored visited seen : List Nat}

/-- What building an index ensures. The search list has room for all nodes a search starts from. -/
structure InmemIndex.Sound (ix : InmemIndex) : Prop where
  start_lt : ix.start < ix.maxPoints
  vectors : ix.maxPoints ≤ ix.vectors
  graph : ix.finalGraph.length = ix.maxPoints
  initial : 2 ≤ ix.searchListSize

/-- What the walk can come to. -/
def InmemIndex.Reaches (ix : InmemIndex) (f : SearchFilter) (id : Nat) : Prop :=
  ∃ first ∈ ix.getInitIds f, Relation.ReflTransGen (fun v w => ∃ row, ix.finalGraph[v]? = some row ∧
    w ∈ row ∧ w < ix.maxPoints ∧ f.accepts w = true) first id

/-- A candidate, or the list is full of nearer ones. -/
def NeighborPriorityQueue.Covers (distance : Nat → D) (q : NeighborPriorityQueue D) (id : Nat) :
    Prop :=
  idKey distance id ∈ q.keys ∨ q.entries.length = q.capacity ∧ ∀ k ∈ q.keys, k < idKey distance id

/-- The least of what has a distance. -/
def nearest (distance : Nat → D) (n : Nat) (scored : List Nat) : List (D ×ₗ Nat) :=
  ((scored.map (idKey distance)).insertionSort (· ≤ ·)).take n

theorem mem_of_mem_nearest {n id : Nat} (h : idKey distance id ∈ nearest distance n scored) :
    id ∈ scored := by
  have hMem := (List.mem_insertionSort _).mp (List.mem_of_mem_take h)
  obtain ⟨id', hId, hEq⟩ := List.mem_map.mp hMem
  rwa [← eq_of_idKey_eq hEq]

/-- What is not among the nearest is behind all of them. -/
theorem mem_nearest_or {n id : Nat} (h : id ∈ scored) : idKey distance id ∈ nearest distance n scored ∨
    (nearest distance n scored).length = n ∧
      ∀ k ∈ nearest distance n scored, k < idKey distance id := by
  have hMem := (List.mem_insertionSort (· ≤ ·)).mpr (List.mem_map_of_mem (f := idKey distance) h)
  have hSorted := List.pairwise_insertionSort (· ≤ ·) (scored.map (idKey distance))
  rw [← List.take_append_drop n (List.insertionSort _ _)] at hMem hSorted
  refine or_iff_not_imp_left.mpr fun hOut => ?_
  have hDrop := (List.mem_append.mp hMem).resolve_left hOut
  have hLength := List.length_pos_of_mem hDrop
  rw [List.length_drop] at hLength
  refine ⟨List.length_take_of_le (by omega), fun k hk => lt_of_le_of_ne ?_ fun hEq => hOut (hEq ▸ hk)⟩
  exact (List.pairwise_append.mp hSorted).2.2 k hk _ hDrop

-- ----
-- The candidates of a search
-- ----

/-- `scored` have been candidates, and `visited` of them have been visited. -/
structure Walk (distance : Nat → D) (scored visited : List Nat) (q : NeighborPriorityQueue D) :
    Prop where
  ordered : q.Ordered distance
  pos : 0 < q.capacity
  keys_eq : q.keys = nearest distance q.capacity scored
  visited_scored : visited ⊆ scored
  marked : ∀ e ∈ q.entries, (e.visited = true ↔ e.id ∈ visited)

theorem Walk.id_mem (hw : Walk distance scored visited q) {e : Neighbor D} (he : e ∈ q.entries) :
    e.id ∈ scored := by
  have hKey : e.key ∈ q.keys := List.mem_map_of_mem he
  rw [hw.keys_eq, hw.ordered.key_eq he] at hKey
  exact mem_of_mem_nearest hKey

theorem Walk.covers (hw : Walk distance scored visited q) {id : Nat} (h : id ∈ scored) :
    q.Covers distance id := by
  unfold NeighborPriorityQueue.Covers
  rw [← List.length_map (f := Neighbor.key)]
  change _ ∨ q.keys.length = _ ∧ _
  rw [hw.keys_eq]
  exact mem_nearest_or h

theorem Walk.consider (hw : Walk distance scored visited q) {id : Nat} (hLt : id < ix.vectors)
    (hNew : id ∉ scored) : ∃ q', ix.consider distance q id = .ok q' ∧
      Walk distance (id :: scored) visited q' ∧ q'.capacity = q.capacity := by
  have hFresh : idKey distance id ∉ q.keys := by
    rw [hw.keys_eq]
    exact fun h => hNew (mem_of_mem_nearest h)
  obtain ⟨q', hInsert, hq'⟩ := NeighborPriorityQueue.insert_spec hw.ordered hw.pos hFresh
  refine ⟨q', (if_neg (Nat.not_le.mpr hLt)).trans hInsert, ⟨hq'.ordered, hq'.capacity_eq ▸ hw.pos,
    ?_, List.subset_cons_of_subset _ hw.visited_scored, ?_⟩, hq'.capacity_eq⟩
  · rw [hq'.keys_eq, hw.keys_eq, hq'.capacity_eq]
    exact (take_orderedInsert _ _ _).symm
  · intro e he
    rcases hq'.entry e he with he | rfl
    · exact hw.marked e he
    · exact ⟨fun h => absurd h Bool.false_ne_true, fun h => absurd (hw.visited_scored h) hNew⟩

variable (ix) in
theorem Walk.considerAll (ids : List Nat) : ∀ {scored : List Nat} {q : NeighborPriorityQueue D},
    Walk distance scored visited q → ids.Nodup → (∀ id ∈ ids, id < ix.vectors ∧ id ∉ scored) →
    ∃ q', ids.foldlM (ix.consider distance) q = .ok q' ∧
      Walk distance (ids.reverse ++ scored) visited q' ∧ q'.capacity = q.capacity := by
  induction ids with
  | nil => exact fun hw _ _ => ⟨_, rfl, hw, rfl⟩
  | cons id ids ih =>
    intro scored q hw hNodup hIds
    obtain ⟨hId, hRest⟩ := List.forall_mem_cons.mp hIds
    obtain ⟨hNotMem, hNodup⟩ := List.nodup_cons.mp hNodup
    obtain ⟨q₁, hOne, hw₁, hCapacity⟩ := hw.consider hId.1 hId.2
    obtain ⟨q', hAll, hw', hCapacity'⟩ := ih hw₁ hNodup fun id' h =>
      ⟨(hRest id' h).1, fun hMem => (List.mem_cons.mp hMem).elim (fun hEq => hNotMem (hEq ▸ h))
        (hRest id' h).2⟩
    refine ⟨q', ?_, ?_, hCapacity'.trans hCapacity⟩
    · rw [List.foldlM_cons, hOne]
      exact hAll
    · rwa [List.reverse_cons, List.append_assoc]

variable (ix) in
theorem unseen_spec (l : List Nat) : ∀ seen, (ix.unseen seen l).Nodup ∧
    ∀ id, id ∈ ix.unseen seen l ↔ id ∈ l ∧ id < ix.maxPoints ∧ id ∉ seen := by
  induction l with
  | nil => exact fun seen => ⟨List.nodup_nil, fun id => by simp [InmemIndex.unseen]⟩
  | cons x l ih =>
    intro seen
    unfold InmemIndex.unseen
    by_cases h : ix.maxPoints ≤ x ∨ x ∈ seen
    · rw [if_pos h]
      refine ⟨(ih seen).1, fun id => ((ih seen).2 id).trans ?_⟩
      grind
    · rw [if_neg h]
      obtain ⟨hNodup, hMem⟩ := ih (x :: seen)
      refine ⟨List.nodup_cons.mpr ⟨fun hx => ((hMem x).mp hx).2.2 List.mem_cons_self, hNodup⟩,
        fun id => ?_⟩
      rw [List.mem_cons, hMem]
      grind

-- ----
-- The search
-- ----

/-- What holds between visits: everything acceptable that was seen has been a candidate. -/
structure Settled (ix : InmemIndex) (f : SearchFilter) (scored visited seen : List Nat) : Prop where
  scored_seen : scored ⊆ seen
  reached : ∀ id ∈ scored, ix.Reaches f id
  inRange : ∀ id ∈ seen, id < ix.maxPoints
  accepted : ∀ id ∈ seen, f.accepts id = true → id ∈ scored
  closed : ∀ v ∈ visited, ∀ row, ix.finalGraph[v]? = some row → ∀ id ∈ row,
    id < ix.maxPoints → f.accepts id = true → id ∈ scored

/-- The candidates after the nearest that was not visited is marked: the others have other ids. -/
theorem Walk.mark (hw : Walk distance scored visited q) {best : NeighborPriorityQueue D}
    {before after : List (Neighbor D)} {nbr : Neighbor D}
    (hEntries : q.entries = before ++ nbr :: after) (hOrdered : best.Ordered distance)
    (hCapacity : best.capacity = q.capacity) (hKeys : best.keys = q.keys)
    (hMarked : best.entries = before ++ { nbr with visited := true } :: after) :
    Walk distance scored (nbr.id :: visited) best := by
  have hNbr : nbr ∈ q.entries := hEntries ▸ List.mem_append_right _ List.mem_cons_self
  refine ⟨hOrdered, hCapacity ▸ hw.pos, by rw [hKeys, hw.keys_eq, hCapacity],
    List.cons_subset.mpr ⟨hw.id_mem hNbr, hw.visited_scored⟩, ?_⟩
  have hNodup : q.keys.Nodup := hw.ordered.sorted.imp ne_of_lt
  unfold NeighborPriorityQueue.keys at hNodup
  rw [hEntries, List.map_append, List.map_cons, List.nodup_middle, List.nodup_cons,
    ← List.map_append] at hNodup
  intro e he
  rw [hMarked] at he
  rcases List.mem_cons.mp (List.perm_middle.mem_iff.mp he) with rfl | he
  · exact ⟨fun _ => List.mem_cons_self, fun _ => rfl⟩
  have hOld : e ∈ q.entries :=
    hEntries ▸ List.perm_middle.mem_iff.mpr (List.mem_cons_of_mem _ he)
  have hApart : e.id ≠ nbr.id := fun hEq => hNodup.1 (List.mem_map.mpr ⟨e, he, by
    rw [hw.ordered.key_eq hOld, hw.ordered.key_eq hNbr, hEq]⟩)
  rw [List.mem_cons, or_iff_right hApart]
  exact hw.marked e hOld

/-- A visit of `v` makes candidates of what it leads to. -/
theorem Settled.visit (hs : Settled ix f scored visited seen) {v : Nat} {row : List Nat}
    (hv : v ∈ scored) (hRow : ix.finalGraph[v]? = some row) :
    Settled ix f (((ix.unseen seen row).filter f.accepts).reverse ++ scored) (v :: visited)
      (ix.unseen seen row ++ seen) := by
  obtain ⟨-, hFresh⟩ := unseen_spec ix row seen
  refine ⟨?_, ?_, ?_, ?_, ?_⟩
  · intro id h
    rcases List.mem_append.mp h with h | h
    · exact List.mem_append_left _ (List.mem_of_mem_filter (List.mem_reverse.mp h))
    · exact List.mem_append_right _ (hs.scored_seen h)
  · intro id h
    rcases List.mem_append.mp h with h | h
    · obtain ⟨hId, hAccepts⟩ := List.mem_filter.mp (List.mem_reverse.mp h)
      obtain ⟨hIn, hLt, -⟩ := (hFresh id).mp hId
      obtain ⟨first, hFirst, hPath⟩ := hs.reached _ hv
      exact ⟨first, hFirst, hPath.tail ⟨row, hRow, hIn, hLt, hAccepts⟩⟩
    · exact hs.reached id h
  · intro id h
    rcases List.mem_append.mp h with h | h
    · exact ((hFresh id).mp h).2.1
    · exact hs.inRange id h
  · intro id h hAccepts
    rcases List.mem_append.mp h with h | h
    · exact List.mem_append_left _ (List.mem_reverse.mpr (List.mem_filter.mpr ⟨h, hAccepts⟩))
    · exact List.mem_append_right _ (hs.accepted id h hAccepts)
  · intro w hw row' hRow' id hId hLt hAccepts
    rcases List.mem_cons.mp hw with rfl | hw
    · obtain rfl := Option.some.inj (hRow.symm.trans hRow')
      by_cases hOld : id ∈ seen
      · exact List.mem_append_right _ (hs.accepted id hOld hAccepts)
      · exact List.mem_append_left _ (List.mem_reverse.mpr
          (List.mem_filter.mpr ⟨(hFresh id).mpr ⟨hId, hLt, hOld⟩, hAccepts⟩))
    · exact List.mem_append_right _ (hs.closed w hw row' hRow' id hId hLt hAccepts)

/-- A visit expands the nearest candidate, which was not visited before. -/
theorem Walk.visit (hIx : ix.Sound) (hw : Walk distance scored visited s.bestCandidates)
    (hs : Settled ix f scored visited s.nodeVisited)
    (hNext : s.bestCandidates.hasNotvisitedNode = true) :
    ∃ nbr len s' scored', ix.visit distance f s = .ok (nbr, len, s') ∧ nbr.id ∉ visited ∧
      Walk distance scored' (nbr.id :: visited) s'.bestCandidates ∧
      Settled ix f scored' (nbr.id :: visited) s'.nodeVisited ∧ scored ⊆ scored' ∧
      s'.bestCandidates.capacity = s.bestCandidates.capacity := by
  obtain ⟨before, nbr, after, best, hEntries, hNew, hClosest, hOrdered, hCapacity, hKeys,
    hMarked⟩ := NeighborPriorityQueue.closest_spec hw.ordered hNext
  have hNbr : nbr ∈ s.bestCandidates.entries :=
    hEntries ▸ List.mem_append_right _ List.mem_cons_self
  have hScored := hw.id_mem hNbr
  have hOut : nbr.id ∉ visited := fun h => by
    rw [(hw.marked nbr hNbr).mpr h] at hNew
    cases hNew
  obtain ⟨row, hRow⟩ : ∃ row, ix.finalGraph[nbr.id]? = some row :=
    ⟨_, List.getElem?_eq_getElem (hIx.graph ▸ hs.inRange _ (hs.scored_seen hScored))⟩
  obtain ⟨hNodup, hFresh⟩ := unseen_spec ix row s.nodeVisited
  obtain ⟨best', hFold, hWalk', hCapacity'⟩ :=
    (hw.mark hEntries hOrdered hCapacity hKeys hMarked).considerAll ix
      ((ix.unseen s.nodeVisited row).filter f.accepts) (hNodup.filter _) fun id h => by
        have hId := (hFresh id).mp (List.mem_of_mem_filter h)
        exact ⟨lt_of_lt_of_le hId.2.1 hIx.vectors, fun hOld => hId.2.2 (hs.scored_seen hOld)⟩
  refine ⟨{ nbr with visited := true }, ((ix.unseen s.nodeVisited row).filter f.accepts).length,
    { s with
      bestCandidates := best'
      nodeVisited := ix.unseen s.nodeVisited row ++ s.nodeVisited }, _, ?_, hOut, hWalk',
    hs.visit hScored hRow, List.subset_append_right _ _, hCapacity'.trans hCapacity⟩
  simp only [InmemIndex.visit, hClosest, bind, Except.bind, hRow, orPanic, hFold]
  rfl

/-- A node is visited once, so that a round for every vertex is enough. -/
theorem Walk.greedySearch (hIx : ix.Sound) (fuel : Nat) : ∀ {s : InMemQueryScratch D}
    {scored visited : List Nat}, Walk distance scored visited s.bestCandidates →
    Settled ix f scored visited s.nodeVisited → visited.Nodup →
    ix.maxPoints ≤ visited.length + fuel →
    ∃ nodes cmps s' scored' visited', ix.greedySearch distance f fuel s = .ok (nodes, cmps, s') ∧
      Walk distance scored' visited' s'.bestCandidates ∧
      Settled ix f scored' visited' s'.nodeVisited ∧
      s'.bestCandidates.hasNotvisitedNode = false ∧ scored ⊆ scored' ∧
      s'.bestCandidates.capacity = s.bestCandidates.capacity := by
  induction fuel with
  | zero =>
    intro s scored visited hw hs hNodup hFuel
    cases hNext : s.bestCandidates.hasNotvisitedNode with
    | false =>
      refine ⟨[], 0, s, scored, visited, ?_, hw, hs, hNext, List.Subset.refl _, rfl⟩
      rw [InmemIndex.greedySearch, if_neg (hNext ▸ Bool.false_ne_true)]
    | true =>
      obtain ⟨nbr, -, s', scored', -, hOut, hw', hs', -⟩ := hw.visit hIx hs hNext
      have hRange : nbr.id :: visited ⊆ List.range ix.maxPoints := fun id h =>
        List.mem_range.mpr (hs'.inRange id (hs'.scored_seen (hw'.visited_scored h)))
      have hLength := (List.subperm_of_subset (List.nodup_cons.mpr ⟨hOut, hNodup⟩) hRange).length_le
      rw [List.length_cons, List.length_range] at hLength
      omega
  | succ fuel ih =>
    intro s scored visited hw hs hNodup hFuel
    cases hNext : s.bestCandidates.hasNotvisitedNode with
    | false =>
      refine ⟨[], 0, s, scored, visited, ?_, hw, hs, hNext, List.Subset.refl _, rfl⟩
      rw [InmemIndex.greedySearch, if_neg (hNext ▸ Bool.false_ne_true)]
    | true =>
      obtain ⟨nbr, len, s₁, scored₁, hVisit, hOut, hw₁, hs₁, hSub, hCapacity⟩ :=
        hw.visit hIx hs hNext
      obtain ⟨nodes, cmps, s', scored', visited', hRest, hw', hs', hEnd, hSub', hCapacity'⟩ :=
        ih hw₁ hs₁ (List.nodup_cons.mpr ⟨hOut, hNodup⟩) (by rw [List.length_cons]; omega)
      refine ⟨nbr :: nodes, len + cmps, s', scored', visited', ?_, hw', hs', hEnd,
        List.Subset.trans hSub hSub', hCapacity'.trans hCapacity⟩
      rw [InmemIndex.greedySearch, if_pos hNext]
      simp only [hVisit, bind, Except.bind, hRest]
      rfl

-- ----
-- A whole search
-- ----

/-- A scratch as a search finds it. -/
structure InMemQueryScratch.Cleared (s : InMemQueryScratch D) : Prop where
  entries : s.bestCandidates.entries = []
  cur : s.bestCandidates.cur = 0
  nodeVisited : s.nodeVisited = []
  capacity_lt : s.bestCandidates.capacity < s.bestCandidates.room

theorem getInitIds_spec (hIx : ix.Sound) (f : SearchFilter) :
    (∀ id ∈ ix.getInitIds f, id < ix.maxPoints) ∧ (ix.getInitIds f).length ≤ 2 := by
  have hStart := hIx.start_lt
  unfold InmemIndex.getInitIds
  split
  · exact ⟨fun id h => List.mem_singleton.mp h ▸ hStart, by simp⟩
  · cases hFind : (List.range (ix.maxPoints % 2 ^ 32)).find? f.accepts with
    | none => exact ⟨fun id h => List.mem_singleton.mp h ▸ hStart, by simp⟩
    | some first =>
      have hFirst := List.mem_range.mp (List.mem_of_find?_eq_some hFind)
      have hMod := Nat.mod_le ix.maxPoints (2 ^ 32)
      refine ⟨fun id h => ?_, by simp⟩
      rcases List.mem_cons.mp h with rfl | h
      · exact hStart
      · rw [List.mem_singleton.mp h]
        omega

theorem Walk.setCapacity (hw : Walk distance scored [] q) {l : Nat} (hLe : scored.length ≤ q.capacity)
    (hl : scored.length ≤ l) (hPos : 0 < l) : Walk distance scored [] (q.setCapacity l) := by
  unfold NeighborPriorityQueue.setCapacity
  split
  · rename_i hRoom
    have hAll : ∀ n, scored.length ≤ n → nearest distance n scored =
        (scored.map (idKey distance)).insertionSort (· ≤ ·) := fun n h =>
      List.take_of_length_le (by rw [List.length_insertionSort, List.length_map]; exact h)
    have hKeys : q.keys = nearest distance l scored := by rw [hw.keys_eq, hAll _ hLe, hAll _ hl]
    have hLength : q.entries.length ≤ l := by
      rw [← List.length_map (f := Neighbor.key)]
      exact (congrArg List.length hKeys).trans_le (List.length_take_le ..)
    exact ⟨⟨hLength, hRoom, hw.ordered.sorted, hw.ordered.keyed, hw.ordered.cur_eq⟩, hPos, hKeys,
      hw.visited_scored, hw.marked⟩
  · exact hw

variable (distance) in
/-- The nodes that a search starts from are candidates. -/
theorem initGraphForPoint_spec (hIx : ix.Sound) (hs : s.Cleared) (f : SearchFilter) :
    ∃ s' scored, ix.initGraphForPoint distance (ix.getInitIds f) s = .ok s' ∧
      Walk distance scored [] s'.bestCandidates ∧ Settled ix f scored [] s'.nodeVisited ∧
      ix.getInitIds f ⊆ scored ∧ scored.length ≤ 2 ∧
      ix.searchListSize ≤ s'.bestCandidates.capacity := by
  obtain ⟨hLt, hLength⟩ := getInitIds_spec hIx f
  obtain ⟨candidateSize, best, nodeVisited⟩ := s
  obtain rfl : nodeVisited = [] := hs.nodeVisited
  obtain ⟨hNodup, hFresh⟩ := unseen_spec ix (ix.getInitIds f) []
  have hInitial := hIx.initial
  obtain ⟨q, hq⟩ : ∃ q, q = best.reserve ix.searchListSize := ⟨_, rfl⟩
  obtain ⟨hEntries, hCur, hCapacity, hRoom⟩ : q.entries = [] ∧ q.cur = 0 ∧
      ix.searchListSize ≤ q.capacity ∧ q.capacity < q.room := by
    rw [hq]
    unfold NeighborPriorityQueue.reserve
    split
    · exact ⟨hs.entries, hs.cur, le_refl _, Nat.lt_succ_self _⟩
    · exact ⟨hs.entries, hs.cur, by omega, hs.capacity_lt⟩
  have hKeys : q.keys = [] := congrArg (List.map Neighbor.key) hEntries
  have hStart : Walk distance [] [] q := by
    refine ⟨⟨by rw [hEntries]; exact Nat.zero_le _, hRoom, hKeys ▸ List.Pairwise.nil,
      (by rw [hKeys]; exact fun k hk => absurd hk List.not_mem_nil), by rw [hEntries]; exact hCur⟩,
      by omega, hKeys.trans List.take_nil.symm, List.Subset.refl _, fun e he => ?_⟩
    rw [hEntries] at he
    cases he
  obtain ⟨q', hFold, hWalk, hCapacity'⟩ := hStart.considerAll ix
    (ix.unseen [] (ix.getInitIds f)) hNodup fun id h =>
      ⟨lt_of_lt_of_le ((hFresh id).mp h).2.1 hIx.vectors, List.not_mem_nil⟩
  rw [List.append_nil] at hWalk
  refine ⟨⟨candidateSize, q', ix.unseen [] (ix.getInitIds f) ++ []⟩, _, ?_, hWalk, ⟨?_, ?_, ?_, ?_,
    fun v hv => absurd hv List.not_mem_nil⟩, ?_, ?_, hCapacity' ▸ hCapacity⟩
  · have hNone : (ix.getInitIds f).find? (fun id => ix.maxPoints ≤ id) = none :=
      List.find?_eq_none.mpr fun id h => by simpa using hLt id h
    simp only [InmemIndex.initGraphForPoint, hNone, ← hq, hFold, bind, Except.bind]
    rfl
  · exact fun id h => List.mem_append_left _ (List.mem_reverse.mp h)
  · exact fun id h => ⟨id, ((hFresh id).mp (List.mem_reverse.mp h)).1, .refl⟩
  · intro id h
    rw [List.append_nil] at h
    exact ((hFresh id).mp h).2.1
  · intro id h _
    rw [List.append_nil] at h
    exact List.mem_reverse.mpr h
  · exact fun id h => List.mem_reverse.mpr ((hFresh id).mpr ⟨h, hLt id h, List.not_mem_nil⟩)
  · rw [List.length_reverse]
    exact le_trans (List.subperm_of_subset hNodup fun id h => ((hFresh id).mp h).1).length_le hLength

/-- No neighbour of a candidate would be a better one. -/
structure LocalOptimum (ix : InmemIndex) (distance : Nat → D) (f : SearchFilter)
    (q : NeighborPriorityQueue D) : Prop where
  sorted : q.keys.Pairwise (· < ·)
  keyed : ∀ e ∈ q.entries, e.distance = distance e.id ∧ e.id < ix.maxPoints
  reached : ∀ e ∈ q.entries, ix.Reaches f e.id
  initial : ∀ id ∈ ix.getInitIds f, q.Covers distance id
  neighbors : ∀ e ∈ q.entries, ∀ row, ix.finalGraph[e.id]? = some row → ∀ id ∈ row,
    id < ix.maxPoints → f.accepts id = true → q.Covers distance id

theorem LocalOptimum.keys_eq (h : LocalOptimum ix distance f q) :
    q.keys = (q.entries.map Neighbor.id).map (idKey distance) := by
  rw [List.map_map]
  refine List.map_congr_left fun e he => ?_
  exact congrArg (fun d => toLex (d, e.id)) (h.keyed e he).1

/-- A list with room for all points holds whatever it covers. -/
theorem LocalOptimum.mem_of_covers (h : LocalOptimum ix distance f q)
    (hRoom : ix.maxPoints ≤ q.capacity) {id : Nat} (hLt : id < ix.maxPoints)
    (hCovers : q.Covers distance id) : id ∈ q.entries.map Neighbor.id := by
  by_contra hOut
  rcases hCovers with hMem | ⟨hFull, -⟩
  · rw [h.keys_eq] at hMem
    obtain ⟨id', hId, hEq⟩ := List.mem_map.mp hMem
    exact hOut (eq_of_idKey_eq hEq ▸ hId)
  · have hNodup : (q.entries.map Neighbor.id).Nodup :=
      .of_map (idKey distance) (h.keys_eq ▸ h.sorted.imp ne_of_lt)
    have hRange : id :: q.entries.map Neighbor.id ⊆ List.range ix.maxPoints := by
      refine List.cons_subset.mpr ⟨List.mem_range.mpr hLt, fun id' h' => ?_⟩
      obtain ⟨e, he, rfl⟩ := List.mem_map.mp h'
      exact List.mem_range.mpr (h.keyed e he).2
    have hLength := (List.subperm_of_subset (List.nodup_cons.mpr ⟨hOut, hNodup⟩) hRange).length_le
    rw [List.length_cons, List.length_map, List.length_range] at hLength
    omega

/-- So it holds whatever the walk can come to. -/
theorem LocalOptimum.mem_iff_reaches (hIx : ix.Sound) (h : LocalOptimum ix distance f q)
    (hRoom : ix.maxPoints ≤ q.capacity) (id : Nat) :
    id ∈ q.entries.map Neighbor.id ↔ ix.Reaches f id := by
  constructor
  · intro hMem
    obtain ⟨e, he, rfl⟩ := List.mem_map.mp hMem
    exact h.reached e he
  · rintro ⟨first, hFirst, hPath⟩
    induction hPath with
    | refl =>
      exact h.mem_of_covers hRoom ((getInitIds_spec hIx f).1 first hFirst) (h.initial first hFirst)
    | tail _ hStep ih =>
      obtain ⟨e, he, rfl⟩ := List.mem_map.mp ih
      obtain ⟨row, hRow, hIn, hLt, hAccepts⟩ := hStep
      exact h.mem_of_covers hRoom hLt (h.neighbors e he row hRow _ hIn hLt hAccepts)

variable (distance) in
theorem searchWithLOverride_spec (hIx : ix.Sound) (hs : s.Cleared) (f : SearchFilter) {l : Nat}
    (hl : 2 ≤ l) : ∃ cmps s', ix.searchWithLOverride distance f l s = .ok (cmps, s') ∧
      LocalOptimum ix distance f s'.bestCandidates ∧ s'.clear.Cleared ∧
      min ix.searchListSize l ≤ s'.bestCandidates.capacity := by
  obtain ⟨s₁, scored, hInit, hw, hSettled, hStart, hLength, hRoom⟩ :=
    initGraphForPoint_spec distance hIx hs f
  have hInitial := hIx.initial
  obtain ⟨nodes, cmps, s', scored', visited', hSearch, hw', hSettled', hEnd, hSub, hCapacity⟩ :=
    (hw.setCapacity (by omega) (le_trans hLength hl) (by omega)).greedySearch
      (s := { s₁ with bestCandidates := s₁.bestCandidates.setCapacity l }) hIx ix.maxPoints hSettled
      List.nodup_nil (Nat.le_add_left ..)
  refine ⟨cmps, s', ?_, ⟨hw'.ordered.sorted, fun e he => ⟨?_, ?_⟩,
    fun e he => hSettled'.reached _ (hw'.id_mem he), fun id h => hw'.covers (hSub (hStart h)),
    fun e he row hRow id hId hLt hAccepts => hw'.covers ?_⟩, ⟨rfl, rfl, rfl,
    hw'.ordered.capacity_lt⟩, ?_⟩
  · simp only [InmemIndex.searchWithLOverride, hInit, bind, Except.bind, hSearch]
    rfl
  · exact congrArg (fun k => (ofLex k).1) (hw'.ordered.key_eq he)
  · exact hSettled'.inRange _ (hSettled'.scored_seen (hw'.id_mem he))
  · have hVisited := (hw'.marked e he).mp (hw'.ordered.all_visited hEnd e he)
    exact hSettled'.closed _ hVisited row hRow id hId hLt hAccepts
  · rw [hCapacity]
    unfold NeighborPriorityQueue.setCapacity
    split
    · exact Nat.min_le_right _ _
    · exact le_trans (Nat.min_le_left _ _) hRoom

variable (ix f) in
omit [LinearOrder D] in
theorem collect_eq (k : Nat) (l : List (Neighbor D)) : ∀ found, found.length < k →
    ix.collect f k l found = .ok (found ++ ((l.filter fun e => ix.passes f e.id).take
      (k - found.length)).map fun e => (e.id, e.distance)) := by
  induction l with
  | nil => exact fun found _ => by simp [InmemIndex.collect]
  | cons nbr l ih =>
    intro found h
    unfold InmemIndex.collect
    by_cases hPasses : ix.passes f nbr.id = true
    · obtain ⟨n, hn⟩ : ∃ n, k - found.length = n + 1 := ⟨k - found.length - 1, by omega⟩
      rw [if_pos hPasses, if_neg (by omega), List.filter_cons, if_pos hPasses, hn,
        List.take_succ_cons, List.map_cons]
      split
      · rw [show n = 0 by omega]
        rfl
      · rw [ih _ (by rw [List.length_append, List.length_singleton]; omega), List.append_assoc,
          List.length_append, List.length_singleton, show k - (found.length + 1) = n by omega]
        rfl
    · rw [if_neg hPasses, if_neg (by omega), List.filter_cons, if_neg hPasses, ih _ h]

variable (distance) in
theorem search_of_cleared (hIx : ix.Sound) (hs : s.Cleared) (f : SearchFilter) {k l : Nat}
    (hk : 0 < k) (hkl : k ≤ l) (hl : 2 ≤ l) : ∃ cmps s',
      ix.searchWithLOverride distance f l (s.resizeForNewCandidateSize l) = .ok (cmps, s') ∧
      LocalOptimum ix distance f s'.bestCandidates ∧ s'.clear.Cleared ∧
      min ix.searchListSize l ≤ s'.bestCandidates.capacity ∧ ix.search distance k l f s =
        .ok (((s'.bestCandidates.entries.filter fun e => ix.passes f e.id).take k).map
          fun e => (e.id, e.distance), cmps, s'.clear) := by
  have hResize : (s.resizeForNewCandidateSize l).Cleared := by
    unfold InMemQueryScratch.resizeForNewCandidateSize NeighborPriorityQueue.reserve
    split
    · split
      · exact ⟨hs.entries, hs.cur, hs.nodeVisited, Nat.lt_succ_self _⟩
      · exact ⟨hs.entries, hs.cur, hs.nodeVisited, hs.capacity_lt⟩
    · exact hs
  obtain ⟨cmps, s', hSearch, hOptimum, hCleared, hRoom⟩ :=
    searchWithLOverride_spec distance hIx hResize f hl
  refine ⟨cmps, s', hSearch, hOptimum, hCleared, hRoom, ?_⟩
  rw [InmemIndex.search, if_neg (by omega)]
  simp only [hSearch, bind, Except.bind, collect_eq ix f k s'.bestCandidates.entries [] hk]
  rfl

/-- A search and what it is asked for. -/
structure Request (D : Type) where
  distance : Nat → D
  k : Nat
  l : Nat
  filter : SearchFilter

/-- The scratch after a search. A refused one leaves it alone. -/
def Request.serve (ix : InmemIndex) (s : InMemQueryScratch D) (r : Request D) : InMemQueryScratch D :=
  match ix.search r.distance r.k r.l r.filter s with
  | .ok (_, _, s) => s
  | .error _ => s

/-- A scratch of the index after these searches. -/
def served (ix : InmemIndex) (requests : List (Request D)) : InMemQueryScratch D :=
  requests.foldl (Request.serve ix) (.new ix.searchListSize ix.searchListSize)

theorem cleared_of_served (hIx : ix.Sound) (requests : List (Request D))
    (hRequests : ∀ r ∈ requests, 0 < r.k ∧ 2 ≤ r.l) : (served ix requests).Cleared := by
  refine List.foldlRecOn requests _ ⟨rfl, rfl, rfl, Nat.lt_succ_self (max _ _)⟩ fun s hs r hr => ?_
  obtain ⟨hk, hl⟩ := hRequests r hr
  unfold Request.serve
  by_cases hRefused : r.l < r.k
  · rw [InmemIndex.search, if_pos hRefused]
    exact hs
  · obtain ⟨cmps, s', -, -, hCleared, -, hSearch⟩ :=
      search_of_cleared r.distance hIx hs r.filter hk (by omega) hl
    rw [hSearch]
    exact hCleared

/-- Four points on a line, of which the second is the medoid and the third has been deleted. -/
def fourPoints : InmemIndex := ⟨4, 100, 1, [[1], [0, 2], [1, 3], [2]], 8, [2]⟩

theorem sound_fourPoints : fourPoints.Sound := ⟨by decide, by decide, rfl, by decide⟩

/-- Only the first and the last point, and no other becomes a candidate after the start. -/
def endsOnly : SearchFilter := ⟨some fun id => id == 0 || id == 3, true⟩

def noFilter : SearchFilter := ⟨none, true⟩

/-- How far the points of a line are from its end. -/
def fromEnd (id : Nat) : Nat := (3 - id) ^ 2

section Served

variable (hIx : ix.Sound) {requests : List (Request D)}
  (hRequests : ∀ r ∈ requests, 0 < r.k ∧ 2 ≤ r.l) (f : SearchFilter) {k l : Nat} (hl : 2 ≤ l)
include hIx hRequests hl

/-- **A search ends in a local optimum**, and finds the nearest candidates that pass. It needs room
for all it starts from, hence `2 ≤ l`: with a filter these are two points. -/
theorem search_finds (hk : 0 < k) (hkl : k ≤ l) : ∃ cmps s',
    ix.searchWithLOverride distance f l ((served ix requests).resizeForNewCandidateSize l) =
      .ok (cmps, s') ∧
    LocalOptimum ix distance f s'.bestCandidates ∧
    ix.search distance k l f (served ix requests) =
      .ok (((s'.bestCandidates.entries.filter fun e => ix.passes f e.id).take k).map
        fun e => (e.id, e.distance), cmps, s'.clear) := by
  obtain ⟨cmps, s', hSearch, hOptimum, -, -, hFound⟩ := search_of_cleared distance hIx
    (cleared_of_served hIx requests hRequests) f hk hkl hl
  exact ⟨cmps, s', hSearch, hOptimum, hFound⟩

/-- **With room for all points** the search finds the nearest of those that can be reached. -/
theorem search_exact (hk : 0 < k) (hkl : k ≤ l) (hRoom : ix.maxPoints ≤ min ix.searchListSize l) :
    ∃ ids : List Nat, (ids.map (idKey distance)).Pairwise (· < ·) ∧
      (∀ id, id ∈ ids ↔ ix.Reaches f id) ∧ ∃ cmps s',
        ix.search distance k l f (served ix requests) =
          .ok (((ids.filter (ix.passes f)).take k).map fun id => (id, distance id), cmps, s') := by
  obtain ⟨cmps, s', -, hOptimum, -, hCapacity, hFound⟩ := search_of_cleared distance hIx
    (cleared_of_served hIx requests hRequests) f hk hkl hl
  refine ⟨s'.bestCandidates.entries.map Neighbor.id, hOptimum.keys_eq ▸ hOptimum.sorted,
    hOptimum.mem_iff_reaches hIx (le_trans hRoom hCapacity), cmps, s'.clear, hFound.trans ?_⟩
  rw [List.filter_map, ← List.map_take, List.map_map]
  refine congrArg (fun found => Except.ok (found, cmps, s'.clear)) (List.map_congr_left ?_)
  intro e he
  have hEntry := List.mem_of_mem_filter (List.mem_of_mem_take he)
  exact congrArg (Prod.mk e.id) (hOptimum.keyed e hEntry).1

end Served

/-- From the second of four points, after an earlier search by the same scratch. -/
theorem search_finds_four : ∃ cmps s',
    fourPoints.searchWithLOverride fromEnd noFilter 2
        ((served fourPoints [⟨fun id => id, 2, 2, endsOnly⟩]).resizeForNewCandidateSize 2) =
      .ok (cmps, s') ∧
    LocalOptimum fourPoints fromEnd noFilter s'.bestCandidates ∧
    fourPoints.search fromEnd 2 2 noFilter (served fourPoints [⟨fun id => id, 2, 2, endsOnly⟩]) =
      .ok (((s'.bestCandidates.entries.filter fun e => fourPoints.passes noFilter e.id).take 2).map
        fun e => (e.id, e.distance), cmps, s'.clear) :=
  search_finds sound_fourPoints (by decide) noFilter (by decide) (by decide) (by decide)

theorem search_exact_four : ∃ ids : List Nat, (ids.map (idKey fromEnd)).Pairwise (· < ·) ∧
    (∀ id, id ∈ ids ↔ fourPoints.Reaches noFilter id) ∧ ∃ cmps s',
      fourPoints.search fromEnd 2 4 noFilter (served fourPoints [⟨fun id => id, 1, 3, endsOnly⟩]) =
        .ok (((ids.filter (fourPoints.passes noFilter)).take 2).map fun id => (id, fromEnd id),
          cmps, s') :=
  search_exact sound_fourPoints (by decide) noFilter (by decide) (by decide) (by decide) (by decide)

/-- The deleted point is passed over, though it is the way to the last. -/
example : (fourPoints.search fromEnd 2 4 noFilter (served fourPoints [])).toOption.map
    (fun r => r.1) = some [(3, 0), (1, 4)] := by decide +kernel

end InMemANN

end MiniGU
