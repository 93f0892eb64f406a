import MiniGU.Invariant.Frame

/-!
# Adjacency lists

What each update of the adjacency lists adds and removes, entry by entry. A collection
only removes entries: those of the edges it removes, and everything listed under a
vertex it removes (`shrinks_garbageCollect`).
-/

namespace MiniGU

variable {V : Type}

theorem Neighbor.mem_insert {n m : Neighbor} {l : List Neighbor} :
    n ∈ SkipList.insert Neighbor.lt m l ↔ n = m ∨ n ∈ l := by
  constructor
  · exact SkipList.mem_of_mem_insert
  · rintro (rfl | hn)
    · exact SkipList.mem_insert_self ..
    · by_cases heq : m = n
      · subst heq
        exact SkipList.mem_insert_self ..
      · exact SkipList.mem_insert_of_mem hn (Neighbor.lt_or_lt.mpr heq)

theorem Neighbor.mem_remove {n m : Neighbor} {l : List Neighbor} :
    n ∈ SkipList.remove Neighbor.lt m l ↔ n ∈ l ∧ n ≠ m := by
  rw [SkipList.mem_remove, Neighbor.lt_or_lt, ne_comm]

namespace MemoryGraph

variable {g h : MemoryGraph V} {vid v : Nat} {n m : Neighbor}

/-! ## One list -/

theorem outgoing_setAdjacency (a : Option AdjacencyContainer) :
    (g.setAdjacency vid a).outgoing v =
      if v = vid then a.elim [] AdjacencyContainer.outgoing else g.outgoing v := by
  unfold outgoing setAdjacency
  by_cases hv : v = vid
  · subst hv
    simp
  · simp [hv]

theorem incoming_setAdjacency (a : Option AdjacencyContainer) :
    (g.setAdjacency vid a).incoming v =
      if v = vid then a.elim [] AdjacencyContainer.incoming else g.incoming v := by
  unfold incoming setAdjacency
  by_cases hv : v = vid
  · subst hv
    simp
  · simp [hv]

theorem mem_outgoing_removeOutgoing :
    n ∈ (g.removeOutgoing vid m).outgoing v ↔ n ∈ g.outgoing v ∧ ¬ (v = vid ∧ n = m) := by
  unfold removeOutgoing
  rw [outgoing_setAdjacency]
  by_cases hv : v = vid
  · subst hv
    cases ha : g.adjacencyList v <;> simp [outgoing, ha, Neighbor.mem_remove]
  · simp [hv]

@[simp] theorem incoming_removeOutgoing :
    (g.removeOutgoing vid m).incoming v = g.incoming v := by
  unfold removeOutgoing
  rw [incoming_setAdjacency]
  by_cases hv : v = vid
  · subst hv
    cases ha : g.adjacencyList v <;> simp [incoming, ha]
  · simp [hv]

theorem mem_incoming_removeIncoming :
    n ∈ (g.removeIncoming vid m).incoming v ↔ n ∈ g.incoming v ∧ ¬ (v = vid ∧ n = m) := by
  unfold removeIncoming
  rw [incoming_setAdjacency]
  by_cases hv : v = vid
  · subst hv
    cases ha : g.adjacencyList v <;> simp [incoming, ha, Neighbor.mem_remove]
  · simp [hv]

@[simp] theorem outgoing_removeIncoming :
    (g.removeIncoming vid m).outgoing v = g.outgoing v := by
  unfold removeIncoming
  rw [outgoing_setAdjacency]
  by_cases hv : v = vid
  · subst hv
    cases ha : g.adjacencyList v <;> simp [outgoing, ha]
  · simp [hv]

/-! ## The entries of an edge -/

theorem outgoing_of_adjacencyList (hAdj : h.adjacencyList = g.adjacencyList) :
    h.outgoing = g.outgoing := by
  funext v
  unfold outgoing
  rw [hAdj]

theorem incoming_of_adjacencyList (hAdj : h.adjacencyList = g.adjacencyList) :
    h.incoming = g.incoming := by
  funext v
  unfold incoming
  rw [hAdj]

/-! ## Collections -/

/-- Listed under a vertex that the collection removes. -/
def ListedUnderRemoved (g : MemoryGraph V) (eid : Nat) : Prop :=
  ∃ vid n, g.gcRemoves .vertex vid = true ∧ (n ∈ g.incoming vid ∨ n ∈ g.outgoing vid) ∧
    n.eid = eid

/-- The entities whose map entry or adjacency entries a collection may take. -/
def Touched (g : MemoryGraph V) (k : Kind) (id : Nat) : Prop :=
  g.gcRemoves k id = true ∨ (k = .edge ∧ g.ListedUnderRemoved id)

/-- The collection may take the entry `n` listed under `v`: it removes the edge of the entry
or one of the two vertices, and `Touched` names the edge. -/
structure Drops (g : MemoryGraph V) (v : Nat) (n : Neighbor) : Prop where
  touched : g.Touched .edge n.eid
  removed : g.gcRemoves .edge n.eid = true ∨ g.gcRemoves .vertex v = true ∨
    g.gcRemoves .vertex n.neighborId = true

/-- `h` is `g` less some entities and adjacency entries that `g` names. -/
structure Shrinks (g h : MemoryGraph V) : Prop where
  chain : ∀ k id, h.chain k id = g.chain k id ∨ h.chain k id = none
  outgoing : ∀ v n, n ∈ h.outgoing v → n ∈ g.outgoing v
  incoming : ∀ v n, n ∈ h.incoming v → n ∈ g.incoming v
  lostOutgoing : ∀ v n, n ∈ g.outgoing v → n ∈ h.outgoing v ∨ g.Drops v n
  lostIncoming : ∀ v n, n ∈ g.incoming v → n ∈ h.incoming v ∨ g.Drops v n

theorem Shrinks.refl : Shrinks g g :=
  ⟨fun _ _ => .inl rfl, fun _ _ hn => hn, fun _ _ hn => hn, fun _ _ hn => .inl hn,
    fun _ _ hn => .inl hn⟩

theorem Shrinks.isTombstoned (hs : Shrinks g h) {k : Kind} {id : Nat}
    (ht : h.isTombstoned k id = true) : g.isTombstoned k id = true := by
  rcases hs.chain k id with heq | hnone
  · rwa [isTombstoned_of_chain heq] at ht
  · simp [MemoryGraph.isTombstoned, hnone] at ht

/-- Removing one map entry. -/
theorem Shrinks.setChain (hs : Shrinks g h) (k : Kind) (id : Nat) :
    Shrinks g (h.setChain k id none) := by
  have hOut : (h.setChain k id none).outgoing = h.outgoing := outgoing_of_adjacencyList (by simp)
  have hIn : (h.setChain k id none).incoming = h.incoming := incoming_of_adjacencyList (by simp)
  refine ⟨fun k' id' => ?_, by rw [hOut]; exact hs.outgoing, by rw [hIn]; exact hs.incoming,
    by rw [hOut]; exact hs.lostOutgoing, by rw [hIn]; exact hs.lostIncoming⟩
  by_cases hEq : (k', id') = (k, id)
  · obtain ⟨rfl, rfl⟩ := Prod.mk.inj hEq
    exact .inr (by simp)
  · rw [chain_setChain_of_ne _ _ hEq]
    exact hs.chain k' id'

theorem Shrinks.removeOutgoing (hs : Shrinks g h) (hd : g.Drops vid m) :
    Shrinks g (h.removeOutgoing vid m) := by
  refine ⟨fun k id => ?_, fun v n hn => ?_, fun v n hn => ?_, fun v n hn => ?_, fun v n hn => ?_⟩
  · rw [MemoryGraph.removeOutgoing, chain_setAdjacency]
    exact hs.chain k id
  · exact hs.outgoing v n (mem_outgoing_removeOutgoing.mp hn).1
  · rw [incoming_removeOutgoing] at hn
    exact hs.incoming v n hn
  · rcases hs.lostOutgoing v n hn with hn | hn
    · by_cases hEq : v = vid ∧ n = m
      · rw [hEq.1, hEq.2]
        exact .inr hd
      · exact .inl (mem_outgoing_removeOutgoing.mpr ⟨hn, hEq⟩)
    · exact .inr hn
  · rw [incoming_removeOutgoing]
    exact hs.lostIncoming v n hn

theorem Shrinks.removeIncoming (hs : Shrinks g h) (hd : g.Drops vid m) :
    Shrinks g (h.removeIncoming vid m) := by
  refine ⟨fun k id => ?_, fun v n hn => ?_, fun v n hn => ?_, fun v n hn => ?_, fun v n hn => ?_⟩
  · rw [MemoryGraph.removeIncoming, chain_setAdjacency]
    exact hs.chain k id
  · rw [outgoing_removeIncoming] at hn
    exact hs.outgoing v n hn
  · exact hs.incoming v n (mem_incoming_removeIncoming.mp hn).1
  · rw [outgoing_removeIncoming]
    exact hs.lostOutgoing v n hn
  · rcases hs.lostIncoming v n hn with hn | hn
    · by_cases hEq : v = vid ∧ n = m
      · rw [hEq.1, hEq.2]
        exact .inr hd
      · exact .inl (mem_incoming_removeIncoming.mpr ⟨hn, hEq⟩)
    · exact .inr hn

theorem Shrinks.foldl {α : Type} {f : MemoryGraph V → α → MemoryGraph V} {l : List α}
    (hf : ∀ h a, a ∈ l → Shrinks g h → Shrinks g (f h a)) (hs : Shrinks g h) :
    Shrinks g (l.foldl f h) := by
  induction l generalizing h with
  | nil => exact hs
  | cons a l ih =>
    exact ih (fun h b hb => hf h b (List.mem_cons_of_mem _ hb)) (hf h a (List.mem_cons_self ..) hs)

/-- Removing a vertex that the collection names, with everything listed under it. -/
theorem Shrinks.removeVertex (hs : Shrinks g h) (hRem : g.gcRemoves .vertex vid = true) :
    Shrinks g (h.removeVertexAndAdjacencies vid) := by
  have hListed : ∀ n, n ∈ h.incoming vid ∨ n ∈ h.outgoing vid → g.Touched .edge n.eid :=
    fun n hn => .inr ⟨rfl, vid, n, hRem, hn.imp (hs.incoming vid n) (hs.outgoing vid n), rfl⟩
  unfold removeVertexAndAdjacencies
  have h₁ := hs.setChain .vertex vid
  have h₂ := h₁.foldl (l := h.incoming vid)
    (f := fun h n => h.removeOutgoing n.neighborId ⟨n.labelId, vid, n.eid⟩)
    fun h' n hn hs' => hs'.removeOutgoing (m := ⟨n.labelId, vid, n.eid⟩)
      ⟨hListed n (.inl hn), .inr (.inr hRem)⟩
  have h₃ := h₂.foldl (l := h.outgoing vid)
    (f := fun h n => h.removeIncoming n.neighborId ⟨n.labelId, vid, n.eid⟩)
    fun h' n hn hs' => hs'.removeIncoming (m := ⟨n.labelId, vid, n.eid⟩)
      ⟨hListed n (.inr hn), .inr (.inr hRem)⟩
  -- and the vertex's own lists
  dsimp only
  refine ⟨fun k id => ?_, fun v n hn => ?_, fun v n hn => ?_, fun v n hn => ?_, fun v n hn => ?_⟩
  · rw [chain_setAdjacency]
    exact h₃.chain k id
  · rw [outgoing_setAdjacency] at hn
    split at hn
    · cases hn
    · exact h₃.outgoing v n hn
  · rw [incoming_setAdjacency] at hn
    split at hn
    · cases hn
    · exact h₃.incoming v n hn
  · rw [outgoing_setAdjacency]
    split
    · rename_i hv
      subst hv
      exact .inr ⟨.inr ⟨rfl, v, n, hRem, .inr hn, rfl⟩, .inr (.inl hRem)⟩
    · exact h₃.lostOutgoing v n hn
  · rw [incoming_setAdjacency]
    split
    · rename_i hv
      subst hv
      exact .inr ⟨.inr ⟨rfl, v, n, hRem, .inl hn, rfl⟩, .inr (.inl hRem)⟩
    · exact h₃.lostIncoming v n hn

theorem gcRemoves_of_isTombstoned {k : Kind} {id : Nat} {p : Nat × Edge V}
    (hp : p ∈ g.expiredEdges) (hNames : names p.2 k id = true)
    (hTomb : g.isTombstoned k id = true) : g.gcRemoves k id = true := by
  simp only [gcRemoves, hTomb, Bool.true_and, List.any_eq_true]
  exact ⟨p, hp, by cases k <;> exact hNames⟩

theorem Shrinks.cleanupExpiredEdge (hs : Shrinks g h) {p : Nat × Edge V}
    (hp : p ∈ g.expiredEdges) : Shrinks g (h.cleanupExpiredEdge p.2) := by
  have hVertex : ∀ (b : Bool) (vid : Nat) (h' : MemoryGraph V), Shrinks g h' →
      (b = true → g.gcRemoves .vertex vid = true) →
      Shrinks g (if b then h'.removeVertexAndAdjacencies vid else h') := by
    intro b vid h' hs' hRem
    cases b with
    | false => exact hs'
    | true => exact hs'.removeVertex (hRem rfl)
  have h₂ := hVertex (h.isTombstoned .vertex p.2.dstId) p.2.dstId _
    (hVertex (h.isTombstoned .vertex p.2.srcId) p.2.srcId h hs fun hTomb =>
      gcRemoves_of_isTombstoned hp (by simp [names]) (hs.isTombstoned hTomb))
    fun hTomb => gcRemoves_of_isTombstoned hp (by simp [names]) (hs.isTombstoned hTomb)
  unfold MemoryGraph.cleanupExpiredEdge
  dsimp only
  split
  · rename_i hTomb
    have hEdge : g.gcRemoves .edge p.2.eid = true :=
      gcRemoves_of_isTombstoned hp (by simp [names]) (hs.isTombstoned hTomb)
    exact ((h₂.setChain .edge p.2.eid).removeOutgoing (m := ⟨_, _, _⟩)
      ⟨.inl hEdge, .inl hEdge⟩).removeIncoming (m := ⟨_, _, _⟩) ⟨.inl hEdge, .inl hEdge⟩
  · exact h₂

/-- **What a collection takes from the adjacency lists.** -/
theorem shrinks_garbageCollect : Shrinks g g.garbageCollect := by
  have hFold : Shrinks g (g.expiredEdges.foldl (fun h p => h.cleanupExpiredEdge p.2) g) :=
    Shrinks.refl.foldl fun h p hp hs => hs.cleanupExpiredEdge hp
  refine ⟨fun k id => ?_, hFold.outgoing, hFold.incoming, hFold.lostOutgoing, hFold.lostIncoming⟩
  unfold garbageCollect
  rw [chain_withManager]
  exact hFold.chain k id

end MemoryGraph

end MiniGU
