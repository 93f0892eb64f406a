import MiniGU.Model.Server

/-!
# What each update leaves alone

One lemma for each primitive update of a `MemoryGraph` and each component it may
touch, in the simp set, so that later proofs never unfold an update; and the effect of
a garbage collection on the two maps (`chain_garbageCollect`).
-/

namespace MiniGU

variable {V : Type}

namespace MemoryGraph

variable (g : MemoryGraph V)

/-! ## Maps of versions -/

@[simp] theorem chain_setChain_self (k : Kind) (id : Nat)
    (c : Option (VersionChain (Data V k) (DeltaOp V))) : (g.setChain k id c).chain k id = c := by
  cases k <;> exact Function.update_self ..

theorem chain_setChain_of_ne {k k' : Kind} {id id' : Nat}
    (c : Option (VersionChain (Data V k) (DeltaOp V))) (h : (k', id') ≠ (k, id)) :
    (g.setChain k id c).chain k' id' = g.chain k' id' := by
  cases k <;> cases k'
  · exact Function.update_of_ne (fun heq => h (by rw [heq])) ..
  · rfl
  · rfl
  · exact Function.update_of_ne (fun heq => h (by rw [heq])) ..

@[simp] theorem chain_modifyTxn (t : Nat) (f : TxnState V → TxnState V) :
    (g.modifyTxn t f).chain = g.chain := by
  funext k id
  cases k <;> rfl

@[simp] theorem chain_setAdjacency (vid : Nat) (a : Option AdjacencyContainer) :
    (g.setAdjacency vid a).chain = g.chain := by
  funext k id
  cases k <;> rfl

@[simp] theorem chain_withManager (m : MemTxnManager) : (g.withManager m).chain = g.chain := by
  funext k id
  cases k <;> rfl

@[simp] theorem chain_appendWal (txn : MemTransaction) (op : Operation V) :
    (g.appendWal txn op).chain = g.chain := by
  funext k id
  cases k <;> rfl

@[simp] theorem chain_withTs (gen : GlobalTimestampGenerator) :
    ({ g with timestampGenerator := gen } : MemoryGraph V).chain = g.chain := by
  funext k id
  cases k <;> rfl

/-! ## Transactions -/

@[simp] theorem txns_setChain (k : Kind) (id : Nat)
    (c : Option (VersionChain (Data V k) (DeltaOp V))) : (g.setChain k id c).txns = g.txns := by
  cases k <;> rfl

@[simp] theorem wal_setChain (k : Kind) (id : Nat)
    (c : Option (VersionChain (Data V k) (DeltaOp V))) : (g.setChain k id c).wal = g.wal := by
  cases k <;> rfl

@[simp] theorem txns_setAdjacency (vid : Nat) (a : Option AdjacencyContainer) :
    (g.setAdjacency vid a).txns = g.txns := rfl

@[simp] theorem txns_withManager (m : MemTxnManager) : (g.withManager m).txns = g.txns := rfl

@[simp] theorem txns_appendWal (txn : MemTransaction) (op : Operation V) :
    (g.appendWal txn op).txns = g.txns := rfl

@[simp] theorem txns_modifyTxn_self (t : Nat) (f : TxnState V → TxnState V) :
    (g.modifyTxn t f).txns t = f (g.txns t) := by
  simp [modifyTxn]

theorem txns_modifyTxn_of_ne {t t' : Nat} (f : TxnState V → TxnState V) (h : t' ≠ t) :
    (g.modifyTxn t f).txns t' = g.txns t' := by
  simp [modifyTxn, h]

/-! ## Manager and generators -/

@[simp] theorem txnManager_setChain (k : Kind) (id : Nat)
    (c : Option (VersionChain (Data V k) (DeltaOp V))) :
    (g.setChain k id c).txnManager = g.txnManager := by
  cases k <;> rfl

@[simp] theorem txnManager_modifyTxn (t : Nat) (f : TxnState V → TxnState V) :
    (g.modifyTxn t f).txnManager = g.txnManager := rfl

@[simp] theorem txnManager_setAdjacency (vid : Nat) (a : Option AdjacencyContainer) :
    (g.setAdjacency vid a).txnManager = g.txnManager := rfl

@[simp] theorem txnManager_withManager (m : MemTxnManager) :
    (g.withManager m).txnManager = m := rfl

@[simp] theorem txnManager_appendWal (txn : MemTransaction) (op : Operation V) :
    (g.appendWal txn op).txnManager = g.txnManager := rfl

/-- The two counters, which most updates leave alone. -/
def counters : Nat × Nat := (g.timestampGenerator.counter, g.transactionIdGenerator.counter)

@[simp] theorem counters_setChain (k : Kind) (id : Nat)
    (c : Option (VersionChain (Data V k) (DeltaOp V))) :
    (g.setChain k id c).counters = g.counters := by
  cases k <;> rfl

@[simp] theorem counters_modifyTxn (t : Nat) (f : TxnState V → TxnState V) :
    (g.modifyTxn t f).counters = g.counters := rfl

@[simp] theorem counters_setAdjacency (vid : Nat) (a : Option AdjacencyContainer) :
    (g.setAdjacency vid a).counters = g.counters := rfl

@[simp] theorem counters_withManager (m : MemTxnManager) :
    (g.withManager m).counters = g.counters := rfl

@[simp] theorem counters_appendWal (txn : MemTransaction) (op : Operation V) :
    (g.appendWal txn op).counters = g.counters := rfl

/-! ## Adjacency lists -/

@[simp] theorem adjacencyList_setChain (k : Kind) (id : Nat)
    (c : Option (VersionChain (Data V k) (DeltaOp V))) :
    (g.setChain k id c).adjacencyList = g.adjacencyList := by
  cases k <;> rfl

@[simp] theorem adjacencyList_modifyTxn (t : Nat) (f : TxnState V → TxnState V) :
    (g.modifyTxn t f).adjacencyList = g.adjacencyList := rfl

@[simp] theorem adjacencyList_withManager (m : MemTxnManager) :
    (g.withManager m).adjacencyList = g.adjacencyList := rfl

@[simp] theorem adjacencyList_appendWal (txn : MemTransaction) (op : Operation V) :
    (g.appendWal txn op).adjacencyList = g.adjacencyList := rfl

/-! ## Updates of the adjacency lists only -/

/-- `g'` differs from `g` in its adjacency lists at most. -/
structure SameButAdjacency (g g' : MemoryGraph V) : Prop where
  chain : g'.chain = g.chain
  txns : g'.txns = g.txns
  txnManager : g'.txnManager = g.txnManager
  counters : g'.counters = g.counters

variable {g}

namespace SameButAdjacency

theorem refl : SameButAdjacency g g := ⟨rfl, rfl, rfl, rfl⟩

theorem trans {g₁ g₂ : MemoryGraph V} (h : SameButAdjacency g g₁) (h' : SameButAdjacency g₁ g₂) :
    SameButAdjacency g g₂ :=
  ⟨h'.chain.trans h.chain, h'.txns.trans h.txns, h'.txnManager.trans h.txnManager,
    h'.counters.trans h.counters⟩

theorem setAdjacency (vid : Nat) (a : Option AdjacencyContainer) :
    SameButAdjacency g (g.setAdjacency vid a) :=
  ⟨by simp, by simp, by simp, by simp⟩

theorem insertAdjacency (e : Edge V) : SameButAdjacency g (g.insertAdjacency e) :=
  (setAdjacency _ _).trans (setAdjacency _ _)

theorem removeAdjacency (e : Edge V) : SameButAdjacency g (g.removeAdjacency e) :=
  (setAdjacency _ _).trans (setAdjacency _ _)

theorem linkAdjacency {k : Kind} (d : Data V k) : SameButAdjacency g (g.linkAdjacency d) := by
  cases k with
  | vertex => exact refl
  | edge => exact insertAdjacency _

theorem unlinkAdjacency {k : Kind} (d : Data V k) :
    SameButAdjacency g (g.unlinkAdjacency d) := by
  cases k with
  | vertex => exact refl
  | edge => exact removeAdjacency _

theorem foldl {α : Type} {f : MemoryGraph V → α → MemoryGraph V}
    (hf : ∀ h a, SameButAdjacency h (f h a)) (l : List α) (h : MemoryGraph V) :
    SameButAdjacency h (l.foldl f h) := by
  induction l generalizing h with
  | nil => exact refl
  | cons a l ih => exact (hf h a).trans (ih (f h a))

end SameButAdjacency

/-! ## Garbage collection -/

/-- The entities that a collection would remove: a tombstoned edge that an expired
transaction deleted, and a tombstoned endpoint of one. -/
def gcRemoves (g : MemoryGraph V) (k : Kind) (id : Nat) : Bool :=
  g.isTombstoned k id && g.expiredEdges.any fun p =>
    match k with
    | .vertex => p.2.srcId == id || p.2.dstId == id
    | .edge => p.2.eid == id

theorem sameButAdjacency_removeVertexAndAdjacencies (vid : Nat) :
    SameButAdjacency (g.setChain .vertex vid none) (g.removeVertexAndAdjacencies vid) :=
  ((SameButAdjacency.foldl (fun _ _ => SameButAdjacency.setAdjacency _ _) _ _).trans
    (SameButAdjacency.foldl (fun _ _ => SameButAdjacency.setAdjacency _ _) _ _)).trans
    (SameButAdjacency.setAdjacency _ _)

theorem chain_removeVertexAndAdjacencies (vid : Nat) (k : Kind) (id : Nat) :
    (g.removeVertexAndAdjacencies vid).chain k id = (g.setChain .vertex vid none).chain k id := by
  rw [(sameButAdjacency_removeVertexAndAdjacencies vid).chain]

/-- What a cleanup does outside the maps and the adjacency lists. -/
structure SameButStore (g g' : MemoryGraph V) : Prop where
  txns : g'.txns = g.txns
  txnManager : g'.txnManager = g.txnManager
  counters : g'.counters = g.counters

namespace SameButStore

theorem trans {g g₁ g₂ : MemoryGraph V} (h : SameButStore g g₁) (h' : SameButStore g₁ g₂) :
    SameButStore g g₂ :=
  ⟨h'.txns.trans h.txns, h'.txnManager.trans h.txnManager, h'.counters.trans h.counters⟩

theorem setChain (k : Kind) (id : Nat) (c : Option (VersionChain (Data V k) (DeltaOp V))) :
    SameButStore g (g.setChain k id c) := ⟨by simp, by simp, by simp⟩

end SameButStore

theorem SameButAdjacency.store {g' : MemoryGraph V} (h : SameButAdjacency g g') :
    SameButStore g g' := ⟨h.txns, h.txnManager, h.counters⟩

theorem sameButStore_removeVertexAndAdjacencies (vid : Nat) :
    SameButStore g (g.removeVertexAndAdjacencies vid) :=
  (SameButStore.setChain .vertex vid none).trans
    (sameButAdjacency_removeVertexAndAdjacencies vid).store

theorem sameButStore_cleanupExpiredEdge (edge : Edge V) :
    SameButStore g (g.cleanupExpiredEdge edge) := by
  have hSelf : SameButStore g g := ⟨rfl, rfl, rfl⟩
  have hIf : ∀ (b : Bool) (h : MemoryGraph V) (vid : Nat), SameButStore g h →
      SameButStore g (if b then h.removeVertexAndAdjacencies vid else h) := by
    intro b h vid hh
    cases b with
    | false => exact hh
    | true => exact hh.trans (sameButStore_removeVertexAndAdjacencies vid)
  have h₂ := hIf (g.isTombstoned .vertex edge.dstId) _ edge.dstId
    (hIf (g.isTombstoned .vertex edge.srcId) g edge.srcId hSelf)
  unfold cleanupExpiredEdge
  dsimp only
  split
  · exact (h₂.trans (SameButStore.setChain .edge edge.eid none)).trans
      (SameButAdjacency.removeAdjacency edge).store
  · exact h₂

/-- The entities that one expired edge names. -/
def names (edge : Edge V) (k : Kind) (id : Nat) : Bool :=
  match k with
  | .vertex => edge.srcId == id || edge.dstId == id
  | .edge => edge.eid == id

theorem chain_ite_remove (b : Bool) (h : MemoryGraph V) (vid : Nat) (k : Kind) (id : Nat) :
    (if b then h.removeVertexAndAdjacencies vid else h).chain k id =
      if b = true ∧ k = .vertex ∧ id = vid then none else h.chain k id := by
  cases b with
  | false => simp
  | true =>
    simp only [if_true, chain_removeVertexAndAdjacencies, true_and]
    split
    · rename_i heq
      obtain ⟨rfl, rfl⟩ := heq
      simp
    · rename_i hne
      exact chain_setChain_of_ne h none fun heq => hne (by simpa using heq)

/-- The clean-up takes an entity that the edge names and that is a tombstone, and no other. -/
theorem chain_cleanupExpiredEdge (edge : Edge V) (k : Kind) (id : Nat) :
    (g.cleanupExpiredEdge edge).chain k id =
      if (g.isTombstoned k id && names edge k id) = true then none else g.chain k id := by
  have hEnd : ∀ (h : MemoryGraph V) (b : Bool), (if b = true then
      (h.setChain .edge edge.eid none).removeAdjacency edge else h).chain k id =
      if b = true ∧ k = .edge ∧ id = edge.eid then none else h.chain k id := by
    intro h b
    cases b with
    | false => simp
    | true =>
      simp only [if_true, (SameButAdjacency.removeAdjacency edge).chain, true_and]
      split
      · rename_i heq
        obtain ⟨rfl, rfl⟩ := heq
        simp
      · rename_i hne
        exact chain_setChain_of_ne h none fun heq => hne (by simpa using heq)
  unfold cleanupExpiredEdge
  dsimp only
  rw [hEnd, chain_ite_remove, chain_ite_remove]
  cases k with
  | vertex =>
    by_cases hs : id = edge.srcId
    · by_cases hd : id = edge.dstId
      · cases hT : g.isTombstoned .vertex id <;> simp [names, ← hs, ← hd, hT]
      · simp [names, ← hs, hd]
    · by_cases hd : id = edge.dstId
      · simp [names, hs, ← hd]
      · simp [names, hs, hd, Ne.symm hs, Ne.symm hd]
  | edge =>
    by_cases he : id = edge.eid
    · subst he
      simp [names]
    · simp [names, he, Ne.symm he]

theorem isTombstoned_of_chain {h : MemoryGraph V} {k : Kind} {id : Nat}
    (heq : h.chain k id = g.chain k id) : h.isTombstoned k id = g.isTombstoned k id := by
  unfold isTombstoned
  rw [heq]

/-- The loop of `cleanup_graph_data` over a list of expired edges. -/
theorem chain_foldl_cleanup (l : List (Nat × Edge V)) (k : Kind) (id : Nat) :
    (l.foldl (fun h p => h.cleanupExpiredEdge p.2) g).chain k id =
      if (g.isTombstoned k id && l.any fun p => names p.2 k id) = true then none
      else g.chain k id := by
  induction l generalizing g with
  | nil => simp
  | cons p l ih =>
    rw [List.foldl_cons, ih]
    have hHead := chain_cleanupExpiredEdge (g := g) p.2 k id
    by_cases hp : (g.isTombstoned k id && names p.2 k id) = true
    · -- removed here: nothing is left for the rest of the list to remove
      rw [if_pos hp] at hHead
      have : (g.cleanupExpiredEdge p.2).isTombstoned k id = false := by
        simp [isTombstoned, hHead]
      rw [this, hHead]
      simp only [Bool.and_eq_true] at hp
      simp [hp.1, hp.2]
    · rw [if_neg hp] at hHead
      rw [isTombstoned_of_chain hHead, hHead, List.any_cons]
      cases hT : g.isTombstoned k id with
      | false => simp
      | true =>
        have hNames : names p.2 k id = false := by simpa [hT] using hp
        rw [hNames, Bool.false_or]

/-- **A collection removes exactly the entities `gcRemoves` names.** -/
theorem chain_garbageCollect (k : Kind) (id : Nat) :
    g.garbageCollect.chain k id = if g.gcRemoves k id = true then none else g.chain k id := by
  unfold garbageCollect gcRemoves
  rw [chain_withManager, chain_foldl_cleanup]
  cases k <;> rfl

theorem sameButStore_foldl_cleanup (l : List (Nat × Edge V)) :
    SameButStore g (l.foldl (fun h p => h.cleanupExpiredEdge p.2) g) := by
  induction l generalizing g with
  | nil => exact ⟨rfl, rfl, rfl⟩
  | cons p l ih => exact (sameButStore_cleanupExpiredEdge p.2).trans ih

@[simp] theorem txns_garbageCollect : g.garbageCollect.txns = g.txns :=
  (sameButStore_foldl_cleanup _).txns

@[simp] theorem counters_garbageCollect : g.garbageCollect.counters = g.counters :=
  (sameButStore_foldl_cleanup _).counters

@[simp] theorem activeTxns_garbageCollect :
    g.garbageCollect.txnManager.activeTxns = g.txnManager.activeTxns := rfl

@[simp] theorem watermark_garbageCollect :
    g.garbageCollect.txnManager.watermark = g.txnManager.watermark := rfl

end MemoryGraph

end MiniGU
