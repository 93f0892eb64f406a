import MiniGU.Invariant.Reachable

/-!
# Guards of staged writes

An optimistic writer records with each intent the stamp of the version it started from.
`GuardsOk`: that stamp is always one its transaction may write over.
-/

namespace MiniGU.MemoryGraph

variable {V : Type}

/-- The guard of every staged intent is a stamp its transaction may write over. -/
def GuardsOk (g : MemoryGraph V) : Prop :=
  ∀ t ∈ g.txnManager.activeTxns, ∀ k id intent,
    (g.txns t.txnId).lookupWrite k id = some intent → t.CanWrite intent.guardTs

variable {g g' : MemoryGraph V} {txn : MemTransaction} {k : Kind} {id : Nat}
  {c : VersionChain (Data V k) (DeltaOp V)}

theorem canWrite_of_isOwnOrVisible {ts : Nat} (h : txn.isOwnOrVisible ts = true) :
    txn.CanWrite ts := by
  rw [MemTransaction.isOwnOrVisible_eq_not_isForeign, Bool.not_eq_true'] at h
  exact MemTransaction.canWrite_of_not_isForeign h

theorem snapshotWithGuard_canWrite {before : Data V k} {guardTs : Nat}
    (h : g.snapshotWithGuard txn c = .ok (before, guardTs)) : txn.CanWrite guardTs := by
  unfold snapshotWithGuard at h
  split at h
  · cases h
  · split at h
    · rename_i hVisible
      split at h
      · cases h
      · cases h
        exact canWrite_of_isOwnOrVisible hVisible
    · dsimp only at h
      split at h
      · cases h
      · rename_i hOk
        injection h with h
        rw [h] at hOk
        simp only [Bool.or_eq_true, decide_eq_true_eq, not_or] at hOk
        exact .inr (by omega)

theorem GuardsOk.opStep (h : GuardsOk g) (ht : txn ∈ g.txnManager.activeTxns)
    (hInj : ∀ t ∈ g.txnManager.activeTxns, t.txnId = txn.txnId → t = txn)
    (hs : OpStep txn g g') : GuardsOk g' := by
  intro t ht' k id intent hLook
  rw [hs.txnManager] at ht'
  rcases lookupWrite_opStep hs t.txnId k id with hSame | ⟨intent', hTxn, hStage, hNew⟩
  · exact h t ht' k id intent (hSame ▸ hLook)
  · obtain rfl := hInj t ht' hTxn
    obtain rfl := Option.some.inj (hLook.symm.trans hNew)
    cases hStage with
    | insert =>
      cases hOld : (g.txns t.txnId).lookupWrite k id with
      | none => exact .inr (Nat.zero_le _)
      | some old => exact h t ht' k id old hOld
    | setInserted _ _ hl =>
      have hOld := h t ht' k id _ hl
      exact hOld
    | setUpdated _ _ hl =>
      have hOld := h t ht' k id _ hl
      exact hOld
    | set _ _ _ _ hs => exact snapshotWithGuard_canWrite hs
    | deleteInserted hl =>
      have hOld := h t ht' k id _ hl
      exact hOld
    | deleteUpdated hl =>
      have hOld := h t ht' k id _ hl
      exact hOld
    | delete _ _ hs => exact snapshotWithGuard_canWrite hs

theorem GuardsOk.opSteps (hwf : WF g) (ht : txn ∈ g.txnManager.activeTxns) (h : GuardsOk g)
    (hs : OpSteps txn g g') : GuardsOk g' := by
  induction hs with
  | refl => exact h
  | tail hs hStep ih =>
    obtain ⟨hwf', hMgr⟩ := hwf.opSteps ht hs
    have ht' := ht
    rw [← hMgr] at ht'
    exact ih.opStep ht' (fun t hMem heq => hwf'.activeInj t hMem txn ht' heq) hStep

/-- A step that keeps the intents of the transactions still active. -/
theorem GuardsOk.mono (h : GuardsOk g)
    (hActive : ∀ t ∈ g'.txnManager.activeTxns, t ∈ g.txnManager.activeTxns)
    (hTxns : ∀ t ∈ g'.txnManager.activeTxns, ∀ k id,
      (g'.txns t.txnId).lookupWrite k id = (g.txns t.txnId).lookupWrite k id) : GuardsOk g' := by
  intro t ht k id intent hLook
  rw [hTxns t ht k id] at hLook
  exact h t (hActive t ht) k id intent hLook

theorem GuardsOk.ends (h : GuardsOk g) (he : Ends g g' txn) : GuardsOk g' := by
  refine h.mono (fun t ht => (he.mem_active.mp ht).1) fun t ht k id => ?_
  rw [he.others _ (he.mem_active.mp ht).2]

theorem GuardsOk.begun (hwf : WF g) (h : GuardsOk g) {idGen : TransactionIdGenerator}
    {tsGen : GlobalTimestampGenerator} (hNew : txn.txnId = g.counters.2) :
    GuardsOk (g.begun txn idGen tsGen) := by
  intro t ht k id intent hLook
  rcases mem_active_begun ht with rfl | ht
  · have hSelf : (g.begun t idGen tsGen).txns t.txnId = .new := Function.update_self ..
    rw [hSelf] at hLook
    cases k <;> cases hLook
  · have hne : t.txnId ≠ txn.txnId := by
      have := (hwf.activeId t ht).2
      omega
    have hSame : (g.begun txn idGen tsGen).txns t.txnId = g.txns t.txnId :=
      Function.update_of_ne hne ..
    rw [hSame] at hLook
    exact h t ht k id intent hLook

theorem GuardsOk.step [DecidableEq V] {a : Action V} (hwf : WF g) (h : GuardsOk g)
    (hs : Step g a g') : GuardsOk g' := by
  cases step_cases hwf hs with
  | idle _ hg => exact hg ▸ h
  | skipId hId hg =>
    rw [hg]
    exact h
  | @begun _ txn idGen tsGen hNew hId hStart hMono hMax hDrawn hGiven hg =>
    rw [hg]
    have hBegun : GuardsOk (g.begun txn idGen tsGen) := h.begun hwf hNew
    exact hBegun
  | op ht hSteps => exact h.opSteps hwf ht hSteps
  | query ht hSteps => exact h.opSteps hwf ht hSteps
  | rollback ht hAbort => exact h.ends hAbort.toEnds
  | abort ht hAbort => exact h.ends hAbort.toEnds
  | commitPess ht _ _ _ _ hCommit => exact h.ends hCommit.toEnds
  | commitOpt ht _ _ _ _ hCommit => exact h.ends hCommit.toEnds
  | garbageCollect hg =>
    rw [hg]
    exact h.mono (fun t ht => ht) fun t ht k id => by rw [txns_garbageCollect]
  | release hHeld hg =>
    rw [hg]
    refine h.mono (fun t ht => ht) fun t ht k id => ?_
    rw [show (g.release _).txns t.txnId = g.txns t.txnId from
      txns_modifyTxn_of_ne g _ (ne_of_isHeld hHeld ht)]

end MiniGU.MemoryGraph
