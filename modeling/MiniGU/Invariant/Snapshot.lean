import MiniGU.Invariant.Guards
import MiniGU.Invariant.Order

/-!
# What a snapshot sees

`snap g s k id` is the version of an entity that a reader which started at `s` is given
through the undo records.
-/

namespace MiniGU

variable {V : Type}

/-- Tombstones are given to nobody. -/
def Data.alive {k : Kind} (d : Data V k) : Option (Data V k) :=
  if d.isTombstone then none else some d

theorem Data.alive_of_gone {k : Kind} {d : Data V k} (h : Gone d) : d.alive = none := if_pos h

theorem Data.alive_eq_some {k : Kind} {d d' : Data V k} :
    d.alive = some d' ↔ d.isTombstone = false ∧ d = d' := by
  unfold Data.alive
  cases d.isTombstone <;> simp

namespace MemoryGraph

/-- The version of an entity that a snapshot at `s` is given. -/
def snap (g : MemoryGraph V) (s : Nat) (k : Kind) (id : Nat) : Option (Data V k) :=
  (g.chain k id).bind fun c => (c.readAt DeltaOp.undo g.upgradable s).alive

variable {g g' : MemoryGraph V} {txn : MemTransaction} {k : Kind} {id s : Nat}
  {c : VersionChain (Data V k) (DeltaOp V)}

theorem snap_of_chain (hc : g.chain k id = some c) :
    g.snap s k id = (c.readAt DeltaOp.undo g.upgradable s).alive := by
  simp [snap, hc]

theorem snap_of_none (hc : g.chain k id = none) : g.snap s k id = none := by
  simp [snap, hc]

theorem upgradable_congr {t : Nat} (h : (g'.txns t).undoBuffer = (g.txns t).undoBuffer) :
    g'.upgradable t = g.upgradable t := by
  unfold upgradable
  rw [h]

/-! ## Readers -/

theorem WF.isForeign_eq (h : WF g) (ht : txn ∈ g.txnManager.activeTxns) {ts : Nat}
    (hne : ts ≠ txn.txnId) : txn.isForeign ts = decide (txn.startTs < ts) := by
  have hStart := h.activeStart txn ht
  have hMax := h.tsBound
  unfold MemTransaction.isForeign Timestamp.isTxnId Timestamp.isCommitTs
  by_cases hId : Timestamp.txnIdStart ≤ ts
  · have hlt : txn.startTs < ts := by
      unfold Timestamp.maxCommitTs Timestamp.txnIdStart at *
      omega
    simp [hId, hne, hlt]
  · have hTs : ts < Timestamp.txnIdStart := by omega
    simp [hId, hTs]

/-- A reader that has not written a chain is given the version of its start. -/
theorem WF.visibleData_eq (h : WF g) (ht : txn ∈ g.txnManager.activeTxns)
    (hne : c.current.commitTs ≠ txn.txnId) :
    g.visibleData txn c = c.readAt DeltaOp.undo g.upgradable txn.startTs := by
  unfold visibleData applyDeltasForRead
  rw [h.isForeign_eq ht hne]
  by_cases hlt : txn.startTs < c.current.commitTs
  · rw [VersionChain.readAt_of_lt hlt]
    simp [hlt]
  · rw [VersionChain.readAt_of_le (by omega)]
    simp [hlt]

/-- The entity is not the transaction's own: it holds neither its head nor an intent. -/
structure Untouched (g : MemoryGraph V) (txn : MemTransaction) (k : Kind) (id : Nat) : Prop where
  head : ∀ c, g.chain k id = some c → c.current.commitTs ≠ txn.txnId
  pending : g.pendingWrite txn k id = none

/-- **A point read of an entity that the reader has not written.** -/
theorem WF.readEntity_toOption (h : WF g) (ht : txn ∈ g.txnManager.activeTxns)
    (hU : Untouched g txn k id) :
    (g.readEntity txn k id).toOption = g.snap txn.startTs k id := by
  unfold readEntity
  rw [hU.pending]
  cases hc : g.chain k id with
  | none => simp [snap_of_none hc, Except.toOption]
  | some c =>
    dsimp only
    rw [snap_of_chain hc, h.visibleData_eq ht (hU.head c hc)]
    unfold Data.alive
    split <;> rfl

/-! ## Operations -/

theorem WF.id_gt (h : WF g) (ht : txn ∈ g.txnManager.activeTxns)
    (hMax : s ≤ Timestamp.maxCommitTs) : s < txn.txnId := by
  have hId := (h.activeId txn ht).1
  unfold Timestamp.maxCommitTs Timestamp.txnIdStart at *
  omega

/-- The version that a transaction wrote over was committed before it started. -/
theorem WrittenBy.base_stamp {b : VersionChain (Data V k) (DeltaOp V)}
    {es : List (UndoEntry (DeltaOp V))}
    (hBy : WrittenBy txn k id (some b) es c) :
    b.current.commitTs ≤ txn.startTs ∧ ∃ e ∈ es, e.timestamp = b.current.commitTs := by
  obtain ⟨e, es', rfl, hTs, -⟩ := hBy.overlay.head_entry
  refine ⟨?_, e, List.mem_cons_self .., hTs⟩
  rcases hBy.canWrite e (List.mem_cons_self ..) with hOwn | hle
  · exact absurd (hTs.symm.trans hOwn) hBy.overlay.base_ne
  · omega

/-! ## Commits -/

/-- An optimistic transaction holds no head. -/
theorem WF.head_ne_of_opt (h : WF g) (ht : txn ∈ g.txnManager.activeTxns)
    (hOpt : txn.lockStrategy = .optimistic) (hc : g.chain k id = some c) :
    c.current.commitTs ≠ txn.txnId := by
  intro hOwn
  obtain ⟨base, hBy⟩ := h.writtenBy ht hc hOwn
  exact hBy.overlay.ne_nil (by simp [entriesFor, h.optUndo txn ht hOpt])

/-! ## Layers -/

/-- Each version was written by a transaction that committed no earlier than the stamp it
carries. -/
def Layers (g : MemoryGraph V) : Prop :=
  ∀ k id c, g.chain k id = some c →
    Layered (fun o => (g.txns o).commitTs) c.current.commitTs c.undoPtr

end MemoryGraph

end MiniGU
