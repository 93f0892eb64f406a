import MiniGU.Invariant.TxnStep

/-!
# What is left of a transaction that has finished

The end of a transaction touches no buffer but its own (`OwnOnly`) and leaves it without
write intents, and with a commit timestamp in its cell or an empty undo buffer (`Spent`).
Neither needs the graph to be well formed, so both hold in every run, whatever the
collections in it have removed.
-/

namespace MiniGU.MemoryGraph

variable {V : Type} {g g' g₁ : MemoryGraph V} {txn : MemTransaction} {commitTs : Nat}
  {skipWal : Bool}

/-- Only the buffers of `txn` change, nothing is drawn, nobody becomes active and nobody else
leaves. -/
structure OwnOnly (g g' : MemoryGraph V) (txn : MemTransaction) : Prop where
  others : ∀ t, t ≠ txn.txnId → g'.txns t = g.txns t
  active : ∀ t ∈ g'.txnManager.activeTxns, t ∈ g.txnManager.activeTxns
  stays : ∀ t ∈ g.txnManager.activeTxns, t.txnId ≠ txn.txnId → t ∈ g'.txnManager.activeTxns
  counters : g'.counters = g.counters

namespace OwnOnly

theorem of_active (hOthers : ∀ t, t ≠ txn.txnId → g'.txns t = g.txns t)
    (hActive : g'.txnManager.activeTxns = g.txnManager.activeTxns)
    (hCounters : g'.counters = g.counters) : OwnOnly g g' txn :=
  ⟨hOthers, fun t ht => by rwa [hActive] at ht, fun t ht _ => by rwa [hActive], hCounters⟩

theorem refl : OwnOnly g g txn := of_active (fun _ _ => rfl) rfl rfl

theorem trans (h : OwnOnly g g₁ txn) (h' : OwnOnly g₁ g' txn) : OwnOnly g g' txn :=
  ⟨fun t ht => (h'.others t ht).trans (h.others t ht), fun t ht => h.active t (h'.active t ht),
    fun t ht hne => h'.stays t (h.stays t ht hne) hne, h'.counters.trans h.counters⟩

theorem store (h : SameButStore g g') : OwnOnly g g' txn :=
  of_active (fun t _ => by rw [h.txns]) (by rw [h.txnManager]) h.counters

theorem applied (h : Applied g g' txn) : OwnOnly g g' txn :=
  of_active h.others (by rw [h.txnManager]) h.counters

theorem modifyTxn (f : TxnState V → TxnState V) : OwnOnly g (g.modifyTxn txn.txnId f) txn :=
  of_active (fun _ ht => txns_modifyTxn_of_ne g f ht) rfl rfl

theorem appendWal (op : Operation V) : OwnOnly g (g.appendWal txn op) txn :=
  of_active (fun _ _ => rfl) rfl rfl

end OwnOnly

theorem txnManager_opSteps (hs : OpSteps txn g g') : g'.txnManager = g.txnManager := by
  induction hs with
  | refl => rfl
  | tail _ hStep ih => exact hStep.txnManager.trans ih

theorem ownOnly_opSteps (hs : OpSteps txn g g') : OwnOnly g g' txn := by
  refine .of_active (fun t ht => ?_) (by rw [txnManager_opSteps hs]) (counters_opSteps hs)
  induction hs with
  | refl => rfl
  | tail _ hStep ih => exact (hStep.txns_of_ne ht).trans ih

/-! ## Leaving the manager -/

theorem txns_collectAtThreshold : g.collectAtThreshold.txns = g.txns := by
  unfold collectAtThreshold
  split
  · split
    · exact txns_garbageCollect
    · rfl
  · rfl

theorem counters_collectAtThreshold : g.collectAtThreshold.counters = g.counters := by
  unfold collectAtThreshold
  split
  · split
    · exact counters_garbageCollect
    · rfl
  · rfl

theorem activeTxns_collectAtThreshold :
    g.collectAtThreshold.txnManager.activeTxns = g.txnManager.activeTxns := by
  unfold collectAtThreshold
  split
  · split
    · exact activeTxns_garbageCollect
    · rfl
  · rfl

theorem txns_finishTransaction : (g.finishTransaction txn).1.txns = g.txns := by
  obtain ⟨-, hTxns, -⟩ := retire_frame g txn
  unfold finishTransaction
  split
  · rw [txns_collectAtThreshold, hTxns]
  · rfl

theorem ownOnly_finishTransaction : OwnOnly g (g.finishTransaction txn).1 txn := by
  obtain ⟨-, -, -, hCounters, hActive, -⟩ := retire_frame g txn
  refine ⟨fun t _ => by rw [txns_finishTransaction], fun t ht => ?_, fun t ht hne => ?_, ?_⟩
  · unfold finishTransaction at ht
    split at ht
    · rw [activeTxns_collectAtThreshold, hActive] at ht
      exact (List.mem_filter.mp ht).1
    · exact ht
  · unfold finishTransaction
    split
    · rw [activeTxns_collectAtThreshold, hActive]
      exact List.mem_filter.mpr ⟨ht, by simpa using hne⟩
    · exact ht
  · unfold finishTransaction
    split
    · rw [counters_collectAtThreshold, hCounters]
    · rfl

/-- A transaction that is not active does not get past `finish_transaction`. -/
theorem finishTransaction_of_inactive (h : ∀ t ∈ g.txnManager.activeTxns, t.txnId ≠ txn.txnId) :
    g.finishTransaction txn = (g, .error (.transactionNotFound txn.txnId)) := by
  unfold finishTransaction
  rw [if_neg]
  intro hAny
  obtain ⟨t, ht, hId⟩ := List.any_eq_true.mp hAny
  exact h t ht (by simpa using hId)

/-! ## Aborting -/

/-- The buffers of a transaction that has been rolled back. -/
structure Cleared (g : MemoryGraph V) (txn : MemTransaction) : Prop where
  undoBuffer : (g.txns txn.txnId).undoBuffer = []
  vertexWrites : (g.txns txn.txnId).vertexWrites = []
  edgeWrites : (g.txns txn.txnId).edgeWrites = []

/-- The buffers of a finished transaction: no intent is left, and unless it has a commit
timestamp no undo entry either. -/
structure Spent (g : MemoryGraph V) (txn : MemTransaction) : Prop where
  vertexWrites : (g.txns txn.txnId).vertexWrites = []
  edgeWrites : (g.txns txn.txnId).edgeWrites = []
  undoBuffer : (g.txns txn.txnId).commitTs = none → (g.txns txn.txnId).undoBuffer = []

theorem Cleared.spent (h : Cleared g txn) : Spent g txn :=
  ⟨h.vertexWrites, h.edgeWrites, fun _ => h.undoBuffer⟩

theorem Spent.congr (h : Spent g txn) (hTxns : g'.txns txn.txnId = g.txns txn.txnId) :
    Spent g' txn := by
  refine ⟨?_, ?_, fun hNone => ?_⟩
  · rw [hTxns, h.vertexWrites]
  · rw [hTxns, h.edgeWrites]
  · rw [hTxns] at hNone ⊢
    exact h.undoBuffer hNone

theorem Cleared.congr (h : Cleared g txn) (hTxns : g'.txns txn.txnId = g.txns txn.txnId) :
    Cleared g' txn := by
  refine ⟨?_, ?_, ?_⟩
  · rw [hTxns, h.undoBuffer]
  · rw [hTxns, h.vertexWrites]
  · rw [hTxns, h.edgeWrites]

theorem txns_markHandled : (g.markHandled txn).txns txn.txnId =
    { g.txns txn.txnId with isHandled := true } := by
  rw [markHandled, txns_modifyTxn_self]

theorem Spent.markHandled (h : Spent g txn) : Spent (g.markHandled txn) txn := by
  refine ⟨?_, ?_, fun hNone => ?_⟩
  · rw [txns_markHandled]
    exact h.vertexWrites
  · rw [txns_markHandled]
    exact h.edgeWrites
  · rw [txns_markHandled] at hNone ⊢
    exact h.undoBuffer hNone

theorem Cleared.markHandled (h : Cleared g txn) : Cleared (g.markHandled txn) txn := by
  refine ⟨?_, ?_, ?_⟩
  · rw [txns_markHandled]
    exact h.undoBuffer
  · rw [txns_markHandled]
    exact h.vertexWrites
  · rw [txns_markHandled]
    exact h.edgeWrites

theorem ownOnly_undoAll : OwnOnly g (g.undoAll txn) txn :=
  (OwnOnly.modifyTxn _).trans (.store (sameButStore_undoAll g txn))

theorem undoBuffer_undoAll : ((g.undoAll txn).txns txn.txnId).undoBuffer = [] := by
  rw [(sameButStore_undoAll g txn).txns, txns_modifyTxn_self]

/-- The graph that `abort_at` hands to `finish_transaction`. -/
def abortDrained (g : MemoryGraph V) (txn : MemTransaction) (skipWal : Bool) : MemoryGraph V :=
  (if skipWal then g.undoAll txn else (g.undoAll txn).appendWal txn .abortTransaction).clearWrites txn

theorem ownOnly_abortDrained : OwnOnly g (g.abortDrained txn skipWal) txn := by
  unfold abortDrained
  refine OwnOnly.trans ?_ (OwnOnly.modifyTxn _)
  split
  · exact ownOnly_undoAll
  · exact ownOnly_undoAll.trans (.appendWal _)

theorem cleared_abortDrained : Cleared (g.abortDrained txn skipWal) txn := by
  have hUndo : (((if skipWal then g.undoAll txn
      else (g.undoAll txn).appendWal txn .abortTransaction).txns txn.txnId).undoBuffer = []) := by
    split
    · exact undoBuffer_undoAll
    · exact undoBuffer_undoAll
  unfold abortDrained clearWrites
  refine ⟨?_, ?_, ?_⟩
  · rw [txns_modifyTxn_self]
    exact hUndo
  · rw [txns_modifyTxn_self]
  · rw [txns_modifyTxn_self]

theorem abortAt_eq : g.abortAt txn skipWal =
    match (g.abortDrained txn skipWal).finishTransaction txn with
    | (g, .error e) => (g, .error e)
    | (g, .ok _) => (g.markHandled txn, .ok ()) := rfl

theorem ownOnly_abortAt : OwnOnly g (g.abortAt txn skipWal).1 txn := by
  have hFin : OwnOnly (g.abortDrained txn skipWal)
      ((g.abortDrained txn skipWal).finishTransaction txn).1 txn := ownOnly_finishTransaction
  rw [abortAt_eq]
  cases hRes : (g.abortDrained txn skipWal).finishTransaction txn with
  | mk g₁ r =>
    rw [hRes] at hFin
    cases r with
    | error e => exact ownOnly_abortDrained.trans hFin
    | ok u =>
      have hMark : OwnOnly g₁ (g₁.markHandled txn) txn := OwnOnly.modifyTxn _
      exact (ownOnly_abortDrained.trans hFin).trans hMark

theorem cleared_abortAt : Cleared (g.abortAt txn skipWal).1 txn := by
  have hTxns : ((g.abortDrained txn skipWal).finishTransaction txn).1.txns =
      (g.abortDrained txn skipWal).txns := txns_finishTransaction
  have hDrained : Cleared (g.abortDrained txn skipWal) txn := cleared_abortDrained
  rw [abortAt_eq]
  cases hRes : (g.abortDrained txn skipWal).finishTransaction txn with
  | mk g₁ r =>
    rw [hRes] at hTxns
    have hMid : Cleared g₁ txn := hDrained.congr (by rw [show g₁.txns = _ from hTxns])
    cases r with
    | error e => exact hMid
    | ok u => exact hMid.markHandled

/-! ## Committing -/

/-- What a commit may come to for its transaction: it is still active, or it is spent. -/
def EndsWell (g' : MemoryGraph V) (txn : MemTransaction) : Prop :=
  txn ∉ g'.txnManager.activeTxns → Spent g' txn

theorem abortWith_fst {α : Type} {err : StorageError} :
    (g.abortWith txn err : Outcome V α).1 = (g.abortAt txn false).1 := by
  unfold abortWith
  cases g.abortAt txn false with
  | mk g₁ r => cases r <;> rfl

theorem ownOnly_abortWith {α : Type} {err : StorageError} :
    OwnOnly g (g.abortWith txn err : Outcome V α).1 txn := by
  rw [abortWith_fst]
  exact ownOnly_abortAt

theorem endsWell_abortWith {α : Type} {err : StorageError} :
    EndsWell (g.abortWith txn err : Outcome V α).1 txn := by
  rw [abortWith_fst]
  exact fun _ => cleared_abortAt.spent

theorem sameButStore_publishAll (commitTs : Nat) (deltas : List (DeltaOp V)) :
    SameButStore g (publishAll commitTs g deltas).1 := by
  induction deltas generalizing g with
  | nil => exact ⟨rfl, rfl, rfl⟩
  | cons δ deltas ih =>
    unfold publishAll
    split
    · exact ⟨rfl, rfl, rfl⟩
    · rename_i g₁ hPub
      obtain ⟨k, id, c, -, -, rfl⟩ := publish_some hPub
      exact (SameButStore.setChain ..).trans ih

/-- An intent that cannot be applied leaves the graph as it is. -/
theorem applyIntent_error [DecidableEq V] {k : Kind} {id : Nat} {intent : WriteIntent (Data V k)}
    {e : StorageError} (h : applyIntent txn k g id intent = (g', .error e)) : g' = g := by
  obtain ⟨guardTs, kind⟩ := intent
  unfold applyIntent at h
  cases kind with
  | insert d => cases (Prod.mk.inj h).2
  | update before after =>
    dsimp only at h
    split at h
    · exact (Prod.mk.inj h).1.symm
    · cases (Prod.mk.inj h).2
  | delete before =>
    dsimp only at h
    split at h
    · exact (Prod.mk.inj h).1.symm
    · cases (Prod.mk.inj h).2

theorem applied_applyIntents [DecidableEq V] {k : Kind} (ws : List (Nat × WriteIntent (Data V k))) :
    Applied g (applyIntents txn k g ws).1 txn := by
  induction ws generalizing g with
  | nil => exact .refl
  | cons w ws ih =>
    obtain ⟨id, intent⟩ := w
    unfold applyIntents
    cases hHead : applyIntent txn k g id intent with
    | mk g₁ r =>
      cases r with
      | ok u => exact ((Applied.writeVersion ..).trans (.adjacency (applyIntent_ok hHead))).trans ih
      | error e =>
        rw [applyIntent_error hHead]
        exact .refl

/-- The graph that `finalize_commit_common` hands to `finish_transaction`. -/
def commitLogged (g : MemoryGraph V) (txn : MemTransaction) (commitTs : Nat) (skipWal : Bool) :
    MemoryGraph V :=
  ((if skipWal then g else g.flushRedoAndCommitWal txn commitTs).setLatestCommitTs
    commitTs).clearWrites txn

theorem finalizeCommitCommon_logged : g.finalizeCommitCommon txn commitTs skipWal =
    (g.commitLogged txn commitTs skipWal).finishTransaction txn := rfl

theorem txns_flushRedoAndCommitWal : (g.flushRedoAndCommitWal txn commitTs).txns =
    (g.modifyTxn txn.txnId fun s => { s with redoBuffer := [] }).txns := rfl

theorem ownOnly_commitLogged : OwnOnly g (g.commitLogged txn commitTs skipWal) txn := by
  have hFlush : OwnOnly g (g.flushRedoAndCommitWal txn commitTs) txn := by
    refine .of_active (fun t ht => ?_) rfl rfl
    rw [txns_flushRedoAndCommitWal, txns_modifyTxn_of_ne g _ ht]
  unfold commitLogged
  refine OwnOnly.trans ?_ (OwnOnly.modifyTxn _)
  split
  · exact .of_active (fun _ _ => rfl) rfl rfl
  · exact ⟨hFlush.others, hFlush.active, hFlush.stays, hFlush.counters⟩

theorem commitTs_commitLogged : ((g.commitLogged txn commitTs skipWal).txns txn.txnId).commitTs =
    (g.txns txn.txnId).commitTs := by
  unfold commitLogged clearWrites
  rw [txns_modifyTxn_self]
  split
  · rfl
  · show ((g.flushRedoAndCommitWal txn commitTs).txns txn.txnId).commitTs = _
    rw [txns_flushRedoAndCommitWal, txns_modifyTxn_self]

theorem spent_commitLogged (hCell : (g.txns txn.txnId).commitTs ≠ none) :
    Spent (g.commitLogged txn commitTs skipWal) txn := by
  refine ⟨?_, ?_, fun hNone => ?_⟩
  · unfold commitLogged clearWrites
    rw [txns_modifyTxn_self]
  · unfold commitLogged clearWrites
    rw [txns_modifyTxn_self]
  · rw [commitTs_commitLogged] at hNone
    exact absurd hNone hCell

theorem finalize_ends {r : Outcome V Nat} (hCell : (g.txns txn.txnId).commitTs = some commitTs)
    (hr : r.1 = (g.finalizeCommitCommon txn commitTs skipWal).1) :
    OwnOnly g r.1 txn ∧ EndsWell r.1 txn := by
  rw [hr, finalizeCommitCommon_logged]
  refine ⟨ownOnly_commitLogged.trans ownOnly_finishTransaction, fun _ => ?_⟩
  have hSpent : Spent (g.commitLogged txn commitTs skipWal) txn :=
    spent_commitLogged (by rw [hCell]; simp)
  exact hSpent.congr (by rw [txns_finishTransaction])

theorem setCommitTs_some {g₁ : MemoryGraph V} (h : g.setCommitTs txn commitTs = some g₁) :
    OwnOnly g g₁ txn ∧ (g₁.txns txn.txnId).commitTs = some commitTs ∧
      g₁ = g.modifyTxn txn.txnId (fun s => { s with commitTs := some commitTs }) := by
  unfold setCommitTs at h
  split at h
  · cases h
  · obtain rfl := Option.some.inj h
    refine ⟨.modifyTxn _, ?_, rfl⟩
    rw [txns_modifyTxn_self]

theorem commitPessimistic_ends : OwnOnly g (g.commitPessimistic txn commitTs skipWal).1 txn ∧
    (txn ∈ g.txnManager.activeTxns → EndsWell (g.commitPessimistic txn commitTs skipWal).1 txn) := by
  unfold commitPessimistic
  cases hSet : g.setCommitTs txn commitTs with
  | none => exact ⟨ownOnly_abortWith, fun _ => endsWell_abortWith⟩
  | some g₁ =>
    obtain ⟨hOwn, hCell, -⟩ := setCommitTs_some hSet
    have hPub := @sameButStore_publishAll V g₁ commitTs ((g₁.txns txn.txnId).undoBuffer.map
      UndoEntry.delta)
    dsimp only
    cases hRes : publishAll commitTs g₁ ((g₁.txns txn.txnId).undoBuffer.map UndoEntry.delta) with
    | mk g₂ r =>
      rw [hRes] at hPub
      cases r with
      | error e =>
        -- a publication that panics leaves the transaction active
        obtain ⟨-, -, rfl⟩ := setCommitTs_some hSet
        refine ⟨hOwn.trans (.store hPub), fun ht hNot => absurd ?_ hNot⟩
        rw [hPub.txnManager]
        exact ht
      | ok u =>
        have hCell₂ : (g₂.txns txn.txnId).commitTs = some commitTs := by rw [hPub.txns, hCell]
        obtain ⟨hFin, hEnds⟩ := @finalize_ends V g₂ txn commitTs skipWal
          (match g₂.finalizeCommitCommon txn commitTs skipWal with
            | (g, .error e) => (g, .error e)
            | (g, .ok _) => (g, .ok commitTs)) hCell₂ (by
              cases g₂.finalizeCommitCommon txn commitTs skipWal with
              | mk g₃ r => cases r <;> rfl)
        exact ⟨(hOwn.trans (.store hPub)).trans hFin, fun _ => hEnds⟩

/-- An optimistic commit touches its own transaction only, and one that is active ends. -/
theorem commitOptimistic_ends [DecidableEq V] :
    OwnOnly g (g.commitOptimistic txn commitTs skipWal).1 txn ∧
    (txn ∈ g.txnManager.activeTxns → EndsWell (g.commitOptimistic txn commitTs skipWal).1 txn) := by
  unfold commitOptimistic
  dsimp only
  split
  · exact ⟨ownOnly_abortWith, fun _ => endsWell_abortWith⟩
  · split
    · exact ⟨ownOnly_abortWith, fun _ => endsWell_abortWith⟩
    · have hVertices := @applied_applyIntents V g txn _ .vertex (g.txns txn.txnId).vertexWrites
      cases hV : applyIntents txn .vertex g (g.txns txn.txnId).vertexWrites with
      | mk g₁ r₁ =>
        rw [hV] at hVertices
        cases r₁ with
        | error e =>
          -- the transaction stays active
          refine ⟨.applied hVertices, fun ht hNot => absurd ?_ hNot⟩
          rwa [hVertices.txnManager]
        | ok u =>
          dsimp only
          have hEdges := @applied_applyIntents V g₁ txn _ .edge (g.txns txn.txnId).edgeWrites
          cases hE : applyIntents txn .edge g₁ (g.txns txn.txnId).edgeWrites with
          | mk g₂ r₂ =>
            rw [hE] at hEdges
            have hBoth : Applied g g₂ txn := hVertices.trans hEdges
            cases r₂ with
            | error e =>
              refine ⟨.applied hBoth, fun ht hNot => absurd ?_ hNot⟩
              rwa [hBoth.txnManager]
            | ok u =>
              dsimp only
              generalize hStamp : g₂.stampAll txn commitTs _ _ = g₃
              have hOwn : OwnOnly g g₃ txn := by
                rw [← hStamp]
                unfold stampAll
                exact (OwnOnly.applied hBoth).trans
                  (.store ((foldl_stampOwn ..).1.trans (foldl_stampOwn ..).1))
              cases hSet : g₃.setCommitTs txn commitTs with
              | none => exact ⟨hOwn.trans ownOnly_abortWith, fun _ => endsWell_abortWith⟩
              | some g₄ =>
                obtain ⟨hOwn₄, hCell, -⟩ := setCommitTs_some hSet
                obtain ⟨hFin, hEnds⟩ := @finalize_ends V g₄ txn commitTs skipWal
                  (match g₄.finalizeCommitCommon txn commitTs skipWal with
                    | (g, .error e) => (g, .error e)
                    | (g, .ok _) => (g, .ok commitTs)) hCell (by
                      cases g₄.finalizeCommitCommon txn commitTs skipWal with
                      | mk g₅ r => cases r <;> rfl)
                exact ⟨(hOwn.trans hOwn₄).trans hFin, fun _ => hEnds⟩

theorem commitLocked_ends [DecidableEq V] :
    OwnOnly g (g.commitLocked txn commitTs skipWal).1 txn ∧
    (txn ∈ g.txnManager.activeTxns → EndsWell (g.commitLocked txn commitTs skipWal).1 txn) := by
  unfold commitLocked
  dsimp only
  split
  · exact ⟨ownOnly_abortWith, fun _ => endsWell_abortWith⟩
  · split
    · exact commitPessimistic_ends
    · exact commitOptimistic_ends

/-- **The end by a commit**, whichever way it goes: apart from the timestamp that is drawn,
only the transaction itself is touched, and unless it is still active it is spent. -/
theorem commitAt_ends [DecidableEq V] {ts? : Option Nat} :
    ∃ gen, OwnOnly { g with timestampGenerator := gen } (g.commitAt txn ts? skipWal).1 txn ∧
    (txn ∈ g.txnManager.activeTxns → EndsWell (g.commitAt txn ts? skipWal).1 txn) := by
  unfold commitAt
  cases hTs : g.timestampGenerator.obtain ts? with
  | error e => exact ⟨g.timestampGenerator, .refl, fun ht hNot => absurd ht hNot⟩
  | ok p =>
    obtain ⟨ts, tsGen⟩ := p
    refine ⟨tsGen, ?_⟩
    dsimp only
    obtain ⟨hOwn, hEnds⟩ := @commitLocked_ends V { g with timestampGenerator := tsGen } txn ts
      skipWal _
    cases hRes : ({ g with timestampGenerator := tsGen } : MemoryGraph V).commitLocked txn ts
      skipWal with
    | mk g₁ r =>
      rw [hRes] at hOwn hEnds
      cases r with
      | error e => exact ⟨hOwn, hEnds⟩
      | ok ts' =>
        have hMark : OwnOnly g₁ (g₁.markHandled txn) txn := OwnOnly.modifyTxn _
        refine ⟨hOwn.trans hMark, fun ht hNot => ?_⟩
        have hSpent : Spent g₁ txn := hEnds ht hNot
        exact hSpent.markHandled

/-! ## Calls that succeed -/

theorem finishTransaction_ok {u : Unit} (h : g.finishTransaction txn = (g', .ok u)) :
    g' = (g.retire txn).collectAtThreshold := by
  unfold finishTransaction at h
  split at h
  · exact (Prod.mk.inj h).1.symm
  · cases (Prod.mk.inj h).2

/-- A transaction that has got past `finish_transaction` is not active. -/
theorem ne_of_finishTransaction {u : Unit} (h : g.finishTransaction txn = (g', .ok u))
    {t : MemTransaction} (ht : t ∈ g'.txnManager.activeTxns) : t.txnId ≠ txn.txnId := by
  obtain ⟨-, -, -, -, hActive, -⟩ := retire_frame g txn
  rw [finishTransaction_ok h, activeTxns_collectAtThreshold, hActive] at ht
  simpa using (List.mem_filter.mp ht).2

theorem abortWith_not_ok {α : Type} {e : StorageError} {a : α}
    (h : g.abortWith txn e = (g', .ok a)) : False := by
  unfold abortWith at h
  split at h
  · cases (Prod.mk.inj h).2
  · cases (Prod.mk.inj h).2

theorem abortAt_ok {u : Unit} (h : g.abortAt txn skipWal = (g', .ok u)) :
    ∃ g₁, (g.abortDrained txn skipWal).finishTransaction txn = (g₁, .ok ()) ∧
      g' = g₁.markHandled txn := by
  rw [abortAt_eq] at h
  split at h
  · cases (Prod.mk.inj h).2
  · rename_i g₁ u' hFin
    exact ⟨g₁, hFin, (Prod.mk.inj h).1.symm⟩

theorem finalize_ok {ts : Nat} (h : (match g.finalizeCommitCommon txn commitTs skipWal with
      | (g, .error e) => (g, .error e)
      | (g, .ok _) => (g, .ok commitTs) : Outcome V Nat) = (g', .ok ts)) :
    (g.commitLogged txn commitTs skipWal).finishTransaction txn = (g', .ok ()) := by
  rw [finalizeCommitCommon_logged] at h
  split at h
  · cases (Prod.mk.inj h).2
  · rename_i g₁ u hFin
    rw [← (Prod.mk.inj h).1]
    exact hFin

/-- A pessimistic commit that succeeds: the cell, the publication, the end. -/
theorem commitPessimistic_ok {ts : Nat}
    (h : g.commitPessimistic txn commitTs skipWal = (g', .ok ts)) :
    ∃ g₁ g₂, g.setCommitTs txn commitTs = some g₁ ∧
      publishAll commitTs g₁ ((g₁.txns txn.txnId).undoBuffer.map UndoEntry.delta) = (g₂, .ok ()) ∧
      (g₂.commitLogged txn commitTs skipWal).finishTransaction txn = (g', .ok ()) := by
  unfold commitPessimistic at h
  split at h
  · exact (abortWith_not_ok h).elim
  · rename_i g₁ hSet
    split at h
    · cases (Prod.mk.inj h).2
    · rename_i g₂ u hPub
      exact ⟨g₁, g₂, hSet, hPub, finalize_ok h⟩

/-- An optimistic commit that succeeds: validation, application, stamps, the cell, the end. -/
theorem commitOptimistic_ok [DecidableEq V] {ts : Nat}
    (h : g.commitOptimistic txn commitTs skipWal = (g', .ok ts)) :
    (∀ k, g.validateIntents txn k ((g.txns txn.txnId).writes k) = .ok ()) ∧
    ∃ g₁ g₂ g₃,
      applyIntents txn .vertex g (g.txns txn.txnId).vertexWrites = (g₁, .ok ()) ∧
      applyIntents txn .edge g₁ (g.txns txn.txnId).edgeWrites = (g₂, .ok ()) ∧
      (g₂.stampAll txn commitTs ((g.txns txn.txnId).vertexWrites.map Prod.fst)
        ((g.txns txn.txnId).edgeWrites.map Prod.fst)).setCommitTs txn commitTs = some g₃ ∧
      (g₃.commitLogged txn commitTs skipWal).finishTransaction txn = (g', .ok ()) := by
  unfold commitOptimistic at h
  dsimp only at h
  split at h
  · exact (abortWith_not_ok h).elim
  · rename_i hVertex
    split at h
    · exact (abortWith_not_ok h).elim
    · rename_i hEdge
      split at h
      · cases (Prod.mk.inj h).2
      · rename_i g₁ u₁ hApplyV
        split at h
        · cases (Prod.mk.inj h).2
        · rename_i g₂ u₂ hApplyE
          split at h
          · exact (abortWith_not_ok h).elim
          · rename_i g₃ hSet
            refine ⟨fun k => ?_, g₁, g₂, g₃, hApplyV, hApplyE, hSet, finalize_ok h⟩
            cases k with
            | vertex => exact hVertex
            | edge => exact hEdge

theorem commitLocked_ok [DecidableEq V] {ts : Nat}
    (h : g.commitLocked txn commitTs skipWal = (g', .ok ts)) :
    ReadsValid g txn ∧
    ((txn.lockStrategy = .pessimistic ∧ g.commitPessimistic txn commitTs skipWal = (g', .ok ts)) ∨
      (txn.lockStrategy = .optimistic ∧ g.commitOptimistic txn commitTs skipWal = (g', .ok ts))) := by
  unfold commitLocked at h
  dsimp only at h
  split at h
  · exact (abortWith_not_ok h).elim
  · rename_i hValid
    refine ⟨fun hSer => ?_, ?_⟩
    · rw [hSer] at hValid
      exact hValid
    · split at h
      · rename_i hLock
        exact .inl ⟨hLock, h⟩
      · rename_i hLock
        exact .inr ⟨hLock, h⟩

/-- A transaction whose commit succeeds has left `active_txns`. -/
theorem ne_of_commitLocked [DecidableEq V] {ts : Nat}
    (h : g.commitLocked txn commitTs skipWal = (g', .ok ts)) {t : MemTransaction}
    (ht : t ∈ g'.txnManager.activeTxns) : t.txnId ≠ txn.txnId := by
  obtain ⟨-, ⟨-, hPess⟩ | ⟨-, hOpt⟩⟩ := commitLocked_ok h
  · obtain ⟨_, _, _, _, hFin⟩ := commitPessimistic_ok hPess
    exact ne_of_finishTransaction hFin ht
  · obtain ⟨_, _, _, _, _, _, _, hFin⟩ := commitOptimistic_ok hOpt
    exact ne_of_finishTransaction hFin ht

theorem commitAt_ok [DecidableEq V] {ts? : Option Nat} {ts : Nat}
    (h : g.commitAt txn ts? skipWal = (g', .ok ts)) :
    ∃ commitTs gen g₁, g.timestampGenerator.obtain ts? = .ok (commitTs, gen) ∧
      ({ g with timestampGenerator := gen } : MemoryGraph V).commitLocked txn commitTs skipWal =
        (g₁, .ok ts) ∧ g' = g₁.markHandled txn := by
  unfold commitAt at h
  split at h
  · cases (Prod.mk.inj h).2
  · rename_i commitTs gen hTs
    split at h
    · cases (Prod.mk.inj h).2
    · rename_i g₁ ts' hLocked
      obtain ⟨hg, hTs'⟩ := Prod.mk.inj h
      cases hTs'
      exact ⟨commitTs, gen, g₁, hTs, hLocked, hg.symm⟩

end MiniGU.MemoryGraph
