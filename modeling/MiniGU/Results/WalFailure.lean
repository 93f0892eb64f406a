import MiniGU.Invariant.Snapshot
import MiniGU.Model.WalFailure

/-!
# A commit that fails on the log leaves its transaction behind

The heads are stamped with the commit timestamp before the log is written, and the
transaction leaves `active_txns` after it; an error of `append_wal` returns in between.
-/

namespace MiniGU.MemoryGraph

variable {V : Type} {g g' : MemoryGraph V} {txn : MemTransaction} {n commitTs : Nat}
  {skipWal : Bool}

/-- Replay applies what a transaction has logged when it finds its commit marker. -/
def IsLogged (g : MemoryGraph V) (txn : MemTransaction) : Prop :=
  ∃ e ∈ g.wal, e.txnId = txn.txnId ∧ ∃ ts, e.op = .commitTransaction ts

/-- **What a commit that returns an error must leave behind**: nobody reads its writes,
the log does not make them good, it is not active and what it wrote is not locked. -/
structure FailsCleanly (g g' : MemoryGraph V) (txn : MemTransaction) : Prop where
  unobserved : ∀ s, s < Timestamp.txnIdStart → ∀ k id, g'.snap s k id = g.snap s k id
  unlogged : ¬ g'.IsLogged txn
  inactive : txn ∉ g'.txnManager.activeTxns
  writable : ∀ k id c, g'.chain k id = some c → c.current.commitTs ≠ txn.txnId

/-! ## The manager along each failing path -/

theorem txnManager_abortWithWithin {α : Type} {err : StorageError}
    (h : (g.abortWithWithin n txn err : Attempt V α) = (g', .error .appendFailed)) :
    g'.txnManager = g.txnManager := by
  unfold abortWithWithin abortAtWithin at h
  simp only [Bool.false_eq_true, if_false] at h
  by_cases hn : n = 0
  · rw [if_pos hn] at h
    obtain ⟨rfl, -⟩ := Prod.mk.inj h
    exact txnManager_undoAll
  · -- the marker is written: what fails then is not the log
    rw [if_neg hn] at h
    cases hTail : ((g.undoAll txn).appendWal txn .abortTransaction).abortTail txn with
    | mk g₁ r =>
      rw [hTail] at h
      cases r <;> cases (Prod.mk.inj h).2

theorem txnManager_flushRedoAndCommitWalWithin {e : CommitFailure}
    (h : g.flushRedoAndCommitWalWithin n txn commitTs = (g', .error e)) :
    g'.txnManager = g.txnManager := by
  unfold flushRedoAndCommitWalWithin at h
  dsimp only at h
  split at h
  · obtain ⟨rfl, -⟩ := Prod.mk.inj h
    rfl
  · split at h
    · obtain ⟨rfl, -⟩ := Prod.mk.inj h
      rfl
    · cases (Prod.mk.inj h).2

theorem txnManager_finalizeWithin
    (h : g.finalizeWithin n txn commitTs skipWal = (g', .error .appendFailed)) :
    g'.txnManager = g.txnManager := by
  -- leaving the manager does not write the log
  have hFinish : ∀ (h₁ : MemoryGraph V) g₁,
      (h₁.finishTransaction txn).attempt ≠ (g₁, .error .appendFailed) := by
    intro h₁ g₁ heq
    cases hFin : h₁.finishTransaction txn with
    | mk g₂ r =>
      rw [hFin] at heq
      cases r <;> cases (Prod.mk.inj heq).2
  unfold finalizeWithin at h
  cases hCommon : g.finalizeCommitCommonWithin n txn commitTs skipWal with
  | mk g₁ r =>
    rw [hCommon] at h
    cases r with
    | ok u => cases (Prod.mk.inj h).2
    | error e =>
      obtain ⟨rfl, hErr⟩ := Prod.mk.inj h
      obtain rfl := Except.error.inj hErr
      unfold finalizeCommitCommonWithin at hCommon
      dsimp only at hCommon
      split at hCommon
      · exact absurd hCommon (hFinish _ _)
      · split at hCommon
        · rename_i hFlush
          obtain ⟨rfl, -⟩ := Prod.mk.inj hCommon
          exact txnManager_flushRedoAndCommitWalWithin hFlush
        · exact absurd hCommon (hFinish _ _)

theorem txnManager_setCommitTs (h : g.setCommitTs txn commitTs = some g') :
    g'.txnManager = g.txnManager := by
  unfold setCommitTs at h
  split at h
  · cases h
  · obtain rfl := Option.some.inj h
    exact txnManager_modifyTxn ..

theorem txnManager_commitPessimisticWithin
    (h : g.commitPessimisticWithin n txn commitTs skipWal = (g', .error .appendFailed)) :
    g'.txnManager = g.txnManager := by
  unfold commitPessimisticWithin at h
  split at h
  · exact txnManager_abortWithWithin h
  · rename_i g₁ hSet
    split at h
    · cases (Prod.mk.inj h).2
    · rename_i g₂ u hPub
      obtain ⟨hSame, -, -, -⟩ := publishAll_ok hPub
      rw [txnManager_finalizeWithin h, hSame.txnManager, txnManager_setCommitTs hSet]

theorem txnManager_applyIntents [DecidableEq V] {k : Kind}
    {ws : List (Nat × WriteIntent (Data V k))} {u : Unit}
    (h : applyIntents txn k g ws = (g', .ok u)) : g'.txnManager = g.txnManager := by
  induction ws generalizing g with
  | nil =>
    obtain ⟨rfl, -⟩ := Prod.mk.inj h
    rfl
  | cons w ws ih =>
    unfold applyIntents at h
    split at h
    · cases (Prod.mk.inj h).2
    · rename_i g₁ u' hHead
      rw [ih h, (applyIntent_ok hHead).txnManager]
      exact txnManager_writeVersion ..

theorem txnManager_commitOptimisticWithin [DecidableEq V]
    (h : g.commitOptimisticWithin n txn commitTs skipWal = (g', .error .appendFailed)) :
    g'.txnManager = g.txnManager := by
  unfold commitOptimisticWithin at h
  dsimp only at h
  split at h
  · exact txnManager_abortWithWithin h
  · split at h
    · exact txnManager_abortWithWithin h
    · split at h
      · cases (Prod.mk.inj h).2
      · rename_i g₁ u₁ hVertices
        split at h
        · cases (Prod.mk.inj h).2
        · rename_i g₂ u₂ hEdges
          have hStamp : ∀ vids eids, (g₂.stampAll txn commitTs vids eids).txnManager =
              g.txnManager := by
            intro vids eids
            unfold stampAll
            rw [(foldl_stampOwn ..).1.txnManager, (foldl_stampOwn ..).1.txnManager,
              txnManager_applyIntents hEdges, txnManager_applyIntents hVertices]
          split at h
          · rw [txnManager_abortWithWithin h, hStamp]
          · rename_i g₃ hSet
            rw [txnManager_finalizeWithin h, txnManager_setCommitTs hSet, hStamp]

theorem txnManager_commitLockedWithin [DecidableEq V]
    (h : g.commitLockedWithin n txn commitTs skipWal = (g', .error .appendFailed)) :
    g'.txnManager = g.txnManager := by
  unfold commitLockedWithin at h
  dsimp only at h
  split at h
  · exact txnManager_abortWithWithin h
  · split at h
    · exact txnManager_commitPessimisticWithin h
    · exact txnManager_commitOptimisticWithin h

/-- **Whichever call of `append_wal` fails, the commit is not undone**: the transaction
is left in `active_txns`. -/
theorem commit_failure_unclean [DecidableEq V] (g g' : MemoryGraph V) (txn : MemTransaction)
    (ht : txn ∈ g.txnManager.activeTxns) (n : Nat) (ts? : Option Nat) (skipWal : Bool)
    (h : g.commitAtWithin n txn ts? skipWal = (g', .error .appendFailed)) :
    ¬ FailsCleanly g g' txn := by
  rintro ⟨-, -, hInactive, -⟩
  unfold commitAtWithin at h
  split at h
  · cases (Prod.mk.inj h).2
  · rename_i ts tsGen hTs
    split at h
    · rename_i g₁ e hLocked
      obtain ⟨rfl, hErr⟩ := Prod.mk.inj h
      obtain rfl := Except.error.inj hErr
      rw [txnManager_commitLockedWithin hLocked] at hInactive
      exact hInactive ht
    · cases (Prod.mk.inj h).2

section Traces

/-- One transaction creates a vertex. -/
def oneWriterActions : List (Action Nat) :=
  [.begin none .snapshot .pessimistic,
    .op (snapshotTxn 1 1 .pessimistic) (.createVertex ⟨1, 1, [7], false⟩)]

/-- A commit of the writer whose second call of `append_wal`, the commit marker, fails:
whether it fails there, who is active, and what a reader at 3 is given before and after. -/
def markerFailureFacts (r : List (MemoryGraph Nat × Action Nat) × MemoryGraph Nat) :
    Bool × List MemTransaction × Option (List Nat) × Option (List Nat) :=
  let after := r.2.commitAtWithin 1 (snapshotTxn 1 1 .pessimistic) none false
  (match after.2 with
    | .error .appendFailed => true
    | _ => false,
    after.1.txnManager.activeTxns,
    (r.2.snap 3 .vertex 1).map Vertex.properties,
    (after.1.snap 3 .vertex 1).map Vertex.properties)

/-- **The marker fails and the writes are out**: the vertex is read by whoever starts at 3,
although the commit has returned an error. -/
theorem commit_failure_dirty : ∃ trace g,
    Run Step (fun _ _ => True) (.new none .pessimistic .snapshot : MemoryGraph Nat) trace g ∧
    ∃ t ∈ g.txnManager.activeTxns, ∃ g', g.commitAtWithin 1 t none false = (g', .error .appendFailed) ∧
      t ∈ g'.txnManager.activeTxns ∧ g.snap 3 .vertex 1 = none ∧
      (g'.snap 3 .vertex 1).map Vertex.properties = some [7] ∧ ¬ FailsCleanly g g' t := by
  let t := snapshotTxn 1 1 .pessimistic
  obtain ⟨trace, g, hList, hActive⟩ := exists_of_runList
    (show (runList (next fun _ _ => true)
      (.new none .pessimistic .snapshot : MemoryGraph Nat) oneWriterActions).map
      (fun r => r.2.txnManager.activeTxns) = some [t] by decide +kernel)
  have hFacts : (runList (next fun _ _ => true)
      (.new none .pessimistic .snapshot : MemoryGraph Nat) oneWriterActions).map
        markerFailureFacts = some (true, [t], none, some [7]) := by decide +kernel
  rw [hList, Option.map_some, Option.some.injEq] at hFacts
  simp only [markerFailureFacts, Prod.mk.injEq] at hFacts
  obtain ⟨hFails, hStays, hBefore, hAfter⟩ := hFacts
  have hBefore : g.snap 3 .vertex 1 = none := Option.map_eq_none_iff.mp hBefore
  refine ⟨trace, g, Run.of_runList (fun _ _ _ hNext => ⟨trivial, (step_of_next hNext).2⟩) hList,
    t, ?_, (g.commitAtWithin 1 t none false).1, ?_, ?_, hBefore, hAfter, fun hClean => ?_⟩
  · rw [show g.txnManager.activeTxns = [t] from hActive]
    exact List.mem_singleton_self _
  · refine Prod.ext rfl ?_
    split at hFails
    · rename_i hErr
      exact hErr
    · cases hFails
  · rw [hStays]
    exact List.mem_singleton_self _
  · rw [hClean.unobserved 3 (by decide) .vertex 1, hBefore] at hAfter
    cases hAfter

/-- The same commit, where the first call of `append_wal` fails. -/
theorem commit_failure_unclean_firstEntry : ∃ trace g,
    Run Step (fun _ _ => True) (.new none .pessimistic .snapshot : MemoryGraph Nat) trace g ∧
    ∃ t ∈ g.txnManager.activeTxns, ∃ g', g.commitAtWithin 0 t none false = (g', .error .appendFailed) ∧
      ¬ FailsCleanly g g' t := by
  let t := snapshotTxn 1 1 .pessimistic
  obtain ⟨trace, g, hList, hActive⟩ := exists_of_runList
    (show (runList (next fun _ _ => true)
      (.new none .pessimistic .snapshot : MemoryGraph Nat) oneWriterActions).map
      (fun r => r.2.txnManager.activeTxns) = some [t] by decide +kernel)
  have hFails : (runList (next fun _ _ => true)
      (.new none .pessimistic .snapshot : MemoryGraph Nat) oneWriterActions).map
        (fun r => match (r.2.commitAtWithin 0 t none false).2 with
          | .error .appendFailed => true
          | _ => false) = some true := by decide +kernel
  rw [hList, Option.map_some, Option.some.injEq] at hFails
  have hMem : t ∈ g.txnManager.activeTxns := by
    rw [show g.txnManager.activeTxns = [t] from hActive]
    exact List.mem_singleton_self _
  have hEq : g.commitAtWithin 0 t none false =
      ((g.commitAtWithin 0 t none false).1, .error .appendFailed) := by
    refine Prod.ext rfl ?_
    dsimp only at hFails
    split at hFails
    · rename_i hErr
      exact hErr
    · cases hFails
  exact ⟨trace, g, Run.of_runList (fun _ _ _ hNext => ⟨trivial, (step_of_next hNext).2⟩) hList, t,
    hMem, _, hEq, commit_failure_unclean g _ t hMem 0 none false hEq⟩

end Traces

end MiniGU.MemoryGraph
