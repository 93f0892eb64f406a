import MiniGU.Model.Txn

/-!
# Commits whose log cannot be written

`append_wal` may fail. In `commit_at` it is called for the entries of the redo buffer and
the commit marker, and for the abort marker where the commit turns into a rollback; an
error is passed on with `?`, so everything after it is left out. The functions of this
module are those of `Txn.lean` with the number `n` of calls that succeed before the one
that fails.

* `commitAtWithin_eq`: where no call fails, this is the `commit_at` of `Txn.lean`.
-/

namespace MiniGU

variable {V : Type}

/-- How a call of `commit_at` fails: with an error of its own, or because the log could not
be written. -/
inductive CommitFailure where
  | storage (e : StorageError)
  | appendFailed
deriving DecidableEq, Repr

/-- What a call leaves behind and returns when the log may fail. -/
abbrev Attempt (V α : Type) := MemoryGraph V × Except CommitFailure α

/-- A call that does not touch the log. -/
def Outcome.attempt {α : Type} (r : Outcome V α) : Attempt V α := (r.1, r.2.mapError .storage)

namespace MemoryGraph

/-- The LSN of an entry is drawn before it is appended. -/
def drawLsns (g : MemoryGraph V) (n : Nat) : MemoryGraph V := { g with nextLsn := g.nextLsn + n }

/-- The end of `abort_at`, after the log. -/
def abortTail (g : MemoryGraph V) (txn : MemTransaction) : Outcome V Unit :=
  match (g.clearWrites txn).finishTransaction txn with
  | (g, .error e) => (g, .error e)
  | (g, .ok _) => (g.markHandled txn, .ok ())

def abortAtWithin (n : Nat) (g : MemoryGraph V) (txn : MemTransaction) (skipWal : Bool) :
    Attempt V Unit :=
  let g := g.undoAll txn
  if skipWal then (g.abortTail txn).attempt
  else if n = 0 then (g.drawLsns 1, .error .appendFailed)
  else ((g.appendWal txn .abortTransaction).abortTail txn).attempt

/-- `self.abort()?; return Err(err)`. -/
def abortWithWithin {α : Type} (n : Nat) (g : MemoryGraph V) (txn : MemTransaction)
    (err : StorageError) : Attempt V α :=
  match g.abortAtWithin n txn false with
  | (g, .error e) => (g, .error e)
  | (g, .ok _) => (g, .error (.storage err))

/-- `flush_redo_and_commit_wal`: the redo buffer is drained and all its LSNs are drawn
before the first entry is appended. -/
def flushRedoAndCommitWalWithin (n : Nat) (g : MemoryGraph V) (txn : MemTransaction)
    (commitTs : Nat) : Attempt V Unit :=
  let redo := (g.txns txn.txnId).redoBuffer
  let entries := redo.mapIdx fun i e => { e with lsn := g.nextLsn + i }
  let h := g.modifyTxn txn.txnId fun s => { s with redoBuffer := [] }
  if n < redo.length then
    ({ h with wal := g.wal ++ entries.take n }.drawLsns redo.length, .error .appendFailed)
  else if n = redo.length then
    ({ h with wal := g.wal ++ entries }.drawLsns (redo.length + 1), .error .appendFailed)
  else (g.flushRedoAndCommitWal txn commitTs, .ok ())

def finalizeCommitCommonWithin (n : Nat) (g : MemoryGraph V) (txn : MemTransaction)
    (commitTs : Nat) (skipWal : Bool) : Attempt V Unit :=
  let finish (g : MemoryGraph V) : Attempt V Unit :=
    (((g.setLatestCommitTs commitTs).clearWrites txn).finishTransaction txn).attempt
  if skipWal then finish g
  else
    match g.flushRedoAndCommitWalWithin n txn commitTs with
    | (g, .error e) => (g, .error e)
    | (g, .ok _) => finish g

/-- The last part of both commits. -/
def finalizeWithin (n : Nat) (g : MemoryGraph V) (txn : MemTransaction) (commitTs : Nat)
    (skipWal : Bool) : Attempt V Nat :=
  match g.finalizeCommitCommonWithin n txn commitTs skipWal with
  | (g, .error e) => (g, .error e)
  | (g, .ok _) => (g, .ok commitTs)

def commitPessimisticWithin (n : Nat) (g : MemoryGraph V) (txn : MemTransaction)
    (commitTs : Nat) (skipWal : Bool) : Attempt V Nat :=
  match g.setCommitTs txn commitTs with
  | none => g.abortWithWithin n txn (.transactionAlreadyCommitted commitTs)
  | some g =>
    match publishAll commitTs g ((g.txns txn.txnId).undoBuffer.map UndoEntry.delta) with
    | (g, .error e) => (g, .error (.storage e))
    | (g, .ok _) => g.finalizeWithin n txn commitTs skipWal

def commitOptimisticWithin [DecidableEq V] (n : Nat) (g : MemoryGraph V) (txn : MemTransaction)
    (commitTs : Nat) (skipWal : Bool) : Attempt V Nat :=
  let vertexWrites := (g.txns txn.txnId).vertexWrites
  let edgeWrites := (g.txns txn.txnId).edgeWrites
  match g.validateIntents txn .vertex vertexWrites with
  | .error e => g.abortWithWithin n txn e
  | .ok _ =>
  match g.validateIntents txn .edge edgeWrites with
  | .error e => g.abortWithWithin n txn e
  | .ok _ =>
  match applyIntents txn .vertex g vertexWrites with
  | (g, .error e) => (g, .error (.storage e))
  | (g, .ok _) =>
  match applyIntents txn .edge g edgeWrites with
  | (g, .error e) => (g, .error (.storage e))
  | (g, .ok _) =>
  let g := g.stampAll txn commitTs (vertexWrites.map Prod.fst) (edgeWrites.map Prod.fst)
  match g.setCommitTs txn commitTs with
  | none => g.abortWithWithin n txn (.transactionAlreadyCommitted commitTs)
  | some g => g.finalizeWithin n txn commitTs skipWal

def commitLockedWithin [DecidableEq V] (n : Nat) (g : MemoryGraph V) (txn : MemTransaction)
    (commitTs : Nat) (skipWal : Bool) : Attempt V Nat :=
  let valid := match txn.isolationLevel with
    | .serializable => g.validateReadSets txn
    | .snapshot => .ok ()
  match valid with
  | .error e => g.abortWithWithin n txn e
  | .ok _ =>
    match txn.lockStrategy with
    | .pessimistic => g.commitPessimisticWithin n txn commitTs skipWal
    | .optimistic => g.commitOptimisticWithin n txn commitTs skipWal

/-- `commit_at` where the first `n` calls of `append_wal` succeed and the next one fails. -/
def commitAtWithin [DecidableEq V] (n : Nat) (g : MemoryGraph V) (txn : MemTransaction)
    (commitTs : Option Nat) (skipWal : Bool) : Attempt V Nat :=
  match g.timestampGenerator.obtain commitTs with
  | .error e => (g, .error (.storage (.timestamp e)))
  | .ok (commitTs, tsGen) =>
    match { g with timestampGenerator := tsGen }.commitLockedWithin n txn commitTs skipWal with
    | (g, .error e) => (g, .error e)
    | (g, .ok commitTs) => (g.markHandled txn, .ok commitTs)

/-! ## A log that does not fail -/

variable {g : MemoryGraph V} {txn : MemTransaction} {n commitTs : Nat} {skipWal : Bool}

theorem abortWithWithin_eq {α : Type} {err : StorageError}
    (h : (g.abortWithWithin n txn err : Attempt V α).2 ≠ .error .appendFailed) :
    (g.abortWithWithin n txn err : Attempt V α) = (g.abortWith txn err).attempt := by
  by_cases hn : n = 0
  · subst hn
    exact absurd rfl h
  · have hAbort : g.abortAtWithin n txn false = (g.abortAt txn false).attempt := by
      unfold abortAtWithin abortAt
      simp only [Bool.false_eq_true, if_false, if_neg hn]
      rfl
    unfold abortWithWithin abortWith
    rw [hAbort]
    cases g.abortAt txn false with
    | mk g r => cases r <;> rfl

theorem finalizeWithin_eq (h : (g.finalizeWithin n txn commitTs skipWal).2 ≠ .error .appendFailed) :
    g.finalizeWithin n txn commitTs skipWal =
      Outcome.attempt (match g.finalizeCommitCommon txn commitTs skipWal with
        | (g, .error e) => (g, .error e)
        | (g, .ok _) => (g, .ok commitTs)) := by
  unfold finalizeWithin finalizeCommitCommonWithin at h ⊢
  unfold finalizeCommitCommon
  cases skipWal with
  | true =>
    simp only [if_true]
    cases finishTransaction _ txn with
    | mk g r => cases r <;> rfl
  | false =>
    -- an entry or the marker fails, or all of them are appended
    have hFlush : g.flushRedoAndCommitWalWithin n txn commitTs =
        (g.flushRedoAndCommitWal txn commitTs, .ok ()) := by
      unfold flushRedoAndCommitWalWithin at h ⊢
      by_cases hLt : n < (g.txns txn.txnId).redoBuffer.length
      · simp [hLt] at h
      · by_cases hEq : n = (g.txns txn.txnId).redoBuffer.length
        · simp [hEq] at h
        · dsimp only
          rw [if_neg hLt, if_neg hEq]
    simp only [Bool.false_eq_true, if_false]
    rw [hFlush]
    dsimp only
    cases finishTransaction _ txn with
    | mk g r => cases r <;> rfl

theorem commitPessimisticWithin_eq
    (h : (g.commitPessimisticWithin n txn commitTs skipWal).2 ≠ .error .appendFailed) :
    g.commitPessimisticWithin n txn commitTs skipWal =
      (g.commitPessimistic txn commitTs skipWal).attempt := by
  unfold commitPessimisticWithin at h ⊢
  unfold commitPessimistic
  cases hSet : g.setCommitTs txn commitTs with
  | none =>
    rw [hSet] at h
    exact abortWithWithin_eq h
  | some g₁ =>
    rw [hSet] at h
    dsimp only at h ⊢
    cases hPub : publishAll commitTs g₁ ((g₁.txns txn.txnId).undoBuffer.map UndoEntry.delta) with
    | mk g₂ r =>
      rw [hPub] at h
      cases r with
      | error e => rfl
      | ok u => exact finalizeWithin_eq h

/-- Where no append fails, this is `commitOptimistic`. -/
theorem commitOptimisticWithin_eq [DecidableEq V]
    (h : (g.commitOptimisticWithin n txn commitTs skipWal).2 ≠ .error .appendFailed) :
    g.commitOptimisticWithin n txn commitTs skipWal =
      (g.commitOptimistic txn commitTs skipWal).attempt := by
  unfold commitOptimisticWithin at h ⊢
  unfold commitOptimistic
  dsimp only at h ⊢
  cases hV : g.validateIntents txn .vertex (g.txns txn.txnId).vertexWrites with
  | error e =>
    rw [hV] at h
    exact abortWithWithin_eq h
  | ok u =>
    rw [hV] at h
    dsimp only at h ⊢
    cases hE : g.validateIntents txn .edge (g.txns txn.txnId).edgeWrites with
    | error e =>
      rw [hE] at h
      exact abortWithWithin_eq h
    | ok u =>
      rw [hE] at h
      dsimp only at h ⊢
      cases hA : applyIntents txn .vertex g (g.txns txn.txnId).vertexWrites with
      | mk g₁ r₁ =>
        rw [hA] at h
        cases r₁ with
        | error e => rfl
        | ok u =>
          dsimp only at h ⊢
          cases hB : applyIntents txn .edge g₁ (g.txns txn.txnId).edgeWrites with
          | mk g₂ r₂ =>
            rw [hB] at h
            cases r₂ with
            | error e => rfl
            | ok u =>
              dsimp only at h ⊢
              generalize g₂.stampAll txn commitTs _ _ = g₃ at h ⊢
              cases hSet : g₃.setCommitTs txn commitTs with
              | none =>
                rw [hSet] at h
                exact abortWithWithin_eq h
              | some g₄ =>
                rw [hSet] at h
                exact finalizeWithin_eq h

/-- Where no append fails, the commit is the one without failures. -/
theorem commitLockedWithin_eq [DecidableEq V]
    (h : (g.commitLockedWithin n txn commitTs skipWal).2 ≠ .error .appendFailed) :
    g.commitLockedWithin n txn commitTs skipWal = (g.commitLocked txn commitTs skipWal).attempt := by
  have hStrategy : (match txn.lockStrategy with
      | .pessimistic => g.commitPessimisticWithin n txn commitTs skipWal
      | .optimistic => g.commitOptimisticWithin n txn commitTs skipWal).2 ≠ .error .appendFailed →
      (match txn.lockStrategy with
      | .pessimistic => g.commitPessimisticWithin n txn commitTs skipWal
      | .optimistic => g.commitOptimisticWithin n txn commitTs skipWal) =
        (match txn.lockStrategy with
        | .pessimistic => g.commitPessimistic txn commitTs skipWal
        | .optimistic => g.commitOptimistic txn commitTs skipWal).attempt := by
    cases txn.lockStrategy with
    | pessimistic => exact commitPessimisticWithin_eq
    | optimistic => exact commitOptimisticWithin_eq
  unfold commitLockedWithin at h ⊢
  unfold commitLocked
  cases hIso : txn.isolationLevel with
  | snapshot =>
    rw [hIso] at h
    exact hStrategy h
  | serializable =>
    rw [hIso] at h
    dsimp only at h ⊢
    cases hValid : g.validateReadSets txn with
    | error e =>
      rw [hValid] at h
      exact abortWithWithin_eq h
    | ok u =>
      rw [hValid] at h
      exact hStrategy h

/-- **Where the log does not fail**, the functions of this module are those of `Txn.lean`. -/
theorem commitAtWithin_eq [DecidableEq V] {ts? : Option Nat}
    (h : (g.commitAtWithin n txn ts? skipWal).2 ≠ .error .appendFailed) :
    g.commitAtWithin n txn ts? skipWal = (g.commitAt txn ts? skipWal).attempt := by
  unfold commitAtWithin at h ⊢
  unfold commitAt
  cases hTs : g.timestampGenerator.obtain ts? with
  | error e => rfl
  | ok p =>
    obtain ⟨ts, tsGen⟩ := p
    rw [hTs] at h
    dsimp only at h ⊢
    have hLocked := @commitLockedWithin_eq V { g with timestampGenerator := tsGen } txn n ts skipWal _
    cases hRes : ({ g with timestampGenerator := tsGen } : MemoryGraph V).commitLockedWithin n txn
      ts skipWal with
    | mk g₁ r =>
      rw [hRes] at h hLocked
      have hEq := hLocked (by
        rintro rfl
        exact h rfl)
      cases hOld : ({ g with timestampGenerator := tsGen } : MemoryGraph V).commitLocked txn ts
        skipWal with
      | mk g₂ r₂ =>
        rw [hOld] at hEq
        obtain ⟨rfl, rfl⟩ := Prod.mk.inj hEq
        cases r₂ <;> rfl

end MemoryGraph

end MiniGU
