import MiniGU.Invariant.Bystander
import MiniGU.Invariant.Finished
import MiniGU.Invariant.Reachable

/-!
# Finishing a transaction a second time

Neither `commit_at` nor `abort_at` looks whether its transaction has finished before it
starts: a second abort drains the undo buffer and writes its marker to the log, and a second
commit turns into an abort, or writes the redo buffer and a commit marker, before
`finish_transaction` finds that the transaction is not active.
-/

namespace MiniGU

variable {V : Type}

/-- The calls that finish a transaction. -/
inductive FinishCall where
  | commit (commitTs : Option Nat) (skipWal : Bool)
  | abort (skipWal : Bool)
deriving DecidableEq, Repr

/-- A call of the machine, or a further call on a transaction that is not active. -/
inductive LateAction (V : Type) where
  | call (a : Action V)
  | finish (txn : MemTransaction) (c : FinishCall)

namespace MemoryGraph

def finish [DecidableEq V] (g : MemoryGraph V) (txn : MemTransaction) : FinishCall → Outcome V Unit
  | .commit ts? skipWal => Outcome.void (g.commitAt txn ts? skipWal)
  | .abort skipWal => g.abortAt txn skipWal

/-- Steps with further calls among them. -/
def LateStep [DecidableEq V] (g : MemoryGraph V) (a : LateAction V) (g' : MemoryGraph V) : Prop :=
  match a with
  | .call a => Step g a g'
  | .finish txn c => (∀ t ∈ g.txnManager.activeTxns, t.txnId ≠ txn.txnId) ∧ g' = (g.finish txn c).1

/-- A transaction that was active before and is not any more. -/
def HasFinished (trace : List (MemoryGraph V × LateAction V)) (g : MemoryGraph V)
    (txn : MemTransaction) : Prop :=
  (∃ p ∈ trace, txn ∈ p.1.txnManager.activeTxns) ∧ txn ∉ g.txnManager.activeTxns

/-- **Nothing has changed** for anybody but `txn`: what others are answered, whatever they
call, the undo buffers that the version chains point into, the active transactions, the
watermark and the log. -/
structure Inert (g g' : MemoryGraph V) (txn : MemTransaction) : Prop where
  replies : ∀ calls : List (MemTransaction × Call V), (∀ p ∈ calls, p.1.txnId ≠ txn.txnId) →
    g'.replies calls = g.replies calls
  undo : ∀ t, (g'.txns t).undoBuffer = (g.txns t).undoBuffer
  active : g'.txnManager.activeTxns = g.txnManager.activeTxns
  watermark : g'.txnManager.watermark = g.txnManager.watermark
  wal : g'.wal = g.wal

/-- **A further call is refused**: it returns an error and changes nothing. -/
def IsRefused [DecidableEq V] (g : MemoryGraph V) (txn : MemTransaction) (c : FinishCall) : Prop :=
  ∃ g' e, g.finish txn c = (g', .error e) ∧ Inert g g' txn

/-- The further calls that are refused. An abort must not write to the log and must find
the undo buffer empty. A commit must be given a timestamp that is refused, or it must not
write to the log, on a transaction that was rolled back and whose reads are still valid. -/
def RefusedWhen (g : MemoryGraph V) (txn : MemTransaction) : FinishCall → Prop
  | .abort skipWal => skipWal = true ∧ (g.txns txn.txnId).undoBuffer = []
  | .commit ts? skipWal => (∃ e, g.timestampGenerator.obtain ts? = .error e) ∨
      (skipWal = true ∧ (g.txns txn.txnId).commitTs = none ∧
        g.ReadsValid txn)

variable {g g' : MemoryGraph V} {txn : MemTransaction} {commitTs : Nat} {skipWal : Bool}

/-! ## What a further call does -/

theorem txnManager_abortDrained : (g.abortDrained txn skipWal).txnManager = g.txnManager := by
  unfold abortDrained clearWrites
  rw [txnManager_modifyTxn]
  split
  · exact txnManager_undoAll
  · exact txnManager_undoAll

theorem wal_undoAll : (g.undoAll txn).wal = g.wal := by
  have hFold : ∀ (l : List (UndoEntry (DeltaOp V))) (h : MemoryGraph V),
      (l.foldl (abortEntry txn) h).wal = h.wal := by
    intro l
    induction l with
    | nil => exact fun h => rfl
    | cons e l ih =>
      intro h
      rw [List.foldl_cons, ih]
      unfold abortEntry
      split
      · rfl
      · split
        · rfl
        · split
          · exact wal_setChain ..
          · rfl
  exact hFold _ _

theorem wal_abortDrained : (g.abortDrained txn false).wal ≠ g.wal := by
  intro hEq
  have hLen := congrArg List.length hEq
  have hWal : (g.abortDrained txn false).wal.length = (g.undoAll txn).wal.length + 1 := by
    show ((g.undoAll txn).wal ++ _).length = _
    rw [List.length_append]
    rfl
  rw [hWal, wal_undoAll] at hLen
  omega

theorem wal_commitLogged : (g.commitLogged txn commitTs false).wal ≠ g.wal := by
  intro hEq
  have hLen := congrArg List.length hEq
  have hWal : (g.commitLogged txn commitTs false).wal =
      (g.wal ++ (g.txns txn.txnId).redoBuffer.mapIdx fun i e => { e with lsn := g.nextLsn + i }) ++
        [⟨g.nextLsn + (g.txns txn.txnId).redoBuffer.length, txn.txnId, txn.isolationLevel,
          .commitTransaction commitTs⟩] := rfl
  rw [hWal, List.length_append, List.length_append, List.length_singleton] at hLen
  omega

/-- The cell of a rolled back transaction is filled. -/
def fillCell (g : MemoryGraph V) (txn : MemTransaction) (commitTs : Nat) : MemoryGraph V :=
  g.modifyTxn txn.txnId fun s => { s with commitTs := some commitTs }

section Late

variable (hOut : ∀ t ∈ g.txnManager.activeTxns, t.txnId ≠ txn.txnId)
include hOut

theorem abortAt_late : g.abortAt txn skipWal =
    (g.abortDrained txn skipWal, .error (.transactionNotFound txn.txnId)) := by
  rw [abortAt_eq, finishTransaction_of_inactive]
  rw [txnManager_abortDrained]
  exact hOut

theorem abortWith_late {α : Type} {err : StorageError} : (g.abortWith txn err : Outcome V α) =
    (g.abortDrained txn false, .error (.transactionNotFound txn.txnId)) := by
  unfold abortWith
  rw [abortAt_late hOut]

theorem finalizeCommitCommon_late : g.finalizeCommitCommon txn commitTs skipWal =
    (g.commitLogged txn commitTs skipWal, .error (.transactionNotFound txn.txnId)) := by
  rw [finalizeCommitCommon_logged, finishTransaction_of_inactive]
  intro t ht
  refine hOut t ?_
  unfold commitLogged clearWrites at ht
  rw [txnManager_modifyTxn] at ht
  split at ht
  · exact ht
  · exact ht

/-- **A further commit of a transaction that has committed** turns into an abort. -/
theorem commitLocked_full [DecidableEq V] (hSpent : Spent g txn)
    (hCell : (g.txns txn.txnId).commitTs ≠ none ∨ ¬ ReadsValid g txn) :
    g.commitLocked txn commitTs skipWal =
      (g.abortDrained txn false, .error (.transactionNotFound txn.txnId)) := by
  have hFull : ReadsValid g txn → ∀ ts, g.setCommitTs txn ts = none := by
    intro hValid ts
    rcases hCell with hSome | hInvalid
    · obtain ⟨ts', hTs'⟩ := Option.ne_none_iff_exists'.mp hSome
      unfold setCommitTs
      rw [hTs']
    · exact absurd hValid hInvalid
  -- with no intents left, both strategies come to the cell
  have hPessimistic : ReadsValid g txn → g.commitPessimistic txn commitTs skipWal =
      (g.abortDrained txn false, .error (.transactionNotFound txn.txnId)) := by
    intro hValid
    unfold commitPessimistic
    rw [hFull hValid]
    exact abortWith_late hOut
  have hOptimistic : ReadsValid g txn → g.commitOptimistic txn commitTs skipWal =
      (g.abortDrained txn false, .error (.transactionNotFound txn.txnId)) := by
    intro hValid
    unfold commitOptimistic
    rw [hSpent.vertexWrites, hSpent.edgeWrites]
    simp only [validateIntents, applyIntents, stampAll, List.map_nil, List.foldl_nil]
    rw [hFull hValid]
    exact abortWith_late hOut
  unfold commitLocked
  cases hIso : txn.isolationLevel with
  | snapshot =>
    have hValid : ReadsValid g txn := fun hSer => by rw [hIso] at hSer; cases hSer
    cases txn.lockStrategy with
    | pessimistic => exact hPessimistic hValid
    | optimistic => exact hOptimistic hValid
  | serializable =>
    dsimp only
    cases hReads : g.validateReadSets txn with
    | error e => exact abortWith_late hOut
    | ok u =>
      cases txn.lockStrategy with
      | pessimistic => exact hPessimistic fun _ => hReads
      | optimistic => exact hOptimistic fun _ => hReads

/-- **A further commit of a transaction that was rolled back** goes through to the log. -/
theorem commitLocked_empty [DecidableEq V] (hSpent : Spent g txn)
    (hCell : (g.txns txn.txnId).commitTs = none) (hValid : ReadsValid g txn) :
    g.commitLocked txn commitTs skipWal = ((g.fillCell txn commitTs).commitLogged txn commitTs skipWal,
      .error (.transactionNotFound txn.txnId)) := by
  have hSet : g.setCommitTs txn commitTs = some (g.fillCell txn commitTs) := by
    unfold setCommitTs
    rw [hCell]
    rfl
  have hOut' : ∀ t ∈ (g.fillCell txn commitTs).txnManager.activeTxns, t.txnId ≠ txn.txnId := hOut
  have hFinal : (g.fillCell txn commitTs).finalizeCommitCommon txn commitTs skipWal = _ :=
    finalizeCommitCommon_late hOut'
  have hPessimistic : g.commitPessimistic txn commitTs skipWal =
      ((g.fillCell txn commitTs).commitLogged txn commitTs skipWal,
        .error (.transactionNotFound txn.txnId)) := by
    unfold commitPessimistic
    have hUndo : ((g.fillCell txn commitTs).txns txn.txnId).undoBuffer = [] := by
      unfold fillCell
      rw [txns_modifyTxn_self]
      exact hSpent.undoBuffer hCell
    rw [hSet]
    dsimp only
    rw [hUndo]
    simp only [List.map_nil, publishAll]
    rw [hFinal]
  have hOptimistic : g.commitOptimistic txn commitTs skipWal =
      ((g.fillCell txn commitTs).commitLogged txn commitTs skipWal,
        .error (.transactionNotFound txn.txnId)) := by
    unfold commitOptimistic
    rw [hSpent.vertexWrites, hSpent.edgeWrites]
    simp only [validateIntents, applyIntents, stampAll, List.map_nil, List.foldl_nil]
    rw [hSet]
    dsimp only
    rw [hFinal]
  unfold commitLocked
  cases hIso : txn.isolationLevel with
  | snapshot =>
    cases txn.lockStrategy with
    | pessimistic => exact hPessimistic
    | optimistic => exact hOptimistic
  | serializable =>
    dsimp only
    rw [hValid hIso]
    cases txn.lockStrategy with
    | pessimistic => exact hPessimistic
    | optimistic => exact hOptimistic

end Late

/-! ## When it changes nothing -/

/-- A graph that differs from another one behind the stage only. -/
theorem eq_behind_finished {T : Nat} (hVertices : g'.vertices = g.vertices) (hEdges : g'.edges = g.edges)
    (hAdj : g'.adjacencyList = g.adjacencyList) (hOthers : ∀ t, t ≠ T → g'.txns t = g.txns t)
    (hUndo : (g'.txns T).undoBuffer = (g.txns T).undoBuffer) :
    g' = g.behind ⟨g'.txnManager, g'.wal, g'.nextLsn, g'.timestampGenerator,
      g'.transactionIdGenerator, g'.txns T⟩ T := by
  have hTxns : g'.txns = Function.update g.txns T
      { g'.txns T with undoBuffer := (g.txns T).undoBuffer } := by
    funext t
    by_cases ht : t = T
    · subst ht
      rw [Function.update_self, ← hUndo]
    · rw [Function.update_of_ne ht, hOthers t ht]
  unfold behind
  cases g'
  simp only at hVertices hEdges hAdj hTxns ⊢
  subst hVertices hEdges hAdj
  exact congrArg (fun txns => MemoryGraph.mk _ _ _ _ txns _ _ _ _) hTxns

/-- What changes nothing but buffers of `txn` other than its undo buffer, and nothing of the
manager and the log that others see. -/
theorem inert_of_behind (hVertices : g'.vertices = g.vertices) (hEdges : g'.edges = g.edges)
    (hAdj : g'.adjacencyList = g.adjacencyList)
    (hOthers : ∀ t, t ≠ txn.txnId → g'.txns t = g.txns t)
    (hUndo : (g'.txns txn.txnId).undoBuffer = (g.txns txn.txnId).undoBuffer)
    (hActive : g'.txnManager.activeTxns = g.txnManager.activeTxns)
    (hWatermark : g'.txnManager.watermark = g.txnManager.watermark) (hWal : g'.wal = g.wal) :
    Inert g g' txn := by
  refine ⟨fun calls hCalls => ?_, fun t => ?_, hActive, hWatermark, hWal⟩
  · rw [eq_behind_finished hVertices hEdges hAdj hOthers hUndo]
    exact replies_behind hCalls
  · by_cases ht : t = txn.txnId
    · rw [ht, hUndo]
    · rw [hOthers t ht]

theorem inert_abortDrained (hUndo : (g.txns txn.txnId).undoBuffer = []) :
    Inert g (g.abortDrained txn true) txn := by
  have hAll : g.undoAll txn = g.modifyTxn txn.txnId fun s => { s with undoBuffer := [] } := by
    unfold undoAll
    rw [hUndo]
    rfl
  have hEq : g.abortDrained txn true =
      (g.modifyTxn txn.txnId fun s => { s with undoBuffer := [] }).clearWrites txn := by
    unfold abortDrained
    rw [if_pos rfl, hAll]
  rw [hEq]
  refine inert_of_behind rfl rfl rfl (fun t ht => ?_) ?_ rfl rfl rfl
  · unfold clearWrites
    rw [txns_modifyTxn_of_ne _ _ ht, txns_modifyTxn_of_ne _ _ ht]
  · unfold clearWrites
    rw [txns_modifyTxn_self, txns_modifyTxn_self, hUndo]

theorem inert_commitLogged (gen : GlobalTimestampGenerator) :
    Inert g ((({ g with timestampGenerator := gen } : MemoryGraph V).fillCell txn
      commitTs).commitLogged txn commitTs true) txn := by
  unfold commitLogged
  rw [if_pos rfl]
  refine inert_of_behind rfl rfl rfl (fun t ht => ?_) ?_ rfl rfl rfl
  · unfold clearWrites
    rw [txns_modifyTxn_of_ne _ _ ht]
    show (({ g with timestampGenerator := gen } : MemoryGraph V).fillCell txn commitTs).txns t = _
    unfold fillCell
    rw [txns_modifyTxn_of_ne _ _ ht]
  · unfold clearWrites
    rw [txns_modifyTxn_self]
    show (((({ g with timestampGenerator := gen } : MemoryGraph V).fillCell txn commitTs).txns
      txn.txnId).undoBuffer) = _
    unfold fillCell
    rw [txns_modifyTxn_self]

theorem validateReadSets_withTs (gen : GlobalTimestampGenerator) :
    ({ g with timestampGenerator := gen } : MemoryGraph V).ReadsValid txn ↔ g.ReadsValid txn := by
  have hChain : ({ g with timestampGenerator := gen } : MemoryGraph V).chain = g.chain :=
    chain_withTs g gen
  unfold ReadsValid validateReadSets
  rw [validateReads_congr hChain, validateReads_congr hChain]

/-- **Exactly when a further call is refused**, for a transaction that is not active and
whose buffers are spent. -/
theorem isRefused_iff [DecidableEq V]
    (hOut : ∀ t ∈ g.txnManager.activeTxns, t.txnId ≠ txn.txnId) (hSpent : Spent g txn)
    (c : FinishCall) : IsRefused g txn c ↔ RefusedWhen g txn c := by
  cases c with
  | abort skipWal =>
    have hRes : g.finish txn (.abort skipWal) = _ := abortAt_late hOut
    constructor
    · rintro ⟨g', e, hEq, hInert⟩
      obtain ⟨rfl, -⟩ := Prod.mk.inj (hRes.symm.trans hEq)
      refine ⟨?_, ?_⟩
      · cases skipWal with
        | true => rfl
        | false => exact absurd hInert.wal wal_abortDrained
      · rw [← hInert.undo txn.txnId]
        exact cleared_abortDrained.undoBuffer
    · rintro ⟨rfl, hUndo⟩
      exact ⟨_, _, hRes, inert_abortDrained hUndo⟩
  | commit ts? skipWal =>
    cases hTs : g.timestampGenerator.obtain ts? with
    | error e =>
      have hRes : g.finish txn (.commit ts? skipWal) = (g, .error (.timestamp e)) := by
        show Outcome.void (g.commitAt txn ts? skipWal) = _
        unfold commitAt
        rw [hTs]
        rfl
      exact ⟨fun _ => .inl ⟨e, hTs⟩, fun _ => ⟨g, _, hRes, ⟨fun _ _ => rfl, fun _ => rfl, rfl, rfl, rfl⟩⟩⟩
    | ok p =>
      obtain ⟨ts, tsGen⟩ := p
      let h : MemoryGraph V := { g with timestampGenerator := tsGen }
      have hOut' : ∀ t ∈ h.txnManager.activeTxns, t.txnId ≠ txn.txnId := hOut
      have hSpent' : Spent h txn := hSpent.congr rfl
      have hFinish : ∀ h' e, h.commitLocked txn ts skipWal = (h', .error e) →
          g.finish txn (.commit ts? skipWal) = (h', .error e) := by
        intro h' e hLocked
        show Outcome.void (g.commitAt txn ts? skipWal) = _
        unfold commitAt
        rw [hTs]
        dsimp only
        rw [hLocked]
        rfl
      -- the timestamp is granted, so only the second way to be refused is left
      have hWhen : RefusedWhen g txn (.commit ts? skipWal) ↔
          skipWal = true ∧ (g.txns txn.txnId).commitTs = none ∧ g.ReadsValid txn := by
        constructor
        · rintro (⟨e, hErr⟩ | hRest)
          · rw [hTs] at hErr
            cases hErr
          · exact hRest
        · exact .inr
      rw [hWhen]
      by_cases hCell : (g.txns txn.txnId).commitTs = none ∧ g.ReadsValid txn
      · have hRes := hFinish _ _ (commitLocked_empty hOut' hSpent' hCell.1
          ((validateReadSets_withTs tsGen).mpr hCell.2))
        constructor
        · rintro ⟨g', e, hEq, hInert⟩
          obtain ⟨rfl, -⟩ := Prod.mk.inj (hRes.symm.trans hEq)
          refine ⟨?_, hCell⟩
          cases skipWal with
          | true => rfl
          | false => exact absurd hInert.wal wal_commitLogged
        · rintro ⟨rfl, -⟩
          exact ⟨_, _, hRes, inert_commitLogged tsGen⟩
      · have hFull : (h.txns txn.txnId).commitTs ≠ none ∨ ¬ h.ReadsValid txn := by
          by_cases hNone : (g.txns txn.txnId).commitTs = none
          · refine .inr fun hValid => hCell ⟨hNone, (validateReadSets_withTs tsGen).mp hValid⟩
          · exact .inl hNone
        have hRes := hFinish _ _ (commitLocked_full hOut' hSpent' hFull)
        constructor
        · rintro ⟨g', e, hEq, hInert⟩
          obtain ⟨rfl, -⟩ := Prod.mk.inj (hRes.symm.trans hEq)
          have hWal : (h.abortDrained txn false).wal = h.wal := hInert.wal
          exact absurd hWal wal_abortDrained
        · rintro ⟨-, hNone, hValid⟩
          exact absurd ⟨hNone, hValid⟩ hCell

theorem spent_finish [DecidableEq V] (hOut : ∀ t ∈ g.txnManager.activeTxns, t.txnId ≠ txn.txnId)
    (hSpent : Spent g txn) (c : FinishCall) : Spent (g.finish txn c).1 txn := by
  cases c with
  | abort skipWal => exact cleared_abortAt.spent
  | commit ts? skipWal =>
    show Spent (g.commitAt txn ts? skipWal).1 txn
    unfold commitAt
    cases hTs : g.timestampGenerator.obtain ts? with
    | error e => exact hSpent
    | ok p =>
      obtain ⟨ts, tsGen⟩ := p
      let h : MemoryGraph V := { g with timestampGenerator := tsGen }
      have hOut' : ∀ t ∈ h.txnManager.activeTxns, t.txnId ≠ txn.txnId := hOut
      have hSpent' : Spent h txn := hSpent.congr rfl
      dsimp only
      by_cases hCell : (h.txns txn.txnId).commitTs = none ∧ h.ReadsValid txn
      · rw [commitLocked_empty hOut' hSpent' hCell.1 hCell.2]
        refine spent_commitLogged ?_
        unfold fillCell
        rw [txns_modifyTxn_self]
        exact Option.some_ne_none ts
      · have hFull : (h.txns txn.txnId).commitTs ≠ none ∨ ¬ h.ReadsValid txn := by
          by_cases hNone : (h.txns txn.txnId).commitTs = none
          · exact .inr fun hValid => hCell ⟨hNone, hValid⟩
          · exact .inl hNone
        rw [commitLocked_full hOut' hSpent' hFull]
        exact cleared_abortDrained.spent

theorem spent_release {t : Nat} (hSpent : Spent g txn) : Spent (g.release t) txn := by
  by_cases ht : txn.txnId = t
  · subst ht
    unfold release
    refine ⟨?_, ?_, fun _ => ?_⟩
    · rw [txns_modifyTxn_self]
      exact hSpent.vertexWrites
    · rw [txns_modifyTxn_self]
      exact hSpent.edgeWrites
    · rw [txns_modifyTxn_self]
  · exact hSpent.congr (txns_modifyTxn_of_ne _ _ ht)

/-! ## Along a run -/

/-- A transaction that is active, or was at some point of the run. -/
def Seen (trace : List (MemoryGraph V × LateAction V)) (g : MemoryGraph V) (t : MemTransaction) :
    Prop :=
  t ∈ g.txnManager.activeTxns ∨ ∃ p ∈ trace, t ∈ p.1.txnManager.activeTxns

/-- **The invariant**: the ids of all transactions so far are drawn and tell them apart, and
those that are not active any more are spent. -/
structure Tracked (trace : List (MemoryGraph V × LateAction V)) (g : MemoryGraph V) : Prop where
  drawn : ∀ t, Seen trace g t → t.txnId < g.counters.2
  apart : ∀ t t', Seen trace g t → Seen trace g t' → t.txnId = t'.txnId → t = t'
  spent : ∀ t, Seen trace g t → t ∉ g.txnManager.activeTxns → Spent g t

namespace Tracked

variable {trace : List (MemoryGraph V × LateAction V)} {a : LateAction V} {t : MemTransaction}

theorem seen_snoc : Seen (trace ++ [(g, a)]) g' t ↔ t ∈ g'.txnManager.activeTxns ∨ Seen trace g t := by
  unfold Seen
  constructor
  · rintro (hNow | ⟨p, hp, ht⟩)
    · exact .inl hNow
    · rcases List.mem_append.mp hp with hp | hp
      · exact .inr (.inr ⟨p, hp, ht⟩)
      · rw [List.mem_singleton] at hp
        rw [hp] at ht
        exact .inr (.inl ht)
  · rintro (hNow | hBefore | ⟨p, hp, ht⟩)
    · exact .inl hNow
    · exact .inr ⟨(g, a), List.mem_append_right _ (List.mem_singleton_self _), hBefore⟩
    · exact .inr ⟨p, List.mem_append_left _ hp, ht⟩

theorem step (h : Tracked trace g) (hActive : ∀ t ∈ g'.txnManager.activeTxns,
    t ∈ g.txnManager.activeTxns) (hIds : g.counters.2 ≤ g'.counters.2)
    (hSpent : ∀ t, Seen trace g t → t ∉ g'.txnManager.activeTxns → Spent g' t) :
    Tracked (trace ++ [(g, a)]) g' := by
  have hSeen : ∀ t, Seen (trace ++ [(g, a)]) g' t → Seen trace g t := by
    intro t ht
    rcases seen_snoc.mp ht with hNow | hBefore
    · exact .inl (hActive t hNow)
    · exact hBefore
  refine ⟨fun t ht => ?_, fun t t' ht ht' => h.apart t t' (hSeen t ht) (hSeen t' ht'),
    fun t ht => hSpent t (hSeen t ht)⟩
  have hDrawn := h.drawn t (hSeen t ht)
  omega

/-- A step of one transaction, which ends spent unless it is still active. -/
theorem ownOnly (h : Tracked trace g) {gen : GlobalTimestampGenerator}
    (hOwn : OwnOnly { g with timestampGenerator := gen } g' txn)
    (hSelf : ∀ t, Seen trace g t → t.txnId = txn.txnId → t ∉ g'.txnManager.activeTxns → Spent g' t) :
    Tracked (trace ++ [(g, a)]) g' := by
  have hIds : g'.counters.2 = g.counters.2 := by
    rw [hOwn.counters]
    rfl
  refine h.step hOwn.active (by rw [hIds]) fun t ht hNot => ?_
  by_cases hId : t.txnId = txn.txnId
  · exact hSelf t ht hId hNot
  · -- somebody else was not active before either, and keeps its buffers
    have hBefore : t ∉ g.txnManager.activeTxns := fun hMem => hNot (hOwn.stays t hMem hId)
    exact (h.spent t ht hBefore).congr (hOwn.others _ hId)

theorem opSteps (h : Tracked trace g) (ht : txn ∈ g.txnManager.activeTxns)
    (hs : OpSteps txn g g') : Tracked (trace ++ [(g, a)]) g' := by
  have hOwn : OwnOnly g g' txn := ownOnly_opSteps hs
  refine h.ownOnly hOwn fun t hSeen hId hNot => absurd ?_ hNot
  rw [txnManager_opSteps hs, h.apart t txn hSeen (.inl ht) hId]
  exact ht

theorem ends (h : Tracked trace g) (ht : txn ∈ g.txnManager.activeTxns)
    {gen : GlobalTimestampGenerator} (hOwn : OwnOnly { g with timestampGenerator := gen } g' txn)
    (hEnds : EndsWell g' txn) : Tracked (trace ++ [(g, a)]) g' := by
  refine h.ownOnly hOwn fun t hSeen hId hNot => ?_
  obtain rfl := h.apart t txn hSeen (.inl ht) hId
  exact hEnds hNot

/-- A begin draws an id that no transaction so far has. -/
theorem begins (h : Tracked trace g) {idGen : TransactionIdGenerator}
    {tsGen : GlobalTimestampGenerator} (hCounter : idGen.counter = g.counters.2 + 1)
    (hId : txn.txnId = g.counters.2) (op : Operation V) :
    Tracked (trace ++ [(g, a)]) ((g.begun txn idGen tsGen).appendWal txn op) := by
  set g₁ := (g.begun txn idGen tsGen).appendWal txn op with hg₁
  have hStays : ∀ t ∈ g.txnManager.activeTxns, t ∈ g₁.txnManager.activeTxns := by
    intro t ht
    have hLt := h.drawn t (.inl ht)
    exact SkipList.mem_insert_of_mem ht (.inr (by rw [hId]; exact decide_eq_true hLt))
  have hSeen : ∀ t, Seen (trace ++ [(g, a)]) g₁ t → t = txn ∨ Seen trace g t := by
    intro t ht
    rcases seen_snoc.mp ht with hNow | hBefore
    · rcases mem_active_begun (g := g) (show t ∈ (g.begun txn idGen tsGen).txnManager.activeTxns from
        hNow) with rfl | hOld
      · exact .inl rfl
      · exact .inr (.inl hOld)
    · exact .inr hBefore
  have hIds : g₁.counters.2 = g.counters.2 + 1 := hCounter
  refine ⟨fun t ht => ?_, fun t t' ht ht' hEq => ?_, fun t ht hNot => ?_⟩
  · rcases hSeen t ht with rfl | hBefore
    · omega
    · have := h.drawn t hBefore
      omega
  · -- the new id is the counter, which is above all others
    rcases hSeen t ht with rfl | hBefore
    · rcases hSeen t' ht' with rfl | hBefore'
      · rfl
      · have := h.drawn t' hBefore'
        omega
    · rcases hSeen t' ht' with rfl | hBefore'
      · have := h.drawn t hBefore
        omega
      · exact h.apart t t' hBefore hBefore' hEq
  · rcases hSeen t ht with rfl | hBefore
    · exact absurd (SkipList.mem_insert_self ..) hNot
    · have hDrawn := h.drawn t hBefore
      refine (h.spent t hBefore fun hMem => hNot (hStays t hMem)).congr ?_
      have hne : t.txnId ≠ txn.txnId := by omega
      exact Function.update_of_ne hne ..

theorem late [DecidableEq V] (h : Tracked trace g)
    (hOut : ∀ t ∈ g.txnManager.activeTxns, t.txnId ≠ txn.txnId) (c : FinishCall) :
    Tracked (trace ++ [(g, a)]) (g.finish txn c).1 := by
  have hBefore : ∀ t, Seen trace g t → t.txnId = txn.txnId → Spent g txn := by
    intro t ht hId
    have hSpent := h.spent t ht fun hMem => hOut t hMem hId
    exact ⟨by rw [← hId, hSpent.vertexWrites], by rw [← hId, hSpent.edgeWrites],
      by rw [← hId]; exact hSpent.undoBuffer⟩
  obtain ⟨gen, hOwn⟩ : ∃ gen, OwnOnly { g with timestampGenerator := gen } (g.finish txn c).1 txn := by
    cases c with
    | abort skipWal => exact ⟨g.timestampGenerator, ownOnly_abortAt⟩
    | commit ts? skipWal =>
      obtain ⟨gen, hOwn, -⟩ := @commitAt_ends V g txn skipWal _ ts?
      exact ⟨gen, hOwn⟩
  refine h.ownOnly hOwn fun t hSeen hId _ => ?_
  have hSpent : Spent (g.finish txn c).1 txn := spent_finish hOut (hBefore t hSeen hId) c
  exact ⟨by rw [hId, hSpent.vertexWrites], by rw [hId, hSpent.edgeWrites],
    by rw [hId]; exact hSpent.undoBuffer⟩

/-- A call of the machine or a further call keeps the track of who has finished. -/
theorem lateStep [DecidableEq V] (h : Tracked trace g) (hs : LateStep g a g') :
    Tracked (trace ++ [(g, a)]) g' := by
  cases a with
  | finish txn c =>
    obtain ⟨hOut, rfl⟩ := hs
    exact h.late hOut c
  | call a =>
    obtain ⟨hEnabled, r, hExec, -⟩ := hs
    have hFst : g' = (g.exec a).1 := by rw [hExec]
    cases a with
    | begin startTs iso lock =>
      obtain rfl | ⟨idGen, hCounter, rfl⟩ | ⟨s, idGen, tsGen, hCounter, -, rfl⟩ := begin_cases hExec
      · exact h.step (fun _ ht => ht) (Nat.le_refl _) h.spent
      · refine h.step (fun _ ht => ht) ?_ fun t ht hNot => (h.spent t ht hNot).congr rfl
        show g.counters.2 ≤ idGen.counter
        omega
      · exact h.begins hCounter rfl _
    | op txn o =>
      rw [hFst]
      exact h.opSteps hEnabled (opSteps_runOp o)
    | query txn q =>
      rw [hFst]
      exact h.opSteps hEnabled.1 (opSteps_runQuery q)
    | commit txn ts? =>
      rw [hFst]
      obtain ⟨gen, hOwn, hEnds⟩ := @commitAt_ends V g txn false _ ts?
      exact h.ends hEnabled hOwn (hEnds hEnabled)
    | abort txn =>
      rw [hFst]
      have hOwn : OwnOnly g (g.abortAt txn false).1 txn := ownOnly_abortAt
      exact h.ends hEnabled hOwn fun _ => cleared_abortAt.spent
    | garbageCollect =>
      rw [hFst]
      refine h.step (fun t ht => ?_) ?_ fun t ht hNot => ?_
      · exact activeTxns_garbageCollect (g := g) ▸ ht
      · show g.counters.2 ≤ g.garbageCollect.counters.2
        rw [counters_garbageCollect]
      · have hNot' : t ∉ g.txnManager.activeTxns := activeTxns_garbageCollect (g := g) ▸ hNot
        exact (h.spent t ht hNot').congr (congrFun txns_garbageCollect _)
    | release txnId =>
      rw [hFst]
      refine h.step (fun _ ht => ht) (Nat.le_refl _) fun t ht hNot => ?_
      exact spent_release (h.spent t ht hNot)

theorem init {thr : Option Nat} {lock : LockStrategy} {iso : IsolationLevel} :
    Tracked ([] : List (MemoryGraph V × LateAction V)) (.new thr lock iso) := by
  have hNone : ∀ t, ¬ Seen ([] : List (MemoryGraph V × LateAction V)) (.new thr lock iso) t := by
    rintro t (hNow | ⟨p, hp, -⟩)
    · cases hNow
    · cases hp
  exact ⟨fun t ht => absurd ht (hNone t), fun t _ ht => absurd ht (hNone t),
    fun t ht => absurd ht (hNone t)⟩

end Tracked

/-- **A further commit or abort in any run** is refused exactly when `RefusedWhen` says so. -/
theorem finish_once_iff [DecidableEq V] {thr : Option Nat} {lock : LockStrategy}
    {iso : IsolationLevel} {trace : List (MemoryGraph V × LateAction V)} {txn : MemTransaction}
    (hRun : Run LateStep (fun _ _ => True) (.new thr lock iso) trace g)
    (hFin : HasFinished trace g txn) (c : FinishCall) :
    IsRefused g txn c ↔ RefusedWhen g txn c := by
  have hTracked : Tracked trace g :=
    Run.invariant (I := Tracked) .init (fun _ _ _ _ _ h _ hs => h.lateStep hs) hRun
  have hSeen : Seen trace g txn := .inr hFin.1
  refine isRefused_iff (fun t ht hId => hFin.2 ?_) (hTracked.spent txn hSeen hFin.2) c
  rw [← hTracked.apart t txn (.inl ht) hSeen hId]
  exact ht

/-! ## On concrete runs -/

/-- `next` for the calls of the machine, as a step of a run with further calls. -/
def nextCall [DecidableEq V] (g : MemoryGraph V) : LateAction V → Option (MemoryGraph V)
  | .call a => next (fun _ _ => true) g a
  | .finish .. => none

theorem lateStep_of_nextCall [DecidableEq V] {a : LateAction V} (h : nextCall g a = some g') :
    True ∧ LateStep g a g' := by
  cases a with
  | call a =>
    have hNext : next (fun _ _ => true) g a = some g' := h
    exact ⟨trivial, (step_of_next hNext).2⟩
  | finish txn c => cases h

/-- Evaluate a run and what is asked of its trace and its last state. -/
theorem exists_run_of_eval {actions : List (LateAction Nat)} {txn : MemTransaction}
    {q : MemoryGraph Nat → Bool}
    (h : ((runList nextCall (.new none .pessimistic .snapshot : MemoryGraph Nat) actions).map
      fun r => r.1.any (fun p => decide (txn ∈ p.1.txnManager.activeTxns)) &&
        !decide (txn ∈ r.2.txnManager.activeTxns) && q r.2) = some true) :
    ∃ trace g, Run LateStep (fun _ _ => True)
      (.new none .pessimistic .snapshot : MemoryGraph Nat) trace g ∧
      HasFinished trace g txn ∧ q g = true := by
  obtain ⟨⟨trace, g⟩, hList, hTest⟩ := Option.map_eq_some_iff.mp h
  simp only [Bool.and_eq_true, List.any_eq_true, decide_eq_true_eq, Bool.not_eq_true',
    decide_eq_false_iff_not] at hTest
  obtain ⟨⟨⟨p, hp, hIn⟩, hOut⟩, hq⟩ := hTest
  have hNext : ∀ (g : MemoryGraph Nat) (a : LateAction Nat) (g' : MemoryGraph Nat),
      nextCall g a = some g' → True ∧ LateStep g a g' := fun _ _ _ => lateStep_of_nextCall
  have hRun : Run LateStep (fun _ _ => True)
      (.new none .pessimistic .snapshot : MemoryGraph Nat) trace g := Run.of_runList hNext hList
  exact ⟨trace, g, hRun, ⟨⟨p, hp, hIn⟩, hOut⟩, hq⟩

/-- A transaction sets a property and commits while an older reader is active. Aborted after
that, it returns an error, but the reader does not find the value it was reading any more,
and the log has a marker of the abort. -/
theorem second_abort_drains :
    let t₂ := snapshotTxn 2 3 .pessimistic
    let reader := snapshotTxn 3 4 .pessimistic
    ∃ trace g, Run LateStep (fun _ _ => True)
      (.new none .pessimistic .snapshot : MemoryGraph Nat) trace g ∧ HasFinished trace g t₂ ∧
      (g.getVertex reader 7).2.toOption = some ⟨7, 1, [10], false⟩ ∧
      ((g.finish t₂ (.abort false)).1.getVertex reader 7).2.toOption = some ⟨7, 1, [20], false⟩ ∧
      ¬ IsRefused g t₂ (.abort false) := by
  intro t₂ reader
  let t₁ := snapshotTxn 1 1 .pessimistic
  let begins : LateAction Nat := .call (.begin none .snapshot .pessimistic)
  let actions : List (LateAction Nat) :=
    [begins, .call (.op t₁ (.createVertex ⟨7, 1, [10], false⟩)), .call (.commit t₁ none),
      begins, begins, .call (.op t₂ (.setVertexProperty 7 [0] [20])), .call (.commit t₂ none)]
  let test : MemoryGraph Nat → Bool := fun g =>
    decide ((g.getVertex reader 7).2.toOption = some ⟨7, 1, [10], false⟩) &&
    decide (((g.finish t₂ (.abort false)).1.getVertex reader 7).2.toOption =
      some ⟨7, 1, [20], false⟩) &&
    decide ((g.finish t₂ (.abort false)).1.wal.length = g.wal.length + 1)
  obtain ⟨trace, g, hRun, hFin, hTest⟩ := @exists_run_of_eval actions t₂ test (by decide +kernel)
  simp only [test, Bool.and_eq_true, decide_eq_true_eq] at hTest
  obtain ⟨⟨hBefore, hAfter⟩, hWal⟩ := hTest
  refine ⟨trace, g, hRun, hFin, hBefore, hAfter, ?_⟩
  rintro ⟨g', e, hEq, hInert⟩
  rw [hEq, hInert.wal] at hWal
  omega

/-- A transaction sets a property, creates a vertex and is aborted while an older reader is
active. A further abort or commit that does not write to the log is refused, an abort that
does is not, and the reader still reads the old value. -/
theorem finish_once_aborted :
    let t₂ := snapshotTxn 2 3 .pessimistic
    let reader := snapshotTxn 3 4 .pessimistic
    ∃ trace g, Run LateStep (fun _ _ => True)
      (.new none .pessimistic .snapshot : MemoryGraph Nat) trace g ∧ HasFinished trace g t₂ ∧
      (g.getVertex reader 7).2.toOption = some ⟨7, 1, [10], false⟩ ∧
      IsRefused g t₂ (.abort true) ∧ IsRefused g t₂ (.commit none true) ∧
      ¬ IsRefused g t₂ (.abort false) := by
  intro t₂ reader
  let t₁ := snapshotTxn 1 1 .pessimistic
  let begins : LateAction Nat := .call (.begin none .snapshot .pessimistic)
  let actions : List (LateAction Nat) :=
    [begins, .call (.op t₁ (.createVertex ⟨7, 1, [10], false⟩)), .call (.commit t₁ none),
      begins, begins, .call (.op t₂ (.setVertexProperty 7 [0] [20])),
      .call (.op t₂ (.createVertex ⟨8, 1, [30], false⟩)), .call (.abort t₂)]
  let test : MemoryGraph Nat → Bool := fun g =>
    decide ((g.getVertex reader 7).2.toOption = some ⟨7, 1, [10], false⟩) &&
    decide ((g.txns t₂.txnId).undoBuffer.length = 0) &&
    decide ((g.txns t₂.txnId).commitTs = none)
  obtain ⟨trace, g, hRun, hFin, hTest⟩ := @exists_run_of_eval actions t₂ test (by decide +kernel)
  simp only [test, Bool.and_eq_true, decide_eq_true_eq] at hTest
  obtain ⟨⟨hRead, hLength⟩, hCell⟩ := hTest
  have hUndo : (g.txns t₂.txnId).undoBuffer = [] := List.eq_nil_of_length_eq_zero hLength
  have hValid : g.ReadsValid t₂ := by
    intro hIso
    cases hIso
  refine ⟨trace, g, hRun, hFin, hRead, ?_, ?_, ?_⟩
  · exact (finish_once_iff hRun hFin (.abort true)).mpr ⟨rfl, hUndo⟩
  · exact (finish_once_iff hRun hFin (.commit none true)).mpr (.inr ⟨rfl, hCell, hValid⟩)
  · intro hRefused
    obtain ⟨hSkip, -⟩ := (finish_once_iff hRun hFin (.abort false)).mp hRefused
    cases hSkip

end MemoryGraph

end MiniGU
