import MiniGU.Invariant.Values
import MiniGU.Results.FirstCommitter

/-!
# Snapshot reads

A point read of a transaction that started at `s` should give what the commits up to `s`
give, overlaid with the transaction's own writes. The reads stop undoing at a version
stamped before `s` and the optimistic writers at one stamped `s` or before, so a version
committed exactly at `s` is skipped once it has been written over.
-/

namespace MiniGU.MemoryGraph

variable {V : Type} {g g' : MemoryGraph V} {t : MemTransaction} {k : Kind} {id : Nat}

/-- The own writes of a transaction laid over a committed value: the deltas it has logged,
or the intent it has staged. -/
def ownWrites (g : MemoryGraph V) (t : MemTransaction) (k : Kind) (id : Nat)
    (v : Option (Data V k)) : Option (Data V k) :=
  match t.lockStrategy with
  | .pessimistic => redone k id (g.redoDeltas t.txnId) v
  | .optimistic =>
    match (g.txns t.txnId).lookupWrite k id with
    | some intent => intent.kind.image.bind Data.alive
    | none => v

/-- **A point read is right**: it gives what the commits up to the reader's start and the
reader's own writes make of the entity, and an error exactly where that is nothing. -/
def ReadsSnapshot [DecidableEq V] (trace : List (MemoryGraph V × Action V)) (g : MemoryGraph V)
    (t : MemTransaction) (k : Kind) (id : Nat) : Prop :=
  (g.getEntity t k id).2.toOption =
    g.ownWrites t k id (committedValue (commits trace) k id t.startTs)

/-- Histories of committed pessimistic transactions: nothing is rolled back, collected or
freed, and a commit that names its timestamp names none below a version it wrote over. -/
def Recorded (g : MemoryGraph V) : Action V → Prop
  | .commit txn ts? => txn.lockStrategy = .pessimistic ∧ g.ReadsValid txn ∧
      ∀ ts, ts? = some ts → g.CommitsAbove txn ts
  | .abort _ => False
  | .garbageCollect => False
  | .release txnId => (g.txns txnId).undoBuffer = []
  | _ => True

/-- No version of the entity that was committed exactly when the transaction started has
been written over, unless the transaction reads a write of its own. -/
def Legible (g : MemoryGraph V) (t : MemTransaction) (k : Kind) (id : Nat) : Prop :=
  g.pendingWrite t k id = none → ∀ c, g.chain k id = some c →
    t.isForeign c.current.commitTs = true →
    ∀ r ∈ c.undoPtr, r.timestamp = t.startTs → r.delta = .del k id

/-! ## Histories keep the chains true -/

theorem chronicle_new (lock : LockStrategy) (iso : IsolationLevel) :
    Chronicle (committedValue []) (.new none lock iso : MemoryGraph V) := by
  have hNone : ∀ k id, (.new none lock iso : MemoryGraph V).chain k id = none := by
    intro k id
    cases k <;> rfl
  refine ⟨fun k id c hc => ?_, fun k id c hc => ?_, fun k id _ => ?_, fun t ht => ?_⟩
  · simp [hNone] at hc
  · simp [hNone] at hc
  · rw [hNone]
    exact fun _ => rfl
  · cases ht

/-- A begin leaves the chains and what they tell. -/
theorem Chronicle.begun {F : (k : Kind) → Nat → Nat → Option (Data V k)}
    {idGen : TransactionIdGenerator} {tsGen : GlobalTimestampGenerator} (hwf : WF g)
    (h : Chronicle F g) (hNew : t.txnId = g.counters.2) :
    Chronicle F (g.begun t idGen tsGen) := by
  have hChain : (g.begun t idGen tsGen).chain = g.chain := by
    funext k id
    cases k <;> rfl
  have hSelf : (g.begun t idGen tsGen).txns t.txnId = .new := Function.update_self ..
  have hElse : ∀ o, o ≠ t.txnId → (g.begun t idGen tsGen).txns o = g.txns o := fun o ho =>
    Function.update_of_ne ho ..
  refine ⟨?_, by rw [hChain]; exact h.last, ?_, ?_⟩
  · rw [hChain]
    intro k id c hc r hr
    have hOwner := (hwf.record k id c hc r hr).2.1
    have hne : r.owner ≠ t.txnId := by omega
    rw [upgradable_congr (g := g) (by rw [hElse _ hne])]
    exact h.live k id c hc r hr
  · rw [hChain]
    intro k id hFree
    refine h.settled k id fun c hc t' ht' => hFree c hc t' ?_
    have hOld := (hwf.activeId t' ht').2
    exact SkipList.mem_insert_of_mem ht' (.inr (by simp only [decide_eq_true_eq]; omega))
  · intro t' ht' hPess k id
    rcases mem_active_begun ht' with rfl | ht'
    · refine .inl ⟨by simp [entriesFor, hSelf, TxnState.new], fun v => ?_⟩
      simp [redoDeltas, hSelf, TxnState.new, redone]
    · have hne : t'.txnId ≠ t.txnId := by
        have := (hwf.activeId t' ht').2
        omega
      have hOld := h.running t' ht' hPess k id
      have hEntries : (g.begun t idGen tsGen).entriesFor t'.txnId k id =
          g.entriesFor t'.txnId k id := by
        unfold entriesFor
        rw [hElse _ hne]
      have hRedo : (g.begun t idGen tsGen).redoDeltas t'.txnId = g.redoDeltas t'.txnId :=
        redoDeltas_of_redoBuffer (by rw [hElse _ hne])
      unfold Composes
      rw [hEntries, hRedo, hChain]
      exact hOld

/-- One step keeps the chains telling the committed values of the run so far. -/
theorem Chronicle.step [DecidableEq V] {trace : List (MemoryGraph V × Action V)} {a : Action V}
    (hwf : WF g) (h : Chronicle (committedValue (commits trace)) g) (hRec : Recorded g a)
    (hs : Step g a g') : Chronicle (committedValue (commits (trace ++ [(g, a)]))) g' := by
  rw [commits_snoc]
  -- every step but a successful commit leaves the history as it is
  have hQuiet : (∀ txn ts? ts, a = .commit txn ts? → (g.commitAt txn ts? false).2 ≠ .ok ts) →
      Chronicle (committedValue (commits trace)) g' →
      Chronicle (committedValue (commits trace ++ (commitEvent (g, a)).toList)) g' := by
    intro hNot h'
    rcases commitEvent_cases g a with hNone | ⟨txn, ts?, ts, hEq, hOk, -⟩
    · rw [hNone]
      simpa using h'
    · exact absurd hOk (hNot txn ts? ts hEq)
  have hSame : ∀ {g'' : MemoryGraph V}, g''.chain = g.chain → g''.txns = g.txns →
      g''.txnManager = g.txnManager → Chronicle (committedValue (commits trace)) g'' := by
    intro g'' hChain hTxns hMgr
    exact h.congr hChain (fun o ho => (upgradable_congr (by rw [hTxns])).trans ho)
      (fun t => by rw [hMgr]) fun t _ _ => ⟨by rw [hTxns], redoDeltas_of_redoBuffer (by rw [hTxns])⟩
  cases step_cases hwf hs with
  | idle hNot hg =>
    subst hg
    exact hQuiet (fun txn ts? ts hEq => hNot txn ts? hEq ts) h
  | skipId hId hg =>
    subst hg
    refine hQuiet (fun _ _ _ hEq => by cases hEq) (hSame ?_ rfl rfl)
    funext k id
    cases k <;> rfl
  | @begun _ txn idGen tsGen hNew hId hStart hMono hMax hDrawn hGiven hg =>
    subst hg
    have hBegun : Chronicle (committedValue (commits trace)) (g.begun txn idGen tsGen) :=
      h.begun hwf hNew
    refine hQuiet (fun _ _ _ hEq => by cases hEq) (hBegun.congr (by simp) (fun o ho => ho)
      (fun t => Iff.rfl) fun t _ _ => ⟨rfl, rfl⟩)
  | op ht hSteps => exact hQuiet (fun _ _ _ hEq => by cases hEq) (h.opSteps hwf ht hSteps)
  | query ht hSteps => exact hQuiet (fun _ _ _ hEq => by cases hEq) (h.opSteps hwf ht hSteps)
  | rollback ht _ _ hInvalid => exact absurd hRec.2.1 (hInvalid hRec.1)
  | abort ht _ => exact absurd hRec id
  | @commitPess txn ts? ts ht hOk hDrawn hGiven _ hCommit =>
    have hEvent : commitEvent (g, .commit txn ts?) = some ⟨g, txn, ts⟩ := by
      simp only [commitEvent, hOk]
    rw [hEvent]
    refine h.commitPess hwf ht hCommit fun hlt => ?_
    cases ts? with
    | none =>
      have := hDrawn rfl
      omega
    | some ts' =>
      rw [hGiven ts' rfl]
      exact hRec.2.2 ts' rfl
  | commitOpt ht _ _ _ _ hCommit =>
    have hOpt := hCommit.opt
    rw [hRec.1] at hOpt
    cases hOpt
  | garbageCollect _ => exact absurd hRec id
  | @release o hHeld hg =>
    subst hg
    have hEmpty : (g.txns o).undoBuffer = [] := hRec
    refine hQuiet (fun _ _ _ hEq => by cases hEq) (h.congr (by simp [MemoryGraph.release])
      (fun t ht => ?_) (fun t => Iff.rfl) fun t ht _ => ?_)
    · by_cases heq : t = o
      · subst heq
        simp [upgradable, hEmpty] at ht
      · rwa [upgradable_congr (g := g) (by
          unfold MemoryGraph.release
          rw [txns_modifyTxn_of_ne g _ heq])]
    · have hne := ne_of_isHeld hHeld ht
      unfold MemoryGraph.release
      exact ⟨by rw [txns_modifyTxn_of_ne g _ hne],
        redoDeltas_of_redoBuffer (by rw [txns_modifyTxn_of_ne g _ hne])⟩

theorem chronicle_run [DecidableEq V] {trace : List (MemoryGraph V × Action V)}
    {g₀ : MemoryGraph V} (hInit : Initial g₀) (hRun : Run Step Recorded g₀ trace g) :
    WF g ∧ Chronicle (committedValue (commits trace)) g := by
  obtain ⟨lock, iso, rfl⟩ := hInit
  refine hRun.invariant (I := fun trace g => WF g ∧ Chronicle (committedValue (commits trace)) g)
    ⟨wf_new lock iso, chronicle_new lock iso⟩ fun trace s a s' _ hI hRec hStep => ?_
  have hGc : GcOk s a := by
    cases a with
    | garbageCollect => exact absurd hRec id
    | _ => trivial
  exact ⟨wf_step hI.1 hGc hStep, hI.2.step hI.1 hRec hStep⟩

/-! ## The reads of a recorded history -/

/-- A head that the transaction holds is what its log makes of the committed value. -/
theorem Chronicle.own_head {F : (k : Kind) → Nat → Nat → Option (Data V k)} (hwf : WF g)
    (h : Chronicle F g) (ht : t ∈ g.txnManager.activeTxns)
    (hPess : t.lockStrategy = .pessimistic) {c : VersionChain (Data V k) (DeltaOp V)}
    (hc : g.chain k id = some c) (hOwn : c.current.commitTs = t.txnId) :
    redone k id (g.redoDeltas t.txnId) (F k id t.startTs) = c.current.data.alive := by
  rcases h.running t ht hPess k id with ⟨hNil, -⟩ | ⟨base, c', hc', hBy, hTells, hLog⟩
  · obtain ⟨base, hBy⟩ := hwf.writtenBy ht hc hOwn
    exact absurd hNil hBy.overlay.ne_nil
  · obtain rfl := Option.some.inj (hc.symm.trans hc')
    have hHead : F k id t.startTs = headValue base := by
      cases base with
      | none => exact hTells t.startTs
      | some b => exact hTells.1 t.startTs hBy.base_stamp.1
    rw [hHead, hLog]

/-- A transaction that holds no head of the entity has no write of its own there. -/
theorem Chronicle.ownWrites_of_ne {F : (k : Kind) → Nat → Nat → Option (Data V k)} (h : Chronicle F g)
    (ht : t ∈ g.txnManager.activeTxns) (hPending : g.pendingWrite t k id = none)
    (hne : ∀ c, g.chain k id = some c → c.current.commitTs ≠ t.txnId) (v : Option (Data V k)) :
    g.ownWrites t k id v = v := by
  unfold ownWrites
  cases hLock : t.lockStrategy with
  | pessimistic =>
    rcases h.running t ht hLock k id with ⟨-, hLog⟩ | ⟨base, c, hc, hBy, -⟩
    · exact hLog v
    · exact absurd hBy.overlay.commitTs_eq (hne c hc)
  | optimistic =>
    unfold pendingWrite at hPending
    rw [if_pos hLock] at hPending
    dsimp only
    rw [hPending]

/-- **Point reads are right in every recorded history**, wherever no version committed at
the reader's start has been written over. -/
theorem snapshot_read [DecidableEq V] {trace : List (MemoryGraph V × Action V)}
    {g₀ : MemoryGraph V} (hInit : Initial g₀) (hRun : Run Step Recorded g₀ trace g) :
    ∀ t ∈ g.txnManager.activeTxns, ∀ k id, Legible g t k id → ReadsSnapshot trace g t k id := by
  intro t ht k id hLegible
  obtain ⟨hwf, hChron⟩ := chronicle_run hInit hRun
  unfold ReadsSnapshot
  show (g.readEntity t k id).toOption = _
  cases hPending : g.pendingWrite t k id with
  | some intent =>
    -- only an optimistic transaction has an intent, and reads its image
    have hOpt : t.lockStrategy = .optimistic := by
      unfold pendingWrite at hPending
      by_contra hNot
      simp [hNot] at hPending
    have hLook : (g.txns t.txnId).lookupWrite k id = some intent := by
      unfold pendingWrite at hPending
      rwa [if_pos hOpt] at hPending
    unfold readEntity ownWrites
    rw [hPending, hOpt]
    simp only [hLook]
    cases intent.kind.image with
    | none => rfl
    | some d =>
      unfold Data.alive
      dsimp only [Option.bind_some]
      split <;> rfl
  | none =>
    by_cases hOwn : ∃ c, g.chain k id = some c ∧ c.current.commitTs = t.txnId
    · obtain ⟨c, hc, hOwn⟩ := hOwn
      have hPess : t.lockStrategy = .pessimistic := by
        cases hLock : t.lockStrategy with
        | pessimistic => rfl
        | optimistic => exact absurd hOwn (hwf.head_ne_of_opt ht hLock hc)
      have hForeign : t.isForeign c.current.commitTs = false := by
        have hId := (hwf.activeId t ht).1
        rw [hOwn]
        unfold MemTransaction.isForeign Timestamp.isCommitTs
        have hNot : ¬ t.txnId < Timestamp.txnIdStart := by omega
        simp [hNot]
      rw [readEntity_of_not_isForeign hPess hc hForeign]
      unfold ownWrites
      rw [hPess]
      dsimp only
      rw [hChron.own_head hwf ht hPess hc hOwn]
      unfold Data.alive
      split <;> rfl
    · have hne : ∀ c, g.chain k id = some c → c.current.commitTs ≠ t.txnId :=
        fun c hc heq => hOwn ⟨c, hc, heq⟩
      rw [hwf.readEntity_toOption ht ⟨hne, hPending⟩, hChron.ownWrites_of_ne ht hPending hne]
      refine hChron.snap_eq hwf (hwf.activeStart t ht) fun c hc hlt => hLegible hPending c hc ?_
      rw [hwf.isForeign_eq ht (hne c hc)]
      exact decide_eq_true hlt

/-! ## Two readers -/

section Traces

/-- Vertex 1 is created (commit 2) and set (commit 4), then a transaction begins at the
timestamp given. -/
def lateReaderActions (startTs : Nat) : List (Action Nat) :=
  let t₁ := snapshotTxn 1 1 .pessimistic
  let t₂ := snapshotTxn 2 3 .pessimistic
  [.begin none .snapshot .pessimistic, .op t₁ (.createVertex (.new 1 0 [7])), .commit t₁ none,
    .begin none .snapshot .pessimistic, .op t₂ (.setVertexProperty 1 [0] [8]), .commit t₂ none,
    .begin (some startTs) .snapshot .pessimistic]

/-- The steps of the runs below, as a test. -/
def isRecorded : Action Nat → Bool
  | .begin .. => true
  | .op .. => true
  | .commit txn none => txn.lockStrategy = .pessimistic && txn.isolationLevel = .snapshot
  | _ => false

theorem recorded_of_isRecorded {g : MemoryGraph Nat} {a : Action Nat} (h : isRecorded a = true) :
    Recorded g a := by
  cases a with
  | commit txn ts? =>
    cases ts? with
    | some ts => cases h
    | none =>
      simp only [isRecorded, Bool.and_eq_true, decide_eq_true_eq] at h
      refine ⟨h.1, fun hIso => ?_, fun ts hEq => by cases hEq⟩
      rw [h.2] at hIso
      cases hIso
  | begin => trivial
  | op => trivial
  | _ => cases h

/-- The data that a reader of vertex 1 is given, and what it should be given. -/
def lateReaderFacts (t : MemTransaction) (r : List (MemoryGraph Nat × Action Nat) × MemoryGraph Nat) :
    List MemTransaction × Option (List Nat) × Option (List Nat) :=
  (r.2.txnManager.activeTxns,
    ((r.2.getVertex t 1).2.toOption.map Vertex.properties),
    ((r.2.ownWrites t .vertex 1 (committedValue (commits r.1) .vertex 1 t.startTs)).map
      Vertex.properties))

/-- **A version committed exactly at the reader's start is skipped**: a reader that starts
at 2, the timestamp of the commit that created vertex 1, does not find it. -/
theorem snapshot_read_skips : ∃ trace g,
    Run Step Recorded (.new none .pessimistic .snapshot : MemoryGraph Nat) trace g ∧
    ∃ t ∈ g.txnManager.activeTxns, ¬ ReadsSnapshot trace g t .vertex 1 := by
  let t₃ := snapshotTxn 3 2 .pessimistic
  obtain ⟨trace, g, hList, hFacts⟩ := exists_of_runList
    (show (runList (next fun _ a => isRecorded a)
      (.new none .pessimistic .snapshot : MemoryGraph Nat) (lateReaderActions 2)).map
      (lateReaderFacts t₃) = some ([t₃], none, some [7]) by decide +kernel)
  simp only [lateReaderFacts, Prod.mk.injEq] at hFacts
  obtain ⟨hActive, hGiven, hShould⟩ := hFacts
  refine ⟨trace, g, Run.of_runList (fun s a s' hNext => ?_) hList, t₃, ?_, fun hReads => ?_⟩
  · obtain ⟨hRec, hStep⟩ := step_of_next hNext
    exact ⟨recorded_of_isRecorded hRec, hStep⟩
  · rw [hActive]
    exact List.mem_singleton_self _
  · have hSame := congrArg (Option.map Vertex.properties) hReads
    rw [hShould] at hSame
    exact absurd (hGiven.symm.trans hSame) (by simp)

/-- A reader that starts at 3, between the two commits, is given the version of commit 2. -/
theorem snapshot_read_between : ∃ trace g,
    Run Step Recorded (.new none .pessimistic .snapshot : MemoryGraph Nat) trace g ∧
    ∃ t ∈ g.txnManager.activeTxns, t.startTs = 3 ∧
      (g.getVertex t 1).2.toOption.map Vertex.properties = some [7] ∧
      ReadsSnapshot trace g t .vertex 1 := by
  let t₃ := snapshotTxn 3 3 .pessimistic
  obtain ⟨trace, g, hList, hFacts⟩ := exists_of_runList
    (show (runList (next fun _ a => isRecorded a)
      (.new none .pessimistic .snapshot : MemoryGraph Nat) (lateReaderActions 3)).map
      (lateReaderFacts t₃) = some ([t₃], some [7], some [7]) by decide +kernel)
  have hStamps : (runList (next fun _ a => isRecorded a)
      (.new none .pessimistic .snapshot : MemoryGraph Nat) (lateReaderActions 3)).map
        (fun r => (r.2.vertices 1).map fun c => c.undoPtr.map UndoRec.timestamp) =
      some (some [2, 0]) := by decide +kernel
  rw [hList, Option.map_some, Option.some.injEq] at hStamps
  simp only [lateReaderFacts, Prod.mk.injEq] at hFacts
  obtain ⟨hActive, hGiven, -⟩ := hFacts
  have hRun : Run Step Recorded (.new none .pessimistic .snapshot : MemoryGraph Nat) trace g := by
    refine Run.of_runList (fun s a s' hNext => ?_) hList
    obtain ⟨hRec, hStep⟩ := step_of_next hNext
    exact ⟨recorded_of_isRecorded hRec, hStep⟩
  have hMem : t₃ ∈ g.txnManager.activeTxns := by
    rw [hActive]
    exact List.mem_singleton_self _
  refine ⟨trace, g, hRun, t₃, hMem, rfl, hGiven,
    snapshot_read ⟨_, _, rfl⟩ hRun t₃ hMem .vertex 1 fun _ c hc _ r hr hTs => ?_⟩
  -- the versions written over are stamped 2 and 0
  obtain ⟨c', hc', hPtr⟩ := Option.map_eq_some_iff.mp hStamps
  obtain rfl := Option.some.inj (hc.symm.trans hc')
  have hIn : r.timestamp ∈ c.undoPtr.map UndoRec.timestamp := List.mem_map_of_mem hr
  rw [hPtr, hTs] at hIn
  exact absurd hIn (by decide)

end Traces

end MiniGU.MemoryGraph
