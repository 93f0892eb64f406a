import MiniGU.Invariant.Finished

/-!
# Committing and checkpointing can wait for each other

The automatic checkpoint runs inside a commit that holds `commit_lock` and waits for every
active transaction to finish. A transaction that has already called `commit_at` waits for
that lock and cannot finish.
-/

namespace MiniGU

variable {V : Type}

namespace Server

variable {s s' : Server V}

/-- A step of a transaction that has begun. -/
def IsOngoing : ServerAction V → Prop
  | .begin .. => False
  | _ => True

/-- **Some transaction can go on**, if any is active. -/
def Progresses [DecidableEq V] (s : Server V) : Prop :=
  s.graph.txnManager.activeTxns ≠ [] → ∃ a s', IsOngoing a ∧ Step s a s'

/-- Commits and checkpoints do not cross: none reaches the checkpoint while another waits
for the lock, and none is called while a checkpoint waits. -/
def Uncrossed (s : Server V) : ServerAction V → Prop
  | .callCommit .. => s.isDraining = false
  | .run call => s.reachesCheckpoint call = true → ∀ c ∈ s.calls, c.stage ≠ .waiting
  | _ => True

/-- At most one call holds the commit lock; a checkpoint that waits is the only call, and
its transaction has finished. -/
structure Apart (s : Server V) : Prop where
  single : (s.calls.filter fun c => c.stage != .waiting).length ≤ 1
  drains : s.isDraining = false ∨ ∃ c, s.calls = [c] ∧ c.stage = .draining ∧
    ∀ t ∈ s.graph.txnManager.activeTxns, t.txnId ≠ c.txn.txnId

theorem Apart.graph (h : Apart s) {g : MemoryGraph V}
    (hActive : ∀ t ∈ g.txnManager.activeTxns, t ∈ s.graph.txnManager.activeTxns) :
    Apart { s with graph := g } := by
  refine ⟨h.single, h.drains.imp_right ?_⟩
  rintro ⟨c, hCalls, hStage, hLeft⟩
  exact ⟨c, hCalls, hStage, fun t ht => hLeft t (hActive t ht)⟩

theorem isDraining_eq_false : s.isDraining = false ↔ ∀ c ∈ s.calls, c.stage ≠ .draining := by
  simp [isDraining]

/-- A call that holds the lock without a checkpoint is not draining, nor is any other. -/
theorem Apart.not_draining (h : Apart s) {call : CommitCall} (hMem : call ∈ s.calls)
    (hStage : call.stage ≠ .draining) : s.isDraining = false := by
  rcases h.drains with hNot | ⟨c, hCalls, hDrains, -⟩
  · exact hNot
  · rw [hCalls, List.mem_singleton] at hMem
    rw [hMem] at hStage
    exact absurd hDrains hStage

theorem Apart.erase (h : Apart s) {call : CommitCall} (hNot : s.isDraining = false)
    (g : MemoryGraph V) (count : Nat) : Apart (s.leave call g count) := by
  refine ⟨?_, .inl ?_⟩
  · exact Nat.le_trans (List.Sublist.length_le (List.erase_sublist.filter _)) h.single
  · rw [isDraining_eq_false] at hNot ⊢
    exact fun c hc => hNot c (List.mem_of_mem_erase hc)

/-- A call that holds the lock goes on: no second one comes to hold it. -/
theorem Apart.run [DecidableEq V] (h : Apart s) {call : CommitCall} (hMem : call ∈ s.calls)
    (hStage : call.stage = .locked) (hUn : Uncrossed s (.run call)) :
    Apart (s.runCommit call) := by
  have hNot := h.not_draining hMem (by rw [hStage]; decide)
  unfold runCommit
  split
  · exact h.erase hNot ..
  · rename_i g ts hCommit
    split
    · rename_i hReach
      -- nobody waits and one call holds the lock: it is the only one
      have hAll : s.calls.filter (fun c => c.stage != .waiting) = s.calls := by
        rw [List.filter_eq_self]
        intro c hc
        simpa using hUn hReach c hc
      have hSingle := h.single
      rw [hAll] at hSingle
      have hCalls : s.calls = [call] := by
        cases hL : s.calls with
        | nil => simp [hL] at hMem
        | cons c cs =>
          rw [hL, List.length_cons] at hSingle
          have hNil : cs = [] := List.length_eq_zero_iff.mp (by omega)
          subst hNil
          rw [hL, List.mem_singleton] at hMem
          rw [hMem]
      rw [hCalls, List.erase_cons_head]
      refine ⟨by simp, .inr ⟨_, rfl, rfl, fun t ht => ?_⟩⟩
      exact MemoryGraph.ne_of_commitLocked hCommit ht
    · exact h.erase hNot ..

/-- As long as commits and checkpoints do not cross, one call at most holds the commit lock. -/
theorem Apart.step [DecidableEq V] {a : ServerAction V} (h : Apart s) (hUn : Uncrossed s a)
    (hs : Step s a s') : Apart s' := by
  unfold Step next at hs
  cases a with
  | begin startTs iso lock =>
    dsimp only at hs
    split at hs
    · cases hs
    · rename_i hNot
      cases hs
      refine ⟨h.single, .inl ?_⟩
      show s.isDraining = false
      simpa using hNot
  | op txn o =>
    dsimp only at hs
    split at hs
    · cases hs
      refine h.graph fun t ht => ?_
      rwa [MemoryGraph.txnManager_opSteps (MemoryGraph.opSteps_runOp o)] at ht
    · cases hs
  | query txn q =>
    dsimp only at hs
    split at hs
    · cases hs
      refine h.graph fun t ht => ?_
      rwa [MemoryGraph.txnManager_opSteps (MemoryGraph.opSteps_runQuery q)] at ht
    · cases hs
  | callCommit txn ts? skipWal =>
    dsimp only at hs
    split at hs
    · split at hs
      · cases hs
        exact h
      · cases hs
        refine ⟨by simpa using h.single, .inl ?_⟩
        have hNot := isDraining_eq_false.mp hUn
        rw [isDraining_eq_false]
        intro c hc
        rcases List.mem_cons.mp hc with rfl | hc
        · simp
        · exact hNot c hc
    · cases hs
  | acquire call =>
    dsimp only at hs
    split at hs
    · rename_i hGuard
      obtain ⟨hMem, hStage, hFree⟩ := hGuard
      cases hs
      -- the lock is free, so all calls wait and this one is the first to have it
      have hWaiting : ∀ c ∈ s.calls, c.stage = .waiting := by
        simpa [isLocked] using hFree
      have hNone : (s.calls.erase call).filter (fun c => c.stage != .waiting) = [] := by
        rw [List.filter_eq_nil_iff]
        intro c hc
        simp [hWaiting c (List.mem_of_mem_erase hc)]
      refine ⟨?_, .inl ?_⟩
      · rw [List.filter_cons, hNone]
        simp
      · rw [isDraining_eq_false]
        intro c hc
        rcases List.mem_cons.mp hc with rfl | hc
        · simp
        · rw [hWaiting c (List.mem_of_mem_erase hc)]
          decide
    · cases hs
  | run call =>
    dsimp only at hs
    split at hs
    · rename_i hGuard
      cases hs
      exact h.run hGuard.1 hGuard.2 hUn
    · cases hs
  | drained call =>
    dsimp only at hs
    split at hs
    · rename_i hGuard
      obtain ⟨hMem, hStage, -⟩ := hGuard
      cases hs
      -- a checkpoint that waits is the only call, and with it the last one leaves
      rcases h.drains with hNot | ⟨c, hCalls, -, -⟩
      · exact absurd hStage (isDraining_eq_false.mp hNot call hMem)
      · have hEq : call = c := by
          rw [hCalls] at hMem
          exact List.mem_singleton.mp hMem
        have hNil : s.calls.erase call = [] := by
          rw [hCalls, hEq, List.erase_cons_head]
        exact ⟨by simp [leave, hNil], .inl (by simp [isDraining, leave, hNil])⟩
    · cases hs
  | abort txn =>
    dsimp only at hs
    split at hs
    · cases hs
      exact h.graph fun t ht => MemoryGraph.ownOnly_abortAt.active t ht
    · cases hs

theorem step_abort [DecidableEq V] {t : MemTransaction} (h : s.isFree t = true) :
    ∃ a s', IsOngoing a ∧ Step s a s' :=
  ⟨.abort t, _, trivial, if_pos h⟩

theorem Apart.progresses [DecidableEq V] (h : Apart s) : Progresses s := by
  intro hActive
  obtain ⟨t, ht⟩ := List.exists_mem_of_ne_nil _ hActive
  rcases h.drains with hNot | ⟨c, hCalls, hStage, hLeft⟩
  · by_cases hLocked : ∃ c ∈ s.calls, c.stage = .locked
    · obtain ⟨c, hc, hStage⟩ := hLocked
      exact ⟨.run c, _, trivial, if_pos ⟨hc, hStage⟩⟩
    · have hWaiting : ∀ c ∈ s.calls, c.stage = .waiting := by
        intro c hc
        have hDrain := isDraining_eq_false.mp hNot c hc
        cases hStage : c.stage with
        | waiting => rfl
        | locked => exact absurd ⟨c, hc, hStage⟩ hLocked
        | draining => exact absurd hStage hDrain
      cases hL : s.calls with
      | nil =>
        refine step_abort (t := t) ?_
        simp [isFree, ht, hL]
      | cons c cs =>
        have hc : c ∈ s.calls := by
          rw [hL]
          exact List.mem_cons_self ..
        refine ⟨.acquire c, _, trivial, if_pos ⟨hc, hWaiting c hc, ?_⟩⟩
        simp only [isLocked, List.any_eq_false]
        intro c' hc'
        simp [hWaiting c' hc']
  · -- the checkpoint waits for transactions that are in no call
    refine step_abort (t := t) ?_
    simp [isFree, ht, hCalls, Ne.symm (hLeft t ht)]

/-- **Some transaction can always go on**, as long as commits and checkpoints do not
cross. -/
theorem commit_progress [DecidableEq V] {walThreshold : Nat} {lock : LockStrategy}
    {iso : IsolationLevel} {trace : List (Server V × ServerAction V)}
    (hRun : Run Step Uncrossed (.new walThreshold lock iso) trace s) : Progresses s := by
  have hApart : Apart s := by
    refine hRun.stateInvariant (I := Apart) ⟨by simp [new], .inl rfl⟩ ?_
    exact fun s a s' hI hUn hs => hI.step hUn hs
  exact hApart.progresses

end Server

/-! ## A store that stops -/

section Traces

namespace MemoryGraph

variable {g : MemoryGraph V} {t : MemTransaction}

/-- What an empty transaction leaves behind when it begins and when it commits. -/
structure Quiet (g g' : MemoryGraph V) (t : MemTransaction) (active : List MemTransaction)
    (counters : Nat × Nat) : Prop where
  active : g'.txnManager.activeTxns = active
  counters : g'.counters = counters
  others : ∀ o, o ≠ t.txnId → g'.txns o = g.txns o

/-- A begin with drawn values, where the generators have some left. -/
theorem begin_quiet {ts id : Nat} (hCnt : g.counters = (ts, id)) (hTs : ts < Timestamp.maxCommitTs)
    (hId : id < Timestamp.u64Max) (hOld : ∀ t ∈ g.txnManager.activeTxns, t.txnId < id) :
    ∃ g', (g.beginTransactionAt none none .snapshot .pessimistic false).1 = g' ∧
      g'.txns id = .new ∧ Quiet g g' ⟨id, ts, .snapshot, .pessimistic⟩
        (g.txnManager.activeTxns ++ [⟨id, ts, .snapshot, .pessimistic⟩]) (ts + 1, id + 1) := by
  obtain ⟨rfl, rfl⟩ := Prod.mk.inj hCnt
  have hIdGen : g.transactionIdGenerator.obtain none =
      .ok (g.transactionIdGenerator.counter, ⟨g.transactionIdGenerator.counter + 1⟩) :=
    if_neg (Nat.ne_of_lt hId)
  have hTsGen : g.timestampGenerator.obtain none =
      .ok (g.timestampGenerator.counter, ⟨g.timestampGenerator.counter + 1⟩) :=
    if_neg (Nat.not_le.mpr hTs)
  unfold beginTransactionAt
  rw [hIdGen]
  dsimp only
  rw [hTsGen]
  refine ⟨_, rfl, Function.update_self .., ?_, rfl, fun o ho => Function.update_of_ne ho ..⟩
  refine SkipList.insert_eq_append fun t ht => ?_
  have := hOld t ht
  simp only [decide_eq_false_iff_not, decide_eq_true_eq]
  exact ⟨by omega, this⟩

/-- A transaction that has written nothing commits, and only who is active changes. -/
theorem commit_quiet [DecidableEq V] (hIso : t.isolationLevel = .snapshot)
    (hPess : t.lockStrategy = .pessimistic) (ht : t ∈ g.txnManager.activeTxns)
    (hNew : g.txns t.txnId = .new) (ts : Nat) :
    ∃ g', g.commitLocked t ts false = (g', .ok ts) ∧
      Quiet g g' t (g.txnManager.activeTxns.filter fun t' => t'.txnId != t.txnId) g.counters := by
  have hSet : g.setCommitTs t ts =
      some (g.modifyTxn t.txnId fun s => { s with commitTs := some ts }) := by
    unfold setCommitTs
    rw [hNew]
    rfl
  have hUndo : ((g.modifyTxn t.txnId fun s => { s with commitTs := some ts }).txns
      t.txnId).undoBuffer = [] := by
    rw [txns_modifyTxn_self, hNew]
    rfl
  have hFinish : ∀ h : MemoryGraph V, h.txnManager.activeTxns = g.txnManager.activeTxns →
      h.counters = g.counters → (∀ o, o ≠ t.txnId → h.txns o = g.txns o) →
      ∃ g', h.finishTransaction t = (g', .ok ()) ∧
        Quiet g g' t (g.txnManager.activeTxns.filter fun t' => t'.txnId != t.txnId) g.counters := by
    intro h hActive hCnt hOthers
    have hAny : (h.txnManager.activeTxns.any fun t' => t'.txnId == t.txnId) = true := by
      rw [hActive]
      exact List.any_eq_true.mpr ⟨t, ht, by simp⟩
    obtain ⟨-, hTxns, -, hCnt', hAct, -⟩ := retire_frame h t
    have hSame : (h.retire t).collectAtThreshold.counters = (h.retire t).counters ∧
        (h.retire t).collectAtThreshold.txns = (h.retire t).txns := by
      unfold collectAtThreshold
      split
      · split
        · exact ⟨counters_garbageCollect, txns_garbageCollect⟩
        · exact ⟨rfl, rfl⟩
      · exact ⟨rfl, rfl⟩
    refine ⟨_, if_pos hAny, ?_, ?_, fun o ho => ?_⟩
    · rw [activeTxns_collectAtThreshold, hAct, hActive]
    · rw [hSame.1, hCnt', hCnt]
    · rw [hSame.2, hTxns, hOthers o ho]
  unfold commitLocked
  rw [hIso, hPess]
  dsimp only
  unfold commitPessimistic
  rw [hSet]
  dsimp only
  rw [hUndo]
  simp only [List.map_nil, publishAll]
  unfold finalizeCommitCommon
  dsimp only
  obtain ⟨g', hg', hQuiet⟩ := hFinish (clearWrites (setLatestCommitTs
    (flushRedoAndCommitWal (g.modifyTxn t.txnId fun s => { s with commitTs := some ts }) t ts) ts) t)
    rfl rfl (fun o ho => by
      simp [clearWrites, setLatestCommitTs, flushRedoAndCommitWal, modifyTxn, appendWal,
        withManager, ho])
  refine ⟨g', ?_, hQuiet⟩
  simp only [Bool.false_eq_true, if_false]
  rw [hg']

end MemoryGraph

namespace Server

/-- Nothing is going on and `n` entries have been logged. -/
structure Ready (n : Nat) (s : Server V) : Prop where
  calls : s.calls = []
  threshold : s.walThreshold = defaultWalThreshold
  count : s.walEntriesSinceCheckpoint = n
  active : s.graph.txnManager.activeTxns = []
  ts : s.graph.counters.1 ≤ n + 1
  id : s.graph.counters.2 ≤ Timestamp.txnIdStart + n + 1

variable {s : Server V} {n : Nat}

theorem draws_left {ts id m : Nat} (hTs : ts ≤ m) (hId : id ≤ Timestamp.txnIdStart + m)
    (hm : m ≤ 2000) : ts < Timestamp.maxCommitTs ∧ id < Timestamp.u64Max := by
  unfold Timestamp.maxCommitTs Timestamp.u64Max Timestamp.txnIdStart at *
  omega

/-- A call of `commit_at` on a free transaction that draws its timestamp. -/
theorem step_callCommit [DecidableEq V] {t : MemTransaction} (hFree : s.isFree t = true)
    (hTs : s.graph.counters.1 < Timestamp.maxCommitTs) :
    Step s (.callCommit t none false) { s with
      graph := { s.graph with timestampGenerator := ⟨s.graph.counters.1 + 1⟩ }
      calls := ⟨t, s.graph.counters.1, false, .waiting⟩ :: s.calls } := by
  have hGen : s.graph.timestampGenerator.obtain none =
      .ok (s.graph.counters.1, ⟨s.graph.counters.1 + 1⟩) :=
    if_neg (Nat.not_le.mpr hTs)
  unfold Step next
  dsimp only
  rw [if_pos hFree, hGen]

/-- One more round of a begin and a commit, below the checkpoint's threshold. -/
theorem Ready.round [DecidableEq V] {s₀ : Server V} {trace : List (Server V × ServerAction V)}
    (hRun : Run Step (fun _ _ => True) s₀ trace s) (h : Ready n s)
    (hn : n + 2 < defaultWalThreshold) :
    ∃ trace' s', Run Step (fun _ _ => True) s₀ trace' s' ∧ Ready (n + 2) s' := by
  obtain ⟨hCalls, hThreshold, hCount, hActive, hTs, hId⟩ := h
  generalize hCnt : s.graph.counters = cnt at hTs hId
  obtain ⟨ts, id⟩ := cnt
  have hSmall : n + 2 < 1000 := hn
  obtain ⟨hTsLt, hIdLt⟩ := draws_left (m := n + 1) hTs hId (by omega)
  obtain ⟨g₁, hg₁, hNew, hQuiet⟩ := MemoryGraph.begin_quiet hCnt hTsLt hIdLt (by simp [hActive])
  let t : MemTransaction := ⟨id, ts, .snapshot, .pessimistic⟩
  let s₁ : Server V := { s with graph := g₁ }
  have hBegin : Step s (.begin none .snapshot .pessimistic) s₁ := by
    unfold Step next
    dsimp only
    rw [if_neg (by simp [isDraining, hCalls]), hg₁]
  have hActive₁ : g₁.txnManager.activeTxns = [t] := by
    rw [hQuiet.active, hActive]
    rfl
  have hFree : s₁.isFree t = true := by
    simp [isFree, s₁, hActive₁, hCalls]
  have hCnt₁ : g₁.counters = (ts + 1, id + 1) := hQuiet.counters
  have hTs₁ : s₁.graph.counters.1 = ts + 1 := congrArg Prod.fst hCnt₁
  have hCall := step_callCommit hFree (by
    rw [hTs₁]
    exact (draws_left (m := n + 2) (Nat.succ_le_succ hTs) (Nat.le_succ_of_le hId) (by omega)).1)
  rw [hTs₁] at hCall
  let call : CommitCall := ⟨t, ts + 1, false, .waiting⟩
  let g₂ : MemoryGraph V := { g₁ with timestampGenerator := ⟨ts + 1 + 1⟩ }
  let s₂ : Server V := { s₁ with graph := g₂, calls := [call] }
  have hCall₂ : Step s₁ (.callCommit t none false) s₂ := by
    have hNil : s₁.calls = [] := hCalls
    rw [hNil] at hCall
    exact hCall
  let held : CommitCall := { call with stage := .locked }
  let s₃ : Server V := { s₂ with calls := [held] }
  have hAcquire : Step s₂ (.acquire call) s₃ := by
    unfold Step next
    dsimp only
    rw [if_pos ⟨by simp [s₂], rfl, by simp [isLocked, s₂, call]⟩]
    simp [s₂, s₃, held]
  obtain ⟨g₃, hCommit, hDone⟩ := MemoryGraph.commit_quiet (g := g₂) (t := t) rfl rfl
    (by rw [show g₂.txnManager.activeTxns = [t] from hActive₁]; simp) hNew (ts + 1)
  have hReach : s₃.reachesCheckpoint held = false := by
    have hRedo : (g₂.txns t.txnId).redoBuffer = [] := by
      show (g₁.txns id).redoBuffer = []
      rw [hNew]
      rfl
    have hLt : ¬ s.walThreshold ≤ s.walEntriesSinceCheckpoint + 0 + 2 := by
      rw [hThreshold, hCount]
      unfold defaultWalThreshold
      omega
    simp only [reachesCheckpoint, s₃, s₂, s₁, held, call]
    rw [hRedo]
    simpa using fun _ => Nat.not_le.mp hLt
  have hRunStep : Step s₃ (.run held) (s₃.leave held (g₃.markHandled t) (n + 2)) := by
    unfold Step next
    dsimp only
    rw [if_pos ⟨by simp [s₃], rfl⟩]
    unfold runCommit
    rw [show s₃.graph.commitLocked held.txn held.commitTs held.skipWal = (g₃, .ok (ts + 1)) from
      hCommit]
    dsimp only
    rw [hReach]
    have hEntries : s₃.countEntries held = n + 2 := by
      simp only [countEntries, s₃, s₂, s₁, held, call, g₂, t]
      rw [hNew]
      simp [TxnState.new, hCount]
    rw [hEntries]
    rfl
  refine ⟨_, _, (((hRun.snoc trivial hBegin).snoc trivial hCall₂).snoc trivial hAcquire).snoc
    trivial hRunStep, ?_, hThreshold, rfl, ?_, ?_, ?_⟩
  · simp [leave, s₃]
  · show g₃.txnManager.activeTxns = []
    rw [hDone.active, show g₂.txnManager.activeTxns = [t] from hActive₁]
    simp
  · show g₃.counters.1 ≤ n + 2 + 1
    rw [hDone.counters]
    show ts + 1 + 1 ≤ n + 2 + 1
    omega
  · show g₃.counters.2 ≤ Timestamp.txnIdStart + (n + 2) + 1
    rw [hDone.counters]
    show g₁.counters.2 ≤ _
    rw [hCnt₁]
    dsimp only at hId ⊢
    omega

theorem ready_run [DecidableEq V] (i : Nat) (hi : 2 * i < defaultWalThreshold) :
    ∃ trace s, Run Step (fun _ _ => True)
      (.new defaultWalThreshold .pessimistic .snapshot : Server V) trace s ∧ Ready (2 * i) s := by
  induction i with
  | zero =>
    exact ⟨[], _, .nil, rfl, rfl, rfl, rfl, Nat.le_refl _, Nat.le_refl _⟩
  | succ i ih =>
    obtain ⟨trace, s, hRun, hReady⟩ := ih (by omega)
    exact hReady.round hRun hi

/-- **The store stops for good**: after 998 log entries two transactions begin and call
`commit_at`. The first commits, reaches the checkpoint and waits for the second, which
waits for the lock that the first holds; not even a new transaction can begin. -/
theorem commit_stuck : ∃ trace s, Run Step (fun _ _ => True)
    (.new defaultWalThreshold .pessimistic .snapshot : Server Nat) trace s ∧
    s.graph.txnManager.activeTxns ≠ [] ∧ ∀ a s', ¬ Step s a s' := by
  obtain ⟨trace, s, hRun, hCalls, hThreshold, hCount, hActive, hTs, hId⟩ :=
    ready_run (V := Nat) 499 (by decide)
  generalize hCnt : s.graph.counters = cnt at hTs hId
  obtain ⟨ts, id⟩ := cnt
  dsimp only at hTs hId
  have hLeft : ∀ i, i ≤ 10 → ts + i < Timestamp.maxCommitTs ∧ id + i < Timestamp.u64Max :=
    fun i hi => draws_left (m := 1010) (by omega) (by omega) (by omega)
  let t₁ : MemTransaction := ⟨id, ts, .snapshot, .pessimistic⟩
  let t₂ : MemTransaction := ⟨id + 1, ts + 1, .snapshot, .pessimistic⟩
  obtain ⟨g₁, hg₁, hNew₁, hQuiet₁⟩ := MemoryGraph.begin_quiet hCnt (hLeft 0 (by omega)).1
    (hLeft 0 (by omega)).2 (by simp [hActive])
  have hActive₁ : g₁.txnManager.activeTxns = [t₁] := by
    rw [hQuiet₁.active, hActive]
    rfl
  obtain ⟨g₂, hg₂, hNew₂, hQuiet₂⟩ := MemoryGraph.begin_quiet (g := g₁) hQuiet₁.counters
    (hLeft 1 (by omega)).1 (hLeft 1 (by omega)).2 (by simp [hActive₁, t₁])
  have hActive₂ : g₂.txnManager.activeTxns = [t₁, t₂] := by
    rw [hQuiet₂.active, hActive₁]
    rfl
  have hCnt₂ : g₂.counters.1 = ts + 1 + 1 := congrArg Prod.fst hQuiet₂.counters
  have hNew₁' : g₂.txns id = .new := (hQuiet₂.others id (by simp)).trans hNew₁
  -- both begin
  let s₁ : Server Nat := { s with graph := g₁ }
  let s₂ : Server Nat := { s with graph := g₂ }
  have hBegin₁ : Step s (.begin none .snapshot .pessimistic) s₁ := by
    unfold Step next
    dsimp only
    rw [if_neg (by simp [isDraining, hCalls]), hg₁]
  have hBegin₂ : Step s₁ (.begin none .snapshot .pessimistic) s₂ := by
    unfold Step next
    dsimp only
    rw [if_neg (by simp [isDraining, s₁, hCalls]), hg₂]
  -- both call commit_at
  let c₁ : CommitCall := ⟨t₁, ts + 1 + 1, false, .waiting⟩
  let c₂ : CommitCall := ⟨t₂, ts + 1 + 1 + 1, false, .waiting⟩
  let s₃ : Server Nat := { s₂ with
    graph := { g₂ with timestampGenerator := ⟨ts + 1 + 1 + 1⟩ }, calls := [c₁] }
  let s₄ : Server Nat := { s₃ with
    graph := { g₂ with timestampGenerator := ⟨ts + 1 + 1 + 1 + 1⟩ }, calls := [c₂, c₁] }
  have hCall₁ : Step s₂ (.callCommit t₁ none false) s₃ := by
    have hStep := step_callCommit (s := s₂) (t := t₁)
      (by simp [isFree, s₂, hActive₂, hCalls]) (by
        rw [show s₂.graph.counters.1 = ts + 1 + 1 from hCnt₂]
        exact (hLeft 2 (by omega)).1)
    rw [show s₂.graph.counters.1 = ts + 1 + 1 from hCnt₂,
      show s₂.calls = [] from hCalls] at hStep
    exact hStep
  have hCall₂ : Step s₃ (.callCommit t₂ none false) s₄ :=
    step_callCommit (s := s₃) (t := t₂) (by simp [isFree, s₃, hActive₂, c₁, t₁, t₂])
      (hLeft 3 (by omega)).1
  -- the first takes the lock, commits and reaches the checkpoint
  let held : CommitCall := { c₁ with stage := .locked }
  let s₅ : Server Nat := { s₄ with calls := [held, c₂] }
  have hNe : c₂ ≠ c₁ := by simp [c₁, c₂]
  have hAcquire : Step s₄ (.acquire c₁) s₅ := by
    unfold Step next
    dsimp only
    rw [if_pos ⟨by simp [s₄], rfl, by simp [isLocked, s₄, c₁, c₂]⟩]
    simp [s₄, s₅, held, hNe]
  obtain ⟨g₃, hCommit, hDone⟩ := MemoryGraph.commit_quiet (g := s₅.graph) (t := t₁) rfl rfl
    (by rw [show s₅.graph.txnManager.activeTxns = [t₁, t₂] from hActive₂]; simp) hNew₁' (ts + 1 + 1)
  let drains : CommitCall := { held with stage := .draining }
  let s₆ : Server Nat := { s₅ with
    graph := g₃, walEntriesSinceCheckpoint := s₅.countEntries held, calls := [drains, c₂] }
  have hRedo : (s₅.graph.txns held.txn.txnId).redoBuffer = [] := by
    show (g₂.txns id).redoBuffer = []
    rw [hNew₁']
    rfl
  have hReach : s₅.reachesCheckpoint held = true := by
    unfold reachesCheckpoint
    rw [hRedo]
    have hCount₅ : s₅.walEntriesSinceCheckpoint = 998 := hCount
    have hThreshold₅ : s₅.walThreshold = 1000 := hThreshold
    rw [hCount₅, hThreshold₅]
    rfl
  have hRunStep : Step s₅ (.run held) s₆ := by
    unfold Step next
    dsimp only
    rw [if_pos ⟨by simp [s₅], rfl⟩]
    unfold runCommit
    rw [show s₅.graph.commitLocked held.txn held.commitTs held.skipWal =
      (g₃, .ok (ts + 1 + 1)) from hCommit]
    dsimp only
    rw [hReach]
    simp [s₅, s₆, drains]
  have hActive₆ : g₃.txnManager.activeTxns = [t₂] := by
    rw [hDone.active, show s₅.graph.txnManager.activeTxns = [t₁, t₂] from hActive₂]
    simp [t₁, t₂]
  have hNotFree : ∀ t, s₆.isFree t = false := by
    intro t
    by_cases heq : t = t₂
    · simp [isFree, s₆, heq, c₂]
    · simp [isFree, s₆, hActive₆, heq]
  refine ⟨_, s₆, (((((hRun.snoc trivial hBegin₁).snoc trivial hBegin₂).snoc trivial hCall₁).snoc
    trivial hCall₂).snoc trivial hAcquire).snoc trivial hRunStep, ?_, fun a s' hStep => ?_⟩
  · show g₃.txnManager.activeTxns ≠ []
    rw [hActive₆]
    simp
  · unfold Step next at hStep
    cases a with
    | begin startTs iso lock => simp [isDraining, s₆, drains] at hStep
    | op txn o => simp [hNotFree] at hStep
    | query txn q => simp [hNotFree] at hStep
    | callCommit txn ts? skipWal => simp [hNotFree] at hStep
    | acquire call => simp [isLocked, s₆, drains] at hStep
    | run call =>
      have hNone : ¬ (call ∈ s₆.calls ∧ call.stage = .locked) := by
        rintro ⟨hMem, hStage⟩
        simp only [s₆, List.mem_cons, List.not_mem_nil, or_false] at hMem
        rcases hMem with rfl | rfl
        · cases hStage
        · cases hStage
      simp [hNone] at hStep
    | drained call =>
      have hNone : s₆.graph.txnManager.activeTxns ≠ [] := by
        rw [show s₆.graph.txnManager.activeTxns = [t₂] from hActive₆]
        simp
      simp [hNone] at hStep
    | abort txn => simp [hNotFree] at hStep

/-- `next` for steps that do not cross, as a test. -/
def nextUncrossed [DecidableEq V] (s : Server V) (a : ServerAction V) : Option (Server V) :=
  match a with
  | .callCommit .. => if s.isDraining then none else s.next a
  | .run call => if s.reachesCheckpoint call then none else s.next a
  | _ => s.next a

theorem step_of_nextUncrossed [DecidableEq V] {s s' : Server V} {a : ServerAction V}
    (h : nextUncrossed s a = some s') : Uncrossed s a ∧ Step s a s' := by
  unfold nextUncrossed at h
  cases a with
  | callCommit txn ts? skipWal =>
    dsimp only at h
    split at h
    · cases h
    · rename_i hNot
      exact ⟨by simpa [Uncrossed] using hNot, h⟩
  | run call =>
    dsimp only at h
    split at h
    · cases h
    · rename_i hNot
      exact ⟨fun hReach => absurd hReach hNot, h⟩
  | _ => exact ⟨trivial, h⟩

/-- Two transactions begin and the first one commits: the second can go on. -/
theorem commit_progress_second : ∃ trace s, Run Step Uncrossed
    (.new defaultWalThreshold .pessimistic .snapshot : Server Nat) trace s ∧
    s.graph.txnManager.activeTxns ≠ [] ∧ ∃ a s', IsOngoing a ∧ Step s a s' := by
  let t₁ : MemTransaction := ⟨Timestamp.txnIdStart + 1, 1, .snapshot, .pessimistic⟩
  let call : CommitCall := ⟨t₁, 3, false, .waiting⟩
  let actions : List (ServerAction Nat) :=
    [.begin none .snapshot .pessimistic, .begin none .snapshot .pessimistic,
      .callCommit t₁ none false, .acquire call, .run { call with stage := .locked }]
  have hSome : (runList nextUncrossed
      (.new defaultWalThreshold .pessimistic .snapshot : Server Nat) actions).isSome = true := by
    decide +kernel
  obtain ⟨⟨trace, s⟩, hList⟩ := Option.isSome_iff_exists.mp hSome
  have hActive : (runList nextUncrossed
      (.new defaultWalThreshold .pessimistic .snapshot : Server Nat) actions).map
        (fun r => r.2.graph.txnManager.activeTxns.length) = some 1 := by decide +kernel
  rw [hList, Option.map_some, Option.some.injEq] at hActive
  have hRun : Run Step Uncrossed
      (.new defaultWalThreshold .pessimistic .snapshot : Server Nat) trace s :=
    Run.of_runList (fun _ _ _ hNext => step_of_nextUncrossed hNext) hList
  have hne : s.graph.txnManager.activeTxns ≠ [] := by
    intro hNil
    rw [hNil] at hActive
    cases hActive
  exact ⟨trace, s, hRun, hne, commit_progress hRun hne⟩

end Server

end Traces

end MiniGU
