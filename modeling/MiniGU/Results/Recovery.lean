import MiniGU.Invariant.Session

/-!
# What a recovered graph is ready for

A run of calls and checkpoints leaves a file. A fresh process opens it, and `recover` puts
the heads of the checkpoint back and replays the log. Only replay moves the generators of
the process, and only the entries of the log end a transaction that replay has begun.
-/

namespace MiniGU

open MemoryGraph

variable {V : Type}

/-! ## Timestamps and ids after a recovery -/

/-- The commit timestamp of a vertex or an edge of the graph. -/
def RecoveredTs (g : MemoryGraph V) (ts : Nat) : Prop :=
  Timestamp.isCommitTs ts = true ∧ ∃ k id c, g.chain k id = some c ∧
    c.current.data.isTombstone = false ∧ c.current.commitTs = ts

/-- An id in the file: in an entry of the log, or on a head of the checkpoint. -/
def RecordedId (s : Session V) (id : Nat) : Prop :=
  (∃ e ∈ s.graph.wal, e.txnId = id) ∨
  (Timestamp.isTxnId id = true ∧ ∃ k i h, checkpointHeads s.checkpoint k i = some h ∧
    h.commitTs = id)

/-- **Order is re-established**: whatever is called after the recovery of `s` as `g`, every
transaction begun has an id that the file does not mention, and if it draws its start
timestamp, it starts at or after every commit that was recovered. -/
def Resumes [DecidableEq V] (s : Session V) (g : MemoryGraph V) : Prop :=
  ∀ trace g₁, Run MemoryGraph.Step (fun _ _ => True) g trace g₁ →
    ∀ startTs iso lock g₂ t, g₁.beginTransactionAt none startTs iso lock false = (g₂, .ok t) →
      (startTs = none → ∀ ts, RecoveredTs g ts → ts ≤ t.startTs) ∧
      ∀ id, RecordedId s id → t.txnId ≠ id

/-- The log of the file has caught up with its checkpoint: replay installs a timestamp next
to or above every commit in the checkpoint (the first timestamp apart), and the begin of a
transaction with an id at or above every id on a head. -/
structure CaughtUp (s : Session V) : Prop where
  ts : ∀ k i h, checkpointHeads s.checkpoint k i = some h → h.data.isTombstone = false →
    Timestamp.isCommitTs h.commitTs = true →
    h.commitTs ≤ 1 ∨ ∃ ts ∈ installedTs false s.graph.wal, h.commitTs ≤ ts + 1
  id : ∀ k i h, checkpointHeads s.checkpoint k i = some h → Timestamp.isTxnId h.commitTs = true →
    ∃ b ∈ s.graph.wal, b.isBegin = true ∧ h.commitTs ≤ b.txnId

/-- The log holds the last id there is, and no transaction can begin any more. -/
def IdsExhausted (s : Session V) : Prop :=
  ∃ b ∈ s.graph.wal, b.isBegin = true ∧ b.txnId + 1 = Timestamp.u64Max

section Recovered

variable {s : Session V} {g : MemoryGraph V} {thr : Option Nat} {lock : LockStrategy}
  {iso : IsolationLevel} {u : Unit}

/-- What is known of a recovered graph. -/
structure Recovered (s : Session V) (g : MemoryGraph V) : Prop where
  stamped : Stamped (checkpointHeads s.checkpoint) g
  counters : g.counters = replayCounters false (1, Timestamp.txnIdStart + 1) s.graph.wal

theorem recovered_recover [DecidableEq V] (hOk : SessionOk s)
    (h : (MemoryGraph.new thr lock iso).recover s.checkpoint s.graph.wal = (g, .ok u)) :
    Recovered s g := by
  obtain ⟨g₀, hRestored, hStamped, hReplay⟩ := recover_ok hOk h
  refine ⟨stamped_applyWalEntries hReplay hStamped (fun _ ht => (nomatch ht)) fun e he => ?_, ?_⟩
  · exact (hOk.logged.ids e he).1
  · rw [counters_applyWalEntries hReplay, hRestored.counters]
    rfl

/-- An id below the counter: it was handed out to a begin of the log. -/
theorem Recovered.lt_id (hRec : Recovered s g) {id : Nat} (hId : Timestamp.txnIdStart < id) :
    id < g.counters.2 ↔ ∃ b ∈ s.graph.wal, b.isBegin = true ∧ id ≤ b.txnId := by
  rw [hRec.counters, lt_replayCounters_id]
  constructor
  · rintro (hLt | hBegin)
    · exact absurd hLt (by dsimp only; omega)
    · exact hBegin
  · exact .inr

theorem Recovered.le_ts (hRec : Recovered s g) {ts : Nat} :
    ts ≤ g.counters.1 ↔ ts ≤ 1 ∨ ∃ ts' ∈ installedTs false s.graph.wal, ts ≤ ts' + 1 := by
  rw [hRec.counters, le_replayCounters_ts]

theorem Recovered.id_le_max (hRec : Recovered s g) (hOk : SessionOk s) :
    g.counters.2 ≤ Timestamp.u64Max := by
  by_contra hGt
  have hStart : Timestamp.txnIdStart < Timestamp.u64Max := by decide
  obtain ⟨b, hb, -, hLe⟩ := (hRec.lt_id hStart).mp (by omega)
  have hLt := (hOk.logged.ids b hb).2
  have hMax := hOk.bounds.id
  omega

theorem Recovered.exhausted_iff (hRec : Recovered s g) (hOk : SessionOk s) :
    IdsExhausted s ↔ g.counters.2 = Timestamp.u64Max := by
  have hLe := hRec.id_le_max hOk
  constructor
  · rintro ⟨b, hb, hBegin, hLast⟩
    have hLt := (hRec.lt_id (hOk.logged.ids b hb).1).mpr ⟨b, hb, hBegin, Nat.le_refl _⟩
    omega
  · intro hEq
    have hStart : Timestamp.txnIdStart < Timestamp.u64Max - 1 := by decide
    have hPos : 0 < Timestamp.u64Max := by decide
    obtain ⟨b, hb, hBegin, hGe⟩ := (hRec.lt_id hStart).mp (by omega)
    have hLt := (hOk.logged.ids b hb).2
    have hMax := hOk.bounds.id
    exact ⟨b, hb, hBegin, by omega⟩

/-- A begin takes the counters as they are. -/
theorem begin_draws {g₁ g₂ : MemoryGraph V} {startTs : Option Nat} {t : MemTransaction}
    (h : g₁.beginTransactionAt none startTs iso lock false = (g₂, .ok t)) :
    t.txnId = g₁.counters.2 ∧ g₁.counters.2 ≠ Timestamp.u64Max ∧
      (startTs = none → t.startTs = g₁.counters.1) := by
  obtain ⟨idGen, tsGen, hId, -, -, -, hTs, -⟩ := beginTransactionAt_ok h
  refine ⟨hId, fun hMax => ?_, fun hNone => ?_⟩
  · have hFull : g₁.transactionIdGenerator.obtain none = .error (.txnIdOverflow g₁.counters.2) :=
      if_pos hMax
    unfold beginTransactionAt at h
    rw [hFull] at h
    cases (Prod.mk.inj h).2
  · rw [hNone] at hTs
    simp only [GlobalTimestampGenerator.obtain, GlobalTimestampGenerator.next] at hTs
    split at hTs
    · cases hTs
    · exact (congrArg Prod.fst (Except.ok.inj hTs)).symm

theorem begin_succeeds {g₁ : MemoryGraph V} (startTs : Option Nat)
    (hId : g₁.counters.2 ≠ Timestamp.u64Max)
    (hTs : ∃ p, g₁.timestampGenerator.obtain startTs = .ok p) :
    ∃ g₂ t, g₁.beginTransactionAt none startTs .snapshot .pessimistic false = (g₂, .ok t) ∧
      g₂.counters.2 = g₁.counters.2 + 1 := by
  obtain ⟨⟨ts, tsGen⟩, hTs⟩ := hTs
  have hObtain : g₁.transactionIdGenerator.obtain none =
      .ok (g₁.counters.2, ⟨g₁.counters.2 + 1⟩) := if_neg hId
  unfold beginTransactionAt
  rw [hObtain]
  dsimp only
  rw [hTs]
  exact ⟨_, _, rfl, rfl⟩

theorem exists_run_begins [DecidableEq V] (g : MemoryGraph V) (n : Nat)
    (hMax : g.counters.2 + n ≤ Timestamp.u64Max) :
    ∃ trace g₁, Run MemoryGraph.Step (fun _ _ => True) g trace g₁ ∧ g₁.counters.2 = g.counters.2 + n := by
  induction n with
  | zero => exact ⟨[], g, .nil, rfl⟩
  | succ n ih =>
    obtain ⟨trace, g₁, hRun, hCounter⟩ := ih (by omega)
    have hOne : ∃ p, g₁.timestampGenerator.obtain (some 1) = .ok p := ⟨_, rfl⟩
    obtain ⟨g₂, t, hBegin, hNext⟩ := begin_succeeds (some 1) (by omega) hOne
    have hExec : g₁.exec (.begin (some 1) .snapshot .pessimistic) = (g₂, .ok ()) := by
      show Outcome.void (g₁.beginTransactionAt none (some 1) .snapshot .pessimistic false) = _
      rw [hBegin]
      rfl
    have hStep : MemoryGraph.Step g₁ (.begin (some 1) .snapshot .pessimistic) g₂ :=
      ⟨trivial, .ok (), hExec, fun h => (nomatch h)⟩
    exact ⟨_, g₂, hRun.snoc trivial hStep, by omega⟩

/-- A log that has caught up is enough. -/
theorem Recovered.resumes [DecidableEq V] (hRec : Recovered s g) (hOk : SessionOk s)
    (h : CaughtUp s) : Resumes s g := by
  intro trace g₁ hRun startTs iso lock g₂ t hBegin
  have hMoves := movesOn_run hRun
  obtain ⟨hId, -, hStart⟩ := begin_draws hBegin
  refine ⟨fun hNone ts hTs => ?_, fun id hRecorded hEq => ?_⟩
  · obtain ⟨hCommit, k, i, c, hc, hLive, rfl⟩ := hTs
    have hLe : c.current.commitTs ≤ g.counters.1 := by
      rcases hRec.stamped.entity k i with hRest | hMoved
      · -- as it was restored: the log has caught up with it
        rw [hc] at hRest
        obtain ⟨hd, hHead, rfl⟩ := Option.map_eq_some_iff.mp hRest.symm
        exact hRec.le_ts.mpr (h.ts k i hd hHead hLive hCommit)
      · rcases hMoved.stamp c hc with hLt | ⟨hGt, -⟩
        · exact Nat.le_of_lt hLt
        · have := Timestamp.isCommitTs_iff.mp hCommit
          omega
    rw [hStart hNone]
    exact hLe.trans hMoves.ts
  · have hLt : id < g.counters.2 := by
      rcases hRecorded with ⟨e, he, rfl⟩ | ⟨hTxn, k, i, hd, hHead, rfl⟩
      · obtain ⟨b, hb, hIsBegin, hSame⟩ := hOk.logged.begun e he
        exact (hRec.lt_id (hOk.logged.ids e he).1).mpr ⟨b, hb, hIsBegin, hSame.ge⟩
      · obtain ⟨b, hb, hIsBegin, hLe⟩ := h.id k i hd hHead hTxn
        have hLtB := (hRec.lt_id (hOk.logged.ids b hb).1).mpr ⟨b, hb, hIsBegin, Nat.le_refl _⟩
        omega
    have := hMoves.id
    omega

/-- A head of the checkpoint has a stamp of the process that wrote the file. -/
theorem SessionOk.stamp_head (hOk : SessionOk s) {k : Kind} {i : Nat}
    {hd : CurrentVersion (Data V k)} (hHead : checkpointHeads s.checkpoint k i = some hd) :
    s.graph.Stamp hd.commitTs := by
  obtain ⟨c, hc, hLookup⟩ := Option.bind_eq_some_iff.mp hHead
  exact (hOk.checkpoint c hc).stamp k (i, hd) (mem_of_lookup_eq_some hLookup)

/-- And it is needed, while there are ids left. -/
theorem Recovered.caughtUp [DecidableEq V] (hRec : Recovered s g) (hOk : SessionOk s)
    (hLeft : g.counters.2 ≠ Timestamp.u64Max) (h : Resumes s g) : CaughtUp s := by
  refine ⟨fun k i hd hHead hLive hCommit => hRec.le_ts.mp ?_, fun k i hd hHead hTxn => ?_⟩
  · rcases hRec.stamped.entity k i with hRest | hMoved
    · -- the first transaction after the recovery
      by_contra hGt
      have hBelow : hd.commitTs < s.graph.counters.1 := by
        rcases hOk.stamp_head hHead with hLt | ⟨hGt', -⟩
        · exact hLt
        · have := Timestamp.isCommitTs_iff.mp hCommit
          omega
      have hMax := hOk.bounds.ts
      have hDraw : ∃ p, g.timestampGenerator.obtain none = .ok p := by
        refine ⟨(g.counters.1, ⟨g.counters.1 + 1⟩), if_neg ?_⟩
        show ¬ Timestamp.maxCommitTs ≤ g.counters.1
        omega
      obtain ⟨g₂, t, hBegin, -⟩ := begin_succeeds none hLeft hDraw
      have hRecTs : RecoveredTs g hd.commitTs := by
        refine ⟨hCommit, k, i, ⟨hd, []⟩, ?_, hLive, rfl⟩
        rw [hRest, hHead]
        rfl
      have hLe := (h [] g .nil none _ _ g₂ t hBegin).1 rfl _ hRecTs
      rw [(begin_draws hBegin).2.2 rfl] at hLe
      exact hGt hLe
    · rcases hMoved.reached hd hHead hLive with hLt | ⟨hGt, -⟩
      · exact Nat.le_of_lt hLt
      · have := Timestamp.isCommitTs_iff.mp hCommit
        omega
  · have hStart := Timestamp.isTxnId_iff.mp hTxn
    obtain ⟨hGt, hLt⟩ : Timestamp.txnIdStart < hd.commitTs ∧ hd.commitTs < s.graph.counters.2 := by
      rcases hOk.stamp_head hHead with hLow | hBoth
      · have hMax := hOk.bounds.ts
        have hGap : Timestamp.maxCommitTs < Timestamp.txnIdStart := by decide
        omega
      · exact hBoth
    refine (hRec.lt_id hGt).mp ?_
    by_contra hNot
    -- begins until the counter is at the id on the head
    have hMax := hOk.bounds.id
    obtain ⟨trace, g₁, hRun, hCounter⟩ := exists_run_begins g (hd.commitTs - g.counters.2) (by omega)
    have hOne : ∃ p, g₁.timestampGenerator.obtain (some 1) = .ok p := ⟨_, rfl⟩
    obtain ⟨g₂, t, hBegin, -⟩ := begin_succeeds (some 1) (by omega) hOne
    refine (h trace g₁ hRun (some 1) _ _ g₂ t hBegin).2 hd.commitTs
      (.inr ⟨hTxn, k, i, hd, hHead, rfl⟩) ?_
    rw [(begin_draws hBegin).1]
    omega

/-- **Exactly when recovery re-establishes the order of timestamps and ids**, for every file
that a run of calls and checkpoints leaves, in every fresh process. -/
theorem resumes_iff [DecidableEq V] {thr' : Option Nat} {lock' : LockStrategy}
    {iso' : IsolationLevel} {trace : List (Session V × SessionAction V)}
    (hRun : Run Session.Step (fun _ _ => True) (.new thr lock iso) trace s)
    (h : (MemoryGraph.new thr' lock' iso').recover s.checkpoint s.graph.wal = (g, .ok u)) :
    Resumes s g ↔ CaughtUp s ∨ IdsExhausted s := by
  have hOk := SessionOk.run hRun
  have hRec := recovered_recover hOk h
  constructor
  · intro hResumes
    by_cases hLast : IdsExhausted s
    · exact .inr hLast
    · have hLeft : g.counters.2 ≠ Timestamp.u64Max := fun hEq =>
        hLast ((hRec.exhausted_iff hOk).mpr hEq)
      exact .inl (hRec.caughtUp hOk hLeft hResumes)
  · rintro (hCaught | hLast)
    · exact hRec.resumes hOk hCaught
    · -- nothing can begin
      intro trace g₁ hRun' startTs iso₁ lock₁ g₂ t hBegin
      have hMoves := movesOn_run hRun'
      have hFull := (hRec.exhausted_iff hOk).mp hLast
      have hMax := hMoves.idMax (hRec.id_le_max hOk)
      have hGe := hMoves.id
      exact absurd (by omega) (begin_draws hBegin).2.1

/-! ## Nobody left open -/

/-- No head of the checkpoint carries the id of a transaction. -/
def HeadsCommitted (c : Option (GraphCheckpoint V)) : Prop :=
  ∀ k i h, checkpointHeads c k i = some h → Timestamp.isTxnId h.commitTs = false

/-- **When a log that was cut off leaves nobody active**: exactly if every begin that is left
of it is followed by a commit or an abort before the next begin and before the cut. Then no
head carries the id of a transaction either, unless one of the checkpoint does. -/
theorem recover_idle [DecidableEq V] {thr' : Option Nat} {lock' : LockStrategy}
    {iso' : IsolationLevel} {trace : List (Session V × SessionAction V)}
    (hRun : Run Session.Step (fun _ _ => True) (.new thr lock iso) trace s)
    {w : List (RedoEntry V)} (hCut : w <+: s.graph.wal)
    (h : (MemoryGraph.new thr' lock' iso').recover s.checkpoint w = (g, .ok u)) :
    (g.txnManager.activeTxns = [] ↔ isClosed false w = true) ∧
    (isClosed false w = true → HeadsCommitted s.checkpoint → Unclaimed g) := by
  have hOk := SessionOk.run hRun
  obtain ⟨g₀, hRestored, hStamped, hReplay⟩ := recover_ok hOk h
  have hIds : ∀ e ∈ w, Timestamp.txnIdStart < e.txnId := fun e he =>
    (hOk.logged.ids e (hCut.subset he)).1
  have hNobody : ∀ t, t ∉ g₀.txnManager.activeTxns := by
    rw [hRestored.active]
    exact fun _ => List.not_mem_nil
  have hReplaying : Replaying g₀ none w := by
    refine ⟨fun _ ht => (nomatch ht), fun t ht => absurd ht (hNobody t),
      fun _ _ _ t ht => absurd ht (hNobody t), ?_⟩
    exact hOk.logged.apart.sublist ((hCut.sublist.filter _).map _)
  have hOnly : OnlyCurrent g₀ none := fun t ht => absurd ht (hNobody t)
  refine ⟨(activeTxns_applyWalEntries hReplay hReplaying).trans (and_iff_right hOnly),
    fun hClosed hHeads => ?_⟩
  have hTidy : Tidy g₀ none w := by
    refine ⟨fun _ k i c hc => ?_, fun _ ht => (nomatch ht), fun _ ht => (nomatch ht)⟩
    rw [hRestored.chain] at hc
    obtain ⟨hd, hHead, rfl⟩ := Option.map_eq_some_iff.mp hc
    exact hHeads k i hd hHead
  exact unclaimed_applyWalEntries hReplay hStamped (fun _ ht => (nomatch ht)) hIds hTidy hClosed
    (hOk.logged.kept.cut hCut)

end Recovered

/-! ## Files -/

namespace Session

/-- A graph with the defaults of the code. -/
abbrev fresh : MemoryGraph Nat := .new (some gcTriggerThreshold) .pessimistic .snapshot

/-- One transaction creates a vertex and commits. -/
def createsVertex : List (Action Nat) :=
  [.begin none .snapshot .pessimistic,
    .op (snapshotTxn 1 1 .pessimistic) (.createVertex ⟨7, 1, [10], false⟩),
    .commit (snapshotTxn 1 1 .pessimistic) none]

def oneVertex : MapKeys := ⟨[7], [], []⟩

theorem listsMaps_oneVertex : (fresh.callAll createsVertex).ListsMaps oneVertex := by
  have hVertices : ∃ c c', (fresh.callAll createsVertex).vertices =
      Function.update (Function.update (fun _ => none) 7 c) 7 (some c') := ⟨_, _, rfl⟩
  obtain ⟨c, c', hEq⟩ := hVertices
  refine ⟨⟨List.nodup_singleton _, fun id => ?_⟩, ⟨List.nodup_nil, fun id => ?_⟩, List.nodup_nil,
    fun vid => ?_⟩
  · show id ∈ [7] ↔ ((fresh.callAll createsVertex).vertices id).isSome = true
    rw [hEq, List.mem_singleton]
    by_cases hId : id = 7
    · subst hId
      simp
    · simp [hId]
  · exact ⟨fun hMem => (nomatch hMem), fun hSome => (nomatch hSome)⟩
  · exact ⟨fun hMem => (nomatch hMem), fun hSome => (nomatch hSome)⟩

/-- The file with a checkpoint after that transaction. -/
def withCheckpoint : Session Nat :=
  (⟨fresh.callAll createsVertex, none⟩ : Session Nat).createCheckpoint oneVertex

theorem run_withCheckpoint : ∃ trace, Run Session.Step (fun _ _ => True)
    (.new (some gcTriggerThreshold) .pessimistic .snapshot) trace withCheckpoint := by
  obtain ⟨trace, hRun⟩ := Session.run_callAll (c := none) (g := fresh) .nil
    (show fresh.canCallAll createsVertex = true by rfl)
  have hIdle : (fresh.callAll createsVertex).txnManager.activeTxns = [] := by rfl
  exact ⟨_, hRun.snoc trivial (show Session.Step _ (.checkpoint oneVertex) withCheckpoint from
    ⟨hIdle, listsMaps_oneVertex, rfl⟩)⟩

/-- **A checkpoint alone leaves the generators behind.** The vertex was committed at 2. In the
next process the first transaction after the recovery starts at 1 and cannot write it. -/
theorem checkpoint_leaves_generators_behind : ∃ trace s g,
    Run Session.Step (fun _ _ => True)
      (.new (some gcTriggerThreshold) .pessimistic .snapshot : Session Nat) trace s ∧
    fresh.recover s.checkpoint s.graph.wal = (g, .ok ()) ∧ RecoveredTs g 2 ∧
    (∃ g₂ t, g.beginTransactionAt none none .snapshot .pessimistic false = (g₂, .ok t) ∧
      t.startTs = 1 ∧ (g₂.setVertexProperty t 7 [0] [20]).2.toOption = none) ∧
    ¬ Resumes s g := by
  obtain ⟨trace, hRun⟩ := run_withCheckpoint
  have hTs : RecoveredTs (fresh.recover withCheckpoint.checkpoint withCheckpoint.graph.wal).1 2 :=
    ⟨by decide, .vertex, 7, _, rfl, rfl, rfl⟩
  refine ⟨trace, withCheckpoint, _, hRun, rfl, hTs, ⟨_, snapshotTxn 1 1 .pessimistic, rfl, rfl,
    by rfl⟩, fun hResumes => ?_⟩
  have hLe := (hResumes [] _ .nil none .snapshot .pessimistic _ (snapshotTxn 1 1 .pessimistic)
    rfl).1 rfl 2 hTs
  exact absurd hLe (by decide)

/-- A second transaction after the checkpoint, and the log has caught up. -/
def readsOn : List (Action Nat) :=
  [.begin none .snapshot .pessimistic, .commit (snapshotTxn 2 3 .pessimistic) none]

def withTail : Session Nat := ⟨withCheckpoint.graph.callAll readsOn, withCheckpoint.checkpoint⟩

theorem run_withTail : ∃ trace, Run Session.Step (fun _ _ => True)
    (.new (some gcTriggerThreshold) .pessimistic .snapshot) trace withTail := by
  obtain ⟨trace, hRun⟩ := run_withCheckpoint
  exact run_callAll hRun (show withCheckpoint.graph.canCallAll readsOn = true by rfl)

theorem caughtUp_withTail : CaughtUp withTail := by
  have hHead : ∀ k i h, checkpointHeads withTail.checkpoint k i = some h → h.commitTs = 2 := by
    intro k i h hEq
    have hMem : (i, h) ∈ (GraphCheckpoint.new (fresh.callAll createsVertex) oneVertex).heads k :=
      mem_of_lookup_eq_some hEq
    cases k with
    | vertex =>
      rw [show (GraphCheckpoint.new (fresh.callAll createsVertex) oneVertex).heads .vertex =
        [(7, ⟨⟨7, 1, [10], false⟩, 2⟩)] by rfl] at hMem
      rw [(Prod.mk.inj (List.mem_singleton.mp hMem)).2]
    | edge => cases hMem
  refine ⟨fun k i h hEq _ _ => .inr ⟨3, by decide +kernel, ?_⟩, fun k i h hEq hTxn => ?_⟩
  · rw [hHead k i h hEq]
    omega
  · rw [hHead k i h hEq] at hTxn
    cases hTxn

/-- In that case the order is re-established. -/
theorem resumes_with_tail : ∃ trace s g, Run Session.Step (fun _ _ => True)
      (.new (some gcTriggerThreshold) .pessimistic .snapshot : Session Nat) trace s ∧
    fresh.recover s.checkpoint s.graph.wal = (g, .ok ()) ∧ RecoveredTs g 2 ∧ Resumes s g := by
  obtain ⟨trace, hRun⟩ := run_withTail
  have hRec : fresh.recover withTail.checkpoint withTail.graph.wal =
      ((fresh.recover withTail.checkpoint withTail.graph.wal).1, .ok ()) := rfl
  exact ⟨trace, withTail, _, hRun, hRec, ⟨by decide, .vertex, 7, _, rfl, rfl, rfl⟩,
    (resumes_iff hRun hRec).mpr (.inl caughtUp_withTail)⟩

/-- The log of the transaction that creates the vertex, cut off before its commit marker. -/
def cutLog : List (RedoEntry Nat) := (fresh.callAll createsVertex).wal.take 2

/-- **A cut leaves a transaction open**: replay has begun it and nothing ends it, so it stays
active, the vertex carries its id, and nobody else can write the vertex. -/
theorem cut_leaves_transaction_open : ∃ trace s g,
    Run Session.Step (fun _ _ => True)
      (.new (some gcTriggerThreshold) .pessimistic .snapshot : Session Nat) trace s ∧
    cutLog <+: s.graph.wal ∧ fresh.recover s.checkpoint cutLog = (g, .ok ()) ∧
    g.txnManager.activeTxns = [snapshotTxn 1 1 .pessimistic] ∧ ¬ Unclaimed g ∧
    ∃ g₂ t, g.beginTransactionAt none none .snapshot .pessimistic false = (g₂, .ok t) ∧
      (g₂.setVertexProperty t 7 [0] [20]).2.toOption = none := by
  obtain ⟨trace, hRun⟩ := run_callAll (c := none) (g := fresh) .nil
    (show fresh.canCallAll createsVertex = true by rfl)
  refine ⟨trace, ⟨fresh.callAll createsVertex, none⟩, (fresh.recover none cutLog).1, hRun,
    List.take_prefix .., rfl, by rfl, fun hFree => ?_, _,
    snapshotTxn 2 2 .pessimistic, rfl, by rfl⟩
  have hTxn := hFree .vertex 7 _ rfl
  exact absurd hTxn (by decide)

/-- The whole log is closed, and nobody is left open. -/
theorem whole_log_leaves_nobody : ∃ trace s g,
    Run Session.Step (fun _ _ => True)
      (.new (some gcTriggerThreshold) .pessimistic .snapshot : Session Nat) trace s ∧
    fresh.recover s.checkpoint s.graph.wal = (g, .ok ()) ∧
    g.txnManager.activeTxns = [] ∧ Unclaimed g := by
  obtain ⟨trace, hRun⟩ := run_callAll (c := none) (g := fresh) .nil
    (show fresh.canCallAll createsVertex = true by rfl)
  have hRec : fresh.recover none (fresh.callAll createsVertex).wal =
      ((fresh.recover none (fresh.callAll createsVertex).wal).1, .ok ()) := rfl
  have hClosed : isClosed false (fresh.callAll createsVertex).wal = true := by rfl
  obtain ⟨hIdle, hFree⟩ := recover_idle hRun (List.prefix_refl _) hRec
  exact ⟨trace, _, _, hRun, hRec, hIdle.mpr hClosed, hFree hClosed fun _ _ _ h => (nomatch h)⟩

end Session

end MiniGU
