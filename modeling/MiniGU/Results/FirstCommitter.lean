import MiniGU.Invariant.Guards
import MiniGU.Invariant.Order

/-!
# First committer wins

Two mechanisms keep the writers of one entity apart: a pessimistic writer stamps the
head with its id and refuses heads committed after its start, an optimistic one records
the stamp of the version it started from and compares it at commit. `Safe` is what both
preserve: a version committed at `c` stays visible in the head's stamp, in the stamps
that undo entries would put back, and in the start of whoever holds the head, until
every transaction that may still write started at or after `c`.
-/

namespace MiniGU.MemoryGraph

variable {V : Type}

/-- The condition on each step. A collection removes only entities committed at or
below the watermark, at a time when the watermark is below every active start; an
explicit start is not below the watermark and an explicit commit timestamp not below
the start. -/
def Fcw (g : MemoryGraph V) : Action V → Prop
  | .garbageCollect => CollectsCommitted g ∧
      ∀ t ∈ g.txnManager.activeTxns, g.txnManager.watermark ≤ t.startTs
  | .begin (some s) _ _ => g.txnManager.watermark ≤ s
  | .commit txn (some ts) => txn.startTs ≤ ts
  | _ => True

theorem gcOk_of_fcw {g : MemoryGraph V} {a : Action V} (h : Fcw g a) : GcOk g a := by
  cases a with
  | garbageCollect => exact h.1
  | _ => trivial

theorem fcw_of_isPlain {g : MemoryGraph V} {a : Action V} (h : a.isPlain = true) : Fcw g a := by
  cases a with
  | begin startTs iso lock => cases startTs <;> trivial
  | commit txn ts? => cases ts? <;> trivial
  | garbageCollect => cases h
  | _ => trivial

/-- Every transaction that runs or is still to begin started at or after `c`. -/
def Old (g : MemoryGraph V) (c : Nat) : Prop :=
  c ≤ g.txnManager.watermark ∧ ∀ t ∈ g.txnManager.activeTxns, c ≤ t.startTs

/-- No transaction that started before `c` can still write the entity. -/
def Safe (g : MemoryGraph V) (c : Nat) (k : Kind) (id : Nat) : Prop :=
  g.Old c ∨ ∃ ch, g.chain k id = some ch ∧ c ≤ ch.current.commitTs ∧
    ∀ t ∈ g.txnManager.activeTxns, ch.current.commitTs = t.txnId →
      c ≤ t.startTs ∧ ∀ e ∈ g.entriesFor t.txnId k id, c ≤ e.timestamp

variable {g g' : MemoryGraph V} {txn : MemTransaction} {k : Kind} {id : Nat}
  {c : VersionChain (Data V k) (DeltaOp V)}

/-! ## Operations -/

theorem Safe.congr {v : Nat} (h : Safe g v k id) (hMgr : g'.txnManager = g.txnManager)
    (hChain : g'.chain k id = g.chain k id)
    (hUndo : ∀ t, g'.entriesFor t k id = g.entriesFor t k id) : Safe g' v k id := by
  unfold Safe Old at *
  rw [hMgr, hChain]
  simp only [hUndo]
  exact h

/-- A write passes its checks only over a version that it started after. -/
theorem Safe.opStep {v : Nat} (hwf : WF g) (ht : txn ∈ g.txnManager.activeTxns)
    (hv : v < g.counters.1) (h : Safe g v k id) (hs : OpStep txn g g') : Safe g' v k id := by
  cases hwf.chainStep ht hs with
  | quiet hChain hUndo =>
    exact h.congr hs.txnManager (by rw [hChain]) fun t => entriesFor_of_undoBuffer (hUndo t) ..
  | @write k' id' c delta ts redo d hOk hOver hChain hUndo =>
    by_cases hEq : (k, id) = (k', id')
    · obtain ⟨rfl, rfl⟩ := Prod.mk.inj hEq
      rcases h with hOld | ⟨ch, hch, hle, hHold⟩
      · left
        unfold Old at *
        rw [hs.txnManager]
        exact hOld
      · right
        cases hOver with
        | new _ hNone => simp [hNone] at hch
        | old hc hw hEdit =>
          obtain rfl := Option.some.inj (hch.symm.trans hc)
          have hStart := hwf.start_lt_id ht ht
          have hIdLt := (hwf.activeId txn ht).1
          have hMax := hwf.tsBound
          refine ⟨_, by rw [hChain]; exact chain_writeVersion_self .., ?_, fun t ht' hHead => ?_⟩
          · rw [VersionChain.push_commitTs]
            unfold Timestamp.maxCommitTs Timestamp.txnIdStart at *
            omega
          · rw [hs.txnManager] at ht'
            obtain rfl : t = txn := hwf.activeInj t ht' txn ht hHead.symm
            rw [entriesFor_of_undoBuffer (hUndo _), entriesFor_writeVersion_self hOk.target]
            rcases hw with hOwn | hVisible
            · -- the head was the writer's own already
              obtain ⟨hStartLe, hEntries⟩ := hHold t ht' hOwn
              refine ⟨hStartLe, fun e he => ?_⟩
              rcases List.mem_append.mp he with he | he
              · exact hEntries e he
              · rw [List.mem_singleton.mp he]
                exact hle
            · refine ⟨by omega, fun e he => ?_⟩
              have hNil : g.entriesFor t.txnId k id = [] := hwf.entriesFor_eq_nil ht' fun c' hc' => by
                obtain rfl := Option.some.inj (hch.symm.trans hc')
                omega
              rw [hNil, List.nil_append] at he
              rw [List.mem_singleton.mp he]
              exact hle
    · refine h.congr hs.txnManager (by rw [hChain]; exact chain_writeVersion_of_ne hEq ..)
        fun t => ?_
      rw [entriesFor_of_undoBuffer (hUndo t)]
      exact entriesFor_writeVersion_of_ne hOk.target (fun _ => hEq) ..

/-! ## The end of a transaction -/

theorem Old.ends {v : Nat} (h : Old g v) (he : Ends g g' txn) : Old g' v :=
  ⟨Nat.le_trans h.1 he.watermarkMono, fun t ht => h.2 t (he.mem_active.mp ht).1⟩

/-- A chain that the end of a transaction leaves alone stays safe. -/
theorem Safe.ends {v : Nat} (h : Safe g v k id) (he : Ends g g' txn)
    (hChain : g'.chain k id = g.chain k id) : Safe g' v k id := by
  rcases h with hOld | ⟨ch, hch, hle, hHold⟩
  · exact .inl (hOld.ends he)
  · refine .inr ⟨ch, hChain.trans hch, hle, fun t ht hHead => ?_⟩
    obtain ⟨htOld, hne⟩ := he.mem_active.mp ht
    obtain ⟨hStart, hEntries⟩ := hHold t htOld hHead
    refine ⟨hStart, fun e hMem => hEntries e ?_⟩
    rw [← entriesFor_of_undoBuffer (congrArg _ (he.others t.txnId hne))]
    exact hMem

theorem safe_of_stamped {v ts : Nat} (hwf : WF g) (he : Ends g g' txn) (hTs : ts < g'.counters.1)
    {ch : VersionChain (Data V k) (DeltaOp V)} (hch : g'.chain k id = some ch)
    (hHead : ch.current.commitTs = ts) (hle : v ≤ ts) : Safe g' v k id := by
  refine .inr ⟨ch, hch, by omega, fun t ht hEq => ?_⟩
  exact absurd (hHead.symm.trans hEq) (hwf.commitTs_ne_id hTs he.tsBound (he.mem_active.mp ht).1)

theorem Safe.abort {v : Nat} (hwf : WF g) (ht : txn ∈ g.txnManager.activeTxns)
    (h : Safe g v k id) (ha : AbortSpec g g' txn) : Safe g' v k id := by
  have hSafe := h
  rcases h with hOld | ⟨ch, hch, -, hHold⟩
  · exact .inl (hOld.ends ha.toEnds)
  · have hNew : g'.chain k id = some ((g.entriesFor txn.txnId k id).foldl
        (restoreEntry DeltaOp.restore txn.txnId) ch) := by
      rw [ha.chain, hch]
      rfl
    rcases foldl_restoreEntry_cases DeltaOp.restore txn.txnId ch
      (g.entriesFor txn.txnId k id) with heq | ⟨hOwn, e, he, hTs, -⟩
    · exact hSafe.ends ha.toEnds (by rw [hNew, heq, hch])
    · -- the stamp put back is one that an entry of the transaction remembers
      obtain ⟨-, hEntries⟩ := hHold txn ht hOwn
      obtain ⟨-, -, -, hCan⟩ := hwf.writtenBy ht hch hOwn
      refine .inr ⟨_, hNew, by rw [hTs]; exact hEntries e he, fun t ht' hHead => ?_⟩
      obtain ⟨htOld, hne⟩ := ha.mem_active.mp ht'
      rw [hTs] at hHead
      exact absurd hHead (hwf.canWrite_other ht htOld (fun heq => hne (by rw [heq])) (hCan e he))

/-- Whoever holds the head of a safe entity started late enough. -/
theorem Safe.le_start_of_wrote_pess {v : Nat} (hwf : WF g) (ht : txn ∈ g.txnManager.activeTxns)
    (h : Safe g v k id) (hne : g.entriesFor txn.txnId k id ≠ []) : v ≤ txn.startTs := by
  rcases h with hOld | ⟨ch, hch, -, hHold⟩
  · exact hOld.2 txn ht
  · obtain ⟨c, hc, hOwn⟩ := hwf.head_of_entriesFor ht hne
    obtain rfl := Option.some.inj (hch.symm.trans hc)
    exact (hHold txn ht hOwn).1

/-- So did a transaction whose intent for it passes validation. -/
theorem Safe.le_start_of_valid {v : Nat} (hwf : WF g) (ht : txn ∈ g.txnManager.activeTxns)
    (hGuards : GuardsOk g) (h : Safe g v k id) {intent : WriteIntent (Data V k)}
    (hLook : (g.txns txn.txnId).lookupWrite k id = some intent)
    (hValid : g.validateIntent txn k id intent = .ok ()) : v ≤ txn.startTs := by
  rcases h with hOld | ⟨ch, hch, hle, hHold⟩
  · exact hOld.2 txn ht
  · by_cases hTxn : Timestamp.isTxnId ch.current.commitTs = true
    · by_cases hOwn : ch.current.commitTs = txn.txnId
      · exact (hHold txn ht hOwn).1
      · obtain ⟨guardTs, kind⟩ := intent
        have hNot : (ch.current.commitTs != txn.txnId) = true := by simpa using hOwn
        unfold validateIntent at hValid
        cases kind <;> simp [hch, hTxn, hNot] at hValid
    · -- a committed head: it carries the stamp the intent was computed from
      have hCommit : Timestamp.isCommitTs ch.current.commitTs = true := by
        rw [Timestamp.isTxnId_iff] at hTxn
        rw [Timestamp.isCommitTs_iff]
        omega
      have hTxn' : Timestamp.isTxnId ch.current.commitTs = false := by simpa using hTxn
      have hGuard : ch.current.commitTs = intent.guardTs := by
        obtain ⟨guardTs, kind⟩ := intent
        unfold validateIntent at hValid
        cases kind with
        | insert d => simp [hch, hCommit] at hValid
        | update before after => simpa [hch, hCommit, hTxn'] using hValid
        | delete before => simpa [hch, hCommit, hTxn'] using hValid
      have hCan := hGuards txn ht k id intent hLook
      rw [← hGuard] at hCan
      rcases hCan with hOwn | hStart
      · have := (hwf.activeId txn ht).1
        rw [Timestamp.isCommitTs_iff] at hCommit
        omega
      · omega

/-! ## The other steps -/

theorem Safe.opSteps {v : Nat} (hwf : WF g) (ht : txn ∈ g.txnManager.activeTxns)
    (hv : v < g.counters.1) (h : Safe g v k id) (hs : OpSteps txn g g') : Safe g' v k id := by
  induction hs with
  | refl => exact h
  | tail hs hStep ih =>
    obtain ⟨hwf', hMgr⟩ := hwf.opSteps ht hs
    rw [← (counters_opSteps hs)] at hv
    exact ih.opStep hwf' (by rw [hMgr]; exact ht) hv hStep

theorem Safe.commitPess {v ts : Nat} (hwf : WF g) (ht : txn ∈ g.txnManager.activeTxns)
    (hTs : txn.startTs ≤ ts) (h : Safe g v k id) (hs : CommitPessSpec g g' txn ts) :
    Safe g' v k id := by
  by_cases hNil : g.entriesFor txn.txnId k id = []
  · exact h.ends hs.toEnds (by rw [hs.chain, if_pos hNil])
  · have hStart := h.le_start_of_wrote_pess hwf ht hNil
    obtain ⟨c, hc, -⟩ := hwf.head_of_entriesFor ht hNil
    have hNew : g'.chain k id = some (c.stamp ts) := by
      rw [hs.chain, if_neg hNil, hc]
      rfl
    exact safe_of_stamped hwf hs.toEnds hs.tsLt hNew rfl (by omega)

theorem Safe.commitOpt [DecidableEq V] {v ts : Nat} (hwf : WF g)
    (ht : txn ∈ g.txnManager.activeTxns) (hGuards : GuardsOk g) (hTs : txn.startTs ≤ ts)
    (h : Safe g v k id) (hs : CommitOptSpec g g' txn ts) : Safe g' v k id := by
  have hNew := hs.chain k id
  cases hLook : (g.txns txn.txnId).lookupWrite k id with
  | none =>
    rw [hLook] at hNew
    exact h.ends hs.toEnds hNew
  | some intent =>
    rw [hLook] at hNew
    have hMem := (lookup_eq_some_iff (hwf.writesNodup txn ht k)).mp hLook
    have hStart := h.le_start_of_valid hwf ht hGuards hLook (hs.valid k id intent hMem)
    exact safe_of_stamped hwf hs.toEnds hs.tsLt hNew rfl (by omega)

theorem Safe.garbageCollect {v : Nat} (h : Safe g v k id) (hGc : Fcw g .garbageCollect) :
    Safe g.garbageCollect v k id := by
  rcases h with hOld | ⟨ch, hch, hle, hHold⟩
  · exact .inl hOld
  · by_cases hRem : g.gcRemoves k id = true
    · have hHead := hGc.1 k id ch hRem hch
      refine .inl ⟨Nat.le_trans hle hHead, fun t ht => ?_⟩
      have := hGc.2 t ht
      omega
    · refine .inr ⟨ch, by rw [chain_garbageCollect, if_neg hRem, hch], hle, fun t ht hHead => ?_⟩
      obtain ⟨hStart, hEntries⟩ := hHold t ht hHead
      refine ⟨hStart, fun e he => hEntries e ?_⟩
      rw [← entriesFor_of_undoBuffer (h := g.garbageCollect) (by rw [txns_garbageCollect])]
      exact he

theorem Safe.release {v t : Nat} (h : Safe g v k id) (hHeld : g.isHeld t = false) :
    Safe (g.release t) v k id := by
  rcases h with hOld | ⟨ch, hch, hle, hHold⟩
  · exact .inl hOld
  · refine .inr ⟨ch, by simpa [MemoryGraph.release] using hch, hle, fun t' ht' hHead => ?_⟩
    obtain ⟨hStart, hEntries⟩ := hHold t' ht' hHead
    refine ⟨hStart, fun e he => hEntries e ?_⟩
    have hne := ne_of_isHeld hHeld ht'
    rw [← entriesFor_of_undoBuffer (congrArg _ (txns_modifyTxn_of_ne g _ hne))]
    exact he

theorem Safe.begun {v : Nat} (hwf : WF g) (h : Safe g v k id)
    {idGen : TransactionIdGenerator} {tsGen : GlobalTimestampGenerator}
    (hNew : txn.txnId = g.counters.2)
    (hStart : v ≤ g.txnManager.watermark → v ≤ txn.startTs) :
    Safe (g.begun txn idGen tsGen) v k id := by
  rcases h with ⟨hWm, hOld⟩ | ⟨ch, hch, hle, hHold⟩
  · refine .inl ⟨Nat.le_trans hWm (Nat.le_max_right ..), fun t ht => ?_⟩
    rcases mem_active_begun ht with rfl | ht
    · exact hStart hWm
    · exact hOld t ht
  · refine .inr ⟨ch, by cases k <;> exact hch, hle, fun t ht hHead => ?_⟩
    rcases mem_active_begun ht with rfl | ht
    · exact absurd (hHead.trans hNew) (hwf.stamp_ne_fresh (hwf.stamp k id ch hch))
    · obtain ⟨hs, hEntries⟩ := hHold t ht hHead
      refine ⟨hs, fun e he => hEntries e ?_⟩
      have hne : t.txnId ≠ txn.txnId := by
        have := (hwf.activeId t ht).2
        omega
      have hSame : (g.begun txn idGen tsGen).txns t.txnId = g.txns t.txnId :=
        Function.update_of_ne hne ..
      rw [← entriesFor_of_undoBuffer (congrArg _ hSame)]
      exact he

/-- **One step keeps a committed version safe.** -/
theorem Safe.step [DecidableEq V] {v : Nat} {a : Action V} (hwf : WF g) (hGuards : GuardsOk g)
    (hv : v < g.counters.1) (hFcw : Fcw g a) (h : Safe g v k id) (hs : Step g a g') :
    Safe g' v k id := by
  have hLe : ∀ {txn : MemTransaction} {ts? : Option Nat} {ts : Nat},
      txn ∈ g.txnManager.activeTxns → Fcw g (.commit txn ts?) → (ts? = none → ts = g.counters.1) →
      (∀ t, ts? = some t → ts = t) → txn.startTs ≤ ts := by
    intro txn ts? ts ht hFcw hDrawn hGiven
    cases ts? with
    | none =>
      rw [hDrawn rfl]
      exact Nat.le_of_lt (hwf.activeStart txn ht)
    | some t =>
      rw [hGiven t rfl]
      exact hFcw
  cases step_cases hwf hs with
  | idle _ hg => exact hg ▸ h
  | skipId hId hg =>
    rw [hg]
    exact h.congr rfl (by cases k <;> rfl) fun _ => rfl
  | @begun startTs txn _ _ hNew hId hStart hMono hMax hDrawn hGiven hg =>
    rw [hg]
    refine Safe.congr (h.begun hwf hNew fun hWm => ?_) rfl (by simp) fun _ => rfl
    cases startTs with
    | none =>
      rw [hDrawn rfl]
      exact Nat.le_of_lt hv
    | some s =>
      rw [hGiven s rfl]
      exact Nat.le_trans hWm hFcw
  | op ht hSteps => exact h.opSteps hwf ht hv hSteps
  | query ht hSteps => exact h.opSteps hwf ht hv hSteps
  | rollback ht hAbort => exact h.abort hwf ht hAbort
  | abort ht hAbort => exact h.abort hwf ht hAbort
  | commitPess ht _ hDrawn hGiven _ hCommit =>
    exact h.commitPess hwf ht (hLe ht hFcw hDrawn hGiven) hCommit
  | commitOpt ht _ hDrawn hGiven _ hCommit =>
    exact h.commitOpt hwf ht hGuards (hLe ht hFcw hDrawn hGiven) hCommit
  | garbageCollect hg => exact hg ▸ h.garbageCollect hFcw
  | release hHeld hg => exact hg ▸ h.release hHeld

/-! ## Runs -/

section Runs

variable [DecidableEq V]

/-- The committed writers of each entity followed one another. -/
def Ordered (a b : CommitEvent V) : Prop :=
  ∀ k id, a.graph.Wrote a.txn k id → b.graph.Wrote b.txn k id → a.commitTs ≤ b.txn.startTs

/-- What a run keeps about its commits so far. -/
structure FcwInv (trace : List (MemoryGraph V × Action V)) (g : MemoryGraph V) : Prop where
  wf : WF g
  guards : GuardsOk g
  past : ∀ e ∈ commits trace, e.commitTs < g.counters.1
  safe : ∀ e ∈ commits trace, ∀ k id, e.graph.Wrote e.txn k id → Safe g e.commitTs k id
  ordered : (commits trace).Pairwise Ordered

/-- A commit that succeeds started after every committed writer of what it wrote. -/
theorem le_start_of_commit {v ts : Nat} {ts? : Option Nat} (hwf : WF g) (hGuards : GuardsOk g)
    (h : Safe g v k id) (hs : Step g (.commit txn ts?) g')
    (hOk : (g.commitAt txn ts? false).2 = .ok ts) (hWrote : g.Wrote txn k id) :
    v ≤ txn.startTs := by
  have hOpt : ∀ (ht : txn ∈ g.txnManager.activeTxns), txn.lockStrategy = .pessimistic →
      ((g.txns txn.txnId).lookupWrite k id).isSome = true → False := by
    intro ht hPess hSome
    unfold TxnState.lookupWrite at hSome
    rw [hwf.pessWrites txn ht hPess k] at hSome
    cases hSome
  cases step_cases hwf hs with
  | idle hNot _ => exact absurd hOk (hNot txn ts? rfl ts)
  | rollback _ _ hErr => exact absurd hOk (hErr ts)
  | commitPess ht _ _ _ _ hCommit =>
    rcases hWrote with hUndo | hIntent
    · exact h.le_start_of_wrote_pess hwf ht hUndo
    · exact absurd hIntent (hOpt ht hCommit.pess)
  | commitOpt ht _ _ _ _ hCommit =>
    rcases hWrote with hUndo | hIntent
    · exact h.le_start_of_wrote_pess hwf ht hUndo
    · obtain ⟨intent, hLook⟩ := Option.isSome_iff_exists.mp hIntent
      have hMem := (lookup_eq_some_iff (hwf.writesNodup txn ht k)).mp hLook
      exact h.le_start_of_valid hwf ht hGuards hLook (hCommit.valid k id intent hMem)

/-- What a commit leaves behind is safe from everyone who started before it. -/
theorem safe_of_commit {ts : Nat} {ts? : Option Nat} (hwf : WF g)
    (hs : Step g (.commit txn ts?) g') (hOk : (g.commitAt txn ts? false).2 = .ok ts)
    (hWrote : g.Wrote txn k id) : Safe g' ts k id := by
  have hTs : ∀ {ts'}, (g.commitAt txn ts? false).2 = .ok ts' → ts' = ts := by
    intro ts' hOk'
    exact Except.ok.inj (hOk'.symm.trans hOk)
  cases step_cases hwf hs with
  | idle hNot _ => exact absurd hOk (hNot txn ts? rfl ts)
  | rollback _ _ hErr => exact absurd hOk (hErr ts)
  | commitPess ht hOk' _ _ _ hCommit =>
    obtain rfl := hTs hOk'
    rcases hWrote with hUndo | hIntent
    · obtain ⟨c, hc, -⟩ := hwf.head_of_entriesFor ht hUndo
      have hNew := hCommit.chain k id
      rw [if_neg hUndo, hc] at hNew
      exact safe_of_stamped hwf hCommit.toEnds hCommit.tsLt hNew rfl (Nat.le_refl _)
    · unfold TxnState.lookupWrite at hIntent
      rw [hwf.pessWrites txn ht hCommit.pess k] at hIntent
      cases hIntent
  | commitOpt ht hOk' _ _ _ hCommit =>
    obtain rfl := hTs hOk'
    rcases hWrote with hUndo | hIntent
    · simp [entriesFor, hwf.optUndo txn ht hCommit.opt] at hUndo
    · obtain ⟨intent, hLook⟩ := Option.isSome_iff_exists.mp hIntent
      have hNew := hCommit.chain k id
      rw [hLook] at hNew
      exact safe_of_stamped hwf hCommit.toEnds hCommit.tsLt hNew rfl (Nat.le_refl _)

/-- One step under the condition keeps the invariant. -/
theorem FcwInv.step {trace : List (MemoryGraph V × Action V)} {a : Action V} (h : FcwInv trace g)
    (hFcw : Fcw g a) (hs : Step g a g') : FcwInv (trace ++ [(g, a)]) g' := by
  have hwf' := wf_step h.wf (gcOk_of_fcw hFcw) hs
  have hMono := counters_mono h.wf hs
  have hOldPast : ∀ e ∈ commits trace, e.commitTs < g'.counters.1 := fun e he =>
    Nat.lt_of_lt_of_le (h.past e he) hMono.1
  have hOldSafe : ∀ e ∈ commits trace, ∀ k id, e.graph.Wrote e.txn k id →
      Safe g' e.commitTs k id := fun e he k id hWrote =>
    (h.safe e he k id hWrote).step h.wf h.guards (h.past e he) hFcw hs
  rcases commitEvent_cases g a with hNone | ⟨txn, ts?, ts, rfl, hOk, hEvent⟩
  · refine ⟨hwf', h.guards.step h.wf hs, ?_, ?_, ?_⟩
    all_goals rw [commits_snoc, hNone, Option.toList_none, List.append_nil]
    · exact hOldPast
    · exact hOldSafe
    · exact h.ordered
  · -- a commit: it joins the history, ordered after every earlier writer
    refine ⟨hwf', h.guards.step h.wf hs, ?_, ?_, ?_⟩
    all_goals rw [commits_snoc, hEvent, Option.toList_some]
    · intro e he
      rcases List.mem_append.mp he with he | he
      · exact hOldPast e he
      · rw [List.mem_singleton.mp he]
        exact commitTs_lt h.wf hs hOk
    · intro e he k id hWrote
      rcases List.mem_append.mp he with he | he
      · exact hOldSafe e he k id hWrote
      · rw [List.mem_singleton.mp he] at hWrote ⊢
        exact safe_of_commit h.wf hs hOk hWrote
    · refine List.pairwise_append.mpr ⟨h.ordered, List.pairwise_singleton .., ?_⟩
      intro e he b hb k id hWrote hWrote'
      rw [List.mem_singleton.mp hb] at hWrote' ⊢
      exact le_start_of_commit h.wf h.guards (h.safe e he k id hWrote) hs hOk hWrote'

theorem fcwInv_run {trace : List (MemoryGraph V × Action V)} {g₀ : MemoryGraph V}
    (hInit : Initial g₀) (hRun : Run Step Fcw g₀ trace g) : FcwInv trace g := by
  obtain ⟨lock, iso, rfl⟩ := hInit
  refine hRun.invariant ⟨wf_new lock iso, ?_, ?_, ?_, ?_⟩ fun trace s a s' _ hInv hFcw hs =>
    hInv.step hFcw hs
  · intro t ht
    cases ht
  · intro e he
    cases he
  · intro e he
    cases he
  · exact List.Pairwise.nil

/-- Any two commits of a trace that wrote one entity were apart: one of them started no
earlier than the other committed. -/
def FirstCommitterWins (trace : List (MemoryGraph V × Action V)) : Prop :=
  (commits trace).Pairwise fun a b => ∀ k id, a.graph.Wrote a.txn k id → b.graph.Wrote b.txn k id →
    a.commitTs ≤ b.txn.startTs ∨ b.commitTs ≤ a.txn.startTs

/-- **First committer wins**, in every run in which collections keep to committed
entities. -/
theorem first_committer_wins {trace : List (MemoryGraph V × Action V)} {g₀ : MemoryGraph V}
    (hInit : Initial g₀) (hRun : Run Step Fcw g₀ trace g) : FirstCommitterWins trace := by
  refine (fcwInv_run hInit hRun).ordered.imp fun hOrd k id hA hB => ?_
  exact .inl (hOrd k id hA hB)

end Runs

/-! ## Two runs -/

section Traces

/-- What a commit did to one entity: its commit timestamp, its start and whether it wrote
the entity. -/
def writer [DecidableEq V] (k : Kind) (id : Nat) (e : CommitEvent V) : Nat × Nat × Bool :=
  (e.commitTs, e.txn.startTs, decide (e.graph.Wrote e.txn k id))

/-- The property of two commits that `FirstCommitterWins` asks for, at one entity. -/
def Apart (a b : Nat × Nat × Bool) : Prop :=
  a.2.2 = true → b.2.2 = true → a.1 ≤ b.2.1 ∨ b.1 ≤ a.2.1

instance (a b : Nat × Nat × Bool) : Decidable (Apart a b) :=
  inferInstanceAs (Decidable (_ → _ → _ ∨ _))

theorem FirstCommitterWins.apart [DecidableEq V] {trace : List (MemoryGraph V × Action V)}
    (h : FirstCommitterWins trace) (k : Kind) (id : Nat) :
    ((commits trace).map (writer k id)).Pairwise Apart := by
  refine List.pairwise_map.mpr (h.imp fun hAB hA hB => ?_)
  exact hAB k id (of_decide_eq_true hA) (of_decide_eq_true hB)

/-- Edge 1 is created (commit 2) and deleted (commit 4). Transaction 3 deletes it once
more, a collection removes it under the transaction's lock, transaction 4 creates it
again, and both commit. -/
def lostUpdateActions : List (Action Nat) :=
  let t₁ := snapshotTxn 1 1 .pessimistic
  let t₂ := snapshotTxn 2 3 .pessimistic
  let t₃ := snapshotTxn 3 5 .pessimistic
  let t₄ := snapshotTxn 4 6 .pessimistic
  [.begin none .snapshot .pessimistic, .op t₁ (.createVertex (.new 1 0 [])),
    .op t₁ (.createVertex (.new 2 0 [])), .op t₁ (.createEdge (.new 1 1 2 0 [7])),
    .commit t₁ none, .begin none .snapshot .pessimistic, .op t₂ (.deleteEdge 1), .commit t₂ none,
    .begin none .snapshot .pessimistic, .begin none .snapshot .pessimistic,
    .op t₃ (.deleteEdge 1), .garbageCollect, .op t₄ (.createEdge (.new 1 1 2 0 [8])),
    .commit t₃ none, .commit t₄ none]

/-- **A collection under a running transaction loses its update**: transactions 3 (start
5, commit 7) and 4 (start 6, commit 8) both write edge 1. -/
theorem lost_update_trace : ∃ trace g, Initial (V := Nat) (.new none .pessimistic .snapshot) ∧
    Run Step (fun _ _ => True) (.new none .pessimistic .snapshot : MemoryGraph Nat) trace g ∧
    ¬ FirstCommitterWins trace := by
  obtain ⟨trace, g, hList, hWriters⟩ := exists_of_runList
    (show (runList (next fun _ _ => true)
      (.new none .pessimistic .snapshot : MemoryGraph Nat) lostUpdateActions).map (fun r =>
      (commits r.1).map (writer .edge 1)) =
      some [(2, 1, true), (4, 3, true), (7, 5, true), (8, 6, true)] by decide +kernel)
  refine ⟨trace, g, ⟨_, _, rfl⟩, Run.of_runList (fun s a s' hNext => ?_) hList, fun hWins => ?_⟩
  · exact ⟨trivial, (step_of_next hNext).2⟩
  · have hApart := hWins.apart .edge 1
    rw [hWriters] at hApart
    revert hApart
    decide

/-- Vertex 1 is created by a pessimistic transaction, then set by an optimistic one. -/
def handOverActions : List (Action Nat) :=
  let t₁ := snapshotTxn 1 1 .pessimistic
  let t₂ := snapshotTxn 2 3 .optimistic
  [.begin none .snapshot .pessimistic, .op t₁ (.createVertex (.new 1 0 [7])), .commit t₁ none,
    .begin none .snapshot .optimistic, .op t₂ (.setVertexProperty 1 [0] [8]), .commit t₂ none]

/-- Two transactions write the same vertex one after the other. -/
theorem first_committer_wins_handOver : ∃ trace g,
    Run Step Fcw (.new none .pessimistic .snapshot : MemoryGraph Nat) trace g ∧
    (commits trace).map (writer .vertex 1) = [(2, 1, true), (4, 3, true)] ∧
    FirstCommitterWins trace := by
  obtain ⟨trace, g, hList, hWriters⟩ := exists_of_runList
    (show (runList (next fun _ a => a.isPlain)
      (.new none .pessimistic .snapshot : MemoryGraph Nat) handOverActions).map (fun r =>
      (commits r.1).map (writer .vertex 1)) = some [(2, 1, true), (4, 3, true)] by decide +kernel)
  have hRun : Run Step Fcw (.new none .pessimistic .snapshot : MemoryGraph Nat) trace g := by
    refine Run.of_runList (fun s a s' hNext => ?_) hList
    obtain ⟨hPlain, hStep⟩ := step_of_next hNext
    exact ⟨fcw_of_isPlain hPlain, hStep⟩
  exact ⟨trace, g, hRun, hWriters, first_committer_wins ⟨_, _, rfl⟩ hRun⟩

end Traces

end MiniGU.MemoryGraph
