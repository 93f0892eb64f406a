import MiniGU.Invariant.TxnStep

/-!
# Every reachable graph is well formed

`wf_step`: every step of the machine keeps `WF`, provided a collection removes only
what was committed at or below the watermark (`CollectsCommitted`). Along the way the
effect of each kind of step on the chains is put in one place for later invariants
(`commitPess_spec`, `commitOpt_spec`, `abort_spec`).
-/

namespace MiniGU

variable {V : Type}

namespace MemoryGraph

variable {g g' : MemoryGraph V} {txn : MemTransaction} {k : Kind} {id : Nat}
  {c : VersionChain (Data V k) (DeltaOp V)}

/-- A chain that no active transaction has a hold on. -/
structure Settled (g : MemoryGraph V) (k : Kind) (id : Nat)
    (c : VersionChain (Data V k) (DeltaOp V)) : Prop where
  key : c.current.data.id = id
  stamp : g.Stamp c.current.commitTs
  record : ∀ r ∈ c.undoPtr,
    g.Stamp r.timestamp ∧ r.owner < g.counters.2 ∧ r.delta.target = some (k, id)
  head : ∀ t ∈ g.txnManager.activeTxns, c.current.commitTs ≠ t.txnId
  owner : ∀ t ∈ g.txnManager.activeTxns, ∀ r ∈ c.undoPtr, r.owner ≠ t.txnId

/-- What a step other than an operation or a begin keeps: the transactions still active
are as they were, and a chain is as it was or out of their hands. -/
structure Evolves (g g' : MemoryGraph V) : Prop where
  threshold : g'.txnManager.gcThreshold = g.txnManager.gcThreshold
  tsBound : g'.counters.1 ≤ Timestamp.maxCommitTs
  tsMono : g.counters.1 ≤ g'.counters.1
  idEq : g'.counters.2 = g.counters.2
  watermark : g'.txnManager.watermark < g'.counters.1
  latest : g'.txnManager.latestCommitTs < g'.counters.1
  active : ∀ t ∈ g'.txnManager.activeTxns, t ∈ g.txnManager.activeTxns
  txns : ∀ t ∈ g'.txnManager.activeTxns, g'.txns t.txnId = g.txns t.txnId
  fresh : ∀ id, g.counters.2 ≤ id → g'.txns id = g.txns id
  chain : ∀ k id, g'.chain k id = g.chain k id ∨
    (∀ t ∈ g'.txnManager.activeTxns, g.entriesFor t.txnId k id = []) ∧
    ∀ c, g'.chain k id = some c → Settled g' k id c

/-- A step other than an operation or a begin keeps the graph well formed. -/
theorem WF.evolves (h : WF g) (he : Evolves g g') : WF g' := by
  have hStamp : ∀ {ts}, g.Stamp ts → g'.Stamp ts := fun hs =>
    hs.mono he.tsMono (Nat.le_of_eq he.idEq.symm)
  have hEntries : ∀ t ∈ g'.txnManager.activeTxns, ∀ k id,
      g'.entriesFor t.txnId k id = g.entriesFor t.txnId k id := by
    intro t ht k id
    unfold entriesFor
    rw [he.txns t ht]
  refine ⟨he.threshold.trans h.threshold, he.tsBound, by rw [he.idEq]; exact h.idBound,
    he.watermark, he.latest, ?_, ?_, ?_, ?_, ?_, ?_, ?_, ?_, ?_, ?_, ?_, ?_, ?_, ?_⟩
  · intro t ht
    rw [he.idEq]
    exact h.activeId t (he.active t ht)
  · exact fun t ht => Nat.lt_of_lt_of_le (h.activeStart t (he.active t ht)) he.tsMono
  · exact fun t ht t' ht' => h.activeInj t (he.active t ht) t' (he.active t' ht')
  · intro i hi
    rw [he.idEq] at hi
    rw [he.fresh i hi]
    exact h.fresh i hi
  · intro k id c hc
    rcases he.chain k id with heq | ⟨-, hSettled⟩
    · exact h.key k id c (heq ▸ hc)
    · exact (hSettled c hc).key
  · intro k id c hc
    rcases he.chain k id with heq | ⟨-, hSettled⟩
    · exact hStamp (h.stamp k id c (heq ▸ hc))
    · exact (hSettled c hc).stamp
  · intro k id c hc r hr
    rcases he.chain k id with heq | ⟨-, hSettled⟩
    · obtain ⟨hTs, hOwner, hTarget⟩ := h.record k id c (heq ▸ hc) r hr
      exact ⟨hStamp hTs, by rw [he.idEq]; exact hOwner, hTarget⟩
    · exact (hSettled c hc).record r hr
  · intro k id c hc r hr t ht hOwner
    rcases he.chain k id with heq | ⟨-, hSettled⟩
    · exact h.recordOwner k id c (heq ▸ hc) r hr t (he.active t ht) hOwner
    · exact absurd hOwner ((hSettled c hc).owner t ht r hr)
  · intro t ht k id
    rcases he.chain k id with heq | ⟨hNil, hSettled⟩
    · exact (h.owned t (he.active t ht) k id).congr heq (hEntries t ht k id)
    · exact .inl ⟨by rw [hEntries t ht k id]; exact hNil t ht,
        fun c hc => (hSettled c hc).head t ht⟩
  · intro t ht
    rw [he.txns t ht]
    exact h.notCommitted t (he.active t ht)
  · intro t ht
    rw [he.txns t ht]
    exact h.optUndo t (he.active t ht)
  · intro t ht
    rw [he.txns t ht]
    exact h.pessWrites t (he.active t ht)
  · intro t ht
    rw [he.txns t ht]
    exact h.writesNodup t (he.active t ht)
  · intro t ht
    rw [he.txns t ht]
    exact h.intentKey t (he.active t ht)

/-! ## The end of a transaction -/

/-- What the two outcomes of ending `txn` have in common. -/
structure Ends (g g' : MemoryGraph V) (txn : MemTransaction) : Prop where
  active : g'.txnManager.activeTxns =
    g.txnManager.activeTxns.filter fun t => t.txnId != txn.txnId
  threshold : g'.txnManager.gcThreshold = g.txnManager.gcThreshold
  tsBound : g'.counters.1 ≤ Timestamp.maxCommitTs
  tsMono : g.counters.1 ≤ g'.counters.1
  idEq : g'.counters.2 = g.counters.2
  watermarkMono : g.txnManager.watermark ≤ g'.txnManager.watermark
  watermarkHead : ∀ t, g'.txnManager.activeTxns.head? = some t →
    g'.txnManager.watermark = max t.startTs g.txnManager.watermark
  watermark : g'.txnManager.watermark < g'.counters.1
  latest : g'.txnManager.latestCommitTs < g'.counters.1
  committed : g'.txnManager.committedTxns =
    enterCommitted txn (g'.txns txn.txnId).commitTs g.txnManager.committedTxns
  others : ∀ t, t ≠ txn.txnId → g'.txns t = g.txns t

theorem Ends.mem_active (he : Ends g g' txn) {t : MemTransaction} :
    t ∈ g'.txnManager.activeTxns ↔ t ∈ g.txnManager.activeTxns ∧ t.txnId ≠ txn.txnId := by
  rw [he.active, List.mem_filter]
  simp

/-- Ending a transaction keeps `WF`, if each chain it changes was in no other hands. -/
theorem WF.ends (h : WF g) (ht : txn ∈ g.txnManager.activeTxns) (he : Ends g g' txn)
    (hChain : ∀ k id, g'.chain k id = g.chain k id ∨
      (∀ t ∈ g'.txnManager.activeTxns, g.entriesFor t.txnId k id = []) ∧
      ∀ c, g'.chain k id = some c → Settled g' k id c) : WF g' := by
  refine h.evolves ⟨he.threshold, he.tsBound, he.tsMono, he.idEq, he.watermark, he.latest, ?_, ?_,
    ?_, hChain⟩
  · exact fun t ht' => (he.mem_active.mp ht').1
  · exact fun t ht' => he.others _ (he.mem_active.mp ht').2
  · intro i hi
    have hlt := (h.activeId txn ht).2
    exact he.others i (by omega)

/-- The watermark stays below the counter when a transaction leaves. -/
theorem Leaves.ends {g₁ : MemoryGraph V} (h : WF g) (hl : Leaves g₁ g' txn)
    (hMgr : g₁.txnManager = g.txnManager) (hTs : g.counters.1 ≤ g₁.counters.1)
    (hMax : g₁.counters.1 ≤ Timestamp.maxCommitTs) (hId : g₁.counters.2 = g.counters.2)
    (hOthers : ∀ t, t ≠ txn.txnId → g₁.txns t = g.txns t)
    (hLatest : g'.txnManager.latestCommitTs < g₁.counters.1) : Ends g g' txn := by
  refine ⟨by rw [hl.active, hMgr], by rw [hl.threshold, hMgr], by rw [hl.counters]; exact hMax,
    by rw [hl.counters]; exact hTs, by rw [hl.counters]; exact hId, ?_, ?_, ?_,
    by rw [hl.counters]; exact hLatest, by rw [hl.committed, hl.commitTs, hMgr],
    fun t ht => (hl.others t ht).trans (hOthers t ht)⟩
  · rw [hl.watermark, hMgr]
    exact Nat.le_max_right ..
  · intro t ht
    rw [hl.active, hMgr] at ht
    rw [hl.watermark, hMgr, ht]
    rfl
  · rw [hl.watermark, hMgr, hl.counters]
    have hOld := h.watermark
    cases hHead : (g.txnManager.activeTxns.filter fun t => t.txnId != txn.txnId).head? with
    | none =>
      simp only [Option.map_none, Option.getD_none]
      omega
    | some t =>
      have hMem := List.mem_of_mem_head? hHead
      have := h.activeStart t (List.mem_filter.mp hMem).1
      simp only [Option.map_some, Option.getD_some]
      omega

/-! ### Abort -/

/-- **The effect of a rollback.** -/
structure AbortSpec (g g' : MemoryGraph V) (txn : MemTransaction) : Prop extends
    Ends g g' txn where
  adjacency : g'.adjacencyList = g.adjacencyList
  undoBuffer : (g'.txns txn.txnId).undoBuffer = []
  commitTs : (g'.txns txn.txnId).commitTs = (g.txns txn.txnId).commitTs
  chain : ∀ k id, g'.chain k id = (g.chain k id).map fun c =>
    (g.entriesFor txn.txnId k id).foldl (restoreEntry DeltaOp.restore txn.txnId) c

theorem abort_spec (h : WF g) (gen : GlobalTimestampGenerator)
    (hTs : g.counters.1 ≤ gen.counter) (hMax : gen.counter ≤ Timestamp.maxCommitTs) :
    AbortSpec g (((g.withTs gen).undoAll txn).abortEnd txn) txn := by
  obtain ⟨hl, hLatest⟩ := leaves_abortEnd ((g.withTs gen).undoAll txn) txn
  have hSame := sameButStore_undoAll (g.withTs gen) txn
  have hAdj := (sameButStore_foldl_abortEntry (g := (g.withTs gen).modifyTxn txn.txnId fun s => { s with undoBuffer := [] })
    txn (g.txns txn.txnId).undoBuffer).2
  have hCounters : ((g.withTs gen).undoAll txn).counters = (gen.counter, g.counters.2) :=
    hSame.counters
  have hEnds : Ends g (((g.withTs gen).undoAll txn).abortEnd txn) txn := by
    refine hl.ends h txnManager_undoAll (by rw [hCounters]; exact hTs)
      (by rw [hCounters]; exact hMax) (by rw [hCounters]) ?_ ?_
    · intro t ht
      rw [hSame.txns, txns_modifyTxn_of_ne _ _ ht]
      rfl
    · rw [hLatest, txnManager_undoAll, hCounters]
      exact Nat.lt_of_lt_of_le h.latest hTs
  refine ⟨hEnds, hl.adjacency.trans hAdj, ?_, ?_, ?_⟩
  · rw [hl.undoBuffer, hSame.txns, txns_modifyTxn_self]
  · rw [hl.commitTs, hSame.txns, txns_modifyTxn_self]
    rfl
  · intro k id
    rw [hl.chain, chain_undoAll, chain_withTs']
    rfl

/-- An abort takes the transaction's versions off the chains and leaves the others well formed. -/
theorem WF.abort (h : WF g) (ht : txn ∈ g.txnManager.activeTxns) (ha : AbortSpec g g' txn) :
    WF g' := by
  refine h.ends ht ha.toEnds fun k id => ?_
  cases hc : g.chain k id with
  | none =>
    left
    rw [ha.chain, hc]
    rfl
  | some c =>
    have hNew : g'.chain k id = some ((g.entriesFor txn.txnId k id).foldl
        (restoreEntry DeltaOp.restore txn.txnId) c) := by
      rw [ha.chain, hc]
      rfl
    rcases foldl_restoreEntry_cases DeltaOp.restore txn.txnId c
      (g.entriesFor txn.txnId k id) with heq | ⟨hOwn, e, he, hTs, hNext⟩
    · left
      rw [hNew, heq]
    · right
      -- the head is the transaction's own, so nobody else has written to this chain
      have hOthers : ∀ t ∈ g'.txnManager.activeTxns, g.entriesFor t.txnId k id = [] := by
        intro t ht'
        obtain ⟨htOld, hne⟩ := ha.mem_active.mp ht'
        refine h.entriesFor_eq_nil htOld fun c' hc' => ?_
        obtain rfl := Option.some.inj (hc.symm.trans hc')
        exact fun heq => hne (heq.symm.trans hOwn)
      refine ⟨hOthers, fun c' hc' => ?_⟩
      obtain rfl := Option.some.inj (hNew.symm.trans hc')
      obtain ⟨base, hOver, -, hCan⟩ := h.writtenBy ht hc hOwn
      obtain ⟨hSelf, hTail⟩ := hOver.mem_undoPtr he
      have hStamp : ∀ {ts}, g.Stamp ts → g'.Stamp ts := fun hs =>
        hs.mono ha.tsMono (Nat.le_of_eq ha.idEq.symm)
      refine ⟨?_, ?_, ?_, ?_, ?_⟩
      · -- each entry is about this entity, so restoring keeps the id
        have hIds : ∀ (es : List (UndoEntry (DeltaOp V))) (c : VersionChain (Data V k) (DeltaOp V)),
            (∀ e ∈ es, e.delta.target = some (k, id)) → c.current.data.id = id →
            (es.foldl (restoreEntry DeltaOp.restore txn.txnId) c).current.data.id = id := by
          intro es
          induction es with
          | nil => exact fun _ _ hId => hId
          | cons e es ih =>
            intro c hes hId
            refine ih _ (fun e' he' => hes e' (List.mem_cons_of_mem _ he')) ?_
            unfold restoreEntry
            split
            · exact DeltaOp.id_restore (hes e (List.mem_cons_self ..)) hId
            · exact hId
        refine hIds _ c (fun e he => ?_) (h.key k id c hc)
        simpa using (List.mem_filter.mp he).2
      · rw [hTs]
        exact hStamp (h.record k id c hc _ hSelf).1
      · rw [hNext]
        intro r hr
        obtain ⟨hr₁, hr₂, hr₃⟩ := h.record k id c hc r (hTail r hr)
        exact ⟨hStamp hr₁, by rw [ha.idEq]; exact hr₂, hr₃⟩
      · intro t ht'
        obtain ⟨htOld, hne⟩ := ha.mem_active.mp ht'
        rw [hTs]
        exact h.canWrite_other ht htOld (fun heq => hne (by rw [heq])) (hCan e he)
      · rw [hNext]
        intro t ht' r hr hOwner
        obtain ⟨htOld, hne⟩ := ha.mem_active.mp ht'
        have := h.recordOwner k id c hc r (hTail r hr) t htOld hOwner
        exact hne (this.symm.trans hOwn)

/-! ### Commit -/

/-- **The effect of a pessimistic commit**: the entities written are stamped. -/
structure CommitPessSpec (g g' : MemoryGraph V) (txn : MemTransaction) (ts : Nat) : Prop extends
    Ends g g' txn where
  pess : txn.lockStrategy = .pessimistic
  tsLt : ts < g'.counters.1
  adjacency : g'.adjacencyList = g.adjacencyList
  undoBuffer : (g'.txns txn.txnId).undoBuffer = (g.txns txn.txnId).undoBuffer
  commitTs : (g'.txns txn.txnId).commitTs = some ts
  chain : ∀ k id, g'.chain k id = if g.entriesFor txn.txnId k id = [] then g.chain k id
    else (g.chain k id).map (VersionChain.stamp ts)

theorem commitPess_spec (h : WF g) {ts : Nat} {gen : GlobalTimestampGenerator}
    (hTs : g.counters.1 ≤ gen.counter) (hMax : gen.counter ≤ Timestamp.maxCommitTs)
    (hLt : ts < gen.counter) (hc : CommitsPess g g' txn ts gen) : CommitPessSpec g g' txn ts := by
  obtain ⟨hPess, g₁, hPub, rfl⟩ := hc
  obtain ⟨hSame, hAdj, -, hChain⟩ := publishAll_ok hPub
  obtain ⟨hl, hLatest⟩ := leaves_commitEnd g₁ txn ts
  have hCounters : g₁.counters = (gen.counter, g.counters.2) := hSame.counters
  refine ⟨hl.ends h hSame.txnManager (by rw [hCounters]; exact hTs) (by rw [hCounters]; exact hMax)
    (by rw [hCounters]) (fun t ht => ?_) (by rw [hLatest, hCounters]; exact hLt), hPess,
    by rw [hl.counters, hCounters]; exact hLt, hl.adjacency.trans hAdj, ?_, ?_, fun k id => ?_⟩
  · rw [hSame.txns, markCommitted, txns_modifyTxn_of_ne _ _ ht]
    rfl
  · rw [hl.undoBuffer, hSame.txns, markCommitted, txns_modifyTxn_self]
    rfl
  · rw [hl.commitTs, hSame.txns, markCommitted, txns_modifyTxn_self]
  · have hMem : some (k, id) ∈ ((g.txns txn.txnId).undoBuffer.map UndoEntry.delta).map
        DeltaOp.target ↔ ¬ g.entriesFor txn.txnId k id = [] := by
      simp [entriesFor, List.filter_eq_nil_iff]
    rw [hl.chain, hChain, markCommitted, chain_modifyTxn, chain_withTs']
    by_cases hNil : g.entriesFor txn.txnId k id = []
    · rw [if_neg (fun hm => hMem.mp hm hNil), if_pos hNil]
    · rw [if_pos (hMem.mpr hNil), if_neg hNil]

/-- The stamp of a commit is nobody's id. -/
theorem WF.commitTs_ne_id (h : WF g) {ts n : Nat} (hTs : ts < n)
    (hMax : n ≤ Timestamp.maxCommitTs) {t : MemTransaction}
    (ht : t ∈ g.txnManager.activeTxns) : ts ≠ t.txnId := by
  have := (h.activeId t ht).1
  unfold Timestamp.maxCommitTs Timestamp.txnIdStart at *
  omega

theorem WF.commitPess (h : WF g) (ht : txn ∈ g.txnManager.activeTxns) {ts : Nat}
    (hs : CommitPessSpec g g' txn ts) : WF g' := by
  refine h.ends ht hs.toEnds fun k id => ?_
  by_cases hNil : g.entriesFor txn.txnId k id = []
  · left
    rw [hs.chain, if_pos hNil]
  · right
    obtain ⟨c, hc, hOwn⟩ := h.head_of_entriesFor ht hNil
    have hNew : g'.chain k id = some (c.stamp ts) := by
      rw [hs.chain, if_neg hNil, hc]
      rfl
    have hStamp : ∀ {ts}, g.Stamp ts → g'.Stamp ts := fun hs' =>
      hs'.mono hs.tsMono (Nat.le_of_eq hs.idEq.symm)
    refine ⟨fun t ht' => ?_, fun c' hc' => ?_⟩
    · obtain ⟨htOld, hne⟩ := hs.mem_active.mp ht'
      refine h.entriesFor_eq_nil htOld fun c' hc' => ?_
      obtain rfl := Option.some.inj (hc.symm.trans hc')
      exact fun heq => hne (heq.symm.trans hOwn)
    · obtain rfl := Option.some.inj (hNew.symm.trans hc')
      refine ⟨h.key k id c hc, .inl hs.tsLt, fun r hr => ?_, fun t ht' => ?_, fun t ht' r hr => ?_⟩
      · obtain ⟨h₁, h₂, h₃⟩ := h.record k id c hc r hr
        exact ⟨hStamp h₁, by rw [hs.idEq]; exact h₂, h₃⟩
      · exact h.commitTs_ne_id hs.tsLt hs.tsBound (hs.mem_active.mp ht').1
      · obtain ⟨htOld, hne⟩ := hs.mem_active.mp ht'
        intro hOwner
        exact hne ((h.recordOwner k id c hc r hr t htOld hOwner).symm.trans hOwn)

/-- **The effect of an optimistic commit**: the intents are applied and stamped. -/
structure CommitOptSpec [DecidableEq V] (g g' : MemoryGraph V) (txn : MemTransaction) (ts : Nat) :
    Prop extends Ends g g' txn where
  opt : txn.lockStrategy = .optimistic
  tsLt : ts < g'.counters.1
  valid : ∀ k id intent, (id, intent) ∈ (g.txns txn.txnId).writes k →
    g.validateIntent txn k id intent = .ok ()
  undoBuffer : (g'.txns txn.txnId).undoBuffer = (g.txns txn.txnId).undoBuffer ++
    (((g.txns txn.txnId).writes .vertex).map
      fun w => intentEntry .vertex w.1 (g.chain .vertex w.1) w.2) ++
    (((g.txns txn.txnId).writes .edge).map
      fun w => intentEntry .edge w.1 (g.chain .edge w.1) w.2)
  commitTs : (g'.txns txn.txnId).commitTs = some ts
  adjacency : g'.adjacencyList =
    (g.intentLinks (g.chain .edge) ((g.txns txn.txnId).writes .edge)).adjacencyList
  chain : ∀ k id, g'.chain k id = match (g.txns txn.txnId).lookupWrite k id with
    | some intent => some ((appliedChain txn k id (g.chain k id) intent).stamp ts)
    | none => g.chain k id

/-- An optimistic commit does what `CommitOptSpec` says. -/
theorem commitOpt_spec [DecidableEq V] (h : WF g) (ht : txn ∈ g.txnManager.activeTxns) {ts : Nat}
    {gen : GlobalTimestampGenerator} (hTs : g.counters.1 ≤ gen.counter)
    (hMax : gen.counter ≤ Timestamp.maxCommitTs) (hLt : ts < gen.counter)
    (hc : CommitsOpt g g' txn ts gen) : CommitOptSpec g g' txn ts := by
  obtain ⟨hOpt, hValid, g₁, g₂, h₁, h₂, rfl⟩ := hc
  obtain ⟨hApp₁, hKinds₁, hChain₁, hUndo₁⟩ := applyIntents_ok (h.writesNodup txn ht .vertex) h₁
  obtain ⟨hApp₂, hKinds₂, hChain₂, hUndo₂⟩ := applyIntents_ok (h.writesNodup txn ht .edge) h₂
  have hApp := hApp₁.trans hApp₂
  let vids := ((g.txns txn.txnId).writes .vertex).map Prod.fst
  let eids := ((g.txns txn.txnId).writes .edge).map Prod.fst
  obtain ⟨hSameV, hAdjV, hStampV⟩ := foldl_stampOwn (g := g₂) txn ts .vertex vids
  obtain ⟨hSameE, hAdjE, hStampE⟩ := foldl_stampOwn
    (g := vids.foldl (stampOwn txn ts .vertex) g₂) txn ts .edge eids
  have hSame : SameButStore g₂ (g₂.stampAll txn ts vids eids) := hSameV.trans hSameE
  obtain ⟨hl, hLatest⟩ := leaves_commitEnd
    ((g₂.stampAll txn ts vids eids).markCommitted txn ts) txn ts
  have hCounters : ((g₂.stampAll txn ts vids eids).markCommitted txn ts).counters =
      (gen.counter, g.counters.2) := hSame.counters.trans hApp.counters
  have hUndo : (g₂.txns txn.txnId).undoBuffer = _ :=
    hUndo₂.trans (congrArg (· ++ _) hUndo₁)
  have hEdges : ∀ id, g₁.chain .edge id = g.chain .edge id := fun id => by
    rw [hKinds₁ .edge id (by simp), chain_withTs']
  refine ⟨hl.ends h (hSame.txnManager.trans hApp.txnManager) (by rw [hCounters]; exact hTs)
    (by rw [hCounters]; exact hMax) (by rw [hCounters]) (fun t ht => ?_)
    (by rw [hLatest, hCounters]; exact hLt), hOpt, by rw [hl.counters, hCounters]; exact hLt,
    hValid, ?_, ?_, ?_, fun k id => ?_⟩
  · rw [markCommitted, txns_modifyTxn_of_ne _ _ ht, hSame.txns, hApp.others t ht]
    rfl
  · rw [hl.undoBuffer, markCommitted, txns_modifyTxn_self, hSame.txns]
    simp only [hUndo, chain_withTs', hEdges]
    rfl
  · rw [hl.commitTs, markCommitted, txns_modifyTxn_self]
  · -- the vertices come first and touch no list
    have hVertices : g₁.adjacencyList = g.adjacencyList := by
      rw [adjacencyList_applyIntents (h.writesNodup txn ht .vertex) h₁]
      exact adjacencyList_intentLinks_vertex _ _
    rw [hl.adjacency]
    refine (hAdjE.trans hAdjV).trans ?_
    rw [adjacencyList_applyIntents (h.writesNodup txn ht .edge) h₂]
    exact adjacencyList_intentLinks_congr hVertices fun w _ => hEdges w.1
  · -- both kinds: applied by its own loop, left alone by the other, then stamped
    rw [hl.chain, markCommitted, chain_modifyTxn]
    have hFinish : ∀ {k : Kind} (id : Nat) (ws : List (Nat × WriteIntent (Data V k)))
        (chain chain' : Option (VersionChain (Data V k) (DeltaOp V))),
        (chain' = match ws.lookup id with
          | some intent => some (appliedChain txn k id chain intent)
          | none => chain) →
        (if id ∈ ws.map Prod.fst then chain'.map (stampIfOwn txn ts) else chain') =
          match ws.lookup id with
          | some intent => some ((appliedChain txn k id chain intent).stamp ts)
          | none => chain := by
      intro k id ws chain chain' heq
      cases hLook : ws.lookup id with
      | none => rw [if_neg (lookup_eq_none_iff.mp hLook), heq, hLook]
      | some intent =>
        have hMem : id ∈ ws.map Prod.fst := by
          by_contra hNot
          rw [lookup_eq_none_iff.mpr hNot] at hLook
          cases hLook
        rw [if_pos hMem, heq, hLook]
        exact congrArg some (if_pos rfl)
    unfold stampAll
    rw [hStampE, hStampV]
    unfold TxnState.lookupWrite
    cases k with
    | vertex =>
      have hSrc := hChain₁ id
      rw [chain_withTs'] at hSrc
      simp only [reduceCtorEq, false_and, if_false, true_and]
      exact hFinish id _ _ _ ((hKinds₂ .vertex id (by simp)).trans hSrc)
    | edge =>
      have hSrc := hChain₂ id
      rw [hEdges] at hSrc
      simp only [reduceCtorEq, false_and, if_false, true_and]
      exact hFinish id _ _ _ hSrc

/-- A validated intent is for an entity that is absent, committed or the transaction's
own. -/
theorem WF.validateIntent_ne (h : WF g) {intent : WriteIntent (Data V k)} (hv : g.validateIntent txn k id intent = .ok ())
    (hc : g.chain k id = some c) {t : MemTransaction} (ht' : t ∈ g.txnManager.activeTxns)
    (hne : t.txnId ≠ txn.txnId) : c.current.commitTs ≠ t.txnId := by
  rintro heq
  have hTxn : Timestamp.isTxnId c.current.commitTs = true := by
    rw [Timestamp.isTxnId_iff, heq]
    exact Nat.le_of_lt (h.activeId t ht').1
  have hNot : (c.current.commitTs != txn.txnId) = true := by
    rw [heq]
    simpa using hne
  obtain ⟨guardTs, kind⟩ := intent
  unfold validateIntent at hv
  cases kind <;> simp [hc, hTxn, hNot] at hv

/-- An optimistic commit keeps the graph well formed. -/
theorem WF.commitOpt [DecidableEq V] (h : WF g) (ht : txn ∈ g.txnManager.activeTxns) {ts : Nat}
    (hs : CommitOptSpec g g' txn ts) : WF g' := by
  refine h.ends ht hs.toEnds fun k id => ?_
  have hNew := hs.chain k id
  cases hLook : (g.txns txn.txnId).lookupWrite k id with
  | none =>
    left
    rw [hNew, hLook]
  | some intent =>
    right
    rw [hLook] at hNew
    have hMem := (lookup_eq_some_iff (h.writesNodup txn ht k)).mp hLook
    have hValid := hs.valid k id intent hMem
    have hKey := h.intentKey txn ht k id intent hMem
    have hStamp : ∀ {ts}, g.Stamp ts → g'.Stamp ts := fun hs' =>
      hs'.mono hs.tsMono (Nat.le_of_eq hs.idEq.symm)
    have hHead : ∀ c, g.chain k id = some c → ∀ t ∈ g'.txnManager.activeTxns,
        c.current.commitTs ≠ t.txnId := fun c hc t ht' =>
      h.validateIntent_ne hValid hc (hs.mem_active.mp ht').1 (hs.mem_active.mp ht').2
    refine ⟨fun t ht' => h.entriesFor_eq_nil (hs.mem_active.mp ht').1 fun c hc =>
      hHead c hc t ht', fun c' hc' => ?_⟩
    obtain rfl := Option.some.inj (hNew.symm.trans hc')
    have hTarget : (intentDelta k id intent).target = some (k, id) := by
      obtain ⟨guardTs, kind⟩ := intent
      cases kind with
      | insert d => exact DeltaOp.target_del id
      | update before after => exact DeltaOp.target_setProps ..
      | delete before => exact (DeltaOp.target_create before).trans (by rw [hKey])
    -- the version written over: the chain in the map, or one made on the spot
    have hBase : (intentBase (g.chain k id) intent).current.data.id = id ∧
        g.Stamp (intentBase (g.chain k id) intent).current.commitTs ∧
        ∀ r ∈ (intentBase (g.chain k id) intent).undoPtr,
          ∃ c, g.chain k id = some c ∧ r ∈ c.undoPtr := by
      cases hc : g.chain k id with
      | some c => exact ⟨h.key k id c hc, h.stamp k id c hc, fun r hr => ⟨c, rfl, hr⟩⟩
      | none =>
        refine ⟨?_, .inl (Nat.lt_of_le_of_lt (Nat.zero_le _) h.watermark), by simp [intentBase]⟩
        obtain ⟨guardTs, kind⟩ := intent
        cases kind with
        | insert d => exact hKey
        | update before after => exact hKey.2
        | delete before => exact hKey
    have hOld : ∀ r ∈ ((appliedChain txn k id (g.chain k id) intent).stamp ts).undoPtr,
        r = ⟨txn.txnId, intentDelta k id intent,
          (intentBase (g.chain k id) intent).current.commitTs⟩ ∨
        ∃ c, g.chain k id = some c ∧ r ∈ c.undoPtr := fun r hr =>
      (List.mem_cons.mp hr).imp_right (hBase.2.2 r)
    refine ⟨?_, .inl hs.tsLt, fun r hr => ?_, fun t ht' => ?_, fun t ht' r hr => ?_⟩
    · show (intentData (intentBase (g.chain k id) intent) intent).id = id
      obtain ⟨guardTs, kind⟩ := intent
      cases kind with
      | insert d => exact hKey
      | update before after => exact hKey.2
      | delete before => exact (Data.id_tombstone _).trans hBase.1
    · rcases hOld r hr with rfl | ⟨c, hc, hr⟩
      · exact ⟨hStamp hBase.2.1, by rw [hs.idEq]; exact (h.activeId txn ht).2, hTarget⟩
      · obtain ⟨h₁, h₂, h₃⟩ := h.record k id c hc r hr
        exact ⟨hStamp h₁, by rw [hs.idEq]; exact h₂, h₃⟩
    · exact h.commitTs_ne_id hs.tsLt hs.tsBound (hs.mem_active.mp ht').1
    · rcases hOld r hr with rfl | ⟨c, hc, hr⟩
      · exact Ne.symm (hs.mem_active.mp ht').2
      · exact fun hOwner => hHead c hc t ht'
          (h.recordOwner k id c hc r hr t (hs.mem_active.mp ht').1 hOwner)

/-! ## Collections and releases -/

/-- A collection would remove only entities whose head was committed at or below the
watermark. -/
def CollectsCommitted (g : MemoryGraph V) : Prop :=
  ∀ k id c, g.gcRemoves k id = true → g.chain k id = some c →
    c.current.commitTs ≤ g.txnManager.watermark

theorem WF.garbageCollect (h : WF g) (hGc : CollectsCommitted g) : WF g.garbageCollect := by
  refine h.evolves ⟨rfl, by simpa using h.tsBound, by simp, by simp, by simpa using h.watermark,
    ?_, fun _ ht => ht, by simp, by simp, fun k id => ?_⟩
  · rw [counters_garbageCollect]
    exact h.latest
  · rw [chain_garbageCollect]
    by_cases hRem : g.gcRemoves k id = true
    · rw [if_pos hRem]
      refine .inr ⟨fun t ht => h.entriesFor_eq_nil ht fun c hc => ?_, by simp⟩
      have hle := hGc k id c hRem hc
      have hlt := h.watermark
      exact h.commitTs_ne_id (n := g.counters.1) (by omega) h.tsBound ht
    · rw [if_neg hRem]
      exact .inl rfl

theorem ne_of_isHeld {t : Nat} (hHeld : g.isHeld t = false) {t' : MemTransaction}
    (ht' : t' ∈ g.txnManager.activeTxns) : t'.txnId ≠ t := by
  intro heq
  simp only [isHeld, isActive, Bool.or_eq_false_iff, List.any_eq_false, beq_iff_eq] at hHeld
  exact hHeld.1 t' ht' heq

theorem WF.release (h : WF g) {t : Nat} (hHeld : g.isHeld t = false) : WF (g.release t) := by
  have hActive : ∀ t' ∈ g.txnManager.activeTxns, t'.txnId ≠ t := fun t' => ne_of_isHeld hHeld
  refine h.evolves ⟨rfl, h.tsBound, Nat.le_refl _, rfl, h.watermark, h.latest, fun _ ht => ht,
    fun t' ht' => txns_modifyTxn_of_ne g _ (hActive t' ht'), fun i hi => ?_,
    fun k id => .inl (by simp [MemoryGraph.release])⟩
  by_cases heq : i = t
  · subst heq
    unfold MemoryGraph.release
    rw [txns_modifyTxn_self, h.fresh i hi]
    rfl
  · exact txns_modifyTxn_of_ne g _ heq

/-! ## Begin -/

/-- An id that is drawn and not used harms nothing. -/
theorem WF.skipId (h : WF g) {idGen : TransactionIdGenerator}
    (hId : idGen.counter = g.counters.2 + 1) :
    WF { g with transactionIdGenerator := idGen } := by
  have hCnt : ({ g with transactionIdGenerator := idGen } : MemoryGraph V).counters =
      (g.counters.1, g.counters.2 + 1) := by
    unfold counters
    rw [hId]
    rfl
  have hChain : ({ g with transactionIdGenerator := idGen } : MemoryGraph V).chain = g.chain := by
    funext k id
    cases k <;> rfl
  have hStamp : ∀ {ts}, g.Stamp ts →
      ({ g with transactionIdGenerator := idGen } : MemoryGraph V).Stamp ts := fun hs =>
    hs.mono (by rw [hCnt]) (by rw [hCnt]; exact Nat.le_succ _)
  constructor
  all_goals simp only [hCnt, hChain]
  · exact h.threshold
  · exact h.tsBound
  · exact Nat.lt_succ_of_lt h.idBound
  · exact h.watermark
  · exact h.latest
  · exact fun t ht => ⟨(h.activeId t ht).1, Nat.lt_succ_of_lt (h.activeId t ht).2⟩
  · exact h.activeStart
  · exact h.activeInj
  · exact fun i hi => h.fresh i (by omega)
  · exact h.key
  · exact fun k id c hc => hStamp (h.stamp k id c hc)
  · intro k id c hc r hr
    obtain ⟨h₁, h₂, h₃⟩ := h.record k id c hc r hr
    exact ⟨hStamp h₁, Nat.lt_succ_of_lt h₂, h₃⟩
  · exact h.recordOwner
  · exact fun t ht k id => (h.owned t ht k id).congr (by rw [hChain]) rfl
  · exact h.notCommitted
  · exact h.optUndo
  · exact h.pessWrites
  · exact h.writesNodup
  · exact h.intentKey

theorem mem_active_begun {idGen : TransactionIdGenerator} {tsGen : GlobalTimestampGenerator}
    {t : MemTransaction} (ht : t ∈ (g.begun txn idGen tsGen).txnManager.activeTxns) :
    t = txn ∨ t ∈ g.txnManager.activeTxns :=
  SkipList.mem_of_mem_insert ht

/-- A new transaction has an id and a start of its own and has written nothing. -/
theorem WF.begun (h : WF g) {idGen : TransactionIdGenerator} {tsGen : GlobalTimestampGenerator}
    (hNew : txn.txnId = g.counters.2) (hId : idGen.counter = g.counters.2 + 1)
    (hStart : txn.startTs < tsGen.counter) (hTs : g.counters.1 ≤ tsGen.counter)
    (hMax : tsGen.counter ≤ Timestamp.maxCommitTs) : WF (g.begun txn idGen tsGen) := by
  have hCnt : (g.begun txn idGen tsGen).counters = (tsGen.counter, g.counters.2 + 1) := by
    rw [← hId]
    rfl
  have hChain : (g.begun txn idGen tsGen).chain = g.chain := by
    funext k id
    cases k <;> rfl
  have hStamp : ∀ {ts}, g.Stamp ts → (g.begun txn idGen tsGen).Stamp ts := fun hs =>
    hs.mono (by rw [hCnt]; exact hTs) (by rw [hCnt]; exact Nat.le_succ _)
  have hSelf : (g.begun txn idGen tsGen).txns txn.txnId = .new :=
    Function.update_self ..
  have hElse : ∀ t, t ≠ txn.txnId → (g.begun txn idGen tsGen).txns t = g.txns t := fun t ht =>
    Function.update_of_ne ht ..
  have hOld : ∀ t ∈ g.txnManager.activeTxns, (g.begun txn idGen tsGen).txns t.txnId =
      g.txns t.txnId := fun t ht => hElse _ (by have := (h.activeId t ht).2; omega)
  -- the new id is on no head: every stamp is below the counters
  have hFreshHead : ∀ {ts}, g.Stamp ts → ts ≠ txn.txnId := fun hs => by
    rw [hNew]
    exact h.stamp_ne_fresh hs
  have hStartLt : ∀ t ∈ (g.begun txn idGen tsGen).txnManager.activeTxns,
      t.startTs < tsGen.counter := by
    intro t ht
    rcases mem_active_begun ht with rfl | ht
    · exact hStart
    · exact Nat.lt_of_lt_of_le (h.activeStart t ht) hTs
  constructor
  all_goals try simp only [hCnt, hChain]
  · exact h.threshold
  · exact hMax
  · exact Nat.lt_succ_of_lt h.idBound
  · have hWm : (g.begun txn idGen tsGen).txnManager.watermark =
        max (((g.begun txn idGen tsGen).txnManager.activeTxns.head?.map
          MemTransaction.startTs).getD g.txnManager.latestCommitTs) g.txnManager.watermark := rfl
    rw [hWm]
    have h₁ := h.watermark
    have h₂ := h.latest
    cases hHead : (g.begun txn idGen tsGen).txnManager.activeTxns.head? with
    | none =>
      simp only [Option.map_none, Option.getD_none]
      omega
    | some t =>
      have := hStartLt t (List.mem_of_mem_head? hHead)
      simp only [Option.map_some, Option.getD_some]
      omega
  · exact Nat.lt_of_lt_of_le h.latest hTs
  · intro t ht
    rcases mem_active_begun ht with rfl | ht
    · rw [hNew]
      exact ⟨h.idBound, Nat.lt_succ_self _⟩
    · exact ⟨(h.activeId t ht).1, Nat.lt_succ_of_lt (h.activeId t ht).2⟩
  · exact hStartLt
  · intro t ht t' ht' heq
    rcases mem_active_begun ht with hNewT | htOld
    · rcases mem_active_begun ht' with hNewT' | htOld'
      · rw [hNewT, hNewT']
      · have := (h.activeId t' htOld').2
        rw [hNewT, hNew] at heq
        omega
    · rcases mem_active_begun ht' with hNewT' | htOld'
      · have := (h.activeId t htOld).2
        rw [hNewT', hNew] at heq
        omega
      · exact h.activeInj t htOld t' htOld' heq
  · intro i hi
    rw [hElse i (by omega)]
    exact h.fresh i (by omega)
  · exact h.key
  · exact fun k id c hc => hStamp (h.stamp k id c hc)
  · intro k id c hc r hr
    obtain ⟨h₁, h₂, h₃⟩ := h.record k id c hc r hr
    exact ⟨hStamp h₁, Nat.lt_succ_of_lt h₂, h₃⟩
  · intro k id c hc r hr t ht hOwner
    rcases mem_active_begun ht with rfl | ht
    · have := (h.record k id c hc r hr).2.1
      omega
    · exact h.recordOwner k id c hc r hr t ht hOwner
  · intro t ht k id
    rcases mem_active_begun ht with rfl | ht
    · refine .inl ⟨by simp [entriesFor, hSelf, TxnState.new], fun c hc => ?_⟩
      rw [hChain] at hc
      exact hFreshHead (h.stamp k id c hc)
    · exact (h.owned t ht k id).congr (by rw [hChain]) (entriesFor_congr (by rw [hOld t ht]))
  · intro t ht
    rcases mem_active_begun ht with rfl | ht
    · rw [hSelf]
      rfl
    · rw [hOld t ht]
      exact h.notCommitted t ht
  · intro t ht
    rcases mem_active_begun ht with rfl | ht
    · rw [hSelf]
      exact fun _ => rfl
    · rw [hOld t ht]
      exact h.optUndo t ht
  · intro t ht
    rcases mem_active_begun ht with rfl | ht
    · rw [hSelf]
      exact fun _ k => by cases k <;> rfl
    · rw [hOld t ht]
      exact h.pessWrites t ht
  · intro t ht k
    rcases mem_active_begun ht with rfl | ht
    · rw [hSelf]
      cases k <;> exact List.nodup_nil
    · rw [hOld t ht]
      exact h.writesNodup t ht k
  · intro t ht k id intent
    rcases mem_active_begun ht with rfl | ht
    · rw [hSelf]
      cases k <;> exact fun hMem => absurd hMem (List.not_mem_nil)
    · rw [hOld t ht]
      exact h.intentKey t ht k id intent

theorem WF.appendWal (h : WF g) (op : Operation V) : WF (g.appendWal txn op) :=
  h.congr (by simp) rfl rfl (fun _ _ => rfl) fun _ ht => ⟨rfl, rfl, h.writesOk ht⟩

/-! ## The steps of a run -/

/-- **What a step of the machine can do**, once for every invariant: an operation or a
query is a sequence of primitive steps, and every other action has its effect spelt
out. The commit carries the timestamp it returned. -/
inductive StepCase [DecidableEq V] (g g' : MemoryGraph V) : Action V → Prop where
  | idle {a : Action V} (h : ∀ txn ts?, a = .commit txn ts? → ∀ ts,
      (g.commitAt txn ts? false).2 ≠ .ok ts) (hg : g' = g) : StepCase g g' a
  | skipId {startTs : Option Nat} {iso : IsolationLevel} {lock : LockStrategy}
      {idGen : TransactionIdGenerator} (hId : idGen.counter = g.counters.2 + 1)
      (hg : g' = { g with transactionIdGenerator := idGen }) : StepCase g g' (.begin startTs iso lock)
  | begun {startTs : Option Nat} {txn : MemTransaction}
      {idGen : TransactionIdGenerator} {tsGen : GlobalTimestampGenerator}
      (hNew : txn.txnId = g.counters.2) (hId : idGen.counter = g.counters.2 + 1)
      (hStart : txn.startTs < tsGen.counter) (hMono : g.counters.1 ≤ tsGen.counter)
      (hMax : tsGen.counter ≤ Timestamp.maxCommitTs)
      (hDrawn : startTs = none → txn.startTs = g.counters.1)
      (hGiven : ∀ s, startTs = some s → txn.startTs = s)
      (hg : g' = (g.begun txn idGen tsGen).appendWal txn (.beginTransaction txn.startTs)) :
      StepCase g g' (.begin startTs txn.isolationLevel txn.lockStrategy)
  | op {txn : MemTransaction} {o : Op V} (ht : txn ∈ g.txnManager.activeTxns)
      (hSteps : OpSteps txn g g') : StepCase g g' (.op txn o)
  | query {txn : MemTransaction} {q : Query V} (ht : txn ∈ g.txnManager.activeTxns)
      (hSteps : OpSteps txn g g') : StepCase g g' (.query txn q)
  | rollback {txn : MemTransaction} {ts? : Option Nat} (ht : txn ∈ g.txnManager.activeTxns)
      (h : AbortSpec g g' txn) (hErr : ∀ ts, (g.commitAt txn ts? false).2 ≠ .ok ts)
      (hInvalid : txn.lockStrategy = .pessimistic → ¬ g.ReadsValid txn) :
      StepCase g g' (.commit txn ts?)
  | abort {txn : MemTransaction} (ht : txn ∈ g.txnManager.activeTxns)
      (h : AbortSpec g g' txn) : StepCase g g' (.abort txn)
  | commitPess {txn : MemTransaction} {ts? : Option Nat} {ts : Nat}
      (ht : txn ∈ g.txnManager.activeTxns) (hOk : (g.commitAt txn ts? false).2 = .ok ts)
      (hDrawn : ts? = none → ts = g.counters.1) (hGiven : ∀ t, ts? = some t → ts = t)
      (hReads : g.ReadsValid txn) (h : CommitPessSpec g g' txn ts) :
      StepCase g g' (.commit txn ts?)
  | commitOpt {txn : MemTransaction} {ts? : Option Nat} {ts : Nat}
      (ht : txn ∈ g.txnManager.activeTxns) (hOk : (g.commitAt txn ts? false).2 = .ok ts)
      (hDrawn : ts? = none → ts = g.counters.1) (hGiven : ∀ t, ts? = some t → ts = t)
      (hReads : g.ReadsValid txn) (h : CommitOptSpec g g' txn ts) :
      StepCase g g' (.commit txn ts?)
  | garbageCollect (hg : g' = g.garbageCollect) : StepCase g g' .garbageCollect
  | release {t : Nat} (hHeld : g.isHeld t = false) (hg : g' = g.release t) :
      StepCase g g' (.release t)

/-- **What a call of the machine can do**, in a well-formed graph. -/
theorem step_cases [DecidableEq V] {a : Action V} (h : WF g) (hs : Step g a g') :
    StepCase g g' a := by
  obtain ⟨hEnabled, r, hExec, hPanic⟩ := hs
  have hTsMax : g.timestampGenerator.counter ≤ Timestamp.maxCommitTs := h.tsBound
  have hGivenTs : ∀ {ts? : Option Nat} {ts : Nat} {gen : GlobalTimestampGenerator},
      g.timestampGenerator.obtain ts? = .ok (ts, gen) → ∀ t, ts? = some t → ts = t := by
    rintro ts? ts gen hTs t rfl
    simp only [GlobalTimestampGenerator.obtain, GlobalTimestampGenerator.updateIfGreater] at hTs
    split at hTs
    · cases hTs
    · split at hTs
      · cases hTs
      · cases hTs
        rfl
  cases a with
  | begin startTs iso lock =>
    rcases begin_cases hExec with rfl | ⟨idGen, hId, rfl⟩ | ⟨s, idGen, tsGen, hId, hTs, rfl⟩
    · exact .idle (fun _ _ heq => by cases heq) rfl
    · exact .skipId hId rfl
    · obtain ⟨hLt, hMono, hMax, hDrawn⟩ := GlobalTimestampGenerator.obtain_ok hTs hTsMax
      exact @StepCase.begun V _ g _ startTs ⟨g.counters.2, s, iso, lock⟩ idGen tsGen rfl hId hLt
        hMono hMax hDrawn (hGivenTs hTs) rfl
  | op txn o =>
    have hSteps : OpSteps txn g (g.runOp txn o).1 := opSteps_runOp o
    rw [show g.runOp txn o = (g', r) from hExec] at hSteps
    exact .op hEnabled hSteps
  | query txn q =>
    have hSteps : OpSteps txn g (g.runQuery txn q).1 := opSteps_runQuery q
    rw [show (g.runQuery txn q).1 = g' from (Prod.mk.inj hExec).1] at hSteps
    exact .query hEnabled.1 hSteps
  | commit txn ts? =>
    have hAt : g.commitAt txn ts? false = (g', (g.commitAt txn ts? false).2) := by
      rw [← (Prod.mk.inj hExec).1]
    have hNoPanic : (g.commitAt txn ts? false).2 ≠ .error .panicked := by
      intro heq
      apply hPanic
      rw [← (Prod.mk.inj hExec).2, heq]
      rfl
    rcases commitAt_cases h hEnabled hAt hNoPanic with ⟨rfl, e, hErr⟩ | ⟨ts, gen, hTs, hCases⟩
    · refine .idle (fun _ _ heq => ?_) rfl
      cases heq
      simp [hErr]
    · obtain ⟨hLt, hMono, hMax, hDrawn⟩ := GlobalTimestampGenerator.obtain_ok hTs hTsMax
      rcases hCases with ⟨rfl, ⟨e, hErr⟩, hInvalid⟩ | ⟨hOk, hReads, hCommit⟩ | ⟨hOk, hReads, hCommit⟩
      · exact .rollback hEnabled (abort_spec h gen hMono hMax) (by simp [hErr]) hInvalid
      · exact .commitPess hEnabled hOk hDrawn (hGivenTs hTs) hReads
          (commitPess_spec h hMono hMax hLt hCommit)
      · exact .commitOpt hEnabled hOk hDrawn (hGivenTs hTs) hReads
          (commitOpt_spec h hEnabled hMono hMax hLt hCommit)
  | abort txn =>
    rw [show g.exec (.abort txn) = g.abortAt txn false from rfl,
      abort_eq h.threshold hEnabled] at hExec
    obtain ⟨rfl, -⟩ := Prod.mk.inj hExec
    exact .abort hEnabled (abort_spec h g.timestampGenerator (Nat.le_refl _) hTsMax)
  | garbageCollect => exact .garbageCollect (Prod.mk.inj hExec).1.symm
  | release t => exact .release hEnabled (Prod.mk.inj hExec).1.symm

/-- The side condition on a step: a collection removes only committed entities. -/
def GcOk (g : MemoryGraph V) : Action V → Prop
  | .garbageCollect => CollectsCommitted g
  | _ => True

/-- **Every step keeps a graph well formed.** -/
theorem wf_step [DecidableEq V] {a : Action V} (h : WF g) (hGc : GcOk g a) (hs : Step g a g') :
    WF g' := by
  cases step_cases h hs with
  | idle _ hg => exact hg ▸ h
  | skipId hId hg => exact hg ▸ h.skipId hId
  | begun hNew hId hStart hMono hMax _ _ hg =>
    exact hg ▸ (h.begun hNew hId hStart hMono hMax).appendWal _
  | op ht hSteps => exact (h.opSteps ht hSteps).1
  | query ht hSteps => exact (h.opSteps ht hSteps).1
  | rollback ht hAbort => exact h.abort ht hAbort
  | abort ht hAbort => exact h.abort ht hAbort
  | commitPess ht _ _ _ _ hCommit => exact h.commitPess ht hCommit
  | commitOpt ht _ _ _ _ hCommit => exact h.commitOpt ht hCommit
  | garbageCollect hg => exact hg ▸ h.garbageCollect hGc
  | release hHeld hg => exact hg ▸ h.release hHeld

/-- The graphs a run may start from. -/
def Initial (g : MemoryGraph V) : Prop := ∃ lock iso, g = MemoryGraph.new none lock iso

/-- **Every graph reached without a collection of uncommitted entities is well formed.** -/
theorem wf_run [DecidableEq V] {P : MemoryGraph V → Action V → Prop} {g₀ : MemoryGraph V}
    {trace : List (MemoryGraph V × Action V)} (hInit : Initial g₀)
    (hP : ∀ g a, P g a → GcOk g a) (hRun : Run Step P g₀ trace g) : WF g := by
  obtain ⟨lock, iso, rfl⟩ := hInit
  exact hRun.stateInvariant (wf_new lock iso) fun s a s' hs hPs hStep =>
    wf_step hs (hP s a hPs) hStep

end MemoryGraph

end MiniGU
