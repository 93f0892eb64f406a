import MiniGU.Invariant.OpStep

/-!
# Well-formed graphs

`WF` collects what every reachable graph satisfies, whatever the transactions did: the
counters bound everything drawn from them, and the chains whose head a running
transaction has stamped are exactly those it has undo entries for, its writes lying
over the version it found (`Owned`). The one thing that breaks it is a collection that
takes an entity from under a running transaction, so a collection is assumed to remove
only what was committed at or below the watermark (`CollectsCommitted`).

* `wf_opSteps`: the operations of an active transaction keep `WF`.
* `wf_step`: every step of the machine keeps `WF`, given `CollectsCommitted`.
-/

namespace MiniGU

variable {V : Type}

/-- Data that no reader is given. -/
def Gone {k : Kind} (d : Data V k) : Prop := d.isTombstone = true

namespace MemoryGraph

/-- The undo entries of transaction `t` for one entity, oldest first. -/
def entriesFor (g : MemoryGraph V) (t : Nat) (k : Kind) (id : Nat) :
    List (UndoEntry (DeltaOp V)) :=
  (g.txns t).undoBuffer.filter fun e => decide (e.delta.target = some (k, id))

/-- The oldest undo entry tells whether the transaction created the entity. -/
def FirstEntry (t : MemTransaction) (k : Kind) (id : Nat)
    (base : Option (VersionChain (Data V k) (DeltaOp V))) (e : UndoEntry (DeltaOp V)) : Prop :=
  match base with
  | none => e = ⟨.del k id, createMarker t k, []⟩
  | some _ => e.delta ≠ .del k id

/-- The writes of `t` to one entity: the chain is what they made of `base`, and `es` are
their undo entries. -/
structure WrittenBy (t : MemTransaction) (k : Kind) (id : Nat)
    (base : Option (VersionChain (Data V k) (DeltaOp V))) (es : List (UndoEntry (DeltaOp V)))
    (c : VersionChain (Data V k) (DeltaOp V)) : Prop where
  overlay : Overlay DeltaOp.undo Gone t.txnId base es c
  first : ∀ e, es.head? = some e → FirstEntry t k id base e
  canWrite : ∀ e ∈ es, t.CanWrite e.timestamp

/-- Either `t` has not written the entity, or the chain is its writes over a version
committed before it started. -/
def Owned (g : MemoryGraph V) (t : MemTransaction) (k : Kind) (id : Nat) : Prop :=
  (g.entriesFor t.txnId k id = [] ∧
    ∀ c, g.chain k id = some c → c.current.commitTs ≠ t.txnId) ∨
  ∃ base c, g.chain k id = some c ∧ WrittenBy t k id base (g.entriesFor t.txnId k id) c

/-- The images in a write intent are of the entity it is for. -/
def IntentKey {k : Kind} (id : Nat) (intent : WriteIntent (Data V k)) : Prop :=
  match intent.kind with
  | .insert d => d.id = id
  | .update before after => before.id = id ∧ after.id = id
  | .delete before => before.id = id

/-- A value that one of the two generators has handed out. -/
def Stamp (g : MemoryGraph V) (ts : Nat) : Prop :=
  ts < g.counters.1 ∨ (Timestamp.txnIdStart < ts ∧ ts < g.counters.2)

structure WF (g : MemoryGraph V) : Prop where
  threshold : g.txnManager.gcThreshold = none
  tsBound : g.counters.1 ≤ Timestamp.maxCommitTs
  idBound : Timestamp.txnIdStart < g.counters.2
  watermark : g.txnManager.watermark < g.counters.1
  latest : g.txnManager.latestCommitTs < g.counters.1
  activeId : ∀ t ∈ g.txnManager.activeTxns, Timestamp.txnIdStart < t.txnId ∧ t.txnId < g.counters.2
  activeStart : ∀ t ∈ g.txnManager.activeTxns, t.startTs < g.counters.1
  activeInj : ∀ t ∈ g.txnManager.activeTxns, ∀ t' ∈ g.txnManager.activeTxns,
    t.txnId = t'.txnId → t = t'
  fresh : ∀ id, g.counters.2 ≤ id → g.txns id = .new
  key : ∀ k id c, g.chain k id = some c → c.current.data.id = id
  stamp : ∀ k id c, g.chain k id = some c → g.Stamp c.current.commitTs
  record : ∀ k id c, g.chain k id = some c → ∀ r ∈ c.undoPtr,
    g.Stamp r.timestamp ∧ r.owner < g.counters.2 ∧ r.delta.target = some (k, id)
  recordOwner : ∀ k id c, g.chain k id = some c → ∀ r ∈ c.undoPtr,
    ∀ t ∈ g.txnManager.activeTxns, r.owner = t.txnId → c.current.commitTs = t.txnId
  owned : ∀ t ∈ g.txnManager.activeTxns, ∀ k id, g.Owned t k id
  notCommitted : ∀ t ∈ g.txnManager.activeTxns, (g.txns t.txnId).commitTs = none
  optUndo : ∀ t ∈ g.txnManager.activeTxns, t.lockStrategy = .optimistic →
    (g.txns t.txnId).undoBuffer = []
  pessWrites : ∀ t ∈ g.txnManager.activeTxns, t.lockStrategy = .pessimistic →
    ∀ k, (g.txns t.txnId).writes k = []
  writesNodup : ∀ t ∈ g.txnManager.activeTxns, ∀ k,
    (((g.txns t.txnId).writes k).map Prod.fst).Nodup
  intentKey : ∀ t ∈ g.txnManager.activeTxns, ∀ k id intent,
    (id, intent) ∈ (g.txns t.txnId).writes k → IntentKey id intent

theorem wf_new (lock : LockStrategy) (iso : IsolationLevel) :
    WF (MemoryGraph.new none lock iso : MemoryGraph V) where
  threshold := rfl
  tsBound := by
    show 1 ≤ Timestamp.maxCommitTs
    decide
  idBound := Nat.lt_succ_self _
  watermark := Nat.zero_lt_one
  latest := Nat.zero_lt_one
  activeId := by simp [MemoryGraph.new, MemTxnManager.new]
  activeStart := by simp [MemoryGraph.new, MemTxnManager.new]
  activeInj := by simp [MemoryGraph.new, MemTxnManager.new]
  fresh := fun _ _ => rfl
  key := by
    intro k id c hc
    cases k <;> cases hc
  stamp := by
    intro k id c hc
    cases k <;> cases hc
  record := by
    intro k id c hc
    cases k <;> cases hc
  recordOwner := by
    intro k id c hc
    cases k <;> cases hc
  owned := by simp [MemoryGraph.new, MemTxnManager.new]
  notCommitted := by simp [MemoryGraph.new, MemTxnManager.new]
  optUndo := by simp [MemoryGraph.new, MemTxnManager.new]
  pessWrites := by simp [MemoryGraph.new, MemTxnManager.new]
  writesNodup := by simp [MemoryGraph.new, MemTxnManager.new]
  intentKey := by simp [MemoryGraph.new, MemTxnManager.new]

variable {g g' : MemoryGraph V} {txn : MemTransaction} {k : Kind} {id : Nat}
  {c : VersionChain (Data V k) (DeltaOp V)}

/-! ## Consequences -/

/-- No start timestamp is a transaction id. -/
theorem WF.start_lt_id (h : WF g) {t t' : MemTransaction} (ht : t ∈ g.txnManager.activeTxns)
    (ht' : t' ∈ g.txnManager.activeTxns) : t.startTs < t'.txnId := by
  have h₁ := h.activeStart t ht
  have h₂ := h.tsBound
  have h₃ := (h.activeId t' ht').1
  unfold Timestamp.maxCommitTs Timestamp.txnIdStart at *
  omega

theorem WF.stamp_ne_fresh (h : WF g) {ts : Nat} (hs : g.Stamp ts) : ts ≠ g.counters.2 := by
  have h₁ := h.tsBound
  have h₂ := h.idBound
  unfold Stamp at hs
  unfold Timestamp.maxCommitTs Timestamp.txnIdStart at *
  omega

/-- A transaction that has an undo entry for an entity has its head. -/
theorem WF.writtenBy (h : WF g) (ht : txn ∈ g.txnManager.activeTxns) (hc : g.chain k id = some c)
    (hOwn : c.current.commitTs = txn.txnId) :
    ∃ base, WrittenBy txn k id base (g.entriesFor txn.txnId k id) c := by
  rcases h.owned txn ht k id with ⟨-, hne⟩ | ⟨base, c', hc', hBy⟩
  · exact absurd hOwn (hne c hc)
  · obtain rfl : c = c' := Option.some.inj (hc.symm.trans hc')
    exact ⟨base, hBy⟩

theorem WF.head_of_entriesFor (h : WF g) (ht : txn ∈ g.txnManager.activeTxns)
    (hne : g.entriesFor txn.txnId k id ≠ []) :
    ∃ c, g.chain k id = some c ∧ c.current.commitTs = txn.txnId := by
  rcases h.owned txn ht k id with ⟨hnil, -⟩ | ⟨base, c, hc, hBy⟩
  · exact absurd hnil hne
  · exact ⟨c, hc, hBy.overlay.commitTs_eq⟩

/-- Only the transaction whose id the head carries has written the entity. -/
theorem WF.entriesFor_eq_nil (h : WF g) (ht : txn ∈ g.txnManager.activeTxns)
    (hne : ∀ c, g.chain k id = some c → c.current.commitTs ≠ txn.txnId) :
    g.entriesFor txn.txnId k id = [] := by
  rcases h.owned txn ht k id with ⟨hnil, -⟩ | ⟨base, c, hc, hBy⟩
  · exact hnil
  · exact absurd hBy.overlay.commitTs_eq (hne c hc)

theorem WF.canWrite_other (h : WF g) (ht : txn ∈ g.txnManager.activeTxns)
    {t : MemTransaction} (ht' : t ∈ g.txnManager.activeTxns) (hne : t ≠ txn) {ts : Nat}
    (hw : txn.CanWrite ts) : ts ≠ t.txnId := by
  rintro rfl
  rcases hw with heq | hle
  · exact hne (h.activeInj t ht' txn ht heq)
  · have := h.start_lt_id ht ht'
    omega

/-! ## Changes that `WF` does not see -/

theorem entriesFor_congr (h : (g'.txns txn.txnId).undoBuffer = (g.txns txn.txnId).undoBuffer) :
    g'.entriesFor txn.txnId k id = g.entriesFor txn.txnId k id := by
  unfold entriesFor
  rw [h]

theorem Owned.congr (h : g.Owned txn k id) (hChain : g'.chain k id = g.chain k id)
    (hUndo : g'.entriesFor txn.txnId k id = g.entriesFor txn.txnId k id) :
    g'.Owned txn k id := by
  unfold Owned at *
  rw [hChain, hUndo]
  exact h

theorem Stamp.mono {ts : Nat} (h : g.Stamp ts) (h₁ : g.counters.1 ≤ g'.counters.1)
    (h₂ : g.counters.2 ≤ g'.counters.2) : g'.Stamp ts := by
  unfold Stamp at *
  omega

/-- What `WF` asks of the intents of one transaction. -/
structure WritesOk (t : MemTransaction) (k : Kind)
    (ws : List (Nat × WriteIntent (Data V k))) : Prop where
  pess : t.lockStrategy = .pessimistic → ws = []
  nodup : (ws.map Prod.fst).Nodup
  key : ∀ id intent, (id, intent) ∈ ws → IntentKey id intent

/-- A change that keeps the chains, the manager, the counters and, of the buffers of
active transactions, the undo entries. -/
theorem WF.congr (h : WF g) (hChain : g'.chain = g.chain) (hManager : g'.txnManager = g.txnManager)
    (hCounters : g'.counters = g.counters)
    (hFresh : ∀ id, g.counters.2 ≤ id → g'.txns id = g.txns id)
    (hTxn : ∀ t ∈ g.txnManager.activeTxns,
      (g'.txns t.txnId).undoBuffer = (g.txns t.txnId).undoBuffer ∧
      (g'.txns t.txnId).commitTs = (g.txns t.txnId).commitTs ∧
      ∀ k, WritesOk t k ((g'.txns t.txnId).writes k)) : WF g' := by
  have hStamp : ∀ ts, g'.Stamp ts ↔ g.Stamp ts := by
    intro ts
    unfold Stamp
    rw [hCounters]
  constructor
  all_goals simp only [hManager, hCounters, hChain, hStamp]
  · exact h.threshold
  · exact h.tsBound
  · exact h.idBound
  · exact h.watermark
  · exact h.latest
  · exact h.activeId
  · exact h.activeStart
  · exact h.activeInj
  · intro i hi
    rw [hFresh i hi]
    exact h.fresh i hi
  · exact h.key
  · exact h.stamp
  · exact h.record
  · exact h.recordOwner
  · intro t ht k id
    exact (h.owned t ht k id).congr (by rw [hChain]) (entriesFor_congr (hTxn t ht).1)
  · intro t ht
    rw [(hTxn t ht).2.1]
    exact h.notCommitted t ht
  · intro t ht hOpt
    rw [(hTxn t ht).1]
    exact h.optUndo t ht hOpt
  · exact fun t ht hPess k => ((hTxn t ht).2.2 k).pess hPess
  · exact fun t ht k => ((hTxn t ht).2.2 k).nodup
  · exact fun t ht k => ((hTxn t ht).2.2 k).key

theorem WF.writesOk (h : WF g) (ht : txn ∈ g.txnManager.activeTxns) (k : Kind) :
    WritesOk txn k ((g.txns txn.txnId).writes k) :=
  ⟨fun hPess => h.pessWrites txn ht hPess k, h.writesNodup txn ht k, h.intentKey txn ht k⟩

/-- A change to the buffers of one active transaction that keeps its undo entries. -/
theorem WF.modifyTxn (h : WF g) (ht : txn ∈ g.txnManager.activeTxns)
    {f : TxnState V → TxnState V}
    (hUndo : (f (g.txns txn.txnId)).undoBuffer = (g.txns txn.txnId).undoBuffer)
    (hCommit : (f (g.txns txn.txnId)).commitTs = (g.txns txn.txnId).commitTs)
    (hWrites : ∀ k, WritesOk txn k ((f (g.txns txn.txnId)).writes k)) :
    WF (g.modifyTxn txn.txnId f) := by
  refine h.congr (by simp) (by simp) (by simp) (fun i hi => ?_) (fun t ht' => ?_)
  · have hlt := (h.activeId txn ht).2
    exact txns_modifyTxn_of_ne g f (by omega)
  · by_cases heq : t.txnId = txn.txnId
    · obtain rfl : t = txn := h.activeInj t ht' txn ht heq
      rw [txns_modifyTxn_self]
      exact ⟨hUndo, hCommit, hWrites⟩
    · rw [txns_modifyTxn_of_ne g f heq]
      exact ⟨rfl, rfl, h.writesOk ht'⟩

theorem WF.adjacency (h : WF g) (hs : SameButAdjacency g g') : WF g' :=
  h.congr hs.chain hs.txnManager hs.counters (fun _ _ => by rw [hs.txns])
    (fun _ ht => by rw [hs.txns]; exact ⟨rfl, rfl, h.writesOk ht⟩)

/-! ## In-place writes -/

theorem chain_pushUndo (t : Nat) (e : UndoEntry (DeltaOp V)) : (g.pushUndo t e).chain = g.chain :=
  chain_modifyTxn g t _

theorem txns_writeVersion_self (delta : DeltaOp V) (ts : Nat) (d : Data V k) :
    (g.writeVersion txn k id c delta ts d).txns txn.txnId =
      { g.txns txn.txnId with
        undoBuffer := (g.txns txn.txnId).undoBuffer ++ [⟨delta, ts, c.undoPtr⟩] } := by
  unfold writeVersion
  rw [txns_setChain]
  exact txns_modifyTxn_self ..

theorem undoBuffer_writeVersion_self (delta : DeltaOp V) (ts : Nat) (d : Data V k) :
    ((g.writeVersion txn k id c delta ts d).txns txn.txnId).undoBuffer =
      (g.txns txn.txnId).undoBuffer ++ [⟨delta, ts, c.undoPtr⟩] := by
  rw [txns_writeVersion_self]

theorem txns_writeVersion_of_ne {t : Nat} (hne : t ≠ txn.txnId) (delta : DeltaOp V) (ts : Nat)
    (d : Data V k) : (g.writeVersion txn k id c delta ts d).txns t = g.txns t := by
  simp [writeVersion, pushUndo, txns_modifyTxn_of_ne g _ hne]

@[simp] theorem txnManager_writeVersion (delta : DeltaOp V) (ts : Nat) (d : Data V k) :
    (g.writeVersion txn k id c delta ts d).txnManager = g.txnManager := by
  simp [writeVersion, pushUndo]

@[simp] theorem counters_writeVersion (delta : DeltaOp V) (ts : Nat) (d : Data V k) :
    (g.writeVersion txn k id c delta ts d).counters = g.counters := by
  simp [writeVersion, pushUndo]

@[simp] theorem chain_writeVersion_self (delta : DeltaOp V) (ts : Nat) (d : Data V k) :
    (g.writeVersion txn k id c delta ts d).chain k id = some (c.push txn.txnId delta ts d) := by
  simp [writeVersion]

theorem chain_writeVersion_of_ne {k' : Kind} {id' : Nat} (hne : (k', id') ≠ (k, id))
    (delta : DeltaOp V) (ts : Nat) (d : Data V k) :
    (g.writeVersion txn k id c delta ts d).chain k' id' = g.chain k' id' := by
  unfold writeVersion
  rw [chain_setChain_of_ne _ _ hne, chain_pushUndo]

theorem entriesFor_writeVersion_self {delta : DeltaOp V} (hTarget : delta.target = some (k, id))
    (ts : Nat) (d : Data V k) :
    (g.writeVersion txn k id c delta ts d).entriesFor txn.txnId k id =
      g.entriesFor txn.txnId k id ++ [⟨delta, ts, c.undoPtr⟩] := by
  unfold entriesFor
  rw [undoBuffer_writeVersion_self, List.filter_append]
  simp [hTarget]

theorem entriesFor_writeVersion_of_ne {delta : DeltaOp V} (hTarget : delta.target = some (k, id))
    {t : Nat} {k' : Kind} {id' : Nat} (hne : t = txn.txnId → (k', id') ≠ (k, id)) (ts : Nat)
    (d : Data V k) :
    (g.writeVersion txn k id c delta ts d).entriesFor t k' id' = g.entriesFor t k' id' := by
  unfold entriesFor
  by_cases ht : t = txn.txnId
  · subst ht
    have hne' : ¬ (k = k' ∧ id = id') := by
      rintro ⟨rfl, rfl⟩
      exact hne rfl rfl
    rw [undoBuffer_writeVersion_self, List.filter_append]
    simp [hTarget, hne']
  · rw [txns_writeVersion_of_ne ht]

/-- What an in-place write of `txn` at one entity has to respect. -/
structure WriteOk (g : MemoryGraph V) (txn : MemTransaction) (k : Kind) (id : Nat)
    (c : VersionChain (Data V k) (DeltaOp V)) (delta : DeltaOp V) (ts : Nat) (d : Data V k) :
    Prop where
  active : txn ∈ g.txnManager.activeTxns
  pess : txn.lockStrategy = .pessimistic
  target : delta.target = some (k, id)
  key : d.id = id
  stamp : g.Stamp ts
  ptr : ∀ r ∈ c.undoPtr,
    (g.Stamp r.timestamp ∧ r.owner < g.counters.2 ∧ r.delta.target = some (k, id)) ∧
    ∀ t ∈ g.txnManager.activeTxns, r.owner = t.txnId → t = txn
  written : ∃ base, WrittenBy txn k id base
    (g.entriesFor txn.txnId k id ++ [⟨delta, ts, c.undoPtr⟩]) (c.push txn.txnId delta ts d)
  others : ∀ t ∈ g.txnManager.activeTxns, t ≠ txn → g.entriesFor t.txnId k id = []

/-- A version pushed by its only writer keeps the graph well formed. -/
theorem WF.writeVersion (h : WF g) {delta : DeltaOp V} {ts : Nat} {d : Data V k}
    (hw : WriteOk g txn k id c delta ts d) : WF (g.writeVersion txn k id c delta ts d) := by
  have hId := h.activeId txn hw.active
  have hStamp : ∀ ts', (g.writeVersion txn k id c delta ts d).Stamp ts' ↔ g.Stamp ts' := by
    intro ts'
    unfold Stamp
    rw [counters_writeVersion]
  have hInj : ∀ t ∈ g.txnManager.activeTxns, t.txnId = txn.txnId → t = txn :=
    fun t ht heq => h.activeInj t ht txn hw.active heq
  have hWrites : ∀ t ∈ g.txnManager.activeTxns, ∀ k', WritesOk t k'
      (((g.writeVersion txn k id c delta ts d).txns t.txnId).writes k') := by
    intro t ht k'
    have hSame := h.writesOk ht k'
    by_cases heq : t.txnId = txn.txnId
    · rw [heq] at hSame ⊢
      rw [txns_writeVersion_self]
      cases k' <;> exact hSame
    · rw [txns_writeVersion_of_ne heq]
      exact hSame
  -- the entity written is told apart from the others in every field about chains
  have hCase : ∀ {k' : Kind} {id' : Nat} {c' : VersionChain (Data V k') (DeltaOp V)}
      {motive : (k' : Kind) → Nat → VersionChain (Data V k') (DeltaOp V) → Prop},
      (g.writeVersion txn k id c delta ts d).chain k' id' = some c' →
      motive k id (c.push txn.txnId delta ts d) →
      (g.chain k' id' = some c' → motive k' id' c') → motive k' id' c' := by
    intro k' id' c' motive hc' hSelf hElse
    by_cases hEq : (k', id') = (k, id)
    · obtain ⟨rfl, rfl⟩ := Prod.mk.inj hEq
      rw [chain_writeVersion_self] at hc'
      obtain rfl := Option.some.inj hc'
      exact hSelf
    · rw [chain_writeVersion_of_ne hEq] at hc'
      exact hElse hc'
  constructor
  all_goals try simp only [txnManager_writeVersion, counters_writeVersion, hStamp]
  · exact h.threshold
  · exact h.tsBound
  · exact h.idBound
  · exact h.watermark
  · exact h.latest
  · exact h.activeId
  · exact h.activeStart
  · exact h.activeInj
  · intro i hi
    rw [txns_writeVersion_of_ne (by omega)]
    exact h.fresh i hi
  · intro k' id' c' hc'
    exact hCase (motive := fun _ i c => c.current.data.id = i) hc' hw.key (h.key k' id' c')
  · intro k' id' c' hc'
    exact hCase (motive := fun _ _ c => g.Stamp c.current.commitTs) hc' (.inr hId)
      (h.stamp k' id' c')
  · intro k' id' c' hc'
    refine hCase (motive := fun k i c => ∀ r ∈ c.undoPtr,
      g.Stamp r.timestamp ∧ r.owner < g.counters.2 ∧ r.delta.target = some (k, i)) hc' ?_
      (h.record k' id' c')
    intro r hr
    rcases List.mem_cons.mp hr with rfl | hr
    · exact ⟨hw.stamp, hId.2, hw.target⟩
    · exact (hw.ptr r hr).1
  · intro k' id' c' hc'
    refine hCase (motive := fun _ _ c => ∀ r ∈ c.undoPtr, ∀ t ∈ g.txnManager.activeTxns,
      r.owner = t.txnId → c.current.commitTs = t.txnId) hc' ?_ (h.recordOwner k' id' c')
    intro r hr t ht hOwner
    rcases List.mem_cons.mp hr with rfl | hr
    · exact hOwner
    · rw [(hw.ptr r hr).2 t ht hOwner]
      rfl
  · intro t ht k' id'
    by_cases hEq : (k', id') = (k, id)
    · obtain ⟨rfl, rfl⟩ := Prod.mk.inj hEq
      by_cases hTxn : t = txn
      · subst hTxn
        obtain ⟨base, hBy⟩ := hw.written
        refine .inr ⟨base, _, chain_writeVersion_self .., ?_⟩
        rw [entriesFor_writeVersion_self hw.target]
        exact hBy
      · refine .inl ⟨?_, ?_⟩
        · rw [entriesFor_writeVersion_of_ne hw.target fun heq => absurd (hInj t ht heq) hTxn]
          exact hw.others t ht hTxn
        · intro c' hc'
          rw [chain_writeVersion_self] at hc'
          obtain rfl := Option.some.inj hc'
          exact fun heq => hTxn (hInj t ht heq.symm)
    · exact (h.owned t ht k' id').congr (chain_writeVersion_of_ne hEq ..)
        (entriesFor_writeVersion_of_ne hw.target (fun _ => hEq) ..)
  · intro t ht
    by_cases heq : t.txnId = txn.txnId
    · rw [heq, txns_writeVersion_self]
      exact h.notCommitted txn hw.active
    · rw [txns_writeVersion_of_ne heq]
      exact h.notCommitted t ht
  · intro t ht hOpt
    by_cases heq : t.txnId = txn.txnId
    · rw [hInj t ht heq, hw.pess] at hOpt
      cases hOpt
    · rw [txns_writeVersion_of_ne heq]
      exact h.optUndo t ht hOpt
  · exact fun t ht hPess k' => (hWrites t ht k').pess hPess
  · exact fun t ht k' => (hWrites t ht k').nodup
  · exact fun t ht k' => (hWrites t ht k').key

theorem WrittenBy.next {base : Option (VersionChain (Data V k) (DeltaOp V))}
    {es : List (UndoEntry (DeltaOp V))} (h : WrittenBy txn k id base es c) {delta : DeltaOp V}
    {d : Data V k} (hUndo : delta.undo d = c.current.data) :
    WrittenBy txn k id base (es ++ [⟨delta, c.current.commitTs, c.undoPtr⟩])
      (c.push txn.txnId delta c.current.commitTs d) := by
  have hOwn := h.overlay.commitTs_eq
  rw [hOwn]
  refine ⟨h.overlay.next d delta hUndo, fun e he => ?_, fun e he => ?_⟩
  · rw [List.head?_append_of_ne_nil _ h.overlay.ne_nil] at he
    exact h.first e he
  · rcases List.mem_append.mp he with he | he
    · exact h.canWrite e he
    · rw [List.mem_singleton.mp he]
      exact .inl rfl

/-- The first write of a transaction over a head that it did not write. -/
theorem WF.writtenBy_first (h : WF g) (ht : txn ∈ g.txnManager.activeTxns)
    (hc : g.chain k id = some c) (hOwn : c.current.commitTs ≠ txn.txnId)
    (hw : txn.CanWrite c.current.commitTs) {delta : DeltaOp V} {d : Data V k}
    (hNotDel : delta ≠ .del k id) (hUndo : delta.undo d = c.current.data) :
    WrittenBy txn k id (some c) [⟨delta, c.current.commitTs, c.undoPtr⟩]
      (c.push txn.txnId delta c.current.commitTs d) := by
  refine ⟨.first c d delta hOwn
    (fun r hr hOwner => hOwn (h.recordOwner k id c hc r hr txn ht hOwner)) hUndo, ?_, ?_⟩
  · intro e he
    cases he
    exact hNotDel
  · intro e he
    rw [List.mem_singleton.mp he]
    exact hw

theorem writtenBy_create (txn : MemTransaction) (d : Data V k) :
    WrittenBy txn k id none [⟨.del k id, createMarker txn k, []⟩]
      ((⟨⟨d, txn.txnId⟩, []⟩ : VersionChain (Data V k) (DeltaOp V)).push txn.txnId (.del k id)
        (createMarker txn k) d) := by
  refine ⟨.create d _ _ fun d' => by simp [Gone], ?_, ?_⟩
  · intro e he
    cases he
    rfl
  · intro e he
    rw [List.mem_singleton.mp he]
    cases k with
    | vertex => exact .inr (Nat.zero_le _)
    | edge => exact .inl rfl

/-- A write over an existing head that the transaction may write. -/
theorem WF.writeOk (h : WF g) (ht : txn ∈ g.txnManager.activeTxns)
    (hPess : txn.lockStrategy = .pessimistic) (hc : g.chain k id = some c)
    (hw : txn.CanWrite c.current.commitTs) {delta : DeltaOp V} {d : Data V k}
    (hTarget : delta.target = some (k, id)) (hNotDel : delta ≠ .del k id) (hKey : d.id = id)
    (hUndo : delta.undo d = c.current.data) :
    WriteOk g txn k id c delta c.current.commitTs d where
  active := ht
  pess := hPess
  target := hTarget
  key := hKey
  stamp := h.stamp k id c hc
  ptr := by
    refine fun r hr => ⟨h.record k id c hc r hr, fun t ht' hOwner => ?_⟩
    by_contra hne
    exact h.canWrite_other ht ht' hne hw (h.recordOwner k id c hc r hr t ht' hOwner)
  written := by
    by_cases hOwn : c.current.commitTs = txn.txnId
    · obtain ⟨base, hBy⟩ := h.writtenBy ht hc hOwn
      exact ⟨base, hBy.next hUndo⟩
    · have hNil : g.entriesFor txn.txnId k id = [] := h.entriesFor_eq_nil ht fun c' hc' => by
        obtain rfl := Option.some.inj (hc.symm.trans hc')
        exact hOwn
      rw [hNil]
      exact ⟨some c, h.writtenBy_first ht hc hOwn hw hNotDel hUndo⟩
  others := by
    intro t ht' hne
    refine h.entriesFor_eq_nil ht' fun c' hc' => ?_
    obtain rfl := Option.some.inj (hc.symm.trans hc')
    exact h.canWrite_other ht ht' hne hw

theorem WF.writeOk_create (h : WF g) (ht : txn ∈ g.txnManager.activeTxns)
    (hPess : txn.lockStrategy = .pessimistic) {d : Data V k} (hc : g.chain k d.id = none) :
    WriteOk g txn k d.id ⟨⟨d, txn.txnId⟩, []⟩ (.del k d.id) (createMarker txn k) d where
  active := ht
  pess := hPess
  target := DeltaOp.target_del d.id
  key := rfl
  stamp := by
    have hPos := h.watermark
    cases k with
    | vertex => exact .inl (by simp only [createMarker]; omega)
    | edge => exact .inr (h.activeId txn ht)
  ptr := by simp
  written := by
    have hNil : g.entriesFor txn.txnId k d.id = [] :=
      h.entriesFor_eq_nil ht fun c' hc' => by simp [hc] at hc'
    rw [hNil]
    exact ⟨none, writtenBy_create txn d⟩
  others := by
    intro t ht' _
    exact h.entriesFor_eq_nil ht' fun c' hc' => by simp [hc] at hc'

theorem WF.pushRedo (h : WF g) (ht : txn ∈ g.txnManager.activeTxns) (delta : DeltaOp V) :
    WF (g.pushRedo txn delta) :=
  h.modifyTxn ht rfl rfl fun k => by cases k <;> exact h.writesOk ht _

/-! ## Staged writes -/

theorem snapshotWalk_id (live : Nat → Bool) (startTs ts : Nat) {d : Data V k}
    {ptr : UndoPtr (DeltaOp V)} (hPtr : ∀ r ∈ ptr, r.delta.target = some (k, id))
    (hId : d.id = id) : (snapshotWalk live startTs d ts ptr).1.id = id := by
  induction ptr generalizing d ts with
  | nil => exact hId
  | cons r rest ih =>
    have hNext := DeltaOp.id_undo (hPtr r (List.mem_cons_self ..)) hId
    unfold snapshotWalk
    split
    · split
      · exact hNext
      · exact ih _ (fun r' hr' => hPtr r' (List.mem_cons_of_mem _ hr')) hNext
    · exact hId

theorem WF.snapshotWithGuard_id (h : WF g) (hc : g.chain k id = some c) {before : Data V k}
    {guardTs : Nat} (hs : g.snapshotWithGuard txn c = .ok (before, guardTs)) :
    before.id = id := by
  have hId := h.key k id c hc
  unfold snapshotWithGuard at hs
  split at hs
  · cases hs
  · split at hs
    · split at hs
      · cases hs
      · cases hs
        exact hId
    · dsimp only at hs
      split at hs
      · cases hs
      · have hWalk := snapshotWalk_id g.upgradable txn.startTs c.current.commitTs
          (fun r hr => (h.record k id c hc r hr).2.2) hId
        injection hs with hs
        rw [hs] at hWalk
        exact hWalk

theorem WF.intentKey_of_stageOk (h : WF g) (ht : txn ∈ g.txnManager.activeTxns)
    {intent : WriteIntent (Data V k)} (hs : StageOk g txn k id intent) : IntentKey id intent := by
  have hLook : ∀ {i : WriteIntent (Data V k)}, (g.txns txn.txnId).lookupWrite k id = some i →
      IntentKey id i := fun hl =>
    h.intentKey txn ht k id _ ((lookup_eq_some_iff (h.writesNodup txn ht k)).mp hl)
  cases hs with
  | insert hId => exact hId
  | setInserted indices props hl => exact (Data.id_setProps ..).trans (hLook hl)
  | setUpdated indices props hl =>
    exact ⟨(hLook hl).1, (Data.id_setProps ..).trans (hLook hl).2⟩
  | set indices props _ hc hs =>
    have hId := h.snapshotWithGuard_id hc hs
    exact ⟨hId, (Data.id_setProps ..).trans hId⟩
  | deleteInserted hl =>
    have hIns := hLook hl
    exact hIns
  | deleteUpdated hl => exact (hLook hl).1
  | delete _ hc hs => exact h.snapshotWithGuard_id hc hs

theorem writes_stage_self (txn : MemTransaction) (id : Nat) (intent : WriteIntent (Data V k)) :
    ((g.stage txn k id intent).txns txn.txnId).writes k =
      assocInsert id intent ((g.txns txn.txnId).writes k) := by
  unfold stage
  rw [txns_modifyTxn_self]
  cases k <;> rfl

theorem writes_stage_of_ne {k' : Kind} (hne : k' ≠ k) (txn : MemTransaction) (id : Nat)
    (intent : WriteIntent (Data V k)) :
    ((g.stage txn k id intent).txns txn.txnId).writes k' = (g.txns txn.txnId).writes k' := by
  unfold stage
  rw [txns_modifyTxn_self]
  cases k <;> cases k' <;> first | rfl | exact absurd rfl hne

theorem WF.stage (h : WF g) (ht : txn ∈ g.txnManager.activeTxns)
    (hOpt : txn.lockStrategy = .optimistic) {intent : WriteIntent (Data V k)}
    (hs : StageOk g txn k id intent) : WF (g.stage txn k id intent) := by
  refine h.modifyTxn ht (by cases k <;> rfl) (by cases k <;> rfl) fun k' => ?_
  have hOld := h.writesOk ht k'
  have hSelf := writes_stage_self (g := g) txn id intent
  by_cases hk : k' = k
  · subst hk
    unfold MemoryGraph.stage at hSelf
    rw [txns_modifyTxn_self] at hSelf
    rw [hSelf]
    have hNot : txn.lockStrategy ≠ .pessimistic := by simp [hOpt]
    refine ⟨fun hPess => absurd hPess hNot, nodup_keys_assocInsert hOld.nodup ..,
      fun id' intent' hMem => ?_⟩
    rw [← lookup_eq_some_iff (nodup_keys_assocInsert hOld.nodup ..), lookup_assocInsert] at hMem
    split at hMem
    · rename_i hId
      cases hMem
      rw [hId]
      exact h.intentKey_of_stageOk ht hs
    · exact hOld.key id' intent' ((lookup_eq_some_iff hOld.nodup).mp hMem)
  · have hElse := writes_stage_of_ne (g := g) hk txn id intent
    unfold MemoryGraph.stage at hElse
    rw [txns_modifyTxn_self] at hElse
    rw [hElse]
    exact hOld

theorem OpStep.txnManager (h : OpStep txn g g') : g'.txnManager = g.txnManager := by
  cases h with
  | create d => simp [createVersion, pushRedo, (SameButAdjacency.linkAdjacency d).txnManager]
  | delete => simp [deleteVersion, pushRedo]
  | set => simp [setVersion, pushRedo]
  | _ => rfl

theorem OpStep.counters (h : OpStep txn g g') : g'.counters = g.counters := by
  cases h with
  | create d => simp [createVersion, pushRedo, (SameButAdjacency.linkAdjacency d).counters]
  | delete => simp [deleteVersion, pushRedo]
  | set => simp [setVersion, pushRedo]
  | _ => rfl

theorem counters_opSteps (h : OpSteps txn g g') : g'.counters = g.counters := by
  induction h with
  | refl => rfl
  | tail _ hStep ih => exact hStep.counters.trans ih

/-- **The operations of an active transaction keep a graph well formed**: one step. -/
theorem WF.opStep (h : WF g) (ht : txn ∈ g.txnManager.activeTxns) (hs : OpStep txn g g') :
    WF g' := by
  cases hs with
  | note k id =>
    exact h.modifyTxn ht (TxnState.undoBuffer_insertRead ..) (by cases k <;> rfl)
      fun k' => by cases k <;> cases k' <;> exact h.writesOk ht _
  | create d hPess hc =>
    refine WF.pushRedo ((h.writeVersion (h.writeOk_create ht hPess hc)).adjacency
      (.linkAdjacency d)) ?_ _
    rw [(SameButAdjacency.linkAdjacency d).txnManager, txnManager_writeVersion]
    exact ht
  | @delete k id c hPess hc hw =>
    refine WF.pushRedo (h.writeVersion (h.writeOk ht hPess hc hw ?_ ?_ ?_ ?_)) (by simpa using ht) _
    · rw [DeltaOp.target_create, h.key k id c hc]
    · exact DeltaOp.create_ne_del _ _
    · rw [Data.id_tombstone, h.key k id c hc]
    · exact DeltaOp.undo_create ..
  | @set k id c indices old props hPess hc hw hOld =>
    refine WF.pushRedo (h.writeVersion (h.writeOk ht hPess hc hw ?_ ?_ ?_ ?_)) (by simpa using ht) _
    · exact DeltaOp.target_setProps ..
    · exact DeltaOp.setProps_ne_del _ _ _
    · rw [Data.id_setProps, h.key k id c hc]
    · rw [DeltaOp.undo_setProps, Data.setProps_old hOld]
  | stage hOpt hs => exact h.stage ht hOpt hs
  | redo delta hOpt => exact h.pushRedo ht delta

theorem WF.opSteps (h : WF g) (ht : txn ∈ g.txnManager.activeTxns) (hs : OpSteps txn g g') :
    WF g' ∧ g'.txnManager = g.txnManager := by
  induction hs with
  | refl => exact ⟨h, rfl⟩
  | tail _ hStep ih =>
    obtain ⟨hwf, hMgr⟩ := ih
    exact ⟨hwf.opStep (by rw [hMgr]; exact ht) hStep, hStep.txnManager.trans hMgr⟩

/-! ## The effect of one step, component by component -/

/-- An atomic write stages at most one intent, for its own transaction. -/
theorem lookupWrite_opStep (hs : OpStep txn g g') (t : Nat) (k : Kind) (id : Nat) :
    (g'.txns t).lookupWrite k id = (g.txns t).lookupWrite k id ∨
      ∃ intent, t = txn.txnId ∧ StageOk g txn k id intent ∧
        (g'.txns t).lookupWrite k id = some intent := by
  have hSame : ∀ {f : TxnState V → TxnState V} {h : MemoryGraph V},
      (∀ s, (f s).lookupWrite k id = s.lookupWrite k id) →
      ((h.modifyTxn txn.txnId f).txns t).lookupWrite k id = (h.txns t).lookupWrite k id := by
    intro f h hf
    by_cases ht : t = txn.txnId
    · subst ht
      rw [txns_modifyTxn_self, hf]
    · rw [txns_modifyTxn_of_ne _ _ ht]
  have hPush : ∀ {h : MemoryGraph V} (delta : DeltaOp V),
      ((h.pushRedo txn delta).txns t).lookupWrite k id = (h.txns t).lookupWrite k id :=
    fun delta => hSame fun s => by cases k <;> rfl
  have hWrite : ∀ {k' : Kind} {i : Nat} {c : VersionChain (Data V k') (DeltaOp V)}
      (delta : DeltaOp V) (ts : Nat) (d : Data V k'),
      ((g.writeVersion txn k' i c delta ts d).txns t).lookupWrite k id =
        (g.txns t).lookupWrite k id := by
    intro k' i c delta ts d
    by_cases ht : t = txn.txnId
    · subst ht
      rw [txns_writeVersion_self]
      cases k <;> rfl
    · rw [txns_writeVersion_of_ne ht]
  cases hs with
  | note k' id' => exact .inl (hSame fun s => TxnState.lookupWrite_insertRead ..)
  | create d =>
    left
    unfold createVersion
    rw [hPush, (SameButAdjacency.linkAdjacency d).txns, hWrite]
  | delete =>
    left
    unfold deleteVersion
    rw [hPush, hWrite]
  | set =>
    left
    unfold setVersion
    rw [hPush, hWrite]
  | @stage k' id' intent _ hStage =>
    by_cases ht : t = txn.txnId
    · subst ht
      by_cases hk : k = k'
      · subst hk
        have hLook : ((g.stage txn k id' intent).txns txn.txnId).lookupWrite k id =
            if id = id' then some intent else (g.txns txn.txnId).lookupWrite k id := by
          unfold TxnState.lookupWrite
          rw [writes_stage_self, lookup_assocInsert]
        by_cases hi : id = id'
        · subst hi
          exact .inr ⟨intent, rfl, hStage, by rw [hLook, if_pos rfl]⟩
        · exact .inl (by rw [hLook, if_neg hi])
      · left
        unfold TxnState.lookupWrite
        rw [writes_stage_of_ne hk]
    · left
      unfold stage
      rw [txns_modifyTxn_of_ne _ _ ht]
  | redo delta => exact .inl (hPush delta)

theorem commitTs_modifyTxn {f : TxnState V → TxnState V} (hf : ∀ s, (f s).commitTs = s.commitTs)
    (u t : Nat) : ((g.modifyTxn u f).txns t).commitTs = (g.txns t).commitTs := by
  by_cases ht : t = u
  · subst ht
    rw [txns_modifyTxn_self, hf]
  · rw [txns_modifyTxn_of_ne _ _ ht]

/-- An operation commits nobody. -/
theorem commitTs_opStep (hs : OpStep txn g g') (t : Nat) :
    (g'.txns t).commitTs = (g.txns t).commitTs := by
  have hPush : ∀ (h : MemoryGraph V) (delta : DeltaOp V),
      ((h.pushRedo txn delta).txns t).commitTs = (h.txns t).commitTs := by
    intro h delta
    refine commitTs_modifyTxn (f := fun s => { s with redoBuffer := _ }) ?_ _ _
    exact fun s => rfl
  have hWrite : ∀ {k' : Kind} {i : Nat} {c : VersionChain (Data V k') (DeltaOp V)}
      (delta : DeltaOp V) (ts : Nat) (d : Data V k'),
      ((g.writeVersion txn k' i c delta ts d).txns t).commitTs = (g.txns t).commitTs := by
    intro k' i c delta ts d
    by_cases ht : t = txn.txnId
    · subst ht
      rw [txns_writeVersion_self]
    · rw [txns_writeVersion_of_ne ht]
  cases hs with
  | note k' id' => exact commitTs_modifyTxn (fun s => by cases k' <;> rfl) ..
  | create d =>
    unfold createVersion
    rw [hPush, (SameButAdjacency.linkAdjacency d).txns, hWrite]
  | delete =>
    unfold deleteVersion
    rw [hPush, hWrite]
  | set =>
    unfold setVersion
    rw [hPush, hWrite]
  | @stage k' id' intent => exact commitTs_modifyTxn (fun s => by cases k' <;> rfl) ..
  | redo delta => exact hPush ..

theorem undoBuffer_pushRedo (delta : DeltaOp V) (t : Nat) :
    ((g.pushRedo txn delta).txns t).undoBuffer = (g.txns t).undoBuffer := by
  by_cases ht : t = txn.txnId
  · subst ht
    unfold pushRedo
    rw [txns_modifyTxn_self]
  · exact congrArg _ (txns_modifyTxn_of_ne g _ ht)

/-- The deltas in the redo buffer of a transaction. -/
def redoDeltas (g : MemoryGraph V) (t : Nat) : List (DeltaOp V) :=
  (g.txns t).redoBuffer.filterMap fun e =>
    match e.op with
    | .delta op => some op
    | _ => none

theorem redoDeltas_of_redoBuffer {t : Nat}
    (h : (g'.txns t).redoBuffer = (g.txns t).redoBuffer) : g'.redoDeltas t = g.redoDeltas t := by
  unfold redoDeltas
  rw [h]

theorem redoDeltas_pushRedo (delta : DeltaOp V) :
    (g.pushRedo txn delta).redoDeltas txn.txnId = g.redoDeltas txn.txnId ++ [delta] := by
  unfold redoDeltas pushRedo
  rw [txns_modifyTxn_self, List.filterMap_append]
  rfl

/-- What an in-place write makes of the data `d₀`, with the delta that undoes it and the
delta that is logged for it. -/
inductive Edits (k : Kind) (id : Nat) (d₀ : Data V k) :
    DeltaOp V → DeltaOp V → Data V k → Prop where
  | delete : Edits k id d₀ (.create d₀) (.del k id) d₀.tombstone
  | set {indices : List Nat} {old : List V} (props : List V)
      (hOld : indices.mapM (fun i => d₀.properties[i]?) = some old) :
      Edits k id d₀ (.setProps k id ⟨indices, old⟩) (.setProps k id ⟨indices, props⟩)
        (d₀.setProps indices props)

theorem Edits.eqs {d₀ d : Data V k} {delta redo : DeltaOp V} (h : Edits k id d₀ delta redo d) :
    (delta = .create d₀ ∧ redo = .del k id ∧ d = d₀.tombstone) ∨ ∃ indices old props,
      delta = .setProps k id ⟨indices, old⟩ ∧ redo = .setProps k id ⟨indices, props⟩ ∧
      d = d₀.setProps indices props ∧
      indices.mapM (fun i => d₀.properties[i]?) = some old := by
  cases h with
  | delete => exact .inl ⟨rfl, rfl, rfl⟩
  | set props hOld => exact .inr ⟨_, _, props, rfl, rfl, rfl, hOld⟩

theorem Edits.undo {d₀ d : Data V k} {delta redo : DeltaOp V} (h : Edits k id d₀ delta redo d) :
    delta.undo d = d₀ := by
  cases h with
  | delete => exact DeltaOp.undo_create ..
  | set props hOld => rw [DeltaOp.undo_setProps, Data.setProps_old hOld]

/-- The chain written over, what is written and what is logged: one that exists and may be
written, or one that does not exist yet. -/
inductive WritesOver (g : MemoryGraph V) (txn : MemTransaction) (k : Kind) (id : Nat) :
    VersionChain (Data V k) (DeltaOp V) → DeltaOp V → Nat → DeltaOp V → Data V k → Prop where
  | old {c : VersionChain (Data V k) (DeltaOp V)} {delta redo : DeltaOp V} {d : Data V k}
      (hc : g.chain k id = some c) (hw : txn.CanWrite c.current.commitTs)
      (hEdit : Edits k id c.current.data delta redo d) :
      WritesOver g txn k id c delta c.current.commitTs redo d
  | new {d : Data V k} (hId : d.id = id) (hc : g.chain k id = none) :
      WritesOver g txn k id ⟨⟨d, txn.txnId⟩, []⟩ (.del k id) (createMarker txn k) (.create d) d

/-- What one step does to the chains, the undo buffers and the log of the transaction:
one write, or nothing (an optimistic transaction may still log). -/
inductive ChainStep (txn : MemTransaction) (g g' : MemoryGraph V) : Prop where
  | quiet (hChain : g'.chain = g.chain)
      (hUndo : ∀ t, (g'.txns t).undoBuffer = (g.txns t).undoBuffer)
      (hRedo : txn.lockStrategy = .pessimistic →
        g'.redoDeltas txn.txnId = g.redoDeltas txn.txnId)
  | write {k : Kind} {id : Nat} {c : VersionChain (Data V k) (DeltaOp V)} {delta : DeltaOp V}
      {ts : Nat} {redo : DeltaOp V} {d : Data V k} (hOk : WriteOk g txn k id c delta ts d)
      (hOver : WritesOver g txn k id c delta ts redo d)
      (hChain : g'.chain = (g.writeVersion txn k id c delta ts d).chain)
      (hUndo : ∀ t, (g'.txns t).undoBuffer =
        ((g.writeVersion txn k id c delta ts d).txns t).undoBuffer)
      (hRedo : g'.redoDeltas txn.txnId = g.redoDeltas txn.txnId ++ [redo])

theorem redoDeltas_writeVersion (delta : DeltaOp V) (ts : Nat) (d : Data V k) :
    (g.writeVersion txn k id c delta ts d).redoDeltas txn.txnId = g.redoDeltas txn.txnId :=
  redoDeltas_of_redoBuffer (by rw [txns_writeVersion_self])

/-- An atomic write writes one version, or leaves the chains alone. -/
theorem WF.chainStep (h : WF g) (ht : txn ∈ g.txnManager.activeTxns) (hs : OpStep txn g g') :
    ChainStep txn g g' := by
  have hQuiet : ∀ {f : TxnState V → TxnState V},
      (f (g.txns txn.txnId)).undoBuffer = (g.txns txn.txnId).undoBuffer →
      (f (g.txns txn.txnId)).redoBuffer = (g.txns txn.txnId).redoBuffer →
      ChainStep txn g (g.modifyTxn txn.txnId f) := by
    intro f hf hf'
    refine .quiet (by simp) (fun t => ?_) fun _ => redoDeltas_of_redoBuffer ?_
    · by_cases ht : t = txn.txnId
      · subst ht
        rw [txns_modifyTxn_self, hf]
      · rw [txns_modifyTxn_of_ne _ _ ht]
    · rw [txns_modifyTxn_self, hf']
  have hRedo : ∀ (h : MemoryGraph V) (delta : DeltaOp V), (h.pushRedo txn delta).chain = h.chain :=
    fun h delta => chain_modifyTxn h _ _
  cases hs with
  | note k id => exact hQuiet (TxnState.undoBuffer_insertRead ..) (by cases k <;> rfl)
  | create d hPess hc =>
    refine .write (h.writeOk_create ht hPess hc) (.new rfl hc) ?_ (fun t => ?_) ?_
    · unfold createVersion
      rw [hRedo, (SameButAdjacency.linkAdjacency d).chain]
    · unfold createVersion
      rw [undoBuffer_pushRedo, (SameButAdjacency.linkAdjacency d).txns]
    · refine (redoDeltas_pushRedo _).trans (congrArg (· ++ _) ?_)
      exact (redoDeltas_of_redoBuffer (by rw [(SameButAdjacency.linkAdjacency d).txns])).trans
        (redoDeltas_writeVersion ..)
  | @delete k id c hPess hc hw =>
    have hEdit : Edits k id c.current.data _ _ _ := .delete
    refine .write (h.writeOk ht hPess hc hw ?_ (DeltaOp.create_ne_del _ _) ?_ hEdit.undo)
      (.old hc hw hEdit) (hRedo ..) (undoBuffer_pushRedo _)
      ((redoDeltas_pushRedo _).trans (congrArg (· ++ _) (redoDeltas_writeVersion ..)))
    · rw [DeltaOp.target_create, h.key k id c hc]
    · rw [Data.id_tombstone, h.key k id c hc]
  | @set k id c indices old props hPess hc hw hOld =>
    have hEdit : Edits k id c.current.data _ _ _ := .set props hOld
    refine .write (h.writeOk ht hPess hc hw ?_ (DeltaOp.setProps_ne_del _ _ _) ?_ hEdit.undo)
      (.old hc hw hEdit) (hRedo ..) (undoBuffer_pushRedo _)
      ((redoDeltas_pushRedo _).trans (congrArg (· ++ _) (redoDeltas_writeVersion ..)))
    · exact DeltaOp.target_setProps ..
    · rw [Data.id_setProps, h.key k id c hc]
  | @stage k id intent _ _ => exact hQuiet (by cases k <;> rfl) (by cases k <;> rfl)
  | redo delta hOpt =>
    exact .quiet (hRedo ..) (undoBuffer_pushRedo delta) fun hPess => by simp [hPess] at hOpt

theorem entriesFor_of_undoBuffer {h h' : MemoryGraph V} {t : Nat}
    (hUndo : (h.txns t).undoBuffer = (h'.txns t).undoBuffer) (k : Kind) (id : Nat) :
    h.entriesFor t k id = h'.entriesFor t k id := by
  unfold entriesFor
  rw [hUndo]

/-- The undo entries of a transaction for one entity only grow while it runs. -/
theorem entriesFor_opStep (hwf : WF g) (ht : txn ∈ g.txnManager.activeTxns)
    (hs : OpStep txn g g') (k : Kind) (id : Nat) :
    ∃ l, g'.entriesFor txn.txnId k id = g.entriesFor txn.txnId k id ++ l := by
  cases hwf.chainStep ht hs with
  | quiet hChain hUndo =>
    exact ⟨[], by rw [entriesFor_of_undoBuffer (hUndo txn.txnId), List.append_nil]⟩
  | @write k' id' c delta ts redo d hOk hOver hChain hUndo =>
    rw [entriesFor_of_undoBuffer (hUndo txn.txnId)]
    by_cases hEq : (k, id) = (k', id')
    · obtain ⟨rfl, rfl⟩ := Prod.mk.inj hEq
      exact ⟨_, entriesFor_writeVersion_self hOk.target ts d⟩
    · exact ⟨[], by rw [entriesFor_writeVersion_of_ne hOk.target (fun _ => hEq), List.append_nil]⟩

/-- The operations of a transaction leave the buffers of the others alone. -/
theorem OpStep.txns_of_ne (hs : OpStep txn g g') {t : Nat} (ht : t ≠ txn.txnId) :
    g'.txns t = g.txns t := by
  cases hs with
  | note k' id' => exact txns_modifyTxn_of_ne g _ ht
  | create d =>
    unfold createVersion pushRedo
    rw [txns_modifyTxn_of_ne _ _ ht, (SameButAdjacency.linkAdjacency d).txns,
      txns_writeVersion_of_ne ht]
  | delete =>
    unfold deleteVersion pushRedo
    rw [txns_modifyTxn_of_ne _ _ ht, txns_writeVersion_of_ne ht]
  | set =>
    unfold setVersion pushRedo
    rw [txns_modifyTxn_of_ne _ _ ht, txns_writeVersion_of_ne ht]
  | stage => exact txns_modifyTxn_of_ne g _ ht
  | redo delta => exact txns_modifyTxn_of_ne g _ ht

/-- Among the operations only the creation of an edge, in place, changes the adjacency
lists. -/
theorem adjacencyList_opStep (hs : OpStep txn g g') : g'.adjacencyList = g.adjacencyList ∨
    ∃ edge : Edge V, g.edges edge.eid = none ∧
      g'.adjacencyList = (g.insertAdjacency edge).adjacencyList ∧
      g'.edges = Function.update g.edges edge.eid
        (some ⟨⟨edge, txn.txnId⟩, [⟨txn.txnId, .delEdge edge.eid, txn.txnId⟩]⟩) ∧
      g'.entriesFor txn.txnId .edge edge.eid = g.entriesFor txn.txnId .edge edge.eid ++
        [⟨.delEdge edge.eid, txn.txnId, []⟩] := by
  have hWrite : ∀ {k : Kind} {id : Nat} {c : VersionChain (Data V k) (DeltaOp V)}
      (delta : DeltaOp V) (ts : Nat) (d : Data V k),
      (g.writeVersion txn k id c delta ts d).adjacencyList = g.adjacencyList := by
    intro k id c delta ts d
    unfold writeVersion
    rw [adjacencyList_setChain]
    rfl
  cases hs with
  | note => exact .inl rfl
  | @create k d hPess hc =>
    cases k with
    | vertex => exact .inl (hWrite ..)
    | edge =>
      refine .inr ⟨d, hc, rfl, rfl, ?_⟩
      have hSelf : (g.writeVersion txn .edge (Edge.eid d) ⟨⟨d, txn.txnId⟩, []⟩
          (.delEdge (Edge.eid d)) txn.txnId d).entriesFor txn.txnId .edge (Edge.eid d) = _ :=
        entriesFor_writeVersion_self rfl txn.txnId d
      refine Eq.trans (entriesFor_of_undoBuffer ?_ .edge _) hSelf
      unfold createVersion
      rw [undoBuffer_pushRedo, (SameButAdjacency.linkAdjacency (k := .edge) d).txns]
      rfl
  | delete => exact .inl (hWrite ..)
  | set => exact .inl (hWrite ..)
  | stage => exact .inl rfl
  | redo => exact .inl rfl

end MemoryGraph

end MiniGU
