import MiniGU.Invariant.WellFormed

/-!
# What the begin and the end of a transaction can do

`commit_cases` and `abort_eq` say once what the two ways to end a transaction do: the
entities written are stamped (pessimistic) or get their intents applied (optimistic),
or the undo buffer is rolled back; then the transaction leaves the manager. The effect
on each chain is a function of the chain alone (`chain_undoAll`, `chain_publishAll`,
`chain_applyIntents`).
-/

namespace MiniGU

variable {V : Type}

/-! ## Generators -/

/-- What a generator hands out is below its counter from then on. -/
theorem GlobalTimestampGenerator.obtain_ok {gen gen' : GlobalTimestampGenerator}
    {ts? : Option Nat} {ts : Nat} (h : gen.obtain ts? = .ok (ts, gen'))
    (hMax : gen.counter ≤ Timestamp.maxCommitTs) :
    ts < gen'.counter ∧ gen.counter ≤ gen'.counter ∧ gen'.counter ≤ Timestamp.maxCommitTs ∧
      (ts? = none → ts = gen.counter) := by
  cases ts? with
  | none =>
    simp only [obtain, next] at h
    split at h
    · cases h
    · cases h
      dsimp only
      refine ⟨?_, ?_, ?_, fun _ => rfl⟩ <;> omega
  | some t =>
    simp only [obtain, updateIfGreater] at h
    split at h
    · cases h
    · split at h
      · cases h
      · cases h
        dsimp only
        refine ⟨?_, ?_, ?_, by simp⟩ <;> omega

theorem GlobalTimestampGenerator.obtain_lt {gen gen' : GlobalTimestampGenerator}
    {ts? : Option Nat} {ts : Nat} (h : gen.obtain ts? = .ok (ts, gen')) :
    ts < gen'.counter ∧ gen.counter ≤ gen'.counter := by
  cases ts? with
  | none =>
    simp only [obtain, next] at h
    split at h
    · cases h
    · cases h
      exact ⟨Nat.lt_succ_self _, Nat.le_succ _⟩
  | some t =>
    simp only [obtain, updateIfGreater] at h
    split at h
    · cases h
    · split at h
      · cases h
      · cases h
        exact ⟨by dsimp only; omega, Nat.le_max_left ..⟩

theorem TransactionIdGenerator.obtain_none {gen gen' : TransactionIdGenerator} {id : Nat}
    (h : gen.obtain none = .ok (id, gen')) : id = gen.counter ∧ gen'.counter = gen.counter + 1 := by
  simp only [obtain, next] at h
  split at h
  · cases h
  · cases h
    exact ⟨rfl, rfl⟩

namespace MemoryGraph

variable {g g' : MemoryGraph V} {txn : MemTransaction} {k : Kind} {id : Nat}
  {c : VersionChain (Data V k) (DeltaOp V)}

/-! ## Begin -/

/-- The graph after a begin, the log apart. -/
def begun (g : MemoryGraph V) (txn : MemTransaction) (idGen : TransactionIdGenerator)
    (tsGen : GlobalTimestampGenerator) : MemoryGraph V :=
  ({ g with transactionIdGenerator := idGen, timestampGenerator := tsGen }.modifyTxn txn.txnId
    fun _ => .new).withManager (g.txnManager.insertActive txn).updateWatermark

/-- A begin either fails, having drawn at most an id, or makes a transaction with the
next id and a start timestamp below the counter. -/
theorem begin_cases [DecidableEq V] {startTs : Option Nat} {iso : IsolationLevel}
    {lock : LockStrategy} {r : Except StorageError Unit}
    (h : g.exec (.begin startTs iso lock) = (g', r)) :
    g' = g ∨
    (∃ idGen, idGen.counter = g.counters.2 + 1 ∧ g' = { g with transactionIdGenerator := idGen }) ∨
    ∃ s idGen tsGen, idGen.counter = g.counters.2 + 1 ∧
      g.timestampGenerator.obtain startTs = .ok (s, tsGen) ∧
      g' = (g.begun ⟨g.counters.2, s, iso, lock⟩ idGen tsGen).appendWal
        ⟨g.counters.2, s, iso, lock⟩ (.beginTransaction s) := by
  simp only [exec, Outcome.void, beginTransactionAt] at h
  split at h
  · simp only [Prod.mk.injEq] at h
    exact .inl h.1.symm
  · rename_i txnId idGen hId
    obtain ⟨rfl, hCounter⟩ := TransactionIdGenerator.obtain_none hId
    split at h
    · simp only [Prod.mk.injEq] at h
      exact .inr (.inl ⟨idGen, hCounter, h.1.symm⟩)
    · rename_i s tsGen hTs
      simp only [Prod.mk.injEq, Bool.false_eq_true, if_false] at h
      exact .inr (.inr ⟨s, idGen, tsGen, hCounter, hTs, h.1.symm⟩)

theorem beginTransactionAt_ok {startTs : Option Nat} {iso : IsolationLevel} {lock : LockStrategy}
    (h : g.beginTransactionAt none startTs iso lock false = (g', .ok txn)) :
    ∃ idGen tsGen, txn.txnId = g.counters.2 ∧ txn.isolationLevel = iso ∧ txn.lockStrategy = lock ∧
      idGen.counter = g.counters.2 + 1 ∧
      g.timestampGenerator.obtain startTs = .ok (txn.startTs, tsGen) ∧
      g' = (g.begun txn idGen tsGen).appendWal txn (.beginTransaction txn.startTs) := by
  unfold beginTransactionAt at h
  split at h
  · cases (Prod.mk.inj h).2
  · rename_i txnId idGen hId
    obtain ⟨rfl, hCounter⟩ := TransactionIdGenerator.obtain_none hId
    dsimp only at h
    split at h
    · cases (Prod.mk.inj h).2
    · rename_i s tsGen hTs
      obtain ⟨hg, hTxn⟩ := Prod.mk.inj h
      cases hTxn
      exact ⟨idGen, tsGen, rfl, rfl, rfl, hCounter, hTs, hg.symm⟩

/-! ## The end of a transaction -/

/-- What follows the rollback in `abort_at`. -/
def abortEnd (g : MemoryGraph V) (txn : MemTransaction) : MemoryGraph V :=
  (((g.appendWal txn .abortTransaction).clearWrites txn).retire txn).markHandled txn

/-- What follows the publication in `commit_at`. -/
def commitEnd (g : MemoryGraph V) (txn : MemTransaction) (commitTs : Nat) : MemoryGraph V :=
  ((((g.flushRedoAndCommitWal txn commitTs).setLatestCommitTs commitTs).clearWrites txn).retire
    txn).markHandled txn

theorem finishTransaction_eq (ht : txn ∈ g.txnManager.activeTxns)
    (hGc : g.txnManager.gcThreshold = none) :
    g.finishTransaction txn = (g.retire txn, .ok ()) := by
  have hAny : (g.txnManager.activeTxns.any fun t => t.txnId == txn.txnId) = true :=
    List.any_eq_true.mpr ⟨txn, ht, by simp⟩
  have hThreshold : (g.retire txn).txnManager.gcThreshold = none := by
    unfold retire
    cases (g.txns txn.txnId).commitTs <;> exact hGc
  unfold finishTransaction collectAtThreshold
  rw [if_pos hAny, hThreshold]

/-! ### Rollback -/

theorem sameButStore_abortEntry (txn : MemTransaction) (e : UndoEntry (DeltaOp V)) :
    SameButStore g (abortEntry txn g e) ∧ (abortEntry txn g e).adjacencyList = g.adjacencyList := by
  unfold abortEntry
  split
  · exact ⟨⟨rfl, rfl, rfl⟩, rfl⟩
  · split
    · exact ⟨⟨rfl, rfl, rfl⟩, rfl⟩
    · split
      · exact ⟨SameButStore.setChain .., by simp⟩
      · exact ⟨⟨rfl, rfl, rfl⟩, rfl⟩

theorem sameButStore_foldl_abortEntry (txn : MemTransaction) (l : List (UndoEntry (DeltaOp V))) :
    SameButStore g (l.foldl (abortEntry txn) g) ∧
      (l.foldl (abortEntry txn) g).adjacencyList = g.adjacencyList := by
  induction l generalizing g with
  | nil => exact ⟨⟨rfl, rfl, rfl⟩, rfl⟩
  | cons e l ih =>
    obtain ⟨hHead, hAdj⟩ := sameButStore_abortEntry (g := g) txn e
    obtain ⟨hRest, hAdj'⟩ := ih (g := abortEntry txn g e)
    exact ⟨hHead.trans hRest, hAdj'.trans hAdj⟩

theorem chain_abortEntry (e : UndoEntry (DeltaOp V)) (k : Kind) (id : Nat) :
    (abortEntry txn g e).chain k id =
      if e.delta.target = some (k, id) then
        (g.chain k id).map fun c => restoreEntry DeltaOp.restore txn.txnId c e
      else g.chain k id := by
  unfold abortEntry
  split
  · rename_i hNone
    simp [hNone]
  · rename_i k' id' hSome
    rw [hSome]
    by_cases hEq : (k', id') = (k, id)
    · obtain ⟨rfl, rfl⟩ := Prod.mk.inj hEq
      rw [if_pos rfl]
      split
      · rename_i hc
        simp [hc]
      · rename_i c hc
        rw [hc, Option.map_some]
        unfold restoreEntry
        split
        · simp
        · exact hc
    · rw [if_neg fun h => hEq (Option.some.inj h)]
      split
      · rfl
      · split
        · exact chain_setChain_of_ne g _ (Ne.symm hEq)
        · rfl

theorem chain_foldl_abortEntry (l : List (UndoEntry (DeltaOp V))) (k : Kind) (id : Nat) :
    (l.foldl (abortEntry txn) g).chain k id = (g.chain k id).map fun c =>
      (l.filter fun e => decide (e.delta.target = some (k, id))).foldl
        (restoreEntry DeltaOp.restore txn.txnId) c := by
  induction l generalizing g with
  | nil => simp
  | cons e l ih =>
    rw [List.foldl_cons, ih, chain_abortEntry]
    by_cases he : e.delta.target = some (k, id)
    · rw [if_pos he, Option.map_map, List.filter_cons_of_pos (by simpa using he)]
      rfl
    · rw [if_neg he, List.filter_cons_of_neg (by simpa using he)]

/-- **The effect of a rollback on each chain.** -/
theorem chain_undoAll (k : Kind) (id : Nat) :
    (g.undoAll txn).chain k id = (g.chain k id).map fun c =>
      (g.entriesFor txn.txnId k id).foldl (restoreEntry DeltaOp.restore txn.txnId) c := by
  unfold undoAll
  rw [chain_foldl_abortEntry, chain_modifyTxn]
  rfl

theorem sameButStore_undoAll (g : MemoryGraph V) (txn : MemTransaction) : SameButStore
    (g.modifyTxn txn.txnId fun s => { s with undoBuffer := [] }) (g.undoAll txn) :=
  (sameButStore_foldl_abortEntry _ _).1

theorem txnManager_undoAll : (g.undoAll txn).txnManager = g.txnManager :=
  (sameButStore_undoAll g txn).txnManager

/-- **An abort rolls back and leaves.** -/
theorem abort_eq (hGc : g.txnManager.gcThreshold = none)
    (ht : txn ∈ g.txnManager.activeTxns) :
    g.abortAt txn false = ((g.undoAll txn).abortEnd txn, .ok ()) := by
  unfold abortAt
  simp only [Bool.false_eq_true, if_false]
  rw [finishTransaction_eq]
  · rfl
  · show txn ∈ (g.undoAll txn).txnManager.activeTxns
    rw [txnManager_undoAll]
    exact ht
  · show (g.undoAll txn).txnManager.gcThreshold = none
    rw [txnManager_undoAll]
    exact hGc

/-! ### Pessimistic publication -/

theorem publish_some {commitTs : Nat} {delta : DeltaOp V}
    (h : g.publish commitTs delta = some g') :
    ∃ k id c, delta.target = some (k, id) ∧ g.chain k id = some c ∧
      g' = g.setChain k id (some (c.stamp commitTs)) := by
  unfold publish at h
  split at h
  · cases h
  · rename_i k id hTarget
    obtain ⟨c, hc, rfl⟩ := Option.map_eq_some_iff.mp h
    exact ⟨k, id, c, hTarget, hc, rfl⟩

/-- **The effect of publication on each chain**: the targets are stamped. -/
theorem publishAll_ok {commitTs : Nat} {deltas : List (DeltaOp V)} {u : Unit}
    (h : publishAll commitTs g deltas = (g', .ok u)) :
    SameButStore g g' ∧ g'.adjacencyList = g.adjacencyList ∧
    (∀ δ ∈ deltas, ∃ k id, δ.target = some (k, id)) ∧
    ∀ k id, g'.chain k id = if some (k, id) ∈ deltas.map DeltaOp.target then
      (g.chain k id).map (VersionChain.stamp commitTs) else g.chain k id := by
  induction deltas generalizing g with
  | nil =>
    obtain ⟨rfl, -⟩ := Prod.mk.inj h
    exact ⟨⟨rfl, rfl, rfl⟩, rfl, by simp, by simp⟩
  | cons δ deltas ih =>
    unfold publishAll at h
    split at h
    · cases (Prod.mk.inj h).2
    · rename_i g₁ hPub
      obtain ⟨k₁, id₁, c, hTarget, hc, rfl⟩ := publish_some hPub
      obtain ⟨hSame, hAdj, hTargets, hChain⟩ := ih h
      refine ⟨(SameButStore.setChain ..).trans hSame, hAdj.trans (by simp), ?_, ?_⟩
      · intro δ' hδ'
        rcases List.mem_cons.mp hδ' with rfl | hδ'
        · exact ⟨k₁, id₁, hTarget⟩
        · exact hTargets δ' hδ'
      · intro k id
        rw [hChain, List.map_cons, hTarget]
        by_cases hEq : (k, id) = (k₁, id₁)
        · obtain ⟨rfl, rfl⟩ := Prod.mk.inj hEq
          rw [chain_setChain_self, hc, if_pos (List.mem_cons_self ..)]
          split <;> rfl
        · rw [chain_setChain_of_ne _ _ hEq]
          have hne : some (k, id) ≠ some (k₁, id₁) := fun heq => hEq (Option.some.inj heq)
          simp only [List.mem_cons, hne, false_or]

/-! ### Optimistic publication -/

/-- The chain that applying an intent starts from. -/
def intentBase (chain : Option (VersionChain (Data V k) (DeltaOp V)))
    (intent : WriteIntent (Data V k)) : VersionChain (Data V k) (DeltaOp V) :=
  chain.getD ⟨⟨match intent.kind with
    | .insert d => d
    | .update _ after => after
    | .delete before => before, 0⟩, []⟩

/-- The undo delta that applying an intent records. -/
def intentDelta [DecidableEq V] (k : Kind) (id : Nat) (intent : WriteIntent (Data V k)) :
    DeltaOp V :=
  match intent.kind with
  | .insert _ => .del k id
  | .update before after => .setProps k id (computePropDelta before.properties after.properties)
  | .delete before => .create before

/-- The data that applying an intent leaves at the head. -/
def intentData (base : VersionChain (Data V k) (DeltaOp V)) (intent : WriteIntent (Data V k)) :
    Data V k :=
  match intent.kind with
  | .insert d => d
  | .update _ after => after
  | .delete _ => base.current.data.tombstone

/-- The write that applies an intent. -/
def intentWrite [DecidableEq V] (g : MemoryGraph V) (txn : MemTransaction) (k : Kind) (id : Nat)
    (intent : WriteIntent (Data V k)) : MemoryGraph V :=
  let base := intentBase (g.chain k id) intent
  g.writeVersion txn k id base (intentDelta k id intent) base.current.commitTs
    (intentData base intent)

theorem applyIntent_ok [DecidableEq V] {intent : WriteIntent (Data V k)} {u : Unit}
    (h : applyIntent txn k g id intent = (g', .ok u)) :
    SameButAdjacency (g.intentWrite txn k id intent) g' := by
  obtain ⟨guardTs, kind⟩ := intent
  unfold applyIntent at h
  cases kind with
  | insert d =>
    obtain ⟨rfl, -⟩ := Prod.mk.inj h
    exact SameButAdjacency.linkAdjacency d
  | update before after =>
    dsimp only at h
    split at h
    · cases (Prod.mk.inj h).2
    · rename_i c hc
      obtain ⟨rfl, -⟩ := Prod.mk.inj h
      unfold intentWrite intentBase
      rw [hc]
      exact SameButAdjacency.refl
  | delete before =>
    dsimp only at h
    split at h
    · cases (Prod.mk.inj h).2
    · obtain ⟨rfl, -⟩ := Prod.mk.inj h
      exact SameButAdjacency.unlinkAdjacency _

/-- The chain after an intent has been applied. -/
def appliedChain [DecidableEq V] (txn : MemTransaction) (k : Kind) (id : Nat)
    (chain : Option (VersionChain (Data V k) (DeltaOp V))) (intent : WriteIntent (Data V k)) :
    VersionChain (Data V k) (DeltaOp V) :=
  let base := intentBase chain intent
  base.push txn.txnId (intentDelta k id intent) base.current.commitTs (intentData base intent)

/-- What applying intents leaves alone: everything but the chains, the adjacency lists
and the transaction's undo buffer, which only grows. -/
structure Applied (g g' : MemoryGraph V) (txn : MemTransaction) : Prop where
  txnManager : g'.txnManager = g.txnManager
  counters : g'.counters = g.counters
  others : ∀ t, t ≠ txn.txnId → g'.txns t = g.txns t
  self : ∃ es, g'.txns txn.txnId =
    { g.txns txn.txnId with undoBuffer := (g.txns txn.txnId).undoBuffer ++ es }

namespace Applied

theorem refl : Applied g g txn := ⟨rfl, rfl, fun _ _ => rfl, [], by simp⟩

theorem trans {g₁ g₂ : MemoryGraph V} (h : Applied g g₁ txn) (h' : Applied g₁ g₂ txn) :
    Applied g g₂ txn := by
  obtain ⟨es, hs⟩ := h.self
  obtain ⟨es', hs'⟩ := h'.self
  refine ⟨h'.txnManager.trans h.txnManager, h'.counters.trans h.counters,
    fun t ht => (h'.others t ht).trans (h.others t ht), es ++ es', ?_⟩
  rw [hs', hs]
  simp

theorem adjacency (h : SameButAdjacency g g') : Applied g g' txn :=
  ⟨h.txnManager, h.counters, fun _ _ => by rw [h.txns], [], by rw [h.txns]; simp⟩

theorem writeVersion (delta : DeltaOp V) (ts : Nat) (d : Data V k) :
    Applied g (g.writeVersion txn k id c delta ts d) txn :=
  ⟨by simp, by simp, fun t ht => txns_writeVersion_of_ne ht .., _, txns_writeVersion_self ..⟩

end Applied

/-- The undo entry that applying an intent adds to the buffer. -/
def intentEntry [DecidableEq V] (k : Kind) (id : Nat)
    (chain : Option (VersionChain (Data V k) (DeltaOp V))) (intent : WriteIntent (Data V k)) :
    UndoEntry (DeltaOp V) :=
  let base := intentBase chain intent
  ⟨intentDelta k id intent, base.current.commitTs, base.undoPtr⟩

/-- **The effect of applying intents on each chain.** -/
theorem applyIntents_ok [DecidableEq V] {ws : List (Nat × WriteIntent (Data V k))} {u : Unit}
    (hNodup : (ws.map Prod.fst).Nodup) (h : applyIntents txn k g ws = (g', .ok u)) :
    Applied g g' txn ∧
    (∀ k' id, k' ≠ k → g'.chain k' id = g.chain k' id) ∧
    (∀ id, g'.chain k id = match ws.lookup id with
      | some intent => some (appliedChain txn k id (g.chain k id) intent)
      | none => g.chain k id) ∧
    (g'.txns txn.txnId).undoBuffer = (g.txns txn.txnId).undoBuffer ++
      ws.map fun w => intentEntry k w.1 (g.chain k w.1) w.2 := by
  induction ws generalizing g with
  | nil =>
    obtain ⟨rfl, -⟩ := Prod.mk.inj h
    exact ⟨.refl, fun _ _ _ => rfl, fun _ => rfl, by simp⟩
  | cons w ws ih =>
    obtain ⟨i, intent⟩ := w
    rw [List.map_cons, List.nodup_cons] at hNodup
    obtain ⟨hNot, hNodup⟩ := hNodup
    unfold applyIntents at h
    split at h
    · cases (Prod.mk.inj h).2
    · rename_i g₁ u' hHead
      have hSame := applyIntent_ok hHead
      have hElse : ∀ id, id ≠ i → g₁.chain k id = g.chain k id := by
        intro id hId
        rw [hSame.chain]
        exact chain_writeVersion_of_ne (fun heq => hId (Prod.mk.inj heq).2) ..
      obtain ⟨hApplied, hKinds, hChain, hUndo⟩ := ih hNodup h
      refine ⟨((Applied.writeVersion ..).trans (.adjacency hSame)).trans hApplied, ?_, ?_, ?_⟩
      · intro k' id hk
        rw [hKinds k' id hk, hSame.chain]
        exact chain_writeVersion_of_ne (fun heq => hk (Prod.mk.inj heq).1) ..
      · intro id
        rw [hChain id]
        by_cases hId : id = i
        · subst hId
          rw [lookup_eq_none_iff.mpr hNot, List.lookup_cons_self, hSame.chain]
          exact chain_writeVersion_self ..
        · have hb : (id == i) = false := by simpa using hId
          simp only [List.lookup_cons, hb, hElse id hId]
      · rw [hUndo, hSame.txns]
        unfold intentWrite
        rw [undoBuffer_writeVersion_self, List.append_assoc]
        refine congrArg _ (congrArg (List.cons _) (List.map_congr_left fun w hw => ?_))
        rw [hElse w.1 fun heq => hNot (List.mem_map.mpr ⟨w, hw, heq⟩)]

/-- The adjacency indexes kept alongside one intent; `chain` is what it is applied to. -/
def intentLink (g : MemoryGraph V) (chain : Option (VersionChain (Data V k) (DeltaOp V)))
    (intent : WriteIntent (Data V k)) : MemoryGraph V :=
  match intent.kind with
  | .insert d => g.linkAdjacency d
  | .update _ _ => g
  | .delete _ => g.unlinkAdjacency (intentBase chain intent).current.data.tombstone

theorem adjacencyList_intentLink_congr {h : MemoryGraph V}
    (hAdj : h.adjacencyList = g.adjacencyList)
    (chain : Option (VersionChain (Data V k) (DeltaOp V))) (intent : WriteIntent (Data V k)) :
    (h.intentLink chain intent).adjacencyList = (g.intentLink chain intent).adjacencyList := by
  obtain ⟨guardTs, kind⟩ := intent
  cases k with
  | vertex => cases kind <;> exact hAdj
  | edge =>
    cases kind with
    | insert d =>
      simp only [intentLink, linkAdjacency, insertAdjacency, insertOutgoing, insertIncoming,
        setAdjacency, hAdj]
    | update before after => exact hAdj
    | delete before =>
      simp only [intentLink, unlinkAdjacency, removeAdjacency, removeOutgoing, removeIncoming,
        setAdjacency, hAdj]

/-- The adjacency indexes kept alongside all intents of one kind. -/
def intentLinks (g : MemoryGraph V)
    (chain : Nat → Option (VersionChain (Data V k) (DeltaOp V)))
    (ws : List (Nat × WriteIntent (Data V k))) : MemoryGraph V :=
  ws.foldl (fun h w => h.intentLink (chain w.1) w.2) g

theorem adjacencyList_intentLinks_congr {h : MemoryGraph V}
    (hAdj : h.adjacencyList = g.adjacencyList)
    {chain chain' : Nat → Option (VersionChain (Data V k) (DeltaOp V))}
    {ws : List (Nat × WriteIntent (Data V k))} (hChain : ∀ w ∈ ws, chain w.1 = chain' w.1) :
    (h.intentLinks chain ws).adjacencyList = (g.intentLinks chain' ws).adjacencyList := by
  induction ws generalizing g h with
  | nil => exact hAdj
  | cons w ws ih =>
    unfold intentLinks
    rw [List.foldl_cons, List.foldl_cons, hChain w (List.mem_cons_self ..)]
    exact ih (adjacencyList_intentLink_congr hAdj _ _) fun w' hw' =>
      hChain w' (List.mem_cons_of_mem _ hw')

theorem adjacencyList_intentLinks_vertex
    (chain : Nat → Option (VersionChain (Data V .vertex) (DeltaOp V)))
    (ws : List (Nat × WriteIntent (Data V .vertex))) :
    (g.intentLinks chain ws).adjacencyList = g.adjacencyList := by
  induction ws generalizing g with
  | nil => rfl
  | cons w ws ih =>
    obtain ⟨i, ⟨guardTs, kind⟩⟩ := w
    cases kind <;> exact ih

theorem adjacencyList_applyIntent [DecidableEq V] {intent : WriteIntent (Data V k)} {u : Unit}
    (h : applyIntent txn k g id intent = (g', .ok u)) :
    g'.adjacencyList = (g.intentLink (g.chain k id) intent).adjacencyList := by
  have hWrite : ∀ (c : VersionChain (Data V k) (DeltaOp V)) (delta : DeltaOp V) (ts : Nat)
      (d : Data V k), (g.writeVersion txn k id c delta ts d).adjacencyList = g.adjacencyList := by
    intro c delta ts d
    cases k <;> rfl
  obtain ⟨guardTs, kind⟩ := intent
  unfold applyIntent at h
  cases kind with
  | insert d =>
    obtain ⟨rfl, -⟩ := Prod.mk.inj h
    exact adjacencyList_intentLink_congr (hWrite ..) none ⟨guardTs, .insert d⟩
  | update before after =>
    dsimp only at h
    split at h
    · cases (Prod.mk.inj h).2
    · obtain ⟨rfl, -⟩ := Prod.mk.inj h
      exact hWrite ..
  | delete before =>
    dsimp only at h
    split at h
    · cases (Prod.mk.inj h).2
    · obtain ⟨rfl, -⟩ := Prod.mk.inj h
      exact adjacencyList_intentLink_congr (hWrite ..) (g.chain k id) ⟨guardTs, .delete before⟩

/-- **The effect of applying intents on the adjacency lists.** -/
theorem adjacencyList_applyIntents [DecidableEq V] {ws : List (Nat × WriteIntent (Data V k))}
    {u : Unit} (hNodup : (ws.map Prod.fst).Nodup) (h : applyIntents txn k g ws = (g', .ok u)) :
    g'.adjacencyList = (g.intentLinks (g.chain k) ws).adjacencyList := by
  induction ws generalizing g with
  | nil =>
    obtain ⟨rfl, -⟩ := Prod.mk.inj h
    rfl
  | cons w ws ih =>
    obtain ⟨i, intent⟩ := w
    rw [List.map_cons, List.nodup_cons] at hNodup
    obtain ⟨hNot, hNodup⟩ := hNodup
    unfold applyIntents at h
    split at h
    · cases (Prod.mk.inj h).2
    · rename_i g₁ u' hHead
      rw [ih hNodup h]
      refine adjacencyList_intentLinks_congr (adjacencyList_applyIntent hHead) fun w hw => ?_
      -- the chains of the intents still to come are as they were
      rw [(applyIntent_ok hHead).chain]
      refine chain_writeVersion_of_ne (fun heq => hNot ?_) ..
      exact List.mem_map.mpr ⟨w, hw, (Prod.mk.inj heq).2⟩

/-- Phase 3 on one chain. -/
def stampIfOwn (txn : MemTransaction) (commitTs : Nat) (c : VersionChain (Data V k) (DeltaOp V)) :
    VersionChain (Data V k) (DeltaOp V) :=
  if c.current.commitTs = txn.txnId then c.stamp commitTs else c

theorem stampIfOwn_idem (commitTs : Nat) :
    stampIfOwn txn commitTs (stampIfOwn txn commitTs c) = stampIfOwn txn commitTs c := by
  unfold stampIfOwn
  by_cases hc : c.current.commitTs = txn.txnId
  · rw [if_pos hc]
    split <;> rfl
  · rw [if_neg hc, if_neg hc]

theorem chain_stampOwn (commitTs : Nat) (k : Kind) (i : Nat) (k' : Kind) (id : Nat) :
    (stampOwn txn commitTs k g i).chain k' id = if (k', id) = (k, i) then
      (g.chain k' id).map (stampIfOwn txn commitTs) else g.chain k' id := by
  unfold stampOwn
  by_cases hEq : (k', id) = (k, i)
  · obtain ⟨rfl, rfl⟩ := Prod.mk.inj hEq
    rw [if_pos rfl]
    split
    · rename_i hc
      rw [hc]
      rfl
    · rename_i c hc
      rw [hc, Option.map_some]
      unfold stampIfOwn
      split
      · simp
      · exact hc
  · rw [if_neg hEq]
    split
    · rfl
    · split
      · exact chain_setChain_of_ne g _ hEq
      · rfl

theorem sameButStore_stampOwn (txn : MemTransaction) (commitTs : Nat) (k : Kind) (i : Nat) :
    SameButStore g (stampOwn txn commitTs k g i) ∧
      (stampOwn txn commitTs k g i).adjacencyList = g.adjacencyList := by
  unfold stampOwn
  split
  · exact ⟨⟨rfl, rfl, rfl⟩, rfl⟩
  · split
    · exact ⟨SameButStore.setChain .., by simp⟩
    · exact ⟨⟨rfl, rfl, rfl⟩, rfl⟩

theorem foldl_stampOwn (txn : MemTransaction) (commitTs : Nat) (k : Kind) (ids : List Nat) :
    SameButStore g (ids.foldl (stampOwn txn commitTs k) g) ∧
    (ids.foldl (stampOwn txn commitTs k) g).adjacencyList = g.adjacencyList ∧
    ∀ k' id, (ids.foldl (stampOwn txn commitTs k) g).chain k' id =
      if k' = k ∧ id ∈ ids then (g.chain k' id).map (stampIfOwn txn commitTs)
      else g.chain k' id := by
  induction ids generalizing g with
  | nil => exact ⟨⟨rfl, rfl, rfl⟩, rfl, by simp⟩
  | cons i ids ih =>
    obtain ⟨hHead, hAdj⟩ := sameButStore_stampOwn (g := g) txn commitTs k i
    obtain ⟨hRest, hAdj', hChain⟩ := ih (g := stampOwn txn commitTs k g i)
    refine ⟨hHead.trans hRest, hAdj'.trans hAdj, fun k' id => ?_⟩
    rw [List.foldl_cons, hChain, chain_stampOwn]
    by_cases hk : k' = k
    · subst hk
      by_cases hi : id = i
      · subst hi
        simp only [true_and, List.mem_cons_self, if_true, Option.map_map]
        split
        · congr 1
          funext c
          exact stampIfOwn_idem commitTs
        · rfl
      · have hne : ¬ ((k', id) = (k', i)) := fun heq => hi (Prod.mk.inj heq).2
        simp only [true_and, List.mem_cons, hi, false_or, if_neg hne]
    · have hne : ¬ ((k', id) = (k, i)) := fun heq => hk (Prod.mk.inj heq).1
      simp only [hk, false_and, if_false, if_neg hne]

/-! ### Leaving the manager -/

/-- The committed transactions after one more with the given outcome. -/
def enterCommitted (txn : MemTransaction) :
    Option Nat → List (Nat × MemTransaction) → List (Nat × MemTransaction)
  | some ts, l => SkipList.insert (fun a b => decide (a.1 < b.1)) (ts, txn) l
  | none, l => l

theorem retire_frame (g : MemoryGraph V) (txn : MemTransaction) :
    (g.retire txn).chain = g.chain ∧ (g.retire txn).txns = g.txns ∧
    (g.retire txn).adjacencyList = g.adjacencyList ∧ (g.retire txn).counters = g.counters ∧
    (g.retire txn).txnManager.activeTxns =
      g.txnManager.activeTxns.filter (fun t => t.txnId != txn.txnId) ∧
    (g.retire txn).txnManager.gcThreshold = g.txnManager.gcThreshold ∧
    (g.retire txn).txnManager.latestCommitTs = g.txnManager.latestCommitTs ∧
    (g.retire txn).txnManager.watermark =
      max (((g.txnManager.activeTxns.filter fun t => t.txnId != txn.txnId).head?.map
        MemTransaction.startTs).getD g.txnManager.latestCommitTs) g.txnManager.watermark ∧
    (g.retire txn).txnManager.committedTxns =
      enterCommitted txn (g.txns txn.txnId).commitTs g.txnManager.committedTxns := by
  unfold retire
  refine ⟨chain_withManager .., rfl, rfl, rfl, ?_⟩
  cases (g.txns txn.txnId).commitTs <;> exact ⟨rfl, rfl, rfl, rfl, rfl⟩

/-- What every end of a transaction has in common, `g` being the graph just before it
leaves the manager. -/
structure Leaves (g g' : MemoryGraph V) (txn : MemTransaction) : Prop where
  chain : g'.chain = g.chain
  adjacency : g'.adjacencyList = g.adjacencyList
  counters : g'.counters = g.counters
  active : g'.txnManager.activeTxns =
    g.txnManager.activeTxns.filter fun t => t.txnId != txn.txnId
  threshold : g'.txnManager.gcThreshold = g.txnManager.gcThreshold
  others : ∀ t, t ≠ txn.txnId → g'.txns t = g.txns t
  undoBuffer : (g'.txns txn.txnId).undoBuffer = (g.txns txn.txnId).undoBuffer
  commitTs : (g'.txns txn.txnId).commitTs = (g.txns txn.txnId).commitTs
  watermark : g'.txnManager.watermark =
    max (((g.txnManager.activeTxns.filter fun t => t.txnId != txn.txnId).head?.map
      MemTransaction.startTs).getD g'.txnManager.latestCommitTs) g.txnManager.watermark
  committed : g'.txnManager.committedTxns =
    enterCommitted txn (g.txns txn.txnId).commitTs g.txnManager.committedTxns

theorem leaves_abortEnd (g : MemoryGraph V) (txn : MemTransaction) :
    Leaves g (g.abortEnd txn) txn ∧
    (g.abortEnd txn).txnManager.latestCommitTs = g.txnManager.latestCommitTs := by
  obtain ⟨hChain, hTxns, hAdj, hCnt, hAct, hGc, hLatest, hWm, hCom⟩ :=
    retire_frame ((g.appendWal txn .abortTransaction).clearWrites txn) txn
  refine ⟨⟨?_, hAdj, hCnt, hAct, hGc, fun t ht => ?_, ?_, ?_, ?_, ?_⟩, hLatest⟩
  · unfold abortEnd markHandled
    rw [chain_modifyTxn, hChain]
    simp [clearWrites]
  · unfold abortEnd markHandled
    rw [txns_modifyTxn_of_ne _ _ ht, hTxns]
    unfold clearWrites
    rw [txns_modifyTxn_of_ne _ _ ht]
    rfl
  · unfold abortEnd markHandled
    rw [txns_modifyTxn_self, hTxns]
    unfold clearWrites
    rw [txns_modifyTxn_self]
    rfl
  · unfold abortEnd markHandled
    rw [txns_modifyTxn_self, hTxns]
    unfold clearWrites
    rw [txns_modifyTxn_self]
    rfl
  · rw [show (g.abortEnd txn).txnManager.latestCommitTs = g.txnManager.latestCommitTs from hLatest]
    exact hWm
  · refine hCom.trans (congrArg₂ _ ?_ rfl)
    unfold clearWrites
    rw [txns_modifyTxn_self]
    rfl

/-- The end of a commit takes the transaction out of the manager and records its timestamp. -/
theorem leaves_commitEnd (g : MemoryGraph V) (txn : MemTransaction) (commitTs : Nat) :
    Leaves g (g.commitEnd txn commitTs) txn ∧
    (g.commitEnd txn commitTs).txnManager.latestCommitTs = commitTs := by
  obtain ⟨hChain, hTxns, hAdj, hCnt, hAct, hGc, hLatest, hWm, hCom⟩ :=
    retire_frame (((g.flushRedoAndCommitWal txn commitTs).setLatestCommitTs commitTs
      ).clearWrites txn) txn
  have hFlush : (g.flushRedoAndCommitWal txn commitTs).chain = g.chain := by
    funext k id
    cases k <;> rfl
  have hBuf : ((g.flushRedoAndCommitWal txn commitTs).txns txn.txnId) =
      { g.txns txn.txnId with redoBuffer := [] } := by
    simp [flushRedoAndCommitWal, modifyTxn]
  have hOther : ∀ t, t ≠ txn.txnId → (g.flushRedoAndCommitWal txn commitTs).txns t = g.txns t := by
    intro t ht
    simp [flushRedoAndCommitWal, modifyTxn, ht]
  refine ⟨⟨?_, hAdj, hCnt, hAct, hGc, fun t ht => ?_, ?_, ?_, ?_, ?_⟩, hLatest⟩
  · unfold commitEnd markHandled
    rw [chain_modifyTxn, hChain]
    simp [clearWrites, setLatestCommitTs, hFlush]
  · unfold commitEnd markHandled
    rw [txns_modifyTxn_of_ne _ _ ht, hTxns]
    unfold clearWrites setLatestCommitTs
    rw [txns_modifyTxn_of_ne _ _ ht, txns_withManager, hOther t ht]
  · unfold commitEnd markHandled
    rw [txns_modifyTxn_self, hTxns]
    unfold clearWrites setLatestCommitTs
    rw [txns_modifyTxn_self, txns_withManager, hBuf]
  · unfold commitEnd markHandled
    rw [txns_modifyTxn_self, hTxns]
    unfold clearWrites setLatestCommitTs
    rw [txns_modifyTxn_self, txns_withManager, hBuf]
  · rw [show (g.commitEnd txn commitTs).txnManager.latestCommitTs = commitTs from hLatest]
    exact hWm
  · refine hCom.trans (congrArg₂ _ ?_ rfl)
    unfold clearWrites setLatestCommitTs
    rw [txns_modifyTxn_self, txns_withManager, hBuf]

/-! ### The cases of a commit -/

/-- The graph with a commit timestamp drawn. -/
def withTs (g : MemoryGraph V) (gen : GlobalTimestampGenerator) : MemoryGraph V :=
  { g with timestampGenerator := gen }

/-- The graph with the commit timestamp of `txn` set. -/
def markCommitted (g : MemoryGraph V) (txn : MemTransaction) (commitTs : Nat) : MemoryGraph V :=
  g.modifyTxn txn.txnId fun s => { s with commitTs := some commitTs }

/-- An intent that can be applied: its entity is there, or need not be. -/
def Applicable (g : MemoryGraph V) (k : Kind) (id : Nat) (intent : WriteIntent (Data V k)) :
    Prop :=
  (g.chain k id).isSome = true ∨ (∃ d, intent.kind = .insert d) ∨
    ∃ before, intent.kind = .delete before ∧ intent.guardTs = 0

theorem applicable_of_validateIntent {intent : WriteIntent (Data V k)} {u : Unit}
    (h : g.validateIntent txn k id intent = .ok u) : g.Applicable k id intent := by
  obtain ⟨guardTs, kind⟩ := intent
  unfold Applicable
  cases hc : g.chain k id with
  | some c => exact .inl rfl
  | none =>
    unfold validateIntent at h
    rw [hc] at h
    cases kind with
    | insert d => exact .inr (.inl ⟨d, rfl⟩)
    | update before after => simp [WriteKind.isDelete] at h
    | delete before =>
      simp only [WriteKind.isDelete, Bool.true_and, beq_iff_eq] at h
      split at h
      · rename_i hGuard
        exact .inr (.inr ⟨before, rfl, hGuard⟩)
      · cases h

theorem applyIntent_total [DecidableEq V] (txn : MemTransaction) {intent : WriteIntent (Data V k)}
    (h : g.Applicable k id intent) : ∃ g', applyIntent txn k g id intent = (g', .ok ()) := by
  obtain ⟨guardTs, kind⟩ := intent
  unfold applyIntent
  rcases h with hSome | ⟨d, hKind⟩ | ⟨before, hKind, hGuard⟩
  · obtain ⟨c, hc⟩ := Option.isSome_iff_exists.mp hSome
    rw [hc]
    cases kind <;> exact ⟨_, rfl⟩
  · obtain rfl : kind = .insert d := hKind
    exact ⟨_, rfl⟩
  · obtain rfl : kind = .delete before := hKind
    obtain rfl : guardTs = 0 := hGuard
    dsimp only
    split
    · rename_i hDec
      simp at hDec
    · exact ⟨_, rfl⟩

theorem Applicable.mono {k' : Kind} {id' : Nat} {intent' : WriteIntent (Data V k')}
    (h : g.Applicable k' id' intent')
    (hChain : (g.chain k' id').isSome = true → (g'.chain k' id').isSome = true) :
    g'.Applicable k' id' intent' :=
  h.imp_left hChain

theorem isSome_applyIntent [DecidableEq V] {intent : WriteIntent (Data V k)} {u : Unit}
    (h : applyIntent txn k g id intent = (g', .ok u)) {k' : Kind} {id' : Nat}
    (hSome : (g.chain k' id').isSome = true) : (g'.chain k' id').isSome = true := by
  rw [(applyIntent_ok h).chain]
  by_cases hEq : (k', id') = (k, id)
  · obtain ⟨rfl, rfl⟩ := Prod.mk.inj hEq
    unfold intentWrite
    rw [chain_writeVersion_self]
    rfl
  · unfold intentWrite
    rw [chain_writeVersion_of_ne hEq]
    exact hSome

theorem applyIntents_total [DecidableEq V] (txn : MemTransaction)
    (ws : List (Nat × WriteIntent (Data V k)))
    (h : ∀ id intent, (id, intent) ∈ ws → g.Applicable k id intent) :
    ∃ g', applyIntents txn k g ws = (g', .ok ()) := by
  induction ws generalizing g with
  | nil => exact ⟨g, rfl⟩
  | cons w ws ih =>
    obtain ⟨i, intent⟩ := w
    obtain ⟨g₁, h₁⟩ := applyIntent_total txn (h i intent (List.mem_cons_self ..))
    unfold applyIntents
    rw [h₁]
    exact ih fun id intent' hMem =>
      (h id intent' (List.mem_cons_of_mem _ hMem)).mono (isSome_applyIntent h₁)

theorem validateIntents_ok {ws : List (Nat × WriteIntent (Data V k))} {u : Unit}
    (h : g.validateIntents txn k ws = .ok u) {id : Nat} {intent : WriteIntent (Data V k)}
    (hMem : (id, intent) ∈ ws) : g.validateIntent txn k id intent = .ok () := by
  induction ws with
  | nil => simp at hMem
  | cons w ws ih =>
    obtain ⟨i, intent'⟩ := w
    unfold validateIntents at h
    split at h
    · cases h
    · rename_i hHead
      rcases List.mem_cons.mp hMem with heq | hMem
      · obtain ⟨rfl, rfl⟩ := Prod.mk.inj heq
        exact hHead
      · exact ih h hMem

theorem validateReads_congr (hChain : g'.chain = g.chain) (ids : List Nat) :
    g'.validateReads txn k ids = g.validateReads txn k ids := by
  induction ids with
  | nil => rfl
  | cons id ids ih => simp only [validateReads, hChain, ih]

@[simp] theorem chain_withTs' (gen : GlobalTimestampGenerator) : (g.withTs gen).chain = g.chain :=
  chain_withTs g gen

theorem validateIntent_congr (hChain : g'.chain = g.chain) (intent : WriteIntent (Data V k)) :
    g'.validateIntent txn k id intent = g.validateIntent txn k id intent := by
  unfold validateIntent
  rw [hChain]

/-- The validation of a serializable transaction. -/
def ReadsValid (g : MemoryGraph V) (txn : MemTransaction) : Prop :=
  txn.isolationLevel = .serializable → g.validateReadSets txn = .ok ()

/-- How a pessimistic commit at `commitTs` succeeds. -/
def CommitsPess (g g' : MemoryGraph V) (txn : MemTransaction) (commitTs : Nat)
    (gen : GlobalTimestampGenerator) : Prop :=
  txn.lockStrategy = .pessimistic ∧ ∃ g₁,
    publishAll commitTs ((g.withTs gen).markCommitted txn commitTs)
      ((g.txns txn.txnId).undoBuffer.map UndoEntry.delta) = (g₁, .ok ()) ∧
    g' = g₁.commitEnd txn commitTs

/-- How an optimistic commit at `commitTs` succeeds. -/
def CommitsOpt [DecidableEq V] (g g' : MemoryGraph V) (txn : MemTransaction) (commitTs : Nat)
    (gen : GlobalTimestampGenerator) : Prop :=
  txn.lockStrategy = .optimistic ∧
  (∀ k id intent, (id, intent) ∈ (g.txns txn.txnId).writes k →
    g.validateIntent txn k id intent = .ok ()) ∧
  ∃ g₁ g₂, applyIntents txn .vertex (g.withTs gen) ((g.txns txn.txnId).writes .vertex) =
      (g₁, .ok ()) ∧
    applyIntents txn .edge g₁ ((g.txns txn.txnId).writes .edge) = (g₂, .ok ()) ∧
    g' = ((g₂.stampAll txn commitTs (((g.txns txn.txnId).writes .vertex).map Prod.fst)
      (((g.txns txn.txnId).writes .edge).map Prod.fst)).markCommitted txn commitTs).commitEnd txn
        commitTs

theorem finalizeCommitCommon_eq (commitTs : Nat) (ht : txn ∈ g.txnManager.activeTxns)
    (hGc : g.txnManager.gcThreshold = none) :
    ((g.finalizeCommitCommon txn commitTs false).1.markHandled txn,
      (g.finalizeCommitCommon txn commitTs false).2) = (g.commitEnd txn commitTs, .ok ()) := by
  unfold finalizeCommitCommon
  simp only [Bool.false_eq_true, if_false]
  rw [finishTransaction_eq]
  · rfl
  · exact ht
  · exact hGc

/-- The pessimistic branch, run from the graph with the timestamp drawn. -/
theorem commitPessimistic_cases (hAct : txn ∈ g.txnManager.activeTxns)
    (hGc : g.txnManager.gcThreshold = none) (hNone : (g.txns txn.txnId).commitTs = none) {ts : Nat}
    {r : Except StorageError Nat} (hx : g.commitPessimistic txn ts false = (g', r))
    (hp : r ≠ .error .panicked) :
    ∃ g₁, publishAll ts (g.markCommitted txn ts)
        ((g.txns txn.txnId).undoBuffer.map UndoEntry.delta) = (g₁, .ok ()) ∧
      r = .ok ts ∧ g'.markHandled txn = g₁.commitEnd txn ts := by
  have hSet : g.setCommitTs txn ts = some (g.markCommitted txn ts) := by
    simp [setCommitTs, hNone, markCommitted]
  have hBuf : ((g.markCommitted txn ts).txns txn.txnId).undoBuffer =
      (g.txns txn.txnId).undoBuffer := by
    unfold markCommitted
    rw [txns_modifyTxn_self]
  unfold commitPessimistic at hx
  rw [hSet] at hx
  dsimp only at hx
  rw [hBuf] at hx
  generalize hPub : publishAll ts (g.markCommitted txn ts) _ = res at hx
  obtain ⟨g₁, r₁⟩ := res
  cases r₁ with
  | error e =>
    -- publication fails only by the `unwrap` of a missing entry
    have hPanic : ∀ (l : List (DeltaOp V)) (h₁ h₂ : MemoryGraph V) (e : StorageError),
        publishAll ts h₁ l = (h₂, .error e) → e = .panicked := by
      intro l
      induction l with
      | nil =>
        intro h₁ h₂ e heq
        cases (Prod.mk.inj heq).2
      | cons δ l ih =>
        intro h₁ h₂ e heq
        unfold publishAll at heq
        split at heq
        · exact (Except.error.inj (Prod.mk.inj heq).2).symm
        · exact ih _ _ _ heq
    obtain rfl := hPanic _ _ _ _ hPub
    exact absurd (Prod.mk.inj hx).2.symm hp
  | ok u =>
    obtain ⟨hSame, -⟩ := publishAll_ok hPub
    have hEnd := finalizeCommitCommon_eq (g := g₁) ts
      (by rw [hSame.txnManager]; exact hAct) (by rw [hSame.txnManager]; exact hGc)
    refine ⟨g₁, rfl, ?_⟩
    dsimp only at hx
    generalize g₁.finalizeCommitCommon txn ts false = fin at hx hEnd
    obtain ⟨g₂, r₂⟩ := fin
    obtain ⟨hG, rfl⟩ := Prod.mk.inj hEnd
    obtain ⟨rfl, rfl⟩ := Prod.mk.inj hx
    exact ⟨rfl, hG⟩

/-- The optimistic branch: validation fails, or everything is applied. -/
theorem commitOptimistic_cases [DecidableEq V] (hAct : txn ∈ g.txnManager.activeTxns)
    (hGc : g.txnManager.gcThreshold = none) (hNone : (g.txns txn.txnId).commitTs = none)
    (hNodup : ∀ k, (((g.txns txn.txnId).writes k).map Prod.fst).Nodup) {ts : Nat}
    {r : Except StorageError Nat} (hx : g.commitOptimistic txn ts false = (g', r)) :
    (∃ e, (g', r) = g.abortWith txn e) ∨
    ((∀ k id intent, (id, intent) ∈ (g.txns txn.txnId).writes k →
      g.validateIntent txn k id intent = .ok ()) ∧
    ∃ g₁ g₂, applyIntents txn .vertex g ((g.txns txn.txnId).writes .vertex) = (g₁, .ok ()) ∧
      applyIntents txn .edge g₁ ((g.txns txn.txnId).writes .edge) = (g₂, .ok ()) ∧
      r = .ok ts ∧ g'.markHandled txn = ((g₂.stampAll txn ts
        (((g.txns txn.txnId).writes .vertex).map Prod.fst)
        (((g.txns txn.txnId).writes .edge).map Prod.fst)).markCommitted txn ts).commitEnd txn
          ts) := by
  unfold commitOptimistic at hx
  dsimp only at hx
  cases hV : g.validateIntents txn .vertex (g.txns txn.txnId).vertexWrites with
  | error e =>
    rw [hV] at hx
    exact .inl ⟨e, hx.symm⟩
  | ok u =>
    rw [hV] at hx
    dsimp only at hx
    cases hE : g.validateIntents txn .edge (g.txns txn.txnId).edgeWrites with
    | error e =>
      rw [hE] at hx
      exact .inl ⟨e, hx.symm⟩
    | ok u' =>
      rw [hE] at hx
      dsimp only at hx
      have hValid : ∀ k id intent, (id, intent) ∈ (g.txns txn.txnId).writes k →
          g.validateIntent txn k id intent = .ok () := by
        intro k id intent hMem
        cases k with
        | vertex => exact validateIntents_ok hV hMem
        | edge => exact validateIntents_ok hE hMem
      refine .inr ⟨hValid, ?_⟩
      -- what has been validated can be applied: no intent fails from here on
      obtain ⟨g₁, h₁⟩ := applyIntents_total (g := g) txn ((g.txns txn.txnId).writes .vertex)
        fun id intent hMem => applicable_of_validateIntent (hValid .vertex id intent hMem)
      obtain ⟨hApp₁, hKinds₁, -⟩ := applyIntents_ok (hNodup .vertex) h₁
      obtain ⟨g₂, h₂⟩ := applyIntents_total (g := g₁) txn ((g.txns txn.txnId).writes .edge)
        fun id intent hMem => (applicable_of_validateIntent (hValid .edge id intent hMem)).mono
          fun hSome => by rw [hKinds₁ .edge id (by simp)]; exact hSome
      obtain ⟨hApp₂, -⟩ := applyIntents_ok (hNodup .edge) h₂
      refine ⟨g₁, g₂, h₁, h₂, ?_⟩
      rw [show applyIntents txn .vertex g (g.txns txn.txnId).vertexWrites = (g₁, .ok ()) from h₁]
        at hx
      dsimp only at hx
      rw [show applyIntents txn .edge g₁ (g.txns txn.txnId).edgeWrites = (g₂, .ok ()) from h₂]
        at hx
      dsimp only at hx
      have hStamp : SameButStore g₂ (g₂.stampAll txn ts
          (((g.txns txn.txnId).writes .vertex).map Prod.fst)
          (((g.txns txn.txnId).writes .edge).map Prod.fst)) :=
        (foldl_stampOwn txn ts .vertex _).1.trans (foldl_stampOwn txn ts .edge _).1
      have hVids : (g.txns txn.txnId).vertexWrites.map Prod.fst =
          ((g.txns txn.txnId).writes .vertex).map Prod.fst := rfl
      have hEids : (g.txns txn.txnId).edgeWrites.map Prod.fst =
          ((g.txns txn.txnId).writes .edge).map Prod.fst := rfl
      rw [hVids, hEids] at hx
      generalize g₂.stampAll txn ts (((g.txns txn.txnId).writes .vertex).map Prod.fst)
        (((g.txns txn.txnId).writes .edge).map Prod.fst) = g₃ at hx hStamp
      -- stamping touches neither the manager nor the timestamp cell, so both checks pass
      have hMgr : g₃.txnManager = g.txnManager :=
        hStamp.txnManager.trans (hApp₂.txnManager.trans hApp₁.txnManager)
      have hNone₃ : (g₃.txns txn.txnId).commitTs = none := by
        obtain ⟨es₁, hs₁⟩ := hApp₁.self
        obtain ⟨es₂, hs₂⟩ := hApp₂.self
        rw [hStamp.txns, hs₂, hs₁]
        exact hNone
      have hSet : g₃.setCommitTs txn ts = some (g₃.markCommitted txn ts) := by
        simp [setCommitTs, hNone₃, markCommitted]
      rw [hSet] at hx
      have hEnd := finalizeCommitCommon_eq (g := g₃.markCommitted txn ts) ts
        (by show txn ∈ g₃.txnManager.activeTxns; rw [hMgr]; exact hAct)
        (by show g₃.txnManager.gcThreshold = none; rw [hMgr]; exact hGc)
      dsimp only at hx
      generalize (g₃.markCommitted txn ts).finalizeCommitCommon txn ts false = fin at hx hEnd
      obtain ⟨g₄, r₄⟩ := fin
      obtain ⟨hG, rfl⟩ := Prod.mk.inj hEnd
      obtain ⟨rfl, rfl⟩ := Prod.mk.inj hx
      exact ⟨rfl, hG⟩

/-- **What a commit can do**: fail to get a timestamp, roll the transaction back, or
publish what it wrote. -/
theorem commitAt_cases [DecidableEq V] (h : WF g) (ht : txn ∈ g.txnManager.activeTxns)
    {ts? : Option Nat} {r : Except StorageError Nat}
    (hx : g.commitAt txn ts? false = (g', r)) (hp : r ≠ .error .panicked) :
    (g' = g ∧ ∃ e, r = .error e) ∨
    ∃ ts gen, g.timestampGenerator.obtain ts? = .ok (ts, gen) ∧
      ((g' = ((g.withTs gen).undoAll txn).abortEnd txn ∧ (∃ e, r = .error e) ∧
        (txn.lockStrategy = .pessimistic → ¬ g.ReadsValid txn)) ∨
      (r = .ok ts ∧ g.ReadsValid txn ∧ CommitsPess g g' txn ts gen) ∨
      (r = .ok ts ∧ g.ReadsValid txn ∧ CommitsOpt g g' txn ts gen)) := by
  unfold commitAt at hx
  cases hTs : g.timestampGenerator.obtain ts? with
  | error e =>
    rw [hTs] at hx
    obtain ⟨rfl, rfl⟩ := Prod.mk.inj hx
    exact .inl ⟨rfl, _, rfl⟩
  | ok p =>
    obtain ⟨ts, gen⟩ := p
    rw [hTs] at hx
    refine .inr ⟨ts, gen, rfl, ?_⟩
    have hAct : txn ∈ (g.withTs gen).txnManager.activeTxns := ht
    have hGc : (g.withTs gen).txnManager.gcThreshold = none := h.threshold
    -- every way to fail from here on is the same rollback
    have hAbort : ∀ e, (g.withTs gen).abortWith (α := Nat) txn e =
        (((g.withTs gen).undoAll txn).abortEnd txn, .error e) := by
      intro e
      unfold abortWith
      rw [abort_eq hGc hAct]
    dsimp only at hx
    generalize hLocked : MemoryGraph.commitLocked (V := V) _ txn ts false = res at hx
    replace hLocked : (g.withTs gen).commitLocked txn ts false = res := hLocked
    obtain ⟨g₁, r₁⟩ := res
    -- what `commit_at` makes of the locked part
    have hWrap : (∀ e, r₁ = .error e → g' = g₁ ∧ r = .error e) ∧
        ∀ c, r₁ = .ok c → g' = g₁.markHandled txn ∧ r = .ok c := by
      constructor
      · rintro e rfl
        obtain ⟨rfl, rfl⟩ := Prod.mk.inj hx
        exact ⟨rfl, rfl⟩
      · rintro c rfl
        obtain ⟨rfl, rfl⟩ := Prod.mk.inj hx
        exact ⟨rfl, rfl⟩
    have hAborted : ∀ e, (g₁, r₁) = (g.withTs gen).abortWith txn e →
        g' = ((g.withTs gen).undoAll txn).abortEnd txn ∧ ∃ e, r = .error e := by
      intro e heq
      rw [hAbort] at heq
      obtain ⟨rfl, rfl⟩ := Prod.mk.inj heq
      obtain ⟨hG, hR⟩ := hWrap.1 e rfl
      exact ⟨hG, e, hR⟩
    have hReads : (g.withTs gen).validateReadSets txn = g.validateReadSets txn := by
      unfold validateReadSets
      rw [validateReads_congr (chain_withTs' gen), validateReads_congr (chain_withTs' gen)]
      rfl
    unfold commitLocked at hLocked
    dsimp only at hLocked
    rw [hReads] at hLocked
    split at hLocked
    · rename_i e hInvalid
      obtain ⟨hG, hR⟩ := hAborted e hLocked.symm
      refine .inl ⟨hG, hR, fun _ hReads => ?_⟩
      cases hIso : txn.isolationLevel with
      | snapshot => simp [hIso] at hInvalid
      | serializable => simp [hIso, hReads hIso] at hInvalid
    · rename_i u hValid
      have hValid' : g.ReadsValid txn := by
        intro hIso
        rw [hIso] at hValid
        exact hValid
      have hNone : ((g.withTs gen).txns txn.txnId).commitTs = none := h.notCommitted txn ht
      cases hLock : txn.lockStrategy with
      | pessimistic =>
        rw [hLock] at hLocked
        have hPanic : r₁ ≠ .error .panicked := fun heq => hp (hWrap.1 _ heq).2
        obtain ⟨g₂, hPub, hR, hG⟩ := commitPessimistic_cases hAct hGc hNone hLocked hPanic
        obtain ⟨rfl, hOk⟩ := hWrap.2 ts hR
        exact .inr (.inl ⟨hOk, hValid', hLock, g₂, hPub, hG⟩)
      | optimistic =>
        rw [hLock] at hLocked
        rcases commitOptimistic_cases hAct hGc hNone (h.writesNodup txn ht) hLocked with
          ⟨e, heq⟩ | ⟨hAll, g₂, g₃, h₂, h₃, hR, hG⟩
        · obtain ⟨hG, hR⟩ := hAborted e heq
          exact .inl ⟨hG, hR, fun hPess => by cases hPess⟩
        · obtain ⟨rfl, hOk⟩ := hWrap.2 ts hR
          refine .inr (.inr ⟨hOk, hValid', hLock, ?_, g₂, g₃, h₂, h₃, hG⟩)
          intro k id intent hMem
          rw [← validateIntent_congr (chain_withTs' gen)]
          exact hAll k id intent hMem

end MemoryGraph

end MiniGU
