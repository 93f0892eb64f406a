import MiniGU.Invariant.Finished
import MiniGU.Invariant.Guards

/-!
# Where the stamps of a graph come from

A graph may start with heads whose stamps its own generators never handed out: the ones a
checkpoint has restored (`rest`). `Stamped`: every stamp in the graph was handed out, or
stands on a head that is still as it was restored; and a live head is moved only by a
transaction that may write over it, so its stamp is then below the counter as well.

None of this needs the graph to be well formed. It holds for a graph that starts empty
(`rest` is nowhere defined) in every run, and along every replay.
-/

namespace MiniGU.MemoryGraph

variable {V : Type}

/-- A transaction whose id and start timestamp were handed out. -/
structure Issued (g : MemoryGraph V) (t : MemTransaction) : Prop where
  start : t.startTs < g.counters.1
  id : Timestamp.txnIdStart < t.txnId
  lt : t.txnId < g.counters.2

/-- The heads that a graph started from. -/
abbrev Heads (V : Type) := (k : Kind) → Nat → Option (CurrentVersion (Data V k))

/-- The stamp that the entity started with is handed out by now, if it was live. -/
def Reached (rest : Heads V) (g : MemoryGraph V) (k : Kind) (id : Nat) : Prop :=
  ∀ h, rest k id = some h → h.data.isTombstone = false → g.Stamp h.commitTs

/-- Data and undo records of one entity. -/
def ChainKey {k : Kind} (id : Nat) (c : VersionChain (Data V k) (DeltaOp V)) : Prop :=
  c.current.data.id = id ∧ ∀ r ∈ c.undoPtr, r.delta.target = some (k, id)

/-- An entity that is not as it was restored. -/
structure Moved (rest : Heads V) (g : MemoryGraph V) (k : Kind) (id : Nat) : Prop where
  reached : Reached rest g k id
  stamp : ∀ c, g.chain k id = some c → g.Stamp c.current.commitTs
  key : ∀ c, g.chain k id = some c → ChainKey id c

structure EntryOk (rest : Heads V) (g : MemoryGraph V) (e : UndoEntry (DeltaOp V)) : Prop where
  target : ∃ k id, e.delta.target = some (k, id) ∧ Reached rest g k id ∧
    ∀ r ∈ e.next, r.delta.target = some (k, id)
  stamp : g.Stamp e.timestamp

def IntentOk (g : MemoryGraph V) {k : Kind} (p : Nat × WriteIntent (Data V k)) : Prop :=
  IntentKey p.1 p.2 ∧ g.Stamp p.2.guardTs

structure Stamped (rest : Heads V) (g : MemoryGraph V) : Prop where
  positive : 0 < g.counters.1
  idBound : Timestamp.txnIdStart < g.counters.2
  active : ∀ t ∈ g.txnManager.activeTxns, g.Issued t
  entity : ∀ k id, g.chain k id = (rest k id).map (fun h => ⟨h, []⟩) ∨ Moved rest g k id
  restKey : ∀ k id h, rest k id = some h → h.data.id = id
  undo : ∀ t, ∀ e ∈ (g.txns t).undoBuffer, EntryOk rest g e
  intent : ∀ t k, ∀ p ∈ (g.txns t).writes k, g.IntentOk p

variable {rest : Heads V} {g g' : MemoryGraph V} {txn : MemTransaction} {k : Kind} {id : Nat}
  {c : VersionChain (Data V k) (DeltaOp V)}

theorem Issued.mono {t : MemTransaction} (h : g.Issued t) (h₁ : g.counters.1 ≤ g'.counters.1)
    (h₂ : g.counters.2 ≤ g'.counters.2) : g'.Issued t := by
  obtain ⟨hStart, hId, hLt⟩ := h
  exact ⟨by omega, hId, by omega⟩

theorem Issued.stamp (h : g.Issued txn) : g.Stamp txn.txnId := .inr ⟨h.id, h.lt⟩

theorem Issued.stamp_of_canWrite (h : g.Issued txn) {ts : Nat} (hw : txn.CanWrite ts) :
    g.Stamp ts := by
  rcases hw with rfl | hLe
  · exact h.stamp
  · have := h.start
    exact .inl (by omega)

theorem Reached.mono (h : Reached rest g k id) (h₁ : g.counters.1 ≤ g'.counters.1)
    (h₂ : g.counters.2 ≤ g'.counters.2) : Reached rest g' k id :=
  fun hd hRest hLive => (h hd hRest hLive).mono h₁ h₂

theorem EntryOk.mono {e : UndoEntry (DeltaOp V)} (h : EntryOk rest g e)
    (h₁ : g.counters.1 ≤ g'.counters.1) (h₂ : g.counters.2 ≤ g'.counters.2) :
    EntryOk rest g' e := by
  obtain ⟨⟨k, id, hTarget, hReached, hNext⟩, hStamp⟩ := h
  exact ⟨⟨k, id, hTarget, hReached.mono h₁ h₂, hNext⟩, hStamp.mono h₁ h₂⟩

namespace Stamped

/-- **The one way this invariant is kept**: what is new in a graph is checked. -/
theorem evolves (h : Stamped rest g) (h₁ : g.counters.1 ≤ g'.counters.1)
    (h₂ : g.counters.2 ≤ g'.counters.2)
    (hActive : ∀ t ∈ g'.txnManager.activeTxns, t ∈ g.txnManager.activeTxns ∨ g'.Issued t)
    (hChain : ∀ k id, g'.chain k id = g.chain k id ∨ Moved rest g' k id)
    (hUndo : ∀ t, ∀ e ∈ (g'.txns t).undoBuffer, e ∈ (g.txns t).undoBuffer ∨ EntryOk rest g' e)
    (hIntent : ∀ t k, ∀ p ∈ (g'.txns t).writes k, p ∈ (g.txns t).writes k ∨ g'.IntentOk p) :
    Stamped rest g' := by
  refine ⟨by have := h.positive; omega, by have := h.idBound; omega, fun t ht => ?_,
    fun k id => ?_, h.restKey, fun t e he => ?_, fun t k p hp => ?_⟩
  · rcases hActive t ht with hOld | hNew
    · exact (h.active t hOld).mono h₁ h₂
    · exact hNew
  · rcases hChain k id with hSame | hMoved
    · rw [hSame]
      rcases h.entity k id with hRest | hMoved
      · exact .inl hRest
      · refine .inr ⟨hMoved.reached.mono h₁ h₂, fun c hc => ?_, fun c hc => ?_⟩
        · exact (hMoved.stamp c (hSame ▸ hc)).mono h₁ h₂
        · exact hMoved.key c (hSame ▸ hc)
    · exact .inr hMoved
  · rcases hUndo t e he with hOld | hNew
    · exact (h.undo t e hOld).mono h₁ h₂
    · exact hNew
  · rcases hIntent t k p hp with hOld | hNew
    · obtain ⟨hKey, hStamp⟩ := h.intent t k p hOld
      exact ⟨hKey, hStamp.mono h₁ h₂⟩
    · exact hNew

theorem congr (h : Stamped rest g) (h₁ : g.counters.1 ≤ g'.counters.1)
    (h₂ : g.counters.2 ≤ g'.counters.2)
    (hActive : ∀ t ∈ g'.txnManager.activeTxns, t ∈ g.txnManager.activeTxns ∨ g'.Issued t)
    (hChain : g'.chain = g.chain)
    (hUndo : ∀ t, ∀ e ∈ (g'.txns t).undoBuffer, e ∈ (g.txns t).undoBuffer)
    (hIntent : ∀ t k, ∀ p ∈ (g'.txns t).writes k, p ∈ (g.txns t).writes k) : Stamped rest g' :=
  h.evolves h₁ h₂ hActive (fun k id => .inl (by rw [hChain])) (fun t e he => .inl (hUndo t e he))
    fun t k p hp => .inl (hIntent t k p hp)

/-- An update of the buffers of one transaction that adds no undo entry and no intent. -/
theorem modifyTxn (h : Stamped rest g) {t : Nat} {f : TxnState V → TxnState V}
    (hUndo : ∀ e ∈ (f (g.txns t)).undoBuffer, e ∈ (g.txns t).undoBuffer)
    (hWrites : ∀ k, ∀ p ∈ (f (g.txns t)).writes k, p ∈ (g.txns t).writes k) :
    Stamped rest (g.modifyTxn t f) := by
  refine h.congr (Nat.le_refl _) (Nat.le_refl _) (fun _ ht => .inl ht) (chain_modifyTxn ..)
    (fun u e he => ?_) fun u k p hp => ?_
  · by_cases hu : u = t
    · subst hu
      rw [txns_modifyTxn_self] at he
      exact hUndo e he
    · rwa [txns_modifyTxn_of_ne _ _ hu] at he
  · by_cases hu : u = t
    · subst hu
      rw [txns_modifyTxn_self] at hp
      exact hWrites k p hp
    · rwa [txns_modifyTxn_of_ne _ _ hu] at hp

theorem adjacency (h : Stamped rest g) (hs : SameButAdjacency g g') : Stamped rest g' := by
  refine h.congr (by rw [hs.counters]) (by rw [hs.counters]) (fun t ht => .inl ?_) hs.chain
    (fun t e he => ?_) fun t k p hp => ?_
  · rwa [hs.txnManager] at ht
  · rwa [hs.txns] at he
  · rwa [hs.txns] at hp

theorem pushRedo (h : Stamped rest g) (delta : DeltaOp V) : Stamped rest (g.pushRedo txn delta) :=
  h.modifyTxn (fun _ he => he) fun k _ hp => by cases k <;> exact hp

/-! ## Writing -/

theorem key (h : Stamped rest g) (hc : g.chain k id = some c) : ChainKey id c := by
  rcases h.entity k id with hRest | hMoved
  · rw [hRest] at hc
    obtain ⟨hd, hSome, rfl⟩ := Option.map_eq_some_iff.mp hc
    exact ⟨h.restKey k id hd hSome, fun r hr => by cases hr⟩
  · exact hMoved.key c hc

/-- An entity that is not in the map was never live, or its stamp has been reached. -/
theorem reached_of_none (h : Stamped rest g) (hc : g.chain k id = none) : Reached rest g k id := by
  rcases h.entity k id with hRest | hMoved
  · intro hd hSome _
    rw [hRest, hSome] at hc
    cases hc
  · exact hMoved.reached

theorem reached_of_stamp (h : Stamped rest g) (hc : g.chain k id = some c)
    (hs : g.Stamp c.current.commitTs) : Reached rest g k id := by
  rcases h.entity k id with hRest | hMoved
  · intro hd hSome _
    rw [hRest, hSome] at hc
    cases hc
    exact hs
  · exact hMoved.reached

theorem reached_of_tombstone (h : Stamped rest g) (hTomb : g.isTombstoned k id = true) :
    Reached rest g k id := by
  rcases h.entity k id with hRest | hMoved
  · intro hd hSome hLive
    unfold isTombstoned at hTomb
    rw [hRest, hSome] at hTomb
    exact absurd (hLive.symm.trans hTomb) Bool.false_ne_true
  · exact hMoved.reached

theorem setHead (h : Stamped rest g) (hReached : Reached rest g k id)
    (hs : g.Stamp c.current.commitTs) (hKey : ChainKey id c) :
    Stamped rest (g.setChain k id (some c)) := by
  refine h.evolves (by simp) (by simp) (fun t ht => .inl ?_) (fun k' id' => ?_) (fun t e he => ?_)
    fun t k' p hp => ?_
  · rwa [txnManager_setChain] at ht
  · by_cases hEq : (k', id') = (k, id)
    · obtain ⟨rfl, rfl⟩ := Prod.mk.inj hEq
      refine .inr ⟨hReached.mono (by simp) (by simp), fun c' hc' => ?_, fun c' hc' => ?_⟩
      · rw [chain_setChain_self] at hc'
        cases hc'
        exact hs.mono (by simp) (by simp)
      · rw [chain_setChain_self] at hc'
        cases hc'
        exact hKey
    · exact .inl (chain_setChain_of_ne g _ hEq)
  · rw [txns_setChain] at he
    exact .inl he
  · rw [txns_setChain] at hp
    exact .inl hp

theorem pushUndo (h : Stamped rest g) {t : Nat} {e : UndoEntry (DeltaOp V)}
    (he : EntryOk rest g e) : Stamped rest (g.pushUndo t e) := by
  refine h.evolves (Nat.le_refl _) (Nat.le_refl _) (fun _ ht => .inl ht)
    (fun k id => .inl (by rw [chain_pushUndo])) (fun u e' he' => ?_) fun u k p hp => ?_
  · by_cases hu : u = t
    · subst hu
      unfold MemoryGraph.pushUndo at he'
      rw [txns_modifyTxn_self] at he'
      rcases List.mem_append.mp he' with hOld | hNew
      · exact .inl hOld
      · rw [List.mem_singleton] at hNew
        rw [hNew]
        exact .inr (he.mono (Nat.le_refl _) (Nat.le_refl _))
    · unfold MemoryGraph.pushUndo at he'
      rw [txns_modifyTxn_of_ne _ _ hu] at he'
      exact .inl he'
  · unfold MemoryGraph.pushUndo at hp
    by_cases hu : u = t
    · subst hu
      rw [txns_modifyTxn_self] at hp
      exact .inl (by cases k <;> exact hp)
    · rw [txns_modifyTxn_of_ne _ _ hu] at hp
      exact .inl hp

/-- A write in place: the entity has been reached and the version written over has a stamp
of the graph. -/
theorem writeVersion (h : Stamped rest g) (ht : g.Issued txn) {delta : DeltaOp V} {ts : Nat}
    {d : Data V k} (hReached : Reached rest g k id) (hTs : g.Stamp ts)
    (hTarget : delta.target = some (k, id)) (hPtr : ∀ r ∈ c.undoPtr, r.delta.target = some (k, id))
    (hId : d.id = id) : Stamped rest (g.writeVersion txn k id c delta ts d) := by
  have hPush : Stamped rest (g.pushUndo txn.txnId ⟨delta, ts, c.undoPtr⟩) :=
    h.pushUndo ⟨⟨k, id, hTarget, hReached, hPtr⟩, hTs⟩
  refine hPush.setHead hReached ht.stamp ⟨hId, fun r hr => ?_⟩
  rcases List.mem_cons.mp hr with rfl | hr
  · exact hTarget
  · exact hPtr r hr

/-! ## Operations -/

theorem snapshotWithGuard_id (h : Stamped rest g) (hc : g.chain k id = some c) {before : Data V k}
    {guardTs : Nat} (hs : g.snapshotWithGuard txn c = .ok (before, guardTs)) : before.id = id := by
  obtain ⟨hId, hPtr⟩ := h.key hc
  unfold snapshotWithGuard at hs
  split at hs
  · cases hs
  · split at hs
    · split at hs
      · cases hs
      · cases hs
        exact hId
    · dsimp only at hs
      split at hs
      · cases hs
      · have hWalk := snapshotWalk_id g.upgradable txn.startTs c.current.commitTs hPtr hId
        injection hs with hs
        rw [hs] at hWalk
        exact hWalk

/-- A staged intent is for its own entity, and its guard is a stamp of the graph. -/
theorem intentOk (h : Stamped rest g) (ht : g.Issued txn) {intent : WriteIntent (Data V k)}
    (hs : StageOk g txn k id intent) : g.IntentOk (id, intent) := by
  have hLook : ∀ {i : WriteIntent (Data V k)}, (g.txns txn.txnId).lookupWrite k id = some i →
      g.IntentOk (id, i) := fun hl => h.intent txn.txnId k _ (mem_of_lookup_eq_some hl)
  cases hs with
  | insert hId =>
    refine ⟨hId, ?_⟩
    cases hl : (g.txns txn.txnId).lookupWrite k id with
    | none => exact .inl h.positive
    | some i => exact (hLook hl).2
  | setInserted indices props hl =>
    exact ⟨(Data.id_setProps ..).trans (hLook hl).1, (hLook hl).2⟩
  | setUpdated indices props hl =>
    obtain ⟨⟨hBefore, hAfter⟩, hGuard⟩ := hLook hl
    exact ⟨⟨hBefore, (Data.id_setProps ..).trans hAfter⟩, hGuard⟩
  | set indices props _ hc hs =>
    have hId := h.snapshotWithGuard_id hc hs
    exact ⟨⟨hId, (Data.id_setProps ..).trans hId⟩,
      ht.stamp_of_canWrite (snapshotWithGuard_canWrite hs)⟩
  | deleteInserted hl => exact ⟨(hLook hl).1, (hLook hl).2⟩
  | deleteUpdated hl => exact ⟨(hLook hl).1.1, (hLook hl).2⟩
  | delete _ hc hs =>
    exact ⟨h.snapshotWithGuard_id hc hs, ht.stamp_of_canWrite (snapshotWithGuard_canWrite hs)⟩

theorem stage (h : Stamped rest g) {intent : WriteIntent (Data V k)}
    (hi : g.IntentOk (id, intent)) : Stamped rest (g.stage txn k id intent) := by
  have hUndo : ∀ u, ((g.stage txn k id intent).txns u).undoBuffer = (g.txns u).undoBuffer := by
    intro u
    unfold MemoryGraph.stage
    by_cases hu : u = txn.txnId
    · subst hu
      rw [txns_modifyTxn_self]
      cases k <;> rfl
    · rw [txns_modifyTxn_of_ne _ _ hu]
  refine h.evolves (Nat.le_refl _) (Nat.le_refl _) (fun _ ht => .inl ht)
    (fun k' id' => .inl (by unfold MemoryGraph.stage; rw [chain_modifyTxn]))
    (fun u e he => .inl (hUndo u ▸ he)) fun u k' p hp => ?_
  by_cases hu : u = txn.txnId
  · subst hu
    by_cases hk : k' = k
    · subst hk
      rw [writes_stage_self] at hp
      rcases mem_of_mem_assocInsert hp with rfl | hOld
      · exact .inr hi
      · exact .inl hOld
    · rw [writes_stage_of_ne hk] at hp
      exact .inl hp
  · unfold MemoryGraph.stage at hp
    rw [txns_modifyTxn_of_ne _ _ hu] at hp
    exact .inl hp

/-- A small step of an operation keeps all stamps below the counters, or those of issued
transactions. -/
theorem opStep (h : Stamped rest g) (ht : g.Issued txn) (hs : OpStep txn g g') :
    Stamped rest g' := by
  cases hs with
  | note k id =>
    refine h.modifyTxn (fun e he => ?_) fun k' p hp => ?_
    · cases k <;> exact he
    · cases k <;> cases k' <;> exact hp
  | @create k d _ hc =>
    -- the marker of a created edge is the id of its transaction
    have hMarker : g.Stamp (createMarker txn k) := by
      cases k with
      | vertex => exact .inl h.positive
      | edge => exact ht.stamp
    have hWrite : Stamped rest (g.writeVersion txn k d.id ⟨⟨d, txn.txnId⟩, []⟩ (.del k d.id)
        (createMarker txn k) d) :=
      h.writeVersion ht (h.reached_of_none hc) hMarker (DeltaOp.target_del _)
        (fun r hr => by cases hr) rfl
    exact (hWrite.adjacency (SameButAdjacency.linkAdjacency d)).pushRedo _
  | @delete k id c _ hc hw =>
    have hStamp := ht.stamp_of_canWrite hw
    obtain ⟨hId, hPtr⟩ := h.key hc
    refine (h.writeVersion ht (h.reached_of_stamp hc hStamp) hStamp ?_ hPtr ?_).pushRedo _
    · rw [DeltaOp.target_create, hId]
    · rw [Data.id_tombstone, hId]
  | @set k id c indices old props _ hc hw =>
    have hStamp := ht.stamp_of_canWrite hw
    obtain ⟨hId, hPtr⟩ := h.key hc
    refine (h.writeVersion ht (h.reached_of_stamp hc hStamp) hStamp ?_ hPtr ?_).pushRedo _
    · exact DeltaOp.target_setProps ..
    · rw [Data.id_setProps, hId]
  | stage _ hStage => exact h.stage (h.intentOk ht hStage)
  | redo delta _ => exact h.pushRedo delta

theorem opSteps (h : Stamped rest g) (ht : g.Issued txn) (hs : OpSteps txn g g') :
    Stamped rest g' := by
  induction hs with
  | refl => exact h
  | tail hs hStep ih =>
    have hCounters := counters_opSteps hs
    exact ih.opStep (ht.mono (by rw [hCounters]) (by rw [hCounters])) hStep

/-! ## Collections -/

theorem garbageCollect (h : Stamped rest g) : Stamped rest g.garbageCollect := by
  refine h.evolves (by simp) (by simp) (fun t ht => .inl ?_) (fun k id => ?_) (fun t e he => ?_)
    fun t k p hp => ?_
  · rwa [activeTxns_garbageCollect] at ht
  · rw [chain_garbageCollect]
    by_cases hRemoved : g.gcRemoves k id = true
    · -- what is removed was a tombstone
      rw [if_pos hRemoved]
      have hTomb : g.isTombstoned k id = true := (Bool.and_eq_true_iff.mp hRemoved).1
      have hNone : g.garbageCollect.chain k id = none := by
        rw [chain_garbageCollect, if_pos hRemoved]
      refine .inr ⟨(h.reached_of_tombstone hTomb).mono (by simp) (by simp), fun c hc => ?_,
        fun c hc => ?_⟩
      · rw [hNone] at hc
        cases hc
      · rw [hNone] at hc
        cases hc
    · rw [if_neg hRemoved]
      exact .inl rfl
  · rw [txns_garbageCollect] at he
    exact .inl he
  · rw [txns_garbageCollect] at hp
    exact .inl hp

theorem finishTransaction (h : Stamped rest g) : Stamped rest (g.finishTransaction txn).1 := by
  have hRetire : Stamped rest (g.retire txn) := by
    obtain ⟨hChain, hTxns, -, hCounters, hActive, -⟩ := retire_frame g txn
    refine h.congr (by rw [hCounters]) (by rw [hCounters]) (fun t ht => .inl ?_) hChain
      (fun t e he => by rwa [hTxns] at he) fun t k p hp => by rwa [hTxns] at hp
    rw [hActive] at ht
    exact (List.mem_filter.mp ht).1
  unfold MemoryGraph.finishTransaction
  split
  · dsimp only
    unfold collectAtThreshold
    split
    · split
      · exact hRetire.garbageCollect
      · exact hRetire
    · exact hRetire
  · exact h

/-! ## The end of a transaction -/

theorem clearWrites (h : Stamped rest g) : Stamped rest (g.clearWrites txn) :=
  h.modifyTxn (fun _ he => he) fun k p hp => by cases k <;> cases hp

theorem markHandled (h : Stamped rest g) : Stamped rest (g.markHandled txn) :=
  h.modifyTxn (fun _ he => he) fun k _ hp => by cases k <;> exact hp

theorem appendWal (h : Stamped rest g) (op : Operation V) : Stamped rest (g.appendWal txn op) :=
  h.congr (Nat.le_refl _) (Nat.le_refl _) (fun _ ht => .inl ht) (chain_appendWal ..)
    (fun _ _ he => he) fun _ _ _ hp => hp

theorem abortEntry (h : Stamped rest g) {e : UndoEntry (DeltaOp V)} (he : EntryOk rest g e) :
    Stamped rest (MemoryGraph.abortEntry txn g e) := by
  obtain ⟨⟨k, id, hTarget, hReached, hNext⟩, hStamp⟩ := he
  unfold MemoryGraph.abortEntry
  rw [hTarget]
  dsimp only
  split
  · exact h
  · rename_i c hc
    split
    · exact h.setHead hReached hStamp ⟨DeltaOp.id_restore hTarget (h.key hc).1, hNext⟩
    · exact h

theorem undoAll (h : Stamped rest g) : Stamped rest (g.undoAll txn) := by
  have hFold : ∀ (l : List (UndoEntry (DeltaOp V))) (g' : MemoryGraph V), Stamped rest g' →
      (∀ e ∈ l, EntryOk rest g' e) → Stamped rest (l.foldl (MemoryGraph.abortEntry txn) g') := by
    intro l
    induction l with
    | nil => exact fun g' h' _ => h'
    | cons e l ih =>
      intro g' h' hl
      have hCounters : (MemoryGraph.abortEntry txn g' e).counters = g'.counters :=
        (sameButStore_abortEntry txn e).1.counters
      refine ih _ (h'.abortEntry (hl e (List.mem_cons_self ..))) fun e' he' => ?_
      exact (hl e' (List.mem_cons_of_mem _ he')).mono (by rw [hCounters]) (by rw [hCounters])
  refine hFold _ _ (h.modifyTxn (fun e he => by cases he) fun k _ hp => by cases k <;> exact hp) ?_
  exact fun e he => (h.undo txn.txnId e he).mono (Nat.le_refl _) (Nat.le_refl _)

theorem abortAt (h : Stamped rest g) {skipWal : Bool} : Stamped rest (g.abortAt txn skipWal).1 := by
  have hDrained : Stamped rest (g.abortDrained txn skipWal) := by
    unfold abortDrained
    split
    · exact h.undoAll.clearWrites
    · exact (h.undoAll.appendWal _).clearWrites
  have hFin : Stamped rest ((g.abortDrained txn skipWal).finishTransaction txn).1 :=
    hDrained.finishTransaction
  rw [abortAt_eq]
  cases hRes : (g.abortDrained txn skipWal).finishTransaction txn with
  | mk g₁ r =>
    rw [hRes] at hFin
    cases r with
    | error e => exact hFin
    | ok u => exact hFin.markHandled

theorem abortWith (h : Stamped rest g) {α : Type} {err : StorageError} :
    Stamped rest (g.abortWith txn err : Outcome V α).1 := by
  rw [abortWith_fst]
  exact h.abortAt

theorem finalizeCommitCommon (h : Stamped rest g) {commitTs : Nat} {skipWal : Bool} :
    Stamped rest (g.finalizeCommitCommon txn commitTs skipWal).1 := by
  have hLogged : Stamped rest (g.commitLogged txn commitTs skipWal) := by
    unfold commitLogged
    refine clearWrites ?_
    split
    · exact h.congr (Nat.le_refl _) (Nat.le_refl _) (fun _ ht => .inl ht) (chain_withManager ..)
        (fun _ _ he => he) fun _ _ _ hp => hp
    · have hRedo : Stamped rest (g.modifyTxn txn.txnId fun s => { s with redoBuffer := [] }) :=
        h.modifyTxn (fun _ he => he) fun k _ hp => by cases k <;> exact hp
      refine hRedo.congr (Nat.le_refl _) (Nat.le_refl _) (fun _ ht => .inl ht) ?_
        (fun _ _ he => he) fun _ _ _ hp => hp
      funext k id
      cases k <;> rfl
  rw [finalizeCommitCommon_logged]
  exact hLogged.finishTransaction

theorem setCommitTs (h : Stamped rest g) {commitTs : Nat}
    (hSet : g.setCommitTs txn commitTs = some g') : Stamped rest g' := by
  obtain ⟨-, -, rfl⟩ := setCommitTs_some hSet
  exact h.modifyTxn (fun _ he => he) fun k _ hp => by cases k <;> exact hp

theorem publishAll (h : Stamped rest g) {commitTs : Nat} (hTs : commitTs < g.counters.1)
    {deltas : List (DeltaOp V)}
    (hDeltas : ∀ δ ∈ deltas, ∀ k id, δ.target = some (k, id) → Reached rest g k id) :
    Stamped rest (MemoryGraph.publishAll commitTs g deltas).1 := by
  induction deltas generalizing g with
  | nil => exact h
  | cons δ deltas ih =>
    unfold MemoryGraph.publishAll
    split
    · exact h
    · rename_i g₁ hPub
      obtain ⟨k, id, c, hTarget, hc, rfl⟩ := publish_some hPub
      have hHead : Stamped rest (g.setChain k id (some (c.stamp commitTs))) :=
        h.setHead (hDeltas δ (List.mem_cons_self ..) k id hTarget) (.inl hTs)
          ⟨(h.key hc).1, (h.key hc).2⟩
      refine ih hHead (by rwa [counters_setChain]) fun δ' hδ' k' id' hTarget' => ?_
      exact (hDeltas δ' (List.mem_cons_of_mem _ hδ') k' id' hTarget').mono (by simp) (by simp)

/-- What the validated intents name is not as it was restored, or not there. -/
def Ready (rest : Heads V) (g : MemoryGraph V) (k : Kind) (id : Nat) : Prop :=
  Reached rest g k id ∧ ∀ c, g.chain k id = some c → g.Stamp c.current.commitTs

/-- An intent that passes the validation stands on a stamp of the graph. -/
theorem ready_of_validateIntent (h : Stamped rest g) (ht : g.Issued txn) {u : Unit}
    {intent : WriteIntent (Data V k)} (hi : g.IntentOk (id, intent))
    (hv : g.validateIntent txn k id intent = .ok u) : Ready rest g k id := by
  cases hc : g.chain k id with
  | none =>
    exact ⟨h.reached_of_none hc, fun c hc' => by rw [hc] at hc'; cases hc'⟩
  | some c =>
    have hStamp : g.Stamp c.current.commitTs := by
      unfold validateIntent at hv
      rw [hc] at hv
      by_cases hOwn : c.current.commitTs = txn.txnId
      · rw [hOwn]
        exact ht.stamp
      · have hKind : Timestamp.isTxnId c.current.commitTs = true ∨
            Timestamp.isCommitTs c.current.commitTs = true := by
          rw [Timestamp.isTxnId_iff, Timestamp.isCommitTs_iff]
          omega
        have hNe : (c.current.commitTs != txn.txnId) = true := by simpa using hOwn
        -- a stamp that is not its own is the one it was staged with
        have hGuard : c.current.commitTs = intent.guardTs := by
          obtain ⟨guardTs, kind⟩ := intent
          cases kind with
          | insert d =>
            dsimp only at hv
            rw [hNe, Bool.and_true] at hv
            rcases hKind with hK | hK
            · simp [hK] at hv
            · simp [hK] at hv
          | update before after =>
            dsimp only at hv
            rw [hNe, Bool.and_true] at hv
            rcases hKind with hK | hK
            · simp [hK] at hv
            · split at hv
              · cases hv
              · split at hv
                · cases hv
                · rename_i hNot
                  simpa [hK] using hNot
          | delete before =>
            dsimp only at hv
            rw [hNe, Bool.and_true] at hv
            rcases hKind with hK | hK
            · simp [hK] at hv
            · split at hv
              · cases hv
              · split at hv
                · cases hv
                · rename_i hNot
                  simpa [hK] using hNot
        rw [hGuard]
        exact hi.2
    exact ⟨h.reached_of_stamp hc hStamp, fun c' hc' => by rw [hc] at hc'; cases hc'; exact hStamp⟩

theorem ready_writeVersion (ht : g.Issued txn) {k' : Kind} {id' : Nat} (hReady : Ready rest g k' id')
    (delta : DeltaOp V) (ts : Nat) (d : Data V k) :
    Ready rest (g.writeVersion txn k id c delta ts d) k' id' := by
  refine ⟨hReady.1.mono (by simp) (by simp), fun c' hc' => ?_⟩
  by_cases hEq : (k', id') = (k, id)
  · obtain ⟨rfl, rfl⟩ := Prod.mk.inj hEq
    rw [chain_writeVersion_self] at hc'
    cases hc'
    exact ht.stamp.mono (by simp) (by simp)
  · rw [chain_writeVersion_of_ne hEq] at hc'
    exact (hReady.2 c' hc').mono (by simp) (by simp)

section Apply

variable [DecidableEq V]

theorem intentWrite (h : Stamped rest g) (ht : g.Issued txn) {intent : WriteIntent (Data V k)}
    (hReady : Ready rest g k id) (hKey : IntentKey id intent) :
    Stamped rest (g.intentWrite txn k id intent) := by
  have hBase : g.Stamp (intentBase (g.chain k id) intent).current.commitTs ∧
      ChainKey id (intentBase (g.chain k id) intent) := by
    unfold intentBase
    cases hc : g.chain k id with
    | some c => exact ⟨hReady.2 c hc, h.key hc⟩
    | none =>
      refine ⟨.inl h.positive, ?_, fun r hr => by cases hr⟩
      obtain ⟨guardTs, kind⟩ := intent
      cases kind with
      | insert d => exact hKey
      | update before after => exact hKey.2
      | delete before => exact hKey
  refine h.writeVersion ht hReady.1 hBase.1 ?_ hBase.2.2 ?_
  · obtain ⟨guardTs, kind⟩ := intent
    cases kind with
    | insert d => exact DeltaOp.target_del _
    | update before after => exact DeltaOp.target_setProps ..
    | delete before =>
      refine (DeltaOp.target_create before).trans ?_
      rw [show before.id = id from hKey]
  · obtain ⟨guardTs, kind⟩ := intent
    cases kind with
    | insert d => exact hKey
    | update before after => exact hKey.2
    | delete before => exact (Data.id_tombstone _).trans hBase.2.1

/-- Applying intents keeps the stamps, and what was ready stays ready. -/
theorem applyIntents (h : Stamped rest g) (ht : g.Issued txn)
    {ws : List (Nat × WriteIntent (Data V k))}
    (hws : ∀ w ∈ ws, Ready rest g k w.1 ∧ IntentKey w.1 w.2) :
    Stamped rest (MemoryGraph.applyIntents txn k g ws).1 ∧
      ∀ k' id', Ready rest g k' id' →
        Ready rest (MemoryGraph.applyIntents txn k g ws).1 k' id' := by
  induction ws generalizing g with
  | nil => exact ⟨h, fun _ _ hReady => hReady⟩
  | cons w ws ih =>
    obtain ⟨id, intent⟩ := w
    unfold MemoryGraph.applyIntents
    cases hHead : applyIntent txn k g id intent with
    | mk g₁ r =>
      cases r with
      | error e =>
        rw [applyIntent_error hHead]
        exact ⟨h, fun _ _ hReady => hReady⟩
      | ok u =>
        have hSame := applyIntent_ok hHead
        obtain ⟨hReady, hKey⟩ := hws (id, intent) (List.mem_cons_self ..)
        have hStep : ∀ k' id', Ready rest g k' id' → Ready rest g₁ k' id' := by
          intro k' id' hOld
          have hWrite : Ready rest (g.intentWrite txn k id intent) k' id' :=
            ready_writeVersion ht hOld ..
          refine ⟨hWrite.1.mono (by rw [hSame.counters]) (by rw [hSame.counters]), fun c hc => ?_⟩
          rw [hSame.chain] at hc
          exact (hWrite.2 c hc).mono (by rw [hSame.counters]) (by rw [hSame.counters])
        have hCounters : g₁.counters = g.counters := by
          rw [hSame.counters]
          exact counters_writeVersion ..
        obtain ⟨hEnd, hReadyEnd⟩ := ih ((h.intentWrite ht hReady hKey).adjacency hSame)
          (ht.mono (by rw [hCounters]) (by rw [hCounters])) fun w hw =>
            ⟨hStep k w.1 (hws w (List.mem_cons_of_mem _ hw)).1,
              (hws w (List.mem_cons_of_mem _ hw)).2⟩
        exact ⟨hEnd, fun k' id' hOld => hReadyEnd k' id' (hStep k' id' hOld)⟩

end Apply

theorem foldl_stampOwn (h : Stamped rest g) (ht : g.Issued txn) {commitTs : Nat}
    (hTs : commitTs < g.counters.1) (k : Kind) (ids : List Nat) :
    Stamped rest (ids.foldl (stampOwn txn commitTs k) g) := by
  induction ids generalizing g with
  | nil => exact h
  | cons id ids ih =>
    have hCounters : (stampOwn txn commitTs k g id).counters = g.counters :=
      (sameButStore_stampOwn txn commitTs k id).1.counters
    refine ih ?_ (ht.mono (by rw [hCounters]) (by rw [hCounters])) (by rwa [hCounters])
    unfold stampOwn
    split
    · exact h
    · rename_i c hc
      split
      · rename_i hOwn
        refine h.setHead (h.reached_of_stamp hc ?_) (.inl hTs) ⟨(h.key hc).1, (h.key hc).2⟩
        rw [hOwn]
        exact ht.stamp
      · exact h

/-! ## Whole calls -/

theorem commitPessimistic (h : Stamped rest g) {commitTs : Nat} {skipWal : Bool}
    (hTs : commitTs < g.counters.1) :
    Stamped rest (g.commitPessimistic txn commitTs skipWal).1 := by
  unfold MemoryGraph.commitPessimistic
  cases hSet : g.setCommitTs txn commitTs with
  | none => exact h.abortWith
  | some g₁ =>
    have h₁ := h.setCommitTs hSet
    have hCounters : g₁.counters = g.counters := by
      obtain ⟨-, -, rfl⟩ := setCommitTs_some hSet
      rfl
    have hPub := h₁.publishAll (by rwa [hCounters]) (fun δ hδ k id hTarget => by
      obtain ⟨e, he, rfl⟩ := List.mem_map.mp hδ
      obtain ⟨k', id', hTarget', hReached, -⟩ := (h₁.undo txn.txnId e he).target
      obtain ⟨rfl, rfl⟩ := Prod.mk.inj (Option.some.inj (hTarget'.symm.trans hTarget))
      exact hReached)
    dsimp only
    cases hRes : MemoryGraph.publishAll commitTs g₁
        ((g₁.txns txn.txnId).undoBuffer.map UndoEntry.delta) with
    | mk g₂ r =>
      rw [hRes] at hPub
      cases r with
      | error e => exact hPub
      | ok u =>
        have hFin : Stamped rest (g₂.finalizeCommitCommon txn commitTs skipWal).1 :=
          finalizeCommitCommon hPub
        dsimp only
        cases hEnd : g₂.finalizeCommitCommon txn commitTs skipWal with
        | mk g₃ r =>
          rw [hEnd] at hFin
          cases r <;> exact hFin

/-- An optimistic commit keeps the stamps, if its own is below the counter. -/
theorem commitOptimistic [DecidableEq V] (h : Stamped rest g) (ht : g.Issued txn) {commitTs : Nat}
    {skipWal : Bool} (hTs : commitTs < g.counters.1) :
    Stamped rest (g.commitOptimistic txn commitTs skipWal).1 := by
  have hReady : ∀ {k : Kind} {u : Unit},
      g.validateIntents txn k ((g.txns txn.txnId).writes k) = .ok u →
      ∀ w ∈ (g.txns txn.txnId).writes k, Ready rest g k w.1 ∧ IntentKey w.1 w.2 := by
    intro k u hv w hw
    have hOk := h.intent txn.txnId k w hw
    exact ⟨h.ready_of_validateIntent ht hOk (validateIntents_ok hv hw), hOk.1⟩
  unfold MemoryGraph.commitOptimistic
  dsimp only
  split
  · exact h.abortWith
  · rename_i hValid
    split
    · exact h.abortWith
    · rename_i hValid'
      obtain ⟨hV, hReadyV⟩ := h.applyIntents ht (hReady (k := .vertex) hValid)
      have hAppliedV := @applied_applyIntents V g txn _ .vertex (g.txns txn.txnId).vertexWrites
      cases hResV : MemoryGraph.applyIntents txn .vertex g (g.txns txn.txnId).vertexWrites with
      | mk g₁ r₁ =>
        rw [show (g.txns txn.txnId).writes .vertex = (g.txns txn.txnId).vertexWrites from rfl,
          hResV] at hV hReadyV
        rw [hResV] at hAppliedV
        cases r₁ with
        | error e => exact hV
        | ok u =>
          have ht₁ : g₁.Issued txn :=
            ht.mono (by rw [hAppliedV.counters]) (by rw [hAppliedV.counters])
          obtain ⟨hE, -⟩ := hV.applyIntents ht₁ fun w hw =>
            ⟨hReadyV .edge w.1 (hReady (k := .edge) hValid' w hw).1,
              (hReady (k := .edge) hValid' w hw).2⟩
          have hAppliedE := @applied_applyIntents V g₁ txn _ .edge (g.txns txn.txnId).edgeWrites
          dsimp only
          cases hResE : MemoryGraph.applyIntents txn .edge g₁ (g.txns txn.txnId).edgeWrites with
          | mk g₂ r₂ =>
            rw [show (g.txns txn.txnId).writes .edge = (g.txns txn.txnId).edgeWrites from rfl,
              hResE] at hE
            rw [hResE] at hAppliedE
            cases r₂ with
            | error e => exact hE
            | ok u =>
              have hCounters : g₂.counters = g.counters :=
                hAppliedE.counters.trans hAppliedV.counters
              have ht₂ : g₂.Issued txn := ht.mono (by rw [hCounters]) (by rw [hCounters])
              have hStamp : Stamped rest (g₂.stampAll txn commitTs
                  ((g.txns txn.txnId).vertexWrites.map Prod.fst)
                  ((g.txns txn.txnId).edgeWrites.map Prod.fst)) := by
                have hFirst := hE.foldl_stampOwn ht₂ (by rwa [hCounters]) .vertex
                  ((g.txns txn.txnId).vertexWrites.map Prod.fst)
                have hSame := (MemoryGraph.foldl_stampOwn (g := g₂) txn commitTs .vertex
                  ((g.txns txn.txnId).vertexWrites.map Prod.fst)).1.counters
                unfold stampAll
                exact hFirst.foldl_stampOwn (ht₂.mono (by rw [hSame]) (by rw [hSame]))
                  (by rwa [hSame, hCounters]) .edge _
              dsimp only
              generalize g₂.stampAll txn commitTs _ _ = g₃ at hStamp ⊢
              cases hSet : g₃.setCommitTs txn commitTs with
              | none => exact hStamp.abortWith
              | some g₄ =>
                have hFin : Stamped rest (g₄.finalizeCommitCommon txn commitTs skipWal).1 :=
                  finalizeCommitCommon (hStamp.setCommitTs hSet)
                dsimp only
                cases hEnd : g₄.finalizeCommitCommon txn commitTs skipWal with
                | mk g₅ r =>
                  rw [hEnd] at hFin
                  cases r <;> exact hFin

theorem withTs (h : Stamped rest g) {gen : GlobalTimestampGenerator}
    (hLe : g.counters.1 ≤ gen.counter) : Stamped rest { g with timestampGenerator := gen } :=
  h.congr hLe (Nat.le_refl _) (fun _ ht => .inl ht) (chain_withTs g gen) (fun _ _ he => he)
    fun _ _ _ hp => hp

/-- **A commit keeps the invariant**, whichever way it goes. -/
theorem commitAt [DecidableEq V] (h : Stamped rest g) (ht : g.Issued txn)
    {ts? : Option Nat} {skipWal : Bool} : Stamped rest (g.commitAt txn ts? skipWal).1 := by
  unfold MemoryGraph.commitAt
  cases hTs : g.timestampGenerator.obtain ts? with
  | error e => exact h
  | ok p =>
    obtain ⟨ts, gen⟩ := p
    obtain ⟨hLt, hLe⟩ := GlobalTimestampGenerator.obtain_lt hTs
    have h₁ : Stamped rest { g with timestampGenerator := gen } := h.withTs hLe
    have ht₁ : ({ g with timestampGenerator := gen } : MemoryGraph V).Issued txn :=
      ht.mono hLe (Nat.le_refl _)
    have hLocked : Stamped rest
        (({ g with timestampGenerator := gen } : MemoryGraph V).commitLocked txn ts skipWal).1 := by
      unfold commitLocked
      dsimp only
      split
      · exact h₁.abortWith
      · split
        · exact h₁.commitPessimistic hLt
        · exact h₁.commitOptimistic ht₁ hLt
    dsimp only
    cases hRes : ({ g with timestampGenerator := gen } : MemoryGraph V).commitLocked txn ts
      skipWal with
    | mk g₁ r =>
      rw [hRes] at hLocked
      cases r with
      | error e => exact hLocked
      | ok ts' => exact hLocked.markHandled

end Stamped

end MiniGU.MemoryGraph
