import Mathlib.Data.List.TakeWhile
import MiniGU.Invariant.Snapshot

/-!
# Runs whose chains keep their shape

A condition on the steps of a run. `Drawn`: timestamps come from the generator and collections
keep to entities committed at or below the watermark; then chains and undo buffers stay in the
shape that `Steady` describes.
-/

namespace MiniGU.MemoryGraph

variable {V : Type}

/-- Timestamps are drawn, and collections keep to committed entities. -/
def Drawn (g : MemoryGraph V) : Action V → Prop
  | .begin startTs _ _ => startTs = none
  | .commit _ ts? => ts? = none
  | .garbageCollect => CollectsCommitted g
  | _ => True

theorem gcOk_of_drawn {g : MemoryGraph V} {a : Action V} (h : Drawn g a) : GcOk g a := by
  cases a with
  | garbageCollect => exact h
  | _ => trivial

theorem drawsStart_of_drawn {g : MemoryGraph V} {a : Action V} (h : Drawn g a) :
    DrawsStart a := by
  cases a with
  | begin startTs iso lock => exact h
  | _ => trivial

theorem drawn_of_isPlain {g : MemoryGraph V} {a : Action V} (h : a.isPlain = true) :
    Drawn g a := by
  cases a with
  | begin startTs iso lock =>
    cases startTs with
    | none => rfl
    | some s => cases h
  | commit txn ts? =>
    cases ts? with
    | none => rfl
    | some ts => cases h
  | garbageCollect => cases h
  | _ => trivial

/-- No version of any chain is stamped `s`. -/
structure StampFree (g : MemoryGraph V) (s : Nat) : Prop where
  head : ∀ k id c, g.chain k id = some c → c.current.commitTs ≠ s
  record : ∀ k id c, g.chain k id = some c → ∀ r ∈ c.undoPtr, r.timestamp ≠ s

/-- An undo buffer that is not empty belongs to a transaction that runs, that the manager
holds as committed, or that committed at or below the watermark. -/
structure Keeps (g : MemoryGraph V) : Prop where
  committed : ∀ p ∈ g.txnManager.committedTxns,
    p.1 < g.counters.1 ∧ p.2.txnId < g.counters.2 ∧ (g.txns p.2.txnId).commitTs = some p.1
  buffer : ∀ t, (g.txns t).undoBuffer ≠ [] → g.isHeld t = false →
    ∃ ts, (g.txns t).commitTs = some ts ∧ ts ≤ g.txnManager.watermark

/-- **The invariant of drawn runs.** -/
structure Steady (g : MemoryGraph V) : Prop where
  wf : WF g
  inOrder : InOrder g
  startPos : ∀ t ∈ g.txnManager.activeTxns, 0 < t.startTs
  tsPos : 0 < g.counters.1
  apart : ∀ t ∈ g.txnManager.activeTxns, StampFree g t.startTs
  layers : Layers g
  keeps : Keeps g

variable {g g' : MemoryGraph V} {txn : MemTransaction} {k : Kind} {id s : Nat}
  {c : VersionChain (Data V k) (DeltaOp V)}

/-! ## Stamps -/

/-- A graph whose stamps all come from another graph, or avoid `s` on their own. -/
theorem StampFree.mono (h : StampFree g s)
    (hChain : ∀ k id c', g'.chain k id = some c' →
      (∃ c, g.chain k id = some c ∧ c'.current = c.current ∧ c'.undoPtr = c.undoPtr) ∨
      (c'.current.commitTs ≠ s ∧ ∀ r ∈ c'.undoPtr, r.timestamp ≠ s)) : StampFree g' s := by
  refine ⟨fun k id c' hc' => ?_, fun k id c' hc' => ?_⟩
  · rcases hChain k id c' hc' with ⟨c, hc, hCur, -⟩ | ⟨hHead, -⟩
    · rw [hCur]
      exact h.head k id c hc
    · exact hHead
  · rcases hChain k id c' hc' with ⟨c, hc, -, hPtr⟩ | ⟨-, hRec⟩
    · rw [hPtr]
      exact h.record k id c hc
    · exact hRec

theorem StampFree.same (h : StampFree g s) (hChain : g'.chain = g.chain) : StampFree g' s :=
  h.mono fun k id c' hc' => .inl ⟨c', by rw [← hChain]; exact hc', rfl, rfl⟩

theorem StampFree.opStep (h : WF g) (ht : txn ∈ g.txnManager.activeTxns) (hs : OpStep txn g g')
    (hPos : 0 < s) (hLt : s < g.counters.1) (hf : StampFree g s) : StampFree g' s := by
  have hId := h.id_gt ht (Nat.le_trans (Nat.le_of_lt hLt) h.tsBound)
  cases h.chainStep ht hs with
  | quiet hChain => exact hf.same hChain
  | @write k' id' c delta ts redo d hOk hOver hChain hUndo =>
    refine hf.mono fun k id c' hc' => ?_
    rw [hChain] at hc'
    by_cases hEq : (k, id) = (k', id')
    · obtain ⟨rfl, rfl⟩ := Prod.mk.inj hEq
      rw [chain_writeVersion_self] at hc'
      obtain rfl := Option.some.inj hc'
      right
      refine ⟨by rw [VersionChain.push_commitTs]; omega, fun r hr => ?_⟩
      cases hOver with
      | old hc hw hEdit =>
        rcases List.mem_cons.mp hr with rfl | hr
        · exact hf.head k id c hc
        · exact hf.record k id c hc r hr
      | new hKey hc =>
        rcases List.mem_cons.mp hr with rfl | hr
        · cases k with
          | vertex => exact Nat.ne_of_lt hPos
          | edge => exact Ne.symm (Nat.ne_of_lt hId)
        · cases hr
    · rw [chain_writeVersion_of_ne hEq] at hc'
      exact .inl ⟨c', hc', rfl, rfl⟩

theorem StampFree.abort (h : WF g) (ht : txn ∈ g.txnManager.activeTxns) (ha : AbortSpec g g' txn)
    (hf : StampFree g s) : StampFree g' s := by
  refine hf.mono fun k id c' hc' => ?_
  rw [ha.chain] at hc'
  obtain ⟨c, hc, rfl⟩ := Option.map_eq_some_iff.mp hc'
  rcases foldl_restoreEntry_cases DeltaOp.restore txn.txnId c
    (g.entriesFor txn.txnId k id) with heq | ⟨hOwn, e, he, hTs, hNext⟩
  · exact .inl ⟨c, hc, by rw [heq], by rw [heq]⟩
  · right
    obtain ⟨base, hBy⟩ := h.writtenBy ht hc hOwn
    obtain ⟨hSelf, hTail⟩ := hBy.overlay.mem_undoPtr he
    rw [hTs, hNext]
    exact ⟨hf.record k id c hc _ hSelf, fun r hr => hf.record k id c hc r (hTail r hr)⟩

theorem StampFree.commitPess {ts : Nat} (hs : CommitPessSpec g g' txn ts) (hne : ts ≠ s)
    (hf : StampFree g s) : StampFree g' s := by
  refine hf.mono fun k id c' hc' => ?_
  rw [hs.chain] at hc'
  split at hc'
  · exact .inl ⟨c', hc', rfl, rfl⟩
  · obtain ⟨c, hc, rfl⟩ := Option.map_eq_some_iff.mp hc'
    exact .inr ⟨hne, hf.record k id c hc⟩

theorem StampFree.commitOpt [DecidableEq V] {ts : Nat} (hs : CommitOptSpec g g' txn ts)
    (hne : ts ≠ s) (hPos : 0 < s) (hf : StampFree g s) : StampFree g' s := by
  refine hf.mono fun k id c' hc' => ?_
  rw [hs.chain] at hc'
  split at hc'
  · rename_i intent hLook
    obtain rfl := Option.some.inj hc'
    right
    refine ⟨hne, fun r hr => ?_⟩
    cases hc : g.chain k id with
    | none =>
      rw [hc] at hr
      have hr : r = _ := List.mem_singleton.mp hr
      rw [hr]
      exact Nat.ne_of_lt hPos
    | some c =>
      rw [hc] at hr
      rcases List.mem_cons.mp hr with rfl | hr
      · exact hf.head k id c hc
      · exact hf.record k id c hc r hr
  · exact .inl ⟨c', hc', rfl, rfl⟩

theorem StampFree.garbageCollect (hf : StampFree g s) : StampFree g.garbageCollect s := by
  refine hf.mono fun k id c' hc' => ?_
  rw [chain_garbageCollect] at hc'
  split at hc'
  · cases hc'
  · exact .inl ⟨c', hc', rfl, rfl⟩

/-- The next timestamp is on no version. -/
theorem WF.stampFree_next (h : WF g) : StampFree g g.counters.1 := by
  have hStamp : ∀ {ts}, g.Stamp ts → ts ≠ g.counters.1 := by
    intro ts hs
    have h₁ := h.tsBound
    unfold Stamp at hs
    unfold Timestamp.maxCommitTs Timestamp.txnIdStart at *
    omega
  exact ⟨fun k id c hc => hStamp (h.stamp k id c hc),
    fun k id c hc r hr => hStamp (h.record k id c hc r hr).1⟩

/-! ## Layers -/

theorem Layers.congr (h : Layers g) (hChain : ∀ k id c, g'.chain k id = some c →
    g.chain k id = some c) (hCts : ∀ t, (g'.txns t).commitTs = (g.txns t).commitTs) :
    Layers g' := by
  intro k id c hc
  have hEq : (fun o => (g'.txns o).commitTs) = fun o => (g.txns o).commitTs := funext hCts
  rw [hEq]
  exact h k id c (hChain k id c hc)

theorem Layers.opStep (hwf : WF g) (ht : txn ∈ g.txnManager.activeTxns) (hs : OpStep txn g g')
    (h : Layers g) : Layers g' := by
  have hCts := commitTs_opStep hs
  cases hwf.chainStep ht hs with
  | quiet hChain => exact h.congr (fun k id c hc => by rw [← hChain]; exact hc) hCts
  | @write k' id' c delta ts redo d hOk hOver hChain hUndo =>
    intro k id c' hc'
    have hEq : (fun o => (g'.txns o).commitTs) = fun o => (g.txns o).commitTs := funext hCts
    rw [hEq]
    rw [hChain] at hc'
    by_cases hEq : (k, id) = (k', id')
    · obtain ⟨rfl, rfl⟩ := Prod.mk.inj hEq
      rw [chain_writeVersion_self] at hc'
      obtain rfl := Option.some.inj hc'
      refine ⟨fun t hT => ?_, ?_⟩
      · dsimp only at hT
        rw [hwf.notCommitted txn ht] at hT
        cases hT
      · cases hOver with
        | old hc hw hEdit => exact (h k id c hc).anti (Nat.min_le_right ..)
        | new hKey hc => trivial
    · rw [chain_writeVersion_of_ne hEq] at hc'
      exact h k id c' hc'

/-- A pessimistic commit stamps the heads of its transaction and keeps the layers behind them. -/
theorem Layers.commitPess (hwf : WF g) (ht : txn ∈ g.txnManager.activeTxns) {ts : Nat}
    (hs : CommitPessSpec g g' txn ts) (h : Layers g) : Layers g' := by
  have hOthers : ∀ o, o ≠ txn.txnId → (g'.txns o).commitTs = (g.txns o).commitTs := fun o ho => by
    rw [hs.others o ho]
  intro k id c' hc'
  rw [hs.chain] at hc'
  by_cases hNil : g.entriesFor txn.txnId k id = []
  · rw [if_pos hNil] at hc'
    refine (h k id c' hc').congr fun r hr => hOthers r.owner fun hOwner => ?_
    have hHead := hwf.recordOwner k id c' hc' r hr txn ht hOwner
    obtain ⟨base, hBy⟩ := hwf.writtenBy ht hc' hHead
    exact hBy.overlay.ne_nil hNil
  · rw [if_neg hNil] at hc'
    obtain ⟨c, hc, rfl⟩ := Option.map_eq_some_iff.mp hc'
    have hId := hwf.commitTs_ne_id hs.tsLt hs.tsBound ht
    obtain ⟨c₀, hc₀, hOwn⟩ := hwf.head_of_entriesFor ht hNil
    obtain rfl := Option.some.inj (hc.symm.trans hc₀)
    have hLayer : Layered (fun o => (g'.txns o).commitTs) (min ts c.current.commitTs) c.undoPtr :=
      (h k id c hc).commit (T := txn.txnId) (fun t hT => by
        rw [hs.commitTs] at hT
        exact Nat.le_of_eq (Option.some.inj hT)) hOthers
    have hle : ts ≤ c.current.commitTs := by
      rw [hOwn]
      have h₁ := hs.tsLt
      have h₂ := hs.tsBound
      have h₃ := (hwf.activeId txn ht).1
      unfold Timestamp.maxCommitTs Timestamp.txnIdStart at *
      omega
    rw [Nat.min_eq_left hle] at hLayer
    exact hLayer

theorem Layers.commitOpt [DecidableEq V] (hwf : WF g) (ht : txn ∈ g.txnManager.activeTxns)
    {ts : Nat} (hs : CommitOptSpec g g' txn ts) (h : Layers g) : Layers g' := by
  have hOthers : ∀ o, o ≠ txn.txnId → (g'.txns o).commitTs = (g.txns o).commitTs := fun o ho => by
    rw [hs.others o ho]
  -- an optimistic transaction has no record in any chain yet
  have hOld : ∀ {k : Kind} {id : Nat} {c : VersionChain (Data V k) (DeltaOp V)},
      g.chain k id = some c →
      Layered (fun o => (g'.txns o).commitTs) c.current.commitTs c.undoPtr := by
    intro k id c hc
    refine (h k id c hc).congr fun r hr => hOthers r.owner fun hOwner => ?_
    exact hwf.head_ne_of_opt ht hs.opt hc (hwf.recordOwner k id c hc r hr txn ht hOwner)
  intro k id c' hc'
  rw [hs.chain] at hc'
  split at hc'
  · obtain rfl := Option.some.inj hc'
    refine ⟨fun t hT => ?_, ?_⟩
    · dsimp only at hT
      rw [hs.commitTs] at hT
      exact Nat.le_of_eq (Option.some.inj hT)
    · cases hc : g.chain k id with
      | none => trivial
      | some c => exact (hOld hc).anti (Nat.min_le_right ..)
  · exact hOld hc'

/-- Undoing a transaction keeps the versions layered. -/
theorem Layers.abort (hwf : WF g) (ht : txn ∈ g.txnManager.activeTxns) (ha : AbortSpec g g' txn)
    (h : Layers g) : Layers g' := by
  have hCts : ∀ o, (g'.txns o).commitTs = (g.txns o).commitTs := by
    intro o
    by_cases ho : o = txn.txnId
    · rw [ho]
      exact ha.commitTs
    · rw [ha.others o ho]
  have hEq : (fun o => (g'.txns o).commitTs) = fun o => (g.txns o).commitTs := funext hCts
  intro k id c' hc'
  rw [hEq]
  rw [ha.chain] at hc'
  obtain ⟨c, hc, rfl⟩ := Option.map_eq_some_iff.mp hc'
  rcases foldl_restoreEntry_cases DeltaOp.restore txn.txnId c (g.entriesFor txn.txnId k id) with
    heq | ⟨hOwn, e, he, hTs, hNext⟩
  · rw [heq]
    exact h k id c hc
  · have hLayer := h k id c hc
    rw [hOwn] at hLayer
    obtain ⟨base, hBy⟩ := hwf.writtenBy ht hc hOwn
    cases base with
    | some b =>
      -- the version found is layered as it was
      obtain ⟨e', es, hEs, hRestored⟩ := hBy.overlay.restore_some DeltaOp.restore
      have hBase := hLayer.base hBy.overlay
      obtain ⟨e₀, es₀, hEs₀, hTs₀, -⟩ := hBy.overlay.head_entry
      have hCan := hBy.canWrite e₀ (by rw [hEs₀]; exact List.mem_cons_self ..)
      have hStart := hwf.start_lt_id ht ht
      rw [Nat.min_eq_right (by rcases hCan with hCan | hCan <;> omega)] at hBase
      rw [hRestored]
      exact hBase
    | none =>
      -- the transaction's own records: it never commits
      rw [hNext]
      refine .of_none fun r hr => ?_
      rcases hBy.overlay.owner_of_mem ((hBy.overlay.mem_undoPtr he).2 r hr) with hOwner | ⟨b, hb, -⟩
      · rw [hOwner]
        exact hwf.notCommitted txn ht
      · cases hb

/-! ## What staged updates were computed from -/

/-! ## Buffers of transactions that have left -/

theorem isHeld_eq_false {t : Nat} : g.isHeld t = false ↔
    (∀ u ∈ g.txnManager.activeTxns, u.txnId ≠ t) ∧
      ∀ p ∈ g.txnManager.committedTxns, p.2.txnId ≠ t := by
  simp [isHeld, isActive]

theorem Keeps.opStep (hwf : WF g) (ht : txn ∈ g.txnManager.activeTxns) (hs : OpStep txn g g')
    (h : Keeps g) : Keeps g' := by
  have hCts := commitTs_opStep hs
  have hMgr := hs.txnManager
  refine ⟨fun p hp => ?_, fun t hBuf hHeld => ?_⟩
  · rw [hMgr] at hp
    rw [hs.counters, hCts]
    exact h.committed p hp
  · have hHeld' : g.isHeld t = false := by
      rw [isHeld_eq_false] at hHeld ⊢
      rwa [hMgr] at hHeld
    have hne : t ≠ txn.txnId := fun heq => (isHeld_eq_false.mp hHeld').1 txn ht heq.symm
    have hSame : (g'.txns t).undoBuffer = (g.txns t).undoBuffer := by
      cases hwf.chainStep ht hs with
      | quiet _ hUndo => exact hUndo t
      | write _ _ _ hUndo => rw [hUndo, txns_writeVersion_of_ne hne]
    rw [hSame] at hBuf
    rw [hCts, hMgr]
    exact h.buffer t hBuf hHeld'

/-- A transaction that ends leaves an empty buffer or is entered as committed. -/
theorem Keeps.ends (hwf : WF g) (ht : txn ∈ g.txnManager.activeTxns) (he : Ends g g' txn)
    (hEnd : ((g'.txns txn.txnId).commitTs = none ∧ (g'.txns txn.txnId).undoBuffer = []) ∨
      (g'.txns txn.txnId).commitTs = some g.counters.1 ∧ g.counters.1 < g'.counters.1)
    (h : Keeps g) : Keeps g' := by
  -- an earlier committed transaction has another id and another timestamp
  have hOther : ∀ p ∈ g.txnManager.committedTxns, p.2.txnId ≠ txn.txnId := by
    intro p hp heq
    have hTs := (h.committed p hp).2.2
    rw [heq, hwf.notCommitted txn ht] at hTs
    cases hTs
  have hOld : ∀ p ∈ g.txnManager.committedTxns,
      p.1 < g'.counters.1 ∧ p.2.txnId < g'.counters.2 ∧
        (g'.txns p.2.txnId).commitTs = some p.1 := by
    intro p hp
    obtain ⟨h₁, h₂, h₃⟩ := h.committed p hp
    refine ⟨Nat.lt_of_lt_of_le h₁ he.tsMono, by rw [he.idEq]; exact h₂, ?_⟩
    rw [he.others _ (hOther p hp)]
    exact h₃
  have hKept : ∀ p ∈ g.txnManager.committedTxns, p ∈ g'.txnManager.committedTxns := by
    intro p hp
    rw [he.committed]
    rcases hEnd with ⟨hNone, -⟩ | ⟨hSome, -⟩
    · rw [hNone]
      exact hp
    · rw [hSome]
      refine SkipList.mem_insert_of_mem hp (.inr ?_)
      simpa using (h.committed p hp).1
  refine ⟨fun p hp => ?_, fun t hBuf hHeld => ?_⟩
  · rw [he.committed] at hp
    rcases hEnd with ⟨hNone, -⟩ | ⟨hSome, hLt⟩
    · rw [hNone] at hp
      exact hOld p hp
    · rw [hSome] at hp
      rcases SkipList.mem_of_mem_insert hp with rfl | hp
      · exact ⟨hLt, by rw [he.idEq]; exact (hwf.activeId txn ht).2, hSome⟩
      · exact hOld p hp
  · obtain ⟨hActive, hCommitted⟩ := isHeld_eq_false.mp hHeld
    by_cases hT : t = txn.txnId
    · subst hT
      rcases hEnd with ⟨-, hEmpty⟩ | ⟨hSome, -⟩
      · exact absurd hEmpty hBuf
      · refine absurd rfl (hCommitted (g.counters.1, txn) ?_)
        rw [he.committed, hSome]
        exact SkipList.mem_insert_self ..
    · rw [he.others t hT] at hBuf ⊢
      have hFree : g.isHeld t = false := isHeld_eq_false.mpr ⟨fun u hu heq =>
        hActive u (he.mem_active.mpr ⟨hu, by rw [heq]; exact hT⟩) heq,
        fun p hp => hCommitted p (hKept p hp)⟩
      obtain ⟨ts, hTs, hle⟩ := h.buffer t hBuf hFree
      exact ⟨ts, hTs, Nat.le_trans hle he.watermarkMono⟩

/-- A collection forgets only transactions committed at or below the watermark. -/
theorem Keeps.garbageCollect (h : Keeps g) : Keeps g.garbageCollect := by
  have hMem : ∀ p ∈ g.garbageCollect.txnManager.committedTxns,
      p ∈ g.txnManager.committedTxns := fun p hp => List.mem_of_mem_filter hp
  refine ⟨fun p hp => ?_, fun t hBuf hHeld => ?_⟩
  · rw [counters_garbageCollect, txns_garbageCollect]
    exact h.committed p (hMem p hp)
  · rw [txns_garbageCollect] at hBuf ⊢
    obtain ⟨hActive, hCommitted⟩ := isHeld_eq_false.mp hHeld
    by_cases hOld : g.isHeld t = false
    · exact h.buffer t hBuf hOld
    · -- held until now: its entry was filtered out, so it is expired
      rw [isHeld_eq_false, not_and] at hOld
      have hNot := hOld hActive
      simp only [not_forall, not_not] at hNot
      obtain ⟨p, hp, rfl⟩ := hNot
      have hTs := (h.committed p hp).2.2
      refine ⟨p.1, hTs, ?_⟩
      have hGone : p ∉ g.garbageCollect.txnManager.committedTxns := fun hIn =>
        hCommitted p hIn rfl
      have hExpired : (g.expiredTxns.any fun t => (g.txns t.txnId).commitTs == some p.1) = true := by
        by_contra hNo
        exact hGone (List.mem_filter.mpr ⟨hp, by simpa using hNo⟩)
      obtain ⟨u, hu, hEq⟩ := List.any_eq_true.mp hExpired
      obtain ⟨q, hq, rfl⟩ := List.mem_map.mp hu
      have hqTs := (h.committed q (List.takeWhile_subset _ hq)).2.2
      have hEqTs : some q.1 = some p.1 := hqTs.symm.trans (by simpa using hEq)
      have hle : q.1 ≤ g.txnManager.watermark := by
        simpa using List.mem_takeWhile_imp hq
      rw [← Option.some.inj hEqTs]
      exact hle

theorem Keeps.release {t : Nat} (h : Keeps g) : Keeps (g.release t) := by
  have hCts : ∀ u, ((g.release t).txns u).commitTs = (g.txns u).commitTs := fun u =>
    commitTs_modifyTxn (f := fun s => { s with undoBuffer := [] }) (fun s => rfl) t u
  refine ⟨fun p hp => ?_, fun u hBuf hFree => ?_⟩
  · rw [hCts]
    exact h.committed p hp
  · by_cases hu : u = t
    · subst hu
      simp [MemoryGraph.release] at hBuf
    · rw [hCts]
      refine h.buffer u ?_ hFree
      rwa [show (g.release t).txns u = g.txns u from txns_modifyTxn_of_ne g _ hu] at hBuf

theorem Keeps.begun (hwf : WF g) {idGen : TransactionIdGenerator}
    {tsGen : GlobalTimestampGenerator} (hNew : txn.txnId = g.counters.2)
    (hId : idGen.counter = g.counters.2 + 1) (hMono : g.counters.1 ≤ tsGen.counter)
    (h : Keeps g) : Keeps (g.begun txn idGen tsGen) := by
  have hCnt : (g.begun txn idGen tsGen).counters = (tsGen.counter, g.counters.2 + 1) := by
    rw [← hId]
    rfl
  have hSame : ∀ t, t ≠ txn.txnId → (g.begun txn idGen tsGen).txns t = g.txns t := fun t ht =>
    Function.update_of_ne ht ..
  refine ⟨fun p hp => ?_, fun t hBuf hFree => ?_⟩
  · obtain ⟨h₁, h₂, h₃⟩ := h.committed p hp
    rw [hCnt, hSame _ (by omega)]
    exact ⟨Nat.lt_of_lt_of_le h₁ hMono, Nat.lt_succ_of_lt h₂, h₃⟩
  · obtain ⟨hActive, hCommitted⟩ := isHeld_eq_false.mp hFree
    have ht : t ≠ txn.txnId := fun heq =>
      hActive txn (SkipList.mem_insert_self ..) heq.symm
    rw [hSame t ht] at hBuf ⊢
    have hFree : g.isHeld t = false := by
      refine isHeld_eq_false.mpr ⟨fun u hu => ?_, hCommitted⟩
      refine hActive u (SkipList.mem_insert_of_mem hu (.inr ?_))
      have := (hwf.activeId u hu).2
      simp only [decide_eq_true_eq]
      omega
    obtain ⟨ts, hTs, hle⟩ := h.buffer t hBuf hFree
    exact ⟨ts, hTs, Nat.le_trans hle (Nat.le_max_right ..)⟩

/-! ## Drawn steps -/

theorem Steady.opStep (h : Steady g) (ht : txn ∈ g.txnManager.activeTxns)
    (hs : OpStep txn g g') : Steady g' := by
  have hMgr := hs.txnManager
  refine ⟨h.wf.opStep ht hs, ?_, ?_, ?_, ?_, h.layers.opStep h.wf ht hs, h.keeps.opStep h.wf ht hs⟩
  · exact ⟨by rw [hMgr]; exact h.inOrder.sorted, by rw [hMgr]; exact h.inOrder.watermark⟩
  · rw [hMgr]
    exact h.startPos
  · rw [hs.counters]
    exact h.tsPos
  · rw [hMgr]
    exact fun t hMem => (h.apart t hMem).opStep h.wf ht hs (h.startPos t hMem)
      (h.wf.activeStart t hMem)

theorem Steady.opSteps (h : Steady g) (ht : txn ∈ g.txnManager.activeTxns)
    (hs : OpSteps txn g g') : Steady g' ∧ g'.txnManager = g.txnManager := by
  induction hs with
  | refl => exact ⟨h, rfl⟩
  | tail _ hStep ih =>
    obtain ⟨hSteady, hMgr⟩ := ih
    rw [← hMgr] at ht
    exact ⟨hSteady.opStep ht hStep, hStep.txnManager.trans hMgr⟩

theorem Steady.ends (h : Steady g) (he : Ends g g' txn) (hwf : WF g')
    (hFree : ∀ s, 0 < s → s < g.counters.1 → StampFree g s → StampFree g' s)
    (hLayers : Layers g') (hKeeps : Keeps g') : Steady g' := by
  have hOld : ∀ t ∈ g'.txnManager.activeTxns, t ∈ g.txnManager.activeTxns := fun t ht =>
    (he.mem_active.mp ht).1
  refine ⟨hwf, h.inOrder.ends he, fun t ht => h.startPos t (hOld t ht),
    Nat.lt_of_lt_of_le h.tsPos he.tsMono, fun t ht => ?_, hLayers, hKeeps⟩
  exact hFree _ (h.startPos t (hOld t ht)) (h.wf.activeStart t (hOld t ht)) (h.apart t (hOld t ht))

/-- **A drawn step keeps a graph steady.** -/
theorem steady_step [DecidableEq V] {a : Action V} (h : Steady g) (hDrawn : Drawn g a)
    (hs : Step g a g') : Steady g' := by
  have hwf := wf_step h.wf (gcOk_of_drawn hDrawn) hs
  have hOrder := h.inOrder.step h.wf (drawsStart_of_drawn hDrawn) hs
  -- a step that keeps chains and manager
  have hQuiet : g'.chain = g.chain → g'.txnManager = g.txnManager →
      g'.counters.1 = g.counters.1 →
      (∀ t, (g'.txns t).commitTs = (g.txns t).commitTs) → Keeps g' → Steady g' := by
    intro hChain hMgr hCnt hCts hKeeps
    refine ⟨hwf, hOrder, by rw [hMgr]; exact h.startPos, by rw [hCnt]; exact h.tsPos,
      ?_, h.layers.congr (fun k id c hc => by rw [← hChain]; exact hc) hCts, hKeeps⟩
    rw [hMgr]
    exact fun t ht => (h.apart t ht).same hChain
  have hAbortCase : ∀ {txn : MemTransaction}, txn ∈ g.txnManager.activeTxns →
      AbortSpec g g' txn → Steady g' := by
    intro txn ht hAbort
    refine h.ends hAbort.toEnds hwf (fun s _ _ hf => hf.abort h.wf ht hAbort)
      (h.layers.abort h.wf ht hAbort)
      (h.keeps.ends h.wf ht hAbort.toEnds (.inl ⟨?_, hAbort.undoBuffer⟩))
    rw [hAbort.commitTs]
    exact h.wf.notCommitted txn ht
  cases step_cases h.wf hs with
  | idle _ hg => exact hg ▸ h
  | skipId hId hg =>
    rw [hg] at hQuiet ⊢
    refine hQuiet (by funext k id; cases k <;> rfl) rfl rfl (fun _ => rfl)
      ⟨fun p hp => ?_, h.keeps.buffer⟩
    obtain ⟨h₁, h₂, h₃⟩ := h.keeps.committed p hp
    exact ⟨h₁, by unfold counters at *; dsimp only at *; omega, h₃⟩
  | @begun _ txn idGen tsGen hNew hId hLt hMono hMax hDrawnTs _ hg =>
    have hStart : txn.startTs = g.counters.1 := hDrawnTs hDrawn
    have hKeeps : Keeps (g.begun txn idGen tsGen) := h.keeps.begun h.wf hNew hId hMono
    have hChain : g'.chain = g.chain := by
      rw [hg]
      funext k id
      cases k <;> rfl
    have hMem : ∀ t ∈ g'.txnManager.activeTxns, t = txn ∨ t ∈ g.txnManager.activeTxns := by
      intro t ht
      rw [hg] at ht
      have ht : t ∈ (g.begun txn idGen tsGen).txnManager.activeTxns := ht
      exact mem_active_begun ht
    refine ⟨hwf, hOrder, fun t ht => ?_, ?_, fun t ht => ?_, ?_, ?_⟩
    · rcases hMem t ht with rfl | ht
      · rw [hStart]
        exact h.tsPos
      · exact h.startPos t ht
    · rw [hg]
      exact Nat.lt_of_lt_of_le h.tsPos hMono
    · rcases hMem t ht with rfl | ht
      · rw [hStart]
        exact h.wf.stampFree_next.same hChain
      · exact (h.apart t ht).same hChain
    · refine h.layers.congr (fun k id c hc => by rw [← hChain]; exact hc) fun t => ?_
      rw [hg]
      by_cases hT : t = txn.txnId
      · rw [hT, h.wf.fresh txn.txnId (by rw [hNew])]
        exact congrArg TxnState.commitTs (Function.update_self ..)
      · exact congrArg TxnState.commitTs (Function.update_of_ne hT ..)
    · rw [hg]
      exact ⟨hKeeps.committed, hKeeps.buffer⟩
  | op ht' hSteps => exact (h.opSteps ht' hSteps).1
  | query ht' hSteps => exact (h.opSteps ht' hSteps).1
  | rollback ht' hAbort => exact hAbortCase ht' hAbort
  | abort ht' hAbort => exact hAbortCase ht' hAbort
  | commitPess ht' _ hDrawnTs _ _ hCommit =>
    obtain rfl := hDrawnTs hDrawn
    exact h.ends hCommit.toEnds hwf (fun s _ hLt hf => hf.commitPess hCommit (by omega))
      (h.layers.commitPess h.wf ht' hCommit)
      (h.keeps.ends h.wf ht' hCommit.toEnds (.inr ⟨hCommit.commitTs, hCommit.tsLt⟩))
  | commitOpt ht' _ hDrawnTs _ _ hCommit =>
    obtain rfl := hDrawnTs hDrawn
    exact h.ends hCommit.toEnds hwf (fun s hPos hLt hf => hf.commitOpt hCommit (by omega) hPos)
      (h.layers.commitOpt h.wf ht' hCommit)
      (h.keeps.ends h.wf ht' hCommit.toEnds (.inr ⟨hCommit.commitTs, hCommit.tsLt⟩))
  | garbageCollect hg =>
    subst hg
    refine ⟨hwf, hOrder, h.startPos, ?_, fun t ht => (h.apart t ht).garbageCollect, ?_,
      h.keeps.garbageCollect⟩
    · rw [counters_garbageCollect]
      exact h.tsPos
    · refine h.layers.congr (fun k id c hc => ?_) fun t => by rw [txns_garbageCollect]
      rw [chain_garbageCollect] at hc
      split at hc
      · cases hc
      · exact hc
  | @release t' hHeld hg =>
    have hCts : ∀ u, ((g.release t').txns u).commitTs = (g.txns u).commitTs := fun u =>
      commitTs_modifyTxn (f := fun s => { s with undoBuffer := [] }) (fun s => rfl) t' u
    rw [hg] at hQuiet ⊢
    exact hQuiet (by simp [MemoryGraph.release]) rfl rfl hCts h.keeps.release

theorem steady_new (lock : LockStrategy) (iso : IsolationLevel) :
    Steady (MemoryGraph.new none lock iso : MemoryGraph V) := by
  refine ⟨wf_new lock iso, ⟨List.Pairwise.nil, ?_⟩, ?_, Nat.zero_lt_one, ?_, ?_, ?_, ?_⟩
  · intro t ht
    cases ht
  · intro t ht
    cases ht
  · intro t ht
    cases ht
  · intro k id c hc
    cases k <;> cases hc
  · intro p hp
    cases hp
  · intro t hBuf
    exact absurd rfl hBuf

/-- **Every graph reached by drawn steps is steady.** -/
theorem steady_run [DecidableEq V] {g₀ : MemoryGraph V}
    {trace : List (MemoryGraph V × Action V)} (hInit : Initial g₀)
    (hRun : Run Step Drawn g₀ trace g) : Steady g := by
  obtain ⟨lock, iso, rfl⟩ := hInit
  exact hRun.stateInvariant (steady_new lock iso) fun s a s' hs hDrawn hStep =>
    steady_step hs hDrawn hStep

end MiniGU.MemoryGraph
