import Mathlib.Data.List.Dedup
import MiniGU.Invariant.Replay

/-!
# The keys of the maps and of the write sets

What holds in every run, whatever is collected and whatever timestamps are named: the
versions of an entity carry its id, so do the intents staged for it, a write set holds one
intent for each id, and the maps have finitely many keys.
-/

namespace MiniGU.MemoryGraph

variable {V : Type} {g g' g₁ : MemoryGraph V} {txn : MemTransaction} {commitTs : Nat}
  {skipWal : Bool}

/-! ## What the end of a transaction does to keys and write sets -/

/-- The write sets are as they were, or empty, and the maps get finitely many new keys. -/
structure Tame (g g' : MemoryGraph V) : Prop where
  intents : ∀ t k, (g'.txns t).writes k = (g.txns t).writes k ∨ (g'.txns t).writes k = []
  keys : ∃ news : List (Kind × Nat), ∀ k id, (g'.chain k id).isSome = true →
    (g.chain k id).isSome = true ∨ (k, id) ∈ news

namespace Tame

theorem of_keys (hTxns : g'.txns = g.txns)
    (hKeys : ∀ k id, (g'.chain k id).isSome = true → (g.chain k id).isSome = true) : Tame g g' :=
  ⟨fun t k => .inl (by rw [hTxns]), [], fun k id hSome => .inl (hKeys k id hSome)⟩

theorem of_eq (hTxns : g'.txns = g.txns) (hChain : g'.chain = g.chain) : Tame g g' :=
  of_keys hTxns fun _ _ hSome => by rwa [hChain] at hSome

theorem refl : Tame g g := of_eq rfl rfl

theorem trans (h : Tame g g₁) (h' : Tame g₁ g') : Tame g g' := by
  refine ⟨fun t k => ?_, ?_⟩
  · rcases h'.intents t k with hSame | hNil
    · rw [hSame]
      exact h.intents t k
    · exact .inr hNil
  · obtain ⟨news, hNews⟩ := h.keys
    obtain ⟨news', hNews'⟩ := h'.keys
    refine ⟨news ++ news', fun k id hSome => ?_⟩
    rw [List.mem_append]
    rcases hNews' k id hSome with hSome | hMem
    · exact (hNews k id hSome).imp_right .inl
    · exact .inr (.inr hMem)

theorem modifyTxn {t : Nat} {f : TxnState V → TxnState V}
    (hf : ∀ s k, (f s).writes k = s.writes k ∨ (f s).writes k = []) :
    Tame g (g.modifyTxn t f) := by
  refine ⟨fun t' k => ?_, [], fun k id hSome => .inl (by rwa [chain_modifyTxn] at hSome)⟩
  by_cases ht : t' = t
  · subst ht
    rw [txns_modifyTxn_self]
    exact hf _ k
  · rw [txns_modifyTxn_of_ne g f ht]
    exact .inl rfl

theorem clearWrites : Tame g (g.clearWrites txn) :=
  modifyTxn fun _ k => .inr (by cases k <;> rfl)

theorem markHandled : Tame g (g.markHandled txn) :=
  modifyTxn fun _ k => .inl (by cases k <;> rfl)

theorem pushRedo {δ : DeltaOp V} : Tame g (g.pushRedo txn δ) :=
  modifyTxn fun _ k => .inl (by cases k <;> rfl)

theorem appendWal (op : Operation V) : Tame g (g.appendWal txn op) :=
  of_eq rfl (by funext k id; cases k <;> rfl)

theorem adjacency (h : SameButAdjacency g g') : Tame g g' := of_eq h.txns h.chain

theorem writeVersion {k : Kind} {id : Nat} {c : VersionChain (Data V k) (DeltaOp V)}
    {δ : DeltaOp V} {ts : Nat} {d : Data V k} : Tame g (g.writeVersion txn k id c δ ts d) := by
  refine ⟨fun t k' => .inl ?_, [(k, id)], fun k' id' hSome => ?_⟩
  · by_cases ht : t = txn.txnId
    · subst ht
      rw [txns_writeVersion_self]
      cases k' <;> rfl
    · rw [txns_writeVersion_of_ne ht]
  · by_cases hne : (k', id') = (k, id)
    · exact .inr (List.mem_singleton.mpr hne)
    · rw [chain_writeVersion_of_ne hne] at hSome
      exact .inl hSome

theorem garbageCollect : Tame g g.garbageCollect := by
  refine of_keys txns_garbageCollect fun k id hSome => ?_
  rw [chain_garbageCollect] at hSome
  split at hSome
  · cases hSome
  · exact hSome

theorem finishTransaction : Tame g (g.finishTransaction txn).1 := by
  unfold MemoryGraph.finishTransaction
  split
  · obtain ⟨hChain, hTxns, -⟩ := retire_frame g txn
    refine (of_eq hTxns hChain).trans ?_
    unfold collectAtThreshold
    split
    · split
      · exact garbageCollect
      · exact refl
    · exact refl
  · exact refl

theorem undoAll : Tame g (g.undoAll txn) := by
  have hDrain : Tame g (g.modifyTxn txn.txnId fun s => { s with undoBuffer := [] }) :=
    modifyTxn fun _ k => .inl (by cases k <;> rfl)
  refine hDrain.trans (of_keys (sameButStore_undoAll g txn).txns fun k id hSome => ?_)
  rw [chain_undoAll, Option.isSome_map] at hSome
  rwa [chain_modifyTxn]

theorem publishAll (deltas : List (DeltaOp V)) : Tame g (publishAll commitTs g deltas).1 := by
  induction deltas generalizing g with
  | nil => exact refl
  | cons δ deltas ih =>
    unfold MemoryGraph.publishAll
    split
    · exact refl
    · rename_i g₁ hPub
      obtain ⟨k, id, c, -, hc, rfl⟩ := publish_some hPub
      refine (of_keys (SameButStore.setChain ..).txns fun k' id' hSome => ?_).trans ih
      by_cases hne : (k', id') = (k, id)
      · cases hne
        rw [hc]
        rfl
      · rwa [chain_setChain_of_ne _ _ hne] at hSome

theorem applyIntents [DecidableEq V] {k : Kind} (ws : List (Nat × WriteIntent (Data V k))) :
    Tame g (applyIntents txn k g ws).1 := by
  induction ws generalizing g with
  | nil => exact refl
  | cons w ws ih =>
    obtain ⟨id, intent⟩ := w
    unfold MemoryGraph.applyIntents
    cases hHead : applyIntent txn k g id intent with
    | mk g₁ r =>
      cases r with
      | ok u => exact (writeVersion.trans (adjacency (applyIntent_ok hHead))).trans ih
      | error e =>
        rw [applyIntent_error hHead]
        exact refl

theorem stampOwn (k : Kind) (ids : List Nat) :
    Tame g (ids.foldl (stampOwn txn commitTs k) g) := by
  obtain ⟨hStore, -, hChain⟩ := @MemoryGraph.foldl_stampOwn V g txn commitTs k ids
  refine of_keys hStore.txns fun k' id hSome => ?_
  rw [hChain] at hSome
  split at hSome
  · rwa [Option.isSome_map] at hSome
  · exact hSome

theorem abortAt : Tame g (g.abortAt txn skipWal).1 := by
  have hDrained : Tame g (g.abortDrained txn skipWal) := by
    unfold abortDrained
    refine Tame.trans ?_ clearWrites
    split
    · exact undoAll
    · exact undoAll.trans (appendWal _)
  have hFin : Tame g ((g.abortDrained txn skipWal).finishTransaction txn).1 :=
    hDrained.trans finishTransaction
  rw [abortAt_eq]
  cases hRes : (g.abortDrained txn skipWal).finishTransaction txn with
  | mk g₁ r =>
    rw [hRes] at hFin
    cases r with
    | error e => exact hFin
    | ok u => exact hFin.trans markHandled

theorem abortWith {α : Type} {err : StorageError} :
    Tame g (g.abortWith txn err : Outcome V α).1 := by
  rw [abortWith_fst]
  exact abortAt

theorem setCommitTs (h : g.setCommitTs txn commitTs = some g') : Tame g g' := by
  obtain ⟨-, -, rfl⟩ := setCommitTs_some h
  exact modifyTxn fun _ k => .inl (by cases k <;> rfl)

theorem finalizeCommitCommon :
    Tame g (g.finalizeCommitCommon txn commitTs skipWal).1 := by
  rw [finalizeCommitCommon_logged]
  refine Tame.trans ?_ finishTransaction
  unfold commitLogged
  refine Tame.trans ?_ clearWrites
  have hFlush : Tame g (g.modifyTxn txn.txnId fun s => { s with redoBuffer := [] }) :=
    modifyTxn fun _ k => .inl (by cases k <;> rfl)
  split
  · exact of_eq rfl (by funext k id; cases k <;> rfl)
  · exact hFlush.trans (of_eq rfl (by funext k id; cases k <;> rfl))

theorem finalize : Tame g
    (match g.finalizeCommitCommon txn commitTs skipWal with
      | (g, .error e) => (g, .error e)
      | (g, .ok _) => (g, .ok commitTs) : Outcome V Nat).1 := by
  have hFin : Tame g (g.finalizeCommitCommon txn commitTs skipWal).1 := finalizeCommitCommon
  cases hRes : g.finalizeCommitCommon txn commitTs skipWal with
  | mk g₁ r =>
    rw [hRes] at hFin
    cases r <;> exact hFin

theorem commitPessimistic : Tame g (g.commitPessimistic txn commitTs skipWal).1 := by
  unfold MemoryGraph.commitPessimistic
  cases hSet : g.setCommitTs txn commitTs with
  | none => exact abortWith
  | some g₁ =>
    have hPub : Tame g₁ (MemoryGraph.publishAll commitTs g₁
        ((g₁.txns txn.txnId).undoBuffer.map UndoEntry.delta)).1 := publishAll _
    dsimp only
    cases hRes : MemoryGraph.publishAll commitTs g₁
      ((g₁.txns txn.txnId).undoBuffer.map UndoEntry.delta) with
    | mk g₂ r =>
      rw [hRes] at hPub
      cases r with
      | error e => exact (setCommitTs hSet).trans hPub
      | ok u => exact ((setCommitTs hSet).trans hPub).trans finalize

/-- An optimistic commit keeps the write sets or clears them, and adds finitely many keys. -/
theorem commitOptimistic [DecidableEq V] :
    Tame g (g.commitOptimistic txn commitTs skipWal).1 := by
  unfold MemoryGraph.commitOptimistic
  dsimp only
  split
  · exact abortWith
  · split
    · exact abortWith
    · have hVertices : Tame g
          (MemoryGraph.applyIntents txn .vertex g (g.txns txn.txnId).vertexWrites).1 := applyIntents _
      cases hV : MemoryGraph.applyIntents txn .vertex g (g.txns txn.txnId).vertexWrites with
      | mk g₁ r₁ =>
        rw [hV] at hVertices
        cases r₁ with
        | error e => exact hVertices
        | ok u =>
          dsimp only
          have hEdges : Tame g₁
              (MemoryGraph.applyIntents txn .edge g₁ (g.txns txn.txnId).edgeWrites).1 :=
            applyIntents _
          cases hE : MemoryGraph.applyIntents txn .edge g₁ (g.txns txn.txnId).edgeWrites with
          | mk g₂ r₂ =>
            rw [hE] at hEdges
            have hBoth : Tame g g₂ := hVertices.trans hEdges
            cases r₂ with
            | error e => exact hBoth
            | ok u =>
              dsimp only
              generalize hStamp : g₂.stampAll txn commitTs _ _ = g₃
              have hStamped : Tame g g₃ := by
                rw [← hStamp]
                exact hBoth.trans ((stampOwn ..).trans (stampOwn ..))
              cases hSet : g₃.setCommitTs txn commitTs with
              | none => exact hStamped.trans abortWith
              | some g₄ => exact (hStamped.trans (setCommitTs hSet)).trans finalize

theorem commitAt [DecidableEq V] {ts? : Option Nat} :
    Tame g (g.commitAt txn ts? skipWal).1 := by
  unfold MemoryGraph.commitAt
  cases hTs : g.timestampGenerator.obtain ts? with
  | error e => exact refl
  | ok p =>
    obtain ⟨ts, gen⟩ := p
    have hLocked : Tame g
        (({ g with timestampGenerator := gen } : MemoryGraph V).commitLocked txn ts skipWal).1 := by
      have hDrawn : Tame g { g with timestampGenerator := gen } := of_eq rfl (chain_withTs g gen)
      refine hDrawn.trans ?_
      unfold commitLocked
      dsimp only
      split
      · exact abortWith
      · split
        · exact commitPessimistic
        · exact commitOptimistic
    dsimp only
    cases hRes : ({ g with timestampGenerator := gen } : MemoryGraph V).commitLocked txn ts
      skipWal with
    | mk g₁ r =>
      rw [hRes] at hLocked
      cases r with
      | error e => exact hLocked
      | ok ts' => exact hLocked.trans markHandled

end Tame

/-! ## Keyed graphs -/

/-- Every version and every intent carries the id it is filed under, a write set holds one
intent for each id, and the keys of each map can be listed. -/
structure Keyed (g : MemoryGraph V) : Prop where
  stamped : Stamped (fun _ _ => none) g
  writes : ∀ t k, (((g.txns t).writes k).map Prod.fst).Nodup
  keys : ∀ k, ∃ keys, g.ListsKeys k keys

namespace Keyed

theorem listsKeys {k : Kind} {keys : List Nat} (h : g.ListsKeys k keys) {news : List (Kind × Nat)}
    (hNews : ∀ id, (g'.chain k id).isSome = true → (g.chain k id).isSome = true ∨ (k, id) ∈ news) :
    ∃ keys', g'.ListsKeys k keys' := by
  refine ⟨(keys ++ news.map Prod.snd).dedup.filter fun id => (g'.chain k id).isSome,
    (List.nodup_dedup _).filter _, fun id => ?_⟩
  rw [List.mem_filter, List.mem_dedup, List.mem_append]
  constructor
  · exact fun hMem => hMem.2
  · intro hSome
    refine ⟨?_, hSome⟩
    rcases hNews id hSome with hOld | hNew
    · exact .inl ((h.mem_iff id).mpr hOld)
    · exact .inr (List.mem_map.mpr ⟨_, hNew, rfl⟩)

theorem tame (h : Keyed g) (hStamped : Stamped (fun _ _ => none) g') (hTame : Tame g g') :
    Keyed g' := by
  refine ⟨hStamped, fun t k => ?_, fun k => ?_⟩
  · rcases hTame.intents t k with hSame | hNil
    · rw [hSame]
      exact h.writes t k
    · rw [hNil]
      exact List.nodup_nil
  · obtain ⟨keys, hKeys⟩ := h.keys k
    obtain ⟨news, hNews⟩ := hTame.keys
    exact listsKeys hKeys (hNews k)

theorem opStep (h : Keyed g) (ht : g.Issued txn) (hs : OpStep txn g g') : Keyed g' := by
  have hStamped := h.stamped.opStep ht hs
  cases hs with
  | note k id =>
    refine h.tame hStamped (.modifyTxn fun s k' => .inl ?_)
    cases k <;> cases k' <;> rfl
  | create d =>
    exact h.tame hStamped ((Tame.writeVersion.trans
      (.adjacency (SameButAdjacency.linkAdjacency d))).trans .pushRedo)
  | delete => exact h.tame hStamped (Tame.writeVersion.trans .pushRedo)
  | set => exact h.tame hStamped (Tame.writeVersion.trans .pushRedo)
  | @stage k id intent =>
    refine ⟨hStamped, fun t k' => ?_, fun k' => ?_⟩
    swap
    · unfold MemoryGraph.stage
      obtain ⟨keys, hKeys⟩ := h.keys k'
      exact ⟨keys, hKeys.nodup, fun id => by rw [chain_modifyTxn]; exact hKeys.mem_iff id⟩
    by_cases htxn : t = txn.txnId
    · subst htxn
      by_cases hk : k' = k
      · subst hk
        rw [writes_stage_self]
        exact nodup_keys_assocInsert (h.writes _ _) _ _
      · rw [writes_stage_of_ne hk]
        exact h.writes _ _
    · unfold MemoryGraph.stage
      rw [txns_modifyTxn_of_ne _ _ htxn]
      exact h.writes t k'
  | redo => exact h.tame hStamped .pushRedo

theorem opSteps (h : Keyed g) (ht : g.Issued txn) (hs : OpSteps txn g g') : Keyed g' := by
  induction hs with
  | refl => exact h
  | tail hs hStep ih =>
    have hCounters := counters_opSteps hs
    exact ih.opStep (ht.mono (by rw [hCounters]) (by rw [hCounters])) hStep

/-- **Every step keeps the keys.** -/
theorem step [DecidableEq V] {a : Action V} (h : Keyed g) (hs : Step g a g') : Keyed g' := by
  obtain ⟨hEnabled, r, hExec, -⟩ := hs
  cases a with
  | begin startTs iso lock =>
    rcases begin_cases hExec with rfl | ⟨idGen, hId, rfl⟩ | ⟨s, idGen, tsGen, hId, hTs, rfl⟩
    · exact h
    · refine h.tame (h.stamped.congr (Nat.le_refl _) ?_ (fun _ ht => .inl ht) ?_
        (fun _ _ he => he) fun _ _ _ hp => hp) (.of_eq rfl ?_)
      · show _ ≤ idGen.counter
        omega
      all_goals
        funext k id
        cases k <;> rfl
    · obtain ⟨hTsLt, hTsLe⟩ := GlobalTimestampGenerator.obtain_lt hTs
      have hBegun := (@Stamped.begun V _ g ⟨g.counters.2, s, iso, lock⟩ h.stamped idGen tsGen
        h.stamped.idBound (by show g.counters.2 < _; omega) (by omega) hTsLt hTsLe).1
      refine h.tame (hBegun.appendWal _) ⟨fun t k => ?_, [], fun k id hSome => .inl ?_⟩
      swap
      · cases k <;> exact hSome
      by_cases ht : t = g.counters.2
      · subst ht
        right
        show ((Function.update g.txns _ _) _).writes k = []
        rw [Function.update_self]
        cases k <;> rfl
      · left
        show ((Function.update g.txns _ _) t).writes k = _
        rw [Function.update_of_ne ht]
  | op txn o =>
    have hSteps : OpSteps txn g (g.runOp txn o).1 := opSteps_runOp o
    rw [show g.runOp txn o = (g', r) from hExec] at hSteps
    exact h.opSteps (h.stamped.active txn hEnabled) hSteps
  | query txn q =>
    have hSteps : OpSteps txn g (g.runQuery txn q).1 := opSteps_runQuery q
    rw [show (g.runQuery txn q).1 = g' from (Prod.mk.inj hExec).1] at hSteps
    exact h.opSteps (h.stamped.active txn hEnabled.1) hSteps
  | commit txn ts? =>
    obtain rfl : (g.commitAt txn ts? false).1 = g' := (Prod.mk.inj hExec).1
    exact h.tame (h.stamped.commitAt (h.stamped.active txn hEnabled)) .commitAt
  | abort txn =>
    obtain rfl : (g.abortAt txn false).1 = g' := congrArg Prod.fst hExec
    exact h.tame h.stamped.abortAt .abortAt
  | garbageCollect =>
    obtain rfl : g.garbageCollect = g' := (Prod.mk.inj hExec).1
    exact h.tame h.stamped.garbageCollect .garbageCollect
  | release t =>
    obtain rfl : g.release t = g' := (Prod.mk.inj hExec).1
    refine h.tame (h.stamped.modifyTxn (fun e he => ?_) fun k p hp => ?_)
      (.modifyTxn fun _ k => .inl (by cases k <;> rfl))
    · cases he
    · cases k <;> exact hp

theorem new (gcThreshold : Option Nat) (lock : LockStrategy) (iso : IsolationLevel) :
    Keyed (.new gcThreshold lock iso : MemoryGraph V) := by
  refine ⟨⟨Nat.zero_lt_one, Nat.lt_succ_self _, fun t ht => ?_, fun k id => .inl ?_,
    fun k id h hRest => (nomatch hRest), fun t e he => ?_, fun t k p hp => ?_⟩, fun t k => ?_,
    fun k => ⟨[], List.nodup_nil, fun id => ?_⟩⟩
  · cases ht
  · cases k <;> rfl
  · cases he
  · cases k <;> cases hp
  · cases k <;> exact List.nodup_nil
  · cases k <;> exact ⟨fun hMem => (nomatch hMem), fun hSome => (nomatch hSome)⟩

end Keyed

/-- **Every graph that is reached is keyed.** -/
theorem keyed_run [DecidableEq V] {gcThreshold : Option Nat} {lock : LockStrategy}
    {iso : IsolationLevel} {trace : List (MemoryGraph V × Action V)}
    {P : MemoryGraph V → Action V → Prop}
    (hRun : Run Step P (.new gcThreshold lock iso) trace g) : Keyed g :=
  hRun.stateInvariant (Keyed.new gcThreshold lock iso) fun _ _ _ h _ hs => h.step hs

end MiniGU.MemoryGraph
