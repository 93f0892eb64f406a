import MiniGU.Invariant.Replay

/-!
# What a file holds, and what recovery starts from

`SessionOk` is the invariant of a graph with its file, in every run of calls and
checkpoints: the stamps of the graph and of the checkpoint were handed out in this process,
and the log is as `Logged` says. `Restored` is what `restore` leaves: the heads of the
checkpoint, the counters of a fresh process, and nobody active. `recover_ok` splits a
recovery into the two.
-/

namespace MiniGU

variable {V : Type}

theorem TransactionIdGenerator.obtain_bound {gen gen' : TransactionIdGenerator} {id : Nat}
    (h : gen.obtain none = .ok (id, gen')) :
    gen.counter ≤ Timestamp.u64Max → gen'.counter ≤ Timestamp.u64Max := by
  simp only [obtain, next] at h
  split at h
  · cases h
  · cases h
    intro hLe
    show gen.counter + 1 ≤ _
    omega

namespace GraphCheckpoint

/-- The vertices or the edges of a checkpoint. -/
def heads (c : GraphCheckpoint V) : (k : Kind) → List (Nat × CurrentVersion (Data V k))
  | .vertex => c.vertices
  | .edge => c.edges

end GraphCheckpoint

/-- The heads in a file; without a checkpoint there are none. -/
def checkpointHeads (c : Option (GraphCheckpoint V)) : MemoryGraph.Heads V :=
  fun k id => c.bind fun c => (c.heads k).lookup id

namespace MemoryGraph

variable {rest : Heads V} {g g' : MemoryGraph V} {txn : MemTransaction} {a : Action V}

/-! ## Counters in a run -/

/-- What both generators see to. -/
structure InBounds (g : MemoryGraph V) : Prop where
  ts : g.counters.1 ≤ Timestamp.maxCommitTs
  id : g.counters.2 ≤ Timestamp.u64Max

/-- The counters have moved on. -/
structure MovesOn (g g' : MemoryGraph V) : Prop where
  ts : g.counters.1 ≤ g'.counters.1
  id : g.counters.2 ≤ g'.counters.2
  tsMax : g.counters.1 ≤ Timestamp.maxCommitTs → g'.counters.1 ≤ Timestamp.maxCommitTs
  idMax : g.counters.2 ≤ Timestamp.u64Max → g'.counters.2 ≤ Timestamp.u64Max

theorem MovesOn.of_eq (h : g'.counters = g.counters) : MovesOn g g' :=
  ⟨by rw [h], by rw [h], fun hb => by rwa [h], fun hb => by rwa [h]⟩

theorem MovesOn.of_draw {ts? : Option Nat} {s : Nat} {gen : GlobalTimestampGenerator}
    (hTs : g.timestampGenerator.obtain ts? = .ok (s, gen)) (hEq : g'.counters.1 = gen.counter)
    (hId : g.counters.2 ≤ g'.counters.2)
    (hMax : g.counters.2 ≤ Timestamp.u64Max → g'.counters.2 ≤ Timestamp.u64Max) : MovesOn g g' := by
  refine ⟨?_, hId, fun hb => ?_, hMax⟩
  · rw [hEq]
    exact (GlobalTimestampGenerator.obtain_lt hTs).2
  · rw [hEq]
    exact (GlobalTimestampGenerator.obtain_ok hTs hb).2.2.1

theorem movesOn_begin [DecidableEq V] {startTs : Option Nat} {iso : IsolationLevel}
    {lock : LockStrategy} : MovesOn g (g.exec (.begin startTs iso lock)).1 := by
  show MovesOn g (g.beginTransactionAt none startTs iso lock false).1
  unfold beginTransactionAt
  split
  · exact .of_eq rfl
  · rename_i id idGen hId
    have hMax := TransactionIdGenerator.obtain_bound hId
    have hCounter := (TransactionIdGenerator.obtain_none hId).2
    have hLe : g.counters.2 ≤ idGen.counter := by
      rw [hCounter]
      exact Nat.le_succ _
    dsimp only
    split
    · exact ⟨Nat.le_refl _, hLe, fun hb => hb, hMax⟩
    · rename_i s tsGen hTs
      exact .of_draw hTs rfl hLe hMax

theorem movesOn_commitAt [DecidableEq V] {ts? : Option Nat} {skipWal : Bool} :
    MovesOn g (g.commitAt txn ts? skipWal).1 := by
  unfold commitAt
  cases hTs : g.timestampGenerator.obtain ts? with
  | error e => exact .of_eq rfl
  | ok p =>
    obtain ⟨ts, gen⟩ := p
    have hOwn := (@commitLocked_ends V { g with timestampGenerator := gen } txn ts skipWal _).1
    dsimp only
    cases hRes : ({ g with timestampGenerator := gen } : MemoryGraph V).commitLocked txn ts
      skipWal with
    | mk g₁ r =>
      rw [hRes] at hOwn
      have hCounters : g₁.counters = (gen.counter, g.counters.2) := hOwn.counters
      have hMoves : MovesOn g g₁ := by
        refine .of_draw hTs ?_ ?_ fun hLe => ?_
        · rw [hCounters]
        · rw [hCounters]
        · rw [hCounters]
          exact hLe
      cases r with
      | error e => exact hMoves
      | ok ts' => exact ⟨hMoves.ts, hMoves.id, hMoves.tsMax, hMoves.idMax⟩

/-- **A step moves the counters on.** -/
theorem movesOn_step [DecidableEq V] (hs : Step g a g') : MovesOn g g' := by
  obtain ⟨-, r, hExec, -⟩ := hs
  have hFst : g' = (g.exec a).1 := by rw [hExec]
  rw [hFst]
  cases a with
  | begin startTs iso lock => exact movesOn_begin
  | op txn o => exact .of_eq (counters_opSteps (opSteps_runOp o))
  | query txn q => exact .of_eq (counters_opSteps (opSteps_runQuery q))
  | commit txn ts? => exact movesOn_commitAt
  | abort txn => exact .of_eq (@ownOnly_abortAt V g txn false).counters
  | garbageCollect => exact .of_eq counters_garbageCollect
  | release t => exact .of_eq (counters_modifyTxn ..)

theorem movesOn_run [DecidableEq V] {P : MemoryGraph V → Action V → Prop}
    {trace : List (MemoryGraph V × Action V)} (h : Run Step P g trace g') : MovesOn g g' := by
  induction h with
  | nil => exact .of_eq rfl
  | snoc _ _ hs ih =>
    have hNext := movesOn_step hs
    exact ⟨ih.ts.trans hNext.ts, ih.id.trans hNext.id, fun hb => hNext.tsMax (ih.tsMax hb),
      fun hb => hNext.idMax (ih.idMax hb)⟩

/-! ## Stamps and the log in a run -/

/-- **A step keeps the stamps accounted for.** -/
theorem Stamped.step [DecidableEq V] (h : Stamped rest g) (hs : Step g a g') : Stamped rest g' := by
  obtain ⟨hEnabled, r, hExec, -⟩ := hs
  have hFst : g' = (g.exec a).1 := by rw [hExec]
  cases a with
  | begin startTs iso lock =>
    obtain rfl | ⟨idGen, hCounter, rfl⟩ | ⟨s, idGen, tsGen, hCounter, hTs, rfl⟩ := begin_cases hExec
    · exact h
    · refine h.congr (Nat.le_refl _) ?_ (fun _ ht => .inl ht) ?_ (fun _ _ he => he)
        fun _ _ _ hp => hp
      · show g.counters.2 ≤ idGen.counter
        omega
      · funext k id
        cases k <;> rfl
    · obtain ⟨hLt, hLe⟩ := GlobalTimestampGenerator.obtain_lt hTs
      have hBound := h.idBound
      refine Stamped.appendWal (h.begun ?_ ?_ ?_ hLt hLe).1 _
      · exact hBound
      · show g.counters.2 < idGen.counter
        omega
      · omega
  | op txn o =>
    rw [hFst]
    exact h.opSteps (h.active txn hEnabled) (opSteps_runOp o)
  | query txn q =>
    rw [hFst]
    exact h.opSteps (h.active txn hEnabled.1) (opSteps_runQuery q)
  | commit txn ts? =>
    rw [hFst]
    exact h.commitAt (h.active txn hEnabled)
  | abort txn =>
    rw [hFst]
    exact h.abortAt
  | garbageCollect =>
    rw [hFst]
    exact h.garbageCollect
  | release t =>
    rw [hFst]
    show Stamped rest (g.modifyTxn t fun s => { s with undoBuffer := [] })
    exact h.modifyTxn (fun _ he => by cases he) fun k _ hp => by cases k <;> exact hp

/-- **A step keeps the log in order.** -/
theorem Logged.step [DecidableEq V] (h : Logged g) (hStamped : Stamped rest g)
    (hs : Step g a g') : Logged g' := by
  have hMoves := movesOn_step hs
  obtain ⟨hEnabled, r, hExec, -⟩ := hs
  have hFst : g' = (g.exec a).1 := by rw [hExec]
  have hIssued : ∀ t ∈ g.txnManager.activeTxns, g.IdIssued t.txnId := fun t ht =>
    ⟨(hStamped.active t ht).id, (hStamped.active t ht).lt⟩
  cases a with
  | begin startTs iso lock =>
    obtain rfl | ⟨idGen, hCounter, rfl⟩ | ⟨s, idGen, tsGen, hCounter, hTs, rfl⟩ := begin_cases hExec
    · exact h
    · exact h.quiet rfl hMoves.id (fun _ ht => ht) fun _ _ he => .inl he
    · have hBound := hStamped.idBound
      refine h.single rfl hMoves.id ⟨hBound, ?_⟩ (fun _ => Nat.le_refl _) rfl
        (fun hNot => by cases hNot) (fun t ht => ?_) fun t e he => ?_
      · show g.counters.2 < idGen.counter
        omega
      · rcases SkipList.mem_of_mem_insert ht with rfl | hOld
        · exact .inr ⟨_, List.mem_singleton_self _, rfl, rfl⟩
        · exact .inl hOld
      · -- the buffers of the new transaction are empty
        by_cases ht : t = g.counters.2
        · subst ht
          rw [show ((g.begun ⟨g.counters.2, s, iso, lock⟩ idGen tsGen).appendWal
            ⟨g.counters.2, s, iso, lock⟩ (.beginTransaction s)).txns g.counters.2 = .new from
            Function.update_self ..] at he
          cases he
        · rwa [show ((g.begun ⟨g.counters.2, s, iso, lock⟩ idGen tsGen).appendWal
            ⟨g.counters.2, s, iso, lock⟩ (.beginTransaction s)).txns t = g.txns t from
            Function.update_of_ne ht ..] at he
  | op txn o =>
    rw [hFst]
    exact h.opSteps (opSteps_runOp o)
  | query txn q =>
    rw [hFst]
    exact h.opSteps (opSteps_runQuery q)
  | commit txn ts? =>
    have hLogs : Logs g g' txn := by
      rw [hFst]
      exact logs_commitAt
    obtain ⟨gen, hOwn, -⟩ := @commitAt_ends V g txn false _ ts?
    refine h.logs (hIssued txn hEnabled) hEnabled hLogs hMoves.id fun t ht => hOwn.active t ?_
    rwa [hFst] at ht
  | abort txn =>
    have hLogs : Logs g g' txn := by
      rw [hFst]
      exact .abort logs_abortAt
    refine h.logs (hIssued txn hEnabled) hEnabled hLogs hMoves.id fun t ht => ?_
    rw [hFst] at ht
    exact (@ownOnly_abortAt V g txn false).active t ht
  | garbageCollect =>
    rw [hFst]
    refine h.sameLog SameLog.garbageCollect ?_ fun t ht => ?_
    · exact (congrArg Prod.snd counters_garbageCollect).ge
    · exact activeTxns_garbageCollect ▸ ht
  | release t =>
    rw [hFst]
    show Logged (g.modifyTxn t fun s => { s with undoBuffer := [] })
    exact h.sameLog (SameLog.modifyTxn fun _ => rfl) (Nat.le_refl _) fun _ ht => ht

/-- What replay starts from: the heads of a checkpoint in a fresh process. -/
structure Restored (rest : Heads V) (g : MemoryGraph V) : Prop where
  chain : ∀ k id, g.chain k id = (rest k id).map fun h => ⟨h, []⟩
  txns : ∀ t, g.txns t = .new
  active : g.txnManager.activeTxns = []
  counters : g.counters = (1, Timestamp.txnIdStart + 1)

theorem Restored.stamped (h : Restored rest g)
    (hKey : ∀ k id hd, rest k id = some hd → hd.data.id = id) : Stamped rest g := by
  refine ⟨?_, ?_, fun t ht => ?_, fun k id => .inl (h.chain k id), hKey, fun t e he => ?_,
    fun t k p hp => ?_⟩
  · rw [h.counters]
    exact Nat.one_pos
  · rw [h.counters]
    exact Nat.lt_succ_self _
  · rw [h.active] at ht
    cases ht
  · rw [h.txns] at he
    cases he
  · rw [h.txns] at hp
    cases k <;> cases hp

theorem restored_new {thr : Option Nat} {lock : LockStrategy} {iso : IsolationLevel} :
    Restored (fun _ _ => none) (.new thr lock iso : MemoryGraph V) := by
  refine ⟨fun k id => ?_, fun _ => rfl, rfl, rfl⟩
  cases k <;> rfl

theorem Logged.of_nil (hWal : g.wal = []) (hActive : g.txnManager.activeTxns = [])
    (hRedo : ∀ t, ∀ e ∈ (g.txns t).redoBuffer, e.isDelta = true ∧ e.txnId = t) : Logged g := by
  have hNone : ∀ e, e ∉ g.wal := by
    intro e
    rw [hWal]
    exact List.not_mem_nil
  refine ⟨fun e he => absurd he (hNone e), hRedo, ?_, ?_, fun e he => ?_,
    fun e he => absurd he (hNone e), fun t ht => ?_⟩
  · rw [hWal]
    exact List.nodup_nil
  · rw [hWal]
    exact List.IsChain.nil
  · exact absurd (List.mem_of_getLast? he) (hNone e)
  · rw [hActive] at ht
    cases ht

/-! ## A graph with its file -/

/-- Heads of this process, each under its own key. -/
structure CheckpointOk (g : MemoryGraph V) (c : GraphCheckpoint V) : Prop where
  nodup : ∀ k, ((c.heads k).map Prod.fst).Nodup
  key : ∀ k, ∀ p ∈ c.heads k, p.2.data.id = p.1
  stamp : ∀ k, ∀ p ∈ c.heads k, g.Stamp p.2.commitTs

theorem CheckpointOk.mono {c : GraphCheckpoint V} (h : CheckpointOk g c) (hMoves : MovesOn g g') :
    CheckpointOk g' c :=
  ⟨h.nodup, h.key, fun k p hp => (h.stamp k p hp).mono hMoves.ts hMoves.id⟩

theorem mem_heads_new {keys : MapKeys} {k : Kind} {p : Nat × CurrentVersion (Data V k)}
    (hp : p ∈ (GraphCheckpoint.new g keys).heads k) : ∃ c, g.chain k p.1 = some c ∧ p.2 = c.current := by
  cases k with
  | vertex =>
    obtain ⟨vid, -, hMap⟩ := List.mem_filterMap.mp hp
    obtain ⟨c, hc, rfl⟩ := Option.map_eq_some_iff.mp hMap
    exact ⟨c, hc, rfl⟩
  | edge =>
    obtain ⟨eid, -, hMap⟩ := List.mem_filterMap.mp hp
    obtain ⟨c, hc, rfl⟩ := Option.map_eq_some_iff.mp hMap
    exact ⟨c, hc, rfl⟩

theorem nodup_keys_filterMap {β : Type} (f : Nat → Option β) {keys : List Nat} (h : keys.Nodup) :
    ((keys.filterMap fun i => (f i).map fun b => (i, b)).map Prod.fst).Nodup := by
  induction keys with
  | nil => exact List.nodup_nil
  | cons i keys ih =>
    obtain ⟨hNot, hRest⟩ := List.nodup_cons.mp h
    cases hf : f i with
    | none =>
      rw [List.filterMap_cons_none (by rw [hf]; rfl)]
      exact ih hRest
    | some b =>
      rw [List.filterMap_cons_some (by rw [hf]; rfl), List.map_cons]
      refine List.nodup_cons.mpr ⟨fun hMem => hNot ?_, ih hRest⟩
      obtain ⟨p, hp, hEq⟩ := List.mem_map.mp hMem
      obtain ⟨i', hi', hMap⟩ := List.mem_filterMap.mp hp
      obtain ⟨b', -, rfl⟩ := Option.map_eq_some_iff.mp hMap
      rw [← show i' = i from hEq]
      exact hi'

theorem checkpointOk_new {keys : MapKeys} (h : Stamped (fun _ _ => none) g)
    (hKeys : g.ListsMaps keys) : CheckpointOk g (.new g keys) := by
  refine ⟨fun k => ?_, fun k p hp => ?_, fun k p hp => ?_⟩
  · cases k with
    | vertex =>
      have hNodup := nodup_keys_filterMap (fun vid => (g.vertices vid).map VersionChain.current)
        hKeys.vertices.nodup
      simp only [Option.map_map] at hNodup
      exact hNodup
    | edge =>
      have hNodup := nodup_keys_filterMap (fun eid => (g.edges eid).map VersionChain.current)
        hKeys.edges.nodup
      simp only [Option.map_map] at hNodup
      exact hNodup
  · obtain ⟨c, hc, hEq⟩ := mem_heads_new hp
    rw [hEq]
    exact (h.key hc).1
  · obtain ⟨c, hc, hEq⟩ := mem_heads_new hp
    rw [hEq]
    rcases h.entity k p.1 with hNone | hMoved
    · rw [hc] at hNone
      cases hNone
    · exact hMoved.stamp c hc

end MemoryGraph

open MemoryGraph

/-- The invariant of a graph with its file. -/
structure SessionOk (s : Session V) : Prop where
  stamped : Stamped (fun _ _ => none) s.graph
  logged : Logged s.graph
  bounds : InBounds s.graph
  checkpoint : ∀ c, s.checkpoint = some c → CheckpointOk s.graph c

namespace SessionOk

variable {s s' : Session V}

theorem new {thr : Option Nat} {lock : LockStrategy} {iso : IsolationLevel} :
    SessionOk (.new thr lock iso : Session V) := by
  have hNew : Restored (fun _ _ => none) (Session.new thr lock iso : Session V).graph := restored_new
  refine ⟨hNew.stamped fun _ _ _ hd => (nomatch hd), .of_nil rfl rfl fun t e he => ?_,
    ⟨?_, ?_⟩, fun _ hc => (nomatch hc)⟩
  · rw [hNew.txns] at he
    cases he
  · rw [hNew.counters]
    decide
  · rw [hNew.counters]
    decide

theorem createCheckpoint (h : SessionOk s) {keys : MapKeys}
    (hIdle : s.graph.txnManager.activeTxns = []) (hKeys : s.graph.ListsMaps keys) :
    SessionOk (s.createCheckpoint keys) := by
  have hStamped : Stamped (fun _ _ => none) (s.createCheckpoint keys).graph := by
    refine h.stamped.congr (Nat.le_refl _) (Nat.le_refl _) (fun _ ht => .inl ht) ?_
      (fun _ _ he => he) fun _ _ _ hp => hp
    funext k id
    cases k <;> rfl
  refine ⟨hStamped, .of_nil rfl hIdle h.logged.redo, ⟨h.bounds.ts, h.bounds.id⟩, fun c hc => ?_⟩
  cases hc
  have hOk := checkpointOk_new h.stamped hKeys
  exact ⟨hOk.nodup, hOk.key, hOk.stamp⟩

theorem step [DecidableEq V] (h : SessionOk s) {a : SessionAction V} (hs : Session.Step s a s') :
    SessionOk s' := by
  cases a with
  | call a =>
    obtain ⟨g, hStep, rfl⟩ := hs
    have hMoves := movesOn_step hStep
    exact ⟨h.stamped.step hStep, h.logged.step h.stamped hStep,
      ⟨hMoves.tsMax h.bounds.ts, hMoves.idMax h.bounds.id⟩, fun c hc => (h.checkpoint c hc).mono hMoves⟩
  | checkpoint keys =>
    obtain ⟨hIdle, hKeys, rfl⟩ := hs
    exact h.createCheckpoint hIdle hKeys

/-- **Every file that a run leaves is in order.** -/
theorem run [DecidableEq V] {P : Session V → SessionAction V → Prop}
    {trace : List (Session V × SessionAction V)} {thr : Option Nat} {lock : LockStrategy}
    {iso : IsolationLevel} (h : Run Session.Step P (.new thr lock iso) trace s) : SessionOk s :=
  h.stateInvariant new fun _ _ _ hOk _ hs => hOk.step hs

end SessionOk

/-! ## Restoring -/

namespace MemoryGraph

variable {rest : Heads V} {g g' : MemoryGraph V}

/-- Restored heads go under their keys, and nothing else changes. -/
theorem chain_restoreHeads {k : Kind} {heads : List (Nat × CurrentVersion (Data V k))}
    (h : (heads.map Prod.fst).Nodup) (k' : Kind) (id : Nat) :
    (k' ≠ k → (g.restoreHeads k heads).chain k' id = g.chain k' id) ∧
    (g.restoreHeads k heads).chain k id =
      ((heads.lookup id).map fun hd => ⟨hd, []⟩).or (g.chain k id) := by
  induction heads generalizing g with
  | nil => exact ⟨fun _ => rfl, rfl⟩
  | cons p heads ih =>
    obtain ⟨i, hd⟩ := p
    obtain ⟨hNot, hRest⟩ := List.nodup_cons.mp h
    obtain ⟨hOther, hSame⟩ := @ih (g.setChain k i (some ⟨hd, []⟩)) hRest
    refine ⟨fun hk => ?_, ?_⟩
    · refine (hOther hk).trans (chain_setChain_of_ne _ _ fun hEq => hk ?_)
      exact (Prod.mk.inj hEq).1
    · refine hSame.trans ?_
      by_cases hi : id = i
      · subst hi
        rw [lookup_eq_none_iff.mpr hNot, chain_setChain_self, List.lookup_cons_self]
        rfl
      · have hne : (k, id) ≠ (k, i) := fun hEq => hi (Prod.mk.inj hEq).2
        have hBeq : (id == i) = false := by simpa using hi
        rw [chain_setChain_of_ne _ _ hne, List.lookup_cons, hBeq]

theorem sameButStore_restoreHeads (k : Kind) (heads : List (Nat × CurrentVersion (Data V k))) :
    SameButStore g (g.restoreHeads k heads) := by
  induction heads generalizing g with
  | nil => exact ⟨rfl, rfl, rfl⟩
  | cons p heads ih => exact (SameButStore.setChain ..).trans ih

theorem restoreAdjacency_ok {adj : List (Nat × SerializedAdjacency)} {u : Unit}
    (h : g.restoreAdjacency adj = (g', .ok u)) : SameButAdjacency g g' := by
  induction adj generalizing g with
  | nil =>
    obtain ⟨rfl, -⟩ := Prod.mk.inj h
    exact .refl
  | cons p adj ih =>
    obtain ⟨vid, a⟩ := p
    unfold restoreAdjacency at h
    split at h
    · exact (SameButAdjacency.setAdjacency ..).trans (ih h)
    · cases (Prod.mk.inj h).2

/-- Restoring a checkpoint gives the heads that it lists. -/
theorem restored_restore {c : GraphCheckpoint V} {u : Unit} {thr : Option Nat} {lock : LockStrategy}
    {iso : IsolationLevel} (hNodup : ∀ k, ((c.heads k).map Prod.fst).Nodup)
    (h : (MemoryGraph.new thr lock iso).restore c = (g, .ok u)) :
    Restored (checkpointHeads (some c)) g := by
  have hAdj := restoreAdjacency_ok h
  set g₀ : MemoryGraph V := ({ (MemoryGraph.new thr lock iso : MemoryGraph V) with
    nextLsn := c.metadata.lsn + 1 }).setLatestCommitTs c.metadata.latestCommitTs with hg₀
  have hStore : SameButStore g₀ ((g₀.restoreHeads .vertex c.vertices).restoreHeads .edge c.edges) :=
    (sameButStore_restoreHeads ..).trans (sameButStore_restoreHeads ..)
  have hEmpty : ∀ k id, g₀.chain k id = none := by
    intro k id
    cases k <;> rfl
  have hVertices := fun k' id => @chain_restoreHeads V g₀ .vertex c.vertices (hNodup .vertex) k' id
  have hEdges := fun k' id => @chain_restoreHeads V (g₀.restoreHeads .vertex c.vertices) .edge c.edges
    (hNodup .edge) k' id
  refine ⟨fun k id => ?_, fun t => ?_, ?_, ?_⟩
  · rw [hAdj.chain]
    cases k with
    | vertex =>
      rw [(hEdges .vertex id).1 (fun hk => by cases hk), (hVertices .vertex id).2, hEmpty,
        Option.or_none]
      rfl
    | edge =>
      rw [(hEdges .edge id).2, (hVertices .edge id).1 (fun hk => by cases hk), hEmpty,
        Option.or_none]
      rfl
  · rw [hAdj.txns, hStore.txns]
    rfl
  · rw [hAdj.txnManager, hStore.txnManager]
    rfl
  · rw [hAdj.counters, hStore.counters]
    rfl

/-- **A recovery is a restore and a replay.** -/
theorem recover_ok [DecidableEq V] {s : Session V} (hOk : SessionOk s) {es : List (RedoEntry V)}
    {u : Unit} {thr : Option Nat} {lock : LockStrategy} {iso : IsolationLevel}
    (h : (MemoryGraph.new thr lock iso).recover s.checkpoint es = (g, .ok u)) :
    ∃ g₀, Restored (checkpointHeads s.checkpoint) g₀ ∧
      Stamped (checkpointHeads s.checkpoint) g₀ ∧ g₀.applyWalEntries none es = (g, .ok u) := by
  unfold recover at h
  cases hc : s.checkpoint with
  | none =>
    rw [hc] at h
    have hNew : Restored (checkpointHeads none) (MemoryGraph.new thr lock iso : MemoryGraph V) :=
      restored_new
    exact ⟨_, hNew, hNew.stamped fun _ _ _ hd => (nomatch hd), h⟩
  | some c =>
    rw [hc] at h
    dsimp only at h
    split at h
    · cases (Prod.mk.inj h).2
    · rename_i g₀ u' hRestore
      have hCheck := hOk.checkpoint c hc
      have hRestored := restored_restore hCheck.nodup hRestore
      refine ⟨g₀, hRestored, hRestored.stamped fun k id hd hEq => ?_, h⟩
      exact hCheck.key k (id, hd) (mem_of_lookup_eq_some hEq)

/-! ## Runs by evaluation -/

/-- Calls one after another, whatever they return. -/
def callAll [DecidableEq V] (g : MemoryGraph V) (as : List (Action V)) : MemoryGraph V :=
  as.foldl (fun g a => (g.exec a).1) g

/-- Whether all of them are enabled and none panics. -/
def canCallAll [DecidableEq V] : MemoryGraph V → List (Action V) → Bool
  | _, [] => true
  | g, a :: as =>
    g.isEnabled a && (match (g.exec a).2 with
      | .error .panicked => false
      | _ => true) && canCallAll (g.exec a).1 as

theorem step_exec [DecidableEq V] {a : Action V} (hEnabled : g.isEnabled a = true)
    (hOk : (match (g.exec a).2 with
      | .error .panicked => false
      | _ => true) = true) : Step g a (g.exec a).1 := by
  refine ⟨enabled_of_isEnabled hEnabled, (g.exec a).2, rfl, fun hPanic => ?_⟩
  rw [hPanic] at hOk
  cases hOk

end MemoryGraph

theorem Session.run_callAll [DecidableEq V] {s₀ : Session V} {as : List (Action V)}
    {trace : List (Session V × SessionAction V)} {g : MemoryGraph V}
    {c : Option (GraphCheckpoint V)}
    (hRun : Run Session.Step (fun _ _ => True) s₀ trace ⟨g, c⟩) (hOk : g.canCallAll as = true) :
    ∃ trace', Run Session.Step (fun _ _ => True) s₀ trace' ⟨g.callAll as, c⟩ := by
  induction as generalizing g trace with
  | nil => exact ⟨trace, hRun⟩
  | cons a as ih =>
    unfold canCallAll at hOk
    rw [Bool.and_eq_true, Bool.and_eq_true] at hOk
    obtain ⟨⟨hEnabled, hNoPanic⟩, hRest⟩ := hOk
    have hStep : Session.Step ⟨g, c⟩ (.call a) ⟨(g.exec a).1, c⟩ :=
      ⟨_, step_exec hEnabled hNoPanic, rfl⟩
    exact ih (hRun.snoc trivial hStep) hRest

end MiniGU
