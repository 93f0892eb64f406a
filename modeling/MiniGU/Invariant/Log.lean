import Mathlib.Data.List.Chain
import MiniGU.Invariant.Stamps

/-!
# What a run writes to its log

Only three calls write to the log: a begin, an abort, and a commit, which writes the redo
buffer of its transaction first. `Logs` says what the end of a transaction may write;
everything else leaves the log and the redo buffers alone (`SameLog`) or adds to the redo
buffer of an active transaction. `Logged` collects what follows for the whole log, whatever
the order of the calls: the ids in it have been handed out, its begins have ids of their
own, and no abort comes right after a delta.
-/

namespace MiniGU

variable {V : Type}

namespace RedoEntry

def isBegin (e : RedoEntry V) : Bool :=
  match e.op with
  | .beginTransaction _ => true
  | _ => false

def isAbort (e : RedoEntry V) : Bool :=
  match e.op with
  | .abortTransaction => true
  | _ => false

def isDelta (e : RedoEntry V) : Bool :=
  match e.op with
  | .delta _ => true
  | _ => false

end RedoEntry

/-- The begins of a log have ids of their own. -/
def BeginsApart (es : List (RedoEntry V)) : Prop :=
  ((es.filter RedoEntry.isBegin).map RedoEntry.txnId).Nodup

/-- No abort comes right after a delta. -/
def DeltasKept (es : List (RedoEntry V)) : Prop :=
  es.IsChain fun d e => d.isDelta = true → e.isAbort = false

theorem DeltasKept.cut {es w : List (RedoEntry V)} (h : DeltasKept es) (hCut : w <+: es) :
    DeltasKept w := by
  obtain ⟨lost, rfl⟩ := hCut
  exact List.IsChain.left_of_append h

theorem BeginsApart.tail {e : RedoEntry V} {es : List (RedoEntry V)} (h : BeginsApart (e :: es)) :
    BeginsApart es := by
  unfold BeginsApart at h ⊢
  rw [List.filter_cons] at h
  split at h
  · exact (List.nodup_cons.mp h).2
  · exact h

theorem BeginsApart.head {e : RedoEntry V} {es : List (RedoEntry V)} (h : BeginsApart (e :: es))
    (he : e.isBegin = true) :
    ∀ e' ∈ es, e'.isBegin = true → e.txnId ≠ e'.txnId := by
  unfold BeginsApart at h
  rw [List.filter_cons_of_pos he, List.map_cons, List.nodup_cons] at h
  intro e' he' hBegin hEq
  exact h.1 (List.mem_map.mpr ⟨e', List.mem_filter.mpr ⟨he', hBegin⟩, hEq.symm⟩)

namespace MemoryGraph

/-- The log and the redo buffers are the same. -/
structure SameLog (g g' : MemoryGraph V) : Prop where
  wal : g'.wal = g.wal
  nextLsn : g'.nextLsn = g.nextLsn
  redo : ∀ t, (g'.txns t).redoBuffer = (g.txns t).redoBuffer

variable {g g' g₁ : MemoryGraph V} {txn : MemTransaction}

namespace SameLog

theorem refl : SameLog g g := ⟨rfl, rfl, fun _ => rfl⟩

theorem trans (h : SameLog g g₁) (h' : SameLog g₁ g') : SameLog g g' :=
  ⟨h'.wal.trans h.wal, h'.nextLsn.trans h.nextLsn, fun t => (h'.redo t).trans (h.redo t)⟩

theorem setChain (k : Kind) (id : Nat) (c : Option (VersionChain (Data V k) (DeltaOp V))) :
    SameLog g (g.setChain k id c) := by
  cases k <;> exact ⟨rfl, rfl, fun _ => rfl⟩

theorem setAdjacency (vid : Nat) (a : Option AdjacencyContainer) :
    SameLog g (g.setAdjacency vid a) := ⟨rfl, rfl, fun _ => rfl⟩

theorem withManager (m : MemTxnManager) : SameLog g (g.withManager m) := ⟨rfl, rfl, fun _ => rfl⟩

theorem modifyTxn {t : Nat} {f : TxnState V → TxnState V}
    (hf : ∀ s, (f s).redoBuffer = s.redoBuffer) : SameLog g (g.modifyTxn t f) := by
  refine ⟨rfl, rfl, fun u => ?_⟩
  by_cases hu : u = t
  · subst hu
    rw [txns_modifyTxn_self, hf]
  · rw [txns_modifyTxn_of_ne _ _ hu]

theorem foldl {α : Type} {f : MemoryGraph V → α → MemoryGraph V} (hf : ∀ h a, SameLog h (f h a))
    (l : List α) (h : MemoryGraph V) : SameLog h (l.foldl f h) := by
  induction l generalizing h with
  | nil => exact refl
  | cons a l ih => exact (hf h a).trans (ih (f h a))

theorem appendWal (h : SameLog g g') (op : Operation V) :
    SameLog (g.appendWal txn op) (g'.appendWal txn op) := by
  refine ⟨?_, ?_, h.redo⟩
  · show g'.wal ++ _ = g.wal ++ _
    rw [h.wal, h.nextLsn]
  · show g'.nextLsn + 1 = g.nextLsn + 1
    rw [h.nextLsn]

theorem flushRedoAndCommitWal (h : SameLog g g') (commitTs : Nat) :
    SameLog (g.flushRedoAndCommitWal txn commitTs) (g'.flushRedoAndCommitWal txn commitTs) := by
  refine ⟨?_, ?_, fun t => ?_⟩
  · show (g'.wal ++ (g'.txns txn.txnId).redoBuffer.mapIdx _) ++ _ =
      (g.wal ++ (g.txns txn.txnId).redoBuffer.mapIdx _) ++ _
    rw [h.wal, h.nextLsn, h.redo]
  · show g'.nextLsn + (g'.txns txn.txnId).redoBuffer.length + 1 =
      g.nextLsn + (g.txns txn.txnId).redoBuffer.length + 1
    rw [h.nextLsn, h.redo]
  · rw [txns_flushRedoAndCommitWal, txns_flushRedoAndCommitWal]
    by_cases ht : t = txn.txnId
    · subst ht
      rw [txns_modifyTxn_self, txns_modifyTxn_self]
    · rw [txns_modifyTxn_of_ne _ _ ht, txns_modifyTxn_of_ne _ _ ht, h.redo]

/-! ## The parts of a commit and of an abort -/

theorem removeVertexAndAdjacencies (vid : Nat) : SameLog g (g.removeVertexAndAdjacencies vid) :=
  (((SameLog.setChain ..).trans (foldl (fun _ _ => SameLog.setAdjacency ..) _ _)).trans
    (foldl (fun _ _ => SameLog.setAdjacency ..) _ _)).trans (SameLog.setAdjacency ..)

theorem removeAdjacency (e : Edge V) : SameLog g (g.removeAdjacency e) :=
  (SameLog.setAdjacency ..).trans (SameLog.setAdjacency ..)

theorem insertAdjacency (e : Edge V) : SameLog g (g.insertAdjacency e) :=
  (SameLog.setAdjacency ..).trans (SameLog.setAdjacency ..)

theorem cleanupExpiredEdge (edge : Edge V) : SameLog g (g.cleanupExpiredEdge edge) := by
  have hIf : ∀ (b : Bool) (h : MemoryGraph V) (vid : Nat), SameLog g h →
      SameLog g (if b then h.removeVertexAndAdjacencies vid else h) := by
    intro b h vid hh
    cases b with
    | false => exact hh
    | true => exact hh.trans (SameLog.removeVertexAndAdjacencies vid)
  have h₂ := hIf (g.isTombstoned .vertex edge.dstId) _ edge.dstId
    (hIf (g.isTombstoned .vertex edge.srcId) g edge.srcId refl)
  unfold MemoryGraph.cleanupExpiredEdge
  dsimp only
  split
  · exact (h₂.trans (SameLog.setChain ..)).trans (SameLog.removeAdjacency edge)
  · exact h₂

theorem garbageCollect : SameLog g g.garbageCollect := by
  have hFold : SameLog g (g.expiredEdges.foldl (fun h p => h.cleanupExpiredEdge p.2) g) :=
    foldl (fun _ (p : Nat × Edge V) => SameLog.cleanupExpiredEdge p.2) _ _
  exact hFold.trans (SameLog.withManager _)

theorem finishTransaction : SameLog g (g.finishTransaction txn).1 := by
  have hRetire : SameLog g (g.retire txn) := SameLog.withManager _
  unfold MemoryGraph.finishTransaction
  split
  · dsimp only
    unfold collectAtThreshold
    split
    · split
      · exact hRetire.trans SameLog.garbageCollect
      · exact hRetire
    · exact hRetire
  · exact refl

theorem abortEntry (e : UndoEntry (DeltaOp V)) : SameLog g (MemoryGraph.abortEntry txn g e) := by
  unfold MemoryGraph.abortEntry
  split
  · exact refl
  · split
    · exact refl
    · split
      · exact SameLog.setChain ..
      · exact refl

theorem undoAll : SameLog g (g.undoAll txn) := by
  have hDrain : SameLog g (g.modifyTxn txn.txnId fun s => { s with undoBuffer := [] }) :=
    SameLog.modifyTxn fun _ => rfl
  exact hDrain.trans (foldl (fun _ e => SameLog.abortEntry e) _ _)

theorem clearWrites : SameLog g (g.clearWrites txn) := SameLog.modifyTxn fun _ => rfl

theorem markHandled : SameLog g (g.markHandled txn) := SameLog.modifyTxn fun _ => rfl

theorem setCommitTs {commitTs : Nat} (h : g.setCommitTs txn commitTs = some g') : SameLog g g' := by
  obtain ⟨-, -, rfl⟩ := setCommitTs_some h
  exact SameLog.modifyTxn fun _ => rfl

theorem publishAll (commitTs : Nat) (deltas : List (DeltaOp V)) :
    SameLog g (MemoryGraph.publishAll commitTs g deltas).1 := by
  induction deltas generalizing g with
  | nil => exact refl
  | cons δ deltas ih =>
    unfold MemoryGraph.publishAll
    split
    · exact refl
    · rename_i g₁ hPub
      obtain ⟨k, id, c, -, -, rfl⟩ := publish_some hPub
      exact (SameLog.setChain ..).trans ih

theorem writeVersion {k : Kind} {id : Nat} {c : VersionChain (Data V k) (DeltaOp V)}
    (delta : DeltaOp V) (ts : Nat) (d : Data V k) :
    SameLog g (g.writeVersion txn k id c delta ts d) := by
  have hPush : SameLog g (g.pushUndo txn.txnId ⟨delta, ts, c.undoPtr⟩) :=
    SameLog.modifyTxn fun _ => rfl
  exact hPush.trans (SameLog.setChain ..)

theorem linkAdjacency {k : Kind} (d : Data V k) : SameLog g (g.linkAdjacency d) := by
  cases k with
  | vertex => exact refl
  | edge => exact SameLog.insertAdjacency d

theorem unlinkAdjacency {k : Kind} (d : Data V k) : SameLog g (g.unlinkAdjacency d) := by
  cases k with
  | vertex => exact refl
  | edge => exact SameLog.removeAdjacency d

theorem applyIntents [DecidableEq V] {k : Kind} (ws : List (Nat × WriteIntent (Data V k))) :
    SameLog g (MemoryGraph.applyIntents txn k g ws).1 := by
  have hOne : ∀ (h : MemoryGraph V) (w : Nat × WriteIntent (Data V k)),
      SameLog h (applyIntent txn k h w.1 w.2).1 := by
    rintro h ⟨id, guardTs, kind⟩
    unfold applyIntent
    cases kind with
    | insert d => exact (SameLog.writeVersion ..).trans (SameLog.linkAdjacency d)
    | update before after =>
      dsimp only
      split
      · exact refl
      · exact SameLog.writeVersion ..
    | delete before =>
      dsimp only
      split
      · exact refl
      · exact (SameLog.writeVersion ..).trans (SameLog.unlinkAdjacency _)
  induction ws generalizing g with
  | nil => exact refl
  | cons w ws ih =>
    have hHead := hOne g w
    obtain ⟨id, intent⟩ := w
    unfold MemoryGraph.applyIntents
    cases hRes : applyIntent txn k g id intent with
    | mk g₁ r =>
      rw [hRes] at hHead
      cases r with
      | error e => exact hHead
      | ok u => exact hHead.trans ih

theorem stampOwn (commitTs : Nat) (k : Kind) (id : Nat) :
    SameLog g (MemoryGraph.stampOwn txn commitTs k g id) := by
  unfold MemoryGraph.stampOwn
  split
  · exact refl
  · split
    · exact SameLog.setChain ..
    · exact refl

theorem stampAll (commitTs : Nat) (vids eids : List Nat) :
    SameLog g (g.stampAll txn commitTs vids eids) :=
  (foldl (fun _ id => SameLog.stampOwn commitTs .vertex id) _ _).trans
    (foldl (fun _ id => SameLog.stampOwn commitTs .edge id) _ _)

end SameLog

/-! ## The end of a transaction -/

/-- What the end of a transaction may write. -/
inductive Logs (g g' : MemoryGraph V) (txn : MemTransaction) : Prop where
  | quiet (h : SameLog g g')
  | abort (h : SameLog (g.appendWal txn .abortTransaction) g')
  | commit (commitTs : Nat) (h : SameLog (g.flushRedoAndCommitWal txn commitTs) g')

theorem Logs.of_sameLog (h : SameLog g g₁) (hl : Logs g₁ g' txn) : Logs g g' txn := by
  cases hl with
  | quiet hl => exact .quiet (h.trans hl)
  | abort hl => exact .abort ((h.appendWal _).trans hl)
  | commit commitTs hl => exact .commit commitTs ((h.flushRedoAndCommitWal _).trans hl)

theorem Logs.then (h : Logs g g₁ txn) (hs : SameLog g₁ g') : Logs g g' txn := by
  cases h with
  | quiet h => exact .quiet (h.trans hs)
  | abort h => exact .abort (h.trans hs)
  | commit commitTs h => exact .commit commitTs (h.trans hs)

theorem logs_abortAt : SameLog (g.appendWal txn .abortTransaction) (g.abortAt txn false).1 := by
  have hDrained : SameLog (g.appendWal txn .abortTransaction) (g.abortDrained txn false) :=
    (SameLog.undoAll.appendWal _).trans SameLog.clearWrites
  have hFin : SameLog (g.abortDrained txn false)
      ((g.abortDrained txn false).finishTransaction txn).1 := SameLog.finishTransaction
  rw [abortAt_eq]
  cases hRes : (g.abortDrained txn false).finishTransaction txn with
  | mk g₁ r =>
    rw [hRes] at hFin
    cases r with
    | error e => exact hDrained.trans hFin
    | ok u => exact (hDrained.trans hFin).trans SameLog.markHandled

theorem logs_abortWith {α : Type} {err : StorageError} :
    Logs g (g.abortWith txn err : Outcome V α).1 txn := by
  rw [abortWith_fst]
  exact .abort logs_abortAt

theorem logs_finalize (commitTs : Nat) {r : Outcome V Nat}
    (hr : r.1 = (g.finalizeCommitCommon txn commitTs false).1) : Logs g r.1 txn := by
  rw [hr, finalizeCommitCommon_logged]
  have hLogged : SameLog (g.flushRedoAndCommitWal txn commitTs)
      (g.commitLogged txn commitTs false) := (SameLog.withManager _).trans SameLog.clearWrites
  exact .commit commitTs (hLogged.trans SameLog.finishTransaction)

theorem logs_commitPessimistic {commitTs : Nat} :
    Logs g (g.commitPessimistic txn commitTs false).1 txn := by
  unfold commitPessimistic
  cases hSet : g.setCommitTs txn commitTs with
  | none => exact logs_abortWith
  | some g₁ =>
    have hPub := @SameLog.publishAll V g₁ commitTs ((g₁.txns txn.txnId).undoBuffer.map
      UndoEntry.delta)
    dsimp only
    cases hRes : publishAll commitTs g₁ ((g₁.txns txn.txnId).undoBuffer.map UndoEntry.delta) with
    | mk g₂ r =>
      rw [hRes] at hPub
      have hBoth := (SameLog.setCommitTs hSet).trans hPub
      cases r with
      | error e => exact .quiet hBoth
      | ok u =>
        refine Logs.of_sameLog hBoth (logs_finalize commitTs ?_)
        dsimp only
        cases g₂.finalizeCommitCommon txn commitTs false with
        | mk g₃ r => cases r <;> rfl

/-- An optimistic commit logs a commit with its entries, or an abort, or nothing. -/
theorem logs_commitOptimistic [DecidableEq V] {commitTs : Nat} :
    Logs g (g.commitOptimistic txn commitTs false).1 txn := by
  unfold commitOptimistic
  dsimp only
  split
  · exact logs_abortWith
  · split
    · exact logs_abortWith
    · have hVertices := @SameLog.applyIntents V g txn _ .vertex (g.txns txn.txnId).vertexWrites
      cases hV : applyIntents txn .vertex g (g.txns txn.txnId).vertexWrites with
      | mk g₁ r₁ =>
        rw [hV] at hVertices
        cases r₁ with
        | error e => exact .quiet hVertices
        | ok u =>
          have hEdges := @SameLog.applyIntents V g₁ txn _ .edge (g.txns txn.txnId).edgeWrites
          dsimp only
          cases hE : applyIntents txn .edge g₁ (g.txns txn.txnId).edgeWrites with
          | mk g₂ r₂ =>
            rw [hE] at hEdges
            have hBoth := hVertices.trans hEdges
            cases r₂ with
            | error e => exact .quiet hBoth
            | ok u =>
              have hStamp := hBoth.trans (@SameLog.stampAll V g₂ txn commitTs
                ((g.txns txn.txnId).vertexWrites.map Prod.fst)
                ((g.txns txn.txnId).edgeWrites.map Prod.fst))
              dsimp only
              generalize g₂.stampAll txn commitTs _ _ = g₃ at hStamp ⊢
              cases hSet : g₃.setCommitTs txn commitTs with
              | none => exact .of_sameLog hStamp logs_abortWith
              | some g₄ =>
                refine .of_sameLog (hStamp.trans (SameLog.setCommitTs hSet)) (logs_finalize commitTs ?_)
                dsimp only
                cases g₄.finalizeCommitCommon txn commitTs false with
                | mk g₅ r => cases r <;> rfl

/-- **What a commit may write**, whichever way it goes. -/
theorem logs_commitAt [DecidableEq V] {ts? : Option Nat} :
    Logs g (g.commitAt txn ts? false).1 txn := by
  unfold commitAt
  cases hTs : g.timestampGenerator.obtain ts? with
  | error e => exact .quiet .refl
  | ok p =>
    obtain ⟨ts, gen⟩ := p
    have hTake : SameLog g { g with timestampGenerator := gen } := ⟨rfl, rfl, fun _ => rfl⟩
    have hLocked : Logs g
        (({ g with timestampGenerator := gen } : MemoryGraph V).commitLocked txn ts false).1 txn := by
      refine .of_sameLog hTake ?_
      unfold commitLocked
      dsimp only
      split
      · exact logs_abortWith
      · split
        · exact logs_commitPessimistic
        · exact logs_commitOptimistic
    dsimp only
    cases hRes : ({ g with timestampGenerator := gen } : MemoryGraph V).commitLocked txn ts
      false with
    | mk g₁ r =>
      rw [hRes] at hLocked
      cases r with
      | error e => exact hLocked
      | ok ts' => exact hLocked.then SameLog.markHandled

/-! ## The whole log -/

/-- An id that was handed out. -/
def IdIssued (g : MemoryGraph V) (id : Nat) : Prop :=
  Timestamp.txnIdStart < id ∧ id < g.counters.2

/-- The log holds the begin of the transaction with this id. -/
def HasBegun (es : List (RedoEntry V)) (id : Nat) : Prop :=
  ∃ b ∈ es, b.isBegin = true ∧ b.txnId = id

structure Logged (g : MemoryGraph V) : Prop where
  ids : ∀ e ∈ g.wal, g.IdIssued e.txnId
  redo : ∀ t, ∀ e ∈ (g.txns t).redoBuffer, e.isDelta = true ∧ e.txnId = t
  apart : BeginsApart g.wal
  kept : DeltasKept g.wal
  last : ∀ e ∈ g.wal.getLast?, e.isDelta = false
  begun : ∀ e ∈ g.wal, HasBegun g.wal e.txnId
  active : ∀ t ∈ g.txnManager.activeTxns, HasBegun g.wal t.txnId

theorem HasBegun.append {es es' : List (RedoEntry V)} {id : Nat} (h : HasBegun es id) :
    HasBegun (es ++ es') id := by
  obtain ⟨b, hb, hBegin, hId⟩ := h
  exact ⟨b, List.mem_append_left _ hb, hBegin, hId⟩

theorem IdIssued.mono {id : Nat} (h : g.IdIssued id) (hLe : g.counters.2 ≤ g'.counters.2) :
    g'.IdIssued id := ⟨h.1, Nat.lt_of_lt_of_le h.2 hLe⟩

namespace Logged

/-- **The one way this invariant is kept**: a block is appended to the log. -/
theorem append (h : Logged g) {block : List (RedoEntry V)} (hWal : g'.wal = g.wal ++ block)
    (hLe : g.counters.2 ≤ g'.counters.2) (hIds : ∀ e ∈ block, g'.IdIssued e.txnId)
    (hApart : BeginsApart block)
    (hNew : ∀ e ∈ block, e.isBegin = true → g.counters.2 ≤ e.txnId) (hKept : DeltasKept block)
    (hLast : ∀ e ∈ block.getLast?, e.isDelta = false)
    (hBegun : ∀ e ∈ block, HasBegun g.wal e.txnId ∨ HasBegun block e.txnId)
    (hActive : ∀ t ∈ g'.txnManager.activeTxns,
      t ∈ g.txnManager.activeTxns ∨ HasBegun block t.txnId)
    (hRedo : ∀ t, ∀ e ∈ (g'.txns t).redoBuffer,
      e ∈ (g.txns t).redoBuffer ∨ (e.isDelta = true ∧ e.txnId = t)) : Logged g' := by
  have hBlock : ∀ id, HasBegun block id → HasBegun g'.wal id := by
    rintro id ⟨b, hb, hBegin, hId⟩
    rw [hWal]
    exact ⟨b, List.mem_append_right _ hb, hBegin, hId⟩
  have hOld : ∀ id, HasBegun g.wal id → HasBegun g'.wal id := by
    intro id hId
    rw [hWal]
    exact hId.append
  refine ⟨fun e he => ?_, fun t e he => ?_, ?_, ?_, fun e he => ?_, fun e he => ?_, fun t ht => ?_⟩
  · rw [hWal] at he
    rcases List.mem_append.mp he with hOld | hBlock
    · exact (h.ids e hOld).mono hLe
    · exact hIds e hBlock
  · rcases hRedo t e he with hOld | hOk
    · exact h.redo t e hOld
    · exact hOk
  · -- a begin of the block has an id above all the old ones
    rw [hWal]
    unfold BeginsApart
    rw [List.filter_append, List.map_append]
    refine List.nodup_append.mpr ⟨h.apart, hApart, fun a ha b hb hEq => ?_⟩
    obtain ⟨e, he, rfl⟩ := List.mem_map.mp ha
    obtain ⟨e', he', rfl⟩ := List.mem_map.mp hb
    obtain ⟨hMem, -⟩ := List.mem_filter.mp he
    obtain ⟨hMem', hBegin'⟩ := List.mem_filter.mp he'
    have hLt := (h.ids e hMem).2
    have hGe := hNew e' hMem' hBegin'
    omega
  · rw [hWal]
    refine List.IsChain.append h.kept hKept fun d hd e _ hDelta => ?_
    rw [h.last d hd] at hDelta
    cases hDelta
  · rw [hWal, List.getLast?_append] at he
    cases hBlock : block.getLast? with
    | none =>
      rw [hBlock, Option.none_or] at he
      exact h.last e he
    | some e' =>
      rw [hBlock, Option.some_or] at he
      exact hLast e (by rw [hBlock]; exact he)
  · rw [hWal] at he
    rcases List.mem_append.mp he with hIn | hIn
    · exact hOld _ (h.begun e hIn)
    · exact (hBegun e hIn).elim (hOld _) (hBlock _)
  · exact (hActive t ht).elim (fun hIn => hOld _ (h.active t hIn)) (hBlock _)

theorem quiet (h : Logged g) (hWal : g'.wal = g.wal) (hLe : g.counters.2 ≤ g'.counters.2)
    (hActive : ∀ t ∈ g'.txnManager.activeTxns, t ∈ g.txnManager.activeTxns)
    (hRedo : ∀ t, ∀ e ∈ (g'.txns t).redoBuffer,
      e ∈ (g.txns t).redoBuffer ∨ (e.isDelta = true ∧ e.txnId = t)) : Logged g' := by
  have hNil : g'.wal = g.wal ++ [] := by rw [hWal, List.append_nil]
  exact h.append hNil hLe (fun _ he => by cases he) List.nodup_nil (fun _ he => by cases he)
    List.IsChain.nil (fun _ he => by cases he) (fun _ he => by cases he)
    (fun t ht => .inl (hActive t ht)) hRedo

theorem single (h : Logged g) {e : RedoEntry V} (hWal : g'.wal = g.wal ++ [e])
    (hLe : g.counters.2 ≤ g'.counters.2) (hId : g'.IdIssued e.txnId)
    (hNew : e.isBegin = true → g.counters.2 ≤ e.txnId) (hDelta : e.isDelta = false)
    (hBegun : e.isBegin = false → HasBegun g.wal e.txnId)
    (hActive : ∀ t ∈ g'.txnManager.activeTxns,
      t ∈ g.txnManager.activeTxns ∨ HasBegun [e] t.txnId)
    (hRedo : ∀ t, ∀ e ∈ (g'.txns t).redoBuffer, e ∈ (g.txns t).redoBuffer) : Logged g' := by
  refine h.append hWal hLe (fun e' he' => ?_) ?_ (fun e' he' hBegin => ?_)
    (List.IsChain.singleton e) (fun e' he' => ?_) (fun e' he' => ?_) hActive
    fun t d hd => .inl (hRedo t d hd)
  · rw [List.mem_singleton.mp he']
    exact hId
  · unfold BeginsApart
    rw [List.filter_singleton]
    cases e.isBegin with
    | false => exact List.nodup_nil
    | true => exact List.nodup_singleton _
  · rw [List.mem_singleton.mp he'] at hBegin ⊢
    exact hNew hBegin
  · rw [List.getLast?_singleton] at he'
    cases he'
    exact hDelta
  · rw [List.mem_singleton.mp he']
    cases hBegin : e.isBegin with
    | false => exact .inl (hBegun hBegin)
    | true => exact .inr ⟨e, List.mem_singleton_self e, hBegin, rfl⟩

theorem sameLog (h : Logged g) (hs : SameLog g g') (hLe : g.counters.2 ≤ g'.counters.2)
    (hActive : ∀ t ∈ g'.txnManager.activeTxns, t ∈ g.txnManager.activeTxns) : Logged g' :=
  h.quiet hs.wal hLe hActive fun t _ he => .inl (hs.redo t ▸ he)

theorem pushRedo (h : Logged g) (delta : DeltaOp V) : Logged (g.pushRedo txn delta) := by
  refine h.quiet rfl (Nat.le_refl _) (fun _ ht => ht) fun t e he => ?_
  unfold MemoryGraph.pushRedo at he
  by_cases ht : t = txn.txnId
  · subst ht
    rw [txns_modifyTxn_self] at he
    rcases List.mem_append.mp he with hOld | hNew
    · exact .inl hOld
    · rw [List.mem_singleton.mp hNew]
      exact .inr ⟨rfl, rfl⟩
  · rw [txns_modifyTxn_of_ne _ _ ht] at he
    exact .inl he

theorem opStep (h : Logged g) (hs : OpStep txn g g') : Logged g' := by
  have hWrite : ∀ {k : Kind} {id : Nat} {c : VersionChain (Data V k) (DeltaOp V)} (δ : DeltaOp V)
      (ts : Nat) (d : Data V k), Logged (g.writeVersion txn k id c δ ts d) := fun δ ts d =>
    h.sameLog (SameLog.writeVersion δ ts d) (by simp) fun t ht => by
      rwa [txnManager_writeVersion] at ht
  cases hs with
  | note k id =>
    refine h.sameLog (SameLog.modifyTxn fun s => ?_) (Nat.le_refl _) fun _ ht => ht
    cases k <;> rfl
  | @create k d _ _ =>
    have hSame : SameButAdjacency (g.writeVersion txn k d.id ⟨⟨d, txn.txnId⟩, []⟩ (.del k d.id)
        (createMarker txn k) d) _ := SameButAdjacency.linkAdjacency d
    refine ((hWrite ..).sameLog (SameLog.linkAdjacency d) (by rw [hSame.counters]) fun t ht => ?_).pushRedo _
    rwa [hSame.txnManager] at ht
  | delete => exact (hWrite ..).pushRedo _
  | set => exact (hWrite ..).pushRedo _
  | @stage k id intent _ _ =>
    refine h.sameLog (SameLog.modifyTxn fun s => ?_) (Nat.le_refl _) fun _ ht => ht
    cases k <;> rfl
  | redo delta _ => exact h.pushRedo delta

theorem opSteps (h : Logged g) (hs : OpSteps txn g g') : Logged g' := by
  induction hs with
  | refl => exact h
  | tail hs hStep ih => exact ih.opStep hStep

/-- The end of a transaction keeps the log one that belongs to the transactions of the run. -/
theorem logs (h : Logged g) (hId : g.IdIssued txn.txnId) (ht : txn ∈ g.txnManager.activeTxns)
    (hl : Logs g g' txn) (hLe : g.counters.2 ≤ g'.counters.2)
    (hActive : ∀ t ∈ g'.txnManager.activeTxns, t ∈ g.txnManager.activeTxns) : Logged g' := by
  cases hl with
  | quiet hs => exact h.sameLog hs hLe hActive
  | abort hs =>
    refine h.single hs.wal hLe (hId.mono hLe) (fun hBegin => by cases hBegin) rfl
      (fun _ => h.active txn ht) (fun t ht => .inl (hActive t ht)) fun t e he => ?_
    rwa [hs.redo t] at he
  | commit commitTs hs =>
    -- the block is the redo buffer, with LSNs, and the marker: no begin and no abort in it
    set block : List (RedoEntry V) :=
      (g.txns txn.txnId).redoBuffer.mapIdx (fun i e => { e with lsn := g.nextLsn + i }) ++
        [⟨g.nextLsn + (g.txns txn.txnId).redoBuffer.length, txn.txnId, txn.isolationLevel,
          .commitTransaction commitTs⟩] with hBlock
    have hWal : g'.wal = g.wal ++ block := by
      rw [hs.wal, hBlock, ← List.append_assoc]
      rfl
    have hDeltas : ∀ e : RedoEntry V, e.isDelta = true → e.isBegin = false ∧ e.isAbort = false := by
      intro e he
      unfold RedoEntry.isDelta at he
      unfold RedoEntry.isBegin RedoEntry.isAbort
      cases hOp : e.op with
      | delta δ => exact ⟨rfl, rfl⟩
      | beginTransaction s => rw [hOp] at he; cases he
      | commitTransaction ts => rw [hOp] at he; cases he
      | abortTransaction => rw [hOp] at he; cases he
    have hAll : ∀ e ∈ block, e.isBegin = false ∧ e.isAbort = false ∧ e.txnId = txn.txnId := by
      intro e he
      rcases List.mem_append.mp he with hRedo | hMarker
      · obtain ⟨i, hi, rfl⟩ := List.mem_mapIdx.mp hRedo
        obtain ⟨hDelta, hOwn⟩ := h.redo txn.txnId _ (List.getElem_mem hi)
        obtain ⟨hBegin, hAbort⟩ := hDeltas _ hDelta
        exact ⟨hBegin, hAbort, hOwn⟩
      · rw [List.mem_singleton.mp hMarker]
        exact ⟨rfl, rfl, rfl⟩
    refine h.append hWal hLe (fun e he => ?_) ?_ (fun e he hBegin => ?_) ?_
      (fun e he => ?_) (fun e he => .inl ?_) (fun t ht => .inl (hActive t ht)) fun t e he => .inl ?_
    · rw [(hAll e he).2.2]
      exact hId.mono hLe
    · unfold BeginsApart
      rw [List.filter_eq_nil_iff.mpr fun e he => by rw [(hAll e he).1]; exact Bool.false_ne_true]
      exact List.nodup_nil
    · rw [(hAll e he).1] at hBegin
      cases hBegin
    · have hPair : List.Pairwise (fun d e : RedoEntry V => d.isDelta = true → e.isAbort = false)
          block := List.pairwise_of_forall_mem_list fun _ _ e he _ => (hAll e he).2.1
      exact hPair.isChain
    · rw [hBlock, List.getLast?_append, List.getLast?_singleton, Option.some_or] at he
      cases he
      rfl
    · rw [(hAll e he).2.2]
      exact h.active txn ht
    · rw [hs.redo t, txns_flushRedoAndCommitWal] at he
      by_cases hEq : t = txn.txnId
      · subst hEq
        rw [txns_modifyTxn_self] at he
        cases he
      · rwa [txns_modifyTxn_of_ne _ _ hEq] at he

end Logged

end MemoryGraph

end MiniGU
