import Mathlib.Logic.Relation
import MiniGU.Invariant.Frame

/-!
# What an operation can do

Every read and write of a transaction is a sequence of a few primitive steps
(`OpStep`): a note in its read set, one in-place write with its undo and redo records,
one staged intent, one redo record. `opSteps_runOp` and `opSteps_runQuery` prove this
once for all operations; an invariant is then checked step by step.
-/

namespace MiniGU

variable {V : Type}

namespace MemTransaction

/-- The head with this stamp may be written: it is the transaction's own, or was
committed no later than its start. -/
def CanWrite (txn : MemTransaction) (ts : Nat) : Prop := ts = txn.txnId ∨ ts ≤ txn.startTs

theorem canWrite_of_not_isForeign {txn : MemTransaction} {ts : Nat}
    (h : txn.isForeign ts = false) : txn.CanWrite ts := by
  unfold isForeign at h
  rw [Bool.or_eq_false_iff] at h
  obtain ⟨hTxn, hCommit⟩ := h
  by_cases hId : Timestamp.txnIdStart ≤ ts
  · left
    simpa [Timestamp.isTxnId, hId] using hTxn
  · right
    have hlt : ts < Timestamp.txnIdStart := by omega
    simpa [Timestamp.isCommitTs, hlt] using hCommit

end MemTransaction

theorem checkWriteConflict_ok {ts : Nat} {txn : MemTransaction} {u : Unit}
    (h : checkWriteConflict ts txn = .ok u) : txn.isForeign ts = false := by
  unfold checkWriteConflict at h
  unfold MemTransaction.isForeign
  split at h
  · cases h
  · rename_i h₁
    split at h
    · cases h
    · rename_i h₂
      rw [Bool.or_eq_false_iff]
      exact ⟨Bool.eq_false_iff.mpr h₁, Bool.eq_false_iff.mpr h₂⟩

theorem prewriteCheck_ok {ts : Nat} {txn : MemTransaction} {u : Unit}
    (hPess : txn.lockStrategy = .pessimistic) (h : prewriteCheck ts txn = .ok u) :
    txn.isForeign ts = false := by
  unfold prewriteCheck at h
  rw [hPess] at h
  exact checkWriteConflict_ok h

namespace TxnState

@[simp] theorem lookupWrite_insertRead (s : TxnState V) (k k' : Kind) (id id' : Nat) :
    (s.insertRead k id).lookupWrite k' id' = s.lookupWrite k' id' := by
  cases k <;> cases k' <;> rfl

@[simp] theorem undoBuffer_insertRead (s : TxnState V) (k : Kind) (id : Nat) :
    (s.insertRead k id).undoBuffer = s.undoBuffer := by
  cases k <;> rfl

end TxnState

namespace MemoryGraph

/-- The stamp that a pessimistic create records with its undo entry. -/
def createMarker (txn : MemTransaction) : Kind → Nat
  | .vertex => 0
  | .edge => txn.txnId

/-- A pessimistic create, once its checks have passed. -/
def createVersion (g : MemoryGraph V) (txn : MemTransaction) {k : Kind} (d : Data V k) :
    MemoryGraph V :=
  ((g.writeVersion txn k d.id ⟨⟨d, txn.txnId⟩, []⟩ (.del k d.id) (createMarker txn k) d
    ).linkAdjacency d).pushRedo txn (.create d)

/-- A pessimistic set-property, once its checks have passed; `old` are the values it
replaces. -/
def setVersion (g : MemoryGraph V) (txn : MemTransaction) (k : Kind) (id : Nat)
    (c : VersionChain (Data V k) (DeltaOp V)) (indices : List Nat) (old props : List V) :
    MemoryGraph V :=
  (g.writeVersion txn k id c (.setProps k id ⟨indices, old⟩) c.current.commitTs
    (c.current.data.setProps indices props)).pushRedo txn (.setProps k id ⟨indices, props⟩)

/-- How a transaction may set its intent for an entity. -/
inductive StageOk (g : MemoryGraph V) (txn : MemTransaction) (k : Kind) (id : Nat) :
    WriteIntent (Data V k) → Prop where
  | insert {d : Data V k} (hId : d.id = id) (hTomb : g.isTombstoned k id = false)
      (hRead : ∀ d', g.readEntity txn k id ≠ .ok d') :
      StageOk g txn k id
        ⟨((g.txns txn.txnId).lookupWrite k id).elim 0 WriteIntent.guardTs, .insert d⟩
  | setInserted {guardTs : Nat} {d : Data V k} (indices : List Nat) (props : List V)
      (h : (g.txns txn.txnId).lookupWrite k id = some ⟨guardTs, .insert d⟩) :
      StageOk g txn k id ⟨guardTs, .insert (d.setProps indices props)⟩
  | setUpdated {guardTs : Nat} {before after : Data V k} (indices : List Nat) (props : List V)
      (h : (g.txns txn.txnId).lookupWrite k id = some ⟨guardTs, .update before after⟩) :
      StageOk g txn k id ⟨guardTs, .update before (after.setProps indices props)⟩
  | set {c : VersionChain (Data V k) (DeltaOp V)} {before : Data V k} {guardTs : Nat}
      (indices : List Nat) (props : List V)
      (h : (g.txns txn.txnId).lookupWrite k id = none) (hc : g.chain k id = some c)
      (hs : g.snapshotWithGuard txn c = .ok (before, guardTs)) :
      StageOk g txn k id ⟨guardTs, .update before (before.setProps indices props)⟩
  | deleteInserted {guardTs : Nat} {d : Data V k}
      (h : (g.txns txn.txnId).lookupWrite k id = some ⟨guardTs, .insert d⟩) :
      StageOk g txn k id ⟨guardTs, .delete d⟩
  | deleteUpdated {guardTs : Nat} {before after : Data V k}
      (h : (g.txns txn.txnId).lookupWrite k id = some ⟨guardTs, .update before after⟩) :
      StageOk g txn k id ⟨guardTs, .delete before⟩
  | delete {c : VersionChain (Data V k) (DeltaOp V)} {before : Data V k} {guardTs : Nat}
      (h : (g.txns txn.txnId).lookupWrite k id = none) (hc : g.chain k id = some c)
      (hs : g.snapshotWithGuard txn c = .ok (before, guardTs)) :
      StageOk g txn k id ⟨guardTs, .delete before⟩

/-- The primitive steps of the operations of `txn`. -/
inductive OpStep (txn : MemTransaction) : MemoryGraph V → MemoryGraph V → Prop where
  | note {g : MemoryGraph V} (k : Kind) (id : Nat) :
      OpStep txn g (g.modifyTxn txn.txnId fun s => s.insertRead k id)
  | create {g : MemoryGraph V} {k : Kind} (d : Data V k)
      (hPess : txn.lockStrategy = .pessimistic) (hc : g.chain k d.id = none) :
      OpStep txn g (g.createVersion txn d)
  | delete {g : MemoryGraph V} {k : Kind} {id : Nat} {c : VersionChain (Data V k) (DeltaOp V)}
      (hPess : txn.lockStrategy = .pessimistic) (hc : g.chain k id = some c)
      (hw : txn.CanWrite c.current.commitTs) : OpStep txn g (g.deleteVersion txn k id c)
  | set {g : MemoryGraph V} {k : Kind} {id : Nat} {c : VersionChain (Data V k) (DeltaOp V)}
      {indices : List Nat} {old : List V} (props : List V)
      (hPess : txn.lockStrategy = .pessimistic) (hc : g.chain k id = some c)
      (hw : txn.CanWrite c.current.commitTs)
      (hOld : indices.mapM (fun i => c.current.data.properties[i]?) = some old) :
      OpStep txn g (g.setVersion txn k id c indices old props)
  | stage {g : MemoryGraph V} {k : Kind} {id : Nat} {intent : WriteIntent (Data V k)}
      (hOpt : txn.lockStrategy = .optimistic) (h : StageOk g txn k id intent) :
      OpStep txn g (g.stage txn k id intent)
  | redo {g : MemoryGraph V} (delta : DeltaOp V) (hOpt : txn.lockStrategy = .optimistic) :
      OpStep txn g (g.pushRedo txn delta)

/-- Any number of primitive steps. -/
abbrev OpSteps (txn : MemTransaction) : MemoryGraph V → MemoryGraph V → Prop :=
  Relation.ReflTransGen (OpStep txn)

variable {g g' : MemoryGraph V} {txn : MemTransaction} {k : Kind} {id : Nat}

/-! ## Reads -/

theorem opSteps_noteRead (k : Kind) (id : Nat) : OpSteps txn g (g.noteRead txn k id) := by
  unfold noteRead
  split
  · exact .single (.note k id)
  · exact .refl

@[simp] theorem chain_noteRead : (g.noteRead txn k id).chain = g.chain := by
  unfold noteRead
  split <;> simp

theorem isTombstoned_noteRead (k' : Kind) (id' : Nat) :
    (g.noteRead txn k id).isTombstoned k' id' = g.isTombstoned k' id' :=
  isTombstoned_of_chain (by rw [chain_noteRead])

theorem txns_noteRead (txn : MemTransaction) (k : Kind) (id t : Nat) :
    (g.noteRead txn k id).txns t = g.txns t ∨
      t = txn.txnId ∧ (g.noteRead txn k id).txns t = (g.txns t).insertRead k id := by
  unfold noteRead
  split
  · by_cases ht : t = txn.txnId
    · subst ht
      exact .inr ⟨rfl, by simp⟩
    · exact .inl (txns_modifyTxn_of_ne _ _ ht)
  · exact .inl rfl

@[simp] theorem lookupWrite_noteRead (t : Nat) (k' : Kind) (id' : Nat) :
    ((g.noteRead txn k id).txns t).lookupWrite k' id' = (g.txns t).lookupWrite k' id' := by
  rcases txns_noteRead (g := g) txn k id t with h | ⟨-, h⟩
  · rw [h]
  · rw [h, TxnState.lookupWrite_insertRead]

/-- A read depends on the versions, the undo buffers and the reader's own intents. -/
theorem readEntity_congr (hChain : g'.chain k id = g.chain k id)
    (hUndo : ∀ t, (g'.txns t).undoBuffer = (g.txns t).undoBuffer)
    (hWrites : (g'.txns txn.txnId).lookupWrite k id = (g.txns txn.txnId).lookupWrite k id) :
    g'.readEntity txn k id = g.readEntity txn k id := by
  have hLive : g'.upgradable = g.upgradable := by
    funext o
    simp only [upgradable, hUndo]
  unfold readEntity pendingWrite visibleData applyDeltasForRead
  rw [hWrites, hChain, hLive]

theorem undoBuffer_noteRead (t : Nat) :
    ((g.noteRead txn k id).txns t).undoBuffer = (g.txns t).undoBuffer := by
  rcases txns_noteRead (g := g) txn k id t with h | ⟨-, h⟩
  · rw [h]
  · rw [h, TxnState.undoBuffer_insertRead]

@[simp] theorem readEntity_noteRead (k' : Kind) (id' : Nat) :
    (g.noteRead txn k id).readEntity txn k' id' = g.readEntity txn k' id' :=
  readEntity_congr (by simp) undoBuffer_noteRead (lookupWrite_noteRead ..)

theorem opSteps_noteScan (k : Kind) (keys : List Nat) (filter : Data V k → Bool) :
    OpSteps txn g (g.noteScan txn k keys filter) := by
  unfold noteScan
  generalize hh : g = h
  -- the loop tests the graph `h` it started from and notes in the graph it carries
  have hLoop : ∀ (l : List Nat) (g₁ : MemoryGraph V), OpSteps txn g₁ (l.foldl (fun g₁ id =>
      if (h.pendingWrite txn k id).isNone && (h.iterItem txn k filter id).isSome then
        g₁.modifyTxn txn.txnId fun s => s.insertRead k id else g₁) g₁) := by
    intro l
    induction l with
    | nil => exact fun g₁ => .refl
    | cons id l ih =>
      intro g₁
      rw [List.foldl_cons]
      split
      · exact .head (.note k id) (ih _)
      · exact ih _
  exact hLoop keys h

theorem opSteps_runQuery (q : Query V) : OpSteps txn g (g.runQuery txn q).1 := by
  cases q with
  | getVertex vid => exact opSteps_noteRead .vertex vid
  | getEdge eid => exact opSteps_noteRead .edge eid
  | iterVertices keys filter => exact opSteps_noteScan .vertex keys filter
  | iterEdges keys filter => exact opSteps_noteScan .edge keys filter
  | iterAdjacency => exact .refl

/-! ## Writes -/

/-- A pessimistic read of a head that is not foreign gives that head. -/
theorem readEntity_of_not_isForeign {c : VersionChain (Data V k) (DeltaOp V)}
    (hPess : txn.lockStrategy = .pessimistic) (hc : g.chain k id = some c)
    (hf : txn.isForeign c.current.commitTs = false) :
    g.readEntity txn k id = if c.current.data.isTombstone then .error (.isTombstone k id)
      else .ok c.current.data := by
  simp [readEntity, pendingWrite, hPess, hc, visibleData, hf]

/-- The checks of a pessimistic create pass only where the map has no entry: an entry
whose head can be written is either a tombstone or visible. -/
theorem insertVersion_ok {d : Data V k} {ownTs : Nat} {u : Unit}
    (hPess : txn.lockStrategy = .pessimistic) (hTomb : g.isTombstoned k d.id = false)
    (hRead : ∀ d', g.readEntity txn k d.id ≠ .ok d')
    (h : g.insertVersion txn d ownTs = (g', .ok u)) :
    g.chain k d.id = none ∧
      g' = g.writeVersion txn k d.id ⟨⟨d, txn.txnId⟩, []⟩ (.del k d.id) ownTs d := by
  unfold insertVersion at h
  split at h
  · rename_i hc
    simp only [Prod.mk.injEq, and_true] at h
    exact ⟨hc, h.symm⟩
  · rename_i c hc
    split at h
    · simp at h
    · rename_i u' hCheck
      have hHead : c.current.data.isTombstone = false := by
        simpa [isTombstoned, hc] using hTomb
      have hOk := readEntity_of_not_isForeign hPess hc (checkWriteConflict_ok hCheck)
      rw [hHead] at hOk
      exact absurd hOk (hRead _)

theorem insertVersion_error {d : Data V k} {ownTs : Nat} {e : StorageError}
    (h : g.insertVersion txn d ownTs = (g', .error e)) : g' = g := by
  unfold insertVersion at h
  split at h
  · simp at h
  · split at h
    · simp only [Prod.mk.injEq] at h
      exact h.1.symm
    · simp at h

theorem opSteps_recordInsert {d : Data V k} (hOpt : txn.lockStrategy = .optimistic)
    (hTomb : g.isTombstoned k d.id = false)
    (hRead : ∀ d', g.readEntity txn k d.id ≠ .ok d') :
    OpSteps txn g (g.recordInsert txn d) := by
  have hStage := OpStep.stage hOpt (StageOk.insert (d := d) rfl hTomb hRead)
  unfold recordInsert
  split
  · rename_i intent heq
    rw [heq] at hStage
    exact .single hStage
  · rename_i heq
    rw [heq] at hStage
    exact .single hStage

/-- `create_vertex` is a sequence of small steps. -/
theorem opSteps_createVertex (vertex : Vertex V) :
    OpSteps txn g (g.createVertex txn vertex).1 := by
  unfold createVertex
  split
  · exact .refl
  · rename_i hTomb
    have hTomb : g.isTombstoned .vertex vertex.vid = false := by simpa using hTomb
    unfold getVertex getEntity
    have hNote : OpSteps txn g (g.noteRead txn .vertex vertex.vid) := opSteps_noteRead ..
    cases hRead : g.readEntity txn .vertex vertex.vid with
    | ok d => exact hNote
    | error e =>
      -- the checks go on in the graph with the read noted, which reads the same
      have hTomb' : (g.noteRead txn .vertex vertex.vid).isTombstoned .vertex vertex.vid = false := by
        rw [isTombstoned_noteRead, hTomb]
      have hRead' : ∀ d', (g.noteRead txn .vertex vertex.vid).readEntity txn .vertex vertex.vid
          ≠ .ok d' := by simp [hRead]
      generalize g.noteRead txn .vertex vertex.vid = g₁ at hNote hTomb' hRead'
      refine hNote.trans ?_
      dsimp only
      cases hLock : txn.lockStrategy with
      | pessimistic =>
        dsimp only
        split
        · rename_i g₂ e heq
          rw [insertVersion_error heq]
        · rename_i g₂ u heq
          obtain ⟨hc, rfl⟩ := insertVersion_ok (k := .vertex) hLock hTomb' hRead' heq
          exact .single (.create (k := .vertex) vertex hLock hc)
      | optimistic =>
        exact (opSteps_recordInsert (k := .vertex) hLock hTomb' hRead').trans
          (.single (.redo _ hLock))

/-- `create_edge` reads both ends and the edge, then writes one version or stages one intent. -/
theorem opSteps_createEdge (edge : Edge V) : OpSteps txn g (g.createEdge txn edge).1 := by
  unfold createEdge getVertex getEntity
  have hSrc : OpSteps txn g (g.noteRead txn .vertex edge.srcId) := opSteps_noteRead ..
  generalize g.noteRead txn .vertex edge.srcId = g₁ at hSrc
  cases g.readEntity txn .vertex edge.srcId with
  | error e => exact hSrc
  | ok src =>
    have hDst : OpSteps txn g₁ (g₁.noteRead txn .vertex edge.dstId) := opSteps_noteRead ..
    dsimp only
    generalize g₁.noteRead txn .vertex edge.dstId = g₂ at hDst
    cases g₁.readEntity txn .vertex edge.dstId with
    | error e => exact hSrc.trans hDst
    | ok dst =>
      refine (hSrc.trans hDst).trans ?_
      dsimp only
      split
      · exact .refl
      · rename_i hTomb
        have hTomb : g₂.isTombstoned .edge edge.eid = false := by simpa using hTomb
        unfold getEdge getEntity
        have hNote : OpSteps txn g₂ (g₂.noteRead txn .edge edge.eid) := opSteps_noteRead ..
        cases hRead : g₂.readEntity txn .edge edge.eid with
        | ok d => exact hNote
        | error e =>
          have hTomb' : (g₂.noteRead txn .edge edge.eid).isTombstoned .edge edge.eid = false := by
            rw [isTombstoned_noteRead, hTomb]
          have hRead' : ∀ d', (g₂.noteRead txn .edge edge.eid).readEntity txn .edge edge.eid
              ≠ .ok d' := by simp [hRead]
          generalize g₂.noteRead txn .edge edge.eid = g₃ at hNote hTomb' hRead'
          refine hNote.trans ?_
          dsimp only
          cases hLock : txn.lockStrategy with
          | pessimistic =>
            dsimp only
            split
            · rename_i g₄ e heq
              rw [insertVersion_error heq]
            · rename_i g₄ u heq
              obtain ⟨hc, rfl⟩ := insertVersion_ok (k := .edge) hLock hTomb' hRead' heq
              exact .single (.create (k := .edge) edge hLock hc)
          | optimistic =>
            exact (opSteps_recordInsert (k := .edge) hLock hTomb' hRead').trans
              (.single (.redo _ hLock))

theorem opSteps_deleteEdgeInPlace (hPess : txn.lockStrategy = .pessimistic) (eid : Nat) :
    OpSteps txn g (g.deleteEdgeInPlace txn eid).1 := by
  unfold deleteEdgeInPlace
  split
  · exact .refl
  · rename_i c hc
    split
    · exact .refl
    · rename_i u hCheck
      exact .single (.delete (k := .edge) hPess hc
        (MemTransaction.canWrite_of_not_isForeign (prewriteCheck_ok hPess hCheck)))

theorem opSteps_stageDelete (hOpt : txn.lockStrategy = .optimistic) (k : Kind) (id : Nat) :
    OpSteps txn g (g.stageDelete txn k id).1 := by
  unfold stageDelete
  split
  · rename_i intent hLook
    obtain ⟨guardTs, kind⟩ := intent
    cases kind with
    | insert before =>
      simp only [recordDelete, hLook]
      rw [show (if guardTs = 0 then 0 else guardTs) = guardTs by split <;> simp_all]
      exact .single (.stage hOpt (.deleteInserted hLook))
    | update before after =>
      simp only [recordDelete, hLook, ite_self]
      exact .single (.stage hOpt (.deleteUpdated hLook))
    | delete before => exact .refl
  · rename_i hLook
    split
    · exact .refl
    · rename_i c hc
      split
      · exact .refl
      · rename_i before guardTs hSnap
        simp only [recordDelete, hLook]
        exact .single (.stage hOpt (.delete hLook hc hSnap))

theorem opSteps_recordOccEdgeDelete (hOpt : txn.lockStrategy = .optimistic) (eid : Nat) :
    OpSteps txn g (g.recordOccEdgeDelete txn eid).1 := by
  have hStage := opSteps_stageDelete (g := g) hOpt .edge eid
  unfold recordOccEdgeDelete
  split
  · rename_i g₁ e heq
    rw [heq] at hStage
    exact hStage
  · rename_i g₁ u heq
    rw [heq] at hStage
    exact hStage.tail (.redo _ hOpt)

theorem opSteps_deleteEdge (eid : Nat) : OpSteps txn g (g.deleteEdge txn eid).1 := by
  unfold deleteEdge
  cases hLock : txn.lockStrategy with
  | pessimistic => exact opSteps_deleteEdgeInPlace hLock eid
  | optimistic => exact opSteps_recordOccEdgeDelete hLock eid

/-- What every turn of a loop keeps, the loop keeps, wherever it stops. -/
theorem forEach_invariant {op : MemoryGraph V → Nat → Outcome V Unit} {P : MemoryGraph V → Prop}
    (hOp : ∀ h id, P h → P (op h id).1) (ids : List Nat) (hg : P g) :
    P (forEach op g ids).1 := by
  induction ids generalizing g with
  | nil => exact hg
  | cons id ids ih =>
    have hHead := hOp g id hg
    unfold forEach
    split
    · rename_i g₁ e heq
      rw [heq] at hHead
      exact hHead
    · rename_i g₁ u heq
      rw [heq] at hHead
      exact ih hHead

theorem opSteps_cascadeInPlace (hPess : txn.lockStrategy = .pessimistic) (vid : Nat) :
    OpSteps txn g (g.cascadeInPlace txn vid).1 := by
  refine forEach_invariant (P := OpSteps txn g) (fun h eid hh => ?_) _ .refl
  split
  · exact hh.trans (opSteps_deleteEdgeInPlace hPess eid)
  · exact hh

theorem vertices_deleteEdgeInPlace (eid vid : Nat) :
    (g.deleteEdgeInPlace txn eid).1.chain .vertex vid = g.chain .vertex vid := by
  unfold deleteEdgeInPlace
  split
  · rfl
  · split <;> rfl

/-- The cascade of a vertex deletion leaves the vertex itself to the caller. -/
theorem vertices_cascadeInPlace (vid vid' : Nat) :
    (g.cascadeInPlace txn vid).1.chain .vertex vid' = g.chain .vertex vid' := by
  refine forEach_invariant (P := fun h => h.chain .vertex vid' = g.chain .vertex vid')
    (fun h eid hh => ?_) _ rfl
  split
  · rw [vertices_deleteEdgeInPlace, hh]
  · exact hh

/-- `delete_vertex` deletes the edges it finds, one after the other, and then the vertex. -/
theorem opSteps_deleteVertex (vid : Nat) : OpSteps txn g (g.deleteVertex txn vid).1 := by
  unfold deleteVertex
  cases hLock : txn.lockStrategy with
  | pessimistic =>
    dsimp only
    split
    · exact .refl
    · rename_i c hc
      split
      · exact .refl
      · rename_i u hCheck
        have hCascade := opSteps_cascadeInPlace (g := g) hLock vid
        have hKeep : (g.cascadeInPlace txn vid).1.chain .vertex vid = g.chain .vertex vid :=
          vertices_cascadeInPlace ..
        split
        · rename_i g₁ e heq
          rw [heq] at hCascade
          exact hCascade
        · rename_i g₁ u heq
          rw [heq] at hCascade hKeep
          exact hCascade.tail (.delete (k := .vertex) hLock (hKeep.trans hc)
            (MemTransaction.canWrite_of_not_isForeign (prewriteCheck_ok hLock hCheck)))
  | optimistic =>
    have hStage := opSteps_stageDelete (g := g) hLock .vertex vid
    dsimp only
    split
    · rename_i g₁ e heq
      rw [heq] at hStage
      exact hStage
    · rename_i g₁ u heq
      rw [heq] at hStage
      have hEdges : OpSteps txn g (g₁.forEach (fun h eid => h.recordOccEdgeDelete txn eid)
          (g₁.incidentEdges txn vid)).1 :=
        forEach_invariant (fun h eid hh => hh.trans (opSteps_recordOccEdgeDelete hLock eid)) _ hStage
      split
      · rename_i g₂ e heq'
        rw [heq'] at hEdges
        exact hEdges
      · rename_i g₂ u heq'
        rw [heq'] at hEdges
        exact hEdges.tail (.redo _ hLock)

/-- Setting properties reads the entity, then pushes one version or stages one intent. -/
theorem opSteps_setProperty (k : Kind) (id : Nat) (indices : List Nat) (props : List V) :
    OpSteps txn g (g.setProperty txn k id indices props).1 := by
  unfold setProperty
  cases hLock : txn.lockStrategy with
  | pessimistic =>
    dsimp only
    split
    · exact .refl
    · rename_i c hc
      unfold updateProperties
      cases hCheck : prewriteCheck c.current.commitTs txn with
      | error e => exact .refl
      | ok u =>
        dsimp only
        cases hOld : indices.mapM fun i => c.current.data.properties[i]? with
        | none => exact .refl
        | some old =>
          exact .single (.set props hLock hc
            (MemTransaction.canWrite_of_not_isForeign (prewriteCheck_ok hLock hCheck)) hOld)
  | optimistic =>
    dsimp only
    split
    · rename_i intent hLook
      obtain ⟨guardTs, kind⟩ := intent
      cases kind with
      | insert existing =>
        dsimp only
        split
        · exact .head (.stage hLock (.setInserted indices props hLook)) (.single (.redo _ hLock))
        · exact .refl
      | update before after =>
        dsimp only
        split
        · simp only [recordUpdate, hLook, ite_self]
          exact .head (.stage hLock (.setUpdated indices props hLook)) (.single (.redo _ hLock))
        · exact .refl
      | delete before => exact .refl
    · rename_i hLook
      split
      · exact .refl
      · rename_i c hc
        split
        · exact .refl
        · rename_i before guardTs hSnap
          split
          · simp only [recordUpdate, hLook]
            exact .head (.stage hLock (.set indices props hLook hc hSnap))
              (.single (.redo _ hLock))
          · exact .refl

/-- **Every write is a sequence of primitive steps.** -/
theorem opSteps_runOp (o : Op V) : OpSteps txn g (g.runOp txn o).1 := by
  cases o with
  | createVertex vertex => exact opSteps_createVertex vertex
  | createEdge edge => exact opSteps_createEdge edge
  | deleteVertex vid => exact opSteps_deleteVertex vid
  | deleteEdge eid => exact opSteps_deleteEdge eid
  | setVertexProperty vid indices props => exact opSteps_setProperty .vertex vid indices props
  | setEdgeProperty eid indices props => exact opSteps_setProperty .edge eid indices props

end MemoryGraph

end MiniGU
