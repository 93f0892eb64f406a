import MiniGU.Invariant.Bystander
import MiniGU.Invariant.Snapshot
import MiniGU.Lib.Collect
import MiniGU.Results.FirstCommitter

/-!
# A rollback that nobody notices

`abort_at` walks the undo buffer from its oldest entry to the newest. The oldest entry of
an entity puts the stamp of the version found back at the head, and the entries after it
then no longer find the transaction's own stamp: one entry decides what is restored.

A set-property at a position outside the record panics with the lock of the chain in its hands,
and whoever comes to that chain later panics too: the calls of the transaction have to stay inside
the records for anything to be restored.
-/

namespace MiniGU.MemoryGraph

variable {V : Type} {k : Kind} {id : Nat}

/-- The deltas of one entity, oldest first, are undone by the oldest alone: a delete of
something that was not deleted, or a set-property with nothing after it but
set-properties at the same positions. -/
def UndoableDeltas (k : Kind) (id : Nat) : List (DeltaOp V) → Prop
  | [] => True
  | delta :: deltas =>
    (∃ d : Data V k, delta = .create d ∧ d.isTombstone = false) ∨
    ∃ op, delta = .setProps k id op ∧ ∀ delta' ∈ deltas,
      ∃ op', delta' = .setProps k id op' ∧ op'.indices ⊆ op.indices

/-- Every entity that `txn` has written is undone by its oldest entry. -/
def Undoable (g : MemoryGraph V) (txn : MemTransaction) : Prop :=
  ∀ k id, UndoableDeltas k id ((g.entriesFor txn.txnId k id).map UndoEntry.delta)

theorem map_delta_entriesFor (g : MemoryGraph V) (t : Nat) (k : Kind) (id : Nat) :
    (g.entriesFor t k id).map UndoEntry.delta =
      ((g.txns t).undoBuffer.map UndoEntry.delta).filter fun delta =>
        decide (delta.target = some (k, id)) := by
  unfold entriesFor
  rw [List.filter_map]
  rfl

/-- The graph after `txn` has run the operations one after another, whatever each
returned; `none` where one of them panics, which leaves a poisoned lock behind. -/
def runOps (g : MemoryGraph V) (txn : MemTransaction) (ops : List (Op V)) :
    Option (MemoryGraph V) :=
  ops.foldlM (fun h o =>
    match h.runOp txn o with
    | (_, .error .panicked) => none
    | (h', _) => some h') g

/-- The positions that a set-property names are in the record, if it comes to writing it. -/
def Inside (g : MemoryGraph V) (txn : MemTransaction) (k : Kind) (id : Nat) (indices : List Nat) :
    Prop :=
  ∀ c, g.chain k id = some c → prewriteCheck c.current.commitTs txn = .ok () →
    ∀ i ∈ indices, i < c.current.data.properties.length

def OpInside (g : MemoryGraph V) (txn : MemTransaction) : Op V → Prop
  | .setVertexProperty vid indices _ => g.Inside txn .vertex vid indices
  | .setEdgeProperty eid indices _ => g.Inside txn .edge eid indices
  | _ => True

/-- Every set-property stays inside the record that it finds. -/
def OpsInside (txn : MemTransaction) : MemoryGraph V → List (Op V) → Prop
  | _, [] => True
  | g, o :: ops => g.OpInside txn o ∧ OpsInside txn (g.runOp txn o).1 ops

/-- **The rollback of `txn` in `h` goes unnoticed**: whatever other transactions then
call, they are answered as in `g`, where `txn` has not begun. -/
def AbortUnnoticed (g h : MemoryGraph V) (txn : MemTransaction) : Prop :=
  ∃ h', h.abortAt txn false = (h', .ok ()) ∧
    ∀ calls : List (MemTransaction × Call V), (∀ p ∈ calls, p.1.txnId ≠ txn.txnId) →
      h'.replies calls = g.replies calls

/-! ## The edits of one transaction -/

/-- What the edits of transaction `T` made of the chain `b`, with their undo entries. -/
inductive Edited (T : Nat) (k : Kind) (id : Nat) (b : VersionChain (Data V k) (DeltaOp V)) :
    List (UndoEntry (DeltaOp V)) → VersionChain (Data V k) (DeltaOp V) → Prop where
  | first {delta redo : DeltaOp V} {d : Data V k} (hTs : b.current.commitTs ≠ T)
      (hEdit : Edits k id b.current.data delta redo d) :
      Edited T k id b [⟨delta, b.current.commitTs, b.undoPtr⟩]
        (b.push T delta b.current.commitTs d)
  | next {es : List (UndoEntry (DeltaOp V))} {c : VersionChain (Data V k) (DeltaOp V)}
      {delta redo : DeltaOp V} {d : Data V k} (h : Edited T k id b es c)
      (hEdit : Edits k id c.current.data delta redo d) :
      Edited T k id b (es ++ [⟨delta, T, c.undoPtr⟩]) (c.push T delta T d)

namespace Edited

variable {T : Nat} {b c : VersionChain (Data V k) (DeltaOp V)} {es : List (UndoEntry (DeltaOp V))}

theorem commitTs_eq (h : Edited T k id b es c) : c.current.commitTs = T := by
  cases h <;> rfl

theorem base_ne (h : Edited T k id b es c) : b.current.commitTs ≠ T := by
  induction h with
  | first hTs => exact hTs
  | next _ _ ih => exact ih

theorem head_entry (h : Edited T k id b es c) : ∃ e es' redo d, es = e :: es' ∧
    e.timestamp = b.current.commitTs ∧ e.next = b.undoPtr ∧
    Edits k id b.current.data e.delta redo d := by
  induction h with
  | first hTs hEdit => exact ⟨_, [], _, _, rfl, rfl, rfl, hEdit⟩
  | @next es c delta redo d h hEdit ih =>
    obtain ⟨e, es', redo', d', rfl, hTs, hNext, hFirst⟩ := ih
    exact ⟨e, es' ++ [⟨delta, T, c.undoPtr⟩], redo', d', rfl, hTs, hNext, hFirst⟩

/-- Edits that set properties at the positions `is` change nothing else. -/
theorem agrees (h : Edited T k id b es c) {is : List Nat}
    (hSets : ∀ e ∈ es, ∃ op, e.delta = .setProps k id op ∧ op.indices ⊆ is) :
    b.current.data.Resembles c.current.data ∧
    ∀ j, j ∉ is → c.current.data.properties[j]? = b.current.data.properties[j]? := by
  -- one set-property at positions of `is`
  have hSet : ∀ {d₀ d : Data V k} {delta redo : DeltaOp V} {op : SetPropsOp V},
      Edits k id d₀ delta redo d → delta = .setProps k id op → op.indices ⊆ is →
      (∀ a : Data V k, a.Resembles d₀ → a.Resembles d) ∧
      ∀ j, j ∉ is → d.properties[j]? = d₀.properties[j]? := by
    intro d₀ d delta redo op hEdit hDelta hSub
    rcases hEdit.eqs with ⟨rfl, -⟩ | ⟨indices, old, props, rfl, -, rfl, hOld⟩
    · exact absurd hDelta (DeltaOp.create_ne_setProps _ _ _)
    · rw [← DeltaOp.setProps_inj hDelta] at hSub
      refine ⟨fun a ha => ha.setProps indices props, fun j hj => ?_⟩
      rw [Data.setProps_eq_withProps, Data.properties_withProps]
      exact getElem?_writeProps_of_notMem (fun hmem => hj (hSub hmem)) ..
  induction h with
  | first hTs hEdit =>
    obtain ⟨op, hDelta, hSub⟩ := hSets _ (List.mem_singleton.mpr rfl)
    obtain ⟨hRes, hSame⟩ := hSet hEdit hDelta hSub
    exact ⟨hRes _ (Data.Resembles.refl _), hSame⟩
  | next h hEdit ih =>
    obtain ⟨hRes₀, hSame₀⟩ := ih fun e he => hSets e (List.mem_append_left _ he)
    obtain ⟨op, hDelta, hSub⟩ := hSets _ (List.mem_append_right _ (List.mem_singleton.mpr rfl))
    obtain ⟨hRes, hSame⟩ := hSet hEdit hDelta hSub
    exact ⟨hRes _ hRes₀, fun j hj => (hSame j hj).trans (hSame₀ j hj)⟩

/-- **Where the oldest entry is enough, the walk gives back the chain found.** -/
theorem restore (h : Edited T k id b es c)
    (hUndoable : UndoableDeltas k id (es.map UndoEntry.delta)) :
    es.foldl (restoreEntry DeltaOp.restore T) c = b := by
  obtain ⟨⟨delta, ts, next⟩, es', redo, d, rfl, rfl, rfl, hEdit⟩ := h.head_entry
  have hData : delta.restore c.current.data = b.current.data := by
    rcases hUndoable with ⟨img, hDelta, hAlive⟩ | ⟨op, hDelta, hRest⟩
    · -- a delete: the entry carries the image found
      rcases hEdit.eqs with ⟨rfl, -⟩ | ⟨_, _, _, rfl, -⟩
      · have hImg : b.current.data = img := DeltaOp.create_inj hDelta
        rw [DeltaOp.restore_create, Data.setTombstone_self (by rw [hImg]; exact hAlive)]
      · exact absurd hDelta.symm (DeltaOp.create_ne_setProps _ _ _)
    · -- a set-property: nothing but its positions has changed since
      have hSets : ∀ e' ∈ ⟨delta, b.current.commitTs, b.undoPtr⟩ :: es', ∃ op',
          e'.delta = .setProps k id op' ∧ op'.indices ⊆ op.indices := by
        intro e' he'
        rcases List.mem_cons.mp he' with rfl | he'
        · exact ⟨op, hDelta, List.Subset.refl _⟩
        · exact hRest e'.delta (List.mem_map.mpr ⟨e', he', rfl⟩)
      obtain ⟨⟨hLen, hRes⟩, hSame⟩ := h.agrees hSets
      rcases hEdit.eqs with ⟨rfl, -⟩ | ⟨indices, old, props, rfl, -, -, hOld⟩
      · exact absurd hDelta (DeltaOp.create_ne_setProps _ _ _)
      · rw [← DeltaOp.setProps_inj hDelta] at hSame
        have hProps : writeProps c.current.data.properties indices old =
            b.current.data.properties := writeProps_old hOld hLen hSame
        rw [DeltaOp.restore_setProps, Data.setProps_eq_withProps, hProps, ← hRes,
          Data.withProps_withProps, Data.withProps_self]
  have hHead : restoreEntry DeltaOp.restore T c ⟨delta, b.current.commitTs, b.undoPtr⟩ = b := by
    rw [restoreEntry, if_pos h.commitTs_eq, hData]
  rw [List.foldl_cons, hHead]
  exact foldl_restoreEntry_of_ne h.base_ne es'

end Edited

/-! ## What a transaction has done to the graph it found -/

variable {g g' g₁ : MemoryGraph V} {txn : MemTransaction}

/-- What the operations of `txn` have made of one entity. -/
inductive RanAt (g₁ g : MemoryGraph V) (txn : MemTransaction) (k : Kind) (id : Nat) : Prop where
  | untouched (hNil : g.entriesFor txn.txnId k id = []) (hChain : g.chain k id = g₁.chain k id)
  | created (e : UndoEntry (DeltaOp V)) (hFirst : (g.entriesFor txn.txnId k id).head? = some e)
      (hDel : e.delta = .del k id)
  | edited (b c : VersionChain (Data V k) (DeltaOp V)) (hb : g₁.chain k id = some b)
      (hc : g.chain k id = some c)
      (hEdited : Edited txn.txnId k id b (g.entriesFor txn.txnId k id) c)

/-- What the operations of `txn` have made of the graph `g₁` they started from. -/
structure Ran (g₁ g : MemoryGraph V) (txn : MemTransaction) : Prop where
  entity : ∀ k id, RanAt g₁ g txn k id
  adjacency : g.adjacencyList = g₁.adjacencyList ∨ ∃ eid e,
    (g.entriesFor txn.txnId .edge eid).head? = some e ∧ e.delta = .del .edge eid
  others : ∀ t, t ≠ txn.txnId → g.txns t = g₁.txns t

/-- The writes so far, and one more. -/
theorem Ran.opStep (hwf : WF g) (ht : txn ∈ g.txnManager.activeTxns) (h : Ran g₁ g txn)
    (hs : OpStep txn g g') : Ran g₁ g' txn := by
  have hKeep : ∀ k id, ∃ l, g'.entriesFor txn.txnId k id = g.entriesFor txn.txnId k id ++ l :=
    fun k id => entriesFor_opStep hwf ht hs k id
  refine ⟨fun k id => ?_, ?_, fun t hne => (hs.txns_of_ne hne).trans (h.others t hne)⟩
  · cases hwf.chainStep ht hs with
    | quiet hChain hUndo =>
      have hSame := entriesFor_of_undoBuffer (hUndo txn.txnId) k id
      cases h.entity k id with
      | untouched hNil hOld => exact .untouched (by rw [hSame, hNil]) (by rw [hChain, hOld])
      | created e hFirst hDel => exact .created e (by rw [hSame, hFirst]) hDel
      | edited b c hb hc hEdited => exact .edited b c hb (by rw [hChain, hc]) (by rwa [hSame])
    | @write k' id' c delta ts redo d hOk hOver hChain hUndo =>
      have hBuf := entriesFor_of_undoBuffer (hUndo txn.txnId) k id
      by_cases hEq : (k, id) = (k', id')
      · obtain ⟨rfl, rfl⟩ := Prod.mk.inj hEq
        rw [entriesFor_writeVersion_self hOk.target] at hBuf
        have hNew : g'.chain k id = some (c.push txn.txnId delta ts d) := by
          rw [hChain]
          exact chain_writeVersion_self ..
        cases h.entity k id with
        | untouched hNil hOld =>
          rw [hNil, List.nil_append] at hBuf
          cases hOver with
          | old hc hw hEdit =>
            refine .edited c _ (by rw [← hOld, hc]) hNew ?_
            rw [hBuf]
            refine .first (fun hOwn => ?_) hEdit
            obtain ⟨base, hBy⟩ := hwf.writtenBy ht hc hOwn
            exact hBy.overlay.ne_nil hNil
          | new _ hc => exact .created _ (by rw [hBuf]; rfl) rfl
        | created e hFirst hDel =>
          exact .created e (by rw [hBuf, List.head?_append, hFirst]; rfl) hDel
        | edited b c₀ hb hc₀ hEdited =>
          cases hOver with
          | old hc hw hEdit =>
            obtain rfl := Option.some.inj (hc₀.symm.trans hc)
            have hTs := hEdited.commitTs_eq
            refine .edited b _ hb hNew ?_
            rw [hBuf, hTs]
            exact hEdited.next hEdit
          | new _ hc => simp [hc] at hc₀
      · rw [entriesFor_writeVersion_of_ne hOk.target (fun _ => hEq)] at hBuf
        have hOld : g'.chain k id = g.chain k id := by
          rw [hChain]
          exact chain_writeVersion_of_ne hEq ..
        cases h.entity k id with
        | untouched hNil hSame => exact .untouched (by rw [hBuf, hNil]) (by rw [hOld, hSame])
        | created e hFirst hDel => exact .created e (by rw [hBuf, hFirst]) hDel
        | edited b c₀ hb hc₀ hEdited =>
          exact .edited b c₀ hb (by rw [hOld, hc₀]) (by rwa [hBuf])
  · rcases h.adjacency with hAdj | ⟨eid, e, hFirst, hDel⟩
    · rcases adjacencyList_opStep hs with hSame | ⟨edge, hc, -, -, hEntry⟩
      · exact .inl (hSame.trans hAdj)
      · -- a created edge: its first entry is the delete that undoes the creation
        right
        have hNil : g.entriesFor txn.txnId .edge edge.eid = [] :=
          hwf.entriesFor_eq_nil ht fun c hc' =>
            absurd (hc.symm.trans hc') (by simp)
        rw [hNil, List.nil_append] at hEntry
        exact ⟨edge.eid, _, by rw [hEntry]; rfl, rfl⟩
    · obtain ⟨l, hl⟩ := hKeep .edge eid
      exact .inr ⟨eid, e, by rw [hl, List.head?_append, hFirst]; rfl, hDel⟩

theorem Ran.opSteps (hwf : WF g) (ht : txn ∈ g.txnManager.activeTxns) (h : Ran g₁ g txn)
    (hs : OpSteps txn g g') : Ran g₁ g' txn := by
  induction hs with
  | refl => exact h
  | tail hs hStep ih =>
    obtain ⟨hwf', hMgr⟩ := hwf.opSteps ht hs
    exact ih.opStep hwf' (by rw [hMgr]; exact ht) hStep

/-! ## Which calls panic -/

theorem checkWriteConflict_ne_panicked {commitTs : Nat} :
    checkWriteConflict commitTs txn ≠ .error .panicked := by
  unfold checkWriteConflict
  split
  · simp
  · split <;> simp

theorem prewriteCheck_ne_panicked {commitTs : Nat} :
    prewriteCheck commitTs txn ≠ .error .panicked := by
  unfold prewriteCheck optimisticWriteGuard
  split
  · exact checkWriteConflict_ne_panicked
  · split <;> simp

theorem readEntity_ne_panicked : g.readEntity txn k id ≠ .error .panicked := by
  unfold readEntity
  repeat' split
  all_goals simp

theorem insertVersion_ne_panicked (g : MemoryGraph V) (txn : MemTransaction) (d : Data V k)
    (ownTs : Nat) : (g.insertVersion txn d ownTs).2 ≠ .error .panicked := by
  unfold insertVersion
  split
  · simp
  · split
    · rename_i e hCheck
      exact fun h => checkWriteConflict_ne_panicked (hCheck.trans (congrArg _ (Except.error.inj h)))
    · simp

theorem createVertex_ne_panicked (hLock : txn.lockStrategy = .pessimistic) {vertex : Vertex V} :
    (g.createVertex txn vertex).2 ≠ .error .panicked := by
  unfold createVertex
  simp only [hLock]
  split
  · simp
  · split
    · simp
    · rename_i g' _ _
      have hInsert := insertVersion_ne_panicked (k := .vertex) g' txn vertex 0
      split
      · rename_i hEq
        rw [hEq] at hInsert
        exact hInsert
      · simp

theorem createEdge_ne_panicked (hLock : txn.lockStrategy = .pessimistic) {edge : Edge V} :
    (g.createEdge txn edge).2 ≠ .error .panicked := by
  have hRead : ∀ {h h' : MemoryGraph V} {vid : Nat} {e : StorageError},
      h.getVertex txn vid = (h', .error e) → e ≠ .panicked := by
    rintro h h' vid e hEq rfl
    exact readEntity_ne_panicked (Prod.mk.inj hEq).2
  unfold createEdge
  simp only [hLock]
  split
  · rename_i hEq
    simpa using hRead hEq
  · split
    · rename_i hEq
      simpa using hRead hEq
    · split
      · simp
      · split
        · simp
        · rename_i g' _ _
          have hInsert := insertVersion_ne_panicked (k := .edge) g' txn edge txn.txnId
          split
          · rename_i hEq
            rw [hEq] at hInsert
            exact hInsert
          · simp

theorem deleteEdgeInPlace_ne_panicked {eid : Nat} :
    (g.deleteEdgeInPlace txn eid).2 ≠ .error .panicked := by
  unfold deleteEdgeInPlace
  split
  · simp
  · split
    · rename_i e hCheck
      exact fun h => prewriteCheck_ne_panicked (hCheck.trans (congrArg _ (Except.error.inj h)))
    · simp

theorem forEach_ne_panicked {op : MemoryGraph V → Nat → Outcome V Unit}
    (h : ∀ g id, (op g id).2 ≠ .error .panicked) {ids : List Nat} :
    (forEach op g ids).2 ≠ .error .panicked := by
  induction ids generalizing g with
  | nil => simp [forEach]
  | cons id ids ih =>
    unfold forEach
    split
    · rename_i hEq
      have := h g id
      rw [hEq] at this
      exact this
    · exact ih

theorem deleteVertex_ne_panicked (hLock : txn.lockStrategy = .pessimistic) {vid : Nat} :
    (g.deleteVertex txn vid).2 ≠ .error .panicked := by
  unfold deleteVertex
  simp only [hLock]
  split
  · simp
  · split
    · rename_i e hCheck
      exact fun h => prewriteCheck_ne_panicked (hCheck.trans (congrArg _ (Except.error.inj h)))
    · have hCascade : (g.cascadeInPlace txn vid).2 ≠ .error .panicked := by
        refine forEach_ne_panicked fun h eid => ?_
        split
        · exact deleteEdgeInPlace_ne_panicked
        · simp
      split
      · rename_i hEq
        rw [hEq] at hCascade
        exact hCascade
      · simp

theorem setProperty_ne_panicked (hLock : txn.lockStrategy = .pessimistic) {indices : List Nat}
    {props : List V} (hInside : g.Inside txn k id indices) :
    (g.setProperty txn k id indices props).2 ≠ .error .panicked := by
  unfold setProperty
  simp only [hLock]
  split
  · simp
  · rename_i c hChain
    have hUpdate : (g.updateProperties txn k id c indices props).2 ≠ .error .panicked := by
      unfold updateProperties
      split
      · rename_i e hCheck
        exact fun h => prewriteCheck_ne_panicked (hCheck.trans (congrArg _ (Except.error.inj h)))
      · rename_i hCheck
        split
        · rename_i hNone
          obtain ⟨olds, hOlds⟩ : ∃ olds, (indices.mapM fun i => c.current.data.properties[i]?) =
              some olds :=
            exists_mapM_iff.mpr fun i hi => by
              rw [List.getElem?_eq_getElem (hInside c hChain hCheck i hi)]
              rfl
          rw [hNone] at hOlds
          cases hOlds
        · simp
    split
    · rename_i hEq
      rw [hEq] at hUpdate
      exact hUpdate
    · simp

/-- A call of a pessimistic transaction panics only outside a record. -/
theorem runOp_ne_panicked (hLock : txn.lockStrategy = .pessimistic) {o : Op V}
    (hInside : g.OpInside txn o) : (g.runOp txn o).2 ≠ .error .panicked := by
  cases o with
  | createVertex vertex => exact createVertex_ne_panicked hLock
  | createEdge edge => exact createEdge_ne_panicked hLock
  | deleteVertex vid => exact deleteVertex_ne_panicked hLock
  | deleteEdge eid =>
    show (g.deleteEdge txn eid).2 ≠ _
    unfold deleteEdge
    rw [hLock]
    exact deleteEdgeInPlace_ne_panicked
  | setVertexProperty vid indices props => exact setProperty_ne_panicked hLock hInside
  | setEdgeProperty eid indices props => exact setProperty_ne_panicked hLock hInside

/-! ## Begin, run, abort -/

theorem runOps_isSome (hLock : txn.lockStrategy = .pessimistic) (ops : List (Op V))
    (hInside : OpsInside txn g ops) :
    ∃ g', g.runOps txn ops = some g' ∧ OpSteps txn g g' := by
  unfold runOps
  induction ops generalizing g with
  | nil => exact ⟨g, rfl, .refl⟩
  | cons o ops ih =>
    obtain ⟨g', hRest, hSteps⟩ := ih hInside.2
    refine ⟨g', ?_, (opSteps_runOp o).trans hSteps⟩
    have hNe := runOp_ne_panicked hLock hInside.1
    rw [List.foldlM_cons]
    split
    · rename_i hEq
      rw [hEq] at hNe
      exact absurd rfl hNe
    · rename_i h' r _ hEq
      rw [hEq] at hRest
      exact hRest

/-- A graph with the same maps, adjacency lists and buffers is the same to others. -/
theorem eq_behind {T : Nat} (hChain : g'.chain = g.chain)
    (hAdj : g'.adjacencyList = g.adjacencyList) (hOthers : ∀ t, t ≠ T → g'.txns t = g.txns t)
    (hBuf : (g'.txns T).undoBuffer = (g.txns T).undoBuffer) :
    ∃ F, g' = g.behind F T := by
  refine ⟨⟨g'.txnManager, g'.wal, g'.nextLsn, g'.timestampGenerator, g'.transactionIdGenerator,
    g'.txns T⟩, ?_⟩
  have hV : g'.vertices = g.vertices := congrFun hChain .vertex
  have hE : g'.edges = g.edges := congrFun hChain .edge
  have hTxns : g'.txns = Function.update g.txns T
      { g'.txns T with undoBuffer := (g.txns T).undoBuffer } := by
    funext t
    by_cases ht : t = T
    · subst ht
      rw [Function.update_self, ← hBuf]
    · rw [Function.update_of_ne ht, hOthers t ht]
  obtain ⟨vertices, edges, adjacencyList, txnManager, txns, wal, nextLsn, tsGen, idGen⟩ := g'
  simp only at hV hE hAdj hTxns
  unfold behind
  simp only [MemoryGraph.mk.injEq, and_true, true_and]
  exact ⟨hV, hE, hAdj, hTxns⟩

/-- **A rollback restores the store**: where the calls stay inside the records and the oldest entry
of each entity is enough to undo it, other transactions cannot tell that `txn` has run. -/
theorem abort_restores [DecidableEq V] {trace : List (MemoryGraph V × Action V)}
    {g₀ : MemoryGraph V} (hInit : Initial g₀) (hRun : Run Step GcOk g₀ trace g)
    {startTs : Option Nat} {iso : IsolationLevel}
    (hBegin : g.beginTransactionAt none startTs iso .pessimistic false = (g₁, .ok txn))
    (ops : List (Op V)) (hInside : OpsInside txn g₁ ops)
    (hUndoable : ∀ g₂, g₁.runOps txn ops = some g₂ → Undoable g₂ txn) :
    ∃ g₂, g₁.runOps txn ops = some g₂ ∧ AbortUnnoticed g g₂ txn := by
  have hwf : WF g := wf_run hInit (fun _ _ h => h) hRun
  obtain ⟨idGen, tsGen, hId, -, hLock, hIdGen, hTs, hg₁⟩ := beginTransactionAt_ok hBegin
  obtain ⟨hLt, hMono, hMax, -⟩ := GlobalTimestampGenerator.obtain_ok hTs hwf.tsBound
  have hwf₁ : WF g₁ := hg₁ ▸ (hwf.begun hId hIdGen hLt hMono hMax).appendWal _
  have ht : txn ∈ g₁.txnManager.activeTxns := by
    rw [hg₁]
    exact SkipList.mem_insert_self ..
  have hSelf : g₁.txns txn.txnId = .new := by
    rw [hg₁]
    exact Function.update_self ..
  have hChain : g₁.chain = g.chain := by
    rw [hg₁]
    funext k id
    cases k <;> rfl
  have hElse : ∀ t, t ≠ txn.txnId → g₁.txns t = g.txns t := fun t hne => by
    rw [hg₁]
    exact Function.update_of_ne hne ..
  -- a transaction that has just begun has done nothing yet
  have hRan₁ : Ran g₁ g₁ txn :=
    ⟨fun k id => .untouched (by simp [entriesFor, hSelf, TxnState.new]) rfl, .inl rfl,
      fun _ _ => rfl⟩
  obtain ⟨g₂, hRunOps, hSteps⟩ := runOps_isSome hLock ops hInside
  refine ⟨g₂, hRunOps, ?_⟩
  have hUndoable := hUndoable g₂ hRunOps
  have hRan := hRan₁.opSteps hwf₁ ht hSteps
  obtain ⟨hwf₂, hMgr⟩ := hwf₁.opSteps ht hSteps
  have ht₂ : txn ∈ g₂.txnManager.activeTxns := by rw [hMgr]; exact ht
  have hSpec := @abort_spec V g₂ txn hwf₂ g₂.timestampGenerator (Nat.le_refl _) hwf₂.tsBound
  refine ⟨_, abort_eq hwf₂.threshold ht₂, ?_⟩
  have hNotCreated : ∀ {k : Kind} {id : Nat} {e : UndoEntry (DeltaOp V)},
      (g₂.entriesFor txn.txnId k id).head? = some e → e.delta ≠ .del k id := by
    intro k id e hFirst hDel
    obtain ⟨es, hEs⟩ := List.head?_eq_some_iff.mp hFirst
    have hHead := hUndoable k id
    rw [hEs, List.map_cons, hDel] at hHead
    rcases hHead with ⟨d, hd, -⟩ | ⟨op, hop, -⟩
    · exact DeltaOp.create_ne_del d id hd.symm
    · exact DeltaOp.setProps_ne_del id id op hop.symm
  have hAll : ∃ F, ((g₂.withTs g₂.timestampGenerator).undoAll txn).abortEnd txn =
      g.behind F txn.txnId := by
    refine eq_behind ?_ ?_ (fun t hne => ?_) ?_
    · funext k id
      rw [hSpec.chain, ← hChain]
      cases hRan.entity k id with
      | untouched hNil hOld =>
        rw [hNil, ← hOld]
        exact Option.map_id'
      | created e hFirst hDel => exact absurd hDel (hNotCreated hFirst)
      | edited b c hb hc hEdited =>
        rw [hb, hc, Option.map_some, hEdited.restore (hUndoable k id)]
    · rw [hSpec.adjacency]
      rcases hRan.adjacency with hAdj | ⟨eid, e, hFirst, hDel⟩
      · rw [hAdj, hg₁]
        rfl
      · exact absurd hDel (hNotCreated hFirst)
    · rw [hSpec.others t hne, hRan.others t hne, hElse t hne]
    · rw [hSpec.undoBuffer, hwf.fresh txn.txnId (by rw [hId])]
      rfl
  obtain ⟨F, hF⟩ := hAll
  intro calls hCalls
  rw [show (g₂.undoAll txn).abortEnd txn =
    ((g₂.withTs g₂.timestampGenerator).undoAll txn).abortEnd txn from rfl, hF]
  exact replies_behind hCalls

/-! ## Two rollbacks -/

section Traces

/-- Vertex 1 is created with the properties 7 and 8 and committed at 2. -/
def oneVertexActions : List (Action Nat) :=
  let t₁ := snapshotTxn 1 1 .pessimistic
  [.begin none .snapshot .pessimistic, .op t₁ (.createVertex (.new 1 0 [7, 8])), .commit t₁ none]

/-- The graph after these, with the transaction that begins next. -/
def oneVertexGraph : Option (MemoryGraph Nat × MemoryGraph Nat × MemTransaction) :=
  match runList (next fun _ a => a.isPlain) (.new none .pessimistic .snapshot) oneVertexActions with
  | some (_, g) =>
    match g.beginTransactionAt none none .snapshot .pessimistic false with
    | (g₁, .ok txn) => some (g, g₁, txn)
    | _ => none
  | none => none

/-- The properties that a point read of a vertex finds. -/
def Reply.props : Reply Nat → Option (List Nat)
  | .answer (.vertex (.ok v)) => some v.properties
  | _ => none

theorem oneVertexGraph_some {g g₁ : MemoryGraph Nat} {txn : MemTransaction}
    (h : oneVertexGraph = some (g, g₁, txn)) :
    (∃ trace, Run Step GcOk (.new none .pessimistic .snapshot : MemoryGraph Nat) trace g) ∧
    g.beginTransactionAt none none .snapshot .pessimistic false = (g₁, .ok txn) := by
  unfold oneVertexGraph at h
  split at h
  · rename_i trace g' hList
    split at h
    · rename_i g₁' txn' hBegin
      cases h
      refine ⟨⟨trace, Run.of_runList (fun s a s' hNext => ?_) hList⟩, hBegin⟩
      obtain ⟨hPlain, hStep⟩ := step_of_next hNext
      exact ⟨gcOk_of_fcw (fcw_of_isPlain hPlain), hStep⟩
    · cases h
  · cases h

/-- **A rollback keeps a dirty write**: the transaction sets property 0, then property 1,
and aborts; a later transaction finds the second value. -/
theorem abort_keeps_dirty_write : ∃ trace g g₁ txn g₂,
    Run Step GcOk (.new none .pessimistic .snapshot : MemoryGraph Nat) trace g ∧
    g.beginTransactionAt none none .snapshot .pessimistic false = (g₁, .ok txn) ∧
    g₁.runOps txn [.setVertexProperty 1 [0] [9], .setVertexProperty 1 [1] [10]] = some g₂ ∧
    ¬ AbortUnnoticed g g₂ txn := by
  obtain ⟨⟨g, g₁, txn⟩, hSome⟩ := Option.isSome_iff_exists.mp
    (show oneVertexGraph.isSome = true by decide +kernel)
  obtain ⟨⟨trace, hRun⟩, hBegin⟩ := oneVertexGraph_some hSome
  let reader := snapshotTxn 3 4 .pessimistic
  have hFound : (oneVertexGraph.bind fun r =>
      (r.2.1.runOps r.2.2 [.setVertexProperty 1 [0] [9], .setVertexProperty 1 [1] [10]]).map
        fun g₂ => ((g₂.abortAt r.2.2 false).1.replies [(reader, .query (.getVertex 1))]).map
          Reply.props) = some [some [7, 10]] := by decide +kernel
  have hExpected : (oneVertexGraph.map fun r =>
      (r.1.replies [(reader, .query (.getVertex 1))]).map Reply.props) = some [some [7, 8]] := by
    decide +kernel
  have hId : (oneVertexGraph.map fun r => r.2.2.txnId) = some (Timestamp.txnIdStart + 2) := by
    decide +kernel
  rw [hSome, Option.bind_some] at hFound
  rw [hSome, Option.map_some, Option.some.injEq] at hExpected hId
  obtain ⟨g₂, hOps, hFound⟩ := Option.map_eq_some_iff.mp hFound
  refine ⟨trace, g, g₁, txn, g₂, hRun, hBegin, hOps, ?_⟩
  rintro ⟨h', hAbort, hSame⟩
  have hReplies := hSame [(reader, .query (.getVertex 1))] (by
    intro p hp
    rw [List.mem_singleton.mp hp]
    show Timestamp.txnIdStart + 3 ≠ txn.txnId
    rw [hId]
    omega)
  dsimp only at hExpected
  rw [hAbort, hReplies, hExpected] at hFound
  exact absurd hFound (by decide)

/-- A transaction that only sets property 0, twice, is undone. -/
theorem abort_restores_oneVertex : ∃ g g₁ txn,
    g.beginTransactionAt none none .snapshot .pessimistic false = (g₁, .ok txn) ∧
    ∃ g₂, g₁.runOps txn [.setVertexProperty 1 [0] [9], .setVertexProperty 1 [0] [10]] = some g₂ ∧
      AbortUnnoticed g g₂ txn := by
  obtain ⟨⟨g, g₁, txn⟩, hSome⟩ := Option.isSome_iff_exists.mp
    (show oneVertexGraph.isSome = true by decide +kernel)
  obtain ⟨⟨trace, hRun⟩, hBegin⟩ := oneVertexGraph_some hSome
  -- the record has two properties before each of the calls
  have hRecords : (oneVertexGraph.map fun r =>
      [r.2.1, (r.2.1.runOp r.2.2 (.setVertexProperty 1 [0] [9])).1].map fun h =>
        (h.chain .vertex 1).map fun c => c.current.data.properties.length) =
      some [some 2, some 2] := by decide +kernel
  have hBuf : (oneVertexGraph.bind fun r =>
      (r.2.1.runOps r.2.2 [.setVertexProperty 1 [0] [9], .setVertexProperty 1 [0] [10]]).map
        fun g₂ => (g₂.txns r.2.2.txnId).undoBuffer.map UndoEntry.delta) =
      some [.setVertexProps 1 ⟨[0], [7]⟩, .setVertexProps 1 ⟨[0], [9]⟩] := by decide +kernel
  rw [hSome, Option.map_some, Option.some.injEq] at hRecords
  rw [hSome, Option.bind_some] at hBuf
  obtain ⟨hFirst, hSecond⟩ : _ ∧ _ := by simpa using hRecords
  have hInside : ∀ {h : MemoryGraph Nat},
      (∃ c, h.chain .vertex 1 = some c ∧ c.current.data.properties.length = 2) →
      h.Inside txn .vertex 1 [0] := by
    rintro h ⟨c', hChain', hLength⟩ c hChain - i hi
    obtain rfl : c' = c := Option.some.inj (hChain'.symm.trans hChain)
    rw [List.mem_singleton.mp hi, hLength]
    omega
  refine ⟨g, g₁, txn, hBegin, abort_restores ⟨_, _, rfl⟩ hRun hBegin _
    ⟨hInside hFirst, hInside hSecond, trivial⟩ fun g₂ hOps k id => ?_⟩
  dsimp only at hBuf
  rw [hOps, Option.map_some, Option.some.injEq] at hBuf
  rw [map_delta_entriesFor, hBuf]
  by_cases hKey : k = .vertex ∧ id = 1
  · obtain ⟨rfl, rfl⟩ := hKey
    refine .inr ⟨⟨[0], [7]⟩, rfl, fun delta' hDelta => ?_⟩
    rw [List.mem_singleton.mp hDelta]
    exact ⟨⟨[0], [9]⟩, rfl, List.Subset.refl _⟩
  · have hNot : ¬ (some (Kind.vertex, 1) = some (k, id)) := by
      intro heq
      cases heq
      exact hKey ⟨rfl, rfl⟩
    simp only [List.filter, DeltaOp.target, hNot, decide_false]
    trivial

end Traces

end MiniGU.MemoryGraph
