import MiniGU.Invariant.OlapStamps
import MiniGU.Invariant.OlapValues
import MiniGU.Results.OlapScans

/-!
# Property columns against edge blocks

The property columns of the AP store follow the blocks of edges by position. In runs of
calls that put a new edge where no other edge has left versions, and that bring new columns
only while there is one block, each entry holds what was written to its edge
(`properties_aligned`).
-/

namespace MiniGU

namespace Olap

open OlapStorage

variable {V : Type}

-- ----
-- The values that the calls write
-- ----

/-- The edge that a call creates: its id, its stamp and what was given. -/
def OlapState.created (s : OlapState V) : Action V → Option (Nat × Nat × OlapEdge V)
  | .plain (.createEdge edge) =>
    match s.storage.createEdge edge with
    | some (_, .ok eid) => some (eid, 0, edge)
    | _ => none
  | .op txnId (.createEdge edge) =>
    (s.txns txnId).bind fun txn =>
      match s.storage.createEdgeInTxn txn edge with
      | some (_, _, .ok eid) => some (eid, txn.txnId, edge)
      | _ => none
  | _ => none

/-- The property update that a call makes: the edge, the stamp and the values. -/
def OlapState.updated (s : OlapState V) : Action V → Option (Nat × Nat × List (Nat × V))
  | .plain (.setEdgeProperty eid indices props) =>
    match s.storage.setEdgeProperty eid indices props with
    | (_, .ok ()) => some (eid, 0, indices.zip props)
    | _ => none
  | .op txnId (.setEdgeProperty eid indices props) =>
    (s.txns txnId).bind fun txn =>
      match s.storage.setEdgePropertyInTxn txn eid indices props with
      | some (_, _, .ok ()) => some (eid, txn.txnId, indices.zip props)
      | _ => none
  | _ => none

namespace EdgeValues

/-- The undo buffer of a transaction at commit. -/
def commitAll (t : EdgeValues V) (txnId ts : Nat) (g : OlapStorage V) :
    List (DeltaOp × Nat) → EdgeValues V
  | [] => t
  | entry :: entries =>
    (t.commitEntry txnId ts g entry.1).commitAll txnId ts (g.commitEntry txnId ts entry.1) entries

/-- The values after a call that answers. A new edge has a version in every column there is,
and in those that its own record needs inside a transaction. -/
def after (t : EdgeValues V) (s : OlapState V) : Action V → EdgeValues V
  | .plain o =>
    match s.created (.plain o), s.updated (.plain o) with
    | some (eid, stamp, edge), _ => t.create eid s.storage.propertyColumns.length stamp edge
    | none, some (eid, stamp, ps) => t.pushAll eid stamp ps
    | none, none => t
  | .op txnId o =>
    match s.created (.op txnId o), s.updated (.op txnId o) with
    | some (eid, stamp, edge), _ =>
      t.create eid (max s.storage.propertyColumns.length edge.properties.length) stamp edge
    | none, some (eid, stamp, ps) => t.pushAll eid stamp ps
    | none, none => t
  | .commit txnId commitTs =>
    match s.txns txnId, s.gen.obtain commitTs with
    | some txn, .ok (ts, _) =>
      if txn.commitTs = none then t.commitAll txn.txnId ts s.storage txn.undoBuffer else t
    | _, _ => t
  | .abort txnId =>
    match s.txns txnId with
    | some txn =>
      if txn.commitTs = none then
        txn.undoBuffer.reverse.foldl (fun t entry => t.abortEntry txn.txnId entry) t
      else t
    | none => t
  | .begin _ _ => t

/-- What a reader sees of an edge in a column. -/
def visible (t : EdgeValues V) (txn : Reader) (eid j : Nat) : Option V :=
  propValueVisibleAt (t eid j) txn

end EdgeValues

-- ----
-- The condition
-- ----

namespace OlapStorage

/-- The place of the new edge holds no versions; the columns it brings, `n` in all, find no
other block; and it has no value behind the columns. -/
def TakesEdge (g : OlapStorage V) (m n : Nat) (edge : OlapEdge V) : Prop :=
  ∀ i vertex g' b block, g.findSource edge.srcId = .ok (i, vertex) →
    g.openBlock i vertex edge.srcId m = .ok (g', b) → g'.edges[b]? = some block →
    (∀ j, g.versions j b (insertPos block.edges (edge.dstId, edge.labelId)) = []) ∧
    (g.propertyColumns.length < n → g'.edges.length = 1) ∧
    ∀ j, g.propertyColumns.length ≤ j → n ≤ j → edge.get j = none

end OlapStorage

/-- The calls that keep the columns aligned. -/
def KeepsAligned (s : OlapState V) : Action V → Prop
  | .plain (.createEdge edge) => s.storage.TakesEdge Timestamp.maxCommitTs 0 edge
  | .op txnId (.createEdge edge) =>
    ∀ txn, s.txns txnId = some txn → s.storage.TakesEdge txn.txnId edge.properties.length edge
  | .plain (.setEdgeProperty eid indices props) => s.storage.edgeIdMap eid ≠ none →
    ∀ p ∈ indices.zip props, p.1 < s.storage.propertyColumns.length
  | .plain (.deleteVertex vid) => ∀ i v,
    (s.storage.vertices.findIdx? fun vertex => vertex.vid == vid) = some i →
      s.storage.vertices[i]? = some v → v.blockOffset ≠ none
  | _ => True

-- ----
-- The calls
-- ----

namespace OlapStorage

variable {g : OlapStorage V} {t : EdgeValues V}

theorem WellFormed.fresh (hw : g.WellFormed) {g₁ : OlapStorage V} {b₁ : Nat}
    (hOpen : Opened g g₁ b₁) {b o : Nat} {e : OlapStorageEdge} (hs : g.slotAt b o = some e) :
    e.eid ≠ g₁.edgeIdCounter := by
  have := hw.eid_lt hs
  have := hOpen.counter
  omega

/-- There is a block for the new slot in every column, or it can be made. -/
theorem Aligned.reach (h : g.Aligned t) {g₁ : OlapStorage V} {b n : Nat} (hOpen : Opened g g₁ b)
    (hLate : g.propertyColumns.length < n → g₁.edges.length = 1) {gs : OlapStorage V}
    (hColumns : gs.propertyColumns = g.propertyColumns) : (gs.extendColumns n).ColumnsReach b := by
  intro column hColumn
  obtain ⟨j, hj⟩ := List.mem_iff_getElem?.mp hColumn
  have hPlace := hOpen.place
  rcases extendColumns_cases hj with hOld | ⟨hLe, hLt, -⟩
  · rw [hColumns] at hOld
    have := h.covers column (List.mem_iff_getElem?.mpr ⟨j, hOld⟩)
    omega
  · rw [hColumns] at hLe
    have := hLate (by omega)
    omega

theorem extendColumns_zero (g : OlapStorage V) : g.extendColumns 0 = g := by
  unfold extendColumns
  rw [Nat.zero_sub, List.replicate_zero, List.append_nil]

/-- Putting the edge into the open block and its values into the columns. -/
theorem Aligned.inserted (h : g.Aligned t) (hw : g.WellFormed) {edge : OlapEdge V}
    {m n i b : Nat} {vertex : OlapVertex V} {g₁ : OlapStorage V} {block : EdgeBlock}
    (hTakes : g.TakesEdge m n edge) (stamp : Nat) (hSource : g.findSource edge.srcId = .ok (i, vertex))
    (hOpen : g.openBlock i vertex edge.srcId m = .ok (g₁, b)) (hb : g₁.edges[b]? = some block)
    (hRoom : block.edges.length < blockCapacity) :
    ∃ g₂, (({ g₁ with edgeIdCounter := g₁.edgeIdCounter + 1 }.insertSlot b
      (insertPos block.edges (edge.dstId, edge.labelId))
      ⟨g₁.edgeIdCounter, edge.labelId, edge.dstId, stamp⟩).extendColumns n).insertProperties b
        (insertPos block.edges (edge.dstId, edge.labelId)) block.edges.length stamp edge =
          some g₂ ∧
      g₂.Aligned (t.create g₁.edgeIdCounter (max g.propertyColumns.length n) stamp edge) := by
  have hOpened := opened_of_openBlock hOpen
  obtain ⟨hClear, hLate, -⟩ := hTakes i vertex g₁ b block hSource hOpen hb
  have hReach : (({ g₁ with edgeIdCounter := g₁.edgeIdCounter + 1 }.insertSlot b
      (insertPos block.edges (edge.dstId, edge.labelId))
      ⟨g₁.edgeIdCounter, edge.labelId, edge.dstId, stamp⟩).extendColumns n).ColumnsReach b :=
    h.reach hOpened hLate hOpened.columns
  obtain ⟨g₂, hProps⟩ := Option.isSome_iff_exists.mp (insertProperties_isSome.mpr hReach)
  exact ⟨g₂, hProps, h.insert hOpened hb hRoom (insertPos_le _ _) hClear hLate
    (fun hs => hw.fresh hOpened hs) hProps⟩

/-- `create_edge` answers, and with an id the edge has its values. -/
theorem Aligned.createEdge (h : g.Aligned t) (hw : g.WellFormed) {edge : OlapEdge V}
    (hTakes : g.TakesEdge Timestamp.maxCommitTs 0 edge) :
    (∃ e, g.createEdge edge = some (g, .error e)) ∨
    ∃ g' eid, g.createEdge edge = some (g', .ok eid) ∧
      g'.Aligned (t.create eid g.propertyColumns.length 0 edge) ∧
      ∀ j, g.propertyColumns.length ≤ j → edge.get j = none := by
  cases hSource : g.findSource edge.srcId with
  | error e =>
    refine .inl ⟨e, ?_⟩
    unfold OlapStorage.createEdge
    simp only [hSource]
  | ok source =>
    obtain ⟨i, vertex⟩ := source
    obtain ⟨hId, hVertex⟩ := findSource_ok hSource
    obtain ⟨⟨g₁, b⟩, hOpen⟩ := openBlock_isOk hw edge.srcId Timestamp.maxCommitTs hVertex
    obtain ⟨-, block, hb, hRoom⟩ := openBlock_ok hId hVertex hOpen
    obtain ⟨g₂, hProps, hAligned⟩ := h.inserted hw hTakes 0 hSource hOpen hb hRoom
    rw [extendColumns_zero] at hProps
    rw [Nat.max_zero] at hAligned
    refine .inr ⟨g₂, g₁.edgeIdCounter, ?_, hAligned, fun j hj => ?_⟩
    · rw [createEdge_eq hSource hOpen hb, hProps]
      rfl
    · exact (hTakes i vertex g₁ b block hSource hOpen hb).2.2 j hj (Nat.zero_le j)

theorem Aligned.createEdgeInTxn (h : g.Aligned t) (hw : g.WellFormed) (txn : MemTransaction)
    {edge : OlapEdge V} (hTakes : g.TakesEdge txn.txnId edge.properties.length edge) :
    (∃ e, g.createEdgeInTxn txn edge = some (g, txn, .error e)) ∨
    ∃ g' txn' eid, g.createEdgeInTxn txn edge = some (g', txn', .ok eid) ∧
      g'.Aligned (t.create eid (max g.propertyColumns.length edge.properties.length) txn.txnId
        edge) := by
  cases hSource : g.findSource edge.srcId with
  | error e =>
    refine .inl ⟨e, ?_⟩
    unfold OlapStorage.createEdgeInTxn
    simp only [hSource]
  | ok source =>
    obtain ⟨i, vertex⟩ := source
    obtain ⟨hId, hVertex⟩ := findSource_ok hSource
    obtain ⟨⟨g₁, b⟩, hOpen⟩ := openBlock_isOk hw edge.srcId txn.txnId hVertex
    obtain ⟨-, block, hb, hRoom⟩ := openBlock_ok hId hVertex hOpen
    obtain ⟨g₂, hProps, hAligned⟩ := h.inserted hw hTakes txn.txnId hSource hOpen hb hRoom
    refine .inr ⟨g₂.touchBlock b txn.txnId,
      txn.pushUndo (.createEdge g₁.edgeIdCounter) txn.txnId, g₁.edgeIdCounter, ?_, hAligned.overwritesSlot (touchBlock_overwrites (o := 0)) (fun _ => rfl) rfl⟩
    rw [createEdgeInTxn_eq hSource hOpen hb, hProps]
    rfl

/-- The slot that a write finds, in a store with the same slots and columns. -/
theorem Aligned.findForWrite (h : g.Aligned t) (hw : g.WellFormed) (eid : Nat) :
    (g.findForWrite eid).1.Aligned t ∧ (g.findForWrite eid).1.WellFormed ∧
      (g.findForWrite eid).1.propertyColumns = g.propertyColumns := by
  obtain ⟨hEdges, hColumns⟩ := findForWrite_same g eid
  refine ⟨h.of_slots (h.covers.congr hColumns (congrArg List.length hEdges)) (fun block hBlock => ?_)
    fun {b o edge} hs j => ?_, hw.edits (findForWrite_edits g eid), hColumns⟩
  · exact ⟨block, hEdges ▸ hBlock, Nat.le_refl _⟩
  · rw [versions_congr hColumns]
    refine h.own ?_ j
    unfold slotAt at hs ⊢
    rwa [hEdges] at hs

/-- A transactional write pushes its versions onto the edge, or leaves everything as it was. -/
theorem Aligned.setEdgePropertyInTxn (h : g.Aligned t) (hw : g.WellFormed) (txn : MemTransaction)
    (eid : Nat) (indices : List Nat) (props : List V) :
    ∃ g' txn' res, g.setEdgePropertyInTxn txn eid indices props = some (g', txn', res) ∧
      g'.Aligned (match res with
        | .ok () => t.pushAll eid txn.txnId (indices.zip props)
        | .error _ => t) := by
  unfold OlapStorage.setEdgePropertyInTxn
  split
  · exact ⟨g, txn, _, rfl, h⟩
  · obtain ⟨h₁, hw₁, hColumns⟩ := h.findForWrite hw eid
    cases hFind : g.findForWrite eid with
    | mk g₁ found =>
      rw [hFind] at h₁ hw₁
      cases found with
      | error e => exact ⟨g₁, txn, _, rfl, h₁⟩
      | ok found =>
        obtain ⟨b, o, edge⟩ := found
        obtain ⟨block, hb, -, ho, hEid⟩ := findForWrite_ok hFind
        simp only
        split
        · exact ⟨g₁, txn, _, rfl, h₁⟩
        · rename_i hRange
          have hRange : ∀ p ∈ indices.zip props, p.1 < g₁.propertyColumns.length := by
            intro p hp
            simp only [List.any_eq_true, decide_eq_true_eq, not_exists, not_and,
              Nat.not_le] at hRange
            exact hRange p.1 (List.of_mem_zip hp).1
          have hO : Overwrites g₁ ((g₁.modifySlot b o fun edge =>
              { edge with commitTs := txn.txnId }).touchBlock b txn.txnId) b o _ _ _ :=
            modifySlot_overwrites.trans touchBlock_overwrites
          have hs := slotAt_eq_some.mpr ⟨block, hb, ho⟩
          have hStamped := h₁.overwritesSlot hO (fun _ => rfl) rfl
          have hs₂ : ((g₁.modifySlot b o fun edge => { edge with commitTs := txn.txnId }).touchBlock
              b txn.txnId).slotAt b o = some { edge with commitTs := txn.txnId } := by
            rw [hO.slotAt, hs]
            simp only [and_self, if_true]
            rfl
          obtain ⟨g', hLoop, hAligned⟩ := hStamped.setVersions (hO.wellFormed hw₁ fun _ => rfl) hs₂
            txn.txnId (indices.zip props) hRange
          refine ⟨g', txn.pushUndo (.setEdgeProps eid indices) edge.commitTs, .ok (), ?_, ?_⟩
          · simp only [MemTransaction.pushUndo]
            rw [hLoop]
            rfl
          · exact hEid ▸ hAligned

theorem Aligned.deleteEdgeInTxn (h : g.Aligned t) (hw : g.WellFormed) (txn : MemTransaction)
    (eid : Nat) : (g.deleteEdgeInTxn txn eid).1.Aligned t := by
  obtain ⟨h₁, hw₁, -⟩ := h.findForWrite hw eid
  unfold OlapStorage.deleteEdgeInTxn
  cases hFind : g.findForWrite eid with
  | mk g₁ found =>
    rw [hFind] at h₁
    cases found with
    | error e => exact h₁
    | ok found =>
      obtain ⟨b, o, edge⟩ := found
      exact h₁.overwritesSlot (modifySlot_overwrites.trans touchBlock_overwrites) (fun _ => rfl) rfl

theorem Aligned.setEdgeProperty (h : g.Aligned t) (hw : g.WellFormed) {eid : Nat}
    {indices : List Nat} {props : List V} (hRange : g.edgeIdMap eid ≠ none →
      ∀ p ∈ indices.zip props, p.1 < g.propertyColumns.length) :
    (g.setEdgeProperty eid indices props).1.Aligned
      (match (g.setEdgeProperty eid indices props).2 with
        | .ok () => t.pushAll eid 0 (indices.zip props)
        | .error _ => t) := by
  unfold OlapStorage.setEdgeProperty
  cases hm : g.edgeIdMap eid with
  | none => exact h
  | some loc =>
    obtain ⟨b, o⟩ := loc
    obtain ⟨edge, hs, hEid⟩ := hw.located hm
    have hLoop := h.setValues hw hs (indices.zip props) (hRange (by rw [hm]; nofun))
    simp only
    split
    · exact h
    · split
      · exact h
      · split
        · exact hEid ▸ hLoop
        · exact h

theorem Aligned.commitAll (h : g.Aligned t) (hw : g.WellFormed) (txnId ts : Nat)
    (entries : List (DeltaOp × Nat)) :
    (entries.foldl (fun g entry => g.commitEntry txnId ts entry.1) g).Aligned
      (t.commitAll txnId ts g entries) := by
  induction entries generalizing g t with
  | nil => exact h
  | cons entry entries ih =>
    exact ih (h.commitEntry hw txnId ts entry.1) (hw.edits (commitEntry_edits txnId ts g entry.1))

theorem Aligned.abortAll (h : g.Aligned t) (hw : g.WellFormed) (txnId : Nat)
    (snapshot : Nat → Option (Option Nat × Nat)) (entries : List (DeltaOp × Nat)) :
    ∃ g', entries.foldlM (OlapStorage.abortEntry txnId snapshot) g = some g' ∧
      g'.Aligned (entries.foldl (fun t entry => t.abortEntry txnId entry) t) := by
  induction entries generalizing g t with
  | nil => exact ⟨g, rfl, h⟩
  | cons entry entries ih =>
    obtain ⟨g₁, hHead, h₁⟩ := h.abortEntry hw txnId snapshot entry
    obtain ⟨g', hTail, h'⟩ := ih h₁ (hw.edits (abortEntry_edits hHead))
    refine ⟨g', ?_, h'⟩
    rw [List.foldlM_cons, hHead]
    exact hTail

end OlapStorage

-- ----
-- The reads
-- ----

namespace OlapStorage

variable {g : OlapStorage V} {t : EdgeValues V}

end OlapStorage

-- ----
-- No call panics
-- ----

namespace OlapStorage

variable {g : OlapStorage V} {t : EdgeValues V}

theorem Aligned.abort (h : g.Aligned t) (hw : g.WellFormed) (txn : MemTransaction) :
    ∃ r, g.abort txn = some r ∧ r.1.Aligned (if txn.commitTs = none then
      txn.undoBuffer.reverse.foldl (fun t entry => t.abortEntry txn.txnId entry) t else t) := by
  unfold OlapStorage.abort
  cases hCommit : txn.commitTs with
  | some ts => exact ⟨_, rfl, h⟩
  | none =>
    obtain ⟨g', hLoop, h'⟩ :=
      h.abortAll hw txn.txnId txn.deletedEdgeSnapshot txn.undoBuffer.reverse
    simp only [hLoop]
    exact ⟨_, rfl, h'⟩

end OlapStorage

/-- One call keeps the columns aligned with the values of the edges. -/
theorem OlapStorage.Aligned.step {s s' : OlapState V} {t : EdgeValues V} {a : Action V}
    (h : s.storage.Aligned t) (hw : s.storage.WellFormed) (hKeeps : KeepsAligned s a)
    (hStep : Step s a s') : s'.storage.Aligned (t.after s a) := by
  cases a with
  | plain o =>
    obtain ⟨g, hRun, rfl⟩ := Option.map_eq_some_iff.mp hStep
    cases o with
    | createVertex vid properties =>
      obtain ⟨r, hr, rfl⟩ := Option.map_eq_some_iff.mp hRun
      rcases createVertex_cases hr with ⟨-, hSame⟩ | ⟨-, -, hSame⟩
      · exact hSame ▸ h
      · rw [hSame]
        exact ⟨h.covers, h.room, h.own⟩
    | createEdge edge =>
      unfold EdgeValues.after OlapState.created
      rcases h.createEdge hw hKeeps with ⟨e, hr⟩ | ⟨g', eid, hr, h', -⟩
      · simp only [PlainOp.run, hr, Option.map_some, Option.some.injEq] at hRun ⊢
        exact hRun ▸ h
      · simp only [PlainOp.run, hr, Option.map_some, Option.some.injEq] at hRun ⊢
        exact hRun ▸ h'
    | setEdgeProperty eid indices props =>
      obtain rfl := Option.some.inj hRun
      have h' := h.setEdgeProperty hw hKeeps
      unfold EdgeValues.after OlapState.created OlapState.updated
      cases hr : s.storage.setEdgeProperty eid indices props with
      | mk g' res =>
        rw [hr] at h'
        simp only [hr]
        cases res with
        | error e => exact h'
        | ok u => exact h'
    | setVertexProperty vid indices props =>
      obtain ⟨r, hr, rfl⟩ := Option.map_eq_some_iff.mp hRun
      obtain ⟨vertices, hSame⟩ := setVertexProperty_vertices hr
      rw [hSame]
      exact ⟨h.covers, h.room, h.own⟩
    | deleteVertex vid =>
      obtain ⟨r, hr, rfl⟩ := Option.map_eq_some_iff.mp hRun
      exact h.deleteVertex hr
    | deleteEdge eid =>
      obtain ⟨r, hr, rfl⟩ := Option.map_eq_some_iff.mp hRun
      exact h.deleteEdge hr
  | begin txnId startTs =>
    have hStep : (if Timestamp.isTxnId txnId = true ∧ s.txns txnId = none then
        some { s with txns := Function.update s.txns txnId (some (.new txnId startTs)) }
      else none) = some s' := hStep
    split at hStep
    · cases hStep
      exact h
    · cases hStep
  | op txnId o =>
    obtain ⟨txn, hTxn, hRun⟩ := Option.bind_eq_some_iff.mp hStep
    obtain ⟨⟨g, txn'⟩, hOp, rfl⟩ := Option.map_eq_some_iff.mp hRun
    cases o with
    | createEdge edge =>
      unfold EdgeValues.after OlapState.created
      rcases h.createEdgeInTxn hw txn (hKeeps txn hTxn) with
        ⟨e, hr⟩ | ⟨g', txn₁, eid, hr, h'⟩
      · simp only [TxnOp.run, hr, Option.map_some, Option.some.injEq, Prod.mk.injEq] at hOp
        simp only [hTxn, Option.bind_some, hr]
        exact hOp.1 ▸ h
      · simp only [TxnOp.run, hr, Option.map_some, Option.some.injEq, Prod.mk.injEq] at hOp
        simp only [hTxn, Option.bind_some, hr]
        exact hOp.1 ▸ h'
    | setEdgeProperty eid indices props =>
      obtain ⟨g', txn₁, res, hr, h'⟩ := h.setEdgePropertyInTxn hw txn eid indices props
      simp only [TxnOp.run, hr, Option.map_some, Option.some.injEq, Prod.mk.injEq] at hOp
      unfold EdgeValues.after OlapState.created OlapState.updated
      simp only [hTxn, Option.bind_some, hr]
      cases res with
      | error e => exact hOp.1 ▸ h'
      | ok u => exact hOp.1 ▸ h'
    | deleteEdge eid =>
      cases hOp
      exact h.deleteEdgeInTxn hw txn eid
  | commit txnId commitTs =>
    obtain ⟨txn, hTxn, rfl⟩ := Option.map_eq_some_iff.mp hStep
    unfold EdgeValues.after
    simp only [hTxn, commitAt_eq]
    cases hObtain : s.gen.obtain commitTs with
    | error e => exact h
    | ok stamp =>
      obtain ⟨ts, gen'⟩ := stamp
      cases hCommit : txn.commitTs with
      | some _ =>
        simp only [hCommit, reduceCtorEq, if_false]
        exact h
      | none =>
        simp only [hCommit, if_true]
        exact h.commitAll hw txn.txnId ts txn.undoBuffer
  | abort txnId =>
    obtain ⟨txn, hTxn, hRun⟩ := Option.bind_eq_some_iff.mp hStep
    obtain ⟨r, hr, rfl⟩ := Option.map_eq_some_iff.mp hRun
    obtain ⟨r', hr', h'⟩ := h.abort hw txn
    obtain rfl := Option.some.inj (hr.symm.trans hr')
    unfold EdgeValues.after
    simp only [hTxn]
    exact h'

end Olap

end MiniGU
