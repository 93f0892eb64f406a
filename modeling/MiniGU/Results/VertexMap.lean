import MiniGU.Lib.Collect
import MiniGU.Results.OlapScans

/-!
# The two id maps of the AP store

`dense_id_map` is right as long as no vertex is deleted: `delete_vertex` shifts the
vertices behind the one it removes and leaves the map and the counter as they are, and on a
vertex without edges it indexes the blocks at `usize::MAX`. Of the other calls on a vertex
three can panic: `create_edge` when a column lacks a block before the one it writes to,
`set_vertex_property` on a position outside the record, and an adjacency read that comes to an
edge with a value behind a column without one.

`edge_id_map` is right in each state of each run, with plain and transactional calls,
commits and aborts in any order: every slot in use is where the map says, and every location
in the map holds its edge.

* `OlapState.vertexMap_iff`: the runs in which the vertex map is right and no call panics.
* `OlapState.edgeMap_exact`: the edge map, in every run.
-/

namespace MiniGU

namespace Olap

variable {V : Type}

-- ----
-- The invariant
-- ----

/-- The map sends the id of each vertex to its position, and nothing else anywhere. -/
def OlapStorage.MapsPositions (g : OlapStorage V) : Prop :=
  ∀ vid i, g.denseIdMap vid = some i ↔ ∃ v, g.vertices[i]? = some v ∧ v.vid = vid

/-- The vertex that a call names. -/
def Action.vertex : Action V → Option Nat
  | .plain (.createVertex vid _) | .plain (.setVertexProperty vid _ _)
  | .plain (.deleteVertex vid) => some vid
  | .plain (.createEdge edge) | .op _ (.createEdge edge) => some edge.srcId
  | _ => none

/-- A call on a vertex of the vector that panics. -/
def OlapState.PanicsOnVertex (s : OlapState V) (a : Action V) : Prop :=
  ∃ v ∈ s.storage.vertices, a.vertex = some v.vid ∧ Panics s a

namespace OlapStorage

variable {g g' : OlapStorage V}

/-- The block that a new edge of the vertex goes to. -/
def targetBlock (g : OlapStorage V) (vertex : OlapVertex V) : Nat :=
  match vertex.blockOffset with
  | none => g.edges.length
  | some offset =>
    match g.edges[offset]? with
    | none => g.edges.length
    | some block => if blockCapacity ≤ block.edges.length then g.edges.length else offset

/-- Every column has the blocks before `b`, so that the one at `b` is there or can be
inserted. -/
def ColumnsReach (g : OlapStorage V) (b : Nat) : Prop :=
  ∀ column ∈ g.propertyColumns, b ≤ column.blocks.length

/-- Every column has the blocks before the one that the edge goes to. -/
def HasRoomFor (g : OlapStorage V) (n : Nat) (srcId : Nat) : Prop :=
  ∀ i vertex, g.findSource srcId = .ok (i, vertex) →
    (g.extendColumns n).ColumnsReach (g.targetBlock vertex)

/-- No value stands behind a column without one. -/
def NoGap (n : Nat) (value : Nat → Option V) : Prop :=
  ∀ i j, i < j → j < n → (value j).isSome → (value i).isSome

/-- A slot that the adjacency scans of a vertex come to: in a live block of the vertex, at or
behind no slot with the value of a tombstone. -/
def Adjacent (g : OlapStorage V) (vid b o : Nat) (edge : OlapStorageEdge) : Prop :=
  ∃ block, g.edges[b]? = some block ∧ block.isTombstone = false ∧ block.srcId = vid ∧
    block.edges[o]? = some edge ∧
    ∀ o' ≤ o, ∀ edge', block.edges[o']? = some edge' → edge'.isTombstone = false

/-- The reader is shown no gap in the properties of an adjacent edge. -/
def ReadableAt (g : OlapStorage V) (txn : Reader) (vid : Nat) : Prop :=
  ∀ b o edge, g.Adjacent vid b o edge → g.Shown txn b o edge →
    NoGap g.propertyColumns.length fun j => propValueVisibleAt (g.versions j b o) txn

/-- There is no gap in the last committed properties of an adjacent edge. -/
def Readable (g : OlapStorage V) (vid : Nat) : Prop :=
  ∀ b o edge, g.Adjacent vid b o edge →
    NoGap g.propertyColumns.length fun j => latestCommittedPropValue (g.versions j b o)

/-- What `iter_adjacency` of a vertex yields; nothing when the call is refused. -/
def storedItems (g : OlapStorage V) (vid : Nat) : List (Option (OlapEdge V)) :=
  match g.iterAdjacency vid with
  | .ok items => items
  | .error _ => []

end OlapStorage

/-- The calls that keep the map right and do not panic on a vertex: no `delete_vertex` of
an existing vertex, no edge in a block that a column cannot follow to, and no property outside
the record of an existing vertex. -/
def VertexSafe (s : OlapState V) : Action V → Prop
  | .plain (.setVertexProperty vid indices props) =>
    ∀ v ∈ s.storage.vertices, v.vid = vid → ∀ p ∈ indices.zip props, p.1 < v.properties.length
  | .plain (.deleteVertex vid) => ∀ v ∈ s.storage.vertices, v.vid ≠ vid
  | .plain (.createEdge edge) => s.storage.HasRoomFor 0 edge.srcId
  | .op txnId (.createEdge edge) =>
    s.txns txnId ≠ none → s.storage.HasRoomFor edge.properties.length edge.srcId
  | _ => True

namespace OlapStorage

variable {g g' : OlapStorage V}

-- ----
-- When creating an edge panics
-- ----

theorem insertProperties_isSome {b pos counter stamp : Nat} {edge : OlapEdge V} :
    (g.insertProperties b pos counter stamp edge).isSome ↔ g.ColumnsReach b := by
  unfold insertProperties ColumnsReach
  simp only
  rw [Option.isSome_map, Option.isSome_iff_exists, exists_mapM_iff]
  constructor
  · intro h column hColumn
    obtain ⟨i, hi⟩ := List.mem_iff_getElem?.mp hColumn
    have hOne := h (column, i) (List.mk_mem_zipIdx_iff_getElem?.mpr hi)
    rw [Option.isSome_map] at hOne
    exact ensureBlock_isSome.mp hOne
  · intro h p hp
    rw [Option.isSome_map]
    exact ensureBlock_isSome.mpr (h p.1 (List.fst_mem_of_mem_zipIdx hp))

theorem openBlock_target {i srcId m b : Nat} {vertex : OlapVertex V}
    (h : g.openBlock i vertex srcId m = .ok (g', b)) :
    b = g.targetBlock vertex ∧ g'.propertyColumns = g.propertyColumns := by
  unfold openBlock at h
  unfold targetBlock
  cases hStart : vertex.blockOffset with
  | none =>
    rw [hStart] at h
    cases h
    exact ⟨rfl, rfl⟩
  | some offset =>
    rw [hStart] at h
    cases hb : g.edges[offset]? with
    | none =>
      simp only [hb] at h
      cases h
    | some block =>
      simp only [hb] at h ⊢
      split at h
      · rename_i hFull
        cases h
        rw [if_pos hFull]
        exact ⟨rfl, rfl⟩
      · rename_i hRoom
        cases h
        rw [if_neg hRoom]
        exact ⟨rfl, rfl⟩

theorem openBlock_isOk (hw : g.WellFormed) {i : Nat} {vertex : OlapVertex V} (srcId m : Nat)
    (hVertex : g.vertices[i]? = some vertex) : ∃ r, g.openBlock i vertex srcId m = .ok r := by
  unfold openBlock
  split
  · exact ⟨_, rfl⟩
  · rename_i offset hStart
    have hLt := hw.start_lt (List.mem_iff_getElem?.mpr ⟨i, hVertex⟩) hStart
    rw [List.getElem?_eq_getElem hLt]
    simp only
    split <;> exact ⟨_, rfl⟩

theorem hasRoomFor_of_error {n srcId : Nat} {e : StorageError}
    (hSource : g.findSource srcId = .error e) : g.HasRoomFor n srcId := by
  intro i vertex h
  rw [hSource] at h
  cases h

theorem hasRoomFor_iff {n srcId i : Nat} {vertex : OlapVertex V}
    (hSource : g.findSource srcId = .ok (i, vertex)) :
    g.HasRoomFor n srcId ↔ (g.extendColumns n).ColumnsReach (g.targetBlock vertex) := by
  refine ⟨fun h => h i vertex hSource, fun h i' vertex' hSource' => ?_⟩
  rw [hSource] at hSource'
  cases hSource'
  exact h

theorem createEdge_isSome (hw : g.WellFormed) {edge : OlapEdge V} :
    (g.createEdge edge).isSome ↔ g.HasRoomFor 0 edge.srcId := by
  cases hSource : g.findSource edge.srcId with
  | error e =>
    have hCreate : g.createEdge edge = some (g, .error e) := by
      unfold createEdge
      simp only [hSource]
    rw [hCreate]
    exact iff_of_true rfl (hasRoomFor_of_error hSource)
  | ok source =>
    obtain ⟨i, vertex⟩ := source
    obtain ⟨hId, hVertex⟩ := findSource_ok hSource
    obtain ⟨⟨g₁, b⟩, hOpen⟩ := openBlock_isOk hw edge.srcId Timestamp.maxCommitTs hVertex
    obtain ⟨-, block, hb, -⟩ := openBlock_ok hId hVertex hOpen
    obtain ⟨hTarget, hColumns⟩ := openBlock_target hOpen
    rw [createEdge_eq hSource hOpen hb, Option.isSome_map, insertProperties_isSome]
    have hExtend : (g.extendColumns 0).propertyColumns = g.propertyColumns := by
      show g.propertyColumns ++ List.replicate (0 - _) _ = _
      rw [Nat.zero_sub, List.replicate_zero, List.append_nil]
    have hReach : (g.extendColumns 0).ColumnsReach (g.targetBlock vertex) ↔
        ∀ column ∈ g₁.propertyColumns, b ≤ column.blocks.length := by
      unfold ColumnsReach
      rw [hExtend, hColumns, hTarget]
    exact hReach.symm.trans (hasRoomFor_iff hSource).symm

theorem createEdgeInTxn_isSome (hw : g.WellFormed) (txn : MemTransaction) {edge : OlapEdge V} :
    (g.createEdgeInTxn txn edge).isSome ↔ g.HasRoomFor edge.properties.length edge.srcId := by
  cases hSource : g.findSource edge.srcId with
  | error e =>
    have hCreate : g.createEdgeInTxn txn edge = some (g, txn, .error e) := by
      unfold createEdgeInTxn
      simp only [hSource]
    rw [hCreate]
    exact iff_of_true rfl (hasRoomFor_of_error hSource)
  | ok source =>
    obtain ⟨i, vertex⟩ := source
    obtain ⟨hId, hVertex⟩ := findSource_ok hSource
    obtain ⟨⟨g₁, b⟩, hOpen⟩ := openBlock_isOk hw edge.srcId txn.txnId hVertex
    obtain ⟨-, block, hb, -⟩ := openBlock_ok hId hVertex hOpen
    obtain ⟨hTarget, hColumns⟩ := openBlock_target hOpen
    rw [createEdgeInTxn_eq hSource hOpen hb, Option.isSome_map, insertProperties_isSome]
    have hReach : (g.extendColumns edge.properties.length).ColumnsReach (g.targetBlock vertex) ↔
        ∀ column ∈ g₁.propertyColumns ++
          List.replicate (edge.properties.length - g₁.propertyColumns.length) ⟨[]⟩,
          b ≤ column.blocks.length := by
      unfold ColumnsReach extendColumns
      rw [hColumns, hTarget]
    exact hReach.symm.trans (hasRoomFor_iff hSource).symm

-- ----
-- When writing a record panics
-- ----

theorem setProps_isSome {properties : List V} {indices : List Nat} {props : List V} :
    (setProps properties indices props).isSome ↔
      ∀ p ∈ indices.zip props, p.1 < properties.length := by
  unfold setProps
  induction indices.zip props generalizing properties with
  | nil => exact iff_of_true rfl fun p hp => nomatch hp
  | cons p l ih =>
    rw [List.foldlM_cons, List.forall_mem_cons]
    by_cases hLt : p.1 < properties.length
    · have hRest := @ih (properties.set p.1 p.2)
      rw [List.length_set] at hRest
      simp only [Option.bind_eq_bind, hLt, true_and]
      exact hRest
    · simp [hLt]

theorem setVertexProperty_isSome {vid i : Nat} {vertex : OlapVertex V} {indices : List Nat}
    {props : List V} (hId : g.denseIdMap vid = some i) (hVertex : g.vertices[i]? = some vertex) :
    (g.setVertexProperty vid indices props).isSome ↔
      ∀ p ∈ indices.zip props, p.1 < vertex.properties.length := by
  unfold setVertexProperty
  rw [hId]
  simp only [hVertex, Option.isSome_map]
  exact setProps_isSome

-- ----
-- When an adjacency scan panics
-- ----

theorem Chained.adjacencyItems_none (h : g.Chained) (hw : g.WellFormed) (txn : Reader)
    (vid : Nat) : none ∉ g.adjacencyItems txn vid ↔ g.ReadableAt txn vid := by
  have hItems : none ∈ g.adjacencyItems txn vid ↔
      ∃ eid ∈ (g.vertexEids vid).filter (g.answers txn), g.getEdgeAtTs txn eid = none := by
    have hMap := hw.adjacencyItems_map txn vid
    have hNone : none ∈ g.adjacencyItems txn vid ↔
        none ∈ (g.adjacencyItems txn vid).map (Option.map some) := by
      rw [List.mem_map]
      simp
    rw [hNone, hMap, List.mem_map]
  constructor
  · intro hNot b o edge hAdjacent hShown
    obtain ⟨block, hb, hLive, hSrc, ho, hAll⟩ := hAdjacent
    by_contra hGap
    refine hNot (hItems.mpr ⟨edge.eid, (h.mem_shownEids hw).mpr
      ⟨b, o, edge, block, hShown, rfl, hb, hSrc, hAll⟩, ?_⟩)
    rw [hw.getEdgeAtTs_shown hb hShown, Option.map_eq_none_iff, ← Option.not_isSome_iff_eq_none,
      edgeWithProps_isSome]
    exact hGap
  · intro hReadable hMem
    obtain ⟨eid, hIn, hPanic⟩ := hItems.mp hMem
    obtain ⟨b, o, edge, block, hShown, rfl, hb, hSrc, hAll⟩ := (h.mem_shownEids hw).mp hIn
    obtain ⟨block', hb', hLive, -, ho, -⟩ := id hShown
    obtain rfl := Option.some.inj (hb.symm.trans hb')
    rw [hw.getEdgeAtTs_shown hb hShown, Option.map_eq_none_iff, ← Option.not_isSome_iff_eq_none,
      edgeWithProps_isSome] at hPanic
    exact hPanic (hReadable b o edge ⟨block, hb, hLive, hSrc, ho, hAll⟩ hShown)

theorem edgeWithCommitted_isSome {b o : Nat} (block : EdgeBlock) (edge : OlapStorageEdge) :
    (g.edgeWithCommitted block b edge o).isSome ↔
      NoGap g.propertyColumns.length fun j => latestCommittedPropValue (g.versions j b o) := by
  unfold edgeWithCommitted
  rw [Option.isSome_map, committedPropertiesAt_eq, shownProps_isSome]
  rfl

/-- A scan of the stored edges panics on a gap in a slot that stands before the first tombstone
of a live block of the chain. -/
theorem none_mem_scanStored {fuel : Nat} {start : Option Nat} :
    none ∈ g.scanStored fuel start ↔ ∃ p ∈ g.chainBlocks fuel start, p.2.isTombstone = false ∧
      ∃ o edge, p.2.edges[o]? = some edge ∧
        (∀ o' ≤ o, ∀ edge', p.2.edges[o']? = some edge' → edge'.isTombstone = false) ∧
        ¬ NoGap g.propertyColumns.length fun j =>
          latestCommittedPropValue (g.versions j p.1 o) := by
  induction fuel generalizing start with
  | zero => exact iff_of_false List.not_mem_nil (by rintro ⟨p, hp, -⟩; cases hp)
  | succ fuel ih =>
    cases start with
    | none => exact iff_of_false List.not_mem_nil (by rintro ⟨p, hp, -⟩; cases hp)
    | some b =>
      unfold scanStored chainBlocks
      cases hb : g.edges[b]? with
      | none => exact iff_of_false List.not_mem_nil (by rintro ⟨p, hp, -⟩; cases hp)
      | some block =>
        have hNodup : block.edges.zipIdx.Nodup := by
          refine List.Nodup.of_map Prod.snd ?_
          rw [List.zipIdx_map_snd]
          exact List.nodup_range'
        have hTaken : ∀ {o : Nat} {edge : OlapStorageEdge}, block.edges[o]? = some edge →
            ((edge, o) ∈ block.edges.zipIdx.takeWhile (fun p => !p.1.isTombstone) ↔
              ∀ o' ≤ o, ∀ edge', block.edges[o']? = some edge' → edge'.isTombstone = false) := by
          intro o edge ho
          rw [mem_takeWhile_iff hNodup (j := o) (by simp [List.getElem?_zipIdx, ho])]
          simp [List.getElem?_zipIdx]
        have hBlock : none ∈ (block.edges.zipIdx.takeWhile fun p => !p.1.isTombstone).map
            (fun p => g.edgeWithCommitted block b p.1 p.2) ↔ ∃ o edge,
              block.edges[o]? = some edge ∧
              (∀ o' ≤ o, ∀ edge', block.edges[o']? = some edge' → edge'.isTombstone = false) ∧
              ¬ NoGap g.propertyColumns.length fun j =>
                latestCommittedPropValue (g.versions j b o) := by
          rw [List.mem_map]
          constructor
          · rintro ⟨⟨edge, o⟩, hIn, hNone⟩
            have ho := List.mk_mem_zipIdx_iff_getElem?.mp ((List.takeWhile_sublist _).mem hIn)
            refine ⟨o, edge, ho, (hTaken ho).mp hIn, fun hNo => ?_⟩
            have hSome := (edgeWithCommitted_isSome block edge).mpr hNo
            rw [hNone] at hSome
            cases hSome
          · rintro ⟨o, edge, ho, hAll, hGap⟩
            refine ⟨(edge, o), (hTaken ho).mpr hAll, ?_⟩
            exact Option.not_isSome_iff_eq_none.mp fun hSome =>
              hGap ((edgeWithCommitted_isSome block edge).mp hSome)
        simp only [List.exists_mem_cons_iff]
        cases hTomb : block.isTombstone with
        | true => simp [ih]
        | false =>
          rw [if_neg (by simp), List.mem_append, ih]
          exact or_congr (hBlock.trans (by simp)) Iff.rfl

theorem Chained.storedItems_none (h : g.Chained) (hw : g.WellFormed) (vid : Nat) :
    none ∉ g.storedItems vid ↔ g.Readable vid := by
  have hItems : none ∈ g.storedItems vid ↔ ∃ vertex, g.getVertex vid = .ok vertex ∧
      none ∈ g.scanStored g.edges.length vertex.blockOffset := by
    unfold storedItems iterAdjacency
    cases g.getVertex vid with
    | error e => exact iff_of_false (fun h => nomatch h) fun ⟨_, hEq, _⟩ => nomatch hEq
    | ok vertex => exact ⟨fun hIn => ⟨vertex, rfl, hIn⟩, fun ⟨_, hEq, hIn⟩ => by cases hEq; exact hIn⟩
  constructor
  · rintro hNot b o edge ⟨block, hb, hLive, rfl, ho, hAll⟩
    by_contra hGap
    obtain ⟨v, hv, hVid, hReach⟩ := h.reached hb hLive
    obtain ⟨i, hi⟩ := List.mem_iff_getElem?.mp hv
    refine hNot (hItems.mpr ⟨v, getVertex_ok.mpr ⟨i, hVid ▸ h.mapped hi, hi⟩,
      none_mem_scanStored.mpr ⟨(b, block), ?_, hLive, o, edge, ho, hAll, hGap⟩⟩)
    exact hw.mem_chainBlocks (fun a ha => hw.start_lt hv ha) hReach hb
  · intro hReadable hMem
    obtain ⟨vertex, hVertex, hIn⟩ := hItems.mp hMem
    obtain ⟨i, hId, hi⟩ := getVertex_ok.mp hVertex
    obtain ⟨p, hp, hLive, o, edge, ho, hAll, hGap⟩ := none_mem_scanStored.mp hIn
    obtain ⟨hb, hReach⟩ := chainBlocks_spec _ hp
    have hOwn := h.owned (List.mem_iff_getElem?.mpr ⟨i, hi⟩) hReach hb
    exact hGap (hReadable p.1 o edge
      ⟨p.2, hb, hLive, hOwn.trans (h.named hId hi), ho, hAll⟩)

-- ----
-- The positions under the writes
-- ----

/-- The vertices' ids, the map and the counter. No write to edges changes them. -/
theorem Edit.vertexMap (h : Edit g g') : g'.denseIdMap = g.denseIdMap ∧
    g'.logicIdCounter = g.logicIdCounter ∧
    g'.vertices.map (·.vid) = g.vertices.map (·.vid) := by
  cases h with
  | pushBlock minTs hId hVertex =>
    refine ⟨rfl, rfl, ?_⟩
    refine List.ext_getElem? fun j => ?_
    show ((g.vertices.modify _ _).map _)[j]? = _
    rw [List.getElem?_map, List.getElem?_modify, List.getElem?_map]
    cases g.vertices[j]? with
    | none => rfl
    | some v =>
      simp only [Option.map_eq_map, Option.map_some, Option.some.injEq]
      split <;> rfl
  | record hVertex properties =>
    refine ⟨rfl, rfl, List.ext_getElem? fun j => ?_⟩
    show ((g.vertices.set _ _).map _)[j]? = _
    rw [List.getElem?_map, getElem?_record hVertex, List.getElem?_map]
    cases g.vertices[j]? with
    | none => rfl
    | some v =>
      simp only [Option.map_some, Option.some.injEq]
      split <;> rfl
  | _ => exact ⟨rfl, rfl, rfl⟩

theorem Edits.vertexMap (h : Edits g g') : g'.denseIdMap = g.denseIdMap ∧
    g'.logicIdCounter = g.logicIdCounter ∧
    g'.vertices.map (·.vid) = g.vertices.map (·.vid) := by
  induction h with
  | refl => exact ⟨rfl, rfl, rfl⟩
  | tail _ hEdit ih =>
    obtain ⟨hMap, hCounter, hVids⟩ := hEdit.vertexMap
    exact ⟨hMap.trans ih.1, hCounter.trans ih.2.1, hVids.trans ih.2.2⟩

theorem mapsPositions_iff : g.MapsPositions ↔
    ∀ vid i, g.denseIdMap vid = some i ↔ (g.vertices.map (·.vid))[i]? = some vid := by
  unfold MapsPositions
  simp only [List.getElem?_map, Option.map_eq_some_iff]

theorem MapsPositions.edits (h : g.MapsPositions) (hEdits : Edits g g') : g'.MapsPositions := by
  obtain ⟨hMap, -, hVids⟩ := hEdits.vertexMap
  rw [mapsPositions_iff, hMap, hVids]
  exact mapsPositions_iff.mp h

theorem MapsPositions.unique (h : g.MapsPositions) {i j : Nat} {v v' : OlapVertex V}
    (hi : g.vertices[i]? = some v) (hj : g.vertices[j]? = some v') (hv : v.vid = v'.vid) :
    i = j := by
  have hi' := (h v.vid i).mpr ⟨v, hi, rfl⟩
  have hj' := (h v.vid j).mpr ⟨v', hj, hv.symm⟩
  exact Option.some.inj (hi'.symm.trans hj')

/-- Taking a vertex out of the vector leaves its own entry in the map behind. -/
theorem MapsPositions.not_erase (h : g.MapsPositions) {i : Nat} {v : OlapVertex V}
    (hi : g.vertices[i]? = some v) (hMap : g'.denseIdMap = g.denseIdMap)
    (hVertices : g'.vertices = g.vertices.eraseIdx i) : ¬ g'.MapsPositions := by
  intro h'
  have hEntry : g'.denseIdMap v.vid = some i := hMap ▸ (h v.vid i).mpr ⟨v, hi, rfl⟩
  obtain ⟨v', hi', hv'⟩ := (h' v.vid i).mp hEntry
  rw [hVertices, List.getElem?_eraseIdx_of_ge (Nat.le_refl i)] at hi'
  have := h.unique hi hi' hv'.symm
  omega

/-- A new vertex goes to the end of the vector, where the counter sends its id. -/
theorem MapsPositions.createVertex (h : g.MapsPositions)
    (hCounter : g.logicIdCounter = g.vertices.length) {vid : Nat} {properties : List V}
    {r : OlapStorage V × Except StorageError Nat} (hr : g.createVertex vid properties = some r) :
    r.1.MapsPositions ∧ r.1.logicIdCounter = r.1.vertices.length := by
  rcases createVertex_cases hr with ⟨-, hSame⟩ | ⟨hNew, hLe, hEq⟩
  · exact hSame ▸ ⟨h, hCounter⟩
  · rw [hEq]
    refine ⟨fun vid' i => ?_, ?_⟩
    · show Function.update g.denseIdMap vid (some g.logicIdCounter) vid' = some i ↔
        ∃ v, (g.vertices.insertIdx g.logicIdCounter ⟨vid, properties, none⟩)[i]? = some v ∧ v.vid = vid'
      rw [List.getElem?_insertIdx, hCounter]
      by_cases hVid : vid' = vid
      · subst hVid
        rw [Function.update_self]
        constructor
        · intro hi
          obtain rfl := Option.some.inj hi
          exact ⟨⟨vid', properties, none⟩, by simp, rfl⟩
        · rintro ⟨v, hv, hEqVid⟩
          split at hv
          · have hOld := (h vid' i).mpr ⟨v, hv, hEqVid⟩
            rw [hNew] at hOld
            cases hOld
          · split at hv
            · rename_i hAt
              rw [hAt]
            · have := (List.getElem?_eq_some_iff.mp hv).1
              omega
      · rw [Function.update_of_ne hVid, h vid' i]
        constructor
        · rintro ⟨v, hv, hEqVid⟩
          have hLt := (List.getElem?_eq_some_iff.mp hv).1
          exact ⟨v, by rw [if_pos hLt, hv], hEqVid⟩
        · rintro ⟨v, hv, hEqVid⟩
          split at hv
          · exact ⟨v, hv, hEqVid⟩
          · split at hv
            · split at hv
              · cases hv
                exact absurd hEqVid.symm hVid
              · cases hv
            · have := (List.getElem?_eq_some_iff.mp hv).1
              omega
    · show g.logicIdCounter + 1 = (g.vertices.insertIdx _ _).length
      rw [List.length_insertIdx_of_le_length hLe, hCounter]

theorem deleteVertex_breaks (h : g.MapsPositions) {vid : Nat}
    {r : OlapStorage V × Except StorageError Unit} (hr : g.deleteVertex vid = some r) :
    r.1.MapsPositions ↔ ∀ v ∈ g.vertices, v.vid ≠ vid := by
  rcases deleteVertex_cases hr with ⟨hNone, hSame⟩ | ⟨i, vertex, b, hFind, hVertex, -, hLoop⟩
  · rw [hSame]
    refine iff_of_true h fun v hv hEq => ?_
    have := List.findIdx?_eq_none_iff.mp hNone v hv
    simp [hEq] at this
  · obtain ⟨⟨edges', hEq⟩, -, -⟩ := tombstoneBlocks_block hLoop
    obtain ⟨hLt, hHit, -⟩ := List.findIdx?_eq_some_iff_getElem.mp hFind
    have hVid : vertex.vid = vid := by
      obtain rfl : g.vertices[i] = vertex := by
        rw [List.getElem?_eq_getElem hLt] at hVertex
        exact Option.some.inj hVertex
      simpa using hHit
    refine iff_of_false (h.not_erase hVertex (by rw [hEq]) (by rw [hEq])) fun hAll => ?_
    exact hAll vertex (List.mem_iff_getElem?.mpr ⟨i, hVertex⟩) hVid

end OlapStorage

-- ----
-- Runs of safe calls
-- ----

/-- What every run of safe calls keeps. -/
structure VerticesInPlace (s : OlapState V) : Prop where
  wellFormed : s.storage.WellFormed
  chained : s.storage.Chained
  positions : s.storage.MapsPositions
  counter : s.storage.logicIdCounter = s.storage.vertices.length

theorem VerticesInPlace.init (n : Nat) : VerticesInPlace (.init n : OlapState V) := by
  have hNone : ∀ (vid i : Nat), ¬ ∃ v : OlapVertex V,
      (OlapState.init n : OlapState V).storage.vertices[i]? = some v ∧ v.vid = vid := by
    rintro vid i ⟨v, hv, -⟩
    cases hv
  exact ⟨.new n, .new n, fun vid i => iff_of_false (fun h => nomatch h) (hNone vid i), rfl⟩

/-- A step keeps the map right unless it deletes an existing vertex. -/
theorem VerticesInPlace.positions_iff {s s' : OlapState V} {a : Action V}
    (h : VerticesInPlace s) (hs : Step s a s') : s'.storage.MapsPositions ↔
      ∀ vid, a = .plain (.deleteVertex vid) → ∀ v ∈ s.storage.vertices, v.vid ≠ vid := by
  rcases hs.edits with ⟨vid, properties, r, rfl, hr, hEq⟩ | ⟨vid, r, rfl, hr, hEq⟩ | hEdits
  · rw [hEq]
    exact iff_of_true (h.positions.createVertex h.counter hr).1 fun vid hvid => by cases hvid
  · rw [hEq, OlapStorage.deleteVertex_breaks h.positions hr]
    refine ⟨fun hAll vid' hvid => ?_, fun hAll => hAll vid rfl⟩
    cases hvid
    exact hAll
  · refine iff_of_true (h.positions.edits hEdits) fun vid hvid v hv hEq => ?_
    subst hvid
    -- a vertex that is there is taken out, and its id with it
    obtain ⟨g, hRun, rfl⟩ := Option.map_eq_some_iff.mp hs
    obtain ⟨r, hr, rfl⟩ := Option.map_eq_some_iff.mp hRun
    exact (OlapStorage.deleteVertex_breaks h.positions hr).mp (h.positions.edits hEdits) v hv hEq

theorem VerticesInPlace.step {s s' : OlapState V} {a : Action V} (h : VerticesInPlace s)
    (hSafe : VertexSafe s a) (hs : Step s a s') : VerticesInPlace s' := by
  have hPositions : s'.storage.MapsPositions := by
    refine (h.positions_iff hs).mpr fun vid hvid => ?_
    subst hvid
    exact hSafe
  have hOrder : KeepsOrder s a := by
    intro vid i hvid hFind
    subst hvid
    obtain ⟨hLt, hHit, -⟩ := List.findIdx?_eq_some_iff_getElem.mp hFind
    exact absurd (by simpa using hHit) (hSafe _ (List.getElem_mem hLt))
  refine ⟨hs.wellFormed h.wellFormed, hs.chained h.chained h.wellFormed hOrder, hPositions, ?_⟩
  rcases hs.edits with ⟨vid, properties, r, -, hr, hEq⟩ | ⟨vid, r, rfl, hr, hEq⟩ | hEdits
  · rw [hEq]
    exact (h.positions.createVertex h.counter hr).2
  · rw [hEq]
    rcases OlapStorage.deleteVertex_cases hr with ⟨-, hSame⟩ | ⟨i, vertex, b, hFind, -, -, -⟩
    · rw [hSame]
      exact h.counter
    · obtain ⟨hLt, hHit, -⟩ := List.findIdx?_eq_some_iff_getElem.mp hFind
      exact absurd (by simpa using hHit) (hSafe _ (List.getElem_mem hLt))
  · obtain ⟨-, hCounter, hVids⟩ := hEdits.vertexMap
    have hLength := congrArg List.length hVids
    rw [List.length_map, List.length_map] at hLength
    rw [hCounter, hLength]
    exact h.counter

/-- A call on an existing vertex panics exactly where it is not safe. -/
theorem VerticesInPlace.panics_iff {s : OlapState V} (h : VerticesInPlace s) (a : Action V)
    (hDelete : ∀ vid, a = .plain (.deleteVertex vid) → ∀ v ∈ s.storage.vertices, v.vid ≠ vid) :
    ¬ s.PanicsOnVertex a ↔ VertexSafe s a := by
  have hSource : ∀ {srcId i : Nat} {vertex : OlapVertex V},
      s.storage.findSource srcId = .ok (i, vertex) →
      vertex ∈ s.storage.vertices ∧ vertex.vid = srcId := by
    intro srcId i vertex hFind
    obtain ⟨hId, hVertex⟩ := OlapStorage.findSource_ok hFind
    obtain ⟨v, hv, hVid⟩ := (h.positions srcId i).mp hId
    obtain rfl := Option.some.inj (hVertex.symm.trans hv)
    exact ⟨List.mem_iff_getElem?.mpr ⟨i, hVertex⟩, hVid⟩
  cases a with
  | plain o =>
    cases o with
    | createVertex vid properties =>
      refine iff_of_true ?_ trivial
      rintro ⟨v, -, -, hPanic⟩
      have hPanic : (s.storage.createVertex vid properties).map Prod.fst = none := hPanic
      rw [Option.map_eq_none_iff] at hPanic
      unfold OlapStorage.createVertex at hPanic
      simp only at hPanic
      split at hPanic
      · cases hPanic
      · rw [if_pos h.counter.le] at hPanic
        cases hPanic
    | createEdge edge =>
      have hPanics : Panics s (.plain (.createEdge edge)) ↔
          ¬ s.storage.HasRoomFor 0 edge.srcId := by
        rw [← OlapStorage.createEdge_isSome h.wellFormed, Option.not_isSome_iff_eq_none]
        exact Option.map_eq_none_iff
      constructor
      · intro hNot
        by_contra hSafe
        have hSafe : ¬ s.storage.HasRoomFor 0 edge.srcId := hSafe
        unfold OlapStorage.HasRoomFor at hSafe
        push Not at hSafe
        obtain ⟨i, vertex, hFind, hReach⟩ := hSafe
        obtain ⟨hMem, hVid⟩ := hSource hFind
        refine hNot ⟨vertex, hMem, congrArg some hVid.symm, hPanics.mpr fun hRoom => ?_⟩
        exact hReach (hRoom i vertex hFind)
      · rintro hSafe ⟨v, -, -, hPanic⟩
        exact hPanics.mp hPanic hSafe
    | setEdgeProperty eid indices props =>
      refine iff_of_true ?_ trivial
      rintro ⟨v, -, hNone, -⟩
      cases hNone
    | setVertexProperty vid indices props =>
      have hPanics : ∀ {i : Nat} {v : OlapVertex V}, s.storage.vertices[i]? = some v → v.vid = vid →
          (Panics s (.plain (.setVertexProperty vid indices props)) ↔
            ¬ ∀ p ∈ indices.zip props, p.1 < v.properties.length) := by
        intro i v hi hVid
        have hId := (h.positions vid i).mpr ⟨v, hi, hVid⟩
        rw [← OlapStorage.setVertexProperty_isSome hId hi, Option.not_isSome_iff_eq_none]
        exact Option.map_eq_none_iff
      constructor
      · intro hNot v hv hVid
        by_contra hOut
        obtain ⟨i, hi⟩ := List.mem_iff_getElem?.mp hv
        exact hNot ⟨v, hv, congrArg some hVid.symm, (hPanics hi hVid).mpr hOut⟩
      · rintro hSafe ⟨v, hv, hVid, hPanic⟩
        have hVid : v.vid = vid := (Option.some.inj hVid).symm
        obtain ⟨i, hi⟩ := List.mem_iff_getElem?.mp hv
        exact (hPanics hi hVid).mp hPanic (hSafe v hv hVid)
    | deleteVertex vid =>
      refine iff_of_true ?_ (hDelete vid rfl)
      rintro ⟨v, hv, hVid, -⟩
      exact hDelete vid rfl v hv (Option.some.inj hVid).symm
    | deleteEdge eid =>
      refine iff_of_true ?_ trivial
      rintro ⟨v, -, hNone, -⟩
      cases hNone
  | op txnId o =>
    cases o with
    | createEdge edge =>
      have hPanics : ∀ txn, TxnOp.run (.createEdge edge) s.storage txn = none ↔
          ¬ s.storage.HasRoomFor edge.properties.length edge.srcId := by
        intro txn
        rw [← OlapStorage.createEdgeInTxn_isSome h.wellFormed txn,
          Option.not_isSome_iff_eq_none]
        exact Option.map_eq_none_iff
      constructor
      · intro hNot hKnown
        by_contra hSafe
        obtain ⟨txn, hTxn⟩ := Option.ne_none_iff_exists'.mp hKnown
        have hRoom := hSafe
        unfold OlapStorage.HasRoomFor at hSafe
        push Not at hSafe
        obtain ⟨i, vertex, hFind, -⟩ := hSafe
        obtain ⟨hMem, hVid⟩ := hSource hFind
        exact hNot ⟨vertex, hMem, congrArg some hVid.symm, txn, hTxn, (hPanics txn).mpr hRoom⟩
      · rintro hSafe ⟨v, -, -, txn, hTxn, hPanic⟩
        refine (hPanics txn).mp hPanic (hSafe ?_)
        rw [hTxn]
        exact Option.some_ne_none txn
    | setEdgeProperty eid indices props =>
      refine iff_of_true ?_ trivial
      rintro ⟨v, -, hNone, -⟩
      cases hNone
    | deleteEdge eid =>
      refine iff_of_true ?_ trivial
      rintro ⟨v, -, hNone, -⟩
      cases hNone
  | begin txnId startTs =>
    refine iff_of_true ?_ trivial
    rintro ⟨v, -, hNone, -⟩
    cases hNone
  | commit txnId commitTs =>
    refine iff_of_true ?_ trivial
    rintro ⟨v, -, hNone, -⟩
    cases hNone
  | abort txnId =>
    refine iff_of_true ?_ trivial
    rintro ⟨v, -, hNone, -⟩
    cases hNone

/-- `delete_vertex` of a vertex that is there panics, or leaves its id behind in the map. -/
theorem VerticesInPlace.delete_fails {s : OlapState V} (h : VerticesInPlace s) {vid : Nat}
    {v : OlapVertex V} (hv : v ∈ s.storage.vertices) (hVid : v.vid = vid) :
    s.PanicsOnVertex (.plain (.deleteVertex vid)) ∨
      ∃ s', Step s (.plain (.deleteVertex vid)) s' ∧ ¬ s'.storage.MapsPositions := by
  cases hDelete : s.storage.deleteVertex vid with
  | none =>
    refine .inl ⟨v, hv, congrArg some hVid.symm, ?_⟩
    show (s.storage.deleteVertex vid).map Prod.fst = none
    rw [hDelete]
    rfl
  | some r =>
    have hStep : Step s (.plain (.deleteVertex vid)) { s with storage := r.1 } := by
      show ((s.storage.deleteVertex vid).map Prod.fst).map _ = _
      rw [hDelete]
      rfl
    refine .inr ⟨_, hStep, fun hMaps => ?_⟩
    exact (h.positions_iff hStep).mp hMaps vid rfl v hv hVid

/-- **The vertex map.** In a run of safe calls the map is right, a further call is safe exactly
when it neither panics on a vertex nor leaves the map wrong, and the adjacency reads of a vertex
panic exactly on gaps. -/
theorem OlapState.vertexMap_iff {n : Nat} {trace : List (OlapState V × Action V)}
    {s : OlapState V} (h : Run Step VertexSafe (.init n) trace s) :
    s.storage.MapsPositions ∧
    (∀ a, (¬ s.PanicsOnVertex a ∧ ∀ s', Step s a s' → s'.storage.MapsPositions) ↔
      VertexSafe s a) ∧
    ∀ vid, (none ∉ s.storage.storedItems vid ↔ s.storage.Readable vid) ∧
      ∀ txn, (none ∉ s.storage.adjacencyItems txn vid ↔ s.storage.ReadableAt txn vid) := by
  have hPlace : VerticesInPlace s :=
    h.stateInvariant (I := VerticesInPlace) (.init n) fun _ _ _ hI hSafe hs => hI.step hSafe hs
  refine ⟨hPlace.positions, fun a => ⟨?_, fun hSafe => ?_⟩, fun vid =>
    ⟨hPlace.chained.storedItems_none hPlace.wellFormed vid, fun txn =>
      hPlace.chained.adjacencyItems_none hPlace.wellFormed txn vid⟩⟩
  · rintro ⟨hNot, hMaps⟩
    refine (hPlace.panics_iff a fun vid hvid v hv hVid => ?_).mp hNot
    subst hvid
    rcases hPlace.delete_fails hv hVid with hPanic | ⟨s', hs, hBroken⟩
    · exact hNot hPanic
    · exact hBroken (hMaps s' hs)
  · have hDelete : ∀ vid, a = .plain (.deleteVertex vid) →
        ∀ v ∈ s.storage.vertices, v.vid ≠ vid := by
      intro vid hvid
      subst hvid
      exact hSafe
    exact ⟨(hPlace.panics_iff a hDelete).mpr hSafe,
      fun s' hs => (hPlace.positions_iff hs).mpr hDelete⟩

/-- Two vertices, the property of the first written again, and an edge between them, all calls
safe. -/
theorem OlapState.vertexMap_pair : ∃ s : OlapState Nat,
    s.storage.vertices.map (·.properties) = [[8], []] ∧ s.storage.edges.length = 1 ∧
    s.storage.MapsPositions := by
  obtain ⟨trace, s, hRun, hFacts⟩ : ∃ trace s,
      Run Step VertexSafe (OlapState.init (V := Nat) 0) trace s ∧
        s.storage.vertices.map (·.properties) = [[8], []] ∧ s.storage.edges.length = 1 := by
    have hNone : Run Step VertexSafe (OlapState.init (V := Nat) 0) [] (.init 0) := .nil
    have hFirst := hNone.snoc (a := Action.plain (.createVertex 1 [7])) trivial rfl
    have hSecond := hFirst.snoc (a := Action.plain (.createVertex 2 [])) trivial rfl
    have hSet := hSecond.snoc (a := Action.plain (.setVertexProperty 1 [0] [8]))
      (by
        intro v hv hVid p hp
        have hEither : v = ⟨1, [7], none⟩ ∨ v = ⟨2, [], none⟩ := by simpa using List.mem_pair.mp hv
        have hPair : p = (0, 8) := List.mem_singleton.mp hp
        rcases hEither with rfl | rfl
        · rw [hPair]
          exact Nat.one_pos
        · cases hVid) rfl
    refine ⟨_, _, Run.snoc (a := Action.plain (.createEdge ⟨none, 1, 2, []⟩)) hSet ?_ rfl,
      ?_, ?_⟩
    · intro i vertex _ column hColumn
      cases hColumn
    · rfl
    · rfl
  exact ⟨s, hFacts.1, hFacts.2, (OlapState.vertexMap_iff hRun).1⟩

/-- Vertex 1 with an edge is deleted: its id now leads to vertex 2, and vertex 2 cannot
be deleted at all. -/
theorem OlapState.deleted_vertex_shifts : ∃ s : OlapState Nat, Reachable s ∧
    ¬ s.storage.MapsPositions ∧ s.storage.getVertex 1 = .ok ⟨2, [], none⟩ ∧
    s.PanicsOnVertex (.plain (.deleteVertex 2)) := by
  obtain ⟨trace, s, hList, hFacts⟩ := exists_of_runList
    (show (runList next (OlapState.init (V := Nat) 0)
      [.plain (.createVertex 1 []), .plain (.createVertex 2 []), .plain (.createEdge ⟨none, 1, 2, []⟩),
        .plain (.deleteVertex 1)]).map
      (fun r =>
      (r.2.storage.denseIdMap 1, r.2.storage.vertices, (r.2.storage.getVertex 1).toOption,
        (r.2.storage.deleteVertex 2).isNone)) =
      some (some 0, [⟨2, [], none⟩], some ⟨2, [], none⟩, true) by decide +kernel)
  simp only [Prod.mk.injEq] at hFacts
  obtain ⟨hMap, hVertices, hGet, hPanic⟩ := hFacts
  refine ⟨s, ⟨0, trace, .of_runList (fun _ _ _ h => ⟨trivial, h⟩) hList⟩, fun hMaps => ?_, ?_,
    ⟨2, [], none⟩, by rw [hVertices]; exact List.mem_singleton_self _, rfl, ?_⟩
  · obtain ⟨v, hv, hVid⟩ := (hMaps 1 0).mp hMap
    rw [hVertices] at hv
    cases hv
    cases hVid
  · cases hVertex : s.storage.getVertex 1 with
    | error e =>
      rw [hVertex] at hGet
      cases hGet
    | ok vertex =>
      rw [hVertex] at hGet
      exact congrArg Except.ok (Option.some.inj hGet)
  · show (s.storage.deleteVertex 2).map Prod.fst = none
    rw [Option.isNone_iff_eq_none.mp hPanic]
    rfl

-- ----
-- The edge map
-- ----

/-- `edge_id_map` and the slots of the blocks agree in both directions. -/
structure OlapStorage.MapsEdges (g : OlapStorage V) : Prop where
  ofSlot : ∀ b o edge, g.slotAt b o = some edge → g.edgeIdMap edge.eid = some (b, o)
  toSlot : ∀ eid b o, g.edgeIdMap eid = some (b, o) →
    ∃ edge, g.slotAt b o = some edge ∧ edge.eid = eid

/-- **The edge map in every run.** -/
theorem OlapState.edgeMap_exact {s : OlapState V} (h : Reachable s) : s.storage.MapsEdges := by
  obtain ⟨n, trace, hRun⟩ := h
  have hw := wellFormed_of_run hRun
  exact ⟨fun _ _ _ hs => hw.mapped hs, fun _ _ _ hm => hw.located hm⟩

/-- Two edges of one vertex, the second put before the first and then taken back by the
abort of its transaction. -/
theorem OlapState.edgeMap_after_abort : ∃ s : OlapState Nat, Reachable s ∧
    s.storage.MapsEdges ∧ s.storage.edgeIdMap 1 = some (0, 0) ∧ s.storage.edgeIdMap 2 = none := by
  obtain ⟨trace, s, hList, hFacts⟩ := exists_of_runList
    (show (runList next (OlapState.init (V := Nat) 0)
      [.plain (.createVertex 7 []), .plain (.createEdge ⟨none, 7, 9, []⟩),
        .begin Timestamp.txnIdStart 0, .op Timestamp.txnIdStart (.createEdge ⟨none, 7, 8, []⟩),
        .abort Timestamp.txnIdStart]).map
      (fun r => (r.2.storage.edgeIdMap 1, r.2.storage.edgeIdMap 2)) =
      some (some (0, 0), none) by decide +kernel)
  obtain ⟨hOne, hTwo⟩ := Prod.mk.inj hFacts
  have hReach : Reachable s := ⟨0, trace, .of_runList (fun _ _ _ h => ⟨trivial, h⟩) hList⟩
  exact ⟨s, hReach, OlapState.edgeMap_exact hReach, hOne, hTwo⟩

end Olap

end MiniGU
