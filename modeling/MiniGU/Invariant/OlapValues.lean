import MiniGU.Results.VertexMap

/-!
# The values of the edges, whatever their slots

`EdgeValues` is what the property columns are for: a version list for each edge and
column, written by the calls that name the edge. The store is aligned with it when each
slot's entry in each column is the list of the edge in that slot (`Aligned`).
-/

namespace MiniGU

namespace Olap

open OlapStorage

variable {V : Type}

/-! ## Values by edge and column -/

/-- The versions of every edge in every column. -/
abbrev EdgeValues (V : Type) := Nat → Nat → List (PropertyVersion V)

namespace EdgeValues

variable (t : EdgeValues V)

/-- Rewrite the lists of one edge. -/
def modify (eid : Nat) (φ : Nat → List (PropertyVersion V) → List (PropertyVersion V)) :
    EdgeValues V :=
  Function.update t eid fun j => φ j (t eid j)

/-- A new edge has one version in each of the first `n` columns. -/
def create (eid n stamp : Nat) (edge : OlapEdge V) : EdgeValues V :=
  Function.update t eid fun j => if j < n then [⟨stamp, edge.get j⟩] else []

/-- A property update. -/
def push (eid stamp : Nat) (p : Nat × V) : EdgeValues V :=
  t.modify eid fun j l => if j = p.1 then l ++ [⟨stamp, some p.2⟩] else l

def pushAll (eid stamp : Nat) (ps : List (Nat × V)) : EdgeValues V :=
  ps.foldl (fun t p => t.push eid stamp p) t

/-- The versions of a transaction go, in one column. -/
def retain (eid txnId idx : Nat) : EdgeValues V :=
  t.modify eid fun j l => if j = idx then l.filter fun v => v.ts != txnId else l

/-- One entry of the undo buffer at abort. -/
def abortEntry (txnId : Nat) (entry : DeltaOp × Nat) : EdgeValues V :=
  match entry.1 with
  | .setEdgeProps eid indices => indices.foldl (fun t idx => t.retain eid txnId idx) t
  | .createEdge _ | .delEdge _ => t

/-- One entry of the undo buffer at commit: the edge's last versions become committed if
the transaction was the last to stamp it. -/
def commitEntry (txnId commitTs : Nat) (g : OlapStorage V) (op : DeltaOp) : EdgeValues V :=
  match op, g.record op.eid with
  | .createEdge eid, some r | .setEdgeProps eid _, some r =>
    if r.slot.commitTs = txnId then t.modify eid fun _ l => promoteLast txnId commitTs l else t
  | _, _ => t

end EdgeValues

namespace OlapStorage

variable {g g' : OlapStorage V} {t t' : EdgeValues V}

/-- Every column has a block for each block of edges. -/
def Covers (g : OlapStorage V) : Prop :=
  ∀ column ∈ g.propertyColumns, column.blocks.length = g.edges.length

/-- The entry of each slot in each column holds the versions of the edge in the slot. -/
structure Aligned (g : OlapStorage V) (t : EdgeValues V) : Prop where
  covers : g.Covers
  room : ∀ block ∈ g.edges, block.edges.length ≤ blockCapacity
  own : ∀ {b o : Nat} {edge : OlapStorageEdge}, g.slotAt b o = some edge →
    ∀ j, g.versions j b o = t edge.eid j

/-! ## Writes that move nothing -/

theorem versions_congr (h : g'.propertyColumns = g.propertyColumns) (j b o : Nat) :
    g'.versions j b o = g.versions j b o := by
  unfold versions
  rw [h]

/-- Blocks of the same contents and columns of the same shape, with other values. -/
theorem Aligned.of_slots (h : g.Aligned t) (hCovers : g'.Covers)
    (hRoom : ∀ block' ∈ g'.edges, ∃ block ∈ g.edges, block'.edges.length ≤ block.edges.length)
    (hOwn : ∀ {b o : Nat} {edge' : OlapStorageEdge}, g'.slotAt b o = some edge' →
      ∀ j, g'.versions j b o = t' edge'.eid j) : g'.Aligned t' where
  covers := hCovers
  room block' hBlock' := by
    obtain ⟨block, hBlock, hLe⟩ := hRoom block' hBlock'
    exact hLe.trans (h.room block hBlock)
  own := hOwn

theorem Covers.congr (h : g.Covers) (hColumns : g'.propertyColumns = g.propertyColumns)
    (hEdges : g'.edges.length = g.edges.length) : g'.Covers := by
  unfold Covers
  rw [hColumns, hEdges]
  exact h

theorem Overwrites.room {b o : Nat} {f : OlapStorageEdge → OlapStorageEdge}
    {φ : Nat → List (PropertyVersion V) → List (PropertyVersion V)} {m : Nat → Nat}
    (hO : Overwrites g g' b o f φ m) :
    ∀ block' ∈ g'.edges, ∃ block ∈ g.edges, block'.edges.length ≤ block.edges.length := by
  intro block' hBlock'
  obtain ⟨b', hb'⟩ := List.mem_iff_getElem?.mp hBlock'
  rw [hO.block] at hb'
  obtain ⟨block, hb, rfl⟩ := Option.map_eq_some_iff.mp hb'
  refine ⟨block, List.mem_iff_getElem?.mpr ⟨b', hb⟩, ?_⟩
  split
  · exact (List.length_modify ..).le
  · exact Nat.le_refl _

/-- A write in place to the slot of an edge, in the values the same write to the edge. -/
theorem Aligned.overwrites (h : g.Aligned t) (hw : g.WellFormed) {b o : Nat}
    {f : OlapStorageEdge → OlapStorageEdge}
    {φ : Nat → List (PropertyVersion V) → List (PropertyVersion V)} {m : Nat → Nat}
    (hO : Overwrites g g' b o f φ m) (hf : ∀ edge, (f edge).eid = edge.eid) (hCovers : g'.Covers)
    {edge : OlapStorageEdge} (hs : g.slotAt b o = some edge) :
    g'.Aligned (t.modify edge.eid φ) := by
  refine h.of_slots hCovers hO.room fun {b' o' edge'} hs' j => ?_
  rw [hO.slotAt] at hs'
  obtain ⟨edge₀, hs₀, rfl⟩ := Option.map_eq_some_iff.mp hs'
  rw [hO.versions]
  unfold EdgeValues.modify
  by_cases hPlace : b' = b ∧ o' = o
  · obtain ⟨rfl, rfl⟩ := hPlace
    obtain rfl := Option.some.inj (hs.symm.trans hs₀)
    rw [if_pos ⟨rfl, rfl⟩, if_pos ⟨rfl, rfl⟩, hf, Function.update_self, h.own hs]
  · have hOther : edge₀.eid ≠ edge.eid := fun hEq => hPlace (hw.slot_unique hs₀ hs hEq)
    rw [if_neg hPlace, if_neg hPlace, Function.update_of_ne hOther]
    exact h.own hs₀ j

theorem Aligned.overwritesSlot (h : g.Aligned t) {b o : Nat}
    {f : OlapStorageEdge → OlapStorageEdge} {m : Nat → Nat}
    (hO : Overwrites g g' b o f (fun _ l => l) m) (hf : ∀ edge, (f edge).eid = edge.eid)
    (hColumns : g'.propertyColumns = g.propertyColumns) : g'.Aligned t := by
  have hEdges : g'.edges.length = g.edges.length := by
    rw [hO.edges]
    exact List.length_modify ..
  refine h.of_slots (h.covers.congr hColumns hEdges) hO.room fun {b' o' edge'} hs' j => ?_
  obtain ⟨edge, hs, hEid⟩ := hO.slot_back hf hs'
  rw [hEid, versions_congr hColumns]
  exact h.own hs j

/-! ## A new edge -/

theorem extendColumns_versions (g : OlapStorage V) (n j b o : Nat) :
    (g.extendColumns n).versions j b o = g.versions j b o := by
  by_cases hLt : j < g.propertyColumns.length
  · have hSame : (g.extendColumns n).propertyColumns[j]? = g.propertyColumns[j]? :=
      List.getElem?_append_left hLt
    unfold versions
    rw [hSame]
  · rw [versions_of_no_column (List.getElem?_eq_none (Nat.le_of_not_lt hLt))]
    cases hColumn : (g.extendColumns n).propertyColumns[j]? with
    | none => exact versions_of_no_column hColumn
    | some column =>
      -- a column that was added is empty
      have hNew : (List.replicate (n - g.propertyColumns.length)
          (⟨[]⟩ : PropertyColumn V))[j - g.propertyColumns.length]? = some column :=
        (List.getElem?_append_right (Nat.le_of_not_lt hLt)).symm.trans hColumn
      obtain rfl := List.eq_of_mem_replicate (List.mem_iff_getElem?.mpr ⟨_, hNew⟩)
      exact versions_of_column hColumn

/-- The columns with the block of the new slot made and its first version pushed. -/
theorem insertProperties_columns {b pos counter stamp : Nat} {edge : OlapEdge V}
    (h : g.insertProperties b pos counter stamp edge = some g') (j : Nat) :
    (g.propertyColumns[j]? = none ∧ g'.propertyColumns[j]? = none) ∨
    ∃ column blocks, g.propertyColumns[j]? = some column ∧
      ensureBlock column.blocks b = some blocks ∧
      g'.propertyColumns[j]? = some ⟨modifyValues (fun values =>
        pushVersion pos ⟨stamp, edge.get j⟩ (shiftRight pos counter values)) blocks b⟩ := by
  obtain ⟨columns, hLoop, rfl⟩ := Option.map_eq_some_iff.mp h
  have hAt := congrArg (fun l : List (Option (PropertyColumn V)) => l[j]?) (map_of_mapM hLoop)
  simp only [List.getElem?_map, List.getElem?_zipIdx, Nat.zero_add] at hAt
  cases hColumn : g.propertyColumns[j]? with
  | none =>
    rw [hColumn] at hAt
    exact .inl ⟨rfl, Option.map_eq_none_iff.mp hAt.symm⟩
  | some column =>
    rw [hColumn] at hAt
    obtain ⟨column', hColumn', hEq⟩ := Option.map_eq_some_iff.mp hAt.symm
    obtain ⟨blocks, hBlocks, rfl⟩ := Option.map_eq_some_iff.mp hEq.symm
    exact .inr ⟨column, blocks, rfl, hBlocks, hColumn'⟩

theorem insertProperties_versions {b pos counter stamp : Nat} {edge : OlapEdge V}
    (h : g.insertProperties b pos counter stamp edge = some g') (j b' o' : Nat) :
    g'.versions j b' o' = if b' = b ∧ j < g.propertyColumns.length then
      pushVersion pos ⟨stamp, edge.get j⟩ (shiftRight pos counter (g.versions j b)) o'
      else g.versions j b' o' := by
  rcases insertProperties_columns h j with ⟨hNone, hNone'⟩ | ⟨column, blocks, hSome, hBlocks, hSome'⟩
  · rw [versions_of_no_column hNone', versions_of_no_column hNone]
    have := List.getElem?_eq_none_iff.mp hNone
    rw [if_neg (by omega)]
  · obtain ⟨hLt, hSame⟩ := versionsAt_ensureBlock hBlocks
    have hj := (List.getElem?_eq_some_iff.mp hSome).1
    have hOld : ∀ b' o', versionsAt ⟨blocks⟩ b' o' = g.versions j b' o' := fun b' o' =>
      (hSame b' o').trans (versions_of_column hSome).symm
    have hBlock : (fun o => versionsAt ⟨blocks⟩ b o) = g.versions j b := funext (hOld b)
    have hNew := versionsAt_modifyValues (F := fun values =>
      pushVersion pos ⟨stamp, edge.get j⟩ (shiftRight pos counter values)) (.inl hLt) b' o'
    rw [hBlock, hOld] at hNew
    rw [versions_of_column hSome', hNew]
    by_cases hb : b' = b
    · rw [if_pos hb, if_pos ⟨hb, hj⟩]
    · rw [if_neg hb, if_neg fun hBoth => hb hBoth.1]

/-- The store once the block for a new edge is there: the slots and columns are as before,
and the block is an old one or the next. -/
structure Opened (g g' : OlapStorage V) (b : Nat) : Prop where
  columns : g'.propertyColumns = g.propertyColumns
  slots : ∀ b o, g'.slotAt b o = g.slotAt b o
  place : (g'.edges.length = g.edges.length ∧ b < g.edges.length) ∨
    (g'.edges.length = g.edges.length + 1 ∧ b = g.edges.length)
  room : ∀ block' ∈ g'.edges, block'.edges = [] ∨ block' ∈ g.edges
  counter : g'.edgeIdCounter = g.edgeIdCounter

theorem opened_of_openBlock {i srcId m b : Nat} {vertex : OlapVertex V}
    (h : g.openBlock i vertex srcId m = .ok (g', b)) : Opened g g' b := by
  have hPush : ∀ pre, Opened g (g.pushBlock i pre srcId m) g.edges.length := by
    intro pre
    refine ⟨rfl, slotAt_pushBlock g i pre srcId m, .inr ⟨List.length_append, rfl⟩,
      fun block' hBlock' => ?_, rfl⟩
    rcases List.mem_append.mp hBlock' with hOld | hNew
    · exact .inr hOld
    · obtain rfl := List.mem_singleton.mp hNew
      exact .inl rfl
  unfold openBlock at h
  split at h
  · cases h
    exact hPush none
  · rename_i offset _
    split at h
    · cases h
    · rename_i block hb
      split at h
      · cases h
        exact hPush _
      · cases h
        exact ⟨rfl, fun _ _ => rfl, .inl ⟨rfl, (List.getElem?_eq_some_iff.mp hb).1⟩,
          fun _ hBlock => .inr hBlock, rfl⟩

theorem length_modifyValues
    (F : (Nat → List (PropertyVersion V)) → Nat → List (PropertyVersion V))
    (blocks : List (PropertyBlock V)) (b : Nat) :
    (modifyValues F blocks b).length = blocks.length :=
  List.length_modify ..

theorem ensureBlock_length {blocks blocks' : List (PropertyBlock V)} {b : Nat}
    (h : ensureBlock blocks b = some blocks') :
    blocks'.length = if b < blocks.length then blocks.length else blocks.length + 1 := by
  unfold ensureBlock at h
  split at h
  · rename_i hLt
    cases h
    rw [if_pos hLt]
  · rename_i hLt
    split at h
    · cases h
      rw [if_neg hLt]
      exact List.length_append
    · cases h

theorem extendColumns_cases {n j : Nat} {column : PropertyColumn V}
    (h : (g.extendColumns n).propertyColumns[j]? = some column) :
    g.propertyColumns[j]? = some column ∨
      (g.propertyColumns.length ≤ j ∧ j < n ∧ column.blocks = []) := by
  by_cases hLt : j < g.propertyColumns.length
  · exact .inl ((List.getElem?_append_left hLt).symm.trans h)
  · have hNew : (List.replicate (n - g.propertyColumns.length)
        (⟨[]⟩ : PropertyColumn V))[j - g.propertyColumns.length]? = some column :=
      (List.getElem?_append_right (Nat.le_of_not_lt hLt)).symm.trans h
    have hBound := (List.getElem?_eq_some_iff.mp hNew).1
    rw [List.length_replicate] at hBound
    obtain rfl := List.eq_of_mem_replicate (List.mem_iff_getElem?.mpr ⟨_, hNew⟩)
    exact .inr ⟨Nat.le_of_not_lt hLt, by omega, rfl⟩

/-- A new edge, where its place holds no versions of others, and columns that come with
it need no block before the one it goes to. -/
theorem Aligned.insert (h : g.Aligned t) {g₁ g₂ : OlapStorage V} {b pos n stamp : Nat}
    {block : EdgeBlock} {edge : OlapEdge V} (hOpen : Opened g g₁ b)
    (hb : g₁.edges[b]? = some block) (hRoom : block.edges.length < blockCapacity)
    (hPos : pos ≤ block.edges.length) (hClear : ∀ j, g.versions j b pos = [])
    (hLate : g.propertyColumns.length < n → g₁.edges.length = 1)
    (hFresh : ∀ {b o : Nat} {e : OlapStorageEdge}, g.slotAt b o = some e →
      e.eid ≠ g₁.edgeIdCounter)
    (hProps : (({ g₁ with edgeIdCounter := g₁.edgeIdCounter + 1 }.insertSlot b pos
      ⟨g₁.edgeIdCounter, edge.labelId, edge.dstId, stamp⟩).extendColumns n).insertProperties b pos
        block.edges.length stamp edge = some g₂) :
    g₂.Aligned (t.create g₁.edgeIdCounter (max g.propertyColumns.length n) stamp edge) := by
  generalize hSlots : { g₁ with edgeIdCounter := g₁.edgeIdCounter + 1 }.insertSlot b pos
    ⟨g₁.edgeIdCounter, edge.labelId, edge.dstId, stamp⟩ = gs at hProps
  have hColumns : gs.propertyColumns = g.propertyColumns := by
    rw [← hSlots]
    exact hOpen.columns
  have hEdges : gs.edges = g₁.edges.modify b fun block =>
      { block with
        edges := block.edges.insertIdx pos ⟨g₁.edgeIdCounter, edge.labelId, edge.dstId, stamp⟩ } := by
    rw [← hSlots]
    rfl
  have hEdges₂ : g₂.edges = (gs.extendColumns n).edges := insertProperties_edges hProps
  have hEdges₂ : g₂.edges = gs.edges := hEdges₂
  have hLength : g₂.edges.length = g₁.edges.length := by
    rw [hEdges₂, hEdges]
    exact List.length_modify ..
  have hCount : (gs.extendColumns n).propertyColumns.length = max g.propertyColumns.length n := by
    show (gs.propertyColumns ++ _).length = _
    rw [List.length_append, List.length_replicate, hColumns]
    omega
  have hVersions : ∀ j b' o', g₂.versions j b' o' =
      if b' = b ∧ j < max g.propertyColumns.length n then
        pushVersion pos ⟨stamp, edge.get j⟩ (shiftRight pos block.edges.length (g.versions j b)) o'
      else g.versions j b' o' := by
    intro j b' o'
    have hOld : ∀ b' o', (gs.extendColumns n).versions j b' o' = g.versions j b' o' := fun b' o' =>
      (extendColumns_versions gs n j b' o').trans (versions_congr hColumns j b' o')
    rw [insertProperties_versions hProps, hCount, hOld,
      show (gs.extendColumns n).versions j b = g.versions j b from funext (hOld b)]
  refine ⟨fun column' hColumn' => ?_, fun block' hBlock' => ?_, fun {b' o' e} hs j => ?_⟩
  · obtain ⟨j, hj⟩ := List.mem_iff_getElem?.mp hColumn'
    rcases insertProperties_columns hProps j with ⟨-, hNone⟩ | ⟨column, blocks, hSome, hBlocks, hNew⟩
    · rw [hNone] at hj
      cases hj
    · obtain rfl := Option.some.inj (hNew.symm.trans hj)
      rw [hLength, length_modifyValues, ensureBlock_length hBlocks]
      have hPlace := hOpen.place
      rcases extendColumns_cases hSome with hOld | ⟨hLe, hLt, hEmpty⟩
      · rw [hColumns] at hOld
        rw [h.covers column (List.mem_iff_getElem?.mpr ⟨j, hOld⟩)]
        split <;> omega
      · rw [hColumns] at hLe
        rw [hLate (by omega), hEmpty, List.length_nil, if_neg (Nat.not_lt_zero b)]
  · rw [hEdges₂, hEdges] at hBlock'
    obtain ⟨b', hb'⟩ := List.mem_iff_getElem?.mp hBlock'
    obtain ⟨block₀, hb₀, rfl⟩ := getElem?_modify_of (g := g₁) hb'
    split
    · rename_i hSame
      subst hSame
      obtain rfl := Option.some.inj (hb.symm.trans hb₀)
      show (block.edges.insertIdx pos _).length ≤ blockCapacity
      rw [List.length_insertIdx_of_le_length hPos]
      exact hRoom
    · rcases hOpen.room block₀ (List.mem_iff_getElem?.mpr ⟨b', hb₀⟩) with hEmpty | hOld
      · rw [hEmpty]
        exact Nat.zero_le _
      · exact h.room block₀ hOld
  · have hs : gs.slotAt b' o' = some e := by
      unfold slotAt at hs ⊢
      rwa [hEdges₂] at hs
    rw [← hSlots] at hs
    rw [hVersions]
    unfold EdgeValues.create
    rcases insertSlot_back (g := { g₁ with edgeIdCounter := g₁.edgeIdCounter + 1 }) hb hs with
      ⟨rfl, rfl, rfl⟩ | ⟨o, hOld, hAt, hOther⟩
    · rw [Function.update_self]
      by_cases hj : j < max g.propertyColumns.length n
      · rw [if_pos ⟨rfl, hj⟩, if_pos hj]
        unfold pushVersion shiftRight
        rw [Function.update_self, if_neg (by omega), hClear]
        rfl
      · rw [if_neg fun hBoth => hj hBoth.2, if_neg hj]
        exact hClear j
    · have hSlot : g.slotAt b' o = some e := (hOpen.slots b' o).symm.trans hOld
      rw [Function.update_of_ne (hFresh hSlot), ← h.own hSlot j]
      by_cases hb' : b' = b
      · subst hb'
        have hOff := hAt rfl
        have hIn : o < block.edges.length := by
          have hOld : block.edges[o]? = some e := (slotAt_of_block hb).symm.trans hOld
          exact (List.getElem?_eq_some_iff.mp hOld).1
        by_cases hj : j < max g.propertyColumns.length n
        · rw [if_pos ⟨rfl, hj⟩]
          unfold pushVersion shiftRight
          split at hOff
          · rw [Function.update_of_ne (by omega), if_neg (by omega), hOff]
          · rw [Function.update_of_ne (by omega), if_pos (by omega), hOff, Nat.add_sub_cancel]
        · rw [if_neg fun hBoth => hj hBoth.2]
          have hNone : g.propertyColumns[j]? = none := List.getElem?_eq_none (by omega)
          rw [versions_of_no_column hNone, versions_of_no_column hNone]
      · rw [if_neg fun hBoth => hb' hBoth.1, hOther hb']

/-! ## Edges taken out -/

theorem removeProperties_versions (b o counter j b' o' : Nat) :
    (g.removeProperties b o counter).versions j b' o' =
      if b' = b then shiftLeft o counter (g.versions j b) o' else g.versions j b' o' := by
  have hNil : shiftLeft o counter (fun _ => ([] : List (PropertyVersion V))) = fun _ => [] := by
    funext i
    unfold shiftLeft
    split
    · rfl
    · split <;> rfl
  have hAt : (g.removeProperties b o counter).propertyColumns[j]? =
      (g.propertyColumns[j]?).map fun (column : PropertyColumn V) =>
        (⟨modifyValues (shiftLeft o counter) column.blocks b⟩ : PropertyColumn V) :=
    List.getElem?_map
  cases hColumn : g.propertyColumns[j]? with
  | none =>
    rw [hColumn] at hAt
    have hNone : g.versions j = fun _ _ => [] := by
      funext b o
      exact versions_of_no_column hColumn
    rw [versions_of_no_column hAt, hNone, hNil]
    split <;> rfl
  | some column =>
    rw [hColumn] at hAt
    rw [versions_of_column hAt, versionsAt_modifyValues (.inr hNil), versions_of_column hColumn]
    have hValues : (fun o => versionsAt column b o) = g.versions j b :=
      funext fun o => (versions_of_column hColumn).symm
    rw [hValues]

theorem Covers.removeProperties (h : g.Covers) (b o counter : Nat) :
    (g.removeProperties b o counter).Covers := by
  intro column' hColumn'
  obtain ⟨column, hColumn, rfl⟩ := List.mem_map.mp hColumn'
  exact (length_modifyValues _ _ b).trans (h column hColumn)

theorem Aligned.remove (h : g.Aligned t) {b o eid counter : Nat} {block : EdgeBlock}
    (hb : g.edges[b]? = some block) (hCounter : counter = (block.edges.eraseIdx o).length) :
    ((g.removeSlot b o eid).removeProperties b o counter).Aligned t := by
  have hCovers : (g.removeSlot b o eid).Covers :=
    h.covers.congr rfl (List.length_modify ..)
  refine h.of_slots (hCovers.removeProperties b o counter) (fun block' hBlock' => ?_)
    fun {b' o' e} hs j => ?_
  · obtain ⟨b', hb'⟩ := List.mem_iff_getElem?.mp hBlock'
    obtain ⟨block₀, hb₀, rfl⟩ := getElem?_modify_of (g := g) hb'
    refine ⟨block₀, List.mem_iff_getElem?.mpr ⟨b', hb₀⟩, ?_⟩
    split
    · exact (List.eraseIdx_sublist ..).length_le
    · exact Nat.le_refl _
  · have hs : (g.removeSlot b o eid).slotAt b' o' = some e := hs
    obtain ⟨p, hOld, hAt, hOther⟩ := removeSlot_back hb hs
    have hVersions : ∀ b' o', (g.removeSlot b o eid).versions j b' o' = g.versions j b' o' :=
      fun _ _ => rfl
    rw [removeProperties_versions, show (g.removeSlot b o eid).versions j b = g.versions j b from rfl,
      hVersions, ← h.own hOld j]
    by_cases hSame : b' = b
    · subst hSame
      rw [if_pos rfl, hAt rfl]
      have hIn : o' < counter := by
        rw [slotAt_modify hb removeSlot_edges, if_pos rfl] at hs
        exact hCounter ▸ (List.getElem?_eq_some_iff.mp hs).1
      unfold shiftLeft
      by_cases hLt : o' < o
      · rw [if_pos hLt, if_neg (by omega), if_neg (by omega)]
      · rw [if_neg hLt, if_pos (by omega)]
    · rw [if_neg hSame, hOther hSame]

/-- A delete closes the slot of the edge in every column, so the columns stay aligned. -/
theorem Aligned.deleteEdge (h : g.Aligned t) {eid : Nat}
    {r : OlapStorage V × Except StorageError Unit} (hr : g.deleteEdge eid = some r) :
    r.1.Aligned t := by
  unfold OlapStorage.deleteEdge at hr
  split at hr
  · cases hr
    exact h
  · rename_i b o _
    split at hr
    · cases hr
    · rename_i block hb
      split at hr
      · rename_i hHolds
        split at hr
        · cases hr
          -- the block is emptied; its entries are left as they are
          refine h.of_slots (h.covers.congr rfl List.length_set) (fun block' hBlock' => ?_)
            fun {b' o' e} hs j => ?_
          · rcases List.mem_or_eq_of_mem_set hBlock' with hOld | rfl
            · exact ⟨block', hOld, Nat.le_refl _⟩
            · exact ⟨block, List.mem_iff_getElem?.mpr ⟨b, hb⟩, Nat.zero_le _⟩
          · obtain ⟨block', hb', ho'⟩ := slotAt_eq_some.mp hs
            have hb' : (g.edges.set b { block with isTombstone := true, edges := [] })[b']? =
              some block' := hb'
            rw [List.getElem?_set] at hb'
            split at hb'
            · split at hb'
              · cases hb'
                cases ho'
              · cases hb'
            · exact h.own (slotAt_eq_some.mpr ⟨block', hb', ho'⟩) j
        · cases hr
          have hLt : o < block.edges.length := by
            unfold holds at hHolds
            rw [slotAt_of_block hb] at hHolds
            by_contra hNot
            rw [List.getElem?_eq_none (Nat.le_of_not_lt hNot)] at hHolds
            cases hHolds
          exact h.remove hb (List.length_eraseIdx_of_lt hLt).symm
      · cases hr
        exact h

theorem Aligned.deleteVertex (h : g.Aligned t) {vid : Nat}
    {r : OlapStorage V × Except StorageError Unit} (hr : g.deleteVertex vid = some r) :
    r.1.Aligned t := by
  rcases deleteVertex_cases hr with ⟨-, hSame⟩ | ⟨i, vertex, b, -, -, -, hLoop⟩
  · exact hSame ▸ h
  · obtain ⟨⟨edges', hStore⟩, hLength, hBlocks⟩ := tombstoneBlocks_block hLoop
    have hColumns : r.1.propertyColumns = g.propertyColumns := by rw [hStore]
    have hOld : ∀ {b' : Nat} {block' : EdgeBlock}, r.1.edges[b']? = some block' →
        ∃ block, g.edges[b']? = some block ∧ block'.edges = block.edges := by
      intro b' block' hb'
      obtain ⟨block, hb, ⟨-, rfl⟩ | ⟨-, rfl⟩⟩ := hBlocks hb'
      · exact ⟨block, hb, rfl⟩
      · exact ⟨block', hb, rfl⟩
    refine h.of_slots (h.covers.congr hColumns hLength) (fun block' hBlock' => ?_)
      fun {b' o' e} hs j => ?_
    · obtain ⟨b', hb'⟩ := List.mem_iff_getElem?.mp hBlock'
      obtain ⟨block, hb, hEdges⟩ := hOld hb'
      exact ⟨block, List.mem_iff_getElem?.mpr ⟨b', hb⟩, (congrArg List.length hEdges).le⟩
    · obtain ⟨block', hb', ho'⟩ := slotAt_eq_some.mp hs
      obtain ⟨block, hb, hEdges⟩ := hOld hb'
      rw [versions_congr hColumns]
      exact h.own (slotAt_eq_some.mpr ⟨block, hb, hEdges ▸ ho'⟩) j

/-! ## Versions of an edge -/

theorem Covers.modifyVersions (h : g.Covers) (j b o : Nat)
    (F : List (PropertyVersion V) → List (PropertyVersion V)) :
    (g.modifyVersions j b o F).Covers := by
  intro column' hColumn'
  obtain ⟨i, hi⟩ := List.mem_iff_getElem?.mp hColumn'
  have hi : (g.propertyColumns.modify j _)[i]? = some column' := hi
  rw [List.getElem?_modify] at hi
  obtain ⟨column, hColumn, rfl⟩ := Option.map_eq_some_iff.mp hi
  have hLength := h column (List.mem_iff_getElem?.mpr ⟨i, hColumn⟩)
  have hBlocks := length_modifyValues
    (fun values => Function.update values o (F (values o))) column.blocks b
  split
  · exact hBlocks.trans hLength
  · exact hLength

theorem Covers.ensureColumnBlock (h : g.Covers) {j b : Nat} (hj : j < g.propertyColumns.length)
    (hb : b < g.edges.length) : g.ensureColumnBlock j b = some g := by
  have hColumn : g.propertyColumns[j]? = some g.propertyColumns[j] := List.getElem?_eq_getElem hj
  have hLength := h g.propertyColumns[j] (List.getElem_mem hj)
  have hBlocks : ensureBlock g.propertyColumns[j].blocks b = some g.propertyColumns[j].blocks := by
    unfold ensureBlock
    rw [if_pos (by omega)]
  unfold OlapStorage.ensureColumnBlock
  rw [hColumn]
  simp only [hBlocks, Option.map_some]
  have hSet : g.propertyColumns.set j ⟨g.propertyColumns[j].blocks⟩ = g.propertyColumns :=
    List.set_getElem_self hj
  rw [hSet]

theorem Aligned.modifyVersions (h : g.Aligned t) (hw : g.WellFormed) {j b o : Nat}
    {edge : OlapStorageEdge} (hs : g.slotAt b o = some edge) (hj : j < g.propertyColumns.length)
    (F : List (PropertyVersion V) → List (PropertyVersion V)) :
    (g.modifyVersions j b o F).Aligned
      (t.modify edge.eid fun j' l => if j' = j then F l else l) := by
  obtain ⟨block, hb, -⟩ := slotAt_eq_some.mp hs
  have hLt : b < (g.propertyColumns[j]).blocks.length := by
    rw [h.covers _ (List.getElem_mem hj)]
    exact (List.getElem?_eq_some_iff.mp hb).1
  exact h.overwrites hw (modifyVersions_overwrites (List.getElem?_eq_getElem hj) hLt)
    (fun _ => rfl) (h.covers.modifyVersions j b o F) hs

theorem Aligned.setVersions (h : g.Aligned t) (hw : g.WellFormed) {b o : Nat}
    {edge : OlapStorageEdge} (hs : g.slotAt b o = some edge) (txnId : Nat) (ps : List (Nat × V))
    (hps : ∀ p ∈ ps, p.1 < g.propertyColumns.length) :
    ∃ g', ps.foldlM (setVersion txnId b o) g = some g' ∧
      g'.Aligned (t.pushAll edge.eid txnId ps) := by
  induction ps generalizing g t with
  | nil => exact ⟨g, rfl, h⟩
  | cons p ps ih =>
    obtain ⟨block, hb, -⟩ := slotAt_eq_some.mp hs
    have hp := hps p (List.mem_cons_self ..)
    have hSet : setVersion txnId b o g p =
        some (g.modifyVersions p.1 b o (· ++ [⟨txnId, some p.2⟩])) := by
      unfold setVersion
      rw [h.covers.ensureColumnBlock hp (List.getElem?_eq_some_iff.mp hb).1]
      rfl
    have hNext := h.modifyVersions hw hs hp (· ++ [⟨txnId, some p.2⟩])
    have hw' : (g.modifyVersions p.1 b o (· ++ [⟨txnId, some p.2⟩])).WellFormed :=
      hw.edit (.columns g _)
    obtain ⟨g', hLoop, hAligned⟩ := ih hNext hw' hs fun q hq => by
      show q.1 < (g.propertyColumns.modify _ _).length
      rw [List.length_modify]
      exact hps q (List.mem_cons_of_mem p hq)
    refine ⟨g', ?_, hAligned⟩
    rw [List.foldlM_cons, hSet]
    exact hLoop

theorem Aligned.setValues (h : g.Aligned t) (hw : g.WellFormed) {b o : Nat}
    {edge : OlapStorageEdge} (hs : g.slotAt b o = some edge) (ps : List (Nat × V))
    (hps : ∀ p ∈ ps, p.1 < g.propertyColumns.length) :
    (ps.foldl (fun g p => g.modifyVersions p.1 b o (· ++ [⟨0, some p.2⟩])) g).Aligned
      (t.pushAll edge.eid 0 ps) := by
  induction ps generalizing g t with
  | nil => exact h
  | cons p ps ih =>
    have hNext := h.modifyVersions hw hs (hps p (List.mem_cons_self ..)) (· ++ [⟨0, some p.2⟩])
    have hw' : (g.modifyVersions p.1 b o (· ++ [⟨0, some p.2⟩])).WellFormed :=
      hw.edit (.columns g _)
    refine ih hNext hw' hs fun q hq => ?_
    show q.1 < (g.propertyColumns.modify _ _).length
    rw [List.length_modify]
    exact hps q (List.mem_cons_of_mem p hq)

theorem Aligned.retainAll (h : g.Aligned t) (hw : g.WellFormed) {b o : Nat}
    {edge : OlapStorageEdge} (hs : g.slotAt b o = some edge) (txnId : Nat) (indices : List Nat) :
    ∃ g', indices.foldlM (retainVersions txnId b o) g = some g' ∧
      g'.Aligned (indices.foldl (fun t idx => t.retain edge.eid txnId idx) t) := by
  induction indices generalizing g t with
  | nil => exact ⟨g, rfl, h⟩
  | cons idx indices ih =>
    rw [List.foldlM_cons, List.foldl_cons]
    by_cases hIdx : idx < g.propertyColumns.length
    · obtain ⟨block, hb, -⟩ := slotAt_eq_some.mp hs
      have hRetain : retainVersions txnId b o g idx =
          some (g.modifyVersions idx b o (·.filter fun v => v.ts != txnId)) := by
        unfold retainVersions
        rw [if_neg (Nat.not_le_of_lt hIdx),
          h.covers.ensureColumnBlock hIdx (List.getElem?_eq_some_iff.mp hb).1]
        rfl
      rw [hRetain]
      exact ih (h.modifyVersions hw hs hIdx _) (hw.edit (.columns g _)) hs
    · have hRetain : retainVersions txnId b o g idx = some g := by
        unfold retainVersions
        rw [if_pos (Nat.le_of_not_lt hIdx)]
      -- the edge has nothing in a column that is not there
      have hNone : t edge.eid idx = [] := by
        rw [← h.own hs idx]
        exact versions_of_no_column (List.getElem?_eq_none (Nat.le_of_not_lt hIdx))
      have hSame : EdgeValues.retain t edge.eid txnId idx = t := by
        unfold EdgeValues.retain EdgeValues.modify
        rw [Function.update_eq_self_iff]
        funext j
        by_cases hj : j = idx
        · simp only [hj, if_true, hNone, List.filter_nil]
        · simp only [hj, if_false]
      rw [hRetain, hSame]
      exact ih h hw hs

theorem retainAll_other (t : EdgeValues V) {eid eid' txnId : Nat} (indices : List Nat)
    (hOther : eid' ≠ eid) :
    indices.foldl (fun (t : EdgeValues V) idx => t.retain eid txnId idx) t eid' = t eid' := by
  induction indices generalizing t with
  | nil => rfl
  | cons idx indices ih =>
    rw [List.foldl_cons, ih]
    exact Function.update_of_ne hOther _ _

theorem Aligned.congr_values (h : g.Aligned t)
    (hSame : ∀ {b o : Nat} {e : OlapStorageEdge}, g.slotAt b o = some e → t' e.eid = t e.eid) :
    g.Aligned t' :=
  ⟨h.covers, h.room, fun hs j => (h.own hs j).trans (congrFun (hSame hs) j).symm⟩

/-! ## Commit and abort -/

theorem Covers.promoteVersions (h : g.Covers) (b o txnId ts : Nat) :
    (g.promoteVersions b o txnId ts).Covers := by
  intro column' hColumn'
  obtain ⟨column, hColumn, rfl⟩ := List.mem_map.mp hColumn'
  have hBlocks := length_modifyValues
    (fun values => Function.update values o (promoteLast txnId ts (values o))) column.blocks b
  exact hBlocks.trans (h column hColumn)

/-- A commit stamps the versions of the edge that the entry names, wherever its slot has moved. -/
theorem Aligned.commitEntry (h : g.Aligned t) (hw : g.WellFormed) (txnId ts : Nat) (op : DeltaOp) :
    (OlapStorage.commitEntry txnId ts g op).Aligned (t.commitEntry txnId ts g op) := by
  have hPublish : ∀ b o, (g.publishSlot b o ts).Aligned t := fun b o =>
    h.overwritesSlot publishSlot_overwrites (fun _ => rfl) rfl
  have hPromote : ∀ {b o edge}, g.slotAt b o = some edge →
      ((g.publishSlot b o ts).promoteVersions b o txnId ts).Aligned
        (t.modify edge.eid fun _ l => promoteLast txnId ts l) := by
    intro b o edge hs
    have hO : Overwrites g ((g.publishSlot b o ts).promoteVersions b o txnId ts) b o _ _ _ :=
      publishSlot_overwrites.trans promoteVersions_overwrites
    exact h.overwrites hw hO (fun _ => rfl) ((hPublish b o).covers.promoteVersions b o txnId ts) hs
  unfold OlapStorage.commitEntry
  cases hm : g.edgeIdMap op.eid with
  | none =>
    have hNone := record_eq_none hm
    unfold EdgeValues.commitEntry
    rw [hNone]
    cases op <;> exact h
  | some loc =>
    obtain ⟨b, o⟩ := loc
    obtain ⟨edge, hs, hEid⟩ := hw.located hm
    have hRecord := hEid ▸ hw.record_of_slot hs
    simp only [hs, hEid, true_and]
    unfold EdgeValues.commitEntry
    rw [hRecord]
    split
    · rename_i hStamp
      cases op with
      | createEdge eid =>
        have hPromoted := hPromote hs
        rw [hEid] at hPromoted
        simp only [hStamp, if_true]
        exact hPromoted
      | setEdgeProps eid indices =>
        have hPromoted := hPromote hs
        rw [hEid] at hPromoted
        simp only [hStamp, if_true]
        exact hPromoted
      | delEdge eid => exact hPublish b o
    · rename_i hStamp
      cases op with
      | createEdge eid =>
        simp only [hStamp, if_false]
        exact h
      | setEdgeProps eid indices =>
        simp only [hStamp, if_false]
        exact h
      | delEdge eid => exact h

/-- An abort drops the version that the entry has pushed, wherever the slot has moved; it does not
panic. -/
theorem Aligned.abortEntry (h : g.Aligned t) (hw : g.WellFormed) (txnId : Nat)
    (snapshot : Nat → Option (Option Nat × Nat)) (entry : DeltaOp × Nat) :
    ∃ g', OlapStorage.abortEntry txnId snapshot g entry = some g' ∧
      g'.Aligned (t.abortEntry txnId entry) := by
  unfold OlapStorage.abortEntry
  cases hm : g.edgeIdMap entry.1.eid with
  | none =>
    refine ⟨g, rfl, ?_⟩
    unfold EdgeValues.abortEntry
    cases hOp : entry.1 with
    | createEdge eid => exact h
    | delEdge eid => exact h
    | setEdgeProps eid indices =>
      -- the edge is in no slot any more
      refine h.congr_values fun {b o e} hs => retainAll_other t indices ?_
      rintro rfl
      rw [hOp] at hm
      have hm : g.edgeIdMap e.eid = none := hm
      rw [hw.mapped hs] at hm
      cases hm
  | some loc =>
    obtain ⟨b, o⟩ := loc
    obtain ⟨edge, hs, hEid⟩ := hw.located hm
    obtain ⟨block, hb, ho⟩ := slotAt_eq_some.mp hs
    simp only [hs, hEid, ne_eq, not_true_eq_false, if_false]
    have hRestore : ∀ {g₁ : OlapStorage V} {t₁ : EdgeValues V} (f : OlapStorageEdge → OlapStorageEdge),
        g₁.Aligned t₁ → (∀ edge, (f edge).eid = edge.eid) → (g₁.modifySlot b o f).Aligned t₁ :=
      fun f h₁ hf => h₁.overwritesSlot modifySlot_overwrites hf rfl
    unfold EdgeValues.abortEntry
    cases hOp : entry.1 with
    | createEdge eid =>
      simp only
      split
      · refine ⟨_, rfl, h.remove hb ?_⟩
        rw [removeSlot_edges, List.getElem?_modify_eq, hb]
        rfl
      · exact ⟨g, rfl, h⟩
    | delEdge eid => exact ⟨_, rfl, hRestore _ h fun _ => rfl⟩
    | setEdgeProps eid indices =>
      obtain ⟨g₁, hLoop, hAligned⟩ := h.retainAll hw hs txnId indices
      rw [hEid, hOp] at hAligned
      refine ⟨g₁.modifySlot b o fun edge => { edge with commitTs := entry.2 }, ?_,
        hRestore _ hAligned fun _ => rfl⟩
      simp only [hLoop]
      rfl

end OlapStorage

end Olap

end MiniGU
