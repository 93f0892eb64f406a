import MiniGU.Invariant.OlapCalls

/-!
# Which blocks belong to a vertex

A vertex of the AP store points at its last block, and each block at the one before. As
long as `delete_vertex` takes out only the last vertex of the vector, every block that is
no tombstone is on the chain of the vertex whose edges it holds, and on no other
(`Chained`, `chained_of_run`).
-/

namespace MiniGU

namespace Olap

variable {V : Type}

/-- No vertex is taken out of the vector with another one behind it. -/
def KeepsOrder (s : OlapState V) (a : Action V) : Prop :=
  ∀ vid i, a = .plain (.deleteVertex vid) →
    (s.storage.vertices.findIdx? fun vertex => vertex.vid == vid) = some i →
    i + 1 = s.storage.vertices.length

namespace OlapStorage

variable {g g' : OlapStorage V}

/-- Map and vector agree wherever both have an entry, and the chain of a vertex holds its
blocks and no others. -/
structure Chained (g : OlapStorage V) : Prop where
  mapped : ∀ {i : Nat} {v : OlapVertex V}, g.vertices[i]? = some v → g.denseIdMap v.vid = some i
  named : ∀ {vid i : Nat} {v : OlapVertex V}, g.denseIdMap vid = some i →
    g.vertices[i]? = some v → v.vid = vid
  below : ∀ {vid i : Nat}, g.denseIdMap vid = some i → i < g.logicIdCounter
  counter : g.vertices.length ≤ g.logicIdCounter
  owned : ∀ {v : OlapVertex V} {b : Nat} {block : EdgeBlock}, v ∈ g.vertices →
    Reaches g.edges v.blockOffset b → g.edges[b]? = some block → block.srcId = v.vid
  reached : ∀ {b : Nat} {block : EdgeBlock}, g.edges[b]? = some block →
    block.isTombstone = false →
    ∃ v ∈ g.vertices, v.vid = block.srcId ∧ Reaches g.edges v.blockOffset b

theorem Chained.new (n : Nat) : (OlapStorage.new n : OlapStorage V).Chained where
  mapped hv := nomatch hv
  named hm := nomatch hm
  below hm := nomatch hm
  counter := Nat.le_refl _
  owned hv := nomatch hv
  reached hb := nomatch hb

/-! ## Writes inside blocks -/

/-- `edges'` has the blocks of `edges` with the same sources and back pointers; a block may
have become a tombstone. -/
structure SameChains (edges edges' : List EdgeBlock) : Prop where
  forth : ∀ {b : Nat} {block : EdgeBlock}, edges[b]? = some block →
    ∃ block', edges'[b]? = some block' ∧ block'.preBlockIndex = block.preBlockIndex
  back : ∀ {b : Nat} {block' : EdgeBlock}, edges'[b]? = some block' →
    ∃ block, edges[b]? = some block ∧ block'.preBlockIndex = block.preBlockIndex ∧
      block'.srcId = block.srcId ∧ (block'.isTombstone = false → block.isTombstone = false)

theorem SameChains.refl (edges : List EdgeBlock) : SameChains edges edges :=
  ⟨fun hb => ⟨_, hb, rfl⟩, fun hb => ⟨_, hb, rfl, rfl, id⟩⟩

theorem SameChains.reaches {edges edges' : List EdgeBlock} (h : SameChains edges edges')
    {start : Option Nat} {b : Nat} : Reaches edges' start b ↔ Reaches edges start b :=
  ⟨Reaches.congr fun hb => (h.back hb).imp fun _ hBlock => ⟨hBlock.1, hBlock.2.1.symm⟩,
    Reaches.congr h.forth⟩

theorem SameChains.modify {edges : List EdgeBlock} {b : Nat} {F : EdgeBlock → EdgeBlock}
    (hPre : ∀ block, (F block).preBlockIndex = block.preBlockIndex)
    (hSrc : ∀ block, (F block).srcId = block.srcId)
    (hLive : ∀ block, (F block).isTombstone = false → block.isTombstone = false) :
    SameChains edges (edges.modify b F) := by
  have hAt : ∀ b', (edges.modify b F)[b']? =
      (edges[b']?).map fun block => if b = b' then F block else block := fun b' =>
    List.getElem?_modify ..
  constructor
  · intro b' block hb
    refine ⟨_, by rw [hAt, hb]; rfl, ?_⟩
    split
    · exact hPre block
    · rfl
  · intro b' block' hb
    rw [hAt] at hb
    obtain ⟨block, hOld, rfl⟩ := Option.map_eq_some_iff.mp hb
    refine ⟨block, hOld, ?_⟩
    split
    · exact ⟨hPre block, hSrc block, hLive block⟩
    · exact ⟨rfl, rfl, id⟩

theorem Chained.congr (h : g.Chained) (hEdges : SameChains g.edges g'.edges)
    (hVertices : g'.vertices = g.vertices) (hMap : g'.denseIdMap = g.denseIdMap)
    (hCounter : g'.logicIdCounter = g.logicIdCounter) : g'.Chained where
  mapped hv := hMap ▸ h.mapped (hVertices ▸ hv)
  named hm hv := h.named (hMap ▸ hm) (hVertices ▸ hv)
  below hm := hCounter ▸ h.below (hMap ▸ hm)
  counter := by
    rw [hVertices, hCounter]
    exact h.counter
  owned hv hReach hb := by
    obtain ⟨block, hb, -, hSrc, -⟩ := hEdges.back hb
    rw [hSrc]
    exact h.owned (hVertices ▸ hv) (hEdges.reaches.mp hReach) hb
  reached hb hLive := by
    obtain ⟨block, hb, -, hSrc, hBack⟩ := hEdges.back hb
    obtain ⟨v, hv, hVid, hReach⟩ := h.reached hb (hBack hLive)
    exact ⟨v, hVertices ▸ hv, hVid.trans hSrc.symm, hEdges.reaches.mpr hReach⟩

/-! ## A new block -/

/-- A new block at the end leads to none of the old ones but through its back pointer. -/
theorem reaches_append {edges : List EdgeBlock} {new : EdgeBlock} {start : Option Nat} {b : Nat}
    (hw : ∀ {a : Nat} {block : EdgeBlock} {p : Nat}, edges[a]? = some block →
      block.preBlockIndex = some p → p < a) (hStart : ∀ a, start = some a → a < edges.length) :
    Reaches (edges ++ [new]) start b ↔ Reaches edges start b := by
  constructor
  · intro h
    induction h with
    | here b => exact .here b
    | back ha _ ih =>
      have hLt := hStart _ rfl
      rw [List.getElem?_append_left hLt] at ha
      refine .back ha (ih fun p hp => ?_)
      have := hw ha hp
      omega
  · refine Reaches.congr fun {a block} ha => ⟨block, ?_, rfl⟩
    rw [List.getElem?_append_left (List.getElem?_eq_some_iff.mp ha).1]
    exact ha

theorem Reaches.lt {edges : List EdgeBlock} {start : Option Nat} {b : Nat}
    (h : Reaches edges start b) (hw : ∀ {a : Nat} {block : EdgeBlock} {p : Nat},
      edges[a]? = some block → block.preBlockIndex = some p → p < a)
    (hStart : ∀ a, start = some a → a < edges.length) : b < edges.length := by
  induction h with
  | here b => exact hStart b rfl
  | back ha _ ih =>
    refine ih fun p hp => ?_
    have := hw ha hp
    have := hStart _ rfl
    omega

/-- A block pushed onto the chain of a vertex is its new head, and the other chains stay. -/
theorem Chained.pushBlock (h : g.Chained) (hw : g.WellFormed) {i srcId minTs : Nat}
    {vertex : OlapVertex V} (hId : g.denseIdMap srcId = some i)
    (hVertex : g.vertices[i]? = some vertex) :
    (g.pushBlock i vertex.blockOffset srcId minTs).Chained := by
  have hMem : vertex ∈ g.vertices := List.mem_iff_getElem?.mpr ⟨i, hVertex⟩
  have hVid : vertex.vid = srcId := h.named hId hVertex
  let new : EdgeBlock := ⟨vertex.blockOffset, false, minTs, srcId, []⟩
  have hEdges : (g.pushBlock i vertex.blockOffset srcId minTs).edges = g.edges ++ [new] := rfl
  have hAt : ∀ j, (g.pushBlock i vertex.blockOffset srcId minTs).vertices[j]? =
      (g.vertices[j]?).map fun v => if i = j then { v with blockOffset := some g.edges.length }
        else v := fun j => List.getElem?_modify ..
  have hOld : ∀ {v : OlapVertex V} {b : Nat}, v ∈ g.vertices →
      (Reaches (g.edges ++ [new]) v.blockOffset b ↔ Reaches g.edges v.blockOffset b) :=
    fun hv => reaches_append hw.pre_lt fun a ha => hw.start_lt hv ha
  -- the vertex now starts at the new block, which leads on to its old one
  have hNew : ∀ {b : Nat}, Reaches (g.edges ++ [new]) (some g.edges.length) b ↔
      b = g.edges.length ∨ Reaches g.edges vertex.blockOffset b := by
    intro b
    rw [reaches_some List.getElem?_concat_length]
    exact or_congr_right (hOld hMem)
  have hVertices : ∀ {v' : OlapVertex V},
      v' ∈ (g.pushBlock i vertex.blockOffset srcId minTs).vertices →
      (v' = { vertex with blockOffset := some g.edges.length }) ∨ v' ∈ g.vertices := by
    intro v' hv'
    obtain ⟨j, hj⟩ := List.mem_iff_getElem?.mp hv'
    rw [hAt] at hj
    obtain ⟨v, hv, rfl⟩ := Option.map_eq_some_iff.mp hj
    split
    · rename_i hEq
      subst hEq
      obtain rfl := Option.some.inj (hVertex.symm.trans hv)
      exact .inl rfl
    · exact .inr (List.mem_iff_getElem?.mpr ⟨j, hv⟩)
  refine ⟨fun {j v'} hv' => ?_, fun {vid j v'} hm hv' => ?_, h.below, ?_,
    fun {v' b block} hv' hReach hb => ?_, fun {b block} hb hLive => ?_⟩
  · rw [hAt] at hv'
    obtain ⟨v, hv, rfl⟩ := Option.map_eq_some_iff.mp hv'
    have := h.mapped hv
    split <;> exact this
  · rw [hAt] at hv'
    obtain ⟨v, hv, rfl⟩ := Option.map_eq_some_iff.mp hv'
    have := h.named hm hv
    split <;> exact this
  · show (g.vertices.modify i _).length ≤ _
    rw [List.length_modify]
    exact h.counter
  · rw [hEdges] at hReach hb
    rcases hVertices hv' with rfl | hv'
    · rcases hNew.mp hReach with rfl | hReach
      · rw [List.getElem?_concat_length] at hb
        cases hb
        exact hVid.symm
      · rcases getElem?_concat_cases hb with hb | ⟨-, rfl⟩
        · have hOwned := h.owned hMem hReach hb
          exact hOwned
        · exact hVid.symm
    · rw [hOld hv'] at hReach
      rcases getElem?_concat_cases hb with hb | ⟨rfl, -⟩
      · exact h.owned hv' hReach hb
      · have hBelow := hReach.lt hw.pre_lt fun a ha => hw.start_lt hv' ha
        omega
  · rw [hEdges] at hb
    have hIn : { vertex with blockOffset := some g.edges.length } ∈
        (g.pushBlock i vertex.blockOffset srcId minTs).vertices := by
      refine List.mem_iff_getElem?.mpr ⟨i, ?_⟩
      rw [hAt, hVertex]
      simp
    rcases getElem?_concat_cases hb with hb | ⟨rfl, rfl⟩
    · obtain ⟨v, hv, hSrc, hReach⟩ := h.reached hb hLive
      obtain ⟨j, hj⟩ := List.mem_iff_getElem?.mp hv
      by_cases hSame : i = j
      · subst hSame
        obtain rfl := Option.some.inj (hVertex.symm.trans hj)
        exact ⟨_, hIn, hSrc, hNew.mpr (.inr hReach)⟩
      · refine ⟨v, List.mem_iff_getElem?.mpr ⟨j, ?_⟩, hSrc, (hOld hv).mpr hReach⟩
        rw [hAt, hj, Option.map_some, if_neg hSame]
    · exact ⟨_, hIn, hVid, hNew.mpr (.inl rfl)⟩

/-! ## The record of a vertex -/

/-- Setting a vertex's properties leaves its chain of blocks alone. -/
theorem Chained.record (h : g.Chained) {i : Nat} {vertex : OlapVertex V}
    (hVertex : g.vertices[i]? = some vertex) (properties : List V) :
    Chained { g with
      vertices := g.vertices.set i { vertex with properties := properties } } := by
  have hBack : ∀ {j : Nat} {v : OlapVertex V},
      (g.vertices.set i { vertex with properties := properties })[j]? = some v →
      ∃ v₀, g.vertices[j]? = some v₀ ∧ v₀.vid = v.vid ∧ v₀.blockOffset = v.blockOffset := by
    intro j v hv
    rw [getElem?_record hVertex] at hv
    obtain ⟨v₀, hv₀, rfl⟩ := Option.map_eq_some_iff.mp hv
    refine ⟨v₀, hv₀, ?_⟩
    split <;> exact ⟨rfl, rfl⟩
  refine ⟨fun {j v} hv => ?_, fun {vid j v} hm hv => ?_, h.below, ?_, fun {v b block} hv => ?_,
    fun {b block} hb hLive => ?_⟩
  · obtain ⟨v₀, hv₀, hVid, -⟩ := hBack hv
    exact hVid ▸ h.mapped hv₀
  · obtain ⟨v₀, hv₀, hVid, -⟩ := hBack hv
    exact hVid ▸ h.named hm hv₀
  · show (g.vertices.set i _).length ≤ _
    rw [List.length_set]
    exact h.counter
  · intro hReach hb
    obtain ⟨j, hj⟩ := List.mem_iff_getElem?.mp hv
    obtain ⟨v₀, hv₀, hVid, hStart⟩ := hBack hj
    rw [← hStart] at hReach
    exact hVid ▸ h.owned (List.mem_iff_getElem?.mpr ⟨j, hv₀⟩) hReach hb
  · obtain ⟨v, hv, hVid, hReach⟩ := h.reached hb hLive
    obtain ⟨j, hj⟩ := List.mem_iff_getElem?.mp hv
    refine ⟨_, List.mem_iff_getElem?.mpr ⟨j, (getElem?_record hVertex properties j).trans
      (congrArg (Option.map _) hj)⟩, ?_⟩
    beta_reduce
    split <;> exact ⟨hVid, hReach⟩

/-! ## Every call -/

theorem Chained.edit (h : g.Chained) (hw : g.WellFormed) (hEdit : Edit g g') : g'.Chained := by
  cases hEdit with
  | columns columns => exact h.congr (.refl _) rfl rfl rfl
  | locate hs => exact h.congr (.refl _) rfl rfl rfl
  | overwrite b o m hf =>
    exact h.congr (.modify (fun _ => rfl) (fun _ => rfl) fun _ => id) rfl rfl rfl
  | record hVertex properties => exact h.record hVertex properties
  | pushBlock minTs hId hVertex => exact h.pushBlock hw hId hVertex
  | insertSlot hb hPos label dst ts =>
    exact h.congr (.modify (fun _ => rfl) (fun _ => rfl) fun _ => id) rfl rfl rfl
  | removeSlot hb ho =>
    exact h.congr (.modify (fun _ => rfl) (fun _ => rfl) fun _ => id) rfl rfl rfl
  | emptyBlock hb hOne =>
    rename_i b block edge
    have hSet : g.edges.set b { block with isTombstone := true, edges := [] } =
        g.edges.modify b fun block => { block with isTombstone := true, edges := [] } := by
      rw [List.modify_eq_set_getElem?, hb]
      rfl
    refine h.congr ?_ rfl rfl rfl
    show SameChains g.edges (g.edges.set b _)
    rw [hSet]
    exact .modify (fun _ => rfl) (fun _ => rfl) fun _ hLive => nomatch hLive

theorem Chained.edits (h : g.Chained) (hw : g.WellFormed) (hEdits : Edits g g') : g'.Chained := by
  have hBoth : g'.Chained ∧ g'.WellFormed := by
    induction hEdits with
    | refl => exact ⟨h, hw⟩
    | tail _ hEdit ih => exact ⟨ih.1.edit ih.2 hEdit, ih.2.edit hEdit⟩
  exact hBoth.1

/-- A new vertex has the empty chain. -/
theorem Chained.createVertex (h : g.Chained) {vid : Nat} {properties : List V}
    {r : OlapStorage V × Except StorageError Nat} (hr : g.createVertex vid properties = some r) :
    r.1.Chained := by
  rcases createVertex_cases hr with ⟨-, hSame⟩ | ⟨hNew, hLe, hEq⟩
  · exact hSame ▸ h
  · have hCounter : g.logicIdCounter = g.vertices.length := Nat.le_antisymm hLe h.counter
    have hAppend : g.vertices.insertIdx g.logicIdCounter ⟨vid, properties, none⟩ =
        g.vertices ++ [⟨vid, properties, none⟩] := by
      rw [hCounter, List.insertIdx_length_self]
    rw [hEq, hAppend]
    refine ⟨fun {j v} hv => ?_, fun {vid' j v} hm hv => ?_, fun {vid' j} hm => ?_, ?_,
      fun {v b block} hv hReach hb => ?_, fun {b block} hb hLive => ?_⟩
    · show Function.update g.denseIdMap vid _ v.vid = _
      have hv : (g.vertices ++ [⟨vid, properties, none⟩])[j]? = some v := hv
      rcases getElem?_concat_cases hv with hv | ⟨rfl, rfl⟩
      · rw [Function.update_of_ne]
        · exact h.mapped hv
        · intro hVid
          have := h.mapped hv
          rw [hVid, hNew] at this
          cases this
      · rw [Function.update_self, hCounter]
    · have hm : Function.update g.denseIdMap vid (some g.logicIdCounter) vid' = some j := hm
      have hv : (g.vertices ++ [⟨vid, properties, none⟩])[j]? = some v := hv
      by_cases hVid : vid' = vid
      · subst hVid
        rw [Function.update_self] at hm
        obtain rfl := Option.some.inj hm
        rw [hCounter, List.getElem?_concat_length] at hv
        cases hv
        rfl
      · rw [Function.update_of_ne hVid] at hm
        have := h.below hm
        rw [List.getElem?_append_left (by omega)] at hv
        exact h.named hm hv
    · have hm : Function.update g.denseIdMap vid (some g.logicIdCounter) vid' = some j := hm
      show j < g.logicIdCounter + 1
      by_cases hVid : vid' = vid
      · subst hVid
        rw [Function.update_self] at hm
        obtain rfl := Option.some.inj hm
        omega
      · rw [Function.update_of_ne hVid] at hm
        have := h.below hm
        omega
    · show (g.vertices ++ [_]).length ≤ g.logicIdCounter + 1
      rw [List.length_append, List.length_singleton]
      omega
    · rcases List.mem_append.mp hv with hv | hv
      · exact h.owned hv hReach hb
      · obtain rfl := List.mem_singleton.mp hv
        exact absurd hReach not_reaches_none
    · obtain ⟨v, hv, hSrc, hReach⟩ := h.reached hb hLive
      exact ⟨v, List.mem_append_left _ hv, hSrc, hReach⟩

/-- The last vertex of the vector goes, and its blocks with it. -/
theorem Chained.deleteVertex (h : g.Chained) {vid : Nat}
    {r : OlapStorage V × Except StorageError Unit} (hr : g.deleteVertex vid = some r)
    (hLast : ∀ i, (g.vertices.findIdx? fun vertex => vertex.vid == vid) = some i →
      i + 1 = g.vertices.length) : r.1.Chained := by
  rcases deleteVertex_cases hr with ⟨-, hSame⟩ | ⟨i, vertex, b₀, hFind, hVertex, hStart, hLoop⟩
  · exact hSame ▸ h
  · have hLength := hLast i hFind
    obtain ⟨⟨edges', hEq⟩, hEdgesLength, hBlocks⟩ := tombstoneBlocks_block hLoop
    rw [hEq] at hBlocks hEdgesLength ⊢
    have hChains : SameChains g.edges edges' := by
      refine ⟨fun {b block} hb => ?_, fun {b block'} hb => ?_⟩
      · have hLt : b < edges'.length := by
          have := (List.getElem?_eq_some_iff.mp hb).1
          exact hEdgesLength ▸ this
        obtain ⟨block₁, hb₁, hCase⟩ := hBlocks (List.getElem?_eq_getElem hLt)
        obtain rfl := Option.some.inj (hb.symm.trans hb₁)
        refine ⟨_, List.getElem?_eq_getElem hLt, ?_⟩
        rcases hCase with ⟨-, hEq'⟩ | ⟨-, hEq'⟩
        · rw [hEq']
        · rw [hEq']
      · obtain ⟨block, hb₁, ⟨-, rfl⟩ | ⟨-, rfl⟩⟩ := hBlocks hb
        · exact ⟨block, hb₁, rfl, rfl, fun hLive => nomatch hLive⟩
        · exact ⟨block', hb₁, rfl, rfl, id⟩
    have hKept : ∀ {j : Nat} {v : OlapVertex V}, (g.vertices.eraseIdx i)[j]? = some v →
        g.vertices[j]? = some v ∧ j ≠ i := by
      intro j v hv
      rw [List.getElem?_eraseIdx] at hv
      split at hv
      · exact ⟨hv, by omega⟩
      · have := (List.getElem?_eq_some_iff.mp hv).1
        omega
    refine ⟨fun {j v} hv => h.mapped (hKept hv).1, fun {vid' j v} hm hv => h.named hm (hKept hv).1,
      h.below, ?_, fun {v b block} hv hReach hb => ?_, fun {b block'} hb hLive => ?_⟩
    · show (g.vertices.eraseIdx i).length ≤ g.logicIdCounter
      have := (List.eraseIdx_sublist g.vertices i).length_le
      have := h.counter
      omega
    · obtain ⟨block₀, hb₀, -, hSrc, -⟩ := hChains.back hb
      rw [hSrc]
      exact h.owned (List.mem_of_mem_eraseIdx hv) (hChains.reaches.mp hReach) hb₀
    · obtain ⟨block, hb₀, ⟨-, rfl⟩ | ⟨hNot, rfl⟩⟩ := hBlocks hb
      · cases hLive
      · obtain ⟨v, hv, hSrc, hReach⟩ := h.reached hb₀ hLive
        obtain ⟨j, hj⟩ := List.mem_iff_getElem?.mp hv
        have hNe : j ≠ i := by
          rintro rfl
          obtain rfl := Option.some.inj (hVertex.symm.trans hj)
          exact hNot (hStart ▸ hReach)
        exact ⟨v, List.mem_eraseIdx_iff_getElem?.mpr ⟨j, hNe, hj⟩, hSrc,
          hChains.reaches.mpr hReach⟩

end OlapStorage

theorem Step.chained {s s' : OlapState V} {a : Action V} (h : s.storage.Chained)
    (hw : s.storage.WellFormed) (hOrder : KeepsOrder s a) (hs : Step s a s') :
    s'.storage.Chained := by
  rcases hs.edits with ⟨vid, properties, r, -, hr, hEq⟩ | ⟨vid, r, rfl, hr, hEq⟩ | hEdits
  · exact hEq ▸ h.createVertex hr
  · exact hEq ▸ h.deleteVertex hr fun i hi => hOrder vid i rfl hi
  · exact h.edits hw hEdits

theorem chained_of_run {n : Nat} {trace : List (OlapState V × Action V)} {s : OlapState V}
    (h : Run Step KeepsOrder (.init n) trace s) : s.storage.Chained ∧ s.storage.WellFormed :=
  h.stateInvariant (I := fun s => s.storage.Chained ∧ s.storage.WellFormed)
    ⟨OlapStorage.Chained.new n, OlapStorage.WellFormed.new n⟩
    fun _ _ _ hI hOrder hs => ⟨Step.chained hI.1 hI.2 hOrder hs, Step.wellFormed hI.2 hs⟩

end Olap

end MiniGU
