import MiniGU.Invariant.OlapWrites
import Mathlib.Logic.Relation

/-!
# Slots that come, go and move

`create_edge` opens a slot inside a sorted block and `delete_edge` closes one; both shift
the slots behind it and write their new offsets into the map.

* `insertPos_le`: the binary search stays inside the block.
* `remap_cases`: what such a shift leaves in the map.
* `WellFormed.insertSlot`, `WellFormed.removeSlot`: the map fits the slots again, both
  from one description of the shift (`Moved`).

## The writes that the calls of the AP store are made of

Each call on edges is a sequence of small writes (`Edit`): a slot comes, goes or is
overwritten, a block is pushed or emptied, the columns change. The map keeps fitting the
slots under each of them (`WellFormed.edit`).
-/

namespace MiniGU

namespace Olap

variable {V : Type}

namespace OlapStorage

variable {g g' : OlapStorage V}

/-! ## The place of a new slot -/

theorem searchBase_lt {cmp : Nat → Ordering} (fuel : Nat) {size base n : Nat} (hSize : 0 < size)
    (h : base + size ≤ n) : searchBase cmp fuel size base < n := by
  induction fuel generalizing size base with
  | zero =>
    unfold searchBase
    omega
  | succ fuel ih =>
    unfold searchBase
    split
    · omega
    · have hHalf : size / 2 < size := by omega
      simp only
      split
      · exact ih (by omega) (by omega)
      · exact ih (by omega) (by omega)

theorem insertPos_le (edges : List OlapStorageEdge) (key : Nat × Option Nat) :
    insertPos edges key ≤ edges.length := by
  unfold insertPos
  simp only
  split
  · omega
  · rename_i hNonempty
    have hLength : 0 < edges.length := List.length_pos_iff.mpr hNonempty
    have hBase : ∀ cmp, searchBase cmp edges.length edges.length 0 < edges.length :=
      fun cmp => searchBase_lt _ hLength (Nat.le_of_eq (Nat.zero_add _))
    split
    · exact hBase _
    · exact (hBase _).le

/-! ## The map after a shift -/

theorem remap_cases (map : Nat → Option (Nat × Nat)) (b : Nat) (slots : List OlapStorageEdge)
    (start eid : Nat) :
    (∃ i edge, start ≤ i ∧ slots[i]? = some edge ∧ edge.eid = eid ∧
      remap map b slots start eid = some (b, i)) ∨
    ((∀ i edge, start ≤ i → slots[i]? = some edge → 0 < edge.eid → edge.eid ≠ eid) ∧
      remap map b slots start eid = map eid) := by
  have hFold : remap map b slots start =
      (slots.zipIdx.drop start).foldl (fun map (p : OlapStorageEdge × Nat) =>
        if decide (p.1.eid = 0) then map
        else Function.update map p.1.eid (some (b, p.2))) map := by
    unfold remap
    simp only [decide_eq_true_eq]
  rw [hFold]
  rcases @foldl_update_cases _ _ _ _ (fun p : OlapStorageEdge × Nat => decide (p.1.eid = 0))
    (fun p => p.1.eid) (fun p => some (b, p.2)) (slots.zipIdx.drop start) map eid with
    ⟨⟨edge, i⟩, hMem, -, hKey, hVal⟩ | ⟨hNone, hVal⟩
  · obtain ⟨hStart, hSlot⟩ := mem_drop_zipIdx.mp hMem
    exact .inl ⟨i, edge, hStart, hSlot, hKey, hVal⟩
  · refine .inr ⟨fun i edge hStart hSlot hPos => ?_, hVal⟩
    exact hNone (edge, i) (mem_drop_zipIdx.mpr ⟨hStart, hSlot⟩) (by simpa using hPos.ne')

/-- `g'` is `g` with the edge `x` put into or taken out of a block, whose slots from
`start` on have moved. -/
structure Moved (g g' : OlapStorage V) (b start x : Nat) (slots : List OlapStorageEdge) : Prop where
  old : g.WellFormed
  block : ∀ o, g'.slotAt b o = slots[o]?
  back : ∀ {b' o' : Nat} {edge : OlapStorageEdge}, g'.slotAt b' o' = some edge → edge.eid ≠ x →
    (b' = b ∧ start ≤ o') ∨ g.slotAt b' o' = some edge
  kept : ∀ {b' o' : Nat} {edge : OlapStorageEdge}, g.slotAt b' o' = some edge → edge.eid ≠ x →
    g'.slotAt b' o' = some edge ∨ ∃ i, start ≤ i ∧ slots[i]? = some edge
  unique : ∀ {b₁ o₁ b₂ o₂ : Nat} {e₁ e₂ : OlapStorageEdge}, g'.slotAt b₁ o₁ = some e₁ →
    g'.slotAt b₂ o₂ = some e₂ → e₁.eid = e₂.eid → b₁ = b₂ ∧ o₁ = o₂
  pos : ∀ {b' o' : Nat} {edge : OlapStorageEdge}, g'.slotAt b' o' = some edge → 0 < edge.eid

namespace Moved

variable {b start x : Nat} {slots : List OlapStorageEdge}

theorem mapped (h : Moved g g' b start x slots) {b' o' : Nat} {edge : OlapStorageEdge}
    (hs : g'.slotAt b' o' = some edge) (hx : edge.eid ≠ x) :
    remap g.edgeIdMap b slots start edge.eid = some (b', o') := by
  rcases remap_cases g.edgeIdMap b slots start edge.eid with
    ⟨i, edge', -, hSlot, hEid, hMap⟩ | ⟨hNone, hMap⟩
  · obtain ⟨rfl, rfl⟩ := h.unique hs ((h.block i).trans hSlot) hEid.symm
    exact hMap
  · rcases h.back hs hx with ⟨rfl, hStart⟩ | hOld
    · exact absurd rfl (hNone o' edge hStart (h.block o' ▸ hs) (h.pos hs))
    · rw [hMap]
      exact h.old.mapped hOld

theorem located (h : Moved g g' b start x slots) {eid b' o' : Nat} (hx : eid ≠ x)
    (hm : remap g.edgeIdMap b slots start eid = some (b', o')) :
    ∃ edge, g'.slotAt b' o' = some edge ∧ edge.eid = eid := by
  rcases remap_cases g.edgeIdMap b slots start eid with
    ⟨i, edge, -, hSlot, hEid, hMap⟩ | ⟨hNone, hMap⟩
  · rw [hMap] at hm
    obtain ⟨rfl, rfl⟩ := Prod.mk.inj (Option.some.inj hm)
    exact ⟨edge, (h.block i).trans hSlot, hEid⟩
  · rw [hMap] at hm
    obtain ⟨edge, hOld, rfl⟩ := h.old.located hm
    rcases h.kept hOld hx with hNew | ⟨i, hStart, hSlot⟩
    · exact ⟨edge, hNew, rfl⟩
    · exact absurd rfl (hNone i edge hStart hSlot (h.old.eid_pos hOld))

end Moved

/-! ## Putting a slot in and taking one out -/

theorem slotAt_modify {b : Nat} {block : EdgeBlock} {F : EdgeBlock → EdgeBlock}
    (hb : g.edges[b]? = some block) (hEdges : g'.edges = g.edges.modify b F) (b' o' : Nat) :
    g'.slotAt b' o' = if b' = b then (F block).edges[o']? else g.slotAt b' o' := by
  unfold slotAt
  rw [hEdges, List.getElem?_modify]
  by_cases hSame : b' = b
  · subst hSame
    rw [hb, if_pos rfl]
    simp
  · rw [if_neg hSame]
    simp [Ne.symm hSame]

theorem getElem?_modify_of {b : Nat} {F : EdgeBlock → EdgeBlock} {b' : Nat} {block' : EdgeBlock}
    (h : (g.edges.modify b F)[b']? = some block') :
    ∃ block, g.edges[b']? = some block ∧ block' = if b = b' then F block else block := by
  rw [List.getElem?_modify] at h
  obtain ⟨block, hb, rfl⟩ := Option.map_eq_some_iff.mp h
  exact ⟨block, hb, rfl⟩

theorem insertSlot_edges {b pos : Nat} {edge : OlapStorageEdge} :
    (g.insertSlot b pos edge).edges = g.edges.modify b fun block =>
      { block with edges := block.edges.insertIdx pos edge } :=
  rfl

theorem removeSlot_edges {b o eid : Nat} :
    (g.removeSlot b o eid).edges = g.edges.modify b fun block =>
      { block with edges := block.edges.eraseIdx o } :=
  rfl

theorem insertSlot_back {b pos : Nat} {block : EdgeBlock} {edge : OlapStorageEdge}
    (hb : g.edges[b]? = some block) {b' o' : Nat} {e : OlapStorageEdge}
    (hs : (g.insertSlot b pos edge).slotAt b' o' = some e) :
    (b' = b ∧ o' = pos ∧ e = edge) ∨
      ∃ o, g.slotAt b' o = some e ∧ (b' = b → o' = if o < pos then o else o + 1) ∧
        (b' ≠ b → o' = o) := by
  rw [slotAt_modify hb insertSlot_edges] at hs
  split at hs
  · rename_i hSame
    subst hSame
    rw [List.getElem?_insertIdx] at hs
    split at hs
    · rename_i hLt
      exact .inr ⟨o', (slotAt_of_block hb).trans hs, fun _ => by rw [if_pos hLt],
        fun hNe => absurd rfl hNe⟩
    · split at hs
      · rename_i hEq
        split at hs
        · exact .inl ⟨rfl, hEq, (Option.some.inj hs).symm⟩
        · cases hs
      · refine .inr ⟨o' - 1, (slotAt_of_block hb).trans hs, fun _ => ?_, fun hNe => absurd rfl hNe⟩
        rw [if_neg (by omega)]
        omega
  · rename_i hNe
    exact .inr ⟨o', hs, fun hSame => absurd hSame hNe, fun _ => rfl⟩

theorem removeSlot_back {b o eid : Nat} {block : EdgeBlock} (hb : g.edges[b]? = some block)
    {b' o' : Nat} {e : OlapStorageEdge} (hs : (g.removeSlot b o eid).slotAt b' o' = some e) :
    ∃ p, g.slotAt b' p = some e ∧ (b' = b → p = if o' < o then o' else o' + 1) ∧
      (b' ≠ b → p = o') := by
  rw [slotAt_modify hb removeSlot_edges] at hs
  split at hs
  · rename_i hSame
    subst hSame
    rw [List.getElem?_eraseIdx] at hs
    refine ⟨if o' < o then o' else o' + 1, ?_, fun _ => rfl, fun hNe => absurd rfl hNe⟩
    rw [slotAt_of_block hb]
    split
    · rename_i hLt
      rwa [if_pos hLt] at hs
    · rename_i hLt
      rwa [if_neg hLt] at hs
  · rename_i hNe
    exact ⟨o', hs, fun hSame => absurd hSame hNe, fun _ => rfl⟩

/-- A slot that is opened shifts those behind it up, and the map follows. -/
theorem moved_insertSlot (hw : g.WellFormed) {b pos : Nat} {block : EdgeBlock}
    {edge : OlapStorageEdge} (hb : g.edges[b]? = some block) (hPos : pos ≤ block.edges.length)
    (hEid : edge.eid = g.edgeIdCounter) :
    Moved g (g.insertSlot b pos edge) b (pos + 1) edge.eid (block.edges.insertIdx pos edge) := by
  have hSlot : ∀ b' o', (g.insertSlot b pos edge).slotAt b' o' =
      if b' = b then (block.edges.insertIdx pos edge)[o']? else g.slotAt b' o' :=
    slotAt_modify hb insertSlot_edges
  have hFresh : ∀ {b' o' e}, g.slotAt b' o' = some e → e.eid ≠ edge.eid := by
    intro b' o' e hs
    have := hw.eid_lt hs
    omega
  refine ⟨hw, fun o => by rw [hSlot, if_pos rfl], fun {b' o' e} hs hx => ?_,
    fun {b' o' e} hs _ => ?_, fun {b₁ o₁ b₂ o₂ e₁ e₂} h₁ h₂ he => ?_, fun {b' o' e} hs => ?_⟩
  · rcases insertSlot_back hb hs with ⟨-, -, rfl⟩ | ⟨o, hOld, hAt, hOther⟩
    · exact absurd rfl hx
    · by_cases hSame : b' = b
      · have hOff := hAt hSame
        split at hOff
        · exact .inr (hOff ▸ hOld)
        · exact .inl ⟨hSame, by omega⟩
      · exact .inr (hOther hSame ▸ hOld)
  · by_cases hSame : b' = b
    · subst hSame
      have hOld : block.edges[o']? = some e := (slotAt_of_block hb).symm.trans hs
      by_cases hLt : o' < pos
      · refine .inl ?_
        rw [hSlot, if_pos rfl, List.getElem?_insertIdx_of_lt hLt, hOld]
      · refine .inr ⟨o' + 1, by omega, ?_⟩
        rw [List.getElem?_insertIdx_of_gt (by omega)]
        exact hOld
    · refine .inl ?_
      rw [hSlot, if_neg hSame, hs]
  · rcases insertSlot_back hb h₁ with ⟨rfl, rfl, rfl⟩ | ⟨p₁, hOld₁, hAt₁, hOther₁⟩
    · rcases insertSlot_back hb h₂ with ⟨rfl, rfl, -⟩ | ⟨p₂, hOld₂, -, -⟩
      · exact ⟨rfl, rfl⟩
      · exact absurd he.symm (hFresh hOld₂)
    · rcases insertSlot_back hb h₂ with ⟨-, -, rfl⟩ | ⟨p₂, hOld₂, hAt₂, hOther₂⟩
      · exact absurd he (hFresh hOld₁)
      · obtain ⟨rfl, rfl⟩ := hw.slot_unique hOld₁ hOld₂ he
        by_cases hSame : b₁ = b
        · exact ⟨rfl, (hAt₁ hSame).trans (hAt₂ hSame).symm⟩
        · exact ⟨rfl, (hOther₁ hSame).trans (hOther₂ hSame).symm⟩
  · rcases insertSlot_back hb hs with ⟨-, -, rfl⟩ | ⟨o, hOld, -, -⟩
    · have := hw.counter_pos
      omega
    · exact hw.eid_pos hOld

/-- A slot that is closed shifts those behind it down, and the map follows. -/
theorem moved_removeSlot (hw : g.WellFormed) {b o : Nat} {block : EdgeBlock}
    {edge : OlapStorageEdge} (hb : g.edges[b]? = some block) (ho : block.edges[o]? = some edge) :
    Moved g (g.removeSlot b o edge.eid) b o edge.eid (block.edges.eraseIdx o) := by
  have hSlot : ∀ b' o', (g.removeSlot b o edge.eid).slotAt b' o' =
      if b' = b then (block.edges.eraseIdx o)[o']? else g.slotAt b' o' :=
    slotAt_modify hb removeSlot_edges
  refine ⟨hw, fun o' => by rw [hSlot, if_pos rfl], fun {b' o' e} hs _ => ?_,
    fun {b' o' e} hs hx => ?_, fun {b₁ o₁ b₂ o₂ e₁ e₂} h₁ h₂ he => ?_, fun {b' o' e} hs => ?_⟩
  · obtain ⟨p, hOld, hAt, hOther⟩ := removeSlot_back hb hs
    by_cases hSame : b' = b
    · have hOff := hAt hSame
      split at hOff
      · exact .inr (hOff ▸ hOld)
      · exact .inl ⟨hSame, by omega⟩
    · exact .inr (hOther hSame ▸ hOld)
  · by_cases hSame : b' = b
    · subst hSame
      have hOld : block.edges[o']? = some e := (slotAt_of_block hb).symm.trans hs
      rcases Nat.lt_trichotomy o' o with hLt | rfl | hGt
      · refine .inl ?_
        rw [hSlot, if_pos rfl, List.getElem?_eraseIdx_of_lt hLt, hOld]
      · exact absurd (congrArg OlapStorageEdge.eid (Option.some.inj (hOld.symm.trans ho))) hx
      · refine .inr ⟨o' - 1, by omega, ?_⟩
        rw [List.getElem?_eraseIdx_of_ge (by omega), show o' - 1 + 1 = o' by omega]
        exact hOld
    · refine .inl ?_
      rw [hSlot, if_neg hSame, hs]
  · obtain ⟨p₁, hOld₁, hAt₁, hOther₁⟩ := removeSlot_back hb h₁
    obtain ⟨p₂, hOld₂, hAt₂, hOther₂⟩ := removeSlot_back hb h₂
    obtain ⟨rfl, rfl⟩ := hw.slot_unique hOld₁ hOld₂ he
    by_cases hSame : b₁ = b
    · have hEq := (hAt₁ hSame).symm.trans (hAt₂ hSame)
      refine ⟨rfl, ?_⟩
      split at hEq
      · split at hEq
        · exact hEq
        · omega
      · split at hEq
        · omega
        · omega
    · exact ⟨rfl, (hOther₁ hSame).symm.trans (hOther₂ hSame)⟩
  · obtain ⟨p, hOld, -, -⟩ := removeSlot_back hb hs
    exact hw.eid_pos hOld

theorem insertSlot_map {b : Nat} {block : EdgeBlock} (hb : g.edges[b]? = some block) (pos : Nat)
    (edge : OlapStorageEdge) :
    (g.insertSlot b pos edge).edgeIdMap =
      Function.update (remap g.edgeIdMap b (block.edges.insertIdx pos edge) (pos + 1)) edge.eid
        (some (b, pos)) := by
  have hSlots : (g.edges.modify b fun block =>
      { block with edges := block.edges.insertIdx pos edge })[b]? =
      some { block with edges := block.edges.insertIdx pos edge } := by
    rw [List.getElem?_modify_eq, hb]
    rfl
  unfold insertSlot
  simp only [hSlots]

theorem removeSlot_map {b : Nat} {block : EdgeBlock} (hb : g.edges[b]? = some block) (o eid : Nat) :
    (g.removeSlot b o eid).edgeIdMap =
      Function.update (remap g.edgeIdMap b (block.edges.eraseIdx o) o) eid none := by
  have hSlots : (g.edges.modify b fun block =>
      { block with edges := block.edges.eraseIdx o })[b]? =
      some { block with edges := block.edges.eraseIdx o } := by
    rw [List.getElem?_modify_eq, hb]
    rfl
  unfold removeSlot
  simp only [hSlots]

/-- A new edge id in a new slot keeps the map right. -/
theorem WellFormed.insertSlot (hw : g.WellFormed) {b pos : Nat} {block : EdgeBlock}
    (hb : g.edges[b]? = some block) (hPos : pos ≤ block.edges.length) (label : Option Nat)
    (dst ts : Nat) :
    ({ g with edgeIdCounter := g.edgeIdCounter + 1 }.insertSlot b pos
      ⟨g.edgeIdCounter, label, dst, ts⟩).WellFormed := by
  generalize hEdge : OlapStorageEdge.mk g.edgeIdCounter label dst ts = edge
  have hEid : edge.eid = g.edgeIdCounter := by rw [← hEdge]
  have hMoved := moved_insertSlot hw hb hPos hEid
  have hMap := insertSlot_map hb pos edge
  have hNew : (g.insertSlot b pos edge).slotAt b pos = some edge := by
    rw [hMoved.block, List.getElem?_insertIdx_self, if_pos hPos]
  refine ⟨fun {b' o' e} hs => ?_, fun {eid b' o'} hm => ?_, fun hs => hMoved.pos hs,
    fun {b' o' e} hs => ?_, Nat.succ_pos _, fun {b' block' p} hb' hp => ?_,
    fun {v b'} hv hStart => ?_⟩
  · show (g.insertSlot b pos edge).edgeIdMap e.eid = _
    by_cases hx : e.eid = edge.eid
    · obtain ⟨rfl, rfl⟩ := hMoved.unique hs hNew hx
      rw [hMap, hx, Function.update_self]
    · rw [hMap, Function.update_of_ne hx]
      exact hMoved.mapped hs hx
  · have hm : (g.insertSlot b pos edge).edgeIdMap eid = some (b', o') := hm
    rw [hMap] at hm
    by_cases hx : eid = edge.eid
    · rw [hx, Function.update_self] at hm
      obtain ⟨rfl, rfl⟩ := Prod.mk.inj (Option.some.inj hm)
      exact ⟨edge, hNew, hx.symm⟩
    · rw [Function.update_of_ne hx] at hm
      exact hMoved.located hx hm
  · show e.eid < g.edgeIdCounter + 1
    by_cases hx : e.eid = edge.eid
    · omega
    · rcases hMoved.back hs hx with ⟨rfl, hStart⟩ | hOld
      · have hSlot := (hMoved.block o').symm.trans hs
        rw [List.getElem?_insertIdx_of_gt (by omega)] at hSlot
        have := hw.eid_lt ((slotAt_of_block hb).trans hSlot)
        omega
      · have := hw.eid_lt hOld
        omega
  · obtain ⟨block₀, hb₀, rfl⟩ := getElem?_modify_of (g := g) hb'
    refine hw.pre_lt hb₀ ?_
    split at hp <;> exact hp
  · show b' < (g.edges.modify b _).length
    rw [List.length_modify]
    exact hw.start_lt hv hStart

/-- An edge whose slot is closed leaves the map. -/
theorem WellFormed.removeSlot (hw : g.WellFormed) {b o : Nat} {block : EdgeBlock}
    {edge : OlapStorageEdge} (hb : g.edges[b]? = some block) (ho : block.edges[o]? = some edge) :
    (g.removeSlot b o edge.eid).WellFormed := by
  have hMoved := moved_removeSlot hw hb ho
  have hMap := removeSlot_map hb o edge.eid
  -- the edge taken out is in no slot any more
  have hGone : ∀ {b' o' e}, (g.removeSlot b o edge.eid).slotAt b' o' = some e →
      ∃ p, g.slotAt b' p = some e ∧ e.eid ≠ edge.eid := by
    intro b' o' e hs
    obtain ⟨p, hOld, hAt, -⟩ := removeSlot_back hb hs
    refine ⟨p, hOld, fun hEq => ?_⟩
    obtain ⟨hSame, hOff⟩ := hw.slot_unique hOld ((slotAt_of_block hb).trans ho) hEq
    have hOff' := hAt hSame
    split at hOff'
    · omega
    · omega
  refine ⟨fun {b' o' e} hs => ?_, fun {eid b' o'} hm => ?_, fun hs => hMoved.pos hs,
    fun {b' o' e} hs => ?_, hw.counter_pos, fun {b' block' p} hb' hp => ?_,
    fun {v b'} hv hStart => ?_⟩
  · obtain ⟨-, -, hx⟩ := hGone hs
    rw [hMap, Function.update_of_ne hx]
    exact hMoved.mapped hs hx
  · rw [hMap] at hm
    by_cases hx : eid = edge.eid
    · rw [hx, Function.update_self] at hm
      cases hm
    · rw [Function.update_of_ne hx] at hm
      exact hMoved.located hx hm
  · obtain ⟨p, hOld, -⟩ := hGone hs
    exact hw.eid_lt hOld
  · obtain ⟨block₀, hb₀, rfl⟩ := getElem?_modify_of (g := g) hb'
    refine hw.pre_lt hb₀ ?_
    split at hp <;> exact hp
  · show b' < (g.edges.modify b _).length
    rw [List.length_modify]
    exact hw.start_lt hv hStart

-- ----
-- The small writes of a call
-- ----

/-- A write to the edges, the blocks, the columns or the record of a vertex. -/
inductive Edit : OlapStorage V → OlapStorage V → Prop
  | columns (g : OlapStorage V) (columns : List (PropertyColumn V)) :
      Edit g { g with propertyColumns := columns }
  | locate {g : OlapStorage V} {b o : Nat} {edge : OlapStorageEdge}
      (hs : g.slotAt b o = some edge) :
      Edit g { g with edgeIdMap := Function.update g.edgeIdMap edge.eid (some (b, o)) }
  | overwrite (g : OlapStorage V) (b o : Nat) {f : OlapStorageEdge → OlapStorageEdge}
      (m : Nat → Nat) (hf : ∀ edge, (f edge).eid = edge.eid) :
      Edit g { g with edges := g.edges.modify b fun block =>
        { block with edges := block.edges.modify o f, minTs := m block.minTs } }
  | record {g : OlapStorage V} {i : Nat} {vertex : OlapVertex V}
      (hVertex : g.vertices[i]? = some vertex) (properties : List V) :
      Edit g { g with vertices := g.vertices.set i { vertex with properties := properties } }
  | pushBlock {g : OlapStorage V} {i : Nat} {vertex : OlapVertex V} {srcId : Nat} (minTs : Nat)
      (hId : g.denseIdMap srcId = some i) (hVertex : g.vertices[i]? = some vertex) :
      Edit g (g.pushBlock i vertex.blockOffset srcId minTs)
  | insertSlot {g : OlapStorage V} {b pos : Nat} {block : EdgeBlock}
      (hb : g.edges[b]? = some block) (hPos : pos ≤ block.edges.length) (label : Option Nat)
      (dst ts : Nat) :
      Edit g ({ g with edgeIdCounter := g.edgeIdCounter + 1 }.insertSlot b pos
        ⟨g.edgeIdCounter, label, dst, ts⟩)
  | removeSlot {g : OlapStorage V} {b o : Nat} {block : EdgeBlock} {edge : OlapStorageEdge}
      (hb : g.edges[b]? = some block) (ho : block.edges[o]? = some edge) :
      Edit g (g.removeSlot b o edge.eid)
  | emptyBlock {g : OlapStorage V} {b : Nat} {block : EdgeBlock} {edge : OlapStorageEdge}
      (hb : g.edges[b]? = some block) (hOne : block.edges = [edge]) :
      Edit g { g with
        edges := g.edges.set b { block with isTombstone := true, edges := [] }
        edgeIdMap := Function.update g.edgeIdMap edge.eid none }

/-- A sequence of writes. -/
abbrev Edits : OlapStorage V → OlapStorage V → Prop := Relation.ReflTransGen Edit

/-! ## The map fits the slots after each write -/

/-- The invariant looks at slots, map, back pointers and offsets only. -/
theorem WellFormed.congr (hw : g.WellFormed) (hSlots : ∀ b o, g'.slotAt b o = g.slotAt b o)
    (hMap : g'.edgeIdMap = g.edgeIdMap) (hCounter : g'.edgeIdCounter = g.edgeIdCounter)
    (hPre : ∀ {b : Nat} {block : EdgeBlock} {p : Nat}, g'.edges[b]? = some block →
      block.preBlockIndex = some p → p < b)
    (hStart : ∀ {v : OlapVertex V} {b : Nat}, v ∈ g'.vertices → v.blockOffset = some b →
      b < g'.edges.length) : g'.WellFormed where
  mapped hs := by
    rw [hMap]
    exact hw.mapped (hSlots _ _ ▸ hs)
  located hm := by
    rw [hMap] at hm
    obtain ⟨edge, hs, hEid⟩ := hw.located hm
    exact ⟨edge, (hSlots _ _).trans hs, hEid⟩
  eid_pos hs := hw.eid_pos (hSlots _ _ ▸ hs)
  eid_lt hs := hCounter ▸ hw.eid_lt (hSlots _ _ ▸ hs)
  counter_pos := hCounter ▸ hw.counter_pos
  pre_lt := hPre
  start_lt := hStart

theorem WellFormed.new (n : Nat) : (OlapStorage.new n : OlapStorage V).WellFormed where
  mapped hs := nomatch hs
  located hm := nomatch hm
  eid_pos hs := nomatch hs
  eid_lt hs := nomatch hs
  counter_pos := Nat.one_pos
  pre_lt hb := nomatch hb
  start_lt hv := nomatch hv

theorem slotAt_pushBlock (g : OlapStorage V) (i : Nat) (pre : Option Nat) (srcId minTs b o : Nat) :
    (g.pushBlock i pre srcId minTs).slotAt b o = g.slotAt b o := by
  show ((g.edges ++ [_])[b]?).bind _ = (g.edges[b]?).bind _
  rw [List.getElem?_append]
  split
  · rfl
  · rename_i hLt
    rw [List.getElem?_eq_none (Nat.le_of_not_lt hLt)]
    cases hIdx : b - g.edges.length with
    | zero => rfl
    | succ n => rfl

theorem WellFormed.pushBlock (hw : g.WellFormed) {i srcId minTs : Nat} {vertex : OlapVertex V}
    (hVertex : g.vertices[i]? = some vertex) :
    (g.pushBlock i vertex.blockOffset srcId minTs).WellFormed := by
  have hMem : vertex ∈ g.vertices := List.mem_iff_getElem?.mpr ⟨i, hVertex⟩
  refine hw.congr (slotAt_pushBlock g i _ srcId minTs) rfl rfl (fun {b block p} hb hp => ?_)
    fun {v b} hv hb => ?_
  · have hb : (g.edges ++ [_])[b]? = some block := hb
    rcases getElem?_concat_cases hb with hb | ⟨rfl, rfl⟩
    · exact hw.pre_lt hb hp
    · exact hw.start_lt hMem hp
  · show b < (g.edges ++ [_]).length
    rw [List.length_append, List.length_singleton]
    obtain ⟨j, hj⟩ := List.mem_iff_getElem?.mp hv
    have hj : (g.vertices.modify i _)[j]? = some v := hj
    rw [List.getElem?_modify] at hj
    obtain ⟨v₀, hv₀, rfl⟩ := Option.map_eq_some_iff.mp hj
    split at hb
    · cases hb
      omega
    · have := hw.start_lt (List.mem_iff_getElem?.mpr ⟨j, hv₀⟩) hb
      omega

/-- Removing the last edge of a block empties it and marks it as a tombstone. -/
theorem WellFormed.emptyBlock (hw : g.WellFormed) {b : Nat} {block : EdgeBlock}
    {edge : OlapStorageEdge} (hb : g.edges[b]? = some block) (hOne : block.edges = [edge]) :
    WellFormed { g with
      edges := g.edges.set b { block with isTombstone := true, edges := [] }
      edgeIdMap := Function.update g.edgeIdMap edge.eid none } := by
  have hLt : b < g.edges.length := (List.getElem?_eq_some_iff.mp hb).1
  have hIn : g.slotAt b 0 = some edge := by
    rw [slotAt_of_block hb, hOne]
    rfl
  have hBlock : ∀ b', (g.edges.set b { block with isTombstone := true, edges := [] })[b']? =
      if b = b' then some { block with isTombstone := true, edges := [] } else g.edges[b']? := by
    intro b'
    rw [List.getElem?_set]
    simp only [hLt, if_true]
  have hSlot : ∀ b' o', slotAt { g with
      edges := g.edges.set b { block with isTombstone := true, edges := [] }
      edgeIdMap := Function.update g.edgeIdMap edge.eid none } b' o' =
      if b = b' then none else g.slotAt b' o' := by
    intro b' o'
    unfold slotAt
    simp only [hBlock]
    split <;> rfl
  refine ⟨fun {b' o' e} hs => ?_, fun {eid b' o'} hm => ?_, fun {b' o' e} hs => ?_,
    fun {b' o' e} hs => ?_, hw.counter_pos, fun {b' block' p} hb' hp => ?_,
    fun {v b'} hv hStart => ?_⟩
  · rw [hSlot] at hs
    split at hs
    · cases hs
    · rename_i hNe
      show Function.update g.edgeIdMap edge.eid none e.eid = _
      rw [Function.update_of_ne fun hEq => hNe (hw.slot_unique hIn hs hEq.symm).1]
      exact hw.mapped hs
  · have hm : Function.update g.edgeIdMap edge.eid none eid = some (b', o') := hm
    by_cases hx : eid = edge.eid
    · rw [hx, Function.update_self] at hm
      cases hm
    · rw [Function.update_of_ne hx] at hm
      obtain ⟨e, hs, rfl⟩ := hw.located hm
      refine ⟨e, ?_, rfl⟩
      rw [hSlot]
      split
      · rename_i hSame
        subst hSame
        -- the block held that one edge
        rw [slotAt_of_block hb, hOne] at hs
        cases o' with
        | zero => exact absurd (congrArg OlapStorageEdge.eid (Option.some.inj hs)).symm hx
        | succ n => cases hs
      · exact hs
  · rw [hSlot] at hs
    split at hs
    · cases hs
    · exact hw.eid_pos hs
  · rw [hSlot] at hs
    split at hs
    · cases hs
    · exact hw.eid_lt hs
  · have hb' : (g.edges.set b _)[b']? = some block' := hb'
    rw [hBlock] at hb'
    split at hb'
    · rename_i hSame
      cases hb'
      exact hSame ▸ hw.pre_lt hb hp
    · exact hw.pre_lt hb' hp
  · show b' < (g.edges.set b _).length
    rw [List.length_set]
    exact hw.start_lt hv hStart

theorem WellFormed.overwrite (hw : g.WellFormed) {b o : Nat} {f : OlapStorageEdge → OlapStorageEdge}
    {m : Nat → Nat} (hf : ∀ edge, (f edge).eid = edge.eid) :
    WellFormed { g with edges := g.edges.modify b fun block =>
      { block with edges := block.edges.modify o f, minTs := m block.minTs } } := by
  have hOver : Overwrites g { g with edges := g.edges.modify b fun block =>
      { block with edges := block.edges.modify o f, minTs := m block.minTs } } b o f
      (fun _ l => l) m := by
    refine ⟨rfl, fun j b' o' => ?_, rfl, .of_columns rfl, rfl, rfl, rfl, rfl⟩
    split
    · rename_i h
      rw [h.1, h.2]
      rfl
    · rfl
  exact hOver.wellFormed hw hf

/-- A vertex whose record is written keeps its id and its block. -/
theorem getElem?_record {i : Nat} {vertex : OlapVertex V} (hVertex : g.vertices[i]? = some vertex)
    (properties : List V) (j : Nat) :
    (g.vertices.set i { vertex with properties := properties })[j]? =
      (g.vertices[j]?).map fun v => if i = j then { v with properties := properties } else v := by
  have hLt := (List.getElem?_eq_some_iff.mp hVertex).1
  rw [List.getElem?_set]
  by_cases hAt : i = j
  · subst hAt
    rw [if_pos rfl, if_pos hLt, hVertex, Option.map_some, if_pos rfl]
  · rw [if_neg hAt]
    cases g.vertices[j]? <;> simp [hAt]

theorem WellFormed.record (hw : g.WellFormed) {i : Nat} {vertex : OlapVertex V}
    (hVertex : g.vertices[i]? = some vertex) (properties : List V) :
    WellFormed { g with
      vertices := g.vertices.set i { vertex with properties := properties } } := by
  refine hw.congr (fun _ _ => rfl) rfl rfl hw.pre_lt fun {v b} hv hStart => ?_
  obtain ⟨j, hj⟩ := List.mem_iff_getElem?.mp hv
  have hj : (g.vertices.set i _)[j]? = some v := hj
  rw [getElem?_record hVertex] at hj
  obtain ⟨v₀, hv₀, rfl⟩ := Option.map_eq_some_iff.mp hj
  refine hw.start_lt (List.mem_iff_getElem?.mpr ⟨j, hv₀⟩) ?_
  split at hStart <;> exact hStart

theorem WellFormed.edit (hw : g.WellFormed) (h : Edit g g') : g'.WellFormed := by
  cases h with
  | columns columns => exact hw.congr (fun _ _ => rfl) rfl rfl hw.pre_lt hw.start_lt
  | locate hs =>
    have hSame : Function.update g.edgeIdMap _ (some _) = g.edgeIdMap :=
      Function.update_eq_self_iff.mpr (hw.mapped hs).symm
    rw [hSame]
    exact hw
  | overwrite b o m hf => exact hw.overwrite hf
  | record hVertex properties => exact hw.record hVertex properties
  | pushBlock minTs hId hVertex => exact hw.pushBlock hVertex
  | insertSlot hb hPos label dst ts => exact hw.insertSlot hb hPos label dst ts
  | removeSlot hb ho => exact hw.removeSlot hb ho
  | emptyBlock hb hOne => exact hw.emptyBlock hb hOne

theorem WellFormed.edits (hw : g.WellFormed) (h : Edits g g') : g'.WellFormed := by
  induction h with
  | refl => exact hw
  | tail _ hEdit ih => exact ih.edit hEdit

end OlapStorage

end Olap

end MiniGU
