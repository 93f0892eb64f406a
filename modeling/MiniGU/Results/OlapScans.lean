import Mathlib.Data.List.Nodup
import Mathlib.Data.List.Perm.Subperm
import MiniGU.Invariant.OlapChains

/-!
# Scans and point reads of the AP store

`iter_edges_at_ts` and `iter_adjacency_at_ts` against `get_edge_at_ts`. The edge scan
passes over the same slots as a point read; the adjacency scan takes a tombstone-valued
slot for the end of its block and loses the edges behind it.

* `iterEdgesAtTs_map`, `adjacencyItems_map`: the scans as point reads of a list of ids.
-/

namespace MiniGU

namespace Olap

variable {V : Type}

namespace OlapStorage

variable {g : OlapStorage V} {txn : Reader}

-- ----
-- Agreement
-- ----

/-- The edge scan yields the edges that point reads find, each once. -/
def ScanAgrees (g : OlapStorage V) (txn : Reader) : Prop :=
  ∃ eids : List Nat, eids.Nodup ∧
    (∀ eid, eid ∈ eids ↔ ∃ e, g.getEdgeAtTs txn eid = some (some e)) ∧
    eids.map (g.getEdgeAtTs txn) = (g.iterEdgesAtTs txn).map (Option.map some)

/-- What the adjacency iterator of a vertex yields; nothing when the call is refused. -/
def adjacencyItems (g : OlapStorage V) (txn : Reader) (vid : Nat) : List (Option (OlapEdge V)) :=
  match g.iterAdjacencyAtTs txn vid with
  | .ok items => items
  | .error _ => []

/-- The adjacency scan yields the edges of a source that point reads find, each once. -/
def AdjacencyAgrees (g : OlapStorage V) (txn : Reader) (vid : Nat) : Prop :=
  ∃ eids : List Nat, eids.Nodup ∧
    (∀ eid, eid ∈ eids ↔ ∃ e, g.getEdgeAtTs txn eid = some (some e) ∧ e.srcId = vid) ∧
    eids.map (g.getEdgeAtTs txn) = (g.adjacencyItems txn vid).map (Option.map some)

/-- A slot the reader is shown: no tombstone and visibly stamped, in a block that is
neither a tombstone nor passed over. -/
def Shown (g : OlapStorage V) (txn : Reader) (b o : Nat) (edge : OlapStorageEdge) : Prop :=
  ∃ block, g.edges[b]? = some block ∧ block.isTombstone = false ∧
    block.hiddenFrom txn = false ∧ block.edges[o]? = some edge ∧ edge.isTombstone = false ∧
    txn.sees edge.commitTs = true

/-- No slot shown has a property value behind a column without one. -/
def Gapless (g : OlapStorage V) (txn : Reader) : Prop :=
  ∀ b o edge, g.Shown txn b o edge → ∀ i j, i < j → j < g.propertyColumns.length →
    (propValueVisibleAt (g.versions j b o) txn).isSome →
    (propValueVisibleAt (g.versions i b o) txn).isSome

/-- No slot shown stands behind a slot with the value of a tombstone. -/
def Uncut (g : OlapStorage V) (txn : Reader) : Prop :=
  ∀ b o edge, g.Shown txn b o edge → ∀ o' < o, ∀ edge', g.slotAt b o' = some edge' →
    edge'.isTombstone = false

end OlapStorage

-- ----
-- Gathering the properties
-- ----

theorem shownProps_succ (n : Nat) (visible : Nat → Option V) :
    shownProps (n + 1) visible = (shownProps n visible).bind fun props =>
      match visible n with
      | some val => setProp props n (some val)
      | none => some props := by
  unfold shownProps
  rw [List.range_succ, List.foldlM_append]
  refine bind_congr fun props => ?_
  rw [List.foldlM_cons]
  exact bind_pure _

theorem shownProps_length {n : Nat} {visible : Nat → Option V} {props : List (Option V)}
    (h : shownProps n visible = some props) :
    props.length ≤ n ∧ (n ≤ props.length ↔ ∀ i < n, (visible i).isSome) := by
  induction n generalizing props with
  | zero =>
    obtain rfl : [] = props := Option.some.inj h
    exact ⟨Nat.le_refl 0, fun _ i hi => absurd hi (Nat.not_lt_zero i), fun _ => Nat.le_refl 0⟩
  | succ n ih =>
    rw [shownProps_succ] at h
    obtain ⟨props₀, hInit, hLast⟩ := Option.bind_eq_some_iff.mp h
    obtain ⟨hLe, hFull⟩ := ih hInit
    cases hVisible : visible n with
    | none =>
      rw [hVisible] at hLast
      obtain rfl := Option.some.inj hLast
      refine ⟨by omega, fun hLong => by omega, fun hAll => ?_⟩
      have hOne := hAll n (Nat.lt_succ_self n)
      rw [hVisible] at hOne
      cases hOne
    | some val =>
      rw [hVisible] at hLast
      have hLast : setProp props₀ n (some val) = some props := hLast
      unfold setProp at hLast
      split at hLast
      · rename_i hAt
        cases hLast
        have hLength := List.length_insertIdx_of_le_length hAt (some val)
        refine ⟨by omega, fun _ i hi => ?_, fun _ => by omega⟩
        rcases Nat.lt_succ_iff_lt_or_eq.mp hi with hLt | rfl
        · exact hFull.mp hAt i hLt
        · rw [hVisible]
          rfl
      · cases hLast

/-- The gathering goes through when no value is visible behind a column without one. -/
theorem shownProps_isSome {n : Nat} {visible : Nat → Option V} :
    (shownProps n visible).isSome ↔
      ∀ i j, i < j → j < n → (visible j).isSome → (visible i).isSome := by
  induction n with
  | zero => exact ⟨fun _ i j _ hj => absurd hj (Nat.not_lt_zero j), fun _ => rfl⟩
  | succ n ih =>
    rw [shownProps_succ]
    cases hInit : shownProps n visible with
    | none =>
      rw [hInit] at ih
      refine iff_of_false (fun h => nomatch h) fun hAll => ?_
      exact nomatch ih.mpr fun i j hij hj => hAll i j hij (Nat.lt_succ_of_lt hj)
    | some props =>
      rw [hInit] at ih
      have hBelow := ih.mp rfl
      obtain ⟨-, hFull⟩ := shownProps_length hInit
      rw [Option.bind_some]
      cases hVisible : visible n with
      | none =>
        refine iff_of_true rfl fun i j hij hj hSome => ?_
        rcases Nat.lt_succ_iff_lt_or_eq.mp hj with hLt | rfl
        · exact hBelow i j hij hLt hSome
        · rw [hVisible] at hSome
          cases hSome
      | some val =>
        have hStep : (setProp props n (some val)).isSome ↔ n ≤ props.length := by
          unfold setProp
          split
          · rename_i hLe
            exact iff_of_true rfl hLe
          · rename_i hLe
            exact iff_of_false (fun h => nomatch h) hLe
        refine (hStep.trans hFull).trans ⟨fun hAll i j hij hj hSome => ?_, fun hAll i hi => ?_⟩
        · rcases Nat.lt_succ_iff_lt_or_eq.mp hj with hLt | rfl
          · exact hBelow i j hij hLt hSome
          · exact hAll i hij
        · refine hAll i n hi (Nat.lt_succ_self n) ?_
          rw [hVisible]
          rfl

namespace OlapStorage

variable {g : OlapStorage V} {txn : Reader}

-- ----
-- Point reads by slots
-- ----

/-- A point read that finds the edge, or panics on its properties. -/
def answers (g : OlapStorage V) (txn : Reader) (eid : Nat) : Bool :=
  match g.getEdgeAtTs txn eid with
  | some none => false
  | _ => true

theorem WellFormed.getEdgeAtTs_slot (hw : g.WellFormed) (txn : Reader) {b o : Nat}
    {block : EdgeBlock} {edge : OlapStorageEdge} (hb : g.edges[b]? = some block) (ho : block.edges[o]? = some edge) :
    g.getEdgeAtTs txn edge.eid =
      if block.isTombstone then some none
      else if block.hiddenFrom txn then some none
      else if edge.isTombstone then some none
      else if txn.sees edge.commitTs then (g.edgeWithProps txn block b edge o).map some
      else some none := by
  unfold getEdgeAtTs
  rw [hw.mapped (slotAt_eq_some.mpr ⟨block, hb, ho⟩)]
  simp only [hb, ho, ne_eq, not_true_eq_false, if_false]

theorem WellFormed.getEdgeAtTs_shown (hw : g.WellFormed) {b o : Nat} {block : EdgeBlock}
    {edge : OlapStorageEdge} (hb : g.edges[b]? = some block) (h : g.Shown txn b o edge) :
    g.getEdgeAtTs txn edge.eid = (g.edgeWithProps txn block b edge o).map some := by
  obtain ⟨block', hb', hLive, hOpen, ho, hEdge, hSees⟩ := h
  obtain rfl := Option.some.inj (hb.symm.trans hb')
  rw [hw.getEdgeAtTs_slot txn hb ho, hLive, hOpen, hEdge, hSees]
  rfl

/-- A point read finds exactly the edges that the reader is shown. -/
theorem WellFormed.answers_iff (hw : g.WellFormed) {eid : Nat} :
    g.answers txn eid = true ↔ ∃ b o edge, g.Shown txn b o edge ∧ edge.eid = eid := by
  constructor
  · intro h
    cases hm : g.edgeIdMap eid with
    | none =>
      unfold answers getEdgeAtTs at h
      rw [hm] at h
      cases h
    | some loc =>
      obtain ⟨b, o⟩ := loc
      obtain ⟨edge, hs, rfl⟩ := hw.located hm
      obtain ⟨block, hb, ho⟩ := slotAt_eq_some.mp hs
      refine ⟨b, o, edge, ⟨block, hb, ?_⟩, rfl⟩
      unfold answers at h
      rw [hw.getEdgeAtTs_slot txn hb ho] at h
      by_cases hTomb : block.isTombstone = true
      · simp [hTomb] at h
      by_cases hHidden : block.hiddenFrom txn = true
      · simp [hHidden] at h
      by_cases hEdge : edge.isTombstone = true
      · simp [hEdge] at h
      by_cases hSees : txn.sees edge.commitTs = true
      · simp only [Bool.not_eq_true] at hTomb hHidden hEdge
        exact ⟨hTomb, hHidden, ho, hEdge, hSees⟩
      · simp [hSees] at h
  · rintro ⟨b, o, edge, hShown, rfl⟩
    obtain ⟨block, hb, -⟩ := id hShown
    unfold answers
    rw [hw.getEdgeAtTs_shown hb hShown]
    cases g.edgeWithProps txn block b edge o <;> rfl

theorem edgeWithProps_isSome {b o : Nat} (block : EdgeBlock) (edge : OlapStorageEdge) :
    (g.edgeWithProps txn block b edge o).isSome ↔
      ∀ i j, i < j → j < g.propertyColumns.length →
        (propValueVisibleAt (g.versions j b o) txn).isSome →
        (propValueVisibleAt (g.versions i b o) txn).isSome := by
  unfold edgeWithProps
  rw [Option.isSome_map, propertiesAt_eq, shownProps_isSome]

/-- Without gaps every read that answers returns an edge, with its block's source. -/
theorem WellFormed.found_iff (hw : g.WellFormed) (hGap : g.Gapless txn) {eid vid : Nat} :
    (∃ e, g.getEdgeAtTs txn eid = some (some e) ∧ e.srcId = vid) ↔
      ∃ b o edge block, g.Shown txn b o edge ∧ edge.eid = eid ∧ g.edges[b]? = some block ∧
        block.srcId = vid := by
  constructor
  · rintro ⟨e, he, hSrc⟩
    have hAnswers : g.answers txn eid = true := by
      unfold answers
      rw [he]
    obtain ⟨b, o, edge, hShown, rfl⟩ := hw.answers_iff.mp hAnswers
    obtain ⟨block, hb, -⟩ := id hShown
    refine ⟨b, o, edge, block, hShown, rfl, hb, ?_⟩
    rw [hw.getEdgeAtTs_shown hb hShown] at he
    obtain ⟨e', he', hEq⟩ := Option.map_eq_some_iff.mp he
    cases hEq
    obtain ⟨props, -, rfl⟩ := Option.map_eq_some_iff.mp he'
    exact hSrc
  · rintro ⟨b, o, edge, block, hShown, rfl, hb, rfl⟩
    have hSome := (edgeWithProps_isSome block edge).mpr (hGap b o edge hShown)
    obtain ⟨e, he⟩ := Option.isSome_iff_exists.mp hSome
    refine ⟨e, ?_, ?_⟩
    · rw [hw.getEdgeAtTs_shown hb hShown, he]
      rfl
    · obtain ⟨props, -, rfl⟩ := Option.map_eq_some_iff.mp he
      rfl

-- ----
-- The scans as point reads
-- ----

/-- The items of a scan are what the point reads of the same edges answer. -/
theorem WellFormed.blockItems_map (hw : g.WellFormed) {b : Nat} {block : EdgeBlock}
    (hb : g.edges[b]? = some block) (eids : List Nat) (hIn : ∀ eid ∈ eids, eid ∈ block.info.eids) :
    (if block.info.isTombstone then []
      else if block.info.hiddenFrom txn then []
      else eids.filterMap (g.table.item txn block.info)).map (Option.map some) =
      (eids.filter (g.answers txn)).map (g.getEdgeAtTs txn) := by
  induction eids with
  | nil =>
    split
    · rfl
    · split <;> rfl
  | cons eid eids ih =>
    have hTail := ih fun eid' h => hIn eid' (List.mem_cons_of_mem _ h)
    obtain ⟨edge, hMem, rfl⟩ := List.mem_map.mp (hIn eid (List.mem_cons_self ..))
    obtain ⟨o, ho⟩ := List.mem_iff_getElem?.mp hMem
    have hGet := hw.getEdgeAtTs_slot txn hb ho
    have hItem := hw.item_eq txn hb ho
    by_cases hTomb : block.isTombstone = true
    · have hInfo : block.info.isTombstone = true := hTomb
      have hNot : g.answers txn edge.eid = false := by
        unfold answers
        rw [hGet, if_pos hTomb]
      rw [if_pos hInfo] at hTail ⊢
      rw [List.filter_cons_of_neg (by rw [hNot]; exact Bool.false_ne_true)]
      exact hTail
    by_cases hHidden : block.hiddenFrom txn = true
    · have hInfo : ¬ block.info.isTombstone = true := hTomb
      have hInfo' : block.info.hiddenFrom txn = true := hHidden
      have hNot : g.answers txn edge.eid = false := by
        unfold answers
        rw [hGet, if_neg hTomb, if_pos hHidden]
      rw [if_neg hInfo, if_pos hInfo'] at hTail ⊢
      rw [List.filter_cons_of_neg (by rw [hNot]; exact Bool.false_ne_true)]
      exact hTail
    have hInfo : ¬ block.info.isTombstone = true := hTomb
    have hInfo' : ¬ block.info.hiddenFrom txn = true := hHidden
    rw [if_neg hInfo, if_neg hInfo'] at hTail ⊢
    rw [if_neg hTomb, if_neg hHidden] at hGet
    by_cases hShown : edge.isTombstone = false ∧ txn.sees edge.commitTs = true
    · rw [hShown.1, hShown.2] at hGet hItem
      have hAnswers : g.answers txn edge.eid = true := by
        unfold answers
        rw [hGet]
        cases g.edgeWithProps txn block b edge o <;> rfl
      rw [List.filterMap_cons_some hItem, List.filter_cons_of_pos hAnswers, List.map_cons,
        List.map_cons, hTail, hGet]
      rfl
    · have hNone : g.table.item txn block.info edge.eid = none := by
        rw [hItem]
        split
        · rfl
        · rename_i hEdge
          rw [if_neg fun hSees => hShown ⟨by simpa using hEdge, hSees⟩]
      have hNot : g.answers txn edge.eid = false := by
        unfold answers
        rw [hGet]
        split
        · rfl
        · rename_i hAny
          exfalso
          refine hAny ?_
          split
          · rfl
          · rename_i hEdge
            rw [if_neg fun hSees => hShown ⟨by simpa using hEdge, hSees⟩]
      rw [List.filterMap_cons_none hNone,
        List.filter_cons_of_neg (by rw [hNot]; exact Bool.false_ne_true)]
      exact hTail

/-- The ids of all slots, block by block. -/
def allEids (g : OlapStorage V) : List Nat := g.edges.flatMap fun block => block.info.eids

theorem WellFormed.iterEdgesAtTs_map (hw : g.WellFormed) (txn : Reader) :
    (g.iterEdgesAtTs txn).map (Option.map some) =
      (g.allEids.filter (g.answers txn)).map (g.getEdgeAtTs txn) := by
  rw [hw.iterEdgesAtTs_table]
  unfold EdgeTable.scan allEids
  rw [show g.table.blocks = g.edges.map EdgeBlock.info from rfl, List.flatMap_map, List.map_flatMap,
    List.filter_flatMap, List.map_flatMap]
  refine List.flatMap_congr fun block hBlock => ?_
  obtain ⟨b, hb⟩ := List.mem_iff_getElem?.mp hBlock
  exact hw.blockItems_map hb _ fun _ h => h

theorem WellFormed.eids_nodup (hw : g.WellFormed) {b : Nat} {block : EdgeBlock}
    (hb : g.edges[b]? = some block) : block.info.eids.Nodup := by
  refine List.nodup_iff_getElem?_ne_getElem?.mpr fun i j hij hj => ?_
  intro hEq
  have hLength : block.info.eids.length = block.edges.length := List.length_map _
  have hi : i < block.edges.length := by omega
  have hSlot : ∀ {k} (hk : k < block.edges.length), g.slotAt b k = some block.edges[k] := fun hk =>
    slotAt_eq_some.mpr ⟨block, hb, List.getElem?_eq_getElem hk⟩
  have hEid : block.edges[i].eid = block.edges[j].eid := by
    have hEq : (block.edges.map (·.eid))[i]? = (block.edges.map (·.eid))[j]? := hEq
    rw [List.getElem?_map, List.getElem?_map, List.getElem?_eq_getElem hi,
      List.getElem?_eq_getElem (hLength ▸ hj)] at hEq
    exact Option.some.inj hEq
  have := (hw.slot_unique (hSlot hi) (hSlot (hLength ▸ hj)) hEid).2
  omega

theorem mem_eids {b eid : Nat} {block : EdgeBlock} (hb : g.edges[b]? = some block)
    (h : eid ∈ block.info.eids) : ∃ o edge, g.slotAt b o = some edge ∧ edge.eid = eid := by
  obtain ⟨edge, hMem, rfl⟩ := List.mem_map.mp h
  obtain ⟨o, ho⟩ := List.mem_iff_getElem?.mp hMem
  exact ⟨o, edge, slotAt_eq_some.mpr ⟨block, hb, ho⟩, rfl⟩

theorem eid_mem {o : Nat} {block : EdgeBlock} {edge : OlapStorageEdge}
    (ho : block.edges[o]? = some edge) : edge.eid ∈ block.info.eids :=
  List.mem_map_of_mem (List.mem_iff_getElem?.mpr ⟨o, ho⟩)

theorem WellFormed.eids_disjoint (hw : g.WellFormed) {b b' : Nat} {block block' : EdgeBlock}
    (hb : g.edges[b]? = some block) (hb' : g.edges[b']? = some block') (hNe : b ≠ b') :
    block.info.eids.Disjoint block'.info.eids := by
  intro eid h h'
  obtain ⟨o, edge, hs, hEid⟩ := mem_eids hb h
  obtain ⟨o', edge', hs', hEid'⟩ := mem_eids hb' h'
  exact hNe (hw.slot_unique hs hs' (hEid.trans hEid'.symm)).1

theorem WellFormed.allEids_nodup (hw : g.WellFormed) : g.allEids.Nodup := by
  unfold allEids
  rw [List.nodup_flatMap]
  refine ⟨fun block hBlock => ?_, ?_⟩
  · obtain ⟨b, hb⟩ := List.mem_iff_getElem?.mp hBlock
    exact hw.eids_nodup hb
  · refine List.pairwise_iff_getElem.mpr fun i j hi hj hij => ?_
    exact hw.eids_disjoint (List.getElem?_eq_getElem hi) (List.getElem?_eq_getElem hj)
      (Nat.ne_of_lt hij)

theorem WellFormed.mem_allEids (hw : g.WellFormed) {eid : Nat} (h : g.answers txn eid = true) :
    eid ∈ g.allEids := by
  obtain ⟨b, o, edge, ⟨block, hb, -, -, ho, -, -⟩, rfl⟩ := hw.answers_iff.mp h
  exact List.mem_flatMap.mpr ⟨block, List.mem_iff_getElem?.mpr ⟨b, hb⟩, eid_mem ho⟩

-- ----
-- The chain of a vertex
-- ----

/-- The blocks on a chain, with their places. -/
def chainBlocks (g : OlapStorage V) : Nat → Option Nat → List (Nat × EdgeBlock)
  | 0, _ => []
  | _, none => []
  | fuel + 1, some b =>
    match g.edges[b]? with
    | none => []
    | some block => (b, block) :: g.chainBlocks fuel block.preBlockIndex

theorem chain_eq (fuel : Nat) (start : Option Nat) :
    g.table.chain fuel start = (g.chainBlocks fuel start).map fun p => p.2.info := by
  induction fuel generalizing start with
  | zero => rfl
  | succ fuel ih =>
    cases start with
    | none => rfl
    | some b =>
      unfold EdgeTable.chain chainBlocks
      rw [table_blocks]
      cases g.edges[b]? with
      | none => rfl
      | some block =>
        simp only [Option.map_some, List.map_cons]
        rw [ih]
        rfl

theorem chainBlocks_spec (fuel : Nat) {start : Option Nat} {p : Nat × EdgeBlock}
    (h : p ∈ g.chainBlocks fuel start) :
    g.edges[p.1]? = some p.2 ∧ Reaches g.edges start p.1 := by
  induction fuel generalizing start with
  | zero => cases h
  | succ fuel ih =>
    cases start with
    | none => cases h
    | some b =>
      unfold chainBlocks at h
      cases hb : g.edges[b]? with
      | none =>
        rw [hb] at h
        cases h
      | some block =>
        rw [hb] at h
        rcases List.mem_cons.mp h with rfl | h
        · exact ⟨hb, .here b⟩
        · obtain ⟨hBlock, hReach⟩ := ih h
          exact ⟨hBlock, .back hb hReach⟩

/-- Back pointers lead to the front, so the number of blocks is fuel enough. -/
theorem WellFormed.mem_chainBlocks (hw : g.WellFormed) {fuel b : Nat} {start : Option Nat}
    {block : EdgeBlock} (hStart : ∀ a, start = some a → a < fuel)
    (hReach : Reaches g.edges start b) (hb : g.edges[b]? = some block) :
    (b, block) ∈ g.chainBlocks fuel start := by
  induction hReach generalizing fuel with
  | here b =>
    have := hStart b rfl
    cases fuel with
    | zero => omega
    | succ fuel =>
      unfold chainBlocks
      rw [hb]
      exact List.mem_cons_self ..
  | back ha _ ih =>
    have hLt := hStart _ rfl
    cases fuel with
    | zero => omega
    | succ fuel =>
      unfold chainBlocks
      rw [ha]
      refine List.mem_cons_of_mem _ (ih (fun p hp => ?_) hb)
      have := hw.pre_lt ha hp
      omega

theorem WellFormed.chainBlocks_pairwise (hw : g.WellFormed) (fuel : Nat) (start : Option Nat) :
    (g.chainBlocks fuel start).Pairwise fun p q => p.1 ≠ q.1 := by
  have hBelow : ∀ {start : Option Nat} {b : Nat}, Reaches g.edges start b →
      ∀ n, (∀ a, start = some a → a < n) → b < n := by
    intro start b hReach
    induction hReach with
    | here b => exact fun n hn => hn b rfl
    | back ha _ ih =>
      intro n hn
      refine ih n fun p hp => ?_
      have := hw.pre_lt ha hp
      have := hn _ rfl
      omega
  induction fuel generalizing start with
  | zero => exact List.Pairwise.nil
  | succ fuel ih =>
    cases start with
    | none => exact List.Pairwise.nil
    | some b =>
      unfold chainBlocks
      cases hb : g.edges[b]? with
      | none => exact List.Pairwise.nil
      | some block =>
        refine List.pairwise_cons.mpr ⟨fun q hq => ?_, ih block.preBlockIndex⟩
        have := hBelow (chainBlocks_spec fuel hq).2 b fun p hp => hw.pre_lt hb hp
        show b ≠ q.1
        omega

/-- The ids an adjacency scan looks at: of each block those before its first tombstone. -/
def adjacentEids (g : OlapStorage V) (start : Option Nat) : List Nat :=
  (g.chainBlocks g.edges.length start).flatMap fun p =>
    p.2.info.eids.takeWhile fun eid => !g.table.isTombstone eid

theorem WellFormed.adjacent_map (hw : g.WellFormed) (txn : Reader) (start : Option Nat) :
    (g.table.adjacent txn start).map (Option.map some) =
      ((g.adjacentEids start).filter (g.answers txn)).map (g.getEdgeAtTs txn) := by
  unfold EdgeTable.adjacent adjacentEids
  have hLength : g.table.blocks.length = g.edges.length := List.length_map _
  rw [hLength, chain_eq, List.flatMap_map, List.map_flatMap, List.filter_flatMap, List.map_flatMap]
  refine List.flatMap_congr fun p hp => ?_
  exact hw.blockItems_map (chainBlocks_spec _ hp).1 _ fun _ h => (List.takeWhile_sublist _).mem h

theorem WellFormed.adjacentEids_nodup (hw : g.WellFormed) (start : Option Nat) :
    (g.adjacentEids start).Nodup := by
  unfold adjacentEids
  rw [List.nodup_flatMap]
  refine ⟨fun p hp => ?_, ?_⟩
  · exact (hw.eids_nodup (chainBlocks_spec _ hp).1).sublist (List.takeWhile_sublist _)
  · refine (hw.chainBlocks_pairwise g.edges.length start).imp_of_mem fun hp hq hNe => ?_
    have hDisjoint := hw.eids_disjoint (chainBlocks_spec _ hp).1 (chainBlocks_spec _ hq).1 hNe
    intro eid h h'
    exact hDisjoint ((List.takeWhile_sublist _).mem h) ((List.takeWhile_sublist _).mem h')

/-- Of a block of the chain the scan looks at the ids with no tombstone before them. -/
theorem WellFormed.mem_adjacentEids (hw : g.WellFormed) {start : Option Nat} {b o : Nat}
    {block : EdgeBlock} {edge : OlapStorageEdge} (hStart : ∀ a, start = some a → a < g.edges.length)
    (hb : g.edges[b]? = some block) (ho : block.edges[o]? = some edge) :
    edge.eid ∈ g.adjacentEids start ↔ Reaches g.edges start b ∧
      ∀ o' ≤ o, ∀ edge', block.edges[o']? = some edge' → edge'.isTombstone = false := by
  have hEid : ∀ {o : Nat} {edge : OlapStorageEdge}, block.edges[o]? = some edge →
      block.info.eids[o]? = some edge.eid := by
    intro o edge ho
    show (block.edges.map (·.eid))[o]? = _
    rw [List.getElem?_map, ho]
    rfl
  have hTaken : edge.eid ∈ block.info.eids.takeWhile (fun eid => !g.table.isTombstone eid) ↔
      ∀ o' ≤ o, ∀ edge', block.edges[o']? = some edge' → edge'.isTombstone = false := by
    rw [mem_takeWhile_iff (hw.eids_nodup hb) (hEid ho)]
    constructor
    · intro h o' hLe edge' ho'
      have hLive := h o' hLe edge'.eid (hEid ho')
      rw [hw.isTombstone_eq hb ho'] at hLive
      simpa using hLive
    · intro h o' hLe eid hAt
      have hAt : (block.edges.map (·.eid))[o']? = some eid := hAt
      rw [List.getElem?_map] at hAt
      obtain ⟨edge', ho', rfl⟩ := Option.map_eq_some_iff.mp hAt
      rw [hw.isTombstone_eq hb ho', h o' hLe edge' ho']
      rfl
  constructor
  · intro h
    obtain ⟨⟨b', block'⟩, hp, hIn⟩ := List.mem_flatMap.mp h
    obtain ⟨hb', hReach⟩ := chainBlocks_spec _ hp
    have hMem : edge.eid ∈ block'.info.eids := (List.takeWhile_sublist _).mem hIn
    have hSame : b' = b := by
      by_contra hNe
      exact hw.eids_disjoint hb' hb hNe hMem (eid_mem ho)
    subst hSame
    obtain rfl := Option.some.inj (hb.symm.trans hb')
    exact ⟨hReach, hTaken.mp hIn⟩
  · rintro ⟨hReach, hAll⟩
    exact List.mem_flatMap.mpr ⟨(b, block), hw.mem_chainBlocks hStart hReach hb, hTaken.mpr hAll⟩

-- ----
-- When the scans agree
-- ----

/-- A list of reads that yields what some other list of ids yields, all of them found. -/
theorem eq_of_same_reads {F : Nat → Option (Option (OlapEdge V))} {ids eids : List Nat}
    {P : Nat → Prop} (hIds : ids.Nodup) (hEids : ∀ eid, eid ∈ eids ↔ P eid)
    (hSub : ∀ eid ∈ ids, P eid) (hMap : eids.map F = ids.map F) (eid : Nat) :
    eid ∈ ids ↔ P eid := by
  have hSubperm : ids.Subperm eids := List.subperm_of_subset hIds fun eid h => (hEids eid).mpr (hSub eid h)
  have hLength : eids.length ≤ ids.length := by
    have := congrArg List.length hMap
    simp only [List.length_map] at this
    omega
  rw [← hEids, (hSubperm.perm_of_length_le hLength).mem_iff]

/-- The edge scan agrees with the point reads exactly where no properties have a gap. -/
theorem WellFormed.scanAgrees_iff (hw : g.WellFormed) : g.ScanAgrees txn ↔ g.Gapless txn := by
  have hMapped := hw.iterEdgesAtTs_map txn
  constructor
  · rintro ⟨eids, -, hEids, hMap⟩ b o edge hShown
    have hAnswers := hw.answers_iff.mpr ⟨b, o, edge, hShown, rfl⟩
    have hIn : g.getEdgeAtTs txn edge.eid ∈
        (g.allEids.filter (g.answers txn)).map (g.getEdgeAtTs txn) :=
      List.mem_map_of_mem (List.mem_filter.mpr ⟨hw.mem_allEids hAnswers, hAnswers⟩)
    rw [← hMapped, ← hMap] at hIn
    obtain ⟨eid, hEid, hSame⟩ := List.mem_map.mp hIn
    obtain ⟨e, he⟩ := (hEids eid).mp hEid
    obtain ⟨block, hb, -⟩ := id hShown
    rw [he, hw.getEdgeAtTs_shown hb hShown] at hSame
    obtain ⟨e', he', -⟩ := Option.map_eq_some_iff.mp hSame.symm
    exact (edgeWithProps_isSome block edge).mp
      (Option.isSome_iff_exists.mpr ⟨e', he'⟩)
  · intro hGap
    refine ⟨_, hw.allEids_nodup.filter (g.answers txn), fun eid => ?_, hMapped.symm⟩
    rw [List.mem_filter]
    constructor
    · rintro ⟨-, hAnswers⟩
      obtain ⟨b, o, edge, hShown, rfl⟩ := hw.answers_iff.mp hAnswers
      obtain ⟨block, hb, -⟩ := id hShown
      obtain ⟨e, he, -⟩ := (hw.found_iff hGap).mpr ⟨b, o, edge, block, hShown, rfl, hb, rfl⟩
      exact ⟨e, he⟩
    · rintro ⟨e, he⟩
      have hAnswers : g.answers txn eid = true := by
        unfold answers
        rw [he]
      exact ⟨hw.mem_allEids hAnswers, hAnswers⟩

/-- The ids the adjacency iterator of a vertex looks at. -/
def vertexEids (g : OlapStorage V) (vid : Nat) : List Nat :=
  match g.getVertex vid with
  | .ok vertex => g.adjacentEids vertex.blockOffset
  | .error _ => []

theorem WellFormed.adjacencyItems_map (hw : g.WellFormed) (txn : Reader) (vid : Nat) :
    (g.adjacencyItems txn vid).map (Option.map some) =
      ((g.vertexEids vid).filter (g.answers txn)).map (g.getEdgeAtTs txn) := by
  unfold adjacencyItems vertexEids
  rw [hw.iterAdjacencyAtTs_table]
  cases g.getVertex vid with
  | error e => rfl
  | ok vertex => exact hw.adjacent_map txn vertex.blockOffset

theorem WellFormed.vertexEids_nodup (hw : g.WellFormed) (vid : Nat) : (g.vertexEids vid).Nodup := by
  unfold vertexEids
  split
  · exact hw.adjacentEids_nodup _
  · exact List.nodup_nil

theorem getVertex_ok {vid : Nat} {vertex : OlapVertex V} :
    g.getVertex vid = .ok vertex ↔
      ∃ i, g.denseIdMap vid = some i ∧ g.vertices[i]? = some vertex := by
  unfold getVertex
  cases hId : g.denseIdMap vid with
  | none => simp
  | some i =>
    cases hVertex : g.vertices[i]? with
    | none => simp [hVertex]
    | some v => simp [hVertex]

/-- Whose chain the scan of a vertex walks, when no vertex has been taken from the middle. -/
theorem Chained.mem_vertexEids (h : g.Chained) (hw : g.WellFormed) {vid b o : Nat}
    {block : EdgeBlock} {edge : OlapStorageEdge} (hb : g.edges[b]? = some block)
    (hLive : block.isTombstone = false) (ho : block.edges[o]? = some edge) :
    edge.eid ∈ g.vertexEids vid ↔ block.srcId = vid ∧
      ∀ o' ≤ o, ∀ edge', block.edges[o']? = some edge' → edge'.isTombstone = false := by
  have hOwn : ∀ {vertex : OlapVertex V}, g.getVertex vid = .ok vertex →
      (edge.eid ∈ g.vertexEids vid ↔ Reaches g.edges vertex.blockOffset b ∧
        ∀ o' ≤ o, ∀ edge', block.edges[o']? = some edge' → edge'.isTombstone = false) ∧
      vertex ∈ g.vertices ∧ vertex.vid = vid := by
    intro vertex hVertex
    obtain ⟨i, hId, hi⟩ := getVertex_ok.mp hVertex
    have hMem : vertex ∈ g.vertices := List.mem_iff_getElem?.mpr ⟨i, hi⟩
    refine ⟨?_, hMem, h.named hId hi⟩
    unfold vertexEids
    rw [hVertex]
    exact hw.mem_adjacentEids (fun a ha => hw.start_lt hMem ha) hb ho
  constructor
  · intro hIn
    cases hVertex : g.getVertex vid with
    | error e =>
      unfold vertexEids at hIn
      rw [hVertex] at hIn
      cases hIn
    | ok vertex =>
      obtain ⟨hIff, hMem, hVid⟩ := hOwn hVertex
      obtain ⟨hReach, hAll⟩ := hIff.mp hIn
      exact ⟨(h.owned hMem hReach hb).trans hVid, hAll⟩
  · rintro ⟨rfl, hAll⟩
    obtain ⟨v, hv, hVid, hReach⟩ := h.reached hb hLive
    obtain ⟨i, hi⟩ := List.mem_iff_getElem?.mp hv
    have hVertex : g.getVertex block.srcId = .ok v :=
      getVertex_ok.mpr ⟨i, hVid ▸ h.mapped hi, hi⟩
    exact (hOwn hVertex).1.mpr ⟨hReach, hAll⟩

theorem Chained.mem_shownEids (h : g.Chained) (hw : g.WellFormed) {vid eid : Nat} :
    eid ∈ (g.vertexEids vid).filter (g.answers txn) ↔
      ∃ b o edge block, g.Shown txn b o edge ∧ edge.eid = eid ∧ g.edges[b]? = some block ∧
        block.srcId = vid ∧
        ∀ o' ≤ o, ∀ edge', block.edges[o']? = some edge' → edge'.isTombstone = false := by
  rw [List.mem_filter]
  constructor
  · rintro ⟨hIn, hAnswers⟩
    obtain ⟨b, o, edge, hShown, rfl⟩ := hw.answers_iff.mp hAnswers
    obtain ⟨block, hb, hLive, -, ho, -⟩ := id hShown
    obtain ⟨hSrc, hAll⟩ := (h.mem_vertexEids hw hb hLive ho).mp hIn
    exact ⟨b, o, edge, block, hShown, rfl, hb, hSrc, hAll⟩
  · rintro ⟨b, o, edge, block, hShown, rfl, hb, hSrc, hAll⟩
    obtain ⟨block', hb', hLive, -, ho, -⟩ := id hShown
    obtain rfl := Option.some.inj (hb.symm.trans hb')
    exact ⟨(h.mem_vertexEids hw hb hLive ho).mpr ⟨hSrc, hAll⟩,
      hw.answers_iff.mpr ⟨b, o, edge, hShown, rfl⟩⟩

/-- The adjacency scans agree when no edge shown is behind a tombstone. -/
theorem Chained.adjacencyAgrees_iff (h : g.Chained) (hw : g.WellFormed) (hGap : g.Gapless txn) :
    (∀ vid, g.AdjacencyAgrees txn vid) ↔ g.Uncut txn := by
  have hSub : ∀ vid, ∀ eid ∈ (g.vertexEids vid).filter (g.answers txn),
      ∃ e, g.getEdgeAtTs txn eid = some (some e) ∧ e.srcId = vid := by
    intro vid eid hIn
    obtain ⟨b, o, edge, block, hShown, hEid, hb, hSrc, -⟩ := (h.mem_shownEids hw).mp hIn
    exact (hw.found_iff hGap).mpr ⟨b, o, edge, block, hShown, hEid, hb, hSrc⟩
  constructor
  · intro hAgree b o edge hShown o' hLt edge' hs'
    obtain ⟨block, hb, hLive, -, ho, -⟩ := id hShown
    obtain ⟨eids, -, hEids, hMap⟩ := hAgree block.srcId
    rw [hw.adjacencyItems_map] at hMap
    have hIn := (eq_of_same_reads ((hw.vertexEids_nodup block.srcId).filter _) hEids
      (hSub block.srcId) hMap edge.eid).mpr
      ((hw.found_iff hGap).mpr ⟨b, o, edge, block, hShown, rfl, hb, rfl⟩)
    have hAll := ((h.mem_vertexEids hw hb hLive ho).mp (List.mem_filter.mp hIn).1).2
    exact hAll o' (Nat.le_of_lt hLt) edge' ((slotAt_of_block hb).symm.trans hs')
  · intro hUncut vid
    refine ⟨_, (hw.vertexEids_nodup vid).filter (g.answers txn), fun eid => ⟨hSub vid eid, ?_⟩,
      (hw.adjacencyItems_map txn vid).symm⟩
    intro hFound
    obtain ⟨b, o, edge, block, hShown, hEid, hb, hSrc⟩ := (hw.found_iff hGap).mp hFound
    refine (h.mem_shownEids hw).mpr ⟨b, o, edge, block, hShown, hEid, hb, hSrc, ?_⟩
    intro o' hLe edge' ho'
    rcases Nat.lt_or_eq_of_le hLe with hLt | rfl
    · exact hUncut b o edge hShown o' hLt edge' ((slotAt_of_block hb).trans ho')
    · obtain ⟨block', hb', -, -, ho, hEdge, -⟩ := hShown
      obtain rfl := Option.some.inj (hb.symm.trans hb')
      obtain rfl := Option.some.inj (ho.symm.trans ho')
      exact hEdge

end OlapStorage

/-- **Scans and point reads.** -/
theorem OlapState.scans_agree_iff {n : Nat} {trace : List (OlapState V × Action V)}
    {s : OlapState V} (h : Run Step KeepsOrder (.init n) trace s) (txn : Reader) :
    (s.storage.ScanAgrees txn ∧ ∀ vid, s.storage.AdjacencyAgrees txn vid) ↔
      s.storage.Gapless txn ∧ s.storage.Uncut txn := by
  obtain ⟨hChained, hw⟩ := chained_of_run h
  rw [hw.scanAgrees_iff]
  exact and_congr_right fun hGap => hChained.adjacencyAgrees_iff hw hGap

/-- Two edges of vertex 1, created and committed by one transaction. -/
def twoEdges : List (Action Nat) :=
  [.plain (.createVertex 1 []), .begin Timestamp.txnIdStart 0,
    .op Timestamp.txnIdStart (.createEdge ⟨none, 1, 2, []⟩),
    .op Timestamp.txnIdStart (.createEdge ⟨none, 1, 3, []⟩),
    .commit Timestamp.txnIdStart (some 5)]

/-- A vertex with two edges, created by one transaction and committed at 5, read at 10. -/
theorem OlapState.scans_agree_two : ∃ s : OlapState Nat,
    s.storage.edges.map (fun block => block.edges.length) = [2] ∧
    s.storage.ScanAgrees ⟨Timestamp.u64Max, 10⟩ ∧
    ∀ vid, s.storage.AdjacencyAgrees ⟨Timestamp.u64Max, 10⟩ vid := by
  obtain ⟨trace, s, hList, hFacts⟩ := exists_of_runList
    (show (runList (fun s a => if a matches .plain (.deleteVertex _) then none else next s a)
      (OlapState.init (V := Nat) 0) twoEdges).map
      (fun r => (r.2.storage.edges, r.2.storage.propertyColumns.length)) =
      some ([⟨none, false, 5, 1, [⟨1, none, 2, 5⟩, ⟨2, none, 3, 5⟩]⟩], 0) by decide +kernel)
  obtain ⟨hEdges, hColumns⟩ := Prod.mk.inj hFacts
  have hRun : Run Step KeepsOrder (OlapState.init (V := Nat) 0) trace s := by
    refine .of_runList (fun s a s' h => ?_) hList
    split at h
    · cases h
    · rename_i hOther
      refine ⟨fun vid i ha => ?_, h⟩
      subst ha
      exact (hOther vid rfl).elim
  refine ⟨s, by rw [hEdges]; rfl, (OlapState.scans_agree_iff hRun _).mpr ⟨?_, ?_⟩⟩
  · intro b o edge _ i j _ hj
    have hColumns : s.storage.propertyColumns.length = 0 := hColumns
    omega
  · intro b o edge _ o' _ edge' hs'
    obtain ⟨block, hb, ho'⟩ := OlapStorage.slotAt_eq_some.mp hs'
    have hEdges : s.storage.edges = _ := hEdges
    rw [hEdges] at hb
    obtain rfl := List.mem_singleton.mp (List.mem_iff_getElem?.mpr ⟨b, hb⟩)
    have hAll : ∀ e ∈ ([⟨1, none, 2, 5⟩, ⟨2, none, 3, 5⟩] : List OlapStorageEdge),
        e.isTombstone = false := by decide
    exact hAll edge' (List.mem_iff_getElem?.mpr ⟨o', ho'⟩)

/-- The first of the two edges is deleted by a later transaction: the second is still
there for point reads and the edge scan, and gone from the adjacency of its source. -/
theorem OlapState.adjacency_cut : ∃ s : OlapState Nat, Reachable s ∧
    (s.storage.getEdgeAtTs ⟨Timestamp.u64Max, 10⟩ 2 = some (some ⟨none, 1, 3, []⟩)) ∧
    s.storage.iterEdgesAtTs ⟨Timestamp.u64Max, 10⟩ = [some ⟨none, 1, 3, []⟩] ∧
    s.storage.adjacencyItems ⟨Timestamp.u64Max, 10⟩ 1 = [] ∧
    ¬ s.storage.AdjacencyAgrees ⟨Timestamp.u64Max, 10⟩ 1 := by
  obtain ⟨trace, s, hList, hFacts⟩ := exists_of_runList
    (show (runList next (OlapState.init (V := Nat) 0) (twoEdges ++
      [.begin (Timestamp.txnIdStart + 1) 6, .op (Timestamp.txnIdStart + 1) (.deleteEdge 1),
        .commit (Timestamp.txnIdStart + 1) (some 7)])).map
      (fun r => (r.2.storage.getEdgeAtTs ⟨Timestamp.u64Max, 10⟩ 2,
        r.2.storage.iterEdgesAtTs ⟨Timestamp.u64Max, 10⟩,
        r.2.storage.adjacencyItems ⟨Timestamp.u64Max, 10⟩ 1)) =
      some (some (some ⟨none, 1, 3, []⟩), [some ⟨none, 1, 3, []⟩], []) by decide +kernel)
  simp only [Prod.mk.injEq] at hFacts
  obtain ⟨hGet, hScan, hItems⟩ := hFacts
  refine ⟨s, ⟨0, trace, .of_runList (fun _ _ _ h => ⟨trivial, h⟩) hList⟩, hGet, hScan, hItems, ?_⟩
  rintro ⟨eids, -, hEids, hMap⟩
  rw [hItems, List.map_nil, List.map_eq_nil_iff] at hMap
  have hIn := (hEids 2).mpr ⟨_, hGet, rfl⟩
  rw [hMap] at hIn
  cases hIn

end Olap

end MiniGU
