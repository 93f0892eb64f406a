import Mathlib.Data.List.TakeWhile
import MiniGU.Lib.Indexed
import MiniGU.Model.OlapTransaction

/-!
# The AP store by edge id

Slots move when an edge before them comes or goes, and the map follows. Seen by edge id
nothing moves: `OlapStorage.table` gives each edge its block, its slot and its version
lists, and each block the ids of its edges in order.
-/

namespace MiniGU

namespace Olap

variable {V : Type}

/-- What the store holds on one edge. -/
structure Record (V : Type) where
  block : Nat
  slot : OlapStorageEdge
  versions : Nat → List (PropertyVersion V)

/-- A block without the contents of its slots. -/
structure BlockInfo where
  preBlockIndex : Option Nat
  isTombstone : Bool
  minTs : Nat
  srcId : Nat
  eids : List Nat

structure EdgeTable (V : Type) where
  records : Nat → Option (Record V)
  blocks : List BlockInfo
  columns : Nat

def EdgeBlock.info (block : EdgeBlock) : BlockInfo where
  preBlockIndex := block.preBlockIndex
  isTombstone := block.isTombstone
  minTs := block.minTs
  srcId := block.srcId
  eids := block.edges.map (·.eid)

def BlockInfo.hiddenFrom (info : BlockInfo) (txn : Reader) : Bool :=
  Timestamp.isCommitTs info.minTs && decide (txn.startTs < info.minTs)

/-! ## Reads of a table -/

/-- `propertiesAt` over the values visible in each column. -/
def shownProps (n : Nat) (visible : Nat → Option V) : Option (List (Option V)) :=
  (List.range n).foldlM (fun props j =>
    match visible j with
    | some val => setProp props j (some val)
    | none => some props) []

def Record.visible (r : Record V) (txn : Reader) (j : Nat) : Option V :=
  propValueVisibleAt (r.versions j) txn

namespace EdgeTable

def edge (t : EdgeTable V) (txn : Reader) (info : BlockInfo) (r : Record V) :
    Option (OlapEdge V) :=
  (shownProps t.columns (r.visible txn)).map fun props =>
    { labelId := r.slot.labelId, srcId := info.srcId, dstId := r.slot.dstId, properties := props }

/-- An edge of a block as a scan sees it. -/
def item (t : EdgeTable V) (txn : Reader) (info : BlockInfo) (eid : Nat) :
    Option (Option (OlapEdge V)) :=
  (t.records eid).bind fun r =>
    if r.slot.isTombstone then none
    else if txn.sees r.slot.commitTs then some (t.edge txn info r)
    else none

def isTombstone (t : EdgeTable V) (eid : Nat) : Bool :=
  match t.records eid with
  | none => true
  | some r => r.slot.isTombstone

def scan (t : EdgeTable V) (txn : Reader) : List (Option (OlapEdge V)) :=
  t.blocks.flatMap fun info =>
    if info.isTombstone then []
    else if info.hiddenFrom txn then []
    else info.eids.filterMap (t.item txn info)

/-- The blocks from one on, along the back pointers. -/
def chain (t : EdgeTable V) : Nat → Option Nat → List BlockInfo
  | 0, _ => []
  | _, none => []
  | fuel + 1, some b =>
    match t.blocks[b]? with
    | none => []
    | some info => info :: t.chain fuel info.preBlockIndex

def adjacent (t : EdgeTable V) (txn : Reader) (start : Option Nat) :
    List (Option (OlapEdge V)) :=
  (t.chain t.blocks.length start).flatMap fun info =>
    if info.isTombstone then []
    else if info.hiddenFrom txn then []
    else (info.eids.takeWhile fun eid => !t.isTombstone eid).filterMap (t.item txn info)

end EdgeTable

/-! ## The table of a store -/

namespace OlapStorage

/-- The version list of a slot in a column; a missing column has none. -/
def versions (g : OlapStorage V) (j b o : Nat) : List (PropertyVersion V) :=
  match g.propertyColumns[j]? with
  | none => []
  | some column => versionsAt column b o

def record (g : OlapStorage V) (eid : Nat) : Option (Record V) :=
  (g.edgeIdMap eid).bind fun loc =>
    (g.slotAt loc.1 loc.2).bind fun edge =>
      if edge.eid = eid then some ⟨loc.1, edge, fun j => g.versions j loc.1 loc.2⟩ else none

def table (g : OlapStorage V) : EdgeTable V where
  records := g.record
  blocks := g.edges.map EdgeBlock.info
  columns := g.propertyColumns.length

/-- Every slot in use is where the map says, and the back pointers and the vertices'
offsets point at blocks. -/
structure WellFormed (g : OlapStorage V) : Prop where
  mapped : ∀ {b o : Nat} {edge : OlapStorageEdge}, g.slotAt b o = some edge →
    g.edgeIdMap edge.eid = some (b, o)
  located : ∀ {eid b o : Nat}, g.edgeIdMap eid = some (b, o) →
    ∃ edge, g.slotAt b o = some edge ∧ edge.eid = eid
  eid_pos : ∀ {b o : Nat} {edge : OlapStorageEdge}, g.slotAt b o = some edge → 0 < edge.eid
  eid_lt : ∀ {b o : Nat} {edge : OlapStorageEdge}, g.slotAt b o = some edge →
    edge.eid < g.edgeIdCounter
  counter_pos : 0 < g.edgeIdCounter
  pre_lt : ∀ {b : Nat} {block : EdgeBlock} {p : Nat}, g.edges[b]? = some block →
    block.preBlockIndex = some p → p < b
  start_lt : ∀ {v : OlapVertex V} {b : Nat}, v ∈ g.vertices → v.blockOffset = some b →
    b < g.edges.length

variable {g : OlapStorage V}

theorem slotAt_eq_some {b o : Nat} {edge : OlapStorageEdge} :
    g.slotAt b o = some edge ↔ ∃ block, g.edges[b]? = some block ∧ block.edges[o]? = some edge :=
  Option.bind_eq_some_iff

theorem slotAt_of_block {b o : Nat} {block : EdgeBlock} (hb : g.edges[b]? = some block) :
    g.slotAt b o = block.edges[o]? := by
  unfold slotAt
  rw [hb]
  rfl

theorem WellFormed.slot_unique (hw : g.WellFormed) {b b' o o' : Nat}
    {edge edge' : OlapStorageEdge} (h : g.slotAt b o = some edge)
    (h' : g.slotAt b' o' = some edge') (he : edge.eid = edge'.eid) : b = b' ∧ o = o' := by
  have hLoc := hw.mapped h
  rw [he, hw.mapped h'] at hLoc
  obtain ⟨rfl, rfl⟩ := Prod.mk.inj (Option.some.inj hLoc)
  exact ⟨rfl, rfl⟩

theorem WellFormed.record_of_slot (hw : g.WellFormed) {b o : Nat} {edge : OlapStorageEdge}
    (h : g.slotAt b o = some edge) :
    g.record edge.eid = some ⟨b, edge, fun j => g.versions j b o⟩ := by
  unfold record
  rw [hw.mapped h]
  simp [h]

theorem record_eq_none {eid : Nat} (h : g.edgeIdMap eid = none) : g.record eid = none := by
  unfold record
  rw [h]
  rfl

/-! ## The reads -/

/-- Both reads of a slot's properties gather the values that `read` finds column by column. -/
theorem gathered_eq (read : List (PropertyVersion V) → Option V) (b o : Nat) :
    g.propertyColumns.zipIdx.foldlM (fun props (p : PropertyColumn V × Nat) =>
      match read (versionsAt p.1 b o) with
      | some val => setProp props p.2 (some val)
      | none => some props) [] =
      shownProps g.propertyColumns.length fun j => read (g.versions j b o) := by
  unfold shownProps
  rw [List.range_eq_range']
  refine foldlM_zipIdx g.propertyColumns 0 [] fun i column props hi => ?_
  have hVersions : g.versions (0 + i) b o = versionsAt column b o := by
    unfold versions
    rw [Nat.zero_add, hi]
  exact congrArg (fun vs => match read vs with
    | some val => setProp props (0 + i) (some val)
    | none => some props) hVersions.symm

theorem propertiesAt_eq (txn : Reader) (b o : Nat) :
    propertiesAt g.propertyColumns txn b o =
      shownProps g.propertyColumns.length fun j => propValueVisibleAt (g.versions j b o) txn :=
  gathered_eq (propValueVisibleAt · txn) b o

theorem committedPropertiesAt_eq (b o : Nat) :
    committedPropertiesAt g.propertyColumns b o =
      shownProps g.propertyColumns.length fun j => latestCommittedPropValue (g.versions j b o) :=
  gathered_eq latestCommittedPropValue b o

theorem edgeWithProps_eq (txn : Reader) {b o : Nat} {block : EdgeBlock} {edge : OlapStorageEdge} :
    g.edgeWithProps txn block b edge o =
      g.table.edge txn block.info ⟨b, edge, fun j => g.versions j b o⟩ := by
  unfold edgeWithProps EdgeTable.edge
  rw [propertiesAt_eq]
  rfl

theorem table_blocks (b : Nat) : g.table.blocks[b]? = (g.edges[b]?).map EdgeBlock.info :=
  List.getElem?_map

theorem WellFormed.item_eq (hw : g.WellFormed) (txn : Reader) {b o : Nat} {block : EdgeBlock}
    {edge : OlapStorageEdge} (hb : g.edges[b]? = some block) (ho : block.edges[o]? = some edge) :
    g.table.item txn block.info edge.eid =
      if edge.isTombstone then none
      else if txn.sees edge.commitTs then some (g.edgeWithProps txn block b edge o)
      else none := by
  have hSlot : g.slotAt b o = some edge := slotAt_eq_some.mpr ⟨block, hb, ho⟩
  unfold EdgeTable.item
  rw [show g.table.records edge.eid = _ from hw.record_of_slot hSlot, edgeWithProps_eq]
  rfl

theorem WellFormed.isTombstone_eq (hw : g.WellFormed) {b o : Nat} {block : EdgeBlock}
    {edge : OlapStorageEdge} (hb : g.edges[b]? = some block) (ho : block.edges[o]? = some edge) :
    g.table.isTombstone edge.eid = edge.isTombstone := by
  have hSlot : g.slotAt b o = some edge := slotAt_eq_some.mpr ⟨block, hb, ho⟩
  unfold EdgeTable.isTombstone
  rw [show g.table.records edge.eid = _ from hw.record_of_slot hSlot]

theorem WellFormed.scanBlock_eq (hw : g.WellFormed) (txn : Reader) {b : Nat} {block : EdgeBlock}
    (hb : g.edges[b]? = some block) :
    g.scanBlock txn block b = block.info.eids.filterMap (g.table.item txn block.info) := by
  have hAll : (block.info.eids.takeWhile fun eid => eid != 0) = block.info.eids := by
    rw [List.takeWhile_eq_self_iff]
    intro eid hMem
    obtain ⟨edge, hEdge, rfl⟩ := List.mem_map.mp hMem
    obtain ⟨o, ho⟩ := List.mem_iff_getElem?.mp hEdge
    have hPos := hw.eid_pos (slotAt_eq_some.mpr ⟨block, hb, ho⟩)
    rw [bne_iff_ne]
    omega
  rw [← hAll]
  unfold scanBlock
  refine scan_zipIdx block.edges 0 (fun _ _ _ => rfl) fun i edge hi _ => ?_
  rw [Nat.zero_add, hw.item_eq txn hb hi]

theorem WellFormed.scanAdjacentBlock_eq (hw : g.WellFormed) (txn : Reader) {b : Nat}
    {block : EdgeBlock} (hb : g.edges[b]? = some block) :
    g.scanAdjacentBlock txn block b =
      (block.info.eids.takeWhile fun eid => !g.table.isTombstone eid).filterMap
        (g.table.item txn block.info) := by
  unfold scanAdjacentBlock
  refine scan_zipIdx block.edges 0 (fun i edge hi => ?_) fun i edge hi hLive => ?_
  · rw [hw.isTombstone_eq hb hi]
  · rw [Nat.zero_add, hw.item_eq txn hb hi, if_neg (by simpa using hLive)]

theorem WellFormed.iterEdgesAtTs_table (hw : g.WellFormed) (txn : Reader) :
    g.iterEdgesAtTs txn = g.table.scan txn := by
  unfold iterEdgesAtTs EdgeTable.scan
  rw [show g.table.blocks = g.edges.map EdgeBlock.info from rfl, map_zipIdx_fst, List.flatMap_map]
  refine List.flatMap_congr fun q hq => ?_
  obtain ⟨block, b⟩ := q
  have hScan := hw.scanBlock_eq txn (List.mk_mem_zipIdx_iff_getElem?.mp hq)
  show (if block.isTombstone then [] else if block.hiddenFrom txn then [] else
    g.scanBlock txn block b) = _
  rw [hScan]
  rfl

theorem WellFormed.scanAdjacency_table (hw : g.WellFormed) (txn : Reader) (fuel : Nat)
    (start : Option Nat) :
    g.scanAdjacency txn fuel start = (g.table.chain fuel start).flatMap fun info =>
      if info.isTombstone then []
      else if info.hiddenFrom txn then []
      else (info.eids.takeWhile fun eid => !g.table.isTombstone eid).filterMap
        (g.table.item txn info) := by
  induction fuel generalizing start with
  | zero => rfl
  | succ fuel ih =>
    cases start with
    | none => rfl
    | some b =>
      unfold scanAdjacency EdgeTable.chain
      rw [table_blocks]
      cases hb : g.edges[b]? with
      | none => rfl
      | some block =>
        simp only [Option.map_some, List.flatMap_cons]
        rw [hw.scanAdjacentBlock_eq txn hb, ih]
        show (if block.isTombstone then _ else if block.hiddenFrom txn then _ else _) =
          (if block.isTombstone then _ else if block.hiddenFrom txn then _ else _) ++ _
        split
        · rfl
        · split <;> rfl

theorem WellFormed.iterAdjacencyAtTs_table (hw : g.WellFormed) (txn : Reader) (vid : Nat) :
    g.iterAdjacencyAtTs txn vid =
      (g.getVertex vid).map fun vertex => g.table.adjacent txn vertex.blockOffset := by
  unfold iterAdjacencyAtTs EdgeTable.adjacent
  have hLength : g.table.blocks.length = g.edges.length := List.length_map _
  simp only [hw.scanAdjacency_table, hLength]

end OlapStorage

end Olap

end MiniGU
