import MiniGU.Invariant.OlapCalls

/-!
# Stamps against the first timestamps of blocks

A block of the AP store is passed over by readers that start before its `min_ts`, when that
is a commit timestamp. `AllFit`: no slot carries a stamp that such a reader could see. Each
write keeps this as long as the stamps it puts into a block fit (`StampFits`).
-/

namespace MiniGU

namespace Olap

variable {V : Type}

/-! ## Stamps that fit a block -/

/-- A block with first timestamp `minTs` is not passed over by those who see the stamp: a
commit is no earlier, and the transaction that owns it starts no earlier. -/
def StampFits (starts : Nat → Option Nat) (minTs ts : Nat) : Prop :=
  Timestamp.isCommitTs minTs = true →
    (Timestamp.isTxnId ts = false → minTs ≤ ts) ∧ ∀ start, starts ts = some start → minTs ≤ start

structure BlockFits (starts : Nat → Option Nat) (block : EdgeBlock) : Prop where
  fits : block.isTombstone = false → ∀ edge ∈ block.edges, edge.isTombstone = false →
    StampFits starts block.minTs edge.commitTs
  known : ∀ edge ∈ block.edges, Timestamp.isTxnId edge.commitTs = true →
    starts edge.commitTs ≠ none

namespace OlapStorage

/-- Every stamp in the store fits its block, and those of transactions are known. -/
def AllFit (starts : Nat → Option Nat) (g : OlapStorage V) : Prop :=
  ∀ block ∈ g.edges, BlockFits starts block

end OlapStorage

variable {starts : Nat → Option Nat}

theorem commitTs_of_not_txnId {ts : Nat} (h : Timestamp.isTxnId ts = false) :
    Timestamp.isCommitTs ts = true := by
  simp only [Timestamp.isTxnId, Timestamp.isCommitTs, decide_eq_false_iff_not,
    decide_eq_true_eq] at h ⊢
  omega

theorem not_commitTs_of_txnId {ts : Nat} (h : Timestamp.isTxnId ts = true) :
    Timestamp.isCommitTs ts = false := by
  simp only [Timestamp.isTxnId, Timestamp.isCommitTs, decide_eq_false_iff_not,
    decide_eq_true_eq] at h ⊢
  omega

theorem StampFits.of_txnId {minTs ts : Nat} (h : Timestamp.isTxnId minTs = true) :
    StampFits starts minTs ts := by
  intro hCommit
  rw [not_commitTs_of_txnId h] at hCommit
  cases hCommit

/-- A transaction's id does not lower a committed first timestamp. -/
theorem StampFits.min_txnId {minTs ts x : Nat} (hx : Timestamp.isTxnId x = true)
    (h : StampFits starts minTs ts) : StampFits starts (min minTs x) ts := by
  intro hCommit
  have hMin : min minTs x = minTs := by
    simp only [Timestamp.isTxnId, Timestamp.isCommitTs, decide_eq_true_eq] at hx hCommit
    omega
  rw [hMin] at hCommit ⊢
  exact h hCommit

theorem StampFits.mono {minTs m ts : Nat} (hMin : Timestamp.isCommitTs minTs = true) (hLe : m ≤ minTs)
    (h : StampFits starts minTs ts) : StampFits starts m ts := by
  intro _
  obtain ⟨hCommit, hStart⟩ := h hMin
  exact ⟨fun hTs => hLe.trans (hCommit hTs), fun start hs => hLe.trans (hStart start hs)⟩

theorem mem_modify_cases {α : Type} {l : List α} {o : Nat} {f : α → α} {x : α}
    (h : x ∈ l.modify o f) : x ∈ l ∨ ∃ y, l[o]? = some y ∧ x = f y := by
  obtain ⟨j, hj⟩ := List.mem_iff_getElem?.mp h
  rw [List.getElem?_modify] at hj
  obtain ⟨y, hy, rfl⟩ := Option.map_eq_some_iff.mp hj
  split
  · rename_i hSame
    exact .inr ⟨y, hSame ▸ hy, rfl⟩
  · exact .inl (List.mem_iff_getElem?.mpr ⟨j, hy⟩)

namespace BlockFits

variable {block : EdgeBlock}

/-- Some of the slots, in a block that may have become a tombstone. -/
theorem sub {block' : EdgeBlock} (h : BlockFits starts block)
    (hTomb : block'.isTombstone = false → block.isTombstone = false)
    (hMin : block'.minTs = block.minTs) (hSub : ∀ edge ∈ block'.edges, edge ∈ block.edges) :
    BlockFits starts block' where
  fits hLive edge hEdge hShown := hMin ▸ h.fits (hTomb hLive) edge (hSub edge hEdge) hShown
  known edge hEdge := h.known edge (hSub edge hEdge)

theorem touch (h : BlockFits starts block) {x : Nat} (hx : Timestamp.isTxnId x = true) :
    BlockFits starts { block with minTs := min block.minTs x } where
  fits hLive edge hEdge hShown := (h.fits hLive edge hEdge hShown).min_txnId hx
  known := h.known

theorem modifySlot (h : BlockFits starts block) {o : Nat}
    {f : OlapStorageEdge → OlapStorageEdge}
    (hFits : block.isTombstone = false → ∀ edge, block.edges[o]? = some edge →
      (f edge).isTombstone = false → StampFits starts block.minTs (f edge).commitTs)
    (hKnown : ∀ edge, block.edges[o]? = some edge → Timestamp.isTxnId (f edge).commitTs = true →
      starts (f edge).commitTs ≠ none) :
    BlockFits starts { block with edges := block.edges.modify o f } where
  fits hLive edge hEdge hShown := by
    rcases mem_modify_cases hEdge with hOld | ⟨edge, hAt, rfl⟩
    · exact h.fits hLive edge hOld hShown
    · exact hFits hLive edge hAt hShown
  known edge hEdge hTxn := by
    rcases mem_modify_cases hEdge with hOld | ⟨edge, hAt, rfl⟩
    · exact h.known edge hOld hTxn
    · exact hKnown edge hAt hTxn

theorem insertSlot (h : BlockFits starts block) {pos : Nat} {new : OlapStorageEdge}
    (hPos : pos ≤ block.edges.length)
    (hFits : block.isTombstone = false → new.isTombstone = false →
      StampFits starts block.minTs new.commitTs)
    (hKnown : Timestamp.isTxnId new.commitTs = true → starts new.commitTs ≠ none) :
    BlockFits starts { block with edges := block.edges.insertIdx pos new } where
  fits hLive edge hEdge hShown := by
    rcases (List.mem_insertIdx hPos).mp hEdge with rfl | hOld
    · exact hFits hLive hShown
    · exact h.fits hLive edge hOld hShown
  known edge hEdge hTxn := by
    rcases (List.mem_insertIdx hPos).mp hEdge with rfl | hOld
    · exact hKnown hTxn
    · exact h.known edge hOld hTxn

end BlockFits

namespace OlapStorage

variable {g g' : OlapStorage V}

theorem AllFit.at (h : AllFit starts g) {b : Nat} {block : EdgeBlock}
    (hb : g.edges[b]? = some block) : BlockFits starts block :=
  h block (List.mem_iff_getElem?.mpr ⟨b, hb⟩)

theorem AllFit.congr (h : AllFit starts g) (hEdges : g'.edges = g.edges) : AllFit starts g' := by
  unfold AllFit
  rw [hEdges]
  exact h

theorem AllFit.modify (h : AllFit starts g) {b : Nat} {F : EdgeBlock → EdgeBlock}
    (hEdges : g'.edges = g.edges.modify b F)
    (hF : ∀ block, g.edges[b]? = some block → BlockFits starts (F block)) : AllFit starts g' := by
  intro block hBlock
  rw [hEdges] at hBlock
  rcases mem_modify_cases hBlock with hOld | ⟨block₀, hAt, rfl⟩
  · exact h block hOld
  · exact hF block₀ hAt

theorem AllFit.touchBlock (h : AllFit starts g) {b x : Nat} (hx : Timestamp.isTxnId x = true) :
    AllFit starts (g.touchBlock b x) :=
  h.modify rfl fun _ hb => (h.at hb).touch hx

/-! ## Creating and deleting edges -/

/-- The block that a new edge goes to, as `create_edge` opens it, takes the stamp. -/
def TakesStamp (starts : Nat → Option Nat) (g : OlapStorage V) (m stamp : Nat)
    (edge : OlapEdge V) : Prop :=
  ∀ i vertex g' b block, g.findSource edge.srcId = .ok (i, vertex) →
    g.openBlock i vertex edge.srcId m = .ok (g', b) → g'.edges[b]? = some block →
    block.isTombstone = false →
    ¬ (edge.labelId = some tombstoneLabelId ∧ edge.dstId = tombstoneDstId) →
    StampFits starts block.minTs stamp

theorem AllFit.openBlock (h : AllFit starts g) {i srcId m b : Nat} {vertex : OlapVertex V}
    (hOpen : g.openBlock i vertex srcId m = .ok (g', b)) : AllFit starts g' := by
  have hPush : ∀ pre, AllFit starts (g.pushBlock i pre srcId m) := by
    intro pre block hBlock
    rcases List.mem_append.mp hBlock with hOld | hNew
    · exact h block hOld
    · obtain rfl := List.mem_singleton.mp hNew
      exact ⟨fun _ edge hEdge => (nomatch hEdge), fun edge hEdge => (nomatch hEdge)⟩
  unfold OlapStorage.openBlock at hOpen
  split at hOpen
  · cases hOpen
    exact hPush none
  · split at hOpen
    · cases hOpen
    · split at hOpen
      · cases hOpen
        exact hPush _
      · cases hOpen
        exact h

theorem not_tombstone_key {eid ts dst : Nat} {label : Option Nat}
    (h : (OlapStorageEdge.mk eid label dst ts).isTombstone = false) :
    ¬ (label = some tombstoneLabelId ∧ dst = tombstoneDstId) := by
  rintro ⟨rfl, rfl⟩
  cases h

theorem AllFit.insertSlot (h : AllFit starts g) {b ts : Nat} {block : EdgeBlock}
    {edge : OlapEdge V} (hb : g.edges[b]? = some block)
    (hFits : block.isTombstone = false →
      ¬ (edge.labelId = some tombstoneLabelId ∧ edge.dstId = tombstoneDstId) →
      StampFits starts block.minTs ts)
    (hKnown : Timestamp.isTxnId ts = true → starts ts ≠ none) :
    AllFit starts ({ g with edgeIdCounter := g.edgeIdCounter + 1 }.insertSlot b
      (insertPos block.edges (edge.dstId, edge.labelId))
      ⟨g.edgeIdCounter, edge.labelId, edge.dstId, ts⟩) := by
  refine h.modify rfl fun block' hb' => ?_
  obtain rfl := Option.some.inj (hb.symm.trans hb')
  exact (h.at hb).insertSlot (insertPos_le _ _)
    (fun hLive hShown => hFits hLive (not_tombstone_key hShown)) hKnown

theorem AllFit.createEdge (h : AllFit starts g) {edge : OlapEdge V}
    {r : OlapStorage V × Except StorageError Nat} (hr : g.createEdge edge = some r)
    (hTakes : TakesStamp starts g Timestamp.maxCommitTs 0 edge) : AllFit starts r.1 := by
  rcases createEdge_cases hr with
    hSame | ⟨i, vertex, g₁, b, block, g₂, hSource, hOpen, -, hb, -, hProps, rfl⟩
  · rwa [hSame]
  · have hInsert := (h.openBlock hOpen).insertSlot hb
      (hTakes i vertex g₁ b block hSource hOpen hb) fun hTxn => by cases hTxn
    exact hInsert.congr (insertProperties_edges hProps)

/-- What a write of a transaction leaves of it: its id and start, and in the undo buffer
no stamp that is not known. -/
structure TxnKept (starts : Nat → Option Nat) (txn txn' : MemTransaction) : Prop where
  txnId : txn'.txnId = txn.txnId
  startTs : txn'.startTs = txn.startTs
  undo : ∀ entry ∈ txn'.undoBuffer, entry ∈ txn.undoBuffer ∨
    (Timestamp.isTxnId entry.2 = true → starts entry.2 ≠ none)

theorem TxnKept.refl (starts : Nat → Option Nat) (txn : MemTransaction) : TxnKept starts txn txn :=
  ⟨rfl, rfl, fun _ h => .inl h⟩

theorem TxnKept.pushUndo (txn : MemTransaction) (op : DeltaOp) {ts : Nat}
    (hTs : Timestamp.isTxnId ts = true → starts ts ≠ none) :
    TxnKept starts txn (txn.pushUndo op ts) := by
  refine ⟨rfl, rfl, fun entry hEntry => ?_⟩
  rcases List.mem_append.mp hEntry with hOld | hNew
  · exact .inl hOld
  · obtain rfl := List.mem_singleton.mp hNew
    exact .inr hTs

theorem AllFit.createEdgeInTxn (h : AllFit starts g) {txn : MemTransaction} {edge : OlapEdge V}
    {r : OlapStorage V × MemTransaction × Except StorageError Nat}
    (hr : g.createEdgeInTxn txn edge = some r) (hTxn : Timestamp.isTxnId txn.txnId = true)
    (hKnown : starts txn.txnId ≠ none)
    (hTakes : TakesStamp starts g txn.txnId txn.txnId edge) :
    AllFit starts r.1 ∧ TxnKept starts txn r.2.1 := by
  rcases createEdgeInTxn_cases hr with
    ⟨hSame, hTxnSame⟩ | ⟨i, vertex, g₁, b, block, g₂, hSource, hOpen, -, hb, -, hProps, rfl⟩
  · rw [hSame, hTxnSame]
    exact ⟨h, .refl starts txn⟩
  · have hInsert := (h.openBlock hOpen).insertSlot hb
      (hTakes i vertex g₁ b block hSource hOpen hb) fun _ => hKnown
    have hEdges := insertProperties_edges hProps
    have hWritten : AllFit starts g₂ := hInsert.congr hEdges
    exact ⟨hWritten.touchBlock hTxn, .pushUndo txn _ fun _ => hKnown⟩

theorem resolveEdgeLocation_same (eid : Nat) (preferred : Nat × Nat) :
    (g.resolveEdgeLocation eid preferred).1.edges = g.edges ∧
      (g.resolveEdgeLocation eid preferred).1.propertyColumns = g.propertyColumns := by
  unfold resolveEdgeLocation
  split
  · exact ⟨rfl, rfl⟩
  · split
    · exact ⟨rfl, rfl⟩
    · split <;> exact ⟨rfl, rfl⟩

/-- Looking a slot up for a write changes neither slots nor columns. -/
theorem findForWrite_same (g : OlapStorage V) (eid : Nat) :
    (g.findForWrite eid).1.edges = g.edges ∧
      (g.findForWrite eid).1.propertyColumns = g.propertyColumns := by
  unfold findForWrite
  split
  · exact ⟨rfl, rfl⟩
  · rename_i loc _
    have hResolve := resolveEdgeLocation_same (g := g) eid loc
    split
    · rename_i g₁ hEq
      rw [hEq] at hResolve
      exact hResolve
    · rename_i g₁ b o hEq
      rw [hEq] at hResolve
      split
      · exact hResolve
      · split
        · exact hResolve
        · split <;> exact hResolve

/-- A transactional write of properties keeps the stamps fitting where its own stamp fits. -/
theorem AllFit.setEdgePropertyInTxn (h : AllFit starts g) {txn : MemTransaction} {eid : Nat}
    {indices : List Nat} {props : List V}
    {r : OlapStorage V × MemTransaction × Except StorageError Unit}
    (hr : g.setEdgePropertyInTxn txn eid indices props = some r)
    (hTxn : Timestamp.isTxnId txn.txnId = true) (hKnown : starts txn.txnId ≠ none)
    (hFits : indices.length = props.length → (∀ idx ∈ indices, idx < g.propertyColumns.length) →
      ∀ block ∈ g.edges, block.isTombstone = false → ∀ edge ∈ block.edges, edge.eid = eid →
      edge.isTombstone = false → StampFits starts block.minTs txn.txnId) :
    AllFit starts r.1 ∧ TxnKept starts txn r.2.1 := by
  obtain ⟨hSame, hColumns⟩ := findForWrite_same g eid
  unfold OlapStorage.setEdgePropertyInTxn at hr
  split at hr
  · cases hr
    exact ⟨h, .refl starts txn⟩
  · rename_i hLengths
    rw [not_not] at hLengths
    split at hr
    · rename_i g₁ e hEq
      rw [hEq] at hSame
      cases hr
      exact ⟨h.congr hSame, .refl starts txn⟩
    · rename_i g₁ b o edge hEq
      rw [hEq] at hSame hColumns
      obtain ⟨block, hb, hLive, ho, hEid⟩ := findForWrite_ok hEq
      have hEdge : edge ∈ block.edges := List.mem_iff_getElem?.mpr ⟨o, ho⟩
      have hAll : AllFit starts g₁ := h.congr hSame
      split at hr
      · cases hr
        exact ⟨hAll, .refl starts txn⟩
      · rename_i hRange
        obtain ⟨g₂, hLoop, rfl⟩ := Option.map_eq_some_iff.mp hr
        obtain ⟨columns, rfl⟩ := foldlM_columns setVersion_edit _ hLoop
        have hIndices : ∀ idx ∈ indices, idx < g.propertyColumns.length := by
          intro idx hIdx
          have hColumns : g₁.propertyColumns = g.propertyColumns := hColumns
          simp only [hColumns, List.any_eq_true, decide_eq_true_eq, not_exists, not_and,
            Nat.not_le] at hRange
          exact hRange idx hIdx
        have hStamped : AllFit starts (g₁.modifySlot b o fun edge =>
            { edge with commitTs := txn.txnId }) := by
          refine hAll.modify rfl fun block' hb' => ?_
          obtain rfl := Option.some.inj (hb.symm.trans hb')
          refine (hAll.at hb).modifySlot (fun _ edge' ho' hShown => ?_) fun _ _ _ => hKnown
          obtain rfl := Option.some.inj (ho.symm.trans ho')
          have hMem : block ∈ g.edges := hSame ▸ List.mem_iff_getElem?.mpr ⟨b, hb⟩
          exact hFits hLengths hIndices block hMem hLive edge hEdge hEid hShown
        exact ⟨(hStamped.touchBlock hTxn).congr rfl,
          .pushUndo txn _ ((hAll.at hb).known edge hEdge)⟩

theorem AllFit.deleteEdgeInTxn (h : AllFit starts g) {txn : MemTransaction} (eid : Nat)
    (hTxn : Timestamp.isTxnId txn.txnId = true) (hKnown : starts txn.txnId ≠ none) :
    AllFit starts (g.deleteEdgeInTxn txn eid).1 ∧
      TxnKept starts txn (g.deleteEdgeInTxn txn eid).2.1 := by
  obtain ⟨hSame, -⟩ := findForWrite_same g eid
  unfold OlapStorage.deleteEdgeInTxn
  split
  · rename_i g₁ e hEq
    rw [hEq] at hSame
    exact ⟨h.congr hSame, .refl starts txn⟩
  · rename_i g₁ b o edge hEq
    rw [hEq] at hSame
    obtain ⟨block, hb, -, ho, -⟩ := findForWrite_ok hEq
    have hAll : AllFit starts g₁ := h.congr hSame
    have hStamped : AllFit starts (g₁.modifySlot b o fun edge =>
        { edge with
          labelId := some tombstoneLabelId
          dstId := tombstoneDstId
          commitTs := txn.txnId }) := by
      refine hAll.modify rfl fun block' hb' => ?_
      refine (hAll.at hb').modifySlot (fun _ _ _ hShown => ?_) fun _ _ _ => hKnown
      cases hShown
    refine ⟨hStamped.touchBlock hTxn, ?_⟩
    obtain ⟨hId, hStart, hUndo⟩ := TxnKept.pushUndo
      (txn.recordDeletedEdge eid edge.labelId edge.dstId) (.delEdge eid)
      ((hAll.at hb).known edge (List.mem_iff_getElem?.mpr ⟨o, ho⟩))
    exact ⟨hId, hStart, hUndo⟩

theorem AllFit.deleteEdge (h : AllFit starts g) {eid : Nat}
    {r : OlapStorage V × Except StorageError Unit} (hr : g.deleteEdge eid = some r) :
    AllFit starts r.1 := by
  unfold OlapStorage.deleteEdge at hr
  split at hr
  · cases hr
    exact h
  · rename_i b o _
    split at hr
    · cases hr
    · rename_i block hb
      split at hr
      · split at hr
        · cases hr
          intro block' hBlock
          rcases List.mem_or_eq_of_mem_set hBlock with hOld | rfl
          · exact h block' hOld
          · exact (h.at hb).sub (fun hLive => nomatch hLive) rfl fun _ hEdge => nomatch hEdge
        · cases hr
          refine AllFit.congr (g := g.removeSlot b o eid) ?_ rfl
          exact h.modify removeSlot_edges fun block' hb' =>
            (h.at hb').sub id rfl fun _ hEdge => List.mem_of_mem_eraseIdx hEdge
      · cases hr
        exact h

theorem AllFit.deleteVertex (h : AllFit starts g) {vid : Nat}
    {r : OlapStorage V × Except StorageError Unit} (hr : g.deleteVertex vid = some r) :
    AllFit starts r.1 := by
  rcases deleteVertex_cases hr with ⟨-, hSame⟩ | ⟨i, vertex, b, -, -, -, hLoop⟩
  · exact hSame ▸ h
  · obtain ⟨-, -, hBlocks⟩ := tombstoneBlocks_block hLoop
    intro block' hBlock
    obtain ⟨b', hb'⟩ := List.mem_iff_getElem?.mp hBlock
    obtain ⟨block, hb, ⟨-, rfl⟩ | ⟨-, rfl⟩⟩ := hBlocks hb'
    · exact (h.at hb).sub (fun hLive => nomatch hLive) rfl fun _ hEdge => hEdge
    · exact h.at hb

/-! ## Commit -/

/-- A slot that a commit publishes: stamped by the transaction, and in its undo buffer. -/
def Published (txnId : Nat) (entries : List (DeltaOp × Nat)) (edge : OlapStorageEdge) : Prop :=
  edge.commitTs = txnId ∧ ∃ entry ∈ entries, entry.1.eid = edge.eid

/-- What a commit does to a block. -/
structure CommitRel (txnId ts : Nat) (entries : List (DeltaOp × Nat)) (block block' : EdgeBlock) :
    Prop where
  tomb : block'.isTombstone = block.isTombstone
  slots : ∀ edge' ∈ block'.edges, ∃ edge ∈ block.edges,
    (Published txnId entries edge ∧ edge' = { edge with commitTs := ts }) ∨
    (¬ Published txnId entries edge ∧ edge' = edge)
  kept : ∀ edge ∈ block.edges, ¬ Published txnId entries edge → edge ∈ block'.edges
  minTs : (block'.minTs = block.minTs ∧ ∀ edge ∈ block.edges, ¬ Published txnId entries edge) ∨
    ((∃ edge ∈ block.edges, Published txnId entries edge) ∧
      block'.minTs = if Timestamp.isTxnId block.minTs then ts else min block.minTs ts)

theorem published_cons {txnId : Nat} {entry : DeltaOp × Nat} {entries : List (DeltaOp × Nat)}
    {edge : OlapStorageEdge} : Published txnId (entry :: entries) edge ↔
      Published txnId [entry] edge ∨ Published txnId entries edge := by
  unfold Published
  simp only [List.mem_cons, List.not_mem_nil, or_false, exists_eq_or_imp, exists_eq_left]
  tauto

theorem CommitRel.refl {txnId ts : Nat} {entries : List (DeltaOp × Nat)} {block : EdgeBlock}
    (h : ∀ edge ∈ block.edges, ¬ Published txnId entries edge) :
    CommitRel txnId ts entries block block where
  tomb := rfl
  slots edge hEdge := ⟨edge, hEdge, .inr ⟨h edge hEdge, rfl⟩⟩
  kept _ hEdge _ := hEdge
  minTs := .inl ⟨rfl, h⟩

/-- What one entry of a commit and then the others do to a block. -/
theorem CommitRel.trans {txnId ts : Nat} {entry : DeltaOp × Nat} {entries : List (DeltaOp × Nat)}
    {block block₁ block' : EdgeBlock} (hTs : Timestamp.isTxnId ts = false) (hNe : ts ≠ txnId)
    (h : CommitRel txnId ts [entry] block block₁) (h' : CommitRel txnId ts entries block₁ block') :
    CommitRel txnId ts (entry :: entries) block block' where
  tomb := h'.tomb.trans h.tomb
  slots edge' hEdge' := by
    obtain ⟨edge₁, hEdge₁, hCase'⟩ := h'.slots edge' hEdge'
    obtain ⟨edge, hEdge, ⟨hPub, rfl⟩ | ⟨hNot, rfl⟩⟩ := h.slots edge₁ hEdge₁
    · rcases hCase' with ⟨hPub', -⟩ | ⟨-, rfl⟩
      · exact absurd hPub'.1 hNe
      · exact ⟨edge, hEdge, .inl ⟨published_cons.mpr (.inl hPub), rfl⟩⟩
    · rcases hCase' with ⟨hPub', rfl⟩ | ⟨hNot', rfl⟩
      · exact ⟨edge₁, hEdge, .inl ⟨published_cons.mpr (.inr hPub'), rfl⟩⟩
      · exact ⟨edge', hEdge, .inr ⟨fun hPub => (published_cons.mp hPub).elim hNot hNot', rfl⟩⟩
  kept edge hEdge hNot :=
    h'.kept edge (h.kept edge hEdge fun hPub => hNot (published_cons.mpr (.inl hPub)))
      fun hPub => hNot (published_cons.mpr (.inr hPub))
  minTs := by
    rcases h.minTs with ⟨hMin, hNone⟩ | ⟨⟨edge, hEdge, hPub⟩, hMin⟩
    · rcases h'.minTs with ⟨hMin', hNone'⟩ | ⟨⟨edge₁, hEdge₁, hPub'⟩, hMin'⟩
      · refine .inl ⟨hMin'.trans hMin, fun edge hEdge hPub => ?_⟩
        rcases published_cons.mp hPub with hPub | hPub
        · exact hNone edge hEdge hPub
        · exact hNone' edge (h.kept edge hEdge (hNone edge hEdge)) hPub
      · obtain ⟨edge, hEdge, ⟨hPub, -⟩ | ⟨-, rfl⟩⟩ := h.slots edge₁ hEdge₁
        · exact absurd hPub (hNone edge hEdge)
        · exact .inr ⟨⟨edge₁, hEdge, published_cons.mpr (.inr hPub')⟩, by rw [hMin', hMin]⟩
    · refine .inr ⟨⟨edge, hEdge, published_cons.mpr (.inl hPub)⟩, ?_⟩
      rcases h'.minTs with ⟨hMin', -⟩ | ⟨-, hMin'⟩
      · exact hMin'.trans hMin
      · rw [hMin', hMin]
        split
        · rw [hTs]
          exact Nat.min_self ts
        · rename_i hCommit
          have hLow : Timestamp.isTxnId (min block.minTs ts) = false := by
            simp only [Timestamp.isTxnId, decide_eq_true_eq, decide_eq_false_iff_not] at hCommit hTs ⊢
            omega
          rw [hLow]
          exact Nat.min_eq_left (Nat.min_le_right _ _)

/-- One entry of a commit publishes the slot of its edge if the transaction has stamped it. -/
theorem commitEntry_rel (hw : g.WellFormed) {txnId ts : Nat} (entry : DeltaOp × Nat) {b : Nat}
    {block' : EdgeBlock} (hb' : (commitEntry txnId ts g entry.1).edges[b]? = some block') :
    ∃ block, g.edges[b]? = some block ∧ CommitRel txnId ts [entry] block block' := by
  -- a slot that the entry publishes is the one the map gives for its edge
  have hFound : ∀ {b block edge}, g.edges[b]? = some block → edge ∈ block.edges →
      Published txnId [entry] edge → ∃ o, g.edgeIdMap entry.1.eid = some (b, o) ∧
        g.slotAt b o = some edge := by
    rintro b block edge hb hEdge ⟨-, entry', hEntry, hEid⟩
    obtain rfl := List.mem_singleton.mp hEntry
    obtain ⟨o, ho⟩ := List.mem_iff_getElem?.mp hEdge
    have hs : g.slotAt b o = some edge := slotAt_eq_some.mpr ⟨block, hb, ho⟩
    exact ⟨o, hEid ▸ hw.mapped hs, hs⟩
  by_cases hPub : ∃ b o edge, g.edgeIdMap entry.1.eid = some (b, o) ∧ g.slotAt b o = some edge ∧
      edge.eid = entry.1.eid ∧ edge.commitTs = txnId
  · obtain ⟨b₀, o, edge, hm, hs, hEid, hStamp⟩ := hPub
    have hEdges : (commitEntry txnId ts g entry.1).edges = (g.publishSlot b₀ o ts).edges := by
      unfold commitEntry
      rw [hm]
      simp only [hs, if_pos (And.intro hEid hStamp)]
      split <;> rfl
    rw [hEdges] at hb'
    obtain ⟨block, hb, rfl⟩ := getElem?_modify_of (g := g) hb'
    refine ⟨block, hb, ?_⟩
    have hOnly : ∀ {edge'}, edge' ∈ block.edges → Published txnId [entry] edge' →
        b₀ = b ∧ edge' = edge := by
      intro edge' hEdge' hPub'
      obtain ⟨o', hm', hs'⟩ := hFound hb hEdge' hPub'
      obtain ⟨rfl, rfl⟩ := Prod.mk.inj (Option.some.inj (hm.symm.trans hm'))
      exact ⟨rfl, Option.some.inj (hs'.symm.trans hs)⟩
    split
    · rename_i hSame
      subst hSame
      have ho : block.edges[o]? = some edge := (slotAt_of_block hb).symm.trans hs
      have hIn : edge ∈ block.edges := List.mem_iff_getElem?.mpr ⟨o, ho⟩
      have hThis : Published txnId [entry] edge :=
        ⟨hStamp, entry, List.mem_singleton_self entry, hEid.symm⟩
      have hAt : ∀ j edge', block.edges[j]? = some edge' → (Published txnId [entry] edge' ↔
          o = j) := by
        intro j edge' hj
        constructor
        · intro hPub'
          obtain ⟨-, rfl⟩ := hOnly (List.mem_iff_getElem?.mpr ⟨j, hj⟩) hPub'
          exact (hw.slot_unique hs ((slotAt_of_block hb).trans hj) rfl).2
        · rintro rfl
          obtain rfl := Option.some.inj (ho.symm.trans hj)
          exact hThis
      refine ⟨rfl, fun edge' hEdge' => ?_, fun edge' hEdge' hNot => ?_,
        .inr ⟨⟨edge, hIn, hThis⟩, rfl⟩⟩
      · obtain ⟨j, hj⟩ := List.mem_iff_getElem?.mp hEdge'
        rw [List.getElem?_modify] at hj
        obtain ⟨edge₀, hj₀, rfl⟩ := Option.map_eq_some_iff.mp hj
        refine ⟨edge₀, List.mem_iff_getElem?.mpr ⟨j, hj₀⟩, ?_⟩
        by_cases hSame : o = j
        · rw [if_pos hSame]
          exact .inl ⟨(hAt j edge₀ hj₀).mpr hSame, rfl⟩
        · rw [if_neg hSame]
          exact .inr ⟨fun hPub' => hSame ((hAt j edge₀ hj₀).mp hPub'), rfl⟩
      · obtain ⟨j, hj⟩ := List.mem_iff_getElem?.mp hEdge'
        refine List.mem_iff_getElem?.mpr ⟨j, ?_⟩
        rw [List.getElem?_modify, hj]
        exact congrArg some (if_neg fun hSame => hNot ((hAt j edge' hj).mpr hSame))
    · rename_i hNe
      exact .refl fun edge' hEdge' hPub' => hNe (hOnly hEdge' hPub').1
  · have hSame : commitEntry txnId ts g entry.1 = g := by
      unfold commitEntry
      split
      · rfl
      · rename_i b₀ o hm
        split
        · rfl
        · rename_i edge hs
          rw [if_neg fun hBoth => hPub ⟨b₀, o, edge, hm, hs, hBoth⟩]
    rw [hSame] at hb'
    refine ⟨block', hb', .refl fun edge hEdge hPub' => hPub ?_⟩
    obtain ⟨o, hm, hs⟩ := hFound hb' hEdge hPub'
    obtain ⟨hStamp, entry', hEntry, hEid⟩ := hPub'
    obtain rfl := List.mem_singleton.mp hEntry
    exact ⟨b, o, edge, hm, hs, hEid.symm, hStamp⟩

theorem commitEntries_rel (hw : g.WellFormed) {txnId ts : Nat}
    (hTs : Timestamp.isTxnId ts = false) (hNe : ts ≠ txnId) (entries : List (DeltaOp × Nat))
    {b : Nat} {block' : EdgeBlock}
    (hb' : (entries.foldl (fun g entry => commitEntry txnId ts g entry.1) g).edges[b]? =
      some block') : ∃ block, g.edges[b]? = some block ∧ CommitRel txnId ts entries block block' := by
  induction entries generalizing g with
  | nil =>
    refine ⟨block', hb', .refl fun edge _ hPub => ?_⟩
    obtain ⟨-, entry, hEntry, -⟩ := hPub
    cases hEntry
  | cons entry entries ih =>
    obtain ⟨block₁, hb₁, hRest⟩ := ih (hw.edits (commitEntry_edits txnId ts g entry.1)) hb'
    obtain ⟨block, hb, hFirst⟩ := commitEntry_rel hw entry hb₁
    exact ⟨block, hb, hFirst.trans hTs hNe hRest⟩

/-- A commit keeps stamps fitting when, in the blocks that get their first commit
timestamp from it, the slots it does not publish fit that. -/
theorem AllFit.commitEntries (h : AllFit starts g) (hw : g.WellFormed) {txnId ts : Nat}
    (hTs : Timestamp.isTxnId ts = false) (hTxn : Timestamp.isTxnId txnId = true)
    (hIds : starts ts = none) (entries : List (DeltaOp × Nat))
    (hFits : ∀ block ∈ g.edges, block.isTombstone = false →
      Timestamp.isTxnId block.minTs = true → (∃ edge ∈ block.edges, Published txnId entries edge) →
      ∀ edge ∈ block.edges, edge.isTombstone = false → ¬ Published txnId entries edge →
      StampFits starts ts edge.commitTs) :
    AllFit starts (entries.foldl (fun g entry => commitEntry txnId ts g entry.1) g) := by
  have hNe : ts ≠ txnId := by
    rintro rfl
    rw [hTs] at hTxn
    cases hTxn
  intro block' hBlock'
  obtain ⟨b, hb'⟩ := List.mem_iff_getElem?.mp hBlock'
  obtain ⟨block, hb, hRel⟩ := commitEntries_rel hw hTs hNe entries hb'
  have hOld := h.at hb
  refine ⟨fun hLive edge' hEdge' hShown => ?_, fun edge' hEdge' hKnown => ?_⟩
  · have hLive₀ : block.isTombstone = false := hRel.tomb.symm.trans hLive
    obtain ⟨edge, hEdge, ⟨hPub, rfl⟩ | ⟨hNot, rfl⟩⟩ := hRel.slots edge' hEdge'
    · rcases hRel.minTs with ⟨-, hNone⟩ | ⟨-, hMin⟩
      · exact absurd hPub (hNone edge hEdge)
      · intro _
        refine ⟨fun _ => ?_, fun start hStart => ?_⟩
        · show block'.minTs ≤ ts
          rw [hMin]
          split
          · exact Nat.le_refl ts
          · exact Nat.min_le_right _ _
        · have hStart : starts ts = some start := hStart
          rw [hIds] at hStart
          cases hStart
    · have hBefore := hOld.fits hLive₀ edge' hEdge hShown
      rcases hRel.minTs with ⟨hMin, -⟩ | ⟨hSome, hMin⟩
      · rw [hMin]
        exact hBefore
      · rw [hMin]
        split
        · rename_i hNew
          exact hFits block (List.mem_iff_getElem?.mpr ⟨b, hb⟩) hLive₀ hNew hSome edge' hEdge hShown
            hNot
        · rename_i hCommit
          rw [Bool.not_eq_true] at hCommit
          exact hBefore.mono (commitTs_of_not_txnId hCommit) (Nat.min_le_left _ _)
  · obtain ⟨edge, hEdge, ⟨-, rfl⟩ | ⟨-, rfl⟩⟩ := hRel.slots edge' hEdge'
    · have hKnown : Timestamp.isTxnId ts = true := hKnown
      rw [hTs] at hKnown
      cases hKnown
    · exact hOld.known edge' hEdge hKnown

/-! ## Abort -/

/-- The stamps that an abort puts back fit the blocks of their edges. -/
def RestoresFit (starts : Nat → Option Nat) (g : OlapStorage V) (entry : DeltaOp × Nat) : Prop :=
  (∀ eid, entry.1 ≠ .createEdge eid) → ∀ block ∈ g.edges, block.isTombstone = false →
    (∃ edge ∈ block.edges, edge.eid = entry.1.eid) → StampFits starts block.minTs entry.2

/-- Blocks of the same header, with some of the edges. -/
def Shrinks (g g' : OlapStorage V) : Prop :=
  ∀ block' ∈ g'.edges, ∃ block ∈ g.edges, block'.isTombstone = block.isTombstone ∧
    block'.minTs = block.minTs ∧
    ∀ edge' ∈ block'.edges, ∃ edge ∈ block.edges, edge.eid = edge'.eid

theorem Shrinks.refl (g : OlapStorage V) : Shrinks g g :=
  fun block hBlock => ⟨block, hBlock, rfl, rfl, fun edge hEdge => ⟨edge, hEdge, rfl⟩⟩

theorem Shrinks.modify {b : Nat} {F : EdgeBlock → EdgeBlock}
    (hEdges : g'.edges = g.edges.modify b F)
    (hF : ∀ block, (F block).isTombstone = block.isTombstone ∧ (F block).minTs = block.minTs ∧
      ∀ edge' ∈ (F block).edges, ∃ edge ∈ block.edges, edge.eid = edge'.eid) : Shrinks g g' := by
  intro block' hBlock'
  rw [hEdges] at hBlock'
  rcases mem_modify_cases hBlock' with hOld | ⟨block, hAt, rfl⟩
  · exact Shrinks.refl g block' hOld
  · exact ⟨block, List.mem_iff_getElem?.mpr ⟨b, hAt⟩, hF block⟩

theorem Shrinks.removeSlot (g : OlapStorage V) (b o eid : Nat) : Shrinks g (g.removeSlot b o eid) :=
  .modify removeSlot_edges fun _ =>
    ⟨rfl, rfl, fun edge hEdge => ⟨edge, List.mem_of_mem_eraseIdx hEdge, rfl⟩⟩

theorem RestoresFit.shrinks {entry : DeltaOp × Nat} (h : RestoresFit starts g entry)
    (hShrinks : Shrinks g g') : RestoresFit starts g' entry := by
  intro hOp block' hBlock' hLive hHas
  obtain ⟨block, hBlock, hTomb, hMin, hEdges⟩ := hShrinks block' hBlock'
  obtain ⟨edge', hEdge', hEid'⟩ := hHas
  obtain ⟨edge, hEdge, hEid⟩ := hEdges edge' hEdge'
  rw [hMin]
  exact h hOp block hBlock (hTomb.symm.trans hLive) ⟨edge, hEdge, hEid.trans hEid'⟩

/-- Undoing an entry whose stamp fits keeps all stamps fitting, in blocks of the same headers. -/
theorem abortEntry_fits (h : AllFit starts g) {txnId : Nat}
    {snapshot : Nat → Option (Option Nat × Nat)} {entry : DeltaOp × Nat}
    (hr : abortEntry txnId snapshot g entry = some g') (hFits : RestoresFit starts g entry)
    (hKnown : Timestamp.isTxnId entry.2 = true → starts entry.2 ≠ none) :
    AllFit starts g' ∧ Shrinks g g' := by
  unfold abortEntry at hr
  split at hr
  · cases hr
    exact ⟨h, .refl _⟩
  · rename_i b o _
    split at hr
    · cases hr
      exact ⟨h, .refl _⟩
    · rename_i edge hs
      obtain ⟨block, hb, ho⟩ := slotAt_eq_some.mp hs
      have hEdge : edge ∈ block.edges := List.mem_iff_getElem?.mpr ⟨o, ho⟩
      split at hr
      · cases hr
        exact ⟨h, .refl _⟩
      · rename_i hEid
        rw [not_not] at hEid
        -- a slot overwritten with the old stamp
        have hRestore : ∀ {g₁ : OlapStorage V} (f : OlapStorageEdge → OlapStorageEdge),
            g₁.edges = g.edges → (∀ edge, (f edge).eid = edge.eid) →
            (∀ edge, (f edge).commitTs = entry.2) → (∀ eid, entry.1 ≠ .createEdge eid) →
            AllFit starts (g₁.modifySlot b o f) ∧ Shrinks g (g₁.modifySlot b o f) := by
          intro g₁ f hEdges hfEid hfTs hOp
          have hMem : block ∈ g.edges := List.mem_iff_getElem?.mpr ⟨b, hb⟩
          have hAll : AllFit starts g₁ := h.congr hEdges
          have hSlot : (g₁.modifySlot b o f).edges = g.edges.modify b fun block =>
              { block with edges := block.edges.modify o f } := by
            show g₁.edges.modify b _ = _
            rw [hEdges]
          refine ⟨h.modify hSlot fun block' hb' => ?_, ?_⟩
          · obtain rfl := Option.some.inj (hb.symm.trans hb')
            refine (h.at hb).modifySlot (fun hLive edge' _ _ => ?_) fun edge' _ hTxn => ?_
            · rw [hfTs]
              exact hFits hOp block hMem hLive ⟨edge, hEdge, hEid⟩
            · rw [hfTs] at hTxn ⊢
              exact hKnown hTxn
          · refine .modify hSlot fun block => ⟨rfl, rfl, fun edge' hEdge' => ?_⟩
            rcases mem_modify_cases hEdge' with hOld | ⟨edge₀, hAt, rfl⟩
            · exact ⟨edge', hOld, rfl⟩
            · exact ⟨edge₀, List.mem_iff_getElem?.mpr ⟨o, hAt⟩, (hfEid edge₀).symm⟩
        split at hr
        · rename_i eid hOp
          split at hr
          · cases hr
            refine ⟨AllFit.congr (g := g.removeSlot b o eid) ?_ rfl, .removeSlot g b o eid⟩
            exact h.modify removeSlot_edges fun block' hb' =>
              (h.at hb').sub id rfl fun _ hEdge => List.mem_of_mem_eraseIdx hEdge
          · cases hr
            exact ⟨h, .refl _⟩
        · rename_i eid hOp
          cases hr
          refine hRestore _ rfl (fun _ => rfl) (fun _ => rfl) fun eid' hOp' => ?_
          rw [hOp] at hOp'
          cases hOp'
        · rename_i eid indices hOp
          obtain ⟨g₁, hLoop, rfl⟩ := Option.map_eq_some_iff.mp hr
          obtain ⟨columns, rfl⟩ := foldlM_columns retainVersions_edit _ hLoop
          refine hRestore _ rfl (fun _ => rfl) (fun _ => rfl) fun eid' hOp' => ?_
          rw [hOp] at hOp'
          cases hOp'

theorem AllFit.abortEntries (h : AllFit starts g) {txnId : Nat}
    {snapshot : Nat → Option (Option Nat × Nat)} (entries : List (DeltaOp × Nat))
    (hr : entries.foldlM (abortEntry txnId snapshot) g = some g')
    (hFits : ∀ entry ∈ entries, RestoresFit starts g entry)
    (hKnown : ∀ entry ∈ entries, Timestamp.isTxnId entry.2 = true → starts entry.2 ≠ none) :
    AllFit starts g' := by
  induction entries generalizing g with
  | nil =>
    obtain rfl : g = g' := Option.some.inj hr
    exact h
  | cons entry entries ih =>
    rw [List.foldlM_cons] at hr
    obtain ⟨g₁, hHead, hTail⟩ := Option.bind_eq_some_iff.mp hr
    obtain ⟨hAll, hShrinks⟩ := abortEntry_fits h hHead (hFits entry (List.mem_cons_self ..))
      (hKnown entry (List.mem_cons_self ..))
    exact ih hAll hTail
      (fun entry' hEntry' => (hFits entry' (List.mem_cons_of_mem _ hEntry')).shrinks hShrinks)
      fun entry' hEntry' => hKnown entry' (List.mem_cons_of_mem _ hEntry')

end OlapStorage

end Olap

end MiniGU
