import MiniGU.Invariant.OlapStamps
import MiniGU.Invariant.OlapValues

/-!
# The room of a block

A block is an array of 256 slots, and `create_edge` opens a new one when the last is full:
`edge_counter` never exceeds the array (`roomy_of_run`).
-/

namespace MiniGU

namespace Olap

open OlapStorage

variable {V : Type}

namespace OlapStorage

variable {g g' g'' : OlapStorage V}

/-! ## Calls after which no block has grown -/

/-- No block has grown. -/
def NoLonger (g g' : OlapStorage V) : Prop :=
  ∀ block' ∈ g'.edges, ∃ block ∈ g.edges, block'.edges.length ≤ block.edges.length

theorem NoLonger.refl (g : OlapStorage V) : NoLonger g g :=
  fun block hBlock => ⟨block, hBlock, Nat.le_refl _⟩

theorem NoLonger.of_edges (h : g'.edges = g.edges) : NoLonger g g' :=
  fun block hBlock => ⟨block, h ▸ hBlock, Nat.le_refl _⟩

theorem NoLonger.trans (h : NoLonger g g') (h' : NoLonger g' g'') : NoLonger g g'' := by
  intro block'' hBlock''
  obtain ⟨block', hBlock', hLe'⟩ := h' block'' hBlock''
  obtain ⟨block, hBlock, hLe⟩ := h block' hBlock'
  exact ⟨block, hBlock, hLe'.trans hLe⟩

theorem NoLonger.modify {b : Nat} {F : EdgeBlock → EdgeBlock}
    (hEdges : g'.edges = g.edges.modify b F)
    (hF : ∀ block, (F block).edges.length ≤ block.edges.length) : NoLonger g g' := by
  intro block' hBlock'
  rw [hEdges] at hBlock'
  rcases mem_modify_cases hBlock' with hOld | ⟨block, hAt, rfl⟩
  · exact ⟨block', hOld, Nat.le_refl _⟩
  · exact ⟨block, List.mem_iff_getElem?.mpr ⟨b, hAt⟩, hF block⟩

theorem noLonger_modifySlot (g : OlapStorage V) (b o : Nat)
    (f : OlapStorageEdge → OlapStorageEdge) : NoLonger g (g.modifySlot b o f) :=
  .modify rfl fun _ => (List.length_modify ..).le

theorem noLonger_touchBlock (g : OlapStorage V) (b ts : Nat) : NoLonger g (g.touchBlock b ts) :=
  .modify rfl fun _ => Nat.le_refl _

theorem noLonger_publishSlot (g : OlapStorage V) (b o ts : Nat) :
    NoLonger g (g.publishSlot b o ts) :=
  .modify rfl fun _ => (List.length_modify ..).le

theorem noLonger_removeSlot (g : OlapStorage V) (b o eid : Nat) :
    NoLonger g (g.removeSlot b o eid) :=
  .modify removeSlot_edges fun _ => (List.eraseIdx_sublist ..).length_le

theorem noLonger_setEdgePropertyInTxn {txn : MemTransaction} {eid : Nat} {indices : List Nat}
    {props : List V} {r : OlapStorage V × MemTransaction × Except StorageError Unit}
    (h : g.setEdgePropertyInTxn txn eid indices props = some r) : NoLonger g r.1 := by
  obtain ⟨hSame, -⟩ := findForWrite_same g eid
  unfold OlapStorage.setEdgePropertyInTxn at h
  split at h
  · cases h
    exact .refl g
  · split at h
    · rename_i hEq
      rw [hEq] at hSame
      cases h
      exact .of_edges hSame
    · rename_i g₁ b o edge hEq
      rw [hEq] at hSame
      split at h
      · cases h
        exact .of_edges hSame
      · obtain ⟨g₂, hLoop, rfl⟩ := Option.map_eq_some_iff.mp h
        obtain ⟨columns, rfl⟩ := foldlM_columns setVersion_edit _ hLoop
        have hSlot := (NoLonger.of_edges hSame).trans (noLonger_modifySlot g₁ b o fun edge =>
          { edge with commitTs := txn.txnId })
        exact (hSlot.trans (noLonger_touchBlock _ b txn.txnId)).trans (.of_edges rfl)

theorem noLonger_deleteEdgeInTxn (g : OlapStorage V) (txn : MemTransaction) (eid : Nat) :
    NoLonger g (g.deleteEdgeInTxn txn eid).1 := by
  obtain ⟨hSame, -⟩ := findForWrite_same g eid
  unfold OlapStorage.deleteEdgeInTxn
  split
  · rename_i hEq
    rw [hEq] at hSame
    exact .of_edges hSame
  · rename_i g₁ b o edge hEq
    rw [hEq] at hSame
    exact ((NoLonger.of_edges hSame).trans (noLonger_modifySlot g₁ b o _)).trans
      (noLonger_touchBlock _ b txn.txnId)

theorem noLonger_deleteEdge {eid : Nat} {r : OlapStorage V × Except StorageError Unit}
    (h : g.deleteEdge eid = some r) : NoLonger g r.1 := by
  unfold OlapStorage.deleteEdge at h
  split at h
  · cases h
    exact .refl g
  · rename_i b o _
    split at h
    · cases h
    · rename_i block hb
      split at h
      · split at h
        · cases h
          intro block' hBlock'
          rcases List.mem_or_eq_of_mem_set hBlock' with hOld | rfl
          · exact ⟨block', hOld, Nat.le_refl _⟩
          · exact ⟨block, List.mem_iff_getElem?.mpr ⟨b, hb⟩, Nat.zero_le _⟩
        · cases h
          exact (noLonger_removeSlot g b o eid).trans (.of_edges rfl)
      · cases h
        exact .refl g

theorem noLonger_deleteVertex {vid : Nat} {r : OlapStorage V × Except StorageError Unit}
    (h : g.deleteVertex vid = some r) : NoLonger g r.1 := by
  rcases deleteVertex_cases h with ⟨-, hSame⟩ | ⟨i, vertex, b, -, -, -, hLoop⟩
  · rw [hSame]
    exact .refl g
  · obtain ⟨-, -, hBlocks⟩ := tombstoneBlocks_block hLoop
    intro block' hBlock'
    obtain ⟨b', hb'⟩ := List.mem_iff_getElem?.mp hBlock'
    obtain ⟨block, hb, ⟨-, rfl⟩ | ⟨-, rfl⟩⟩ := hBlocks hb'
    · exact ⟨block, List.mem_iff_getElem?.mpr ⟨b', hb⟩, Nat.le_refl _⟩
    · exact ⟨block', List.mem_iff_getElem?.mpr ⟨b', hb⟩, Nat.le_refl _⟩

theorem noLonger_commitEntry (txnId ts : Nat) (g : OlapStorage V) (op : DeltaOp) :
    NoLonger g (g.commitEntry txnId ts op) := by
  unfold OlapStorage.commitEntry
  split
  · exact .refl g
  · rename_i b o _
    split
    · exact .refl g
    · split
      · split
        · exact (noLonger_publishSlot g b o ts).trans (.of_edges rfl)
        · exact (noLonger_publishSlot g b o ts).trans (.of_edges rfl)
        · exact noLonger_publishSlot g b o ts
      · exact .refl g

theorem noLonger_commitAt (g : OlapStorage V) (gen : GlobalTimestampGenerator)
    (txn : MemTransaction) (commitTs : Option Nat) :
    NoLonger g (g.commitAt gen txn commitTs).1 := by
  rcases commitAt_cases g gen txn commitTs with ⟨hSame, -⟩ | ⟨ts, gen', -, -, hStore, -⟩
  · rw [hSame]
    exact .refl g
  · rw [hStore]
    clear hStore
    generalize txn.undoBuffer = entries
    induction entries generalizing g with
    | nil => exact .refl g
    | cons entry entries ih =>
      exact (noLonger_commitEntry txn.txnId ts g entry.1).trans (ih _)

theorem noLonger_abortEntry {txnId : Nat} {snapshot : Nat → Option (Option Nat × Nat)}
    {entry : DeltaOp × Nat} (h : abortEntry txnId snapshot g entry = some g') : NoLonger g g' := by
  unfold OlapStorage.abortEntry at h
  split at h
  · cases h
    exact .refl g
  · rename_i b o _
    split at h
    · cases h
      exact .refl g
    · split at h
      · cases h
        exact .refl g
      · split at h
        · rename_i eid _
          split at h
          · cases h
            exact (noLonger_removeSlot g b o eid).trans (.of_edges rfl)
          · cases h
            exact .refl g
        · cases h
          exact noLonger_modifySlot g b o _
        · obtain ⟨g₁, hLoop, rfl⟩ := Option.map_eq_some_iff.mp h
          obtain ⟨columns, rfl⟩ := foldlM_columns retainVersions_edit _ hLoop
          have hColumns : NoLonger g { g with propertyColumns := columns } := .of_edges rfl
          exact hColumns.trans (noLonger_modifySlot _ b o _)

theorem noLonger_abort {txn : MemTransaction}
    {r : OlapStorage V × MemTransaction × Except StorageError Unit}
    (h : g.abort txn = some r) : NoLonger g r.1 := by
  unfold OlapStorage.abort at h
  split at h
  · cases h
    exact .refl g
  · obtain ⟨g', hLoop, rfl⟩ := Option.map_eq_some_iff.mp h
    clear h
    generalize txn.undoBuffer.reverse = entries at hLoop
    induction entries generalizing g with
    | nil =>
      obtain rfl : g = g' := Option.some.inj hLoop
      exact .refl g
    | cons entry entries ih =>
      rw [List.foldlM_cons] at hLoop
      obtain ⟨g₁, hHead, hTail⟩ := Option.bind_eq_some_iff.mp hLoop
      exact (noLonger_abortEntry hHead).trans (ih hTail)

/-! ## Every block fits its array -/

def Roomy (g : OlapStorage V) : Prop :=
  ∀ block ∈ g.edges, block.edges.length ≤ blockCapacity

theorem Roomy.noLonger (h : g.Roomy) (hLe : NoLonger g g') : g'.Roomy := by
  intro block' hBlock'
  obtain ⟨block, hBlock, hLength⟩ := hLe block' hBlock'
  exact hLength.trans (h block hBlock)

theorem Roomy.opened (h : g.Roomy) {b : Nat} (hOpen : Opened g g' b) : g'.Roomy := by
  intro block' hBlock'
  rcases hOpen.room block' hBlock' with hEmpty | hOld
  · rw [hEmpty]
    exact Nat.zero_le _
  · exact h block' hOld

theorem Roomy.insertSlot (h : g.Roomy) {b pos : Nat} {block : EdgeBlock} {edge : OlapStorageEdge}
    (hb : g.edges[b]? = some block) (hRoom : block.edges.length < blockCapacity) :
    (g.insertSlot b pos edge).Roomy := by
  intro block' hBlock'
  obtain ⟨b', hb'⟩ := List.mem_iff_getElem?.mp hBlock'
  obtain ⟨block₀, hb₀, rfl⟩ := getElem?_modify_of (g := g) hb'
  split
  · rename_i hSame
    subst hSame
    obtain rfl := Option.some.inj (hb.symm.trans hb₀)
    have hLength : (block.edges.insertIdx pos edge).length ≤ block.edges.length + 1 :=
      List.length_insertIdx_le_succ ..
    show (block.edges.insertIdx pos edge).length ≤ blockCapacity
    omega
  · exact h block₀ (List.mem_iff_getElem?.mpr ⟨b', hb₀⟩)

theorem Roomy.createEdge (h : g.Roomy) {edge : OlapEdge V}
    {r : OlapStorage V × Except StorageError Nat} (hr : g.createEdge edge = some r) :
    r.1.Roomy := by
  rcases createEdge_cases hr with
    hSame | ⟨i, vertex, g₁, b, block, g₂, -, hOpen, -, hb, hRoom, hProps, rfl⟩
  · rwa [hSame]
  · have hOpen₁ : g₁.Roomy := h.opened (opened_of_openBlock hOpen)
    have hOpened : ({ g₁ with edgeIdCounter := g₁.edgeIdCounter + 1 } : OlapStorage V).Roomy :=
      hOpen₁
    exact (hOpened.insertSlot hb hRoom).noLonger (.of_edges (insertProperties_edges hProps))

theorem Roomy.createEdgeInTxn (h : g.Roomy) {txn : MemTransaction} {edge : OlapEdge V}
    {r : OlapStorage V × MemTransaction × Except StorageError Nat}
    (hr : g.createEdgeInTxn txn edge = some r) : r.1.Roomy := by
  rcases createEdgeInTxn_cases hr with
    ⟨hSame, -⟩ | ⟨i, vertex, g₁, b, block, g₂, -, hOpen, -, hb, hRoom, hProps, rfl⟩
  · rwa [hSame]
  · have hOpen₁ : g₁.Roomy := h.opened (opened_of_openBlock hOpen)
    have hOpened : ({ g₁ with edgeIdCounter := g₁.edgeIdCounter + 1 } : OlapStorage V).Roomy :=
      hOpen₁
    have hEdges := insertProperties_edges hProps
    have hWritten : g₂.Roomy := (hOpened.insertSlot hb hRoom).noLonger (.of_edges hEdges)
    exact hWritten.noLonger (noLonger_touchBlock g₂ b txn.txnId)

end OlapStorage

/-- No call fills a block beyond its capacity. -/
theorem Step.roomy {s s' : OlapState V} {a : Action V} (h : s.storage.Roomy)
    (hStep : Step s a s') : s'.storage.Roomy := by
  cases a with
  | plain o =>
    obtain ⟨g, hRun, rfl⟩ := Option.map_eq_some_iff.mp hStep
    cases o with
    | createVertex vid properties =>
      obtain ⟨r, hr, rfl⟩ := Option.map_eq_some_iff.mp hRun
      rcases createVertex_cases hr with ⟨-, hSame⟩ | ⟨-, -, hSame⟩
      · exact hSame ▸ h
      · rw [hSame]
        exact h
    | createEdge edge =>
      obtain ⟨r, hr, rfl⟩ := Option.map_eq_some_iff.mp hRun
      exact h.createEdge hr
    | setEdgeProperty eid indices props =>
      obtain rfl := Option.some.inj hRun
      obtain ⟨columns, hSame⟩ := setEdgeProperty_columns s.storage eid indices props
      rw [hSame]
      exact h
    | setVertexProperty vid indices props =>
      obtain ⟨r, hr, rfl⟩ := Option.map_eq_some_iff.mp hRun
      obtain ⟨vertices, hSame⟩ := setVertexProperty_vertices hr
      rw [hSame]
      exact h
    | deleteVertex vid =>
      obtain ⟨r, hr, rfl⟩ := Option.map_eq_some_iff.mp hRun
      exact h.noLonger (noLonger_deleteVertex hr)
    | deleteEdge eid =>
      obtain ⟨r, hr, rfl⟩ := Option.map_eq_some_iff.mp hRun
      exact h.noLonger (noLonger_deleteEdge hr)
  | begin txnId startTs =>
    have hStep : (if Timestamp.isTxnId txnId = true ∧ s.txns txnId = none then
        some { s with txns := Function.update s.txns txnId (some (.new txnId startTs)) }
      else none) = some s' := hStep
    split at hStep
    · cases hStep
      exact h
    · cases hStep
  | op txnId o =>
    obtain ⟨txn, hTxn, hRun⟩ := Option.bind_eq_some_iff.mp hStep
    obtain ⟨⟨g, txn'⟩, hOp, rfl⟩ := Option.map_eq_some_iff.mp hRun
    cases o with
    | createEdge edge =>
      obtain ⟨r, hr, hEq⟩ := Option.map_eq_some_iff.mp hOp
      cases hEq
      exact h.createEdgeInTxn hr
    | setEdgeProperty eid indices props =>
      obtain ⟨r, hr, hEq⟩ := Option.map_eq_some_iff.mp hOp
      cases hEq
      exact h.noLonger (noLonger_setEdgePropertyInTxn hr)
    | deleteEdge eid =>
      cases hOp
      exact h.noLonger (noLonger_deleteEdgeInTxn s.storage txn eid)
  | commit txnId commitTs =>
    obtain ⟨txn, hTxn, rfl⟩ := Option.map_eq_some_iff.mp hStep
    exact h.noLonger (noLonger_commitAt s.storage s.gen txn commitTs)
  | abort txnId =>
    obtain ⟨txn, hTxn, hRun⟩ := Option.bind_eq_some_iff.mp hStep
    obtain ⟨r, hr, rfl⟩ := Option.map_eq_some_iff.mp hRun
    exact h.noLonger (noLonger_abort hr)

theorem roomy_of_run {P : OlapState V → Action V → Prop} {n : Nat}
    {trace : List (OlapState V × Action V)} {s : OlapState V}
    (h : Run Step P (.init n) trace s) : s.storage.Roomy :=
  h.stateInvariant (I := fun s => s.storage.Roomy) (fun _ hBlock => nomatch hBlock)
    fun _ _ _ hRoomy _ hStep => hStep.roomy hRoomy

end Olap

end MiniGU
