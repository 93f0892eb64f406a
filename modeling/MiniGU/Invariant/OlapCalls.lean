import MiniGU.Invariant.OlapSlots

/-!
# The calls of the AP store, write by write

What every small write keeps, every call on edges keeps (`Step.edits`); the two calls on
vertices are spelled out (`createVertex_cases`, `deleteVertex_cases`).
-/

namespace MiniGU

namespace Olap

variable {V : Type}

namespace OlapStorage

variable {g g' : OlapStorage V}

/-! ## The calls as sequences of writes -/

theorem findSource_ok {srcId i : Nat} {vertex : OlapVertex V}
    (h : g.findSource srcId = .ok (i, vertex)) :
    g.denseIdMap srcId = some i ∧ g.vertices[i]? = some vertex := by
  unfold findSource at h
  split at h
  · cases h
  · rename_i denseId hId
    split at h
    · cases h
    · rename_i v hVertex
      cases h
      exact ⟨hId, hVertex⟩

theorem touchBlock_edit (g : OlapStorage V) (b ts : Nat) : Edit g (g.touchBlock b ts) := by
  have hEq : g.touchBlock b ts = { g with edges := g.edges.modify b fun block =>
      { block with edges := block.edges.modify 0 id, minTs := min block.minTs ts } } := by
    unfold touchBlock
    simp only [List.modify_id]
  rw [hEq]
  exact .overwrite g b 0 (min · ts) fun _ => rfl

theorem modifySlot_edit (g : OlapStorage V) (b o : Nat) {f : OlapStorageEdge → OlapStorageEdge}
    (hf : ∀ edge, (f edge).eid = edge.eid) : Edit g (g.modifySlot b o f) :=
  .overwrite g b o id hf

theorem openBlock_ok {srcId i m b : Nat} {vertex : OlapVertex V}
    (hId : g.denseIdMap srcId = some i) (hVertex : g.vertices[i]? = some vertex)
    (h : g.openBlock i vertex srcId m = .ok (g', b)) :
    Edits g g' ∧ ∃ block, g'.edges[b]? = some block ∧ block.edges.length < blockCapacity := by
  have hPush : ∃ block, (g.pushBlock i vertex.blockOffset srcId m).edges[g.edges.length]? =
      some block ∧ block.edges.length < blockCapacity := by
    refine ⟨_, List.getElem?_concat_length, ?_⟩
    show 0 < 256
    omega
  unfold openBlock at h
  split at h
  · rename_i hStart
    cases h
    rw [hStart] at hPush
    exact ⟨.single (hStart ▸ .pushBlock m hId hVertex), hPush⟩
  · rename_i offset hStart
    split at h
    · cases h
    · rename_i block hb
      split at h
      · cases h
        rw [hStart] at hPush
        exact ⟨.single (hStart ▸ .pushBlock m hId hVertex), hPush⟩
      · rename_i hRoom
        cases h
        exact ⟨.refl, block, hb, Nat.lt_of_not_le hRoom⟩

theorem insertProperties_edit {b pos counter stamp : Nat} {edge : OlapEdge V}
    (h : g.insertProperties b pos counter stamp edge = some g') : Edit g g' := by
  obtain ⟨columns, -, rfl⟩ := Option.map_eq_some_iff.mp h
  exact .columns g columns

theorem insertProperties_edges {b pos counter stamp : Nat} {edge : OlapEdge V}
    (h : g.insertProperties b pos counter stamp edge = some g') : g'.edges = g.edges := by
  obtain ⟨columns, -, rfl⟩ := Option.map_eq_some_iff.mp h
  rfl

theorem createEdge_eq {edge : OlapEdge V} {i b : Nat} {vertex : OlapVertex V} {block : EdgeBlock}
    (hSource : g.findSource edge.srcId = .ok (i, vertex))
    (hOpen : g.openBlock i vertex edge.srcId Timestamp.maxCommitTs = .ok (g', b))
    (hb : g'.edges[b]? = some block) :
    g.createEdge edge =
      (({ g' with edgeIdCounter := g'.edgeIdCounter + 1 }.insertSlot b
        (insertPos block.edges (edge.dstId, edge.labelId))
        ⟨g'.edgeIdCounter, edge.labelId, edge.dstId, 0⟩).insertProperties b
        (insertPos block.edges (edge.dstId, edge.labelId)) block.edges.length 0 edge).map
        fun g => (g, .ok g'.edgeIdCounter) := by
  unfold createEdge
  simp only [hSource, hOpen, hb]

theorem createEdgeInTxn_eq {txn : MemTransaction} {edge : OlapEdge V} {i b : Nat}
    {vertex : OlapVertex V} {block : EdgeBlock}
    (hSource : g.findSource edge.srcId = .ok (i, vertex))
    (hOpen : g.openBlock i vertex edge.srcId txn.txnId = .ok (g', b))
    (hb : g'.edges[b]? = some block) :
    g.createEdgeInTxn txn edge =
      ((({ g' with edgeIdCounter := g'.edgeIdCounter + 1 }.insertSlot b
        (insertPos block.edges (edge.dstId, edge.labelId))
        ⟨g'.edgeIdCounter, edge.labelId, edge.dstId, txn.txnId⟩).extendColumns
        edge.properties.length).insertProperties b
        (insertPos block.edges (edge.dstId, edge.labelId)) block.edges.length txn.txnId edge).map
        fun (g : OlapStorage V) => (g.touchBlock b txn.txnId,
          txn.pushUndo (.createEdge g'.edgeIdCounter) txn.txnId, .ok g'.edgeIdCounter) := by
  unfold createEdgeInTxn
  simp only [hSource, hOpen, hb]

/-- A call of `create_edge` fails and changes nothing, or writes into the block that it opens. -/
theorem createEdge_cases {edge : OlapEdge V} {r : OlapStorage V × Except StorageError Nat}
    (h : g.createEdge edge = some r) : r.1 = g ∨ ∃ i vertex g₁ b block g₂,
      g.findSource edge.srcId = .ok (i, vertex) ∧
      g.openBlock i vertex edge.srcId Timestamp.maxCommitTs = .ok (g₁, b) ∧ Edits g g₁ ∧
      g₁.edges[b]? = some block ∧ block.edges.length < blockCapacity ∧
      ({ g₁ with edgeIdCounter := g₁.edgeIdCounter + 1 }.insertSlot b
        (insertPos block.edges (edge.dstId, edge.labelId))
        ⟨g₁.edgeIdCounter, edge.labelId, edge.dstId, 0⟩).insertProperties b
        (insertPos block.edges (edge.dstId, edge.labelId)) block.edges.length 0 edge = some g₂ ∧
      r = (g₂, .ok g₁.edgeIdCounter) := by
  cases hSource : g.findSource edge.srcId with
  | error e =>
    unfold createEdge at h
    rw [hSource] at h
    cases h
    exact .inl rfl
  | ok source =>
    obtain ⟨i, vertex⟩ := source
    obtain ⟨hId, hVertex⟩ := findSource_ok hSource
    cases hOpen : g.openBlock i vertex edge.srcId Timestamp.maxCommitTs with
    | error e =>
      unfold createEdge at h
      simp only [hSource, hOpen] at h
      cases h
      exact .inl rfl
    | ok opened =>
      obtain ⟨g₁, b⟩ := opened
      obtain ⟨hEdits, block, hb, hRoom⟩ := openBlock_ok hId hVertex hOpen
      rw [createEdge_eq hSource hOpen hb] at h
      obtain ⟨g₂, hProps, rfl⟩ := Option.map_eq_some_iff.mp h
      exact .inr ⟨i, vertex, g₁, b, block, g₂, rfl, hOpen, hEdits, hb, hRoom, hProps, rfl⟩

/-- **What a transactional create can do**: nothing, or open a slot in a block with room for it. -/
theorem createEdgeInTxn_cases {txn : MemTransaction} {edge : OlapEdge V}
    {r : OlapStorage V × MemTransaction × Except StorageError Nat}
    (h : g.createEdgeInTxn txn edge = some r) :
    (r.1 = g ∧ r.2.1 = txn) ∨ ∃ i vertex g₁ b block g₂,
      g.findSource edge.srcId = .ok (i, vertex) ∧
      g.openBlock i vertex edge.srcId txn.txnId = .ok (g₁, b) ∧ Edits g g₁ ∧
      g₁.edges[b]? = some block ∧ block.edges.length < blockCapacity ∧
      (({ g₁ with edgeIdCounter := g₁.edgeIdCounter + 1 }.insertSlot b
        (insertPos block.edges (edge.dstId, edge.labelId))
        ⟨g₁.edgeIdCounter, edge.labelId, edge.dstId, txn.txnId⟩).extendColumns
        edge.properties.length).insertProperties b
        (insertPos block.edges (edge.dstId, edge.labelId)) block.edges.length txn.txnId edge =
          some g₂ ∧
      r = (g₂.touchBlock b txn.txnId, txn.pushUndo (.createEdge g₁.edgeIdCounter) txn.txnId,
        .ok g₁.edgeIdCounter) := by
  cases hSource : g.findSource edge.srcId with
  | error e =>
    unfold createEdgeInTxn at h
    rw [hSource] at h
    cases h
    exact .inl ⟨rfl, rfl⟩
  | ok source =>
    obtain ⟨i, vertex⟩ := source
    obtain ⟨hId, hVertex⟩ := findSource_ok hSource
    cases hOpen : g.openBlock i vertex edge.srcId txn.txnId with
    | error e =>
      unfold createEdgeInTxn at h
      simp only [hSource, hOpen] at h
      cases h
      exact .inl ⟨rfl, rfl⟩
    | ok opened =>
      obtain ⟨g₁, b⟩ := opened
      obtain ⟨hEdits, block, hb, hRoom⟩ := openBlock_ok hId hVertex hOpen
      rw [createEdgeInTxn_eq hSource hOpen hb] at h
      obtain ⟨g₂, hProps, rfl⟩ := Option.map_eq_some_iff.mp h
      exact .inr ⟨i, vertex, g₁, b, block, g₂, rfl, hOpen, hEdits, hb, hRoom, hProps, rfl⟩

theorem createEdge_edits {edge : OlapEdge V} {r : OlapStorage V × Except StorageError Nat}
    (h : g.createEdge edge = some r) : Edits g r.1 := by
  rcases createEdge_cases h with
    hSame | ⟨i, vertex, g₁, b, block, g₂, -, -, hEdits, hb, -, hProps, rfl⟩
  · rw [hSame]
  · exact (hEdits.tail (.insertSlot hb (insertPos_le _ _) _ _ _)).tail
      (insertProperties_edit hProps)

theorem createEdgeInTxn_edits {txn : MemTransaction} {edge : OlapEdge V}
    {r : OlapStorage V × MemTransaction × Except StorageError Nat}
    (h : g.createEdgeInTxn txn edge = some r) : Edits g r.1 := by
  rcases createEdgeInTxn_cases h with
    ⟨hSame, -⟩ | ⟨i, vertex, g₁, b, block, g₂, -, -, hEdits, hb, -, hProps, rfl⟩
  · rw [hSame]
  · have hInsert := hEdits.tail (.insertSlot hb (insertPos_le block.edges
      (edge.dstId, edge.labelId)) edge.labelId edge.dstId txn.txnId)
    exact ((hInsert.tail (.columns _ _)).tail (insertProperties_edit hProps)).tail
      (touchBlock_edit g₂ b txn.txnId)

theorem resolveEdgeLocation_edits (eid : Nat) (preferred : Nat × Nat) :
    Edits g (g.resolveEdgeLocation eid preferred).1 := by
  unfold resolveEdgeLocation
  split
  · exact .refl
  · split
    · exact .refl
    · split
      · rename_i loc hScan
        obtain ⟨⟨block, b⟩, hMem, hFound⟩ := List.exists_of_findSome?_eq_some hScan
        obtain ⟨o, ho, rfl⟩ := Option.map_eq_some_iff.mp hFound
        have hb : g.edges[b]? = some block := List.mk_mem_zipIdx_iff_getElem?.mp hMem
        obtain ⟨hLt, hEid, -⟩ := List.findIdx?_eq_some_iff_getElem.mp ho
        have hSlot : g.slotAt b o = some block.edges[o] :=
          slotAt_eq_some.mpr ⟨block, hb, List.getElem?_eq_getElem hLt⟩
        obtain rfl : block.edges[o].eid = eid := by simpa using hEid
        exact .single (.locate hSlot)
      · exact .refl

theorem findForWrite_edits (g : OlapStorage V) (eid : Nat) : Edits g (g.findForWrite eid).1 := by
  unfold findForWrite
  split
  · exact .refl
  · rename_i loc _
    have hEdits := resolveEdgeLocation_edits (g := g) eid loc
    split
    · rename_i g₁ hEq
      rw [hEq] at hEdits
      exact hEdits
    · rename_i g₁ b o hEq
      rw [hEq] at hEdits
      split
      · exact hEdits
      · split
        · exact hEdits
        · split <;> exact hEdits

/-- What a write finds: the edge's slot, in a block that is no tombstone. -/
theorem findForWrite_ok {eid b o : Nat} {edge : OlapStorageEdge}
    (h : g.findForWrite eid = (g', .ok (b, o, edge))) :
    ∃ block, g'.edges[b]? = some block ∧ block.isTombstone = false ∧
      block.edges[o]? = some edge ∧ edge.eid = eid := by
  unfold findForWrite at h
  split at h
  · cases h
  · split at h
    · cases h
    · split at h
      · cases h
      · rename_i block hb
        split at h
        · cases h
        · rename_i edge' ho
          split at h
          · cases h
          · rename_i hLive
            cases h
            rw [not_or, Bool.not_eq_true, not_not] at hLive
            exact ⟨block, hb, hLive.1, ho, hLive.2⟩

theorem setVersion_edit {txnId b o : Nat} {p : Nat × V} (h : setVersion txnId b o g p = some g') :
    ∃ columns, g' = { g with propertyColumns := columns } := by
  obtain ⟨g₁, hEnsure, rfl⟩ := Option.map_eq_some_iff.mp h
  unfold ensureColumnBlock at hEnsure
  split at hEnsure
  · cases hEnsure
  · obtain ⟨blocks, -, rfl⟩ := Option.map_eq_some_iff.mp hEnsure
    exact ⟨_, rfl⟩

theorem retainVersions_edit {txnId b o idx : Nat}
    (h : retainVersions txnId b o g idx = some g') :
    ∃ columns, g' = { g with propertyColumns := columns } := by
  unfold retainVersions at h
  split at h
  · cases h
    exact ⟨g.propertyColumns, rfl⟩
  · obtain ⟨g₁, hEnsure, rfl⟩ := Option.map_eq_some_iff.mp h
    unfold ensureColumnBlock at hEnsure
    split at hEnsure
    · cases hEnsure
    · obtain ⟨blocks, -, rfl⟩ := Option.map_eq_some_iff.mp hEnsure
      exact ⟨_, rfl⟩

theorem foldlM_columns {α : Type} {F : OlapStorage V → α → Option (OlapStorage V)}
    (hF : ∀ {g g' a}, F g a = some g' → ∃ columns, g' = { g with propertyColumns := columns })
    (l : List α) {g g' : OlapStorage V} (h : l.foldlM F g = some g') :
    ∃ columns, g' = { g with propertyColumns := columns } := by
  induction l generalizing g with
  | nil =>
    obtain rfl : g = g' := Option.some.inj h
    exact ⟨g.propertyColumns, rfl⟩
  | cons a l ih =>
    rw [List.foldlM_cons] at h
    obtain ⟨g₁, hHead, hTail⟩ := Option.bind_eq_some_iff.mp h
    obtain ⟨columns₁, rfl⟩ := hF hHead
    obtain ⟨columns, rfl⟩ := ih hTail
    exact ⟨columns, rfl⟩

theorem setEdgePropertyInTxn_edits {txn : MemTransaction} {eid : Nat} {indices : List Nat}
    {props : List V} {r : OlapStorage V × MemTransaction × Except StorageError Unit}
    (h : g.setEdgePropertyInTxn txn eid indices props = some r) : Edits g r.1 := by
  unfold setEdgePropertyInTxn at h
  split at h
  · cases h
    exact .refl
  · have hFind := findForWrite_edits g eid
    split at h
    · rename_i g₁ e hEq
      cases h
      rw [hEq] at hFind
      exact hFind
    · rename_i g₁ b o edge hEq
      rw [hEq] at hFind
      split at h
      · cases h
        exact hFind
      · obtain ⟨g₂, hLoop, rfl⟩ := Option.map_eq_some_iff.mp h
        obtain ⟨columns, rfl⟩ := foldlM_columns setVersion_edit _ hLoop
        have hStamp := hFind.tail (modifySlot_edit g₁ b o (f := fun edge =>
          { edge with commitTs := txn.txnId }) fun _ => rfl)
        exact (hStamp.tail (touchBlock_edit _ b txn.txnId)).tail (.columns _ columns)

theorem deleteEdgeInTxn_edits (g : OlapStorage V) (txn : MemTransaction) (eid : Nat) :
    Edits g (g.deleteEdgeInTxn txn eid).1 := by
  have hFind := findForWrite_edits g eid
  unfold deleteEdgeInTxn
  split
  · rename_i g₁ e hEq
    rw [hEq] at hFind
    exact hFind
  · rename_i g₁ b o edge hEq
    rw [hEq] at hFind
    have hStamp := hFind.tail (modifySlot_edit g₁ b o (f := fun edge =>
      { edge with
        labelId := some tombstoneLabelId
        dstId := tombstoneDstId
        commitTs := txn.txnId }) fun _ => rfl)
    exact hStamp.tail (touchBlock_edit _ b txn.txnId)

/-- `delete_edge` is a sequence of small writes, whichever way it goes. -/
theorem deleteEdge_edits {eid : Nat} {r : OlapStorage V × Except StorageError Unit}
    (h : g.deleteEdge eid = some r) : Edits g r.1 := by
  unfold deleteEdge at h
  split at h
  · cases h
    exact .refl
  · rename_i b o _
    split at h
    · cases h
    · rename_i block hb
      split at h
      · rename_i hHolds
        unfold holds at hHolds
        split at hHolds
        · cases hHolds
        · rename_i edge hs
          obtain rfl : edge.eid = eid := by simpa using hHolds
          have ho : block.edges[o]? = some edge := (slotAt_of_block hb).symm.trans hs
          split at h
          · rename_i hOne
            cases h
            obtain ⟨only, hEdges⟩ := List.length_eq_one_iff.mp hOne
            obtain rfl : only = edge := by
              rw [hEdges] at ho
              cases o with
              | zero => exact Option.some.inj ho
              | succ n => cases ho
            exact .single (.emptyBlock hb hEdges)
          · cases h
            exact (Relation.ReflTransGen.single (.removeSlot hb ho)).tail (.columns _ _)
      · cases h
        exact .refl

theorem foldl_columns {α : Type} {F : OlapStorage V → α → OlapStorage V}
    (hF : ∀ g a, ∃ columns, F g a = { g with propertyColumns := columns }) (l : List α)
    (g : OlapStorage V) : ∃ columns, l.foldl F g = { g with propertyColumns := columns } := by
  induction l generalizing g with
  | nil => exact ⟨g.propertyColumns, rfl⟩
  | cons a l ih =>
    obtain ⟨columns₁, hHead⟩ := hF g a
    obtain ⟨columns, hTail⟩ := ih (F g a)
    refine ⟨columns, ?_⟩
    rw [List.foldl_cons, hTail, hHead]

theorem setEdgeProperty_columns (g : OlapStorage V) (eid : Nat) (indices : List Nat)
    (props : List V) :
    ∃ columns, (g.setEdgeProperty eid indices props).1 = { g with propertyColumns := columns } := by
  unfold setEdgeProperty
  split
  · exact ⟨g.propertyColumns, rfl⟩
  · rename_i b o _
    split
    · exact ⟨g.propertyColumns, rfl⟩
    · split
      · exact ⟨g.propertyColumns, rfl⟩
      · split
        · exact foldl_columns
            (F := fun (g : OlapStorage V) (p : Nat × V) =>
              g.modifyVersions p.1 b o (· ++ [⟨0, some p.2⟩])) (fun g p => ⟨_, rfl⟩)
            (indices.zip props) g
        · exact ⟨g.propertyColumns, rfl⟩

theorem setEdgeProperty_edits (g : OlapStorage V) (eid : Nat) (indices : List Nat)
    (props : List V) : Edits g (g.setEdgeProperty eid indices props).1 := by
  obtain ⟨columns, hEq⟩ := setEdgeProperty_columns g eid indices props
  rw [hEq]
  exact .single (.columns g columns)

/-! ## Commit and abort -/

theorem commitEntry_edits (txnId commitTs : Nat) (g : OlapStorage V) (op : DeltaOp) :
    Edits g (commitEntry txnId commitTs g op) := by
  have hPublish : ∀ b o, Edit g (g.publishSlot b o commitTs) := fun b o =>
    .overwrite g b o (f := fun edge => { edge with commitTs := commitTs })
      (fun minTs => if Timestamp.isTxnId minTs then commitTs else min minTs commitTs) fun _ => rfl
  unfold commitEntry
  split
  · exact .refl
  · rename_i b o _
    split
    · exact .refl
    · split
      · split
        · exact (Relation.ReflTransGen.single (hPublish b o)).tail (.columns _ _)
        · exact (Relation.ReflTransGen.single (hPublish b o)).tail (.columns _ _)
        · exact .single (hPublish b o)
      · exact .refl

theorem commitAt_eq (g : OlapStorage V) (gen : GlobalTimestampGenerator) (txn : MemTransaction)
    (commitTs : Option Nat) :
    g.commitAt gen txn commitTs =
      match gen.obtain commitTs with
      | .error e => (g, gen, txn, .error (.timestamp e))
      | .ok (ts, gen') =>
        match txn.commitTs with
        | some _ => (g, gen', txn, .error (.transactionAlreadyCommitted ts))
        | none =>
          (txn.undoBuffer.foldl (fun g entry => g.commitEntry txn.txnId ts entry.1) g, gen',
            { txn with
              commitTs := some ts
              undoBuffer := []
              deletedEdgeSnapshot := fun _ => none }, .ok ts) := by
  cases commitTs <;> rfl

/-- A commit is refused, or publishes what the undo buffer names. -/
theorem commitAt_cases (g : OlapStorage V) (gen : GlobalTimestampGenerator)
    (txn : MemTransaction) (commitTs : Option Nat) :
    (g.commitAt gen txn commitTs).1 = g ∧ (g.commitAt gen txn commitTs).2.2.1 = txn ∨
    ∃ ts gen', gen.obtain commitTs = .ok (ts, gen') ∧ txn.commitTs = none ∧
      (g.commitAt gen txn commitTs).1 =
        txn.undoBuffer.foldl (fun g entry => g.commitEntry txn.txnId ts entry.1) g ∧
      (g.commitAt gen txn commitTs).2.2.1 =
        { txn with commitTs := some ts, undoBuffer := [], deletedEdgeSnapshot := fun _ => none } := by
  rw [commitAt_eq]
  cases hObtain : gen.obtain commitTs with
  | error e => exact .inl ⟨rfl, rfl⟩
  | ok stamp =>
    obtain ⟨ts, gen'⟩ := stamp
    cases hCommit : txn.commitTs with
    | some _ => exact .inl ⟨rfl, rfl⟩
    | none => exact .inr ⟨ts, gen', rfl, rfl, rfl, rfl⟩

theorem commitAt_edits (g : OlapStorage V) (gen : GlobalTimestampGenerator) (txn : MemTransaction)
    (commitTs : Option Nat) : Edits g (g.commitAt gen txn commitTs).1 := by
  have hLoop : ∀ (ts : Nat) (l : List (DeltaOp × Nat)) (g : OlapStorage V),
      Edits g (l.foldl (fun g entry => commitEntry txn.txnId ts g entry.1) g) := by
    intro ts l
    induction l with
    | nil => exact fun _ => .refl
    | cons entry l ih => exact fun g => (commitEntry_edits txn.txnId ts g entry.1).trans (ih _)
  unfold commitAt
  simp only
  split
  · exact .refl
  · split
    · exact .refl
    · exact hLoop _ _ _

/-- So is taking one undo entry back. -/
theorem abortEntry_edits {txnId : Nat} {snapshot : Nat → Option (Option Nat × Nat)}
    {entry : DeltaOp × Nat} (h : abortEntry txnId snapshot g entry = some g') : Edits g g' := by
  unfold abortEntry at h
  split at h
  · cases h
    exact .refl
  · rename_i b o _
    split at h
    · cases h
      exact .refl
    · rename_i edge hs
      obtain ⟨block, hb, ho⟩ := slotAt_eq_some.mp hs
      split at h
      · cases h
        exact .refl
      · rename_i hEid
        rw [not_not] at hEid
        split at h
        · rename_i eid hOp
          obtain rfl : edge.eid = eid := by rw [hEid, hOp]; rfl
          split at h
          · cases h
            exact (Relation.ReflTransGen.single (.removeSlot hb ho)).tail (.columns _ _)
          · cases h
            exact .refl
        · cases h
          exact .single (modifySlot_edit g b o fun _ => rfl)
        · obtain ⟨g₁, hLoop, rfl⟩ := Option.map_eq_some_iff.mp h
          obtain ⟨columns, rfl⟩ := foldlM_columns retainVersions_edit _ hLoop
          exact (Relation.ReflTransGen.single (.columns g columns)).tail
            (modifySlot_edit _ b o fun _ => rfl)

theorem abort_edits {txn : MemTransaction}
    {r : OlapStorage V × MemTransaction × Except StorageError Unit}
    (h : g.abort txn = some r) : Edits g r.1 := by
  have hLoop : ∀ (l : List (DeltaOp × Nat)) {g g' : OlapStorage V},
      l.foldlM (abortEntry txn.txnId txn.deletedEdgeSnapshot) g = some g' → Edits g g' := by
    intro l
    induction l with
    | nil =>
      intro g g' h
      obtain rfl : g = g' := Option.some.inj h
      exact .refl
    | cons entry l ih =>
      intro g g' h
      rw [List.foldlM_cons] at h
      obtain ⟨g₁, hHead, hTail⟩ := Option.bind_eq_some_iff.mp h
      exact (abortEntry_edits hHead).trans (ih hTail)
  unfold abort at h
  split at h
  · cases h
    exact .refl
  · obtain ⟨g₁, hFold, rfl⟩ := Option.map_eq_some_iff.mp h
    exact hLoop _ hFold

/-! ## The blocks of a vertex -/

/-- Block `b` is on the chain of back pointers from a block. -/
inductive Reaches (edges : List EdgeBlock) : Option Nat → Nat → Prop
  | here (b : Nat) : Reaches edges (some b) b
  | back {a b : Nat} {block : EdgeBlock} (ha : edges[a]? = some block)
      (h : Reaches edges block.preBlockIndex b) : Reaches edges (some a) b

theorem not_reaches_none {edges : List EdgeBlock} {b : Nat} : ¬ Reaches edges none b :=
  fun h => nomatch h

theorem reaches_some {edges : List EdgeBlock} {a b : Nat} {block : EdgeBlock}
    (ha : edges[a]? = some block) :
    Reaches edges (some a) b ↔ b = a ∨ Reaches edges block.preBlockIndex b := by
  constructor
  · intro h
    cases h with
    | here => exact .inl rfl
    | back ha' h =>
      obtain rfl := Option.some.inj (ha.symm.trans ha')
      exact .inr h
  · rintro (rfl | h)
    · exact .here b
    · exact .back ha h

theorem Reaches.congr {edges edges' : List EdgeBlock} {start : Option Nat} {b : Nat}
    (hPre : ∀ {a : Nat} {block : EdgeBlock}, edges[a]? = some block →
      ∃ block', edges'[a]? = some block' ∧ block'.preBlockIndex = block.preBlockIndex)
    (h : Reaches edges start b) : Reaches edges' start b := by
  induction h with
  | here b => exact .here b
  | back ha _ ih =>
    obtain ⟨block', ha', hEq⟩ := hPre ha
    exact .back ha' (hEq ▸ ih)

/-- What `delete_vertex` does to the blocks: those on the chain become tombstones. -/
theorem tombstoneBlocks_block {fuel : Nat} {start : Option Nat}
    (h : tombstoneBlocks g fuel start = some g') :
    (∃ edges', g' = { g with edges := edges' }) ∧ g'.edges.length = g.edges.length ∧
      ∀ {b : Nat} {block' : EdgeBlock}, g'.edges[b]? = some block' →
        ∃ block, g.edges[b]? = some block ∧
          ((Reaches g.edges start b ∧ block' = { block with isTombstone := true }) ∨
            (¬ Reaches g.edges start b ∧ block' = block)) := by
  induction fuel generalizing g start with
  | zero =>
    cases start with
    | none =>
      obtain rfl : g = g' := Option.some.inj h
      exact ⟨⟨g.edges, rfl⟩, rfl, fun hb => ⟨_, hb, .inr ⟨not_reaches_none, rfl⟩⟩⟩
    | some a => cases h
  | succ fuel ih =>
    cases start with
    | none =>
      obtain rfl : g = g' := Option.some.inj h
      exact ⟨⟨g.edges, rfl⟩, rfl, fun hb => ⟨_, hb, .inr ⟨not_reaches_none, rfl⟩⟩⟩
    | some a =>
      unfold tombstoneBlocks at h
      split at h
      · cases h
      · rename_i blockA ha
        obtain ⟨⟨edges', rfl⟩, hLength, hBlocks⟩ := ih h
        rw [List.length_set] at hLength
        have hSet : ∀ b, (g.edges.set a { blockA with isTombstone := true })[b]? =
            if a = b then some { blockA with isTombstone := true } else g.edges[b]? := by
          intro b
          rw [List.getElem?_set]
          simp only [(List.getElem?_eq_some_iff.mp ha).1, if_true]
        have hPre : ∀ {start b}, Reaches (g.edges.set a { blockA with isTombstone := true })
            start b ↔ Reaches g.edges start b := by
          intro start b
          constructor
          · refine Reaches.congr fun {c block} hc => ?_
            rw [hSet] at hc
            split at hc
            · rename_i hEq
              cases hc
              exact ⟨blockA, hEq ▸ ha, rfl⟩
            · exact ⟨block, hc, rfl⟩
          · refine Reaches.congr fun {c block} hc => ?_
            rw [hSet]
            split
            · rename_i hEq
              subst hEq
              obtain rfl := Option.some.inj (ha.symm.trans hc)
              exact ⟨_, rfl, rfl⟩
            · exact ⟨block, hc, rfl⟩
        refine ⟨⟨edges', rfl⟩, hLength, fun {b block'} hb => ?_⟩
        obtain ⟨block₁, hb₁, hCase⟩ := hBlocks hb
        have hAt : (g.edges.set a { blockA with isTombstone := true })[b]? = some block₁ := hb₁
        rw [hSet] at hAt
        simp only [hPre] at hCase
        rw [reaches_some ha]
        split at hAt
        · rename_i hEq
          subst hEq
          cases hAt
          refine ⟨blockA, ha, .inl ⟨.inl rfl, ?_⟩⟩
          rcases hCase with ⟨-, rfl⟩ | ⟨-, rfl⟩ <;> rfl
        · rename_i hNe
          refine ⟨block₁, hAt, ?_⟩
          rcases hCase with ⟨hReach, rfl⟩ | ⟨hReach, rfl⟩
          · exact .inl ⟨.inr hReach, rfl⟩
          · refine .inr ⟨?_, rfl⟩
            rintro (rfl | h')
            · exact hNe rfl
            · exact hReach h'

/-- `delete_vertex` when it returns: an error and no change, or the vertex out of the
vector and its blocks tombstoned. -/
theorem deleteVertex_cases {vid : Nat} {r : OlapStorage V × Except StorageError Unit}
    (h : g.deleteVertex vid = some r) :
    ((g.vertices.findIdx? fun vertex => vertex.vid == vid) = none ∧ r.1 = g) ∨
    ∃ i vertex b, (g.vertices.findIdx? fun vertex => vertex.vid == vid) = some i ∧
      g.vertices[i]? = some vertex ∧ vertex.blockOffset = some b ∧
      tombstoneBlocks { g with vertices := g.vertices.eraseIdx i } g.edges.length (some b) =
        some r.1 := by
  unfold deleteVertex at h
  split at h
  · rename_i hNone
    cases h
    exact .inl ⟨hNone, rfl⟩
  · rename_i i hFind
    split at h
    · cases h
    · rename_i b hStart
      obtain ⟨vertex, hVertex, hOffset⟩ := Option.bind_eq_some_iff.mp hStart
      obtain ⟨g₁, hLoop, rfl⟩ := Option.map_eq_some_iff.mp h
      exact .inr ⟨i, vertex, b, hFind, hVertex, hOffset, hLoop⟩

theorem WellFormed.deleteVertex (hw : g.WellFormed) {vid : Nat}
    {r : OlapStorage V × Except StorageError Unit} (h : g.deleteVertex vid = some r) :
    r.1.WellFormed := by
  rcases deleteVertex_cases h with ⟨-, hSame⟩ | ⟨i, vertex, b, -, -, -, hLoop⟩
  · exact hSame ▸ hw
  · obtain ⟨⟨edges', hEq⟩, hLength, hBlocks⟩ := tombstoneBlocks_block hLoop
    rw [hEq] at hLength hBlocks ⊢
    have hKept : ∀ {b : Nat} {block' : EdgeBlock}, edges'[b]? = some block' → ∃ block, g.edges[b]? = some block ∧
        block'.edges = block.edges ∧ block'.preBlockIndex = block.preBlockIndex := by
      intro b block' hb
      obtain ⟨block, hb₀, ⟨-, rfl⟩ | ⟨-, rfl⟩⟩ := hBlocks hb
      · exact ⟨block, hb₀, rfl, rfl⟩
      · exact ⟨block', hb₀, rfl, rfl⟩
    refine hw.congr (fun b' o' => ?_) rfl rfl (fun {b' block' p} hb' hp => ?_)
      fun {v b'} hv hStart => ?_
    · show (edges'[b']?).bind _ = (g.edges[b']?).bind _
      cases hb' : edges'[b']? with
      | none =>
        have hLe := List.getElem?_eq_none_iff.mp hb'
        rw [List.getElem?_eq_none (hLength ▸ hLe)]
      | some block' =>
        obtain ⟨block, hb₀, hEdges, -⟩ := hKept hb'
        rw [hb₀]
        show block'.edges[o']? = block.edges[o']?
        rw [hEdges]
    · obtain ⟨block, hb₀, -, hPre⟩ := hKept hb'
      exact hw.pre_lt hb₀ (hPre ▸ hp)
    · exact hLength ▸ hw.start_lt (List.mem_of_mem_eraseIdx hv) hStart

theorem createVertex_cases {vid : Nat} {properties : List V}
    {r : OlapStorage V × Except StorageError Nat} (h : g.createVertex vid properties = some r) :
    (g.denseIdMap vid ≠ none ∧ r.1 = g) ∨
    (g.denseIdMap vid = none ∧ g.logicIdCounter ≤ g.vertices.length ∧
      r.1 = { g with
        logicIdCounter := g.logicIdCounter + 1
        denseIdMap := Function.update g.denseIdMap vid (some g.logicIdCounter)
        vertices := g.vertices.insertIdx g.logicIdCounter ⟨vid, properties, none⟩ }) := by
  unfold createVertex at h
  simp only at h
  split at h
  · rename_i i hId
    cases h
    refine .inl ⟨?_, rfl⟩
    rw [hId]
    exact Option.some_ne_none i
  · rename_i hId
    split at h
    · rename_i hLe
      cases h
      exact .inr ⟨hId, hLe, rfl⟩
    · cases h

/-- `set_vertex_property` writes at most the record of the vertex at the mapped position. -/
theorem setVertexProperty_cases {vid : Nat} {indices : List Nat} {props : List V}
    {r : OlapStorage V × Except StorageError Unit}
    (h : g.setVertexProperty vid indices props = some r) :
    r.1 = g ∨ ∃ i vertex properties, g.vertices[i]? = some vertex ∧
      r.1 = { g with vertices := g.vertices.set i { vertex with properties := properties } } := by
  unfold setVertexProperty at h
  split at h
  · cases h
    exact .inl rfl
  · rename_i i hId
    split at h
    · cases h
    · rename_i vertex hVertex
      obtain ⟨properties, -, rfl⟩ := Option.map_eq_some_iff.mp h
      exact .inr ⟨i, vertex, properties, hVertex, rfl⟩

theorem setVertexProperty_vertices {vid : Nat} {indices : List Nat} {props : List V}
    {r : OlapStorage V × Except StorageError Unit}
    (h : g.setVertexProperty vid indices props = some r) :
    ∃ vertices, r.1 = { g with vertices := vertices } := by
  rcases setVertexProperty_cases h with hSame | ⟨_, _, _, -, hEq⟩
  · exact ⟨g.vertices, hSame⟩
  · exact ⟨_, hEq⟩

theorem WellFormed.createVertex (hw : g.WellFormed) {vid : Nat} {properties : List V}
    {r : OlapStorage V × Except StorageError Nat} (h : g.createVertex vid properties = some r) :
    r.1.WellFormed := by
  rcases createVertex_cases h with ⟨-, hSame⟩ | ⟨-, hLe, hEq⟩
  · exact hSame ▸ hw
  · rw [hEq]
    refine hw.congr (fun _ _ => rfl) rfl rfl hw.pre_lt fun {v b} hv hStart => ?_
    rcases (List.mem_insertIdx hLe).mp hv with rfl | hv
    · cases hStart
    · exact hw.start_lt hv hStart

end OlapStorage

/-! ## The steps of the store -/

theorem TxnOp.run_edits {o : TxnOp V} {g g' : OlapStorage V} {txn txn' : MemTransaction}
    (h : o.run g txn = some (g', txn')) : OlapStorage.Edits g g' := by
  cases o with
  | createEdge edge =>
    obtain ⟨r, hr, hEq⟩ := Option.map_eq_some_iff.mp h
    cases hEq
    exact OlapStorage.createEdgeInTxn_edits hr
  | setEdgeProperty eid indices props =>
    obtain ⟨r, hr, hEq⟩ := Option.map_eq_some_iff.mp h
    cases hEq
    exact OlapStorage.setEdgePropertyInTxn_edits hr
  | deleteEdge eid =>
    cases h
    exact OlapStorage.deleteEdgeInTxn_edits g txn eid

/-- What a step does to the store: creating and deleting a vertex apart, it is a sequence of
writes to edges and records. -/
theorem Step.edits {s s' : OlapState V} {a : Action V} (h : Step s a s') :
    (∃ vid properties r, a = .plain (.createVertex vid properties) ∧
      s.storage.createVertex vid properties = some r ∧ s'.storage = r.1) ∨
    (∃ vid r, a = .plain (.deleteVertex vid) ∧ s.storage.deleteVertex vid = some r ∧
      s'.storage = r.1) ∨
    OlapStorage.Edits s.storage s'.storage := by
  cases a with
  | plain o =>
    obtain ⟨g, hRun, rfl⟩ := Option.map_eq_some_iff.mp h
    cases o with
    | createVertex vid properties =>
      obtain ⟨r, hr, rfl⟩ := Option.map_eq_some_iff.mp hRun
      exact .inl ⟨vid, properties, r, rfl, hr, rfl⟩
    | setVertexProperty vid indices props =>
      obtain ⟨r, hr, rfl⟩ := Option.map_eq_some_iff.mp hRun
      rcases OlapStorage.setVertexProperty_cases hr with hSame | ⟨i, vertex, record, hVertex, hEq⟩
      · exact .inr (.inr (hSame ▸ .refl))
      · exact .inr (.inr (hEq ▸ .single (.record hVertex record)))
    | deleteVertex vid =>
      obtain ⟨r, hr, rfl⟩ := Option.map_eq_some_iff.mp hRun
      exact .inr (.inl ⟨vid, r, rfl, hr, rfl⟩)
    | createEdge edge =>
      obtain ⟨r, hr, rfl⟩ := Option.map_eq_some_iff.mp hRun
      exact .inr (.inr (OlapStorage.createEdge_edits hr))
    | setEdgeProperty eid indices props =>
      obtain rfl := Option.some.inj hRun
      exact .inr (.inr (OlapStorage.setEdgeProperty_edits s.storage eid indices props))
    | deleteEdge eid =>
      obtain ⟨r, hr, rfl⟩ := Option.map_eq_some_iff.mp hRun
      exact .inr (.inr (OlapStorage.deleteEdge_edits hr))
  | begin txnId startTs =>
    have h : (if _ then _ else _) = _ := h
    split at h
    · cases h
      exact .inr (.inr .refl)
    · cases h
  | op txnId o =>
    obtain ⟨txn, -, hRun⟩ := Option.bind_eq_some_iff.mp h
    obtain ⟨⟨g, txn'⟩, hOp, rfl⟩ := Option.map_eq_some_iff.mp hRun
    exact .inr (.inr (TxnOp.run_edits hOp))
  | commit txnId commitTs =>
    obtain ⟨txn, -, rfl⟩ := Option.map_eq_some_iff.mp h
    exact .inr (.inr (OlapStorage.commitAt_edits s.storage s.gen txn commitTs))
  | abort txnId =>
    obtain ⟨txn, -, hRun⟩ := Option.bind_eq_some_iff.mp h
    obtain ⟨r, hr, rfl⟩ := Option.map_eq_some_iff.mp hRun
    exact .inr (.inr (OlapStorage.abort_edits hr))

theorem Step.wellFormed {s s' : OlapState V} {a : Action V} (hw : s.storage.WellFormed)
    (h : Step s a s') : s'.storage.WellFormed := by
  rcases h.edits with ⟨vid, properties, r, -, hr, hEq⟩ | ⟨vid, r, -, hr, hEq⟩ | hEdits
  · exact hEq ▸ hw.createVertex hr
  · exact hEq ▸ hw.deleteVertex hr
  · exact hw.edits hEdits

/-- The slots and the map fit in every state of every run, whatever its steps. -/
theorem wellFormed_of_run {P : OlapState V → Action V → Prop} {n : Nat}
    {trace : List (OlapState V × Action V)} {s : OlapState V}
    (h : Run Step P (.init n) trace s) : s.storage.WellFormed :=
  h.stateInvariant (I := fun s => s.storage.WellFormed) (OlapStorage.WellFormed.new n) fun _ _ _ hw _ hs => Step.wellFormed hw hs

end Olap

end MiniGU
