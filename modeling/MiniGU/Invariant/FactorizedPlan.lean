import MiniGU.Invariant.Aggregated
import MiniGU.Model.PathPattern

/-!
# Factorized plans beside flat ones

A factorized plan is a transfer followed by expands and flattens; its layout says which columns
of the flat rows each chunk of its result sets holds. The flat plan beside it expands the same
columns, and flattens what each expand appended.
-/

namespace MiniGU

inductive FactorizedOp where
  | expand (pos : DataPos)
  | flatten (target : Nat)
deriving DecidableEq, Repr

/-- The number of columns after the expands of a chain. -/
def chainWidth (cols : List Nat) : Nat := 2 * cols.length + 1

/-- The plan expands the given columns of the flat rows, one after the other, and ends in result
sets of the given layout. -/
inductive Planned : List FactorizedOp → List Nat → List Slot → Prop
  | transfer : Planned [] [] [⟨true, [0]⟩]
  | expand {ops : List FactorizedOp} {cols : List Nat} {layout : List Slot} {pos : DataPos}
      {slot : Slot} {col : Nat} (plan : Planned ops cols layout)
      (hSlot : layout[pos.dataChunkPos]? = some slot) (hFlat : slot.flat = true)
      (hCol : slot.cols[pos.columnPos]? = some col) :
      Planned (ops ++ [.expand pos]) (cols ++ [col])
        (layout ++ [⟨false, [chainWidth cols, chainWidth cols + 1]⟩])
  | flatten {ops : List FactorizedOp} {cols : List Nat} {layout : List Slot} {target first : Nat}
      {targetSlot flatSlot : Slot} (plan : Planned ops cols layout)
      (hTarget : layout[target]? = some targetSlot) (hUnflat : targetSlot.flat = false)
      (hFirst : layout.findIdx? Slot.flat = some first) (hFlat : layout[first]? = some flatSlot) :
      Planned (ops ++ [.flatten target]) cols
        (swapRemoveAll layout [first, target] ++ [⟨true, flatSlot.cols ++ targetSlot.cols⟩])

section Pipelines

variable (source : ExpandSource)

/-- The input vertices in batches. -/
def inputChunks (ids : List (List Nat)) : List Chunk :=
  ids.map fun batch => DataChunk.new [idColumn batch]

def FactorizedOp.run (child : List IdResultSet) : FactorizedOp → ExecutionResult (List IdResultSet)
  | .expand pos => FactorizedExecutor.factorizedExpand source pos child
  | .flatten target => FactorizedExecutor.factorizedFlatten target child

def factorizedPipeline (ids : List (List Nat)) (ops : List FactorizedOp) :
    ExecutionResult (List IdResultSet) :=
  ops.foldlM (fun child op => op.run source child)
    (FactorizedExecutor.factorizedTransfer (inputChunks ids))

/-- The expand of one column with the flatten of what it appends to rows of `w` columns. -/
def flatStep (chunks : List Chunk) (col w : Nat) : ExecutionResult (List Chunk) := do
  let expanded ← Executor.expand source col none none chunks
  Executor.flatten [w, w + 1] expanded

def flatPipeline (ids : List (List Nat)) (cols : List Nat) : ExecutionResult (List Chunk) :=
  cols.zipIdx.foldlM (fun chunks p => flatStep source chunks p.1 (2 * p.2 + 1)) (inputChunks ids)

variable {source} {ids : List (List Nat)} {ops : List FactorizedOp} {cols : List Nat}

theorem factorizedPipeline_concat (op : FactorizedOp) :
    factorizedPipeline source ids (ops ++ [op]) =
      (factorizedPipeline source ids ops >>= fun child => op.run source child) := by
  unfold factorizedPipeline
  rw [List.foldlM_append]
  simp

theorem flatPipeline_concat (col : Nat) :
    flatPipeline source ids (cols ++ [col]) =
      (flatPipeline source ids cols >>= fun chunks => flatStep source chunks col (chainWidth cols)) := by
  unfold flatPipeline
  rw [List.zipIdx_append, List.foldlM_append]
  simp [chainWidth]

end Pipelines

/-! ## The flat rows -/

section Rows

variable (pairs : Nat → List (List (Nat × Nat))) (ids : List (List Nat))

def chainRows (cols : List Nat) : List (List Nat) :=
  cols.foldl (fun rows col => Executor.expandRowsAt pairs col rows) (ids.flatten.map fun v => [v])

variable {pairs ids} {source : ExpandSource} {cols : List Nat}

theorem chainRows_concat (col : Nat) : chainRows pairs ids (cols ++ [col]) =
    Executor.expandRowsAt pairs col (chainRows pairs ids cols) := by
  unfold chainRows
  rw [List.foldl_append]
  rfl

theorem inputChunks_eq : inputChunks ids = (ids.map fun batch => batch.map fun v => [v]).map (table 1) := by
  unfold inputChunks
  rw [List.map_map]
  refine List.map_congr_left fun batch _ => ?_
  show DataChunk.new [idColumn batch] = DataChunk.new [columnOf (batch.map fun v => [v]) 0]
  have hColumn : (batch.map fun v => [v]).map (fun r => r.getD 0 0) = batch := by
    rw [List.map_map]
    exact List.map_id' batch
  rw [columnOf, hColumn]

theorem inputChunks_tabled : Tabled 1 (inputChunks ids) (ids.flatten.map fun v => [v]) := by
  refine ⟨_, inputChunks_eq, (List.map_flatten ..).symm, fun r hr => ?_⟩
  obtain ⟨v, -, rfl⟩ := List.mem_map.mp hr
  rfl

/-- Each expand of the chain is of a column that is there. -/
def InRange (cols : List Nat) : Prop := ∀ init col, (init ++ [col]) <+: cols → col < chainWidth init

theorem InRange.init {col : Nat} (h : InRange (cols ++ [col])) : InRange cols :=
  fun init c hPrefix => h init c (hPrefix.trans (List.prefix_append ..))

theorem flatPipeline_ok (hPairs : Executor.Pairs source none none pairs) (h : InRange cols) :
    ∃ chunks, flatPipeline source ids cols = .ok chunks ∧
      Tabled (chainWidth cols) chunks (chainRows pairs ids cols) := by
  induction cols using List.reverseRecOn with
  | nil => exact ⟨_, rfl, inputChunks_tabled⟩
  | append_singleton cols col ih =>
    obtain ⟨chunks, hRun, hTabled⟩ := ih h.init
    have hCol := h cols col (List.prefix_refl _)
    obtain ⟨expanded, chunks', hExpand, hFlatten, hTabled'⟩ :=
      Executor.expand_flatten_tabled hCol hTabled hPairs
    refine ⟨chunks', ?_, ?_⟩
    · rw [flatPipeline_concat, hRun, ok_bind, flatStep, hExpand, ok_bind]
      exact hFlatten
    · rw [chainRows_concat]
      have hWidth : chainWidth (cols ++ [col]) = chainWidth cols + 2 := by
        unfold chainWidth
        rw [List.length_append, List.length_singleton]
        omega
      rw [hWidth]
      exact hTabled'

end Rows

/-! ## Layouts -/

namespace Planned

variable {ops : List FactorizedOp} {cols : List Nat} {layout : List Slot}

/-- The chunks of a layout hold every column of the flat rows once. -/
theorem perm_range (h : Planned ops cols layout) :
    (layout.flatMap Slot.cols).Perm (List.range (chainWidth cols)) := by
  induction h with
  | transfer => exact .refl _
  | @expand ops cols layout pos slot col plan hSlot hFlat hCol ih =>
    have hWidth : chainWidth (cols ++ [col]) = chainWidth cols + 1 + 1 := by
      unfold chainWidth
      rw [List.length_append, List.length_singleton]
      omega
    rw [hWidth, List.range_succ, List.range_succ, List.append_assoc, List.flatMap_append]
    exact ih.append_right _
  | @flatten ops cols layout target first targetSlot flatSlot plan hTarget hUnflat hFirst hFlat ih =>
    have hNe : first ≠ target := by
      rintro rfl
      obtain ⟨hBound, hAt, -⟩ := List.findIdx?_eq_some_iff_getElem.mp hFirst
      obtain ⟨_, rfl⟩ := List.getElem?_eq_some_iff.mp hTarget
      rw [hUnflat] at hAt
      cases hAt
    have hPerm := (perm_swapRemoveAll hNe hFlat hTarget).flatMap_right Slot.cols
    refine List.Perm.trans ?_ (hPerm.symm.trans ih)
    simp only [List.flatMap_append, List.flatMap_cons, List.flatMap_nil, List.append_nil]
    rw [← List.append_assoc flatSlot.cols]
    exact List.perm_append_comm

theorem nodup (h : Planned ops cols layout) : (layout.flatMap Slot.cols).Nodup :=
  h.perm_range.nodup_iff.mpr List.nodup_range

theorem lt_of_mem (h : Planned ops cols layout) {c : Nat} (hc : c ∈ layout.flatMap Slot.cols) :
    c < chainWidth cols := List.mem_range.mp (h.perm_range.mem_iff.mp hc)

theorem inRange (h : Planned ops cols layout) : InRange cols := by
  induction h with
  | transfer =>
    intro init col hPrefix
    have hLength := hPrefix.length_le
    simp at hLength
  | @expand ops cols layout pos slot col plan hSlot hFlat hCol ih =>
    intro init c hPrefix
    rcases List.prefix_concat_iff.mp hPrefix with hEq | hPrefix
    · obtain ⟨rfl, hc⟩ := List.append_inj' hEq rfl
      obtain rfl : c = col := by simpa using hc
      exact plan.lt_of_mem (List.mem_flatMap.mpr
        ⟨slot, List.mem_of_getElem? hSlot, List.mem_of_getElem? hCol⟩)
    · exact ih init c hPrefix
  | flatten _ _ _ _ _ ih => exact ih

theorem layout_ne_nil (h : Planned ops cols layout) : layout ≠ [] := by
  cases h <;> simp

end Planned

/-! ## Simulation -/

section Simulation

/-- The flat row of an assignment. -/
def rowAt (w : Nat) (τ : Nat → Nat) : List Nat := (List.range w).map τ

/-- Every unflat part has as many rows as there are edges beside the edge of any of them. -/
def Part.Full (siblings : Nat → Nat) (x : Part) : Prop :=
  x.slot.flat = false → ∀ r ∈ x.rows, x.rows.length = siblings (r.getD 0 0)

/-- The result sets are of the layout, with full parts, and stand for the rows. -/
def Simulates (siblings : Nat → Nat) (layout : List Slot) (w : Nat) (rss : List IdResultSet)
    (rows : List (List Nat)) : Prop :=
  ∃ sets : List (List Part), rss = sets.map ofParts ∧ (∀ P ∈ sets, P.map Part.slot = layout) ∧
    (∀ P ∈ sets, ∀ x ∈ P, x.Full siblings) ∧
    (sets.flatMap fun P => (Part.assigned P).map (rowAt w)).Perm rows

theorem Part.cols_of_layout {P : List Part} {layout : List Slot} (h : P.map Part.slot = layout) :
    Part.cols P = layout.flatMap Slot.cols := by
  rw [← h, List.flatMap_map]
  rfl

theorem rowAt_getD {w c : Nat} (h : c < w) (τ : Nat → Nat) : (rowAt w τ).getD c 0 = τ c := by
  unfold rowAt
  simp [h]

variable {layout : List Slot} {P : List Part}

/-- What an assignment holds under the columns of a part is one of its rows. -/
theorem Part.map_mem_rows (hNodup : (Part.cols P).Nodup) {x : Part} (hx : x ∈ P) {τ : Nat → Nat}
    (hτ : τ ∈ Part.assigned P) : x.slot.cols.map τ ∈ x.rows := by
  have hFactor : x.factor ∈ P.map Part.factor := List.mem_map_of_mem hx
  exact map_mem_of_mem_assignments (Part.pairwise_apart hNodup) hFactor (Part.nodup_cols hNodup hx)
    (fun r hr => x.fits.length_of_mem hr) hτ

/-- The part that the transfer makes of row `i` of a batch. -/
def transferPart (batch : List Nat) (i : Fin batch.length) : Part where
  slot := ⟨true, [0]⟩
  chunk := (table 1 (batch.map fun v => [v])).setCurIdx (some i.1)
  rows := [[batch[i.1]]]
  fits := @Fits.flat [0] _ _ _ (by simp) (by simp) (by simp)

theorem factorizedTransfer_inputChunks (ids : List (List Nat)) :
    FactorizedExecutor.factorizedTransfer (inputChunks ids) =
      (ids.flatMap fun batch => (List.finRange batch.length).map fun i => [transferPart batch i]).map
        ofParts := by
  unfold FactorizedExecutor.factorizedTransfer
  rw [inputChunks_eq, List.flatMap_map, List.flatMap_map, List.map_flatMap]
  refine List.flatMap_congr fun batch _ => ?_
  have hLen : (table 1 (batch.map fun v => [v])).len = batch.length := by
    rw [table_len Nat.one_pos, List.length_map]
  rw [table_compact, hLen, ← List.map_coe_finRange_eq_range, List.map_map, List.map_map]
  rfl

theorem simulates_transfer (siblings : Nat → Nat) (ids : List (List Nat)) :
    Simulates siblings [⟨true, [0]⟩] 1 (FactorizedExecutor.factorizedTransfer (inputChunks ids))
      (ids.flatten.map fun v => [v]) := by
  refine ⟨_, factorizedTransfer_inputChunks ids, fun P hP => ?_, fun P hP x hx hUnflat => ?_,
    List.Perm.of_eq ?_⟩
  · obtain ⟨batch, -, hP⟩ := List.mem_flatMap.mp hP
    obtain ⟨i, -, rfl⟩ := List.mem_map.mp hP
    rfl
  · obtain ⟨batch, -, hP⟩ := List.mem_flatMap.mp hP
    obtain ⟨i, -, rfl⟩ := List.mem_map.mp hP
    obtain rfl := List.mem_singleton.mp hx
    cases hUnflat
  · rw [List.flatMap_assoc, List.map_flatten, ← List.flatMap_def]
    refine List.flatMap_congr fun batch _ => ?_
    have hBatch : (List.finRange batch.length).map (fun i => batch[i.1]) = batch :=
      List.map_getElem_finRange batch
    have hRows := congrArg (List.map fun v => [v]) hBatch
    rw [List.map_map] at hRows
    rw [List.flatMap_map, ← hRows, List.map_eq_flatMap]
    rfl

/-! ### Expand -/

open FactorizedExecutor

variable {source : ExpandSource} {pairs : Nat → List (List (Nat × Nat))} {siblings : Nat → Nat}

/-- The vertex at the cursor of a flat part. -/
def vertexAt (pos : DataPos) (P : List Part) : Nat :=
  ((P[pos.dataChunkPos]?.bind fun x => x.rows.head?).getD []).getD pos.columnPos 0

def expandParts (pairs : Nat → List (List (Nat × Nat))) (pos : DataPos) (w : Nat) (P : List Part) :
    List Part :=
  if h : (pairs (vertexAt pos P)).flatten = [] then P else P ++ [neighborPart w _ h]

theorem expandResultSet_eq (hPairs : Executor.Pairs source none none pairs)
    (hBatches : ∀ v, ∀ b ∈ pairs v, b ≠ []) {pos : DataPos} {x : Part}
    (hx : P[pos.dataChunkPos]? = some x) (hFlat : x.slot.flat = true)
    (hCol : pos.columnPos < x.slot.cols.length) (w : Nat) :
    expandResultSet source pos (ofParts P) = .ok (ofParts (expandParts pairs pos w P)) := by
  obtain ⟨r, rows, hRows⟩ := List.exists_cons_of_ne_nil x.fits.rows_ne_nil
  have hVertex : vertexAt pos P = r.getD pos.columnPos 0 := by
    unfold vertexAt
    rw [hx, Option.bind_some, hRows]
    rfl
  have hr : r ∈ x.rows := hRows ▸ List.mem_cons_self ..
  rw [expandResultSet_parts hPairs hBatches hx hFlat hCol hr w]
  unfold expandParts
  simp only [hVertex]
  split <;> rfl

/-- The column that is expanded holds the vertex at the cursor. -/
theorem vertexAt_eq (hNodup : (Part.cols P).Nodup) {pos : DataPos} {x : Part}
    (hx : P[pos.dataChunkPos]? = some x) (hFlat : x.slot.flat = true) {col : Nat}
    (hCol : x.slot.cols[pos.columnPos]? = some col) {τ : Nat → Nat} (hτ : τ ∈ Part.assigned P) :
    vertexAt pos P = τ col := by
  have hMem := Part.map_mem_rows hNodup (List.mem_of_getElem? hx) hτ
  unfold vertexAt
  rw [hx, Option.bind_some]
  obtain ⟨slot, chunk, rows, fits⟩ := x
  cases fits with
  | unflat => cases hFlat
  | flat =>
    rename_i cols all i r hCols hAll hi
    obtain rfl : cols.map τ = r := List.mem_singleton.mp hMem
    show (cols.map τ).getD pos.columnPos 0 = τ col
    have hAt : cols[pos.columnPos]? = some col := hCol
    rw [List.getD_eq_getElem?_getD, List.getElem?_map, hAt]
    rfl

theorem rowAt_assign {w : Nat} (τ : Nat → Nat) (e v : Nat) :
    rowAt (w + 2) (assign τ [w, w + 1] [e, v]) = rowAt w τ ++ [e, v] := by
  unfold rowAt
  rw [List.range_succ, List.range_succ, List.append_assoc, List.map_append]
  congr 1
  · refine List.map_congr_left fun i hi => assign_of_notMem ?_ _
    have hLt := List.mem_range.mp hi
    simp
    omega
  · exact map_assign_of_nodup (by simp) rfl

/-- With the neighbours as a part of its own, each row is there once for each of them. -/
theorem assigned_neighborPart {w : Nat} {ns : List (Nat × Nat)} (h : ns ≠ [])
    (hNodup : (Part.cols P).Nodup) (hLt : ∀ c ∈ Part.cols P, c < w) :
    ((Part.assigned (P ++ [neighborPart w ns h])).map (rowAt (w + 2))).Perm
      ((Part.assigned P).flatMap fun τ => ns.map fun n => rowAt w τ ++ [n.1, n.2]) := by
  have hCols : (Part.cols (P ++ [neighborPart w ns h])).Nodup := by
    have hEq : Part.cols (P ++ [neighborPart w ns h]) = Part.cols P ++ [w, w + 1] := by
      unfold Part.cols
      rw [List.flatMap_append]
      rfl
    rw [hEq]
    refine List.nodup_append.mpr ⟨hNodup, by simp, fun c hc d hd => ?_⟩
    have hBound := hLt c hc
    simp at hd
    omega
  have hPerm : ((P ++ [neighborPart w ns h]).map Part.factor).Perm
      ((neighborPart w ns h).factor :: P.map Part.factor) := by
    rw [List.map_append]
    exact List.perm_append_comm
  refine ((assignments_perm hPerm (Part.pairwise_apart hCols)).map _).trans ?_
  have hSteps : (assignments (fun _ => 0) ((neighborPart w ns h).factor :: P.map Part.factor)).map
      (rowAt (w + 2)) =
      ns.flatMap fun n => (Part.assigned P).flatMap fun τ => [rowAt w τ ++ [n.1, n.2]] := by
    rw [assignments_cons, List.map_flatMap]
    show (neighborRows ns).flatMap _ = _
    unfold neighborRows
    rw [List.flatMap_map]
    refine List.flatMap_congr fun n _ => ?_
    rw [List.map_map, List.map_eq_flatMap]
    exact List.flatMap_congr fun τ _ => congrArg (fun r => [r]) (rowAt_assign τ n.1 n.2)
  rw [hSteps]
  refine (flatMap_comm_perm _ _ _).trans (List.Perm.of_eq ?_)
  exact List.flatMap_congr fun τ _ => (List.map_eq_flatMap ..).symm

section ExpandStep

variable {w : Nat} {rss : List IdResultSet} {rows : List (List Nat)} {pos : DataPos} {slot : Slot}
  {col : Nat}

theorem getElem?_of_layout (h : P.map Part.slot = layout) {k : Nat} (hSlot : layout[k]? = some slot) :
    ∃ x, P[k]? = some x ∧ x.slot = slot := by
  rw [← h, List.getElem?_map] at hSlot
  exact Option.map_eq_some_iff.mp hSlot

theorem factorizedExpand_sets (hPairs : Executor.Pairs source none none pairs)
    (hBatches : ∀ v, ∀ b ∈ pairs v, b ≠ []) (hSlot : layout[pos.dataChunkPos]? = some slot)
    (hFlat : slot.flat = true) (hCol : slot.cols[pos.columnPos]? = some col)
    {sets : List (List Part)} (hSets : ∀ P ∈ sets, P.map Part.slot = layout) :
    factorizedExpand source pos (sets.map ofParts) =
      .ok ((sets.map (expandParts pairs pos w)).map ofParts) := by
  unfold factorizedExpand
  rw [mapM_ok_iff, List.map_map, List.map_map, List.map_map]
  refine List.map_congr_left fun P hP => ?_
  obtain ⟨x, hx, rfl⟩ := getElem?_of_layout (hSets P hP) hSlot
  exact expandResultSet_eq hPairs hBatches hx hFlat (List.getElem?_eq_some_iff.mp hCol).1 w

/-- An expand on both sides keeps the result sets standing for the rows. -/
theorem Simulates.expand (h : Simulates siblings layout w rss rows)
    (hFull : ∀ v, ∀ n ∈ (pairs v).flatten, (pairs v).flatten.length = siblings n.1)
    (hPairs : Executor.Pairs source none none pairs) (hBatches : ∀ v, ∀ b ∈ pairs v, b ≠ [])
    (hNodup : (layout.flatMap Slot.cols).Nodup) (hLt : ∀ c ∈ layout.flatMap Slot.cols, c < w)
    (hSlot : layout[pos.dataChunkPos]? = some slot) (hFlat : slot.flat = true)
    (hCol : slot.cols[pos.columnPos]? = some col)
    (hNeighbors : ∀ r ∈ rows, (pairs (r.getD col 0)).flatten ≠ []) :
    ∃ rss', factorizedExpand source pos rss = .ok rss' ∧
      Simulates siblings (layout ++ [⟨false, [w, w + 1]⟩]) (w + 2) rss'
        (Executor.expandRowsAt pairs col rows) := by
  obtain ⟨sets, rfl, hSets, hParts, hBag⟩ := h
  have hColLt : col < w := hLt col (List.mem_flatMap.mpr
    ⟨slot, List.mem_of_getElem? hSlot, List.mem_of_getElem? hCol⟩)
  -- in every result set the vertex is the one that the assignments hold
  have hVertex : ∀ P ∈ sets, ∀ τ ∈ Part.assigned P, vertexAt pos P = τ col := by
    intro P hP τ hτ
    obtain ⟨x, hx, rfl⟩ := getElem?_of_layout (hSets P hP) hSlot
    exact vertexAt_eq (Part.cols_of_layout (hSets P hP) ▸ hNodup) hx hFlat hCol hτ
  have hExpanded : ∀ P ∈ sets, ∃ hNe : (pairs (vertexAt pos P)).flatten ≠ [],
      expandParts pairs pos w P = P ++ [neighborPart w _ hNe] := by
    intro P hP
    obtain ⟨τ, hτ⟩ := List.exists_mem_of_ne_nil _ (Part.assigned_ne_nil P)
    have hRow := hNeighbors (rowAt w τ) (hBag.mem_iff.mp
      (List.mem_flatMap.mpr ⟨P, hP, List.mem_map_of_mem hτ⟩))
    rw [rowAt_getD hColLt, ← hVertex P hP τ hτ] at hRow
    exact ⟨hRow, dif_neg hRow⟩
  refine ⟨_, factorizedExpand_sets (w := w) hPairs hBatches hSlot hFlat hCol hSets, _, rfl, ?_, ?_, ?_⟩
  · intro Q hQ
    obtain ⟨P, hP, rfl⟩ := List.mem_map.mp hQ
    obtain ⟨hNe, hEq⟩ := hExpanded P hP
    rw [hEq, List.map_append, hSets P hP]
    rfl
  · intro Q hQ x hx
    obtain ⟨P, hP, rfl⟩ := List.mem_map.mp hQ
    obtain ⟨hNe, hEq⟩ := hExpanded P hP
    rw [hEq] at hx
    rcases List.mem_append.mp hx with hx | hx
    · exact hParts P hP x hx
    · -- the new part holds all edges of one vertex
      obtain rfl := List.mem_singleton.mp hx
      intro _ r hr
      obtain ⟨n, hn, rfl⟩ := List.mem_map.mp hr
      show (neighborRows _).length = _
      unfold neighborRows
      rw [List.length_map]
      exact hFull _ n hn
  · rw [List.flatMap_map]
    have hSets' : (sets.flatMap fun P => (Part.assigned (expandParts pairs pos w P)).map
        (rowAt (w + 2))).Perm
        (sets.flatMap fun P => (Part.assigned P).flatMap fun τ =>
          (pairs (τ col)).flatten.map fun n => rowAt w τ ++ [n.1, n.2]) := by
      refine List.Perm.flatMap_left _ fun P hP => ?_
      obtain ⟨hNe, hEq⟩ := hExpanded P hP
      have hCols := Part.cols_of_layout (hSets P hP)
      rw [hEq]
      refine (assigned_neighborPart hNe (hCols ▸ hNodup) (hCols ▸ hLt)).trans (List.Perm.of_eq ?_)
      exact List.flatMap_congr fun τ hτ => by rw [hVertex P hP τ hτ]
    refine hSets'.trans ?_
    have hRows := hBag.flatMap_right fun r => (pairs (r.getD col 0)).flatten.map fun n => r ++ [n.1, n.2]
    rw [List.flatMap_assoc] at hRows
    refine (List.Perm.of_eq ?_).trans hRows
    refine List.flatMap_congr fun P _ => ?_
    rw [List.flatMap_map]
    exact List.flatMap_congr fun τ _ => by rw [rowAt_getD hColLt]

end ExpandStep

/-! ### Flatten -/

section FlattenStep

variable {w : Nat} {rss : List IdResultSet} {rows : List (List Nat)} {target first : Nat}
  {targetSlot flatSlot : Slot}

/-- Merging a flat row into each row of an unflat part does not change the tuples of the parts. -/
theorem assigned_merged {x y : Part} {rest merged : List Part} {r : List Nat}
    (hPerm : P.Perm (x :: y :: rest)) (hNodup : (Part.cols P).Nodup) (hx : x.rows = [r])
    (hMerged : merged.map (fun m => (m.slot, m.rows)) =
      y.rows.map fun t => (⟨true, x.slot.cols ++ y.slot.cols⟩, [r ++ t])) :
    (merged.flatMap fun m => Part.assigned (rest ++ [m])).Perm (Part.assigned P) := by
  have hFactors : (P.map Part.factor).Perm (x.factor :: y.factor :: rest.map Part.factor) :=
    hPerm.map _
  have hLength : x.slot.cols.length = r.length := x.fits.length_of_mem (hx ▸ List.mem_singleton_self r)
  -- the merged part comes first, as the two parts do in the permuted list
  have hEach : ∀ m ∈ merged, (Part.assigned (rest ++ [m])).Perm
      (m.rows.flatMap fun r' => (Part.assigned rest).map fun τ => assign τ m.slot.cols r') := by
    intro m hm
    have hMem : (m.slot, m.rows) ∈ y.rows.map fun t => (Slot.mk true (x.slot.cols ++ y.slot.cols),
        [r ++ t]) := hMerged ▸ List.mem_map_of_mem hm
    obtain ⟨t, -, hm⟩ := List.mem_map.mp hMem
    obtain ⟨hSlot, -⟩ := Prod.mk.inj hm
    have hCols : (Part.cols (rest ++ [m])).Perm (Part.cols P) := by
      have hMoved := hPerm.flatMap_right fun x => x.slot.cols
      unfold Part.cols
      simp only [List.flatMap_append, List.flatMap_cons, List.flatMap_nil, List.append_nil] at hMoved ⊢
      rw [← hSlot]
      refine List.Perm.trans ?_ hMoved.symm
      rw [← List.append_assoc x.slot.cols]
      exact List.perm_append_comm
    have hMove : ((rest ++ [m]).map Part.factor).Perm (m.factor :: rest.map Part.factor) := by
      rw [List.map_append]
      exact List.perm_append_comm
    exact assignments_perm hMove (Part.pairwise_apart (hCols.nodup_iff.mpr hNodup))
  refine (List.Perm.flatMap_left _ hEach).trans ?_
  have hSlots : (merged.flatMap fun m => m.rows.flatMap fun r' =>
      (Part.assigned rest).map fun τ => assign τ m.slot.cols r') =
      (merged.map fun m => (m.slot, m.rows)).flatMap fun p => p.2.flatMap fun r' =>
        (Part.assigned rest).map fun τ => assign τ p.1.cols r' := by
    rw [List.flatMap_map]
  rw [hSlots, hMerged, List.flatMap_map]
  refine List.Perm.trans (List.Perm.of_eq ?_)
    (assignments_perm hFactors (Part.pairwise_apart hNodup)).symm
  rw [assignments_cons, assignments_cons]
  show _ = x.rows.flatMap _
  rw [hx, List.flatMap_singleton, List.map_flatMap]
  refine List.flatMap_congr fun t _ => ?_
  rw [List.flatMap_singleton, List.map_map]
  exact List.map_congr_left fun τ _ => assign_append _ _ hLength

/-- Flattening gives one set of parts for each row, which together have the same tuples. -/
theorem flattenResultSet_sets (hNodup : (Part.cols P).Nodup) (hLayout : P.map Part.slot = layout)
    (hTarget : layout[target]? = some targetSlot) (hUnflat : targetSlot.flat = false)
    (hFirst : layout.findIdx? Slot.flat = some first) (hFlat : layout[first]? = some flatSlot) :
    ∃ sets : List (List Part), flattenResultSet target (ofParts P) = .ok (sets.map ofParts) ∧
      sets ≠ [] ∧
      (∀ Q ∈ sets, Q.map Part.slot =
        swapRemoveAll layout [first, target] ++ [⟨true, flatSlot.cols ++ targetSlot.cols⟩]) ∧
      (∀ Q ∈ sets, ∀ z ∈ Q, z.slot.flat = false → z ∈ P) ∧
      (sets.flatMap Part.assigned).Perm (Part.assigned P) := by
  obtain ⟨y, hy, rfl⟩ := getElem?_of_layout hLayout hTarget
  obtain ⟨x, hx, rfl⟩ := getElem?_of_layout hLayout hFlat
  have hFirst' : P.findIdx? (fun x => x.slot.flat) = some first := by
    rw [← hLayout, List.findIdx?_map] at hFirst
    exact hFirst
  have hFlatSlot : x.slot.flat = true := by
    obtain ⟨hBound, hAt, -⟩ := List.findIdx?_eq_some_iff_getElem.mp hFirst'
    obtain ⟨_, rfl⟩ := List.getElem?_eq_some_iff.mp hx
    exact hAt
  have hRow : ∃ r, x.rows = [r] := by
    obtain ⟨slot, chunk, rows, fits⟩ := x
    cases fits with
    | flat => exact ⟨_, rfl⟩
    | unflat => cases hFlatSlot
  obtain ⟨r, hRow⟩ := hRow
  have hNe : first ≠ target := by
    rintro rfl
    obtain rfl : y = x := Option.some.inj (hy.symm.trans hx)
    rw [hUnflat] at hFlatSlot
    cases hFlatSlot
  obtain ⟨merged, hRun, hMerged⟩ := flattenResultSet_parts hy hUnflat hFirst' hx
    (hRow ▸ List.mem_singleton_self r)
  have hSlots : ∀ m ∈ merged, m.slot = ⟨true, x.slot.cols ++ y.slot.cols⟩ := by
    intro m hm
    have hMem : (m.slot, m.rows) ∈ y.rows.map fun t => (Slot.mk true (x.slot.cols ++ y.slot.cols),
        [r ++ t]) := hMerged ▸ List.mem_map_of_mem hm
    obtain ⟨t, -, hm⟩ := List.mem_map.mp hMem
    exact (Prod.mk.inj hm).1.symm
  refine ⟨merged.map fun m => swapRemoveAll P [first, target] ++ [m], ?_, ?_, ?_, ?_, ?_⟩
  · rw [hRun, List.map_map]
    rfl
  · intro hNil
    have hMergedNil : merged = [] := List.map_eq_nil_iff.mp hNil
    rw [hMergedNil] at hMerged
    exact y.fits.rows_ne_nil (List.map_eq_nil_iff.mp hMerged.symm)
  · intro Q hQ
    obtain ⟨m, hm, rfl⟩ := List.mem_map.mp hQ
    rw [List.map_append, map_swapRemoveAll, hLayout, List.map_singleton, hSlots m hm]
  · intro Q hQ z hz hUnflatPart
    obtain ⟨m, hm, rfl⟩ := List.mem_map.mp hQ
    rcases List.mem_append.mp hz with hz | hz
    · exact (perm_swapRemoveAll hNe hx hy).mem_iff.mpr
        (List.mem_cons_of_mem _ (List.mem_cons_of_mem _ hz))
    · rw [List.mem_singleton.mp hz, hSlots m hm] at hUnflatPart
      cases hUnflatPart
  · rw [List.flatMap_map]
    exact assigned_merged (perm_swapRemoveAll hNe hx hy) hNodup hRow hMerged

/-- Flattening the result sets does not change the rows that they stand for. -/
theorem Simulates.flatten (h : Simulates siblings layout w rss rows)
    (hNodup : (layout.flatMap Slot.cols).Nodup)
    (hTarget : layout[target]? = some targetSlot) (hUnflat : targetSlot.flat = false)
    (hFirst : layout.findIdx? Slot.flat = some first) (hFlat : layout[first]? = some flatSlot) :
    ∃ rss', factorizedFlatten target rss = .ok rss' ∧
      Simulates siblings (swapRemoveAll layout [first, target] ++
        [⟨true, flatSlot.cols ++ targetSlot.cols⟩]) w rss' rows := by
  obtain ⟨sets, rfl, hSets, hParts, hBag⟩ := h
  have hEach : ∀ P, ∃ out : List (List Part), P ∈ sets →
      flattenResultSet target (ofParts P) = .ok (out.map ofParts) ∧
      (∀ Q ∈ out, Q.map Part.slot =
        swapRemoveAll layout [first, target] ++ [⟨true, flatSlot.cols ++ targetSlot.cols⟩]) ∧
      (∀ Q ∈ out, ∀ z ∈ Q, z.slot.flat = false → z ∈ P) ∧
      (out.flatMap Part.assigned).Perm (Part.assigned P) := by
    intro P
    by_cases hP : P ∈ sets
    · obtain ⟨out, hRun, -, hSlots, hKept, hPerm⟩ := flattenResultSet_sets
        (Part.cols_of_layout (hSets P hP) ▸ hNodup) (hSets P hP) hTarget hUnflat hFirst hFlat
      exact ⟨out, fun _ => ⟨hRun, hSlots, hKept, hPerm⟩⟩
    · exact ⟨[], fun h => absurd h hP⟩
  choose out hOut using hEach
  refine ⟨_, ?_, sets.flatMap out, rfl, ?_, ?_, ?_⟩
  · have hAll : (sets.map ofParts).mapM (flattenResultSet target) =
        .ok ((sets.map out).map (List.map ofParts)) := by
      rw [mapM_ok_iff, List.map_map, List.map_map, List.map_map]
      exact List.map_congr_left fun P hP => (hOut P hP).1
    unfold factorizedFlatten
    rw [hAll, ok_bind, ← List.map_flatten, ← List.flatMap_def]
  · intro Q hQ
    obtain ⟨P, hP, hQ⟩ := List.mem_flatMap.mp hQ
    exact (hOut P hP).2.1 Q hQ
  · intro Q hQ z hz hUnflatPart
    obtain ⟨P, hP, hQ⟩ := List.mem_flatMap.mp hQ
    exact hParts P hP z ((hOut P hP).2.2.1 Q hQ z hz hUnflatPart) hUnflatPart
  · refine List.Perm.trans ?_ hBag
    rw [List.flatMap_assoc]
    refine List.Perm.flatMap_left _ fun P hP => ?_
    rw [← List.map_flatMap]
    exact (hOut P hP).2.2.2.map _

end FlattenStep

/-! ### Result sets that are too narrow -/

section Short

/-- Some result set lacks columns of the flat rows. -/
def Short (w : Nat) (rss : List IdResultSet) : Prop :=
  ∃ P, ofParts P ∈ rss ∧ (Part.cols P).Nodup ∧ (∀ c ∈ Part.cols P, c < w) ∧
    (Part.cols P).length < w

variable {w : Nat} {rss rss' : List IdResultSet}

theorem mem_of_mapM_ok {α β : Type} {f : α → ExecutionResult β} {l : List α} {l' : List β}
    (h : l.mapM f = .ok l') {a : α} (ha : a ∈ l) : ∃ b ∈ l', f a = .ok b := by
  have hMem : f a ∈ l'.map .ok := mapM_ok_iff.mp h ▸ List.mem_map_of_mem ha
  obtain ⟨b, hb, hEq⟩ := List.mem_map.mp hMem
  exact ⟨b, hb, hEq.symm⟩

variable (pairs) in
theorem cols_expandParts (pos : DataPos) (hNodup : (Part.cols P).Nodup)
    (hLt : ∀ c ∈ Part.cols P, c < w) :
    (Part.cols (expandParts pairs pos w P)).Nodup ∧
      (∀ c ∈ Part.cols (expandParts pairs pos w P), c < w + 2) ∧
      (Part.cols (expandParts pairs pos w P)).length ≤ (Part.cols P).length + 2 := by
  unfold expandParts
  split
  · exact ⟨hNodup, fun c hc => by have := hLt c hc; omega, by omega⟩
  · rename_i hNe
    have hEq : Part.cols (P ++ [neighborPart w _ hNe]) = Part.cols P ++ [w, w + 1] := by
      unfold Part.cols
      rw [List.flatMap_append]
      rfl
    rw [hEq]
    refine ⟨List.nodup_append.mpr ⟨hNodup, by simp, fun c hc d hd => ?_⟩, fun c hc => ?_, ?_⟩
    · have hBound := hLt c hc
      simp at hd
      omega
    · rcases List.mem_append.mp hc with hc | hc
      · have hBound := hLt c hc
        omega
      · simp at hc
        omega
    · rw [List.length_append]
      simp

theorem Short.expand (hPairs : Executor.Pairs source none none pairs)
    (hBatches : ∀ v, ∀ b ∈ pairs v, b ≠ []) {pos : DataPos} (h : Short w rss)
    (hRun : factorizedExpand source pos rss = .ok rss') : Short (w + 2) rss' := by
  obtain ⟨P, hP, hNodup, hLt, hLength⟩ := h
  obtain ⟨rs', hMem, hExpand⟩ := mem_of_mapM_ok hRun hP
  obtain ⟨x, hx, hFlat, hCol⟩ := expandResultSet_ok hExpand
  rw [expandResultSet_eq hPairs hBatches hx hFlat hCol w, Except.ok.injEq] at hExpand
  obtain ⟨hNodup', hLt', hLength'⟩ := cols_expandParts pairs pos hNodup hLt
  exact ⟨_, hExpand ▸ hMem, hNodup', hLt', by omega⟩

/-- A result set that is too narrow stays so under a flatten. -/
theorem Short.flatten {target : Nat} (h : Short w rss)
    (hRun : factorizedFlatten target rss = .ok rss') : Short w rss' := by
  obtain ⟨P, hP, hNodup, hLt, hLength⟩ := h
  obtain ⟨flattened, hFlattened, hRss'⟩ := bind_ok_iff.mp hRun
  obtain rfl := Except.ok.inj hRss'
  obtain ⟨out, hOut, hFlatten⟩ := mem_of_mapM_ok hFlattened hP
  obtain ⟨first, x, y, hy, hUnflat, hFirst, hx⟩ := flattenResultSet_ok hFlatten
  have hTarget : (P.map Part.slot)[target]? = some y.slot := by rw [List.getElem?_map, hy]; rfl
  have hFlatSlot : (P.map Part.slot)[first]? = some x.slot := by rw [List.getElem?_map, hx]; rfl
  have hFirstSlot : (P.map Part.slot).findIdx? Slot.flat = some first := by
    rw [List.findIdx?_map]
    exact hFirst
  obtain ⟨sets, hSets, hNe, hSlots, -, -⟩ :=
    flattenResultSet_sets hNodup rfl hTarget hUnflat hFirstSlot hFlatSlot
  rw [hSets, Except.ok.injEq] at hFlatten
  obtain ⟨Q, hQ⟩ := List.exists_mem_of_ne_nil _ hNe
  -- the columns are those of before, in another order
  have hCols : (Part.cols Q).Perm (Part.cols P) := by
    have hDistinct : first ≠ target := by
      rintro rfl
      obtain rfl : y = x := Option.some.inj (hy.symm.trans hx)
      obtain ⟨hBound, hAt, -⟩ := List.findIdx?_eq_some_iff_getElem.mp hFirst
      obtain ⟨_, rfl⟩ := List.getElem?_eq_some_iff.mp hx
      rw [hUnflat] at hAt
      cases hAt
    have hPerm := (perm_swapRemoveAll hDistinct hFlatSlot hTarget).flatMap_right Slot.cols
    rw [Part.cols_of_layout (hSlots Q hQ), Part.cols_of_layout (P := P) rfl]
    simp only [List.flatMap_append, List.flatMap_cons, List.flatMap_nil, List.append_nil] at hPerm ⊢
    refine List.Perm.trans ?_ hPerm.symm
    rw [← List.append_assoc x.slot.cols]
    exact List.perm_append_comm
  refine ⟨Q, List.mem_flatten.mpr ⟨out, hOut, hFlatten ▸ List.mem_map_of_mem hQ⟩,
    hCols.nodup_iff.mpr hNodup, fun c hc => hLt c (hCols.mem_iff.mp hc), ?_⟩
  rw [hCols.length_eq]
  exact hLength

/-- An expand leaves the result set of a vertex without neighbours as it is. -/
theorem Simulates.short {layout : List Slot} {rows : List (List Nat)} {pos : DataPos} {slot : Slot}
    {col : Nat} (h : Simulates siblings layout w rss rows)
    (hPairs : Executor.Pairs source none none pairs) (hBatches : ∀ v, ∀ b ∈ pairs v, b ≠ [])
    (hCols : (layout.flatMap Slot.cols).Perm (List.range w))
    (hSlot : layout[pos.dataChunkPos]? = some slot) (hFlat : slot.flat = true)
    (hCol : slot.cols[pos.columnPos]? = some col) {r : List Nat} (hr : r ∈ rows)
    (hNone : (pairs (r.getD col 0)).flatten = [])
    (hRun : factorizedExpand source pos rss = .ok rss') : Short (w + 2) rss' := by
  obtain ⟨sets, rfl, hSets, -, hBag⟩ := h
  obtain ⟨P, hP, hMem⟩ := List.mem_flatMap.mp (hBag.mem_iff.mpr hr)
  obtain ⟨τ, hτ, rfl⟩ := List.mem_map.mp hMem
  have hPCols := Part.cols_of_layout (hSets P hP)
  have hNodup : (Part.cols P).Nodup := hPCols ▸ hCols.nodup_iff.mpr List.nodup_range
  have hLt : ∀ c ∈ Part.cols P, c < w := fun c hc =>
    List.mem_range.mp (hCols.mem_iff.mp (hPCols ▸ hc))
  obtain ⟨x, hx, rfl⟩ := getElem?_of_layout (hSets P hP) hSlot
  have hColLt : col < w := hLt col (List.mem_flatMap.mpr
    ⟨x, List.mem_of_getElem? hx, List.mem_of_getElem? hCol⟩)
  rw [rowAt_getD hColLt, ← vertexAt_eq hNodup hx hFlat hCol hτ] at hNone
  rw [factorizedExpand_sets (w := w) hPairs hBatches hSlot hFlat hCol hSets, Except.ok.injEq] at hRun
  have hSame : expandParts pairs pos w P = P := dif_pos hNone
  refine ⟨P, ?_, hNodup, fun c hc => by have := hLt c hc; omega, ?_⟩
  · rw [← hRun, ← hSame]
    exact List.mem_map_of_mem (List.mem_map_of_mem hP)
  · rw [hPCols, hCols.length_eq, List.length_range]
    omega

/-- The tuples of a result set that is too narrow are not rows of all columns. -/
theorem Short.not_perm (h : Short w rss) {l : List (List (Option Nat))} (hl : ∀ t ∈ l, t.length = w) :
    ¬(rss.flatMap tuples).Perm l := by
  obtain ⟨P, hP, hNodup, -, hLength⟩ := h
  intro hPerm
  obtain ⟨τ, hτ⟩ := List.exists_mem_of_ne_nil _ (Part.assigned_ne_nil P)
  have hTuple : ((Part.cols P).map τ).map some ∈ rss.flatMap tuples := by
    refine List.mem_flatMap.mpr ⟨_, hP, ?_⟩
    rw [tuples_ofParts hNodup]
    exact List.mem_map.mpr ⟨τ, hτ, rfl⟩
  have hWidth := hl _ (hPerm.mem_iff.mp hTuple)
  rw [List.length_map, List.length_map] at hWidth
  omega

end Short

end Simulation

end MiniGU
