import MiniGU.Invariant.FactorizedPlan
import MiniGU.Invariant.Filtered
import MiniGU.Invariant.PathPlan

/-!
# Factorized and flat pipelines

A chain of expands, run by the factorized executors under any plan of expands and flattens, and
by the flat ones. They agree as long as every row of every step has a neighbour to go on to: the
flat expand drops a row without, and the factorized expand passes its result set on as it is, a
tuple with columns missing that later flattens trip over and that the counts and sums include.

The sums need one thing more. The weight of a value is a product of 64 bits, and where it wraps
around to zero the value is left out.
-/

namespace MiniGU

section Statement

variable {V : Type}

namespace GraphView

variable (view : GraphView V)

/-- The edges that leave a vertex of the graph. -/
def outEdges (v : Nat) : List (Edge V) :=
  match view.getVertex v with
  | none => []
  | some _ => view.edges.filter fun e => e.srcId == v

/-- The number of edges that leave where an edge leaves. -/
def siblings (eid : Nat) : Nat :=
  match view.edges.find? fun e => e.eid == eid with
  | none => 0
  | some e => (view.outEdges e.srcId).length

end GraphView

/-- The rows of a chain: an input vertex, and for each step an edge from the vertex in the column
of the step with its target. -/
inductive ChainRow (view : GraphView V) (ids : List Nat) : List Nat → List Nat → Prop
  | start {v : Nat} (hv : v ∈ ids) : ChainRow view ids [] [v]
  | step {cols row : List Nat} {col v : Nat} {e : Edge V} (h : ChainRow view ids cols row)
      (hVertex : row[col]? = some v) (hEdge : e ∈ view.outEdges v) :
      ChainRow view ids (cols ++ [col]) (row ++ [e.eid, e.dstId])

/-- Every row of every step has a neighbour to go on to. -/
def GoesOn (view : GraphView V) (ids cols : List Nat) : Prop :=
  ∀ init col, (init ++ [col]) <+: cols → ∀ row, ChainRow view ids init row →
    ∃ v, row[col]? = some v ∧ view.outEdges v ≠ []

/-- The ids of a row in the columns of a slot. -/
def Slot.idsOf (slot : Slot) (row : List Nat) : List Nat := slot.cols.map fun c => row.getD c 0

/-- The weight of a row in chunk `k`: each other chunk that is not flat may hold any edge beside
the one of the row. -/
def weightOf (view : GraphView V) (layout : List Slot) (k : Nat) (row : List Nat) : Nat :=
  (((layout.eraseIdx k).filter fun s => !s.flat).map fun s =>
    view.siblings (row.getD (s.cols.headD 0) 0)).prod

/-- Whatever a row has in a chunk, some row has the same there with a weight that is not a multiple
of 2^64. -/
def WeightsRemain (view : GraphView V) (ids cols : List Nat) (layout : List Slot) : Prop :=
  ∀ k slot, layout[k]? = some slot → ∀ row, ChainRow view ids cols row →
    ∃ row', ChainRow view ids cols row' ∧ slot.idsOf row' = slot.idsOf row ∧
      ¬2 ^ 64 ∣ weightOf view layout k row'

/-- A flat row, arranged as the chunks of the layout hold it. -/
def arranged (layout : List Slot) (row : List (Option Nat)) : List (Option Nat) :=
  (layout.flatMap Slot.cols).map fun c => row.getD c none

section Pipelines

variable (source : ExpandSource) (ids : List (List Nat))

/-- The flat chain with a filter at its end. -/
def filteredPipeline (p : List (Option Nat) → Bool) (cols : List Nat) : ExecutionResult (List Chunk) := do
  let chunks ← flatPipeline source ids cols
  Executor.filter (rowFilter p) chunks

/-- The chain with the filter inside the lists of the last expand. -/
def listFilteredPipeline (p : List (Option Nat) → Bool) (cols : List Nat) (last : Nat) :
    ExecutionResult (List Chunk) := do
  let chunks ← flatPipeline source ids cols
  let expanded ← Executor.expand source last none none chunks
  let w := chainWidth cols
  let filtered ← Executor.factorizedFilter (listFilter p w) [w, w + 1] expanded
  Executor.flatten [w, w + 1] filtered

end Pipelines

/-- The plan and the chain beside it give the same tuples, as often, the same aggregates, and the
same rows under a filter. -/
structure PipelinesAgree {E F32 F64 : Type} [DecidableEq F32] [DecidableEq F64]
    (floats : FloatOps F32 F64) (computeError : String → E) (source : ExpandSource)
    (ids : List (List Nat)) (ops : List FactorizedOp) (cols : List Nat) (layout : List Slot) :
    Prop where
  tuples : ∃ rss chunks, factorizedPipeline source ids ops = .ok rss ∧
    flatPipeline source ids cols = .ok chunks ∧
    (rss.flatMap tuples).Perm ((chunks.flatMap idRows).map (arranged layout))
  aggregates : ∀ aggregates : List (PlanAggregate F32 F64), aggregates ≠ [] →
    (∀ a ∈ aggregates, a.Placed layout) →
    ∃ rss chunks columns, factorizedPipeline source ids ops = .ok rss ∧
      flatPipeline source ids cols = .ok chunks ∧
      StreamExecutor.factorizedAggregate floats computeError
        (aggregates.map PlanAggregate.factorized) (rss.map ResultSet.asValues) =
          .ok [StreamExecutor.flatResult columns] ∧
      StreamExecutor.aggregate floats (aggregates.map (PlanAggregate.flat (E := E) layout)) [] id []
        (chunks.map fun c => .ok c.asValues) = [.ok (DataChunk.new columns)]
  filters : ∀ p init last, cols = init ++ [last] →
    ∃ filtered chunks, listFilteredPipeline source ids p init last = .ok filtered ∧
      filteredPipeline source ids p cols = .ok chunks ∧
      (filtered.flatMap idRows).Perm (chunks.flatMap idRows)

end Statement

/-! ## The neighbours in a graph -/

section Neighbors

variable {V : Type} (view : GraphView V)

/-- The outgoing edges of a vertex with their targets, in batches. -/
def allPairs (v : Nat) : List (List (Nat × Nat)) :=
  match view.getVertex v with
  | none => []
  | some _ => (batches 64 (view.neighbors v none none)).map fun b => b.map fun n => (n.eid, n.neighborId)

variable {view}

theorem pairs_allPairs : Executor.Pairs view.expandFromVertex none none (allPairs view) := by
  intro v
  unfold GraphView.expandFromVertex allPairs
  cases view.getVertex v with
  | none => rfl
  | some u =>
    show List.map _ _ = List.map _ (List.map _ _)
    rw [List.map_map]
    refine List.map_congr_left fun b _ => ?_
    show _ = [(b.map _).map Prod.fst, (b.map _).map Prod.snd]
    rw [List.map_map, List.map_map]
    rfl

theorem ne_nil_of_mem_allPairs (v : Nat) : ∀ b ∈ allPairs view v, b ≠ [] := by
  intro b hb
  unfold allPairs at hb
  split at hb
  · cases hb
  · obtain ⟨b', hb', rfl⟩ := List.mem_map.mp hb
    intro hNil
    exact ne_nil_of_mem_batches (by decide) hb' (List.map_eq_nil_iff.mp hNil)

theorem flatten_allPairs (v : Nat) :
    (allPairs view v).flatten = (view.outEdges v).map fun e => (e.eid, e.dstId) := by
  have hNeighbors : view.neighbors v none none = view.iterAdjacencyOutgoing v := by
    have hLabels : (view.iterAdjacencyOutgoing v).filter (edgeLabelAllowed none) =
        view.iterAdjacencyOutgoing v := List.filter_eq_self.mpr fun n _ => rfl
    unfold GraphView.neighbors
    rw [hLabels]
    exact List.filter_eq_self.mpr fun n _ => rfl
  unfold allPairs GraphView.outEdges
  cases view.getVertex v with
  | none => rfl
  | some u =>
    show (List.map _ _).flatten = _
    rw [← List.map_flatten, flatten_batches (by decide), hNeighbors]
    exact List.map_map ..

theorem mem_allPairs {v : Nat} {n : Nat × Nat} : n ∈ (allPairs view v).flatten ↔
    ∃ e ∈ view.outEdges v, n = (e.eid, e.dstId) := by
  rw [flatten_allPairs, List.mem_map]
  exact exists_congr fun e => and_congr_right fun _ => eq_comm

theorem allPairs_ne_nil {v : Nat} :
    (allPairs view v).flatten ≠ [] ↔ view.outEdges v ≠ [] := by
  rw [flatten_allPairs, Ne, List.map_eq_nil_iff]

theorem siblings_of_mem {v : Nat} {e : Edge V} (he : e ∈ view.outEdges v) :
    view.siblings e.eid = (view.outEdges v).length := by
  have hEdge : e ∈ view.edges ∧ e.srcId = v := by
    unfold GraphView.outEdges at he
    split at he
    · cases he
    · obtain ⟨hMem, hSrc⟩ := List.mem_filter.mp he
      exact ⟨hMem, beq_iff_eq.mp hSrc⟩
  unfold GraphView.siblings
  rw [find?_of_nodup view.edgeIds hEdge.1, ← hEdge.2]

/-- The neighbours of a vertex are the edges beside any of them. -/
theorem length_allPairs (v : Nat) : ∀ n ∈ (allPairs view v).flatten,
    (allPairs view v).flatten.length = view.siblings n.1 := by
  intro n hn
  obtain ⟨e, he, rfl⟩ := mem_allPairs.mp hn
  rw [siblings_of_mem he, flatten_allPairs, List.length_map]

end Neighbors

/-! ## The rows of a chain -/

section Chain

variable {V : Type} {view : GraphView V} {ids : List (List Nat)} {cols : List Nat}

theorem length_of_mem_chainRows {row : List Nat} (h : row ∈ chainRows (allPairs view) ids cols) :
    row.length = chainWidth cols := by
  induction cols using List.reverseRecOn generalizing row with
  | nil =>
    obtain ⟨v, -, rfl⟩ := List.mem_map.mp h
    rfl
  | append_singleton cols col ih =>
    rw [chainRows_concat] at h
    obtain ⟨r, hr, hMem⟩ := List.mem_flatMap.mp h
    obtain ⟨n, -, rfl⟩ := List.mem_map.mp hMem
    have hLength := ih hr
    unfold chainWidth at hLength ⊢
    simp only [List.length_append, List.length_cons, List.length_nil] at hLength ⊢
    omega

theorem getElem?_of_mem_chainRows {row : List Nat} (h : row ∈ chainRows (allPairs view) ids cols)
    {col : Nat} (hCol : col < chainWidth cols) : row[col]? = some (row.getD col 0) := by
  have hBound : col < row.length := by rw [length_of_mem_chainRows h]; exact hCol
  rw [List.getD_eq_getElem?_getD, List.getElem?_eq_getElem hBound]
  rfl

/-- The rows that the flat chain computes are the rows of the chain. -/
theorem mem_chainRows (h : InRange cols) {row : List Nat} :
    row ∈ chainRows (allPairs view) ids cols ↔ ChainRow view ids.flatten cols row := by
  induction cols using List.reverseRecOn generalizing row with
  | nil =>
    constructor
    · intro hMem
      obtain ⟨v, hv, rfl⟩ := List.mem_map.mp hMem
      exact .start hv
    · intro hRow
      generalize hNil : ([] : List Nat) = cols at hRow
      cases hRow with
      | start hv => exact List.mem_map_of_mem hv
      | step => simp at hNil
  | append_singleton cols col ih =>
    have hCol := h cols col (List.prefix_refl _)
    rw [chainRows_concat]
    constructor
    · intro hMem
      obtain ⟨r, hr, hMem⟩ := List.mem_flatMap.mp hMem
      obtain ⟨n, hn, rfl⟩ := List.mem_map.mp hMem
      obtain ⟨e, he, rfl⟩ := mem_allPairs.mp hn
      exact .step ((ih h.init).mp hr) (getElem?_of_mem_chainRows hr hCol) he
    · intro hRow
      generalize hCols : cols ++ [col] = cols' at hRow
      cases hRow with
      | start => simp at hCols
      | step hRow hVertex he =>
        obtain ⟨rfl, hLast⟩ := List.append_inj' hCols rfl
        obtain rfl := (List.cons.inj hLast).1
        have hr := (ih h.init).mpr hRow
        rw [getElem?_of_mem_chainRows hr hCol, Option.some.injEq] at hVertex
        refine List.mem_flatMap.mpr ⟨_, hr, List.mem_map.mpr ⟨_, mem_allPairs.mpr ⟨_, ?_, rfl⟩, rfl⟩⟩
        exact hVertex ▸ he

theorem goesOn_nil : GoesOn view ids.flatten [] := by
  intro init col hPrefix
  have hLength := hPrefix.length_le
  simp at hLength

theorem goesOn_concat {col : Nat} (h : InRange (cols ++ [col])) :
    GoesOn view ids.flatten (cols ++ [col]) ↔ GoesOn view ids.flatten cols ∧
      ∀ r ∈ chainRows (allPairs view) ids cols, (allPairs view (r.getD col 0)).flatten ≠ [] := by
  have hCol := h cols col (List.prefix_refl _)
  have hLast : (∀ row, ChainRow view ids.flatten cols row →
      ∃ v, row[col]? = some v ∧ view.outEdges v ≠ []) ↔
      ∀ r ∈ chainRows (allPairs view) ids cols, (allPairs view (r.getD col 0)).flatten ≠ [] := by
    refine forall_congr' fun r => ?_
    rw [← mem_chainRows h.init]
    refine forall_congr' fun hr => ?_
    rw [allPairs_ne_nil, getElem?_of_mem_chainRows hr hCol]
    simp only [Option.some.injEq, exists_eq_left']
  rw [← hLast]
  constructor
  · intro hGoes
    exact ⟨fun init c hPrefix => hGoes init c (hPrefix.trans (List.prefix_append ..)),
      hGoes cols col (List.prefix_refl _)⟩
  · rintro ⟨hInit, hLast⟩ init c hPrefix
    rcases List.prefix_concat_iff.mp hPrefix with hEq | hPrefix
    · obtain ⟨rfl, hc⟩ := List.append_inj' hEq rfl
      obtain rfl : c = col := by simpa using hc
      exact hLast
    · exact hInit init c hPrefix

end Chain

/-! ## Runs of a plan -/

section Run

variable {V : Type} {view : GraphView V} {ids : List (List Nat)} {ops : List FactorizedOp}
  {cols : List Nat} {layout : List Slot}

theorem chainWidth_concat (col : Nat) : chainWidth (cols ++ [col]) = chainWidth cols + 2 := by
  unfold chainWidth
  rw [List.length_append, List.length_singleton]
  omega

/-- As long as every row goes on, the result sets stand for the rows of the chain. -/
theorem factorizedPipeline_simulates (h : Planned ops cols layout)
    (hGoes : GoesOn view ids.flatten cols) :
    ∃ rss, factorizedPipeline view.expandFromVertex ids ops = .ok rss ∧
      Simulates view.siblings layout (chainWidth cols) rss (chainRows (allPairs view) ids cols) := by
  induction h with
  | transfer => exact ⟨_, rfl, simulates_transfer view.siblings ids⟩
  | @expand ops cols layout pos slot col plan hSlot hFlat hCol ih =>
    have hRange := (plan.expand hSlot hFlat hCol).inRange
    obtain ⟨hInit, hNeighbors⟩ := (goesOn_concat hRange).mp hGoes
    obtain ⟨rss, hRun, hSim⟩ := ih hInit
    obtain ⟨rss', hExpand, hSim'⟩ := hSim.expand length_allPairs pairs_allPairs
      ne_nil_of_mem_allPairs plan.nodup (fun _ hc => plan.lt_of_mem hc) hSlot hFlat hCol hNeighbors
    refine ⟨rss', ?_, ?_⟩
    · rw [factorizedPipeline_concat, hRun, ok_bind]
      exact hExpand
    · rw [chainRows_concat, chainWidth_concat]
      exact hSim'
  | @flatten ops cols layout target first targetSlot flatSlot plan hTarget hUnflat hFirst hFlat ih =>
    obtain ⟨rss, hRun, hSim⟩ := ih hGoes
    obtain ⟨rss', hFlatten, hSim'⟩ := hSim.flatten plan.nodup hTarget hUnflat hFirst hFlat
    refine ⟨rss', ?_, hSim'⟩
    rw [factorizedPipeline_concat, hRun, ok_bind]
    exact hFlatten

theorem factorizedPipeline_short (h : Planned ops cols layout)
    (hStops : ¬GoesOn view ids.flatten cols) {rss : List IdResultSet}
    (hRun : factorizedPipeline view.expandFromVertex ids ops = .ok rss) :
    Short (chainWidth cols) rss := by
  induction h generalizing rss with
  | transfer => exact absurd goesOn_nil hStops
  | @expand ops cols layout pos slot col plan hSlot hFlat hCol ih =>
    rw [factorizedPipeline_concat] at hRun
    obtain ⟨child, hChild, hExpand⟩ := bind_ok_iff.mp hRun
    rw [chainWidth_concat]
    by_cases hInit : GoesOn view ids.flatten cols
    · -- this is the step at which a row has no neighbour
      have hRange := (plan.expand hSlot hFlat hCol).inRange
      have hNone : ∃ r ∈ chainRows (allPairs view) ids cols,
          (allPairs view (r.getD col 0)).flatten = [] := by
        by_contra hAll
        refine hStops ((goesOn_concat hRange).mpr ⟨hInit, fun r hr hNil => ?_⟩)
        exact hAll ⟨r, hr, hNil⟩
      obtain ⟨r, hr, hNil⟩ := hNone
      obtain ⟨child', hChild', hSim⟩ := factorizedPipeline_simulates plan hInit
      obtain rfl : child' = child := Except.ok.inj (hChild'.symm.trans hChild)
      exact hSim.short pairs_allPairs ne_nil_of_mem_allPairs plan.perm_range hSlot hFlat hCol hr hNil
        hExpand
    · exact (ih hInit hChild).expand pairs_allPairs ne_nil_of_mem_allPairs hExpand
  | @flatten ops cols layout target first targetSlot flatSlot plan hTarget hUnflat hFirst hFlat ih =>
    rw [factorizedPipeline_concat] at hRun
    obtain ⟨child, hChild, hFlatten⟩ := bind_ok_iff.mp hRun
    exact (ih hStops hChild).flatten hFlatten

end Run

/-! ## Tuples -/

section Tuples

variable {ops : List FactorizedOp} {cols : List Nat} {layout : List Slot} {rss : List IdResultSet}
  {rows : List (List Nat)}

theorem arranged_rowAt (hLt : ∀ c ∈ layout.flatMap Slot.cols, c < chainWidth cols) (τ : Nat → Nat) :
    arranged layout ((rowAt (chainWidth cols) τ).map some) =
      ((layout.flatMap Slot.cols).map τ).map some := by
  unfold arranged rowAt
  rw [List.map_map, List.map_map]
  refine List.map_congr_left fun c hc => ?_
  simp [hLt c hc]

theorem Simulates.tuples {siblings : Nat → Nat} (h : Simulates siblings layout (chainWidth cols) rss rows)
    (plan : Planned ops cols layout) :
    (rss.flatMap tuples).Perm ((rows.map (List.map some)).map (arranged layout)) := by
  obtain ⟨sets, rfl, hSets, -, hBag⟩ := h
  rw [List.map_map]
  refine List.Perm.trans (List.Perm.of_eq ?_) (hBag.map (arranged layout ∘ List.map some))
  rw [List.flatMap_map, List.map_flatMap]
  refine List.flatMap_congr fun P hP => ?_
  have hCols := Part.cols_of_layout (hSets P hP)
  rw [tuples_ofParts (hCols ▸ plan.nodup), List.map_map, hCols]
  refine List.map_congr_left fun τ _ => ?_
  exact (arranged_rowAt (fun c hc => plan.lt_of_mem hc) τ).symm

theorem length_arranged (plan : Planned ops cols layout) (row : List (Option Nat)) :
    (arranged layout row).length = chainWidth cols := by
  unfold arranged
  rw [List.length_map, plan.perm_range.length_eq, List.length_range]

end Tuples

/-! ## Aggregates -/

section Aggregates

open StreamExecutor

variable {V F32 F64 : Type} {view : GraphView V} {ids : List (List Nat)} {ops : List FactorizedOp}
  {cols : List Nat} {layout : List Slot} {P : List Part} {sets : List (List Part)} {x : Part} {k : Nat}

theorem chunkColumns_row {slot : Slot} (hSlot : layout[k]? = some slot) {row : List Nat}
    (hLt : ∀ c ∈ slot.cols, c < row.length) :
    (chunkColumns layout k (row.map idValue) : List (Value F32 F64)) = (slot.idsOf row).map idValue := by
  unfold chunkColumns Slot.idsOf
  rw [hSlot, Option.map_some, Option.getD_some, List.map_map]
  refine List.map_congr_left fun c hc => ?_
  have hBound := hLt c hc
  simp [hBound]

theorem idsOf_rowAt {slot : Slot} {w : Nat} (hLt : ∀ c ∈ slot.cols, c < w) (τ : Nat → Nat) :
    slot.idsOf (rowAt w τ) = slot.cols.map τ :=
  List.map_congr_left fun c hc => rowAt_getD (hLt c hc) τ

/-- The rows of the other parts, and so the weight of a row. -/
theorem othersOf_eq (hNodup : (Part.cols P).Nodup) (hFull : ∀ x ∈ P, x.Full view.siblings)
    (hLayout : P.map Part.slot = layout) {w : Nat} (hLt : ∀ c ∈ layout.flatMap Slot.cols, c < w)
    {τ : Nat → Nat} (hτ : τ ∈ Part.assigned P) (k : Nat) :
    othersOf k P = weightOf view layout k (rowAt w τ) := by
  have hParts : ∀ Q : List Part, (∀ x ∈ Q, x ∈ P) → (Q.map fun x => x.rows.length).prod =
      (((Q.map Part.slot).filter fun s => !s.flat).map fun s =>
        view.siblings ((rowAt w τ).getD (s.cols.headD 0) 0)).prod := by
    intro Q hQ
    induction Q with
    | nil => rfl
    | cons x Q ih =>
      obtain ⟨hx, hTail⟩ := List.forall_mem_cons.mp hQ
      have hMem := Part.map_mem_rows hNodup hx hτ
      have hRows := hFull x hx
      have hCols : ∀ c ∈ x.slot.cols, c < w := fun c hc => hLt c
        (hLayout ▸ List.mem_flatMap.mpr ⟨x.slot, List.mem_map_of_mem hx, hc⟩)
      rw [List.map_cons, List.prod_cons, ih hTail, List.map_cons, List.filter_cons]
      obtain ⟨slot, chunk, rows, fits⟩ := x
      cases fits with
      | flat => exact Nat.one_mul _
      | @unflat cols _ hCols' _ _ =>
        obtain ⟨c, cs, rfl⟩ := List.exists_cons_of_ne_nil hCols'
        have hHead : (rowAt w τ).getD c 0 = τ c := rowAt_getD (hCols c List.mem_cons_self) τ
        have hLength : rows.length = view.siblings (τ c) := hRows rfl _ hMem
        show rows.length * _ = (List.map _ (_ :: _)).prod
        rw [List.map_cons, List.prod_cons, List.headD_cons, hHead, hLength]
  unfold othersOf weightOf
  rw [length_assigned, hParts _ fun x hx => List.mem_of_mem_eraseIdx hx, ← hLayout, List.eraseIdx_map]

/-- What the assignments have under the columns of a part. -/
theorem assigned_perm {β : Type} (hNodup : (Part.cols P).Nodup) (hx : P[k]? = some x)
    (g : List Nat → β) : ((Part.assigned P).map fun τ => g (x.slot.cols.map τ)).Perm
      (x.rows.flatMap fun r => List.replicate (othersOf k P) (g r)) := by
  obtain ⟨hk, rfl⟩ := List.getElem?_eq_some_iff.mp hx
  have hParts : P.Perm (P[k] :: P.eraseIdx k) := (List.getElem_cons_eraseIdx_perm hk).symm
  exact map_assignments_perm (hParts.map Part.factor) (Part.pairwise_apart hNodup)
    (Part.nodup_cols hNodup (List.getElem_mem hk)) (fun r hr => P[k].fits.length_of_mem hr) g

theorem exists_assigned (hNodup : (Part.cols P).Nodup) (hx : P[k]? = some x) {r : List Nat}
    (hr : r ∈ x.rows) : ∃ τ ∈ Part.assigned P, x.slot.cols.map τ = r := by
  have hPos : othersOf k P ≠ 0 := by
    rw [othersOf, Ne, List.length_eq_zero_iff]
    exact Part.assigned_ne_nil _
  have hMem : r ∈ x.rows.flatMap fun r => List.replicate (othersOf k P) (id r) :=
    List.mem_flatMap.mpr ⟨r, hr, List.mem_replicate.mpr ⟨hPos, rfl⟩⟩
  exact List.mem_map.mp ((assigned_perm hNodup hx id).mem_iff.mpr hMem)

/-- Result sets of the layout, with full parts, that stand for the rows of the chain. -/
structure Standing (view : GraphView V) (ids : List (List Nat)) (cols : List Nat) (layout : List Slot)
    (sets : List (List Part)) : Prop where
  slots : ∀ P ∈ sets, P.map Part.slot = layout
  full : ∀ P ∈ sets, ∀ x ∈ P, x.Full view.siblings
  bag : (sets.flatMap fun P => (Part.assigned P).map (rowAt (chainWidth cols))).Perm
    (chainRows (allPairs view) ids cols)

namespace Standing

variable (h : Standing view ids cols layout sets) (plan : Planned ops cols layout)

include h plan

theorem nodup (hP : P ∈ sets) : (Part.cols P).Nodup :=
  Part.cols_of_layout (h.slots P hP) ▸ plan.nodup

/-- The part that stands at a slot. -/
theorem part {slot : Slot} (hSlot : layout[k]? = some slot) (hP : P ∈ sets) :
    ∃ x, P[k]? = some x ∧ x.slot = slot ∧ ∀ c ∈ slot.cols, c < chainWidth cols := by
  obtain ⟨x, hx, rfl⟩ := getElem?_of_layout (h.slots P hP) hSlot
  exact ⟨x, hx, rfl, fun c hc => plan.lt_of_mem
    (List.mem_flatMap.mpr ⟨x.slot, List.mem_of_getElem? hSlot, hc⟩)⟩

theorem chainRow (hP : P ∈ sets) {τ : Nat → Nat} (hτ : τ ∈ Part.assigned P) :
    ChainRow view ids.flatten cols (rowAt (chainWidth cols) τ) :=
  (mem_chainRows plan.inRange).mp (h.bag.mem_iff.mp
    (List.mem_flatMap.mpr ⟨P, hP, List.mem_map_of_mem hτ⟩))

theorem assigned_of_chainRow {row : List Nat} (hRow : ChainRow view ids.flatten cols row) :
    ∃ P ∈ sets, ∃ τ ∈ Part.assigned P, rowAt (chainWidth cols) τ = row := by
  obtain ⟨P, hP, hMem⟩ := List.mem_flatMap.mp
    (h.bag.mem_iff.mpr ((mem_chainRows plan.inRange).mpr hRow))
  obtain ⟨τ, hτ, hEq⟩ := List.mem_map.mp hMem
  exact ⟨P, hP, τ, hτ, hEq⟩

theorem othersOf_rowAt (hP : P ∈ sets) {τ : Nat → Nat} (hτ : τ ∈ Part.assigned P) (k : Nat) :
    othersOf k P = weightOf view layout k (rowAt (chainWidth cols) τ) :=
  othersOf_eq (h.nodup plan hP) (h.full P hP) (h.slots P hP) (fun _ hc => plan.lt_of_mem hc) hτ k

/-- The values of the flat rows are those of the parts, weighted. -/
theorem values_perm {slot : Slot} (hSlot : layout[k]? = some slot) (expr : RowExpr F32 F64) :
    (((chainRows (allPairs view) ids cols).map (List.map idValue)).filterMap fun row =>
        expr (chunkColumns layout k row)).Perm
      (sets.flatMap fun P => (valuesAt k expr P).flatMap (List.replicate (othersOf k P))) := by
  rw [List.filterMap_map]
  have hFilter := h.bag.symm.filterMap fun row =>
    expr (chunkColumns layout k (row.map idValue))
  refine hFilter.trans ?_
  rw [List.filterMap_flatMap]
  refine List.Perm.flatMap_left _ fun P hP => ?_
  obtain ⟨x, hx, rfl, hLt⟩ := h.part plan hSlot hP
  have hEach : ((Part.assigned P).map (rowAt (chainWidth cols))).filterMap (fun row =>
      expr (chunkColumns layout k (row.map idValue))) =
        ((Part.assigned P).map fun τ => expr ((x.slot.cols.map τ).map idValue)).filterMap id := by
    rw [List.filterMap_map, List.filterMap_map]
    refine List.filterMap_congr fun τ _ => ?_
    have hBound : ∀ c ∈ x.slot.cols, c < (rowAt (chainWidth cols) τ).length := fun c hc => by
      unfold rowAt
      rw [List.length_map, List.length_range]
      exact hLt c hc
    show expr _ = expr _
    rw [chunkColumns_row hSlot hBound, idsOf_rowAt hLt]
  rw [hEach, valuesAt, hx]
  refine ((assigned_perm (h.nodup plan hP) hx fun r => expr (r.map idValue)).filterMap id).trans
    (List.Perm.of_eq ?_)
  show _ = (x.rows.filterMap _).flatMap _
  generalize othersOf k P = n
  induction x.rows with
  | nil => rfl
  | cons r rows ih =>
    rw [List.flatMap_cons, List.filterMap_append, ih, List.filterMap_cons]
    cases expr (r.map idValue) with
    | none => simp
    | some v =>
      rw [List.flatMap_cons]
      congr 1
      simp

theorem exists_row {slot : Slot} (hSlot : layout[k]? = some slot) (hP : P ∈ sets)
    {expr : RowExpr F32 F64} {v : Int64} (hv : v ∈ valuesAt k expr P) :
    ∃ row, ChainRow view ids.flatten cols row ∧ expr ((slot.idsOf row).map idValue) = some v ∧
      othersOf k P = weightOf view layout k row := by
  obtain ⟨x, hx, rfl, hLt⟩ := h.part plan hSlot hP
  unfold valuesAt at hv
  rw [hx] at hv
  obtain ⟨r, hr, hValue⟩ := List.mem_filterMap.mp hv
  obtain ⟨τ, hτ, rfl⟩ := exists_assigned (h.nodup plan hP) hx hr
  refine ⟨_, h.chainRow plan hP hτ, ?_, h.othersOf_rowAt plan hP hτ k⟩
  rw [idsOf_rowAt hLt]
  exact hValue

theorem exists_value {slot : Slot} (hSlot : layout[k]? = some slot) {row : List Nat}
    (hRow : ChainRow view ids.flatten cols row) {expr : RowExpr F32 F64} {v : Int64}
    (hv : expr ((slot.idsOf row).map idValue) = some v) :
    ∃ P ∈ sets, v ∈ valuesAt k expr P ∧ othersOf k P = weightOf view layout k row := by
  obtain ⟨P, hP, τ, hτ, rfl⟩ := h.assigned_of_chainRow plan hRow
  obtain ⟨x, hx, rfl, hLt⟩ := h.part plan hSlot hP
  refine ⟨P, hP, ?_, h.othersOf_rowAt plan hP hτ k⟩
  rw [idsOf_rowAt hLt] at hv
  unfold valuesAt
  rw [hx]
  exact List.mem_filterMap.mpr ⟨_, Part.map_mem_rows (h.nodup plan hP) (List.mem_of_getElem? hx) hτ, hv⟩

/-- Where no weight wraps around to zero, the result sets bring the states to those of the rows. -/
theorem states_agree (hWeights : WeightsRemain view ids.flatten cols layout)
    {a : PlanAggregate F32 F64} (ha : a.Placed layout) :
    setsState sets a =
      flatState layout ((chainRows (allPairs view) ids cols).map (List.map idValue)) a := by
  cases a with
  | count =>
    have hLength := h.bag.length_eq
    rw [List.length_flatMap] at hLength
    simp only [List.length_map] at hLength
    show AggregateState.count (Int64.ofNat _) = .count (Int64.ofNat _)
    rw [List.length_map, ← hLength]
    have hMod := ofNat_sum_mod (sets.map fun P => (Part.assigned P).length)
    rw [List.map_map] at hMod
    exact congrArg AggregateState.count hMod
  | sum k expr =>
    obtain ⟨slot, hSlot⟩ : ∃ slot, layout[k]? = some slot := ⟨_, List.getElem?_eq_getElem ha⟩
    have hPerm := h.values_perm plan hSlot expr
    show sumState _ = sumState _
    refine sumState_congr ?_ ?_
    · rw [List.map_eq_nil_iff, List.map_eq_nil_iff, List.flatMap_eq_nil_iff]
      constructor
      · -- a value that is added somewhere is added in a set whose weight remains
        intro hNone
        by_contra hSome
        obtain ⟨v, hv⟩ := List.exists_mem_of_ne_nil _ hSome
        obtain ⟨P, hP, hv⟩ := List.mem_flatMap.mp (hPerm.mem_iff.mp hv)
        obtain ⟨v', hv', hMem⟩ := List.mem_flatMap.mp hv
        obtain rfl := List.eq_of_mem_replicate hMem
        obtain ⟨row, hRow, hExpr, -⟩ := h.exists_row plan hSlot hP hv'
        obtain ⟨row', hRow', hSame, hWeight⟩ := hWeights k slot hSlot row hRow
        obtain ⟨P', hP', hMem', hOthers⟩ := h.exists_value plan hSlot hRow' (hSame ▸ hExpr)
        have hNil := List.flatMap_eq_nil_iff.mp (hNone P' hP') _ hMem'
        rw [List.replicate_eq_nil_iff, hOthers] at hNil
        exact hWeight (Nat.dvd_of_mod_eq_zero hNil)
      · intro hNone P hP
        rw [hNone] at hPerm
        have hNil := List.flatMap_eq_nil_iff.mp hPerm.symm.eq_nil P hP
        refine List.flatMap_eq_nil_iff.mpr fun v hv => ?_
        have hZero := List.flatMap_eq_nil_iff.mp hNil v hv
        rw [List.replicate_eq_nil_iff] at hZero ⊢
        rw [hZero]
        rfl
    · refine (sum_weighted_mod (valuesAt k expr) (othersOf k) sets).trans ?_
      rw [(hPerm.map Int64.toInt).sum_eq]

/-- A sum over the rows whose weights all wrap around to zero stays null. -/
theorem sum_lost {slot : Slot} (hSlot : layout[k]? = some slot) {row : List Nat}
    (hRow : ChainRow view ids.flatten cols row)
    (hLost : ∀ row', ChainRow view ids.flatten cols row' → slot.idsOf row' = slot.idsOf row →
      2 ^ 64 ∣ weightOf view layout k row') {expr : RowExpr F32 F64} {v : Int64}
    (hExpr : ∀ ns : List Nat, expr (ns.map idValue) = if ns = slot.idsOf row then some v else none) :
    setsState sets (.sum k expr) = sumState [] ∧
      ∃ n ns, flatState layout ((chainRows (allPairs view) ids cols).map (List.map idValue))
        (.sum k expr) = sumState (n :: ns) := by
  have hPerm := h.values_perm plan hSlot expr
  constructor
  · have hNone : sets.flatMap (addedBy k expr) = [] := by
      refine List.flatMap_eq_nil_iff.mpr fun P hP => List.flatMap_eq_nil_iff.mpr fun w hw => ?_
      obtain ⟨row', hRow', hValue, hOthers⟩ := h.exists_row plan hSlot hP hw
      rw [hExpr] at hValue
      have hSame : slot.idsOf row' = slot.idsOf row := by
        by_contra hNe
        rw [if_neg hNe] at hValue
        cases hValue
      rw [List.replicate_eq_nil_iff, hOthers]
      exact Nat.mod_eq_zero_of_dvd (hLost row' hRow' hSame)
    show sumState ((sets.flatMap (addedBy k expr)).map Int64.toInt) = _
    rw [hNone]
    rfl
  · have hValue : expr ((slot.idsOf row).map idValue) = some v := (hExpr _).trans (if_pos rfl)
    obtain ⟨P, hP, hMem, -⟩ := h.exists_value plan hSlot hRow hValue
    have hPos : othersOf k P ≠ 0 := by
      rw [othersOf, Ne, List.length_eq_zero_iff]
      exact Part.assigned_ne_nil _
    have hAdded : v ∈ ((chainRows (allPairs view) ids cols).map (List.map idValue)).filterMap
        fun row => expr (chunkColumns layout k row) :=
      hPerm.mem_iff.mpr (List.mem_flatMap.mpr ⟨P, hP, List.mem_flatMap.mpr
        ⟨v, hMem, List.mem_replicate.mpr ⟨hPos, rfl⟩⟩⟩)
    obtain ⟨n, ns, hNs⟩ := List.exists_cons_of_ne_nil
      (List.ne_nil_of_mem (List.mem_map_of_mem (f := Int64.toInt) hAdded))
    refine ⟨n, ns, ?_⟩
    exact congrArg sumState hNs

theorem isEmpty_eq : sets.isEmpty = (chainRows (allPairs view) ids cols).isEmpty := by
  rw [Bool.eq_iff_iff, List.isEmpty_iff, List.isEmpty_iff]
  constructor
  · intro hNil
    have hBag := h.bag
    rw [hNil] at hBag
    exact hBag.symm.eq_nil
  · intro hNil
    refine List.eq_nil_iff_forall_not_mem.mpr fun P hP => ?_
    obtain ⟨τ, hτ⟩ := List.exists_mem_of_ne_nil _ (Part.assigned_ne_nil P)
    have hRow := (mem_chainRows plan.inRange).mpr (h.chainRow plan hP hτ)
    rw [hNil] at hRow
    cases hRow

/-- What the two aggregations give. -/
theorem aggregations {E : Type} [DecidableEq F32] [DecidableEq F64] (floats : FloatOps F32 F64)
    (computeError : String → E) {chunks : List Chunk}
    (hTabled : Tabled (chainWidth cols) chunks (chainRows (allPairs view) ids cols))
    {aggregates : List (PlanAggregate F32 F64)} (hNe : aggregates ≠ [])
    (hPlaced : ∀ a ∈ aggregates, a.Placed layout) :
    factorizedAggregate floats computeError (aggregates.map PlanAggregate.factorized)
        ((sets.map ofParts).map ResultSet.asValues) =
      .ok [flatResult (finalColumns floats (chainRows (allPairs view) ids cols).isEmpty
        (setsState sets) aggregates)] ∧
    aggregate floats (aggregates.map (PlanAggregate.flat (E := E) layout)) [] id []
        (chunks.map fun c => .ok c.asValues) =
      [.ok (DataChunk.new (finalColumns floats (chainRows (allPairs view) ids cols).isEmpty
        (flatState layout ((chainRows (allPairs view) ids cols).map (List.map idValue)))
        aggregates))] := by
  refine ⟨?_, aggregate_rows floats id (Nat.succ_pos _) hTabled hNe⟩
  rw [← h.isEmpty_eq plan, List.map_map]
  exact factorizedAggregate_sets plan.layout_ne_nil h.slots floats computeError hNe hPlaced

end Standing

end Aggregates

/-! ## Filters -/

section Filters

variable {V : Type} {view : GraphView V} {ids : List (List Nat)} {cols : List Nat}

/-- The rows with the batches of their neighbours. -/
def rowBatches (pairs : Nat → List (List (Nat × Nat))) (col : Nat) (rows : List (List Nat)) :
    List (List Nat × List (Nat × Nat)) :=
  rows.flatMap fun r => (pairs (r.getD col 0)).map fun b => (r, b)

theorem expand_rowBatches {w col : Nat} (hCol : col < w) {chunks : List Chunk}
    {rows : List (List Nat)} (h : Tabled w chunks rows) :
    Executor.expand view.expandFromVertex col none none chunks =
      .ok ((rowBatches (allPairs view) col rows).map fun x => Executor.widenedBatch w x.1 x.2) := by
  unfold rowBatches
  rw [Executor.expand_tabled hCol h, List.map_flatMap]
  refine congrArg Except.ok (List.flatMap_congr fun r _ => ?_)
  rw [pairs_allPairs, List.map_map, List.map_map]
  rfl

/-- The rows of the tables of some rows with their neighbours. -/
theorem idRows_tables {w : Nat} {batches : List (List Nat × List (Nat × Nat))}
    (h : ∀ x ∈ batches, x.1.length = w) :
    (batches.map fun x => table (w + 2) (x.2.map fun n => x.1 ++ [n.1, n.2])).flatMap idRows =
      batches.flatMap fun x => x.2.map fun n => (x.1 ++ [n.1, n.2]).map some := by
  rw [List.flatMap_map]
  refine List.flatMap_congr fun x hx => ?_
  rw [idRows_table (Nat.succ_pos _), List.map_map]
  · rfl
  · intro r hr
    obtain ⟨n, -, rfl⟩ := List.mem_map.mp hr
    simp [h x hx]

/-- A filter on both sides leaves the same rows. -/
theorem filters_agree (p : List (Option Nat) → Bool) {last : Nat} (h : InRange (cols ++ [last])) :
    ∃ filtered chunks, listFilteredPipeline view.expandFromVertex ids p cols last = .ok filtered ∧
      filteredPipeline view.expandFromVertex ids p (cols ++ [last]) = .ok chunks ∧
      filtered.flatMap idRows = chunks.flatMap idRows := by
  have hLast := h cols last (List.prefix_refl _)
  have hw : 0 < chainWidth cols := Nat.succ_pos _
  obtain ⟨chunks, hRun, hTabled⟩ : ∃ chunks,
      flatPipeline view.expandFromVertex ids cols = .ok chunks ∧
      Tabled (chainWidth cols) chunks (chainRows (allPairs view) ids cols) :=
    flatPipeline_ok pairs_allPairs h.init
  have hExpand : Executor.expand view.expandFromVertex last none none chunks = _ :=
    expand_rowBatches hLast hTabled
  generalize hB : rowBatches (allPairs view) last (chainRows (allPairs view) ids cols) = bs at hExpand
  have hRows : ∀ x ∈ bs, x.1.length = chainWidth cols := by
    intro x hx
    obtain ⟨r, hr, hx⟩ := List.mem_flatMap.mp (hB ▸ hx)
    obtain ⟨b, -, rfl⟩ := List.mem_map.mp hx
    exact length_of_mem_chainRows hr
  have hKept : ∀ x ∈ bs.map fun x => (x.1, x.2.filter (Executor.keeps p x.1)),
      x.1.length = chainWidth cols := by
    intro x hx
    obtain ⟨y, hy, rfl⟩ := List.mem_map.mp hx
    exact hRows y hy
  have hLists := Executor.factorizedFilter_widened (p := p) hw hRows
  have hAfter := Executor.flatten_widened hw hKept
  rw [List.map_map] at hAfter
  have hFlat := Executor.flatten_widened hw hRows
  have hTables : ∀ c ∈ bs.map fun x => table (chainWidth cols + 2) (x.2.map fun n => x.1 ++ [n.1, n.2]),
      c.filter = none := by
    intro c hc
    obtain ⟨x, -, rfl⟩ := List.mem_map.mp hc
    rfl
  obtain ⟨out, hFilter, hOut⟩ := Executor.filter_rowFilter (p := p) hTables
  have hLists' : listFilteredPipeline view.expandFromVertex ids p cols last =
      .ok ((bs.map fun x => (x.1, x.2.filter (Executor.keeps p x.1))).map fun x =>
        table (chainWidth cols + 2) (x.2.map fun n => x.1 ++ [n.1, n.2])) := by
    unfold listFilteredPipeline
    rw [hRun, ok_bind, hExpand, ok_bind]
    dsimp only
    rw [hLists, ok_bind]
    exact hAfter
  refine ⟨_, out, hLists', ?_, ?_⟩
  · unfold filteredPipeline
    rw [flatPipeline_concat, hRun, ok_bind, flatStep, hExpand, ok_bind, hFlat, ok_bind]
    exact hFilter
  · rw [hOut, idRows_tables hRows, idRows_tables hKept, List.flatMap_map, List.filter_flatMap]
    refine List.flatMap_congr fun x _ => ?_
    rw [List.filter_map]
    rfl

end Filters

/-! ## The main result -/

section Main

variable {V : Type} {view : GraphView V} {ids : List (List Nat)} {ops : List FactorizedOp}
  {cols : List Nat} {layout : List Slot}

/-- The pipelines agree exactly where every row of every step has a neighbour to go on to, and the
weights that wrap around to zero are not all that a value has. -/
theorem factorized_agrees_iff {E F32 F64 : Type} [DecidableEq F32] [DecidableEq F64]
    (floats : FloatOps F32 F64) (computeError : String → E) (view : GraphView V)
    (ids : List (List Nat)) {ops : List FactorizedOp} {cols : List Nat} {layout : List Slot}
    (plan : Planned ops cols layout) :
    PipelinesAgree floats computeError view.expandFromVertex ids ops cols layout ↔
      GoesOn view ids.flatten cols ∧ WeightsRemain view ids.flatten cols layout := by
  obtain ⟨chunks, hFlat, hTabled⟩ : ∃ chunks,
      flatPipeline view.expandFromVertex ids cols = .ok chunks ∧
      Tabled (chainWidth cols) chunks (chainRows (allPairs view) ids cols) :=
    flatPipeline_ok pairs_allPairs plan.inRange
  have hRows := hTabled.idRows (Nat.succ_pos _)
  constructor
  · rintro ⟨⟨rss, chunks', hRun, hFlat', hPerm⟩, hAggregates, -⟩
    obtain rfl : chunks' = chunks := Except.ok.inj (hFlat'.symm.trans hFlat)
    have hGoes : GoesOn view ids.flatten cols := by
      by_contra hStops
      refine (factorizedPipeline_short plan hStops hRun).not_perm ?_ hPerm
      intro t ht
      obtain ⟨row, -, rfl⟩ := List.mem_map.mp ht
      exact length_arranged plan row
    refine ⟨hGoes, fun k slot hSlot row hRow => ?_⟩
    by_contra hNone
    -- the sum that counts the ids of this row alone
    let expr : RowExpr F32 F64 := fun vs =>
      if vs = (slot.idsOf row).map StreamExecutor.idValue then some 1 else none
    have hExpr : ∀ ns : List Nat, expr (ns.map StreamExecutor.idValue) =
        if ns = slot.idsOf row then some 1 else none := by
      intro ns
      have hInj : Function.Injective (StreamExecutor.idValue : Nat → Value F32 F64) := by
        intro m n hEq
        simpa [StreamExecutor.idValue] using hEq
      simp only [expr, (List.map_injective_iff.mpr hInj).eq_iff]
    obtain ⟨_, hRun', sets, rfl, hSets, hFull, hBag⟩ := factorizedPipeline_simulates plan hGoes
    obtain ⟨hLost, n, ns, hKept⟩ := Standing.sum_lost ⟨hSets, hFull, hBag⟩ plan hSlot hRow
      (fun row' hRow' hSame => by
        by_contra hRemains
        exact hNone ⟨row', hRow', hSame, hRemains⟩) hExpr
    have hPlaced : ∀ a ∈ [PlanAggregate.sum k expr], a.Placed layout := by
      intro a ha
      obtain rfl := List.mem_singleton.mp ha
      exact (List.getElem?_eq_some_iff.mp hSlot).1
    obtain ⟨rss', chunks'', columns, hRss, hChunks, hFactorized, hAggregate⟩ :=
      hAggregates _ (List.cons_ne_nil _ _) hPlaced
    obtain rfl := Except.ok.inj (hRun'.symm.trans hRss)
    obtain rfl := Except.ok.inj (hFlat.symm.trans hChunks)
    obtain ⟨hSum, hSum'⟩ := Standing.aggregations ⟨hSets, hFull, hBag⟩ plan floats computeError hTabled
      (List.cons_ne_nil _ _) hPlaced
    have hSome : (chainRows (allPairs view) ids cols).isEmpty = false := by
      rw [List.isEmpty_eq_false_iff_exists_mem]
      exact ⟨row, (mem_chainRows plan.inRange).mpr hRow⟩
    have hColumns := hSum.symm.trans hFactorized
    have hColumns' := hSum'.symm.trans hAggregate
    unfold StreamExecutor.finalColumns at hColumns hColumns'
    rw [hSome, List.map_singleton, hLost] at hColumns
    rw [hSome, List.map_singleton, hKept] at hColumns'
    simp only [List.cons.injEq, Except.ok.injEq, and_true, DataChunk.new, DataChunk.mk.injEq,
      StreamExecutor.flatResult, ResultSet.push, ResultSet.new, ResultSet.mk.injEq, List.nil_append,
      true_and] at hColumns hColumns'
    have hTypes := congrArg (List.map ArrayRef.dataType) (hColumns.trans hColumns'.symm)
    cases hTypes
  · rintro ⟨hGoes, hWeights⟩
    obtain ⟨rss, hRun, hSim⟩ := factorizedPipeline_simulates plan hGoes
    refine ⟨⟨rss, chunks, hRun, hFlat, hRows ▸ hSim.tuples plan⟩, ?_, ?_⟩
    · intro aggregates hNe hPlaced
      obtain ⟨sets, rfl, hSets, hFull, hBag⟩ := hSim
      have hStanding : Standing view ids cols layout sets := ⟨hSets, hFull, hBag⟩
      obtain ⟨hFactorized, hAggregate⟩ :=
        hStanding.aggregations plan floats computeError hTabled hNe hPlaced
      refine ⟨_, chunks, _, hRun, hFlat, hFactorized, hAggregate.trans ?_⟩
      refine congrArg (fun columns => [Except.ok (DataChunk.new columns)]) ?_
      refine List.map_congr_left fun a ha => ?_
      rw [hStanding.states_agree plan hWeights (hPlaced a ha)]
    · rintro p init last rfl
      obtain ⟨filtered, out, hLists, hFiltered, hEq⟩ := filters_agree p plan.inRange
      exact ⟨filtered, out, hLists, hFiltered, List.Perm.of_eq hEq⟩

end Main

/-! ## Concrete pipelines -/

section Concrete

/-- Two vertices, each with an edge to the other, and a loop at the first. -/
def roundView : GraphView Nat where
  vertices := [Vertex.new 0 0 [], Vertex.new 1 0 []]
  edges := [Edge.new 10 0 1 0 [], Edge.new 11 1 0 0 [], Edge.new 12 0 0 0 []]
  vertexIds := by decide
  edgeIds := by decide

/-- From the input to a neighbour, from there on, and once more from the input. -/
theorem planned_fan : Planned [.expand ⟨0, 0⟩, .flatten 1, .expand ⟨0, 2⟩, .expand ⟨0, 0⟩] [0, 2, 0]
    [⟨true, [0, 1, 2]⟩, ⟨false, [3, 4]⟩, ⟨false, [5, 6]⟩] := by
  have hExpand : Planned ([] ++ [.expand ⟨0, 0⟩]) ([] ++ [0])
      ([⟨true, [0]⟩] ++ [⟨false, [1, 2]⟩]) :=
    @Planned.expand _ _ _ _ ⟨true, [0]⟩ _ .transfer rfl rfl rfl
  have hFlatten : Planned ([.expand ⟨0, 0⟩] ++ [.flatten 1]) [0] ([] ++ [⟨true, [0, 1, 2]⟩]) :=
    @Planned.flatten _ _ _ _ 0 ⟨false, [1, 2]⟩ ⟨true, [0]⟩ hExpand rfl rfl rfl rfl
  have hNext : Planned ([.expand ⟨0, 0⟩, .flatten 1] ++ [.expand ⟨0, 2⟩]) ([0] ++ [2])
      ([⟨true, [0, 1, 2]⟩] ++ [⟨false, [3, 4]⟩]) :=
    @Planned.expand _ _ _ _ ⟨true, [0, 1, 2]⟩ _ hFlatten rfl rfl rfl
  exact @Planned.expand _ _ _ ⟨0, 0⟩ ⟨true, [0, 1, 2]⟩ _ hNext rfl rfl rfl

theorem goesOn_roundView : GoesOn roundView [[0, 1]].flatten [0, 2, 0] := by
  have hRange : InRange [0, 2, 0] := planned_fan.inRange
  have hFirst : GoesOn roundView [[0, 1]].flatten ([] ++ [0]) :=
    (goesOn_concat (InRange.init (InRange.init hRange))).mpr ⟨goesOn_nil, by decide⟩
  have hSecond : GoesOn roundView [[0, 1]].flatten ([0] ++ [2]) :=
    (goesOn_concat (InRange.init hRange)).mpr ⟨hFirst, by decide⟩
  exact (goesOn_concat hRange).mpr ⟨hSecond, by decide⟩

/-- At most nine tuples share a row of a chunk. -/
theorem weightsRemain_roundView : WeightsRemain roundView [[0, 1]].flatten [0, 2, 0]
    [⟨true, [0, 1, 2]⟩, ⟨false, [3, 4]⟩, ⟨false, [5, 6]⟩] := by
  have hWeights : ∀ k < 3, ∀ row ∈ chainRows (allPairs roundView) [[0, 1]] [0, 2, 0],
      ¬2 ^ 64 ∣ weightOf roundView [⟨true, [0, 1, 2]⟩, ⟨false, [3, 4]⟩, ⟨false, [5, 6]⟩] k row := by
    decide
  intro k slot hSlot row hRow
  have hk := (List.getElem?_eq_some_iff.mp hSlot).1
  exact ⟨row, hRow, rfl, hWeights k hk row ((mem_chainRows planned_fan.inRange).mpr hRow)⟩

/-- Three expands and a flatten from two vertices, with edges between them. -/
theorem factorized_agrees_fan :
    PipelinesAgree FloatOps.whole (id : String → String) roundView.expandFromVertex [[0, 1]]
      [.expand ⟨0, 0⟩, .flatten 1, .expand ⟨0, 2⟩, .expand ⟨0, 0⟩] [0, 2, 0]
      [⟨true, [0, 1, 2]⟩, ⟨false, [3, 4]⟩, ⟨false, [5, 6]⟩] :=
  (factorized_agrees_iff FloatOps.whole id roundView [[0, 1]] planned_fan).mpr
    ⟨goesOn_roundView, weightsRemain_roundView⟩

/-- One vertex, without edges. -/
def lonelyView : GraphView Nat where
  vertices := [Vertex.new 0 0 []]
  edges := []
  vertexIds := by decide
  edgeIds := by decide

/-- The factorized expand keeps the vertex, so that it is counted. -/
theorem lonely_vertex_disagrees :
    ¬PipelinesAgree FloatOps.whole (id : String → String) lonelyView.expandFromVertex [[0]]
      [.expand ⟨0, 0⟩] [0] [⟨true, [0]⟩, ⟨false, [1, 2]⟩] := by
  rintro ⟨-, hAggregates, -⟩
  obtain ⟨rss, chunks, columns, hFactorized, hFlat, hCount, hAggregate⟩ :=
    hAggregates [.count] (by simp) fun a ha => by
      obtain rfl := List.mem_singleton.mp ha
      trivial
  have hSets : factorizedPipeline lonelyView.expandFromVertex [[0]] [.expand ⟨0, 0⟩] =
      .ok [⟨1, [table 1 [[0]]]⟩] := rfl
  have hChunks : flatPipeline lonelyView.expandFromVertex [[0]] [0] = .ok [] := rfl
  obtain rfl := Except.ok.inj (hSets.symm.trans hFactorized)
  obtain rfl := Except.ok.inj (hChunks.symm.trans hFlat)
  have hOne : StreamExecutor.factorizedAggregate FloatOps.whole (id : String → String)
      [PlanAggregate.count.factorized] [ResultSet.asValues ⟨1, [table 1 [[0]]]⟩] =
        .ok [StreamExecutor.flatResult [⟨.scalar (.int .int64), [.int .int64 (some 1)]⟩]] := rfl
  have hZero : StreamExecutor.aggregate FloatOps.whole
      [PlanAggregate.count.flat (E := String) [⟨true, [0]⟩, ⟨false, [1, 2]⟩]] [] id [] [] =
        [.ok (DataChunk.new [⟨.scalar (.int .int64), [.int .int64 (some 0)]⟩])] := rfl
  have hOne' := hOne.symm.trans hCount
  have hZero' := hZero.symm.trans hAggregate
  simp only [List.cons.injEq, Except.ok.injEq, and_true, DataChunk.new, DataChunk.mk.injEq,
    StreamExecutor.flatResult, ResultSet.push, ResultSet.new, ResultSet.mk.injEq, List.nil_append,
    true_and] at hOne' hZero'
  cases hOne'.trans hZero'.symm

end Concrete

end MiniGU
