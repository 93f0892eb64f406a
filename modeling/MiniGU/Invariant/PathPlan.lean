import MiniGU.Invariant.Tables
import MiniGU.Model.PathPattern

/-!
# Running the plan of a path

A bound path is its first vertex and its steps, each an edge and the vertex it leads to. The
plan expands every step from the first column; the schema of a prefix of the plan has a field
for each name of the prefix, once, and it is as wide as the chunks only where no name is
repeated.
-/

namespace MiniGU

/-! ## Schemas -/

/-- The fields that a list of names leaves in a schema. -/
def fieldsOf (names : List String) : List String :=
  names.foldl (fun fields name => addField fields (some name)) []

section Fields

variable {names : List String}

theorem fieldsOf_concat (names : List String) (name : String) :
    fieldsOf (names ++ [name]) =
      if name ∈ fieldsOf names then fieldsOf names else fieldsOf names ++ [name] := by
  unfold fieldsOf
  rw [List.foldl_append]
  rfl

theorem mem_fieldsOf (name : String) : name ∈ fieldsOf names ↔ name ∈ names := by
  induction names using List.reverseRecOn with
  | nil => rfl
  | append_singleton names last ih =>
    rw [fieldsOf_concat, List.mem_append, ← ih, List.mem_singleton]
    split
    · rename_i hMem
      exact ⟨.inl, fun h => h.elim id fun hEq => hEq ▸ hMem⟩
    · rw [List.mem_append, List.mem_singleton]

theorem fieldsOf_of_nodup (h : names.Nodup) : fieldsOf names = names := by
  induction names using List.reverseRecOn with
  | nil => rfl
  | append_singleton names last ih =>
    obtain ⟨hNames, -, hLast⟩ := List.nodup_append.mp h
    have hNot : last ∉ fieldsOf names := fun hMem =>
      hLast last ((mem_fieldsOf last).mp hMem) last (List.mem_singleton_self _) rfl
    rw [fieldsOf_concat, ih hNames]
    rw [ih hNames] at hNot
    exact if_neg hNot

theorem length_fieldsOf_le : (fieldsOf names).length ≤ names.length := by
  induction names using List.reverseRecOn with
  | nil => exact Nat.le_refl _
  | append_singleton names last ih =>
    rw [fieldsOf_concat, List.length_append, List.length_singleton]
    split
    · omega
    · rw [List.length_append, List.length_singleton]
      omega

theorem length_fieldsOf_lt (h : ¬names.Nodup) : (fieldsOf names).length < names.length := by
  induction names using List.reverseRecOn with
  | nil => exact absurd List.nodup_nil h
  | append_singleton names last ih =>
    have hLe : (fieldsOf names).length ≤ names.length := length_fieldsOf_le
    rw [fieldsOf_concat, List.length_append, List.length_singleton]
    split
    · omega
    · rename_i hNot
      have hNames : ¬names.Nodup := by
        intro hNodup
        refine h (List.nodup_append.mpr ⟨hNodup, List.nodup_singleton _, ?_⟩)
        intro a ha b hb hEq
        rw [List.mem_singleton] at hb
        exact hNot ((mem_fieldsOf last).mpr (hb ▸ hEq ▸ ha))
      have hLt := ih hNames
      rw [List.length_append, List.length_singleton]
      omega

end Fields

/-! ## Bound paths -/

abbrev BoundStep := BoundEdgePattern × BoundVertexPattern

/-- The names of the elements, in order. -/
def pathNames (first : BoundVertexPattern) (steps : List BoundStep) : List String :=
  first.var :: steps.flatMap fun s => [s.1.var, s.2.var]

def pathPlan (first : BoundVertexPattern) (steps : List BoundStep) : PlanNode :=
  steps.foldl planStep (.nodeScan first.var first.label)

def boundPath (first : BoundVertexPattern) (steps : List BoundStep) : List BoundElementPattern :=
  .vertex first :: steps.flatMap fun s => [.edge s.1, .vertex s.2]

section Plan

variable {first : BoundVertexPattern} {steps : List BoundStep} {step : BoundStep}

theorem boundVertices_boundPath :
    boundVertices (boundPath first steps) = first :: steps.map Prod.snd := by
  unfold boundVertices boundPath
  refine congrArg (first :: ·) ?_
  induction steps with
  | nil => rfl
  | cons s steps ih => exact congrArg (s.2 :: ·) ih

theorem boundEdges_boundPath : boundEdges (boundPath first steps) = steps.map Prod.fst := by
  unfold boundEdges boundPath
  show List.filterMap _ (steps.flatMap _) = _
  induction steps with
  | nil => rfl
  | cons s steps ih => exact congrArg (s.1 :: ·) ih

theorem createPhysicalPlan_boundPath :
    createPhysicalPlan (boundPath first steps) = some (pathPlan first steps) := by
  have hSteps : (steps.map Prod.fst).zip (steps.map Prod.snd) = steps := by
    rw [List.zip_map']
    exact List.map_id' steps
  unfold createPhysicalPlan
  rw [boundVertices_boundPath, boundEdges_boundPath]
  simp only [hSteps]
  rfl

theorem pathPlan_concat : pathPlan first (steps ++ [step]) = planStep (pathPlan first steps) step := by
  unfold pathPlan
  rw [List.foldl_append]
  rfl

theorem pathNames_concat :
    pathNames first (steps ++ [step]) = pathNames first steps ++ [step.1.var] ++ [step.2.var] := by
  unfold pathNames
  simp

theorem length_pathNames : (pathNames first steps).length = 2 * steps.length + 1 := by
  unfold pathNames
  induction steps with
  | nil => rfl
  | cons s steps ih =>
    simp only [List.length_cons, List.flatMap_cons, List.length_append] at ih ⊢
    simp only [List.length_nil] at ih ⊢
    omega

theorem schema_pathPlan : (pathPlan first steps).schema = fieldsOf (pathNames first steps) := by
  induction steps using List.reverseRecOn with
  | nil => rfl
  | append_singleton steps step ih =>
    rw [pathPlan_concat, pathNames_concat, fieldsOf_concat, fieldsOf_concat, ← ih]
    rfl

end Plan

/-! ## Scanning -/

section Scan

variable {V : Type} (view : GraphView V)

/-- The vertices that the scan lists. -/
def scanIds (labels : Cubes Nat) : List Nat :=
  ((view.vertices.filter fun v => specsContain labels v.labelId).map Vertex.vid).insertionSort
    (· ≤ ·)

variable {view}

theorem find?_of_nodup {α : Type} {f : α → Nat} {vs : List α} (hIds : (vs.map f).Nodup) {v : α}
    (hv : v ∈ vs) : vs.find? (fun u => f u == f v) = some v := by
  induction vs with
  | nil => cases hv
  | cons u us ih =>
    rw [List.map_cons, List.nodup_cons] at hIds
    rw [List.find?_cons]
    rcases List.mem_cons.mp hv with rfl | hv
    · simp
    · have hNe : (f u == f v) = false := beq_eq_false_iff_ne.mpr fun hEq =>
        hIds.1 (hEq ▸ List.mem_map_of_mem hv)
      rw [hNe]
      exact ih hIds.2 hv

theorem getVertex_of_mem {v : Vertex V} (hv : v ∈ view.vertices) : view.getVertex v.vid = some v :=
  find?_of_nodup view.vertexIds hv

theorem mem_of_getVertex {v : Vertex V} {vid : Nat} (h : view.getVertex vid = some v) :
    v ∈ view.vertices ∧ v.vid = vid := by
  refine ⟨List.mem_of_find?_eq_some h, ?_⟩
  have hId := List.find?_some h
  exact beq_iff_eq.mp hId

theorem filterAuxM_eq_ok {ε α : Type} {f : α → Except ε Bool} {p : α → Bool} {l acc : List α}
    (h : ∀ a ∈ l, f a = .ok (p a)) :
    List.filterAuxM f l acc = .ok ((l.filter p).reverse ++ acc) := by
  induction l generalizing acc with
  | nil => rfl
  | cons a l ih =>
    rw [List.filterAuxM, h a (List.mem_cons_self ..), ok_bind,
      ih fun b hb => h b (List.mem_cons_of_mem _ hb)]
    cases hp : p a <;> simp [hp]

theorem filterM_eq_ok {ε α : Type} {f : α → Except ε Bool} {p : α → Bool} {l : List α}
    (h : ∀ a ∈ l, f a = .ok (p a)) : l.filterM f = .ok (l.filter p) := by
  unfold List.filterM
  rw [filterAuxM_eq_ok h, ok_bind, List.append_nil, List.reverse_reverse]
  rfl

theorem vertexSource_eq (labels : Cubes Nat) :
    view.vertexSource labels = .ok (batches 1024 (scanIds view labels)) := by
  have hRead : ∀ vid ∈ view.vertices.map Vertex.vid, view.vertexHasAllLabels vid labels =
      .ok ((view.getVertex vid).any fun v => specsContain labels v.labelId) := by
    intro vid hvid
    obtain ⟨v, hv, rfl⟩ := List.mem_map.mp hvid
    unfold GraphView.vertexHasAllLabels
    rw [getVertex_of_mem hv]
    rfl
  have hFilter : (view.vertices.map Vertex.vid).filter
      (fun vid => (view.getVertex vid).any fun v => specsContain labels v.labelId) =
      (view.vertices.filter fun v => specsContain labels v.labelId).map Vertex.vid := by
    rw [List.filter_map]
    congr 1
    refine List.filter_congr fun v hv => ?_
    rw [Function.comp_apply, getVertex_of_mem hv]
    rfl
  unfold GraphView.vertexSource
  rw [filterM_eq_ok hRead, ok_bind, hFilter]
  rfl

theorem execute_scan (var : String) (labels : Cubes Nat) :
    ∃ chunks, view.execute (.nodeScan var labels) = .ok chunks ∧
      Tabled 1 chunks ((scanIds view labels).map fun v => [v]) := by
  refine ⟨((batches 1024 (scanIds view labels)).map fun b => b.map fun v => [v]).map (table 1),
    ?_, _, rfl, ?_, ?_⟩
  · unfold GraphView.execute
    rw [vertexSource_eq, ok_bind, List.map_map]
    congr 1
    refine List.map_congr_left fun b _ => ?_
    have hColumn : (b.map fun v => [v]).map (fun r => r.getD 0 0) = b := by
      rw [List.map_map]
      exact List.map_id' b
    show DataChunk.new [idColumn b] = DataChunk.new [columnOf (b.map fun v => [v]) 0]
    rw [columnOf, hColumn]
  · rw [← List.map_flatten, flatten_batches (by decide)]
  · intro r hr
    obtain ⟨v, -, rfl⟩ := List.mem_map.mp hr
    rfl

end Scan

/-! ## Expanding -/

section Expand

variable {V : Type} (view : GraphView V)

/-- The neighbours that a step finds from a vertex. -/
def stepNeighbors (step : BoundStep) (v : Nat) : List Neighbor :=
  match view.getVertex v with
  | none => []
  | some _ => view.neighbors v (some step.1.label) (some step.2.label)

def stepPairs (step : BoundStep) (v : Nat) : List (List (Nat × Nat)) :=
  (batches 64 (stepNeighbors view step v)).map fun b => b.map fun n => (n.eid, n.neighborId)

/-- The rows that expand every step from the first column. -/
def pathRows (first : BoundVertexPattern) (steps : List BoundStep) : List (List Nat) :=
  steps.foldl (fun rows step => Executor.expandRows (stepPairs view step) rows)
    ((scanIds view first.label).map fun v => [v])

variable {view} {first : BoundVertexPattern} {steps : List BoundStep} {step : BoundStep}

theorem pathRows_concat : pathRows view first (steps ++ [step]) =
    Executor.expandRows (stepPairs view step) (pathRows view first steps) := by
  unfold pathRows
  rw [List.foldl_append]
  rfl

theorem flatten_stepPairs (v : Nat) : (stepPairs view step v).flatten =
    (stepNeighbors view step v).map fun n => (n.eid, n.neighborId) := by
  unfold stepPairs
  rw [← List.map_flatten, flatten_batches (by decide)]

theorem mem_pathRows_concat {r' : List Nat} : r' ∈ pathRows view first (steps ++ [step]) ↔
    ∃ r ∈ pathRows view first steps, ∃ n ∈ stepNeighbors view step (r.getD 0 0),
      r' = r ++ [n.eid, n.neighborId] := by
  rw [pathRows_concat, Executor.expandRows, List.mem_flatMap]
  refine exists_congr fun r => and_congr_right fun _ => ?_
  rw [flatten_stepPairs, List.map_map, List.mem_map]
  exact exists_congr fun n => and_congr_right fun _ => eq_comm

theorem pairs_stepPairs : Executor.Pairs view.expandFromVertex (some step.1.label)
    (some step.2.label) (stepPairs view step) := by
  intro v
  unfold GraphView.expandFromVertex stepPairs stepNeighbors
  cases view.getVertex v with
  | none => rfl
  | some u =>
    show List.map _ _ = _
    rw [List.map_map]
    refine List.map_congr_left fun b _ => ?_
    show _ = [(b.map _).map Prod.fst, (b.map _).map Prod.snd]
    rw [List.map_map, List.map_map]
    rfl

theorem execute_step {chunks : List Chunk}
    (hChild : view.execute (pathPlan first steps) = .ok chunks) :
    view.execute (pathPlan first (steps ++ [step])) = (do
      let expanded ← Executor.expand view.expandFromVertex 0 (some step.1.label)
        (some step.2.label) chunks
      let width := (fieldsOf (pathNames first steps)).length
      Executor.flatten [width, width + 1] expanded) := by
  rw [pathPlan_concat, planStep, GraphView.execute, hChild, ok_bind, schema_pathPlan]

/-- While no name has come up twice, the chunks are tables of the expanded rows. -/
theorem execute_prefix (h : ∀ init last, steps = init ++ [last] → (pathNames first init).Nodup) :
    ∃ chunks, view.execute (pathPlan first steps) = .ok chunks ∧
      Tabled (2 * steps.length + 1) chunks (pathRows view first steps) := by
  induction steps using List.reverseRecOn with
  | nil => exact execute_scan ..
  | append_singleton steps step ih =>
    have hNames := h steps step rfl
    obtain ⟨chunks, hExecute, hTabled⟩ := ih fun init last hEq => by
      subst hEq
      rw [pathNames_concat, List.append_assoc] at hNames
      exact (List.nodup_append.mp hNames).1
    obtain ⟨expanded, chunks', hExpand, hFlatten, hTabled'⟩ :=
      Executor.expand_flatten_tabled (Nat.succ_pos _) hTabled pairs_stepPairs
    refine ⟨chunks', ?_, ?_⟩
    · rw [execute_step hExecute, hExpand, ok_bind, fieldsOf_of_nodup hNames, length_pathNames]
      exact hFlatten
    · rw [pathRows_concat, List.length_append]
      exact hTabled'

/-- After a name has come up twice, the next step that finds a neighbour fails. -/
theorem execute_misplaced (h : ∀ init last, steps = init ++ [last] → (pathNames first init).Nodup)
    (hNames : ¬(pathNames first steps).Nodup)
    (hRow : pathRows view first (steps ++ [step]) ≠ []) :
    view.execute (pathPlan first (steps ++ [step])) = .error .panicked := by
  obtain ⟨chunks, hExecute, hTabled⟩ : ∃ chunks, view.execute (pathPlan first steps) = .ok chunks ∧
      Tabled (2 * steps.length + 1) chunks (pathRows view first steps) := execute_prefix h
  obtain ⟨expanded, -, hExpand, -, -⟩ :=
    Executor.expand_flatten_tabled (Nat.succ_pos _) hTabled pairs_stepPairs
  have hWidth := length_fieldsOf_lt hNames
  rw [length_pathNames] at hWidth
  rw [pathRows_concat] at hRow
  rw [execute_step hExecute, hExpand, ok_bind]
  exact Executor.expand_flatten_misplaced (Nat.succ_pos _) hTabled pairs_stepPairs hWidth hRow hExpand

theorem execute_child {chunks : List Chunk}
    (h : view.execute (pathPlan first (steps ++ [step])) = .ok chunks) :
    ∃ child, view.execute (pathPlan first steps) = .ok child := by
  rw [pathPlan_concat, planStep, GraphView.execute] at h
  obtain ⟨child, hChild, -⟩ := bind_ok_iff.mp h
  exact ⟨child, hChild⟩

theorem execute_take {before after : List BoundStep} {chunks : List Chunk}
    (h : view.execute (pathPlan first (before ++ after)) = .ok chunks) :
    ∃ child, view.execute (pathPlan first before) = .ok child := by
  induction after using List.reverseRecOn generalizing chunks with
  | nil => exact ⟨chunks, by rwa [List.append_nil] at h⟩
  | append_singleton after last ih =>
    rw [← List.append_assoc] at h
    obtain ⟨child, hChild⟩ := execute_child h
    exact ih hChild

theorem flatten_nil {m n : Nat} {chunks : List Chunk}
    (h : Executor.flatten [m, n] [] = .ok chunks) : chunks = [] := by
  unfold Executor.flatten at h
  split at h
  · cases h
  · exact (Except.ok.inj h).symm

theorem getD_of_unlabelled (hLabel : step.1.label.flatten = []) (v : Nat) :
    (view.expandFromVertex v (some step.1.label) (some step.2.label)).getD [] = [] := by
  have hNone : view.neighbors v (some step.1.label) (some step.2.label) = [] := by
    unfold GraphView.neighbors
    rw [List.filter_filter]
    refine List.filter_eq_nil_iff.mpr fun n _ => ?_
    simp [edgeLabelAllowed, hLabel]
  unfold GraphView.expandFromVertex
  cases view.getVertex v with
  | none => rfl
  | some u =>
    rw [hNone]
    rfl

/-- An edge without a label lets no neighbour pass, and the steps after it find nothing. -/
theorem execute_unlabelled {before after : List BoundStep} (hLabel : step.1.label.flatten = [])
    {chunks : List Chunk}
    (h : view.execute (pathPlan first (before ++ step :: after)) = .ok chunks) : chunks = [] := by
  induction after using List.reverseRecOn generalizing chunks with
  | nil =>
    obtain ⟨child, hChild⟩ := execute_child h
    rw [execute_step hChild] at h
    obtain ⟨expanded, hExpand, hFlatten⟩ := bind_ok_iff.mp h
    obtain rfl := Executor.expand_nothing (getD_of_unlabelled hLabel) hExpand
    exact flatten_nil hFlatten
  | append_singleton after last ih =>
    rw [← List.cons_append, ← List.append_assoc] at h
    obtain ⟨child, hChild⟩ := execute_child h
    obtain rfl := ih hChild
    rw [execute_step hChild] at h
    exact flatten_nil h

theorem flatten_of_nil (m : Nat) : Executor.flatten [m, m + 1] [] = .ok [] := by
  unfold Executor.flatten
  rw [if_neg (by simp)]
  rfl

/-- No error comes up either, where none did before the edge without a label. -/
theorem execute_blocked {before after : List BoundStep}
    (h : ∀ init last, before = init ++ [last] → (pathNames first init).Nodup)
    (hLabel : step.1.label.flatten = []) :
    view.execute (pathPlan first (before ++ step :: after)) = .ok [] := by
  induction after using List.reverseRecOn with
  | nil =>
    obtain ⟨chunks, hExecute, hTabled⟩ : ∃ chunks, view.execute (pathPlan first before) = .ok chunks ∧
        Tabled (2 * before.length + 1) chunks (pathRows view first before) := execute_prefix h
    obtain ⟨expanded, -, hExpand, -, -⟩ :=
      Executor.expand_flatten_tabled (Nat.succ_pos _) hTabled pairs_stepPairs
    obtain rfl := Executor.expand_nothing (getD_of_unlabelled hLabel) hExpand
    rw [execute_step hExecute, hExpand, ok_bind]
    exact flatten_of_nil _
  | append_singleton after last ih =>
    rw [← List.cons_append, ← List.append_assoc, execute_step ih]
    exact flatten_of_nil _

end Expand

/-! ## The graph as storage reads it -/

section Storage

variable {V : Type} {g : MemoryGraph V} {txn : MemTransaction} {view : GraphView V}

/-- The view holds what a transaction reads of the vertices and their outgoing edges. -/
structure GraphView.Of (g : MemoryGraph V) (txn : MemTransaction) (view : GraphView V) : Prop where
  vertex : ∀ vid (v : Vertex V), g.readEntity txn .vertex vid = .ok v ↔ view.getVertex vid = some v
  outgoing : ∀ vid, (g.iterAdjacency txn vid .outgoing fun _ => true).Perm
    (view.iterAdjacencyOutgoing vid)

theorem GraphView.Of.targetAllowed (h : view.Of g txn) (targetLabels : Option (Cubes Nat)) :
    g.targetAllowed txn targetLabels = view.targetAllowed targetLabels := by
  funext n
  unfold MemoryGraph.targetAllowed GraphView.targetAllowed
  cases targetLabels with
  | none => rfl
  | some specs =>
    cases hRead : g.readEntity txn .vertex n.neighborId with
    | ok v =>
      rw [(h.vertex _ v).mp hRead]
    | error e =>
      cases hGet : view.getVertex n.neighborId with
      | none => rfl
      | some v => cases hRead.symm.trans ((h.vertex _ v).mpr hGet)

end Storage

end MiniGU
