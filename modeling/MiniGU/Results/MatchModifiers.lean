import MiniGU.Invariant.PathPlan
import MiniGU.Model.MatchQuery

/-!
# What becomes of the modifiers of MATCH

The match mode, the path mode and the YIELD list are bound and then dropped with the bound query,
and the graph of USE with the binder. The rows are those of the bare path over the graph of the
session, with a column for each variable. So a modifier is respected where it had nothing to do.

## Results

* `respectsModifiers_iff`     — the queries and graphs whose rows respect all modifiers.
* `acyclic_keeps_loop`        — a loop under ACYCLIC, with the columns that YIELD leaves out.
-/

namespace MiniGU

open Parsing (MatchMode PathMode)

-- ----
-- What the modifiers ask for
-- ----

section Cells

variable {α : Type}

/-- The cells of edges in a row, which alternate with those of vertices. -/
def edgeCells : List α → List α
  | _ :: e :: row => e :: edgeCells row
  | _ => []

def vertexCells : List α → List α
  | v :: _ :: row => v :: vertexCells row
  | row => row

end Cells

/-- DIFFERENT EDGES admits no edge twice. -/
def MatchModeAdmits (mode : Option MatchMode) (row : List (Option Nat)) : Prop :=
  mode = some .different → (edgeCells row).Nodup

/-- TRAIL admits no edge twice, ACYCLIC no vertex twice, and SIMPLE none but the first as the
last. -/
def PathModeAdmits (mode : Option PathMode) (row : List (Option Nat)) : Prop :=
  (mode = some .trail → (edgeCells row).Nodup) ∧
    (mode = some .acyclic → (vertexCells row).Nodup) ∧
    (mode = some .simple → (vertexCells row).dropLast.Nodup ∧ (vertexCells row).tail.Nodup)

/-- The variables that a query can show are those of its YIELD list: `RETURN *` shows them in
order, and an item mentions no other. -/
def YieldsOnly (yieldClause : List String) (items : Option (List (List String)))
    (columns : List String) : Prop :=
  yieldClause ≠ [] → match items with
    | none => columns = yieldClause
    | some items => ∀ item ∈ items, ∀ name ∈ item, name ∈ yieldClause

/-- **The rows of a query respect its modifiers.** -/
structure RespectsModifiers {G : Type} (q : BoundMatchQuery G) (table : MatchTable G) : Prop where
  matchMode : ∀ row ∈ table.rows, MatchModeAdmits q.matchMode row
  pathMode : ∀ row ∈ table.rows, PathModeAdmits q.mode row
  yields : YieldsOnly q.yieldClause q.items table.columns
  graph : ∀ g ∈ table.reads, g = q.graph

-- ----
-- Where there is nothing to do
-- ----

section Idle

variable {G V : Type}

/-- The first vertex of a bound path and the edges with the vertices that they lead to. -/
def pathOf (elements : List BoundElementPattern) : Option (BoundVertexPattern × List BoundStep) :=
  match boundVertices elements with
  | [] => none
  | first :: rest => some (first, (boundEdges elements).zip rest)

/-- A vertex that the scan lists and from which every step finds a neighbour. -/
def Starts (view : GraphView V) (first : BoundVertexPattern) (steps : List BoundStep) (v : Nat) :
    Prop :=
  v ∈ scanIds view first.label ∧ ∀ s ∈ steps, stepNeighbors view s v ≠ []

/-- No two steps find the same from `v`. -/
def FoundApart (view : GraphView V) (steps : List BoundStep) (f : Neighbor → Nat) (v : Nat) : Prop :=
  steps.Pairwise fun s t =>
    ∀ n ∈ stepNeighbors view s v, ∀ m ∈ stepNeighbors view t v, f n ≠ f m

/-- **The modifiers have nothing to do** for a query and the graph of its session. -/
structure ModifiersIdle (view : GraphView V) (current : G) (q : BoundMatchQuery G)
    (first : BoundVertexPattern) (steps : List BoundStep) : Prop where
  edges : q.matchMode = some .different ∨ q.mode = some .trail →
    ∀ v, Starts view first steps v → FoundApart view steps Neighbor.eid v
  vertices : q.mode = some .acyclic → ∀ v, Starts view first steps v →
    FoundApart view steps Neighbor.neighborId v ∧
      ∀ s ∈ steps, ∀ n ∈ stepNeighbors view s v, n.neighborId ≠ v
  simple : q.mode = some .simple → ∀ v, Starts view first steps v →
    FoundApart view steps Neighbor.neighborId v ∧
      ∀ s ∈ steps.dropLast, ∀ n ∈ stepNeighbors view s v, n.neighborId ≠ v
  yields : YieldsOnly q.yieldClause q.items (fieldsOf (pathNames first steps))
  graph : current = q.graph

end Idle

-- ----
-- The rows of a plan
-- ----

section Rows

variable {V : Type} {view : GraphView V} {first : BoundVertexPattern} {steps : List BoundStep}
  {step : BoundStep} {chunks : List Chunk}

theorem expand_no_rows (h : Tabled (2 * steps.length + 1) chunks (pathRows view first steps))
    (hNone : pathRows view first (steps ++ [step]) = []) :
    Executor.expand view.expandFromVertex 0 (some step.1.label) (some step.2.label) chunks =
      .ok [] := by
  rw [Executor.expand_tabled (Nat.succ_pos _) h, Except.ok.injEq]
  refine List.flatMap_eq_nil_iff.mpr fun r hr => ?_
  have hPairs : stepPairs view step (r.getD 0 0) = [] := by
    have hNeighbors : stepNeighbors view step (r.getD 0 0) = [] := by
      refine List.eq_nil_iff_forall_not_mem.mpr fun n hn => ?_
      have hRow : r ++ [n.eid, n.neighborId] ∈ pathRows view first (steps ++ [step]) :=
        mem_pathRows_concat.mpr ⟨r, hr, n, hn, rfl⟩
      rw [hNone] at hRow
      cases hRow
    unfold stepPairs
    rw [hNeighbors, (batches_eq_nil (by decide)).mpr rfl]
    rfl
  rw [pairs_stepPairs, hPairs]
  rfl

/-- A plan that gets past a name that comes up again has no rows by then. -/
theorem execute_repeated (hNames : ¬(pathNames first steps).Nodup)
    (h : view.execute (pathPlan first (steps ++ [step])) = .ok chunks) :
    chunks = [] ∧ pathRows view first (steps ++ [step]) = [] := by
  induction steps using List.reverseRecOn generalizing step chunks with
  | nil => exact absurd (List.nodup_singleton _) hNames
  | append_singleton steps s ih =>
    obtain ⟨child, hChild⟩ := execute_child h
    by_cases hEarlier : (pathNames first steps).Nodup
    · -- the name comes up again in the last step but one
      have hFirst : ∀ init last, steps ++ [s] = init ++ [last] → (pathNames first init).Nodup := by
        intro init last hEq
        obtain ⟨rfl, -⟩ := List.append_inj' hEq rfl
        exact hEarlier
      have hNone : pathRows view first (steps ++ [s] ++ [step]) = [] := by
        by_contra hRow
        rw [execute_misplaced hFirst hNames hRow] at h
        cases h
      obtain ⟨child', hChild', hTabled⟩ : ∃ child,
          view.execute (pathPlan first (steps ++ [s])) = .ok child ∧
            Tabled (2 * (steps ++ [s]).length + 1) child (pathRows view first (steps ++ [s])) :=
        execute_prefix hFirst
      rw [execute_step hChild', expand_no_rows hTabled hNone, ok_bind] at h
      exact ⟨flatten_nil h, hNone⟩
    · obtain ⟨rfl, hNone⟩ := ih hEarlier hChild
      rw [execute_step hChild] at h
      refine ⟨flatten_nil h, ?_⟩
      rw [pathRows_concat, hNone]
      rfl

/-- **The rows of a plan that succeeds.** -/
theorem execute_rows (h : view.execute (pathPlan first steps) = .ok chunks) :
    chunks.flatMap idRows = (pathRows view first steps).map (List.map some) := by
  induction steps using List.reverseRecOn with
  | nil =>
    obtain ⟨chunks', hExecute, hTabled⟩ : ∃ chunks', view.execute (pathPlan first []) = .ok chunks' ∧
        Tabled 1 chunks' (pathRows view first []) := execute_scan ..
    obtain rfl := Except.ok.inj (h.symm.trans hExecute)
    exact hTabled.idRows Nat.one_pos
  | append_singleton steps step _ =>
    by_cases hNames : (pathNames first steps).Nodup
    · have hFirst : ∀ init last, steps ++ [step] = init ++ [last] → (pathNames first init).Nodup := by
        intro init last hEq
        obtain ⟨rfl, -⟩ := List.append_inj' hEq rfl
        exact hNames
      obtain ⟨chunks', hExecute, hTabled⟩ : ∃ chunks',
          view.execute (pathPlan first (steps ++ [step])) = .ok chunks' ∧
            Tabled (2 * (steps ++ [step]).length + 1) chunks'
              (pathRows view first (steps ++ [step])) := execute_prefix hFirst
      obtain rfl := Except.ok.inj (h.symm.trans hExecute)
      exact hTabled.idRows (Nat.succ_pos _)
    · obtain ⟨rfl, hNone⟩ := execute_repeated hNames h
      rw [hNone]
      rfl

/-- A vertex and the neighbours that are found from it, as a row. -/
def rowOf (v : Nat) (ns : List Neighbor) : List Nat :=
  v :: ns.flatMap fun n => [n.eid, n.neighborId]

/-- **A row is a start and one neighbour for each step.** -/
theorem mem_pathRows {r : List Nat} : r ∈ pathRows view first steps ↔
    ∃ v ∈ scanIds view first.label, ∃ ns,
      List.Forall₂ (fun s n => n ∈ stepNeighbors view s v) steps ns ∧ r = rowOf v ns := by
  induction steps using List.reverseRecOn generalizing r with
  | nil =>
    unfold pathRows
    rw [List.foldl_nil, List.mem_map]
    refine exists_congr fun v => and_congr_right fun _ => ⟨fun h => ⟨[], .nil, h.symm⟩, ?_⟩
    rintro ⟨ns, hns, rfl⟩
    cases hns
    rfl
  | append_singleton steps step ih =>
    rw [mem_pathRows_concat]
    constructor
    · rintro ⟨r', hr', n, hn, rfl⟩
      obtain ⟨v, hv, ns, hns, rfl⟩ := ih.mp hr'
      refine ⟨v, hv, ns ++ [n], List.rel_append hns (.cons hn .nil), ?_⟩
      unfold rowOf
      rw [List.flatMap_append]
      rfl
    · rintro ⟨v, hv, ns, hns, rfl⟩
      obtain rfl | ⟨init, last, rfl⟩ := List.eq_nil_or_concat ns
      · have := hns.length_eq
        simp at this
      · have hBack := List.forall₂_reverse_iff.mpr hns
        rw [List.reverse_append, List.concat_eq_append, List.reverse_append] at hBack
        obtain ⟨hLast, hInit⟩ := List.forall₂_cons.mp hBack
        refine ⟨rowOf v init, ih.mpr ⟨v, hv, init, List.forall₂_reverse_iff.mp hInit, rfl⟩, last,
          hLast, ?_⟩
        unfold rowOf
        rw [List.concat_eq_append, List.flatMap_append]
        rfl

-- ----
-- The cells of the rows
-- ----

theorem edgeCells_rowOf (v : Nat) (ns : List Neighbor) :
    edgeCells ((rowOf v ns).map some) = ns.map fun n => some n.eid := by
  unfold rowOf
  induction ns generalizing v with
  | nil => rfl
  | cons n ns ih => exact congrArg (some n.eid :: ·) (ih n.neighborId)

theorem vertexCells_rowOf (v : Nat) (ns : List Neighbor) :
    vertexCells ((rowOf v ns).map some) = some v :: ns.map fun n => some n.neighborId := by
  unfold rowOf
  induction ns generalizing v with
  | nil => rfl
  | cons n ns ih => exact congrArg (some v :: ·) (ih n.neighborId)

theorem forall_pathRows {P : List (Option Nat) → Prop} :
    (∀ row ∈ (pathRows view first steps).map (List.map some), P row) ↔
      ∀ v, Starts view first steps v → ∀ ns,
        List.Forall₂ (fun s n => n ∈ stepNeighbors view s v) steps ns →
          P ((rowOf v ns).map some) := by
  rw [List.forall_mem_map]
  constructor
  · intro h v hv ns hns
    exact h _ (mem_pathRows.mpr ⟨v, hv.1, ns, hns, rfl⟩)
  · intro h r hr
    obtain ⟨v, hv, ns, hns, rfl⟩ := mem_pathRows.mp hr
    refine h v ⟨hv, fun s hs => ?_⟩ ns hns
    obtain ⟨n, -, hn⟩ := exists_of_mem_choice hns.flip hs
    exact List.ne_nil_of_mem hn

theorem exists_neighbor {v : Nat} (h : Starts view first steps v) :
    ∀ s ∈ steps, ∃ n, n ∈ stepNeighbors view s v :=
  fun s hs => List.exists_mem_of_ne_nil _ (h.2 s hs)

theorem nodup_map_some {f : Neighbor → Nat} {ns : List Neighbor} :
    (ns.map fun n => some (f n)).Nodup ↔ ns.Pairwise fun n m => f n ≠ f m := by
  unfold List.Nodup
  rw [List.pairwise_map]
  refine ⟨fun h => h.imp fun hNe hEq => hNe (congrArg some hEq), fun h => h.imp ?_⟩
  exact fun hNe hEq => hNe (Option.some.inj hEq)

/-- No row has an edge twice exactly if no two steps find one. -/
theorem edges_nodup_iff :
    (∀ row ∈ (pathRows view first steps).map (List.map some), (edgeCells row).Nodup) ↔
      ∀ v, Starts view first steps v → FoundApart view steps Neighbor.eid v := by
  rw [forall_pathRows]
  refine forall_congr' fun v => forall_congr' fun hv => ?_
  unfold FoundApart
  rw [← forall_choices_pairwise (exists_neighbor hv)]
  refine forall_congr' fun ns => forall_congr' fun _ => ?_
  rw [edgeCells_rowOf, nodup_map_some]

theorem vertices_nodup_iff :
    (∀ row ∈ (pathRows view first steps).map (List.map some), (vertexCells row).Nodup) ↔
      ∀ v, Starts view first steps v → FoundApart view steps Neighbor.neighborId v ∧
        ∀ s ∈ steps, ∀ n ∈ stepNeighbors view s v, n.neighborId ≠ v := by
  rw [forall_pathRows]
  refine forall_congr' fun v => forall_congr' fun hv => ?_
  have hRow : ∀ ns : List Neighbor, (vertexCells ((rowOf v ns).map some)).Nodup ↔
      (∀ n ∈ ns, n.neighborId ≠ v) ∧ ns.Pairwise fun n m => n.neighborId ≠ m.neighborId := by
    intro ns
    rw [vertexCells_rowOf, List.nodup_cons, nodup_map_some]
    refine and_congr_left fun _ => ?_
    simp
  unfold FoundApart
  rw [← forall_choices_pairwise (exists_neighbor hv)]
  constructor
  · intro h
    refine ⟨fun ns hns => ((hRow ns).mp (h ns hns)).2, fun s hs n hn => ?_⟩
    obtain ⟨ns, hns, hMem⟩ := exists_choice_through (exists_neighbor hv) hs hn
    exact ((hRow ns).mp (h ns hns)).1 n hMem
  · rintro ⟨hApart, hAway⟩ ns hns
    refine (hRow ns).mpr ⟨fun n hn => ?_, hApart ns hns⟩
    obtain ⟨s, hs, hMem⟩ := exists_of_mem_choice hns hn
    exact hAway s hs n hMem

/-- Paths without a repeated vertex, except that the first may be the last. -/
theorem simple_nodup_iff :
    (∀ row ∈ (pathRows view first steps).map (List.map some),
      (vertexCells row).dropLast.Nodup ∧ (vertexCells row).tail.Nodup) ↔
      ∀ v, Starts view first steps v → FoundApart view steps Neighbor.neighborId v ∧
        ∀ s ∈ steps.dropLast, ∀ n ∈ stepNeighbors view s v, n.neighborId ≠ v := by
  rw [forall_pathRows]
  refine forall_congr' fun v => forall_congr' fun hv => ?_
  have hRow : ∀ ns : List Neighbor, ((vertexCells ((rowOf v ns).map some)).dropLast.Nodup ∧
      (vertexCells ((rowOf v ns).map some)).tail.Nodup) ↔
      (∀ n ∈ ns.dropLast, n.neighborId ≠ v) ∧
        ns.Pairwise fun n m => n.neighborId ≠ m.neighborId := by
    intro ns
    rw [vertexCells_rowOf, List.tail_cons, nodup_map_some]
    refine and_congr_left fun hTail => ?_
    cases ns with
    | nil => simp
    | cons n ns =>
      have hMap : some n.neighborId :: ns.map (fun n => some n.neighborId) =
          (n :: ns).map fun n => some n.neighborId := rfl
      rw [List.map_cons, List.dropLast_cons_cons, List.nodup_cons, hMap, ← List.map_dropLast]
      have hInit := nodup_map_some.mpr (hTail.sublist (List.dropLast_sublist (n :: ns)))
      rw [and_iff_left hInit, List.mem_map]
      constructor
      · exact fun h m hm hEq => h ⟨m, hm, congrArg some hEq⟩
      · rintro h ⟨m, hm, hEq⟩
        exact h m hm (Option.some.inj hEq)
  unfold FoundApart
  rw [← forall_choices_pairwise (exists_neighbor hv)]
  constructor
  · intro h
    refine ⟨fun ns hns => ((hRow ns).mp (h ns hns)).2, fun s hs n hn => ?_⟩
    obtain ⟨init, last, rfl⟩ : ∃ init last, steps = init ++ [last] := by
      rcases List.eq_nil_or_concat steps with rfl | ⟨init, last, rfl⟩
      · cases hs
      · exact ⟨init, last, List.concat_eq_append ..⟩
    rw [List.dropLast_concat] at hs
    obtain ⟨ns, hns, hMem⟩ := exists_choice_through
      (fun s' hs' => exists_neighbor hv s' (List.mem_append_left _ hs')) hs hn
    obtain ⟨m, hm⟩ := exists_neighbor hv last (List.mem_append_right _ (List.mem_singleton_self _))
    refine ((hRow (ns ++ [m])).mp (h _ (List.rel_append hns (.cons hm .nil)))).1 n ?_
    rwa [List.dropLast_concat]
  · rintro ⟨hApart, hAway⟩ ns hns
    refine (hRow ns).mpr ⟨fun n hn => ?_, hApart ns hns⟩
    obtain ⟨s, hs, hMem⟩ := exists_of_mem_choice (dropLast_forall₂ hns) hn
    exact hAway s hs n hMem

end Rows

-- ----
-- The queries that are run
-- ----

section Run

variable {G V Property : Type} [DecidableEq Property] {session : BinderSession G}
  {typeOf : G → GraphType Property} {viewOf : G → GraphView V}

theorem reads_foldl (g : G) (steps : List BoundStep) (plan : PlanNode) (h : ∀ g' ∈ plan.reads g, g' = g)
    (hSome : plan.reads g ≠ []) : (∀ g' ∈ (steps.foldl planStep plan).reads g, g' = g) ∧
      (steps.foldl planStep plan).reads g ≠ [] := by
  induction steps generalizing plan with
  | nil => exact ⟨h, hSome⟩
  | cons step steps ih =>
    refine ih (planStep plan step) (fun g' hg' => ?_) (by simp [planStep, PlanNode.reads])
    rcases List.mem_append.mp hg' with hg' | hg'
    · exact h g' hg'
    · exact List.mem_singleton.mp hg'

/-- A query that succeeds has a path, and its table is that of the path's plan in the graph of the
session. -/
theorem path_of_run {q : MatchQuery} {bound : BoundMatchQuery G} {table : MatchTable G}
    (hRun : runMatchQuery session typeOf viewOf q = some (bound, .ok table)) :
    ∃ current first steps, session.currentGraph = some current ∧
      pathOf bound.elements = some (first, steps) ∧
      executeMatch viewOf (some current) (pathPlan first steps) = .ok table := by
  obtain ⟨bound', -, hRun⟩ := Option.bind_eq_some_iff.mp hRun
  obtain ⟨plan, hPlan, hRun⟩ := Option.bind_eq_some_iff.mp hRun
  obtain ⟨rfl, hExecute⟩ := Prod.mk.inj (Option.some.inj hRun)
  obtain ⟨current, hCurrent⟩ : ∃ current, session.currentGraph = some current := by
    cases hGraph : session.currentGraph with
    | none =>
      rw [hGraph] at hExecute
      cases hExecute
    | some current => exact ⟨current, rfl⟩
  rw [hCurrent] at hExecute
  unfold pathOf
  unfold createPhysicalPlan at hPlan
  cases hVertices : boundVertices bound'.elements with
  | nil =>
    rw [hVertices] at hPlan
    cases hPlan
  | cons v vs =>
    rw [hVertices] at hPlan
    obtain rfl := Option.some.inj hPlan
    exact ⟨current, v, _, hCurrent, rfl, hExecute⟩

/-- **The rows of a query respect its modifiers exactly where these have nothing to do.** -/
theorem respectsModifiers_iff (session : BinderSession G) (typeOf : G → GraphType Property)
    (viewOf : G → GraphView V) (q : MatchQuery) (bound : BoundMatchQuery G) (table : MatchTable G)
    (hRun : runMatchQuery session typeOf viewOf q = some (bound, .ok table)) :
    RespectsModifiers bound table ↔ ∀ current ∈ session.currentGraph,
      ∀ p ∈ pathOf bound.elements, ModifiersIdle (viewOf current) current bound p.1 p.2 := by
  obtain ⟨current, first, steps, hCurrent, hPath, hTable⟩ := path_of_run hRun
  have hOnly : (∀ current ∈ session.currentGraph, ∀ p ∈ pathOf bound.elements,
      ModifiersIdle (viewOf current) current bound p.1 p.2) ↔
      ModifiersIdle (viewOf current) current bound first steps := by
    rw [hCurrent, hPath]
    refine ⟨fun h => h _ rfl _ rfl, fun h g hg p hp => ?_⟩
    obtain rfl := Option.some.inj hg
    obtain rfl := Option.some.inj hp
    exact h
  rw [hOnly]
  obtain ⟨chunks, hChunks, hEq⟩ := bind_ok_iff.mp hTable
  obtain rfl := Except.ok.inj hEq
  obtain ⟨hSame, hSome⟩ := reads_foldl current steps (.nodeScan first.var first.label)
    (fun g' hg' => List.mem_singleton.mp hg') (List.cons_ne_nil _ _)
  constructor
  · intro h
    have hMatch := h.matchMode
    have hMode := h.pathMode
    dsimp only at hMatch hMode
    rw [execute_rows hChunks] at hMatch hMode
    refine ⟨fun hWhich => edges_nodup_iff.mp fun row hRow => ?_,
      fun hAcyclic => vertices_nodup_iff.mp fun row hRow => (hMode row hRow).2.1 hAcyclic,
      fun hSimple => simple_nodup_iff.mp fun row hRow => (hMode row hRow).2.2 hSimple, ?_, ?_⟩
    · rcases hWhich with hDifferent | hTrail
      · exact hMatch row hRow hDifferent
      · exact (hMode row hRow).1 hTrail
    · rw [← schema_pathPlan]
      exact h.yields
    · obtain ⟨g, hg⟩ := List.exists_mem_of_ne_nil _ hSome
      rw [← hSame g hg]
      exact h.graph g hg
  · intro h
    refine ⟨fun row hRow => ?_, fun row hRow => ?_, ?_, fun g hg => ?_⟩
    · rw [execute_rows hChunks] at hRow
      exact fun hDifferent => edges_nodup_iff.mpr (h.edges (.inl hDifferent)) row hRow
    · rw [execute_rows hChunks] at hRow
      exact ⟨fun hTrail => edges_nodup_iff.mpr (h.edges (.inr hTrail)) row hRow,
        fun hAcyclic => vertices_nodup_iff.mpr (h.vertices hAcyclic) row hRow,
        fun hSimple => simple_nodup_iff.mpr (h.simple hSimple) row hRow⟩
    · have hYields := h.yields
      rw [← schema_pathPlan] at hYields
      exact hYields
    · rw [hSame g hg]
      exact h.graph

end Run

-- ----
-- Two queries
-- ----

section Queries

/-- One label, and vertices without properties. -/
def oneLabelTypes : GraphType Nat where
  getLabelId name := if name = "A" then some 1 else none
  getVertexType _ := none

/-- Two vertices and an edge between them. -/
def edgeView : GraphView Nat where
  vertices := [Vertex.new 0 0 [], Vertex.new 1 0 []]
  edges := [Edge.new 10 0 1 1 []]
  vertexIds := (List.nodup_range : (List.range 2).Nodup)
  edgeIds := by decide

/-- A vertex and a loop. -/
def loopView : GraphView Nat where
  vertices := [Vertex.new 0 0 []]
  edges := [Edge.new 10 0 0 1 []]
  vertexIds := List.nodup_singleton 0
  edgeIds := by decide

def namedView (name : String) : GraphView Nat := if name = "loop" then loopView else edgeView

/-- A catalog with the schema `default` in the root, and every graph in it. -/
def defaultSession (current : String) : BinderSession String where
  catalog :=
    { root := .directory 0
      directory := fun _ => ⟨none, [("default", .schema 0)]⟩
      schemaParent := fun _ => some 0 }
  homeSchema := none
  currentSchema := some 0
  homeGraph := none
  currentGraph := some current
  getGraph _ name := some name

/-- `USE /default/graph MATCH DIFFERENT EDGES mode (a)-[e:A]->(b) YIELD names RETURN *`. -/
def edgeQuery (graph : String) (mode : PathMode) (names : List String) : MatchQuery where
  useGraph := some (.ref (.ref ⟨some (.absolute [.name "default"]), [graph]⟩))
  matchMode := some .different
  pathPrefix := some (.pathMode mode)
  elements := [.node ⟨some "a", none, none⟩, .edge .right ⟨some "e", some (.label "A"), none⟩,
    .node ⟨some "b", none, none⟩]
  yieldClause := names
  items := none

def boundEdgeQuery (graph : String) (mode : PathMode) (names : List String) :
    BoundMatchQuery String where
  graph := graph
  matchMode := some .different
  mode := some mode
  elements := [.vertex ⟨"a", [[]]⟩, .edge ⟨"e", [[1]]⟩, .vertex ⟨"b", [[]]⟩]
  yieldClause := names
  items := none

theorem edge_respects_acyclic :
    RespectsModifiers (boundEdgeQuery "edge" .acyclic ["a", "e", "b"])
      ⟨["a", "e", "b"], [[some 0, some 10, some 1]], ["edge", "edge"]⟩ := by
  refine (respectsModifiers_iff (defaultSession "edge") (fun _ => oneLabelTypes) namedView
    (edgeQuery "edge" .acyclic ["a", "e", "b"]) _ _ (by decide +kernel)).mpr ?_
  intro current hCurrent p hp
  obtain rfl := Option.some.inj hCurrent
  obtain rfl := Option.some.inj hp
  have hSingle : ∀ {f v}, FoundApart (namedView "edge") [(⟨"e", [[1]]⟩, ⟨"b", [[]]⟩)] f v :=
    List.pairwise_singleton ..
  refine ⟨fun _ v _ => hSingle, fun _ v hv => ⟨hSingle, ?_⟩, fun hSimple => (nomatch hSimple),
    fun _ => rfl, rfl⟩
  -- the only vertex with an edge of that label is 0
  have hStart : v = 0 ∨ v = 1 := by
    have hScan : v ∈ scanIds (namedView "edge") [[]] := hv.1
    rwa [show scanIds (namedView "edge") [[]] = [0, 1] by decide +kernel, List.mem_pair] at hScan
  rcases hStart with rfl | rfl
  · decide
  · decide

/-- A loop under ACYCLIC, read from the session's graph, with the columns that YIELD leaves out. -/
theorem acyclic_keeps_loop :
    runMatchQuery (defaultSession "loop") (fun _ => oneLabelTypes) namedView
        (edgeQuery "edge" .acyclic ["b"]) =
      some (boundEdgeQuery "edge" .acyclic ["b"],
        .ok ⟨["a", "e", "b"], [[some 0, some 10, some 0]], ["loop", "loop"]⟩) ∧
    ¬ RespectsModifiers (boundEdgeQuery "edge" .acyclic ["b"])
      ⟨["a", "e", "b"], [[some 0, some 10, some 0]], ["loop", "loop"]⟩ := by
  refine ⟨by decide +kernel, fun h => ?_⟩
  have hVertices := (h.pathMode _ (List.mem_singleton_self _)).2.1 rfl
  revert hVertices
  decide

end Queries

end MiniGU
