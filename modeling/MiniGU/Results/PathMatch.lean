import MiniGU.Invariant.PathPlan

/-!
# What a path pattern matches

A linear path is a vertex and steps, each an edge and the vertex it leads to, with an optional
variable and an optional label name on every element. Its plan is right for a single vertex,
and for one edge with a label between vertices of two names.

Every step is expanded from the first column, so that from two edges on each of them starts at
the first vertex; a name that comes up again has one field in the schema and two columns in the
chunks; and an edge without a label lets nothing through.
-/

namespace MiniGU

/-! ## Patterns and their matches -/

structure PathElement where
  var : Option String
  label : Option String
deriving DecidableEq, Repr

def PathElement.filler (x : PathElement) : ElementPatternFiller :=
  ⟨x.var, x.label.map .label, false⟩

structure LinearPath where
  first : PathElement
  steps : List (PathElement × PathElement)
deriving DecidableEq, Repr

def LinearPath.elements (p : LinearPath) : List ElementPattern :=
  .node p.first.filler :: p.steps.flatMap fun s => [.edge .right s.1.filler, .node s.2.filler]

def LinearPath.vars (p : LinearPath) : List (Option String) :=
  p.first.var :: p.steps.flatMap fun s => [s.1.var, s.2.var]

section Matches

variable {V Property : Type} (gt : GraphType Property) (view : GraphView V)

/-- The label is the one that the element names, if it names one. -/
def HasLabel (x : PathElement) (label : Nat) : Prop :=
  ∀ name, x.label = some name → gt.getLabelId name = some label

def VertexMatches (x : PathElement) (vid : Nat) : Prop :=
  ∃ v ∈ view.vertices, v.vid = vid ∧ HasLabel gt x v.labelId

def EdgeMatches (x : PathElement) (src eid dst : Nat) : Prop :=
  ∃ e ∈ view.edges, e.eid = eid ∧ e.srcId = src ∧ e.dstId = dst ∧ HasLabel gt x e.labelId

/-- The row runs along the steps from the vertex `v`. -/
def Walk : Nat → List (PathElement × PathElement) → List Nat → Prop
  | _, [], row => row = []
  | v, s :: steps, row =>
    ∃ eid w rest, row = eid :: w :: rest ∧ EdgeMatches gt view s.1 v eid w ∧
      VertexMatches gt view s.2 w ∧ Walk w steps rest

/-- Equal variables stand at equal elements. -/
def Consistent (vars : List (Option String)) (row : List Nat) : Prop :=
  ∀ (i j : Nat) (name : String), vars[i]? = some (some name) → vars[j]? = some (some name) → row[i]? = row[j]?

def Matches (p : LinearPath) (row : List Nat) : Prop :=
  ∃ v rest, row = v :: rest ∧ VertexMatches gt view p.first v ∧ Walk gt view v p.steps rest ∧
    Consistent p.vars row

/-- What the columns of the names hold in a row of a chunk. -/
def binding (schema names : List String) (row : List (Option Nat)) : List (Option Nat) :=
  names.map fun name => row.getD (schema.idxOf name) none

/-- The names that the binder gives the elements. -/
def boundNames (elements : List BoundElementPattern) : List String :=
  elements.map fun
    | .vertex v => v.var
    | .edge e => e.var

/-- The plan of the bound pattern gives every match once, with each element in the column of its
name. -/
def Answers (p : LinearPath) (bound : List BoundElementPattern) : Prop :=
  ∃ plan chunks, createPhysicalPlan bound = some plan ∧ view.execute plan = .ok chunks ∧
    ((chunks.flatMap idRows).map (binding plan.schema (boundNames bound))).Nodup ∧
    ∀ row, row ∈ (chunks.flatMap idRows).map (binding plan.schema (boundNames bound)) ↔
      ∃ r, Matches gt view p r ∧ row = r.map some

end Matches

/-- Some graph has a match for the pattern. -/
def Matchable (V : Type) {Property : Type} (gt : GraphType Property) (p : LinearPath) : Prop :=
  ∃ (view : GraphView V) (row : List Nat), Matches gt view p row

/-- An edge without a label, such that no name is repeated among the elements before the edge
before it. -/
def Blocked (p : LinearPath) (names : List String) : Prop :=
  ∃ before s after, p.steps = before ++ s :: after ∧ (∀ x ∈ before, x.1.label.isSome = true) ∧
    s.1.label = none ∧ (names.take (2 * before.length - 1)).Nodup

/-- The pattern is a single vertex, or one edge with a label and no name twice, or one that
matches nothing in any graph, whose plan gets to an edge without a label. -/
def Answerable (V : Type) {Property : Type} (gt : GraphType Property) (p : LinearPath)
    (names : List String) : Prop :=
  p.steps = [] ∨ (∃ s, p.steps = [s] ∧ s.1.label.isSome = true ∧ names.Nodup) ∨
    (¬Matchable V gt p ∧ Blocked p names)

/-! ## Binding -/

section Bind

variable {Property : Type} [DecidableEq Property] {gt : GraphType Property}

/-- What the binder keeps of an element. -/
structure BoundAs (gt : GraphType Property) (x : PathElement) (var : String) (specs : Cubes Nat) :
    Prop where
  var : ∀ name, x.var = some name → var = name
  unlabelled : x.label = none → specs = [[]]
  labelled : ∀ name, x.label = some name → ∃ id, gt.getLabelId name = some id ∧ specs = [[id]]

omit [DecidableEq Property] in
theorem boundAs_of_bindLabel {x : PathElement} {specs : Cubes Nat} {generated : String}
    (h : bindLabel gt x.filler.label = .ok specs) :
    BoundAs gt x (x.filler.var.getD generated) specs := by
  refine ⟨fun name hVar => ?_, fun hLabel => ?_, fun name hLabel => ?_⟩
  · show x.var.getD generated = name
    rw [hVar]
    rfl
  · unfold bindLabel PathElement.filler at h
    rw [hLabel] at h
    exact (Except.ok.inj h).symm
  · unfold bindLabel PathElement.filler at h
    rw [hLabel] at h
    cases hId : gt.getLabelId name with
    | none => simp [bindLabelExpr, hId] at h
    | some id =>
      simp only [Option.map_some, bindLabelExpr, hId, lowerLabelExprToSpecs, Except.ok.injEq] at h
      exact ⟨id, rfl, h.symm⟩

theorem bind_node {schema schema' : BindingSchema Property} {x : PathElement}
    {b : BoundElementPattern}
    (h : bindElementPattern gt schema (.node x.filler) = .ok (b, schema')) :
    ∃ v, b = .vertex v ∧ BoundAs gt x v.var v.label := by
  unfold bindElementPattern bindVertexFiller at h
  obtain ⟨⟨v, s⟩, hFiller, hEq⟩ := bind_ok_iff.mp h
  obtain ⟨rfl, -⟩ := Prod.mk.inj (Except.ok.inj hEq)
  obtain ⟨specs, hSpecs, hRest⟩ := bind_ok_iff.mp hFiller
  obtain ⟨s', -, hRest⟩ := bind_ok_iff.mp hRest
  obtain ⟨rfl, -⟩ := Prod.mk.inj (Except.ok.inj hRest)
  exact ⟨_, rfl, boundAs_of_bindLabel hSpecs⟩

theorem bind_edge {schema schema' : BindingSchema Property} {x : PathElement}
    {b : BoundElementPattern}
    (h : bindElementPattern gt schema (.edge .right x.filler) = .ok (b, schema')) :
    ∃ e, b = .edge e ∧ BoundAs gt x e.var e.label := by
  unfold bindElementPattern bindEdgeFiller at h
  obtain ⟨⟨e, s⟩, hFiller, hEq⟩ := bind_ok_iff.mp h
  obtain ⟨rfl, -⟩ := Prod.mk.inj (Except.ok.inj hEq)
  obtain ⟨s', -, hRest⟩ := bind_ok_iff.mp hFiller
  obtain ⟨specs, hSpecs, hRest⟩ := bind_ok_iff.mp hRest
  obtain ⟨rfl, -⟩ := Prod.mk.inj (Except.ok.inj hRest)
  exact ⟨_, rfl, boundAs_of_bindLabel hSpecs⟩

/-- A step of the pattern with what is bound for it. -/
abbrev Step := (PathElement × PathElement) × BoundStep

structure StepBound (gt : GraphType Property) (c : Step) : Prop where
  edge : BoundAs gt c.1.1 c.2.1.var c.2.1.label
  vertex : BoundAs gt c.1.2 c.2.2.var c.2.2.label

theorem bind_steps {schema : BindingSchema Property} {steps : List (PathElement × PathElement)}
    {bound : List BoundElementPattern}
    (h : bindElements gt schema
      (steps.flatMap fun s => [.edge .right s.1.filler, .node s.2.filler]) = .ok bound) :
    ∃ cs : List Step, steps = cs.map Prod.fst ∧
      bound = (cs.map Prod.snd).flatMap (fun s => [.edge s.1, .vertex s.2]) ∧
      ∀ c ∈ cs, StepBound gt c := by
  induction steps generalizing schema bound with
  | nil =>
    obtain rfl := Except.ok.inj h
    exact ⟨[], rfl, rfl, fun c hc => (nomatch hc)⟩
  | cons s steps ih =>
    obtain ⟨⟨b, schema₁⟩, hEdge, h⟩ := bind_ok_iff.mp h
    obtain ⟨bound₁, hRest, h⟩ := bind_ok_iff.mp h
    obtain rfl := Except.ok.inj h
    obtain ⟨⟨b', schema₂⟩, hNode, hRest⟩ := bind_ok_iff.mp hRest
    obtain ⟨bound₂, hTail, hRest⟩ := bind_ok_iff.mp hRest
    obtain rfl := Except.ok.inj hRest
    obtain ⟨e, rfl, hE⟩ := bind_edge hEdge
    obtain ⟨v, rfl, hV⟩ := bind_node hNode
    obtain ⟨cs, rfl, rfl, hcs⟩ := ih hTail
    refine ⟨(s, (e, v)) :: cs, rfl, rfl, fun c hc => ?_⟩
    rcases List.mem_cons.mp hc with rfl | hc
    · exact ⟨hE, hV⟩
    · exact hcs c hc

theorem bind_path {p : LinearPath} {bound : List BoundElementPattern}
    (h : bindElements gt [] p.elements = .ok bound) :
    ∃ (first : BoundVertexPattern) (cs : List Step), p.steps = cs.map Prod.fst ∧
      bound = boundPath first (cs.map Prod.snd) ∧ BoundAs gt p.first first.var first.label ∧
      ∀ c ∈ cs, StepBound gt c := by
  obtain ⟨⟨b, schema⟩, hFirst, h⟩ := bind_ok_iff.mp h
  obtain ⟨bound₁, hRest, h⟩ := bind_ok_iff.mp h
  obtain rfl := Except.ok.inj h
  obtain ⟨v, rfl, hV⟩ := bind_node hFirst
  obtain ⟨cs, hSteps, rfl, hcs⟩ := bind_steps hRest
  exact ⟨v, cs, hSteps, rfl, hV, hcs⟩

end Bind

/-! ## The star of a path -/

section Star

variable {V Property : Type} {gt : GraphType Property}

/-- A label that the specs of an element let through. -/
def someLabel (specs : Cubes Nat) : Nat := specs.flatten.headD 0

/-- A first vertex, with an edge for every step to a vertex of its own. -/
def star (V : Type) (first : BoundVertexPattern) (steps : List BoundStep) : GraphView V where
  vertices := Vertex.new 0 (someLabel first.label) [] ::
    steps.zipIdx.map fun p => Vertex.new (p.2 + 1) (someLabel p.1.2.label) []
  edges := steps.zipIdx.map fun p =>
    Edge.new (steps.length + 1 + p.2) 0 (p.2 + 1) (someLabel p.1.1.label) []
  vertexIds := by
    rw [List.map_cons, List.map_map, List.nodup_cons]
    refine ⟨fun hZero => ?_, ?_⟩
    · obtain ⟨p, -, hp⟩ := List.mem_map.mp hZero
      exact Nat.succ_ne_zero p.2 hp
    · have hSnd : (steps.zipIdx.map fun p => p.2 + 1) = (List.range steps.length).map (· + 1) := by
        rw [List.range_eq_range', ← List.zipIdx_map_snd, List.map_map]
        rfl
      exact hSnd ▸ List.nodup_range.map fun _ _ h => Nat.succ.inj h
  edgeIds := by
    have hSnd : (steps.zipIdx.map fun p => steps.length + 1 + p.2) =
        (List.range steps.length).map (steps.length + 1 + ·) := by
      rw [List.range_eq_range', ← List.zipIdx_map_snd, List.map_map]
      rfl
    rw [List.map_map]
    exact hSnd ▸ List.nodup_range.map fun _ _ h => Nat.add_left_cancel h

variable {first : BoundVertexPattern} {steps : List BoundStep}

theorem specsContain_someLabel {x : PathElement} {var : String} {specs : Cubes Nat}
    (h : BoundAs gt x var specs) : specsContain specs (someLabel specs) = true := by
  cases hLabel : x.label with
  | none =>
    rw [h.unlabelled hLabel]
    rfl
  | some name =>
    obtain ⟨id, -, hSpecs⟩ := h.labelled name hLabel
    rw [hSpecs]
    simp [specsContain, someLabel]

/-- Every labelled step finds its own vertex from the first one. -/
theorem star_neighbor (V : Type) (first : BoundVertexPattern) {before after : List BoundStep} {x y : PathElement} {step : BoundStep}
    (hSteps : steps = before ++ step :: after) (hEdge : BoundAs gt x step.1.var step.1.label)
    (hLabel : x.label.isSome = true) (hVertex : BoundAs gt y step.2.var step.2.label) :
    ⟨someLabel step.1.label, before.length + 1, steps.length + 1 + before.length⟩ ∈
      stepNeighbors (star V first steps) step 0 := by
  have hAt : (step, before.length) ∈ steps.zipIdx :=
    List.mk_mem_zipIdx_iff_getElem?.mpr (by simp [hSteps])
  have hZero : Vertex.new 0 (someLabel first.label) [] ∈ (star V first steps).vertices :=
    List.mem_cons_self ..
  have hOwn : Vertex.new (before.length + 1) (someLabel step.2.label) [] ∈
      (star V first steps).vertices := List.mem_cons_of_mem _ (List.mem_map.mpr ⟨_, hAt, rfl⟩)
  have hSource : (star V first steps).getVertex 0 = some _ := getVertex_of_mem hZero
  have hTarget : (star V first steps).getVertex (before.length + 1) = some _ := getVertex_of_mem hOwn
  obtain ⟨name, hName⟩ := Option.isSome_iff_exists.mp hLabel
  obtain ⟨id, -, hSpecs⟩ := hEdge.labelled name hName
  unfold stepNeighbors
  rw [hSource]
  refine List.mem_filter.mpr ⟨List.mem_filter.mpr ⟨?_, ?_⟩, ?_⟩
  · exact List.mem_map.mpr ⟨_, List.mem_filter.mpr ⟨List.mem_map.mpr ⟨_, hAt, rfl⟩, rfl⟩, rfl⟩
  · rw [hSpecs]
    simp [edgeLabelAllowed, someLabel]
  · unfold GraphView.targetAllowed
    simp only [hTarget]
    exact specsContain_someLabel hVertex

/-- Some row of any prefix of labelled steps starts at the first vertex. -/
theorem star_rows {before : List Step} {after : List BoundStep}
    (hSteps : steps = before.map Prod.snd ++ after)
    (hFirst : ∃ x, BoundAs gt x first.var first.label)
    (hBefore : ∀ c ∈ before, StepBound gt c ∧ c.1.1.label.isSome = true) :
    ∃ r ∈ pathRows (star V first steps) first (before.map Prod.snd), r.head? = some 0 := by
  induction before using List.reverseRecOn generalizing after with
  | nil =>
    obtain ⟨x, hx⟩ := hFirst
    refine ⟨[0], List.mem_map.mpr ⟨0, ?_, rfl⟩, rfl⟩
    exact (List.mem_insertionSort _).mpr (List.mem_map.mpr ⟨_, List.mem_filter.mpr
      ⟨List.mem_cons_self .., specsContain_someLabel hx⟩, rfl⟩)
  | append_singleton before c ih =>
    rw [List.map_append, List.map_singleton, List.append_assoc, List.singleton_append] at hSteps
    obtain ⟨r, hr, hHead⟩ := ih hSteps fun b hb => hBefore b (List.mem_append_left _ hb)
    obtain ⟨hBound, hLabel⟩ := hBefore c (List.mem_append_right _ (List.mem_singleton_self c))
    have hNeighbor := star_neighbor V first hSteps hBound.edge hLabel hBound.vertex
    have hZero : r.getD 0 0 = 0 := by
      rw [List.getD_eq_getElem?_getD, ← List.head?_eq_getElem?, hHead]
      rfl
    rw [List.map_append, List.map_singleton]
    refine ⟨_, mem_pathRows_concat.mpr ⟨r, hr, _, hZero ▸ hNeighbor, rfl⟩, ?_⟩
    rw [List.head?_append, hHead]
    rfl

/-- No match takes two steps on a star. -/
theorem not_matches_star {p : LinearPath} {row : List Nat} (hTwo : 2 ≤ p.steps.length) :
    ¬Matches gt (star V first steps) p row := by
  rintro ⟨v, rest, -, -, hWalk, -⟩
  match hSteps : p.steps, hTwo with
  | s₁ :: s₂ :: ss, _ =>
    rw [hSteps] at hWalk
    obtain ⟨_, w, _, rfl, ⟨e₁, he₁, -, -, hDst, -⟩, -, _, _, _, rfl, ⟨e₂, he₂, -, hSrc, -, -⟩, -⟩ :=
      hWalk
    obtain ⟨q₁, -, rfl⟩ := List.mem_map.mp he₁
    obtain ⟨q₂, -, rfl⟩ := List.mem_map.mp he₂
    -- the edges lead to vertices of their own, and all leave the first
    exact absurd (hDst.trans hSrc.symm) (Nat.succ_ne_zero _)

/-- An execution that succeeds on the star has met no repeated name before its last labelled
step. -/
theorem flat_of_execute_star {before : List Step} {after : List BoundStep}
    (hSteps : steps = before.map Prod.snd ++ after)
    (hFirst : ∃ x, BoundAs gt x first.var first.label)
    (hBefore : ∀ c ∈ before, StepBound gt c ∧ c.1.1.label.isSome = true) {chunks : List Chunk}
    (h : (star V first steps).execute (pathPlan first (before.map Prod.snd)) = .ok chunks) :
    ∀ init last, before.map Prod.snd = init ++ [last] → (pathNames first init).Nodup := by
  induction before using List.reverseRecOn generalizing after chunks with
  | nil => exact fun init last hEq => absurd hEq.symm (by simp)
  | append_singleton before c ih =>
    rw [List.map_append, List.map_singleton] at h
    obtain ⟨child, hChild⟩ := execute_child h
    have hPrefix : steps = before.map Prod.snd ++ c.2 :: after := by
      rw [hSteps, List.map_append, List.map_singleton, List.append_assoc, List.singleton_append]
    have hFlat := ih hPrefix (fun b hb => hBefore b (List.mem_append_left _ hb)) hChild
    obtain ⟨r, hr, -⟩ := star_rows (V := V) hSteps hFirst hBefore
    rw [List.map_append, List.map_singleton] at hr
    intro init last hEq
    rw [List.map_append, List.map_singleton] at hEq
    obtain ⟨rfl, -⟩ := List.append_inj' hEq rfl
    by_contra hNames
    have hError := execute_misplaced hFlat hNames (List.ne_nil_of_mem hr)
    cases h.symm.trans hError

end Star

/-! ## Patterns that go wrong -/

section Wrong

variable {V Property : Type} {gt : GraphType Property} {view : GraphView V} {p : LinearPath}
  {first : BoundVertexPattern} {cs : List Step}

theorem flat_iff_take {before : List Step} {after : List BoundStep} :
    (∀ init last, before.map Prod.snd = init ++ [last] → (pathNames first init).Nodup) ↔
      ((pathNames first (before.map Prod.snd ++ after)).take (2 * before.length - 1)).Nodup := by
  cases before using List.reverseRecOn with
  | nil => simp
  | append_singleton before c =>
    have hTake : (pathNames first ((before ++ [c]).map Prod.snd ++ after)).take
        (2 * (before ++ [c]).length - 1) = pathNames first (before.map Prod.snd) := by
      have hNames : pathNames first ((before ++ [c]).map Prod.snd ++ after) =
          pathNames first (before.map Prod.snd) ++
            ([c.2.1.var, c.2.2.var] ++ after.flatMap fun s => [s.1.var, s.2.var]) := by
        unfold pathNames
        simp
      rw [hNames]
      refine List.take_left' ?_
      rw [length_pathNames, List.length_map, List.length_append, List.length_singleton]
      omega
    rw [hTake, List.map_append, List.map_singleton]
    constructor
    · exact fun h => h _ _ rfl
    · intro h init last hEq
      obtain ⟨rfl, -⟩ := List.append_inj' hEq rfl
      exact h

theorem boundNames_boundPath {steps : List BoundStep} :
    boundNames (boundPath first steps) = pathNames first steps := by
  unfold boundNames boundPath pathNames
  rw [List.map_cons, List.map_flatMap]
  rfl

theorem answers_iff {chunks : List Chunk} {steps : List BoundStep}
    (h : view.execute (pathPlan first steps) = .ok chunks) :
    Answers gt view p (boundPath first steps) ↔
      ((chunks.flatMap idRows).map (binding (fieldsOf (pathNames first steps))
        (pathNames first steps))).Nodup ∧
      ∀ row, row ∈ (chunks.flatMap idRows).map (binding (fieldsOf (pathNames first steps))
        (pathNames first steps)) ↔ ∃ r, Matches gt view p r ∧ row = r.map some := by
  unfold Answers
  rw [boundNames_boundPath]
  constructor
  · rintro ⟨plan, chunks', hPlan, hExecute, hRows⟩
    obtain rfl := Option.some.inj (createPhysicalPlan_boundPath.symm.trans hPlan)
    obtain rfl := Except.ok.inj (h.symm.trans hExecute)
    rwa [schema_pathPlan] at hRows
  · intro hRows
    refine ⟨_, chunks, createPhysicalPlan_boundPath, h, ?_⟩
    rwa [schema_pathPlan]

theorem execute_of_answers {steps : List BoundStep}
    (h : Answers gt view p (boundPath first steps)) :
    ∃ chunks, view.execute (pathPlan first steps) = .ok chunks := by
  obtain ⟨plan, chunks, hPlan, hExecute, -⟩ := h
  obtain rfl := Option.some.inj (createPhysicalPlan_boundPath.symm.trans hPlan)
  exact ⟨chunks, hExecute⟩

theorem flat_singleton (first : BoundVertexPattern) (step : BoundStep) :
    ∀ init last, [step] = init ++ [last] → (pathNames first init).Nodup := by
  intro init last hEq
  obtain rfl : init = [] := by
    have hLength := congrArg List.length hEq
    rw [List.length_append, List.length_singleton, List.length_singleton] at hLength
    exact List.length_eq_zero_iff.mp (by omega)
  exact List.nodup_singleton _

theorem not_answers_of_two (hp : p.steps = cs.map Prod.fst)
    (hFirst : BoundAs gt p.first first.var first.label)
    (hcs : ∀ c ∈ cs, StepBound gt c ∧ c.1.1.label.isSome = true) (hTwo : 2 ≤ cs.length) :
    ¬Answers gt (star V first (cs.map Prod.snd)) p (boundPath first (cs.map Prod.snd)) := by
  intro hAnswers
  obtain ⟨chunks, hExecute⟩ := execute_of_answers hAnswers
  have hFlat := flat_of_execute_star (List.append_nil _).symm ⟨_, hFirst⟩ hcs hExecute
  obtain ⟨chunks', hExecute', hTabled⟩ := execute_prefix (V := V) hFlat
  obtain rfl := Except.ok.inj (hExecute.symm.trans hExecute')
  obtain ⟨r, hr, -⟩ := star_rows (V := V) (List.append_nil _).symm ⟨_, hFirst⟩ hcs
  obtain ⟨-, hRows⟩ := (answers_iff hExecute).mp hAnswers
  have hRow := List.mem_map_of_mem (f := binding (fieldsOf (pathNames first (cs.map Prod.snd)))
    (pathNames first (cs.map Prod.snd))) (List.mem_map_of_mem (f := List.map some) hr)
  rw [← hTabled.idRows (Nat.succ_pos _)] at hRow
  obtain ⟨r', hMatches, -⟩ := (hRows _).mp hRow
  refine not_matches_star ?_ hMatches
  rw [hp, List.length_map]
  exact hTwo

/-- One labelled edge: the row of the star tells its columns apart. -/
theorem nodup_of_answers {c : Step} (hFirst : BoundAs gt p.first first.var first.label)
    (hc : StepBound gt c) (hLabel : c.1.1.label.isSome = true) (hp : p.steps = [c.1])
    (h : Answers gt (star V first [c.2]) p (boundPath first [c.2])) :
    (pathNames first [c.2]).Nodup := by
  obtain ⟨chunks, hExecute, hTabled⟩ := execute_prefix (V := V) (flat_singleton first c.2)
  obtain ⟨-, hRows⟩ := (answers_iff hExecute).mp h
  rw [hTabled.idRows (Nat.succ_pos _)] at hRows
  -- the edge of the star has the id 2
  have hRow : [0, 2, 1] ∈ pathRows (star V first [c.2]) first [c.2] := by
    have hScan : [0] ∈ pathRows (star V first [c.2]) first [] := by
      refine List.mem_map.mpr ⟨0, ?_, rfl⟩
      exact (List.mem_insertionSort _).mpr (List.mem_map.mpr ⟨_, List.mem_filter.mpr
        ⟨List.mem_cons_self .., specsContain_someLabel hFirst⟩, rfl⟩)
    have hNeighbor := star_neighbor V first (show [c.2] = [] ++ c.2 :: [] from rfl) hc.edge hLabel
      hc.vertex
    rw [← List.nil_append [c.2]]
    exact mem_pathRows_concat.mpr ⟨[0], hScan, _, hNeighbor, rfl⟩
  have hBinding := List.mem_map_of_mem (f := binding (fieldsOf (pathNames first [c.2]))
    (pathNames first [c.2])) (List.mem_map_of_mem (f := List.map some) hRow)
  obtain ⟨r, hMatches, hEq⟩ := (hRows _).mp hBinding
  obtain rfl : r = [0, 2, 1] := by
    obtain ⟨v, rest, rfl, -, hWalk, -⟩ := hMatches
    rw [hp] at hWalk
    obtain ⟨eid, w, _, rfl, ⟨e, he, rfl, rfl, rfl, -⟩, -, rfl⟩ := hWalk
    obtain rfl := List.mem_singleton.mp he
    rfl
  have hNames : pathNames first [c.2] = [first.var, c.2.1.var, c.2.2.var] := rfl
  unfold binding at hEq
  rw [hNames] at hEq ⊢
  generalize fieldsOf [first.var, c.2.1.var, c.2.2.var] = schema at hEq
  simp only [List.map_cons, List.map_nil, List.cons.injEq, and_true] at hEq
  obtain ⟨hX, hE, hY⟩ := hEq
  have hXE : first.var ≠ c.2.1.var := fun hSame => by
    rw [hSame, hE] at hX
    cases hX
  have hXY : first.var ≠ c.2.2.var := fun hSame => by
    rw [hSame, hY] at hX
    cases hX
  have hEY : c.2.1.var ≠ c.2.2.var := fun hSame => by
    rw [hSame, hY] at hE
    cases hE
  simp [hXE, hXY, hEY]

theorem not_matches_of_answers {before after : List Step} {c : Step}
    (hc : StepBound gt c) (hLabel : c.1.1.label = none)
    (h : Answers gt view p (boundPath first ((before ++ c :: after).map Prod.snd))) (row : List Nat) :
    ¬Matches gt view p row := by
  intro hMatches
  obtain ⟨chunks, hExecute⟩ := execute_of_answers h
  obtain ⟨-, hRows⟩ := (answers_iff hExecute).mp h
  have hEmpty : c.2.1.label.flatten = [] := by
    rw [hc.edge.unlabelled hLabel]
    rfl
  rw [List.map_append, List.map_cons] at hExecute
  obtain rfl := execute_unlabelled hEmpty hExecute
  cases (hRows _).mpr ⟨row, hMatches, rfl⟩

end Wrong

/-! ## Patterns that go right -/

section Right

variable {V Property : Type} {gt : GraphType Property} {view : GraphView V} {p : LinearPath}
  {first : BoundVertexPattern} {cs : List Step}

theorem binding_self {names : List String} (hNames : names.Nodup) {row : List (Option Nat)}
    (hRow : row.length = names.length) : binding names names row = row := by
  unfold binding
  refine List.ext_getElem (by simp [hRow]) fun i hi hi' => ?_
  have hBound : i < names.length := by simpa using hi
  rw [List.getElem_map, hNames.idxOf_getElem i hBound]
  simp [hi']

/-- Without repeated names the answers are the rows themselves. -/
theorem answers_of_rows (cs : List Step) (hFlat : ∀ init last, cs.map Prod.snd = init ++ [last] →
      (pathNames first init).Nodup)
    (hNames : (pathNames first (cs.map Prod.snd)).Nodup)
    (hNodup : (pathRows view first (cs.map Prod.snd)).Nodup)
    (hMem : ∀ r, r ∈ pathRows view first (cs.map Prod.snd) ↔ Matches gt view p r) :
    Answers gt view p (boundPath first (cs.map Prod.snd)) := by
  obtain ⟨chunks, hExecute, hTabled⟩ : ∃ chunks,
      view.execute (pathPlan first (cs.map Prod.snd)) = .ok chunks ∧
        Tabled (2 * (cs.map Prod.snd).length + 1) chunks
          (pathRows view first (cs.map Prod.snd)) := execute_prefix hFlat
  have hLength := hTabled.choose_spec.2.2
  rw [answers_iff hExecute, fieldsOf_of_nodup hNames, hTabled.idRows (Nat.succ_pos _)]
  have hSelf : ((pathRows view first (cs.map Prod.snd)).map (List.map some)).map
      (binding (pathNames first (cs.map Prod.snd)) (pathNames first (cs.map Prod.snd))) =
      (pathRows view first (cs.map Prod.snd)).map (List.map some) := by
    rw [List.map_map]
    refine List.map_congr_left fun r hr => binding_self hNames ?_
    rw [List.length_map, hLength r hr, length_pathNames]
  rw [hSelf]
  refine ⟨hNodup.map (List.map_injective_iff.mpr (Option.some_injective _)), fun row => ?_⟩
  rw [List.mem_map]
  constructor
  · rintro ⟨r, hr, rfl⟩
    exact ⟨r, (hMem r).mp hr, rfl⟩
  · rintro ⟨r, hr, rfl⟩
    exact ⟨r, (hMem r).mpr hr, rfl⟩

theorem specsContain_iff {x : PathElement} {var : String} {specs : Cubes Nat}
    (h : BoundAs gt x var specs) (label : Nat) :
    specsContain specs label = true ↔ HasLabel gt x label := by
  unfold HasLabel
  cases hLabel : x.label with
  | none =>
    rw [h.unlabelled hLabel]
    exact ⟨fun _ name hName => (nomatch hName), fun _ => rfl⟩
  | some name =>
    obtain ⟨id, hId, hSpecs⟩ := h.labelled name hLabel
    simp [hSpecs, specsContain, hId, eq_comm]

theorem mem_scanIds {x : PathElement} {var : String} {specs : Cubes Nat}
    (h : BoundAs gt x var specs) (vid : Nat) :
    vid ∈ scanIds view specs ↔ VertexMatches gt view x vid := by
  unfold scanIds VertexMatches
  rw [List.mem_insertionSort, List.mem_map]
  simp only [List.mem_filter, specsContain_iff h, and_assoc]
  exact exists_congr fun v => and_congr_right fun _ => and_comm

theorem nodup_scanIds (specs : Cubes Nat) : (scanIds view specs).Nodup := by
  unfold scanIds
  rw [(List.perm_insertionSort _ _).nodup_iff]
  exact view.vertexIds.sublist (List.Sublist.map _ List.filter_sublist)

/-- The neighbours that a labelled step finds are the edges that match it. -/
theorem mem_stepNeighbors {x y z : PathElement} {step : BoundStep} {v eid w : Nat}
    (hv : VertexMatches gt view z v)
    (hEdge : BoundAs gt x step.1.var step.1.label) (hLabel : x.label.isSome = true)
    (hVertex : BoundAs gt y step.2.var step.2.label) :
    (∃ n ∈ stepNeighbors view step v, n.eid = eid ∧ n.neighborId = w) ↔
      EdgeMatches gt view x v eid w ∧ VertexMatches gt view y w := by
  obtain ⟨name, hName⟩ := Option.isSome_iff_exists.mp hLabel
  obtain ⟨id, hId, hSpecs⟩ := hEdge.labelled name hName
  have hAllowed : ∀ n : Neighbor, edgeLabelAllowed (some step.1.label) n = true ↔
      HasLabel gt x n.labelId := by
    intro n
    simp [hSpecs, edgeLabelAllowed, HasLabel, hName, hId, eq_comm]
  have hTarget : ∀ n : Neighbor, view.targetAllowed (some step.2.label) n = true ↔
      VertexMatches gt view y n.neighborId := by
    intro n
    unfold GraphView.targetAllowed VertexMatches
    cases hGet : view.getVertex n.neighborId with
    | none =>
      refine iff_of_false Bool.false_ne_true ?_
      rintro ⟨u, hu, hVid, -⟩
      cases hGet.symm.trans (hVid ▸ getVertex_of_mem hu)
    | some u =>
      obtain ⟨hu, hVid⟩ := mem_of_getVertex hGet
      refine Iff.trans (specsContain_iff hVertex u.labelId) ⟨fun h => ⟨u, hu, hVid, h⟩, ?_⟩
      rintro ⟨u', hu', hVid', h⟩
      obtain rfl := Option.some.inj (hGet.symm.trans (hVid' ▸ getVertex_of_mem hu'))
      exact h
  unfold stepNeighbors
  constructor
  · rintro ⟨n, hn, rfl, rfl⟩
    cases hGet : view.getVertex v with
    | none =>
      rw [hGet] at hn
      cases hn
    | some u =>
      rw [hGet] at hn
      obtain ⟨hEdges, hVertices⟩ := List.mem_filter.mp hn
      obtain ⟨hOut, hLabels⟩ := List.mem_filter.mp hEdges
      obtain ⟨e, he, rfl⟩ := List.mem_map.mp hOut
      obtain ⟨he, hSrc⟩ := List.mem_filter.mp he
      exact ⟨⟨e, he, rfl, beq_iff_eq.mp hSrc, rfl, (hAllowed _).mp hLabels⟩,
        (hTarget _).mp hVertices⟩
  · rintro ⟨⟨e, he, rfl, rfl, rfl, hHas⟩, hVertices⟩
    obtain ⟨u, hu, hVid, -⟩ := hv
    rw [← hVid, getVertex_of_mem hu]
    refine ⟨⟨e.labelId, e.dstId, e.eid⟩, ?_, rfl, rfl⟩
    refine List.mem_filter.mpr ⟨List.mem_filter.mpr ⟨?_, (hAllowed _).mpr hHas⟩,
      (hTarget _).mpr hVertices⟩
    exact List.mem_map.mpr ⟨e, List.mem_filter.mpr ⟨he, beq_iff_eq.mpr hVid.symm⟩, rfl⟩

theorem nodup_stepNeighbors (step : BoundStep) (v : Nat) :
    ((stepNeighbors view step v).map Neighbor.eid).Nodup := by
  unfold stepNeighbors
  cases view.getVertex v with
  | none => exact List.nodup_nil
  | some u =>
    have hSublist : (view.neighbors v (some step.1.label) (some step.2.label)).Sublist
        (view.iterAdjacencyOutgoing v) := List.filter_sublist.trans List.filter_sublist
    refine List.Nodup.sublist (hSublist.map _) ?_
    unfold GraphView.iterAdjacencyOutgoing
    rw [List.map_map]
    exact view.edgeIds.sublist (List.Sublist.map Edge.eid List.filter_sublist)

theorem consistent_of_nodup (cs : List Step) (hp : p.steps = cs.map Prod.fst)
    (hFirst : BoundAs gt p.first first.var first.label) (hcs : ∀ c ∈ cs, StepBound gt c)
    (hNames : (pathNames first (cs.map Prod.snd)).Nodup) (row : List Nat) :
    Consistent p.vars row := by
  have hVars : List.Forall₂ (fun (var : Option String) name => ∀ n, var = some n → name = n) p.vars
      (pathNames first (cs.map Prod.snd)) := by
    unfold LinearPath.vars pathNames
    refine .cons hFirst.var ?_
    rw [hp]
    clear hp hNames
    induction cs with
    | nil => exact .nil
    | cons c cs ih =>
      obtain ⟨hc, hTail⟩ := List.forall_mem_cons.mp hcs
      exact .cons hc.edge.var (.cons hc.vertex.var (ih hTail))
  have hName : ∀ (i : Nat) (name : String), p.vars[i]? = some (some name) →
      (pathNames first (cs.map Prod.snd))[i]? = some name := by
    intro i name hi
    obtain ⟨hBound, hVar⟩ := List.getElem?_eq_some_iff.mp hi
    have hBound' := hVars.length_eq ▸ hBound
    rw [List.getElem?_eq_getElem hBound']
    exact congrArg some (hVars.get hBound hBound' name hVar)
  intro i j name hi hj
  obtain ⟨hI, hAtI⟩ := List.getElem?_eq_some_iff.mp (hName i name hi)
  obtain ⟨hJ, hAtJ⟩ := List.getElem?_eq_some_iff.mp (hName j name hj)
  rw [(hNames.getElem_inj_iff).mp (hAtI.trans hAtJ.symm)]

theorem answers_vertex (hp : p.steps = []) (hFirst : BoundAs gt p.first first.var first.label) :
    Answers gt view p (boundPath first []) := by
  refine answers_of_rows [] (fun init last hEq => absurd hEq.symm (by simp))
    (List.nodup_singleton _) ?_ fun r => ?_
  · exact (nodup_scanIds first.label).map fun _ _ h => (List.cons.inj h).1
  · unfold Matches
    rw [hp]
    constructor
    · intro hr
      obtain ⟨v, hv, rfl⟩ := List.mem_map.mp hr
      exact ⟨v, [], rfl, (mem_scanIds hFirst v).mp hv, rfl,
        consistent_of_nodup [] hp hFirst (fun c hc => (nomatch hc)) (List.nodup_singleton _) _⟩
    · rintro ⟨v, rest, rfl, hv, rfl, -⟩
      exact List.mem_map.mpr ⟨v, (mem_scanIds hFirst v).mpr hv, rfl⟩

/-- A pattern of one edge with a label answers. -/
theorem answers_edge {c : Step} (hp : p.steps = [c.1])
    (hFirst : BoundAs gt p.first first.var first.label) (hc : StepBound gt c)
    (hLabel : c.1.1.label.isSome = true) (hNames : (pathNames first [c.2]).Nodup) :
    Answers gt view p (boundPath first [c.2]) := by
  refine answers_of_rows [c] (flat_singleton first c.2) hNames ?_ fun r => ?_
  · -- rows of two vertices differ in the first column, those of one in the edge
    have hRows : pathRows view first [c.2] = (scanIds view first.label).flatMap fun v =>
        (stepNeighbors view c.2 v).map fun n => [v, n.eid, n.neighborId] := by
      rw [← List.nil_append [c.2], pathRows_concat, Executor.expandRows]
      unfold pathRows
      rw [List.foldl_nil, List.flatMap_map]
      refine List.flatMap_congr fun v _ => ?_
      rw [flatten_stepPairs, List.map_map]
      rfl
    rw [List.map_singleton, hRows, List.nodup_flatMap]
    refine ⟨fun v _ => ?_, (nodup_scanIds first.label).imp fun hNe => ?_⟩
    · refine List.Nodup.of_map (fun r => r.getD 1 0) ?_
      rw [List.map_map]
      exact nodup_stepNeighbors c.2 v
    · intro r hr hr'
      obtain ⟨n, -, rfl⟩ := List.mem_map.mp hr
      obtain ⟨n', -, hEq⟩ := List.mem_map.mp hr'
      exact hNe (List.cons.inj hEq).1.symm
  · have hRows : r ∈ pathRows view first ([] ++ [c.2]) ↔
        ∃ r₀ ∈ pathRows view first [], ∃ n ∈ stepNeighbors view c.2 (r₀.getD 0 0),
          r = r₀ ++ [n.eid, n.neighborId] := mem_pathRows_concat
    rw [List.map_singleton, ← List.nil_append [c.2], hRows]
    unfold Matches
    rw [hp]
    constructor
    · rintro ⟨r₀, hr₀, n, hn, rfl⟩
      obtain ⟨v, hv, rfl⟩ := List.mem_map.mp hr₀
      have hStart := (mem_scanIds hFirst v).mp hv
      obtain ⟨hEdge, hVertex⟩ :=
        (mem_stepNeighbors hStart hc.edge hLabel hc.vertex).mp ⟨n, hn, rfl, rfl⟩
      exact ⟨v, _, rfl, hStart, ⟨_, _, [], rfl, hEdge, hVertex, rfl⟩,
        consistent_of_nodup [c] hp hFirst
          (fun c' hc' => List.mem_singleton.mp hc' ▸ hc) hNames _⟩
    · rintro ⟨v, rest, rfl, hv, ⟨eid, w, _, rfl, hEdge, hVertex, rfl⟩, -⟩
      obtain ⟨n, hn, rfl, rfl⟩ :=
        (mem_stepNeighbors hv hc.edge hLabel hc.vertex).mpr ⟨hEdge, hVertex⟩
      exact ⟨[v], List.mem_map.mpr ⟨v, (mem_scanIds hFirst v).mpr hv, rfl⟩, n, hn, rfl⟩

theorem answers_blocked {before after : List Step} {c : Step}
    (hc : StepBound gt c) (hLabel : c.1.1.label = none)
    (hFlat : ∀ init last, before.map Prod.snd = init ++ [last] → (pathNames first init).Nodup)
    (hNone : ∀ row, ¬Matches gt view p row) :
    Answers gt view p (boundPath first ((before ++ c :: after).map Prod.snd)) := by
  have hEmpty : c.2.1.label.flatten = [] := by
    rw [hc.edge.unlabelled hLabel]
    rfl
  have hExecute : view.execute (pathPlan first ((before ++ c :: after).map Prod.snd)) = .ok [] := by
    rw [List.map_append, List.map_cons]
    exact execute_blocked hFlat hEmpty
  rw [answers_iff hExecute]
  refine ⟨List.nodup_nil, fun row => ⟨fun h => (nomatch h), fun ⟨r, hr, _⟩ => absurd hr (hNone r)⟩⟩

end Right

theorem first_fail {α : Type} (P : α → Prop) (l : List α) : (∀ a ∈ l, P a) ∨
    ∃ before a after, l = before ++ a :: after ∧ (∀ b ∈ before, P b) ∧ ¬P a := by
  induction l with
  | nil => exact .inl fun a ha => (nomatch ha)
  | cons a l ih =>
    by_cases ha : P a
    · rcases ih with hAll | ⟨before, b, after, rfl, hBefore, hb⟩
      · exact .inl (List.forall_mem_cons.mpr ⟨ha, hAll⟩)
      · exact .inr ⟨a :: before, b, after, rfl, List.forall_mem_cons.mpr ⟨ha, hBefore⟩, hb⟩
    · exact .inr ⟨[], a, l, rfl, fun b hb => (nomatch hb), ha⟩

/-- The plan of a pattern that the binder accepts gives exactly the matches in every graph if and
only if the pattern is a single vertex, or one edge with a label and no name twice, or matches
nothing anywhere and is cut off by an edge without a label. -/
theorem path_answers_iff {V Property : Type} [DecidableEq Property] {gt : GraphType Property}
    {p : LinearPath} {bound : List BoundElementPattern}
    (hBind : bindElements gt [] p.elements = .ok bound) :
    (∀ view : GraphView V, Answers gt view p bound) ↔ Answerable V gt p (boundNames bound) := by
  obtain ⟨first, cs, hp, rfl, hFirst, hcs⟩ := bind_path hBind
  rw [boundNames_boundPath]
  constructor
  · intro hAll
    rcases first_fail (fun c : Step => c.1.1.label.isSome = true) cs with
      hLabelled | ⟨before, c, after, rfl, hBefore, hc⟩
    · have hBound : ∀ c ∈ cs, StepBound gt c ∧ c.1.1.label.isSome = true := fun c hc =>
        ⟨hcs c hc, hLabelled c hc⟩
      match cs, hp, hBound with
      | [], hp, _ => exact .inl hp
      | [c], hp, hBound =>
        obtain ⟨hc, hLabel⟩ := hBound c (List.mem_singleton_self c)
        exact .inr (.inl ⟨c.1, hp, hLabel, nodup_of_answers hFirst hc hLabel hp (hAll _)⟩)
      | c₁ :: c₂ :: cs, hp, hBound =>
        exact absurd (hAll _) (not_answers_of_two hp hFirst hBound (by simp))
    · have hBound : ∀ b ∈ before, StepBound gt b ∧ b.1.1.label.isSome = true := fun b hb =>
        ⟨hcs b (List.mem_append_left _ hb), hBefore b hb⟩
      have hNone : c.1.1.label = none := Option.not_isSome_iff_eq_none.mp hc
      have hStep := hcs c (List.mem_append_right _ (List.mem_cons_self ..))
      have hCut : (before ++ c :: after).map Prod.snd =
          before.map Prod.snd ++ (c :: after).map Prod.snd := List.map_append
      obtain ⟨chunks, hExecute⟩ := execute_of_answers
        (hAll (star V first ((before ++ c :: after).map Prod.snd)))
      rw [hCut] at hExecute
      obtain ⟨child, hChild⟩ := execute_take hExecute
      have hFlat := flat_of_execute_star rfl ⟨_, hFirst⟩ hBound hChild
      refine .inr (.inr ⟨fun ⟨view, row, hMatches⟩ =>
        not_matches_of_answers hStep hNone (hAll view) row hMatches,
        before.map Prod.fst, c.1, after.map Prod.fst, by rw [hp]; simp, ?_, hNone, ?_⟩)
      · intro x hx
        obtain ⟨b, hb, rfl⟩ := List.mem_map.mp hx
        exact hBefore b hb
      · rw [List.length_map, hCut]
        exact flat_iff_take.mp hFlat
  · intro h view
    rcases h with hSteps | ⟨s, hSteps, hLabel, hNames⟩ | ⟨hNone, before, s, after, hSteps, hBefore,
      hLabel, hTake⟩
    · obtain rfl : cs = [] := List.map_eq_nil_iff.mp (hp.symm.trans hSteps)
      exact answers_vertex hSteps hFirst
    · obtain ⟨c, rfl, rfl⟩ := List.map_eq_singleton_iff.mp (hp.symm.trans hSteps)
      exact answers_edge hSteps hFirst (hcs c (List.mem_singleton_self c)) hLabel hNames
    · obtain ⟨before, rest, rfl, rfl, hRest⟩ := List.map_eq_append_iff.mp (hp.symm.trans hSteps)
      obtain ⟨c, after, rfl, rfl, rfl⟩ := List.map_eq_cons_iff.mp hRest
      rw [List.length_map] at hTake
      rw [List.map_append] at hTake
      have hFlat := flat_iff_take.mpr hTake
      exact answers_blocked (hcs c (List.mem_append_right _ (List.mem_cons_self ..))) hLabel hFlat
        fun row hMatches => hNone ⟨view, row, hMatches⟩

/-! ## Two patterns -/

section Patterns

/-- Two labels, and vertices without properties. -/
def twoLabelTypes : GraphType Nat where
  getLabelId name := if name = "A" then some 1 else if name = "B" then some 2 else none
  getVertexType _ := none

/-- Edges of the labels `A` and `B` from one vertex to two others. -/
def forkView : GraphView Nat where
  vertices := [Vertex.new 0 0 [], Vertex.new 1 0 [], Vertex.new 2 0 []]
  edges := [Edge.new 10 0 1 1 [], Edge.new 11 0 2 2 []]
  vertexIds := by decide
  edgeIds := by decide

/-- `(a)-[e:A]->(b)`. -/
def oneEdgePath : LinearPath := ⟨⟨some "a", none⟩, [(⟨some "e", some "A"⟩, ⟨some "b", none⟩)]⟩

/-- `(a)-[e:A]->(b)`. -/
theorem one_edge_answers :
    Answers twoLabelTypes forkView oneEdgePath
      [.vertex ⟨"a", [[]]⟩, .edge ⟨"e", [[1]]⟩, .vertex ⟨"b", [[]]⟩] :=
  (path_answers_iff (by decide)).mpr (.inr (.inl ⟨_, rfl, rfl, by decide⟩)) forkView

/-- `(a)-[e:A]->(b)-[f:B]->(c)`. -/
def twoEdgePath : LinearPath :=
  ⟨⟨some "a", none⟩,
    [(⟨some "e", some "A"⟩, ⟨some "b", none⟩), (⟨some "f", some "B"⟩, ⟨some "c", none⟩)]⟩

def boundTwoEdges : List BoundElementPattern :=
  [.vertex ⟨"a", [[]]⟩, .edge ⟨"e", [[1]]⟩, .vertex ⟨"b", [[]]⟩, .edge ⟨"f", [[2]]⟩,
    .vertex ⟨"c", [[]]⟩]

/-- The plan gives the row of both edges, though the second does not leave where the first
arrives. -/
theorem two_edges_disagree :
    bindElements twoLabelTypes [] twoEdgePath.elements = .ok boundTwoEdges ∧
      ¬Answers twoLabelTypes forkView twoEdgePath boundTwoEdges := by
  refine ⟨by decide, ?_⟩
  rintro ⟨plan, chunks, hPlan, hExecute, -, hRows⟩
  obtain rfl := Option.some.inj hPlan
  have hChunks : forkView.execute (pathPlan ⟨"a", [[]]⟩ [(⟨"e", [[1]]⟩, ⟨"b", [[]]⟩),
      (⟨"f", [[2]]⟩, ⟨"c", [[]]⟩)]) = .ok [table 5 [[0, 10, 1, 11, 2]]] := by
    decide +kernel
  obtain rfl := Except.ok.inj (hChunks.symm.trans hExecute)
  obtain ⟨r, ⟨v, rest, rfl, -, hWalk, -⟩, hRow⟩ :=
    (hRows [some 0, some 10, some 1, some 11, some 2]).mp (by decide)
  obtain ⟨_, w, _, rfl, -, -, _, _, _, rfl, ⟨e, he, hEid, hSrc, -, -⟩, -⟩ := hWalk
  simp only [List.map_cons, List.cons.injEq, Option.some.injEq] at hRow
  obtain ⟨-, -, rfl, rfl, -⟩ := hRow
  -- the edge 11 leaves the vertex 0
  rcases List.mem_cons.mp he with rfl | he
  · cases hEid
  · obtain rfl := List.mem_singleton.mp he
    cases hSrc

end Patterns

end MiniGU
