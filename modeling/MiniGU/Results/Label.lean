import MiniGU.Model.Label
import MiniGU.Model.Server

/-!
# What label expressions mean

A lowered expression is a disjunction of conjunctions of labels. The node scan and the
target filter take a conjunction for satisfied when it holds the element's label among
others, or is empty; the edge filter throws all conjunctions together, and so finds nothing
in an empty one. A negation does not get past the lowering.
-/

namespace MiniGU

/-! ## Lowering -/

theorem mem_dedup (l : List Nat) (a : Nat) : a ∈ dedup l ↔ a ∈ l := by
  induction l with
  | nil => rfl
  | cons b l ih =>
    cases l with
    | nil => rfl
    | cons c l =>
      unfold dedup
      split
      · rename_i hEq
        rw [ih, hEq]
        simp
      · rw [List.mem_cons, ih, ← List.mem_cons]

theorem merges_mergeRoutes : Cubes.Merges mergeRoutes := by
  intro l r a
  unfold mergeRoutes
  rw [mem_dedup, List.mem_insertionSort, List.mem_append]

namespace BoundLabelExpr

/-- The label satisfies the expression. -/
def Holds (label : Nat) : BoundLabelExpr → Prop
  | .conjunction lhs rhs => lhs.Holds label ∧ rhs.Holds label
  | .disjunction lhs rhs => lhs.Holds label ∨ rhs.Holds label
  | .negation inner => ¬ inner.Holds label
  | .label id => id = label
  | .any => True

/-- The label stands in the expression. -/
def Names (label : Nat) : BoundLabelExpr → Prop
  | .conjunction lhs rhs => lhs.Names label ∨ rhs.Names label
  | .disjunction lhs rhs => lhs.Names label ∨ rhs.Names label
  | .negation inner => inner.Names label
  | .label id => id = label
  | .any => False

/-- No negation stands in the expression. -/
def Positive : BoundLabelExpr → Prop
  | .conjunction lhs rhs => lhs.Positive ∧ rhs.Positive
  | .disjunction lhs rhs => lhs.Positive ∧ rhs.Positive
  | .negation _ => False
  | .label _ => True
  | .any => True

/-- A label that the expression does not name satisfies it. -/
def Open : BoundLabelExpr → Prop
  | .conjunction lhs rhs => lhs.Open ∧ rhs.Open
  | .disjunction lhs rhs => lhs.Open ∨ rhs.Open
  | .negation _ => False
  | .label _ => False
  | .any => True

variable {e : BoundLabelExpr} {label : Nat}

theorem holds_of_open (h : e.Open) : e.Holds label := by
  induction e with
  | conjunction lhs rhs ihl ihr => exact ⟨ihl h.1, ihr h.2⟩
  | disjunction lhs rhs ihl ihr => exact h.imp ihl ihr
  | negation => exact h.elim
  | label => exact h.elim
  | any => trivial

theorem open_of_holds (hPos : e.Positive) (hNot : ¬ e.Names label) (h : e.Holds label) :
    e.Open := by
  induction e with
  | conjunction lhs rhs ihl ihr =>
    exact ⟨ihl hPos.1 (fun hn => hNot (.inl hn)) h.1, ihr hPos.2 (fun hn => hNot (.inr hn)) h.2⟩
  | disjunction lhs rhs ihl ihr =>
    exact h.imp (ihl hPos.1 fun hn => hNot (.inl hn)) (ihr hPos.2 fun hn => hNot (.inr hn))
  | negation => exact hPos.elim
  | label => exact absurd h hNot
  | any => trivial

end BoundLabelExpr

/-- What the lowering makes of an expression. -/
structure Lowered (e : BoundLabelExpr) (specs : Cubes Nat) : Prop where
  nonempty : specs ≠ []
  means : ∀ label, specs.eval (fun l => decide (l = label)) = true ↔ e.Holds label
  names : ∀ label, specs.Mentions label ↔ e.Names label
  empty : [] ∈ specs ↔ e.Open

/-- **The lowering is right**: without a negation the specs, read as the disjunction of
conjunctions that they are meant to be, say what the expression says. -/
theorem lowered_of_positive {e : BoundLabelExpr} (h : e.Positive) :
    ∃ specs, lowerLabelExprToSpecs e = some specs ∧ Lowered e specs := by
  induction e with
  | any =>
    refine ⟨[[]], rfl, by simp, fun label => ?_, fun label => ?_, ?_⟩
    · simp [Cubes.eval, BoundLabelExpr.Holds]
    · simp [Cubes.Mentions, BoundLabelExpr.Names]
    · simp [BoundLabelExpr.Open]
  | label id =>
    refine ⟨[[id]], rfl, by simp, fun label => ?_, fun label => ?_, ?_⟩
    · simp [Cubes.eval, BoundLabelExpr.Holds]
    · simp [Cubes.Mentions, BoundLabelExpr.Names, eq_comm]
    · simp [BoundLabelExpr.Open]
  | negation => exact h.elim
  | disjunction lhs rhs ihl ihr =>
    obtain ⟨a, ha, hA⟩ := ihl h.1
    obtain ⟨b, hb, hB⟩ := ihr h.2
    refine ⟨a ++ b, by simp [lowerLabelExprToSpecs, ha, hb], ?_, fun label => ?_, fun label => ?_, ?_⟩
    · exact fun hNil => hA.nonempty (List.append_eq_nil_iff.mp hNil).1
    · rw [Cubes.eval_append, Bool.or_eq_true, hA.means, hB.means]
      rfl
    · rw [Cubes.mentions_append, hA.names, hB.names]
      rfl
    · rw [Cubes.nil_mem_append, hA.empty, hB.empty]
      rfl
  | conjunction lhs rhs ihl ihr =>
    obtain ⟨a, ha, hA⟩ := ihl h.1
    obtain ⟨b, hb, hB⟩ := ihr h.2
    refine ⟨Cubes.meet mergeRoutes a b, by simp [lowerLabelExprToSpecs, ha, hb],
      Cubes.meet_ne_nil hA.nonempty hB.nonempty, fun label => ?_, fun label => ?_, ?_⟩
    · rw [Cubes.eval_meet merges_mergeRoutes, Bool.and_eq_true, hA.means, hB.means]
      rfl
    · rw [Cubes.mentions_meet merges_mergeRoutes hA.nonempty hB.nonempty, hA.names, hB.names]
      rfl
    · rw [Cubes.nil_mem_meet merges_mergeRoutes, hA.empty, hB.empty]
      rfl

/-- A negation anywhere stops the lowering. -/
theorem lower_eq_none_of_not_positive {e : BoundLabelExpr} (h : ¬ e.Positive) :
    lowerLabelExprToSpecs e = none := by
  induction e with
  | any => exact absurd trivial h
  | label => exact absurd trivial h
  | negation => rfl
  | disjunction lhs rhs ihl ihr =>
    unfold lowerLabelExprToSpecs
    by_cases hl : lhs.Positive
    · obtain ⟨a, ha, -⟩ := lowered_of_positive hl
      simp [ha, ihr fun hr => h ⟨hl, hr⟩]
    · simp [ihl hl]
  | conjunction lhs rhs ihl ihr =>
    unfold lowerLabelExprToSpecs
    by_cases hl : lhs.Positive
    · obtain ⟨a, ha, -⟩ := lowered_of_positive hl
      simp [ha, ihr fun hr => h ⟨hl, hr⟩]
    · simp [ihl hl]

/-! ## The filters -/

section Filters

variable {e : BoundLabelExpr} {specs : Cubes Nat}

/-- What the node scan and the target filter make of the specs. -/
theorem Lowered.specsContain_iff (h : Lowered e specs) (label : Nat) :
    specsContain specs label = true ↔ e.Open ∨ e.Names label := by
  rw [← h.empty, ← h.names]
  unfold specsContain Cubes.Mentions
  simp only [List.any_eq_true, Bool.or_eq_true, List.isEmpty_iff, List.contains_iff_mem]
  constructor
  · rintro ⟨l, hl, rfl | hMem⟩
    · exact .inl hl
    · exact .inr ⟨l, hl, hMem⟩
  · rintro (hNil | ⟨l, hl, hMem⟩)
    · exact ⟨[], hNil, .inl rfl⟩
    · exact ⟨l, hl, .inr hMem⟩

theorem Lowered.edgeLabelAllowed_iff (h : Lowered e specs) (n : Neighbor) :
    edgeLabelAllowed (some specs) n = true ↔ e.Names n.labelId := by
  rw [← h.names]
  unfold edgeLabelAllowed Cubes.Mentions
  simp only [List.contains_iff_mem, List.mem_flatten]

/-- The vertex filters are right about a label unless it is named without satisfying the
expression. -/
theorem Lowered.vertex_agrees_iff (h : Lowered e specs) (hPos : e.Positive) (label : Nat) :
    (specsContain specs label = true ↔ e.Holds label) ↔ (e.Names label → e.Holds label) := by
  rw [h.specsContain_iff]
  constructor
  · exact fun hIff hNames => hIff.mp (.inr hNames)
  · intro hNamed
    constructor
    · rintro (hOpen | hNames)
      · exact BoundLabelExpr.holds_of_open hOpen
      · exact hNamed hNames
    · intro hHolds
      by_cases hNames : e.Names label
      · exact .inr hNames
      · exact .inl (BoundLabelExpr.open_of_holds hPos hNames hHolds)

end Filters

/-! ## Source expressions -/

namespace LabelExpr

/-- The id of a label name. -/
def labelId (currentGraph : CurrentGraph) (name : String) : Option Nat :=
  currentGraph.bind fun getLabelId => getLabelId name

/-- Every label name of the expression is known. -/
def Resolves (currentGraph : CurrentGraph) : LabelExpr → Prop
  | .conjunction lhs rhs => lhs.Resolves currentGraph ∧ rhs.Resolves currentGraph
  | .disjunction lhs rhs => lhs.Resolves currentGraph ∧ rhs.Resolves currentGraph
  | .negation inner => inner.Resolves currentGraph
  | .label name => labelId currentGraph name ≠ none
  | .wildcard => True

/-- An element with this label satisfies the expression. -/
def Holds (currentGraph : CurrentGraph) (label : Nat) : LabelExpr → Prop
  | .conjunction lhs rhs => lhs.Holds currentGraph label ∧ rhs.Holds currentGraph label
  | .disjunction lhs rhs => lhs.Holds currentGraph label ∨ rhs.Holds currentGraph label
  | .negation inner => ¬ inner.Holds currentGraph label
  | .label name => labelId currentGraph name = some label
  | .wildcard => True

/-- The label stands in the expression, by its name. -/
def Names (currentGraph : CurrentGraph) (label : Nat) : LabelExpr → Prop
  | .conjunction lhs rhs => lhs.Names currentGraph label ∨ rhs.Names currentGraph label
  | .disjunction lhs rhs => lhs.Names currentGraph label ∨ rhs.Names currentGraph label
  | .negation inner => inner.Names currentGraph label
  | .label name => labelId currentGraph name = some label
  | .wildcard => False

/-- No negation stands in the expression. -/
def Positive : LabelExpr → Prop
  | .conjunction lhs rhs => lhs.Positive ∧ rhs.Positive
  | .disjunction lhs rhs => lhs.Positive ∧ rhs.Positive
  | .negation _ => False
  | .label _ => True
  | .wildcard => True

/-- What binding keeps of an expression. -/
structure BoundTo (currentGraph : CurrentGraph) (e : LabelExpr) (b : BoundLabelExpr) : Prop where
  holds : ∀ label, b.Holds label ↔ e.Holds currentGraph label
  names : ∀ label, b.Names label ↔ e.Names currentGraph label
  positive : b.Positive ↔ e.Positive

/-- An expression whose labels the graph knows is bound, and keeps its meaning. -/
theorem bind_of_resolves {currentGraph : CurrentGraph} {e : LabelExpr}
    (h : e.Resolves currentGraph) :
    ∃ b, bindLabelExpr currentGraph e = .ok b ∧ BoundTo currentGraph e b := by
  induction e with
  | wildcard => exact ⟨.any, rfl, fun _ => Iff.rfl, fun _ => Iff.rfl, Iff.rfl⟩
  | label name =>
    cases currentGraph with
    | none => exact absurd rfl h
    | some getLabelId =>
      obtain ⟨id, hId⟩ := Option.ne_none_iff_exists'.mp h
      have hId : getLabelId name = some id := hId
      have hName : ∀ label, id = label ↔ labelId (some getLabelId) name = some label := by
        intro label
        show _ ↔ getLabelId name = some label
        rw [hId, Option.some.injEq]
      exact ⟨.label id, by simp only [bindLabelExpr, hId], hName, hName, Iff.rfl⟩
  | negation inner ih =>
    obtain ⟨b, hb, hB⟩ := ih h
    refine ⟨.negation b, by simp only [bindLabelExpr, hb]; rfl, fun label => ?_, hB.names, Iff.rfl⟩
    exact not_congr (hB.holds label)
  | conjunction lhs rhs ihl ihr =>
    obtain ⟨l, hl, hL⟩ := ihl h.1
    obtain ⟨r, hr, hR⟩ := ihr h.2
    exact ⟨.conjunction l r, by simp only [bindLabelExpr, hl, hr]; rfl,
      fun label => and_congr (hL.holds label) (hR.holds label),
      fun label => or_congr (hL.names label) (hR.names label), and_congr hL.positive hR.positive⟩
  | disjunction lhs rhs ihl ihr =>
    obtain ⟨l, hl, hL⟩ := ihl h.1
    obtain ⟨r, hr, hR⟩ := ihr h.2
    exact ⟨.disjunction l r, by simp only [bindLabelExpr, hl, hr]; rfl,
      fun label => or_congr (hL.holds label) (hR.holds label),
      fun label => or_congr (hL.names label) (hR.names label), and_congr hL.positive hR.positive⟩

theorem bind_of_not_resolves {currentGraph : CurrentGraph} {e : LabelExpr}
    (h : ¬ e.Resolves currentGraph) : ∃ err, bindLabelExpr currentGraph e = .error err := by
  induction e with
  | wildcard => exact absurd trivial h
  | label name =>
    cases currentGraph with
    | none => exact ⟨_, rfl⟩
    | some getLabelId =>
      have hNone : getLabelId name = none := not_not.mp h
      exact ⟨.labelNotFound name, by simp only [bindLabelExpr, hNone]⟩
  | negation inner ih =>
    obtain ⟨err, hErr⟩ := ih h
    exact ⟨err, by simp only [bindLabelExpr, hErr]; rfl⟩
  | conjunction lhs rhs ihl ihr =>
    by_cases hl : lhs.Resolves currentGraph
    · obtain ⟨l, hl', -⟩ := bind_of_resolves hl
      obtain ⟨err, hErr⟩ := ihr fun hr => h ⟨hl, hr⟩
      exact ⟨err, by simp only [bindLabelExpr, hl', hErr]; rfl⟩
    · obtain ⟨err, hErr⟩ := ihl hl
      exact ⟨err, by simp only [bindLabelExpr, hErr]; rfl⟩
  | disjunction lhs rhs ihl ihr =>
    by_cases hl : lhs.Resolves currentGraph
    · obtain ⟨l, hl', -⟩ := bind_of_resolves hl
      obtain ⟨err, hErr⟩ := ihr fun hr => h ⟨hl, hr⟩
      exact ⟨err, by simp only [bindLabelExpr, hl', hErr]; rfl⟩
    · obtain ⟨err, hErr⟩ := ihl hl
      exact ⟨err, by simp only [bindLabelExpr, hErr]; rfl⟩

end LabelExpr

/-! ## Elements of a graph -/

/-- A vertex, or an entry for an edge. -/
inductive Element (V : Type) where
  | vertex (v : Vertex V)
  | edge (n : Neighbor)

namespace Element

variable {V : Type}

def label : Element V → Nat
  | .vertex v => v.labelId
  | .edge n => n.labelId

/-- The transaction of the query reads the vertex; what the expand lists of an edge it has
checked itself. -/
def Read (g : MemoryGraph V) (txn : MemTransaction) : Element V → Prop
  | .vertex v => g.readEntity txn .vertex v.vid = .ok v
  | .edge _ => True

/-- The filters for the element say `keep`. -/
def Kept (g : MemoryGraph V) (txn : MemTransaction) (specs : Cubes Nat) (keep : Bool) :
    Element V → Prop
  | .vertex v => g.vertexHasAllLabels txn v.vid (some specs) = .ok keep ∧
      ∀ n : Neighbor, n.neighborId = v.vid → g.targetAllowed txn (some specs) n = keep
  | .edge n => edgeLabelAllowed (some specs) n = keep

variable {g : MemoryGraph V} {txn : MemTransaction} {specs : Cubes Nat} {keep : Bool}

theorem kept_vertex_iff {v : Vertex V} (hv : g.readEntity txn .vertex v.vid = .ok v) :
    Kept g txn specs keep (.vertex v) ↔ specsContain specs v.labelId = keep := by
  have hScan : g.vertexHasAllLabels txn v.vid (some specs) = .ok (specsContain specs v.labelId) := by
    unfold MemoryGraph.vertexHasAllLabels
    simp only [hv]
  have hTarget : ∀ n : Neighbor, n.neighborId = v.vid →
      g.targetAllowed txn (some specs) n = specsContain specs v.labelId := by
    intro n hn
    unfold MemoryGraph.targetAllowed
    simp only [hn, hv]
  constructor
  · rintro ⟨hEq, -⟩
    exact Except.ok.inj (hScan.symm.trans hEq)
  · intro hEq
    exact ⟨by rw [hScan, hEq], fun n hn => (hTarget n hn).trans hEq⟩

end Element

/-- The binder rejects the expression, or lowers it to specs, of which there is a first, and
the filters for the element keep it exactly when its label satisfies the expression. -/
def MeansWhatItSays {V : Type} (g : MemoryGraph V) (txn : MemTransaction)
    (currentGraph : CurrentGraph) (e : LabelExpr) (el : Element V) : Prop :=
  (∃ err, bindLabelExpr currentGraph e = .error err) ∨
  ∃ b specs, bindLabelExpr currentGraph e = .ok b ∧ lowerLabelExprToSpecs b = some specs ∧
    specs ≠ [] ∧ ∃ keep, el.Kept g txn specs keep ∧ (keep = true ↔ e.Holds currentGraph el.label)

/-- What the filters for the element tell apart. -/
def Distinguished {V : Type} (currentGraph : CurrentGraph) (e : LabelExpr) : Element V → Prop
  | .vertex v => e.Names currentGraph v.labelId → e.Holds currentGraph v.labelId
  | .edge n => e.Names currentGraph n.labelId ↔ e.Holds currentGraph n.labelId

/-- The filters for an element are right about it exactly when it is distinguished. -/
theorem kept_iff {V : Type} {g : MemoryGraph V} {txn : MemTransaction} {currentGraph : CurrentGraph}
    {e : LabelExpr} {el : Element V} {b : BoundLabelExpr} {specs : Cubes Nat}
    (hRead : el.Read g txn) (hBound : e.BoundTo currentGraph b) (hPos : e.Positive)
    (hLow : Lowered b specs) :
    (∃ keep, el.Kept g txn specs keep ∧ (keep = true ↔ e.Holds currentGraph el.label)) ↔
      Distinguished currentGraph e el := by
  cases el with
  | vertex v =>
    have hAgrees := hLow.vertex_agrees_iff (hBound.positive.mpr hPos) v.labelId
    rw [hBound.holds, hBound.names] at hAgrees
    simp only [Element.kept_vertex_iff hRead, exists_eq_left']
    exact hAgrees
  | edge n =>
    have hAllowed := hLow.edgeLabelAllowed_iff n
    rw [hBound.names] at hAllowed
    simp only [Element.Kept, exists_eq_left', hAllowed]
    exact Iff.rfl

/-- **When an expression means what it says** for an element of any graph: the binder knows
not all of its names, or it has no negation and its named labels are for a vertex among
those, for an edge just those, that satisfy it. -/
theorem label_expr_means_iff {V : Type} {g : MemoryGraph V} {txn : MemTransaction}
    {currentGraph : CurrentGraph} {e : LabelExpr} {el : Element V} (hRead : el.Read g txn) :
    MeansWhatItSays g txn currentGraph e el ↔
      ¬ e.Resolves currentGraph ∨ (e.Positive ∧ Distinguished currentGraph e el) := by
  by_cases hRes : e.Resolves currentGraph
  · obtain ⟨b, hb, hBound⟩ := LabelExpr.bind_of_resolves hRes
    have hAccepts : ¬ ∃ err, bindLabelExpr currentGraph e = .error err := by
      rintro ⟨err, hErr⟩
      rw [hb] at hErr
      cases hErr
    unfold MeansWhatItSays
    rw [or_iff_right hAccepts, or_iff_right (not_not.mpr hRes)]
    by_cases hPos : e.Positive
    · obtain ⟨specs, hSpecs, hLow⟩ := lowered_of_positive (hBound.positive.mpr hPos)
      rw [← kept_iff hRead hBound hPos hLow]
      constructor
      · rintro ⟨b', specs', hb', hSpecs', -, hKept⟩
        obtain rfl := Except.ok.inj (hb.symm.trans hb')
        obtain rfl := Option.some.inj (hSpecs.symm.trans hSpecs')
        exact ⟨hPos, hKept⟩
      · rintro ⟨-, hKept⟩
        exact ⟨b, specs, hb, hSpecs, hLow.nonempty, hKept⟩
    · -- the lowering does not return
      refine iff_of_false ?_ fun h => hPos h.1
      rintro ⟨b', specs', hb', hSpecs', -⟩
      obtain rfl := Except.ok.inj (hb.symm.trans hb')
      rw [lower_eq_none_of_not_positive fun h => hPos (hBound.positive.mp h)] at hSpecs'
      cases hSpecs'
  · exact iff_of_true (.inl (LabelExpr.bind_of_not_resolves hRes)) (.inl hRes)

/-! ## A vertex with one label -/

section Traces

/-- Two labels, `A` and `B`. -/
def twoLabels : CurrentGraph := some fun name =>
  if name = "A" then some 1 else if name = "B" then some 2 else none

/-- A vertex of the label `A` is created and committed, and a query begins. -/
def labelledVertexActions : List (Action Nat) :=
  let t₁ := MemoryGraph.snapshotTxn 1 1 .pessimistic
  [.begin none .snapshot .pessimistic, .op t₁ (.createVertex (.new 1 1 [])), .commit t₁ none,
    .begin none .serializable .pessimistic]

/-- The transaction of the query. -/
def labelQueryTxn : MemTransaction := ⟨Timestamp.txnIdStart + 2, 3, .serializable, .pessimistic⟩

theorem labelledVertex_run : ∃ trace g,
    Run MemoryGraph.Step (fun _ _ => True) (.new none .pessimistic .snapshot : MemoryGraph Nat)
      trace g ∧ (Element.vertex (.new 1 1 [])).Read g labelQueryTxn := by
  obtain ⟨⟨trace, g⟩, hList⟩ := Option.isSome_iff_exists.mp (show (runList
    (MemoryGraph.next fun _ _ => true) (.new none .pessimistic .snapshot : MemoryGraph Nat)
      labelledVertexActions).isSome = true by decide +kernel)
  have hFacts : (runList (MemoryGraph.next fun _ _ => true)
      (.new none .pessimistic .snapshot : MemoryGraph Nat) labelledVertexActions).map
        (fun r => ((r.2.readEntity labelQueryTxn .vertex 1).toOption : Option (Vertex Nat))) =
      some (some (Vertex.new 1 1 [])) := by decide +kernel
  rw [hList] at hFacts
  have hRead := Option.some.inj hFacts
  refine ⟨trace, g, Run.of_runList (fun s a s' hNext => ⟨trivial, (MemoryGraph.step_of_next hNext).2⟩)
    hList, ?_⟩
  show g.readEntity labelQueryTxn .vertex 1 = .ok (Vertex.new 1 1 [])
  dsimp only at hRead
  cases hRes : g.readEntity labelQueryTxn .vertex 1 with
  | error e =>
    rw [hRes] at hRead
    cases hRead
  | ok v =>
    rw [hRes] at hRead
    exact congrArg Except.ok (Option.some.inj hRead)

/-- **A conjunction is accepted as a disjunction**: the vertex has not both labels. -/
theorem label_conjunction_accepted : ∃ trace g,
    Run MemoryGraph.Step (fun _ _ => True) (.new none .pessimistic .snapshot : MemoryGraph Nat)
      trace g ∧
    (Element.vertex (.new 1 1 [])).Read g labelQueryTxn ∧
    ¬ MeansWhatItSays g labelQueryTxn twoLabels (.conjunction (.label "A") (.label "B"))
      (.vertex (.new 1 1 [])) := by
  obtain ⟨trace, g, hRun, hRead⟩ := labelledVertex_run
  refine ⟨trace, g, hRun, hRead, ?_⟩
  rintro (⟨err, hErr⟩ | ⟨b, specs, hb, hSpecs, -, keep, hKept, hIff⟩)
  · cases hErr
  · cases hb
    have hValue : lowerLabelExprToSpecs (.conjunction (.label 1) (.label 2)) = some [[1, 2]] := by
      decide +kernel
    have hLowered : specs = [[1, 2]] := Option.some.inj (hSpecs.symm.trans hValue)
    have hContain := (Element.kept_vertex_iff hRead).mp hKept
    rw [hLowered] at hContain
    have hKeep : keep = true := hContain.symm.trans (by decide)
    have hHolds := (hIff.mp hKeep).2
    cases hHolds

/-- A disjunction of labels is understood. -/
theorem label_disjunction_means : ∃ trace g,
    Run MemoryGraph.Step (fun _ _ => True) (.new none .pessimistic .snapshot : MemoryGraph Nat)
      trace g ∧
    MeansWhatItSays g labelQueryTxn twoLabels (.disjunction (.label "A") (.label "B"))
      (.vertex (.new 1 1 [])) := by
  obtain ⟨trace, g, hRun, hRead⟩ := labelledVertex_run
  exact ⟨trace, g, hRun, (label_expr_means_iff hRead).mpr (.inr ⟨⟨trivial, trivial⟩,
    fun _ => .inl rfl⟩)⟩

end Traces

end MiniGU
