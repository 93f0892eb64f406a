import MiniGU.Lib.Batches
import MiniGU.Model.Executor
import MiniGU.Model.Label

/-!
# Linear path patterns

From the pattern to its rows: the binder names and types the elements
(`gql/planner/src/binder/common.rs`), the optimizer chains an expand for each edge to a scan of
the first vertex (`gql/planner/src/optimizer/mod.rs`, `plan/expand.rs`), and the executor
builder (`gql/execution/src/builder.rs`) runs the chain over the graph.

A pattern is a list of elements; unions, groups, quantifiers and the like are refused by the
binder and left out. The types of vertex properties are a parameter, compared for equality
only. The executors read the graph at fresh snapshots of one state, a `GraphView`.
-/

namespace MiniGU

/-! ## The binder -/

/-- What the binder reads of what stands between the brackets of an element. -/
structure ElementPatternFiller where
  var : Option String
  label : Option LabelExpr
  hasPredicate : Bool
deriving DecidableEq, Repr

inductive ElementPattern where
  | node (filler : ElementPatternFiller)
  | edge (kind : EdgePatternKind) (filler : ElementPatternFiller)
deriving DecidableEq, Repr

/-- The catalog of the current graph: its labels, and the properties of the vertices of a label
set. -/
structure GraphType (Property : Type) where
  getLabelId : String → Option Nat
  getVertexType : List Nat → Option (List Property)

inductive LogicalType (Property : Type) where
  | edge
  | vertex (properties : List Property)
deriving DecidableEq, Repr

/-- The variables bound so far, in order; none is nullable. -/
abbrev BindingSchema (Property : Type) := List (String × LogicalType Property)

inductive PatternError where
  | label (e : BindError)
  | unexpected
  | notImplemented
  | unreachable
deriving DecidableEq, Repr

structure BoundVertexPattern where
  var : String
  label : Cubes Nat
deriving DecidableEq, Repr

structure BoundEdgePattern where
  var : String
  label : Cubes Nat
deriving DecidableEq, Repr

inductive BoundElementPattern where
  | vertex (v : BoundVertexPattern)
  | edge (e : BoundEdgePattern)
deriving DecidableEq, Repr

section Bind

variable {Property : Type} [DecidableEq Property]

/-- `register_variable`. -/
def registerVariable (schema : BindingSchema Property) (name : String)
    (ty : LogicalType Property) : Except PatternError (BindingSchema Property) :=
  match schema.lookup name with
  | some ty' => if ty' = ty then .ok schema else .error .unexpected
  | none => .ok (schema ++ [(name, ty)])

/-- The label specs of an element; one without a label has the one empty spec. -/
def bindLabel (gt : GraphType Property) (label : Option LabelExpr) :
    Except PatternError (Cubes Nat) :=
  match label with
  | none => .ok [[]]
  | some expr =>
    match bindLabelExpr (some gt.getLabelId) expr with
    | .error e => .error (.label e)
    | .ok bound =>
      match lowerLabelExprToSpecs bound with
      | none => .error .unreachable
      | some specs => .ok specs

def bindEdgeFiller (gt : GraphType Property) (schema : BindingSchema Property)
    (f : ElementPatternFiller) :
    Except PatternError (BoundEdgePattern × BindingSchema Property) := do
  let var := f.var.getD ("__e" ++ toString schema.length)
  if f.hasPredicate then .error .notImplemented
  else
    let schema ← registerVariable schema var .edge
    let label ← bindLabel gt f.label
    .ok (⟨var, label⟩, schema)

def bindVertexFiller (gt : GraphType Property) (schema : BindingSchema Property)
    (f : ElementPatternFiller) :
    Except PatternError (BoundVertexPattern × BindingSchema Property) := do
  let var := f.var.getD ("__n" ++ toString schema.length)
  let label ← bindLabel gt f.label
  let properties := (gt.getVertexType (label.head?.getD [])).getD []
  let schema ← registerVariable schema var (.vertex properties)
  if f.hasPredicate then .error .notImplemented
  else .ok (⟨var, label⟩, schema)

def bindElementPattern (gt : GraphType Property) (schema : BindingSchema Property) :
    ElementPattern → Except PatternError (BoundElementPattern × BindingSchema Property)
  | .node filler => do
    let (v, schema) ← bindVertexFiller gt schema filler
    .ok (.vertex v, schema)
  | .edge .right filler => do
    let (e, schema) ← bindEdgeFiller gt schema filler
    .ok (.edge e, schema)
  | .edge _ _ => .error .notImplemented

/-- The elements of a `Concat`, one after the other. -/
def bindElements (gt : GraphType Property) (schema : BindingSchema Property) :
    List ElementPattern → Except PatternError (List BoundElementPattern)
  | [] => .ok []
  | elem :: rest => do
    let (bound, schema) ← bindElementPattern gt schema elem
    let tail ← bindElements gt schema rest
    .ok (bound :: tail)

end Bind

/-! ## The plan -/

inductive PlanNode where
  | nodeScan (var : String) (labels : Cubes Nat)
  | expand (child : PlanNode) (inputColumnIndex : Nat) (edgeLabels : Cubes Nat)
      (targetVertexLabels : Option (Cubes Nat)) (outputVar targetVertexVar : Option String)
deriving DecidableEq, Repr

/-- A field is added where the schema has none of its name. -/
def addField (fields : List String) : Option String → List String
  | none => fields
  | some name => if name ∈ fields then fields else fields ++ [name]

namespace PlanNode

/-- The names of the fields of a node's schema (`NodeIdScan::new`, `Expand::new`). -/
def schema : PlanNode → List String
  | nodeScan var _ => [var]
  | expand child _ _ _ outputVar targetVertexVar =>
    addField (addField child.schema outputVar) targetVertexVar

end PlanNode

def boundVertices (elements : List BoundElementPattern) : List BoundVertexPattern :=
  elements.filterMap fun
    | .vertex v => some v
    | .edge _ => none

def boundEdges (elements : List BoundElementPattern) : List BoundEdgePattern :=
  elements.filterMap fun
    | .edge e => some e
    | .vertex _ => none

/-- One turn of the loop over the edges and the vertices they lead to. -/
def planStep (currentPlan : PlanNode) (step : BoundEdgePattern × BoundVertexPattern) : PlanNode :=
  .expand currentPlan 0 step.1.label (some step.2.label) (some step.1.var) (some step.2.var)

/-- `create_physical_plan_impl` on a match, with `extract_path_pattern`; `none` where it is not
implemented. -/
def createPhysicalPlan (elements : List BoundElementPattern) : Option PlanNode :=
  match boundVertices elements with
  | [] => none
  | first :: rest =>
    some (((boundEdges elements).zip rest).foldl planStep (.nodeScan first.var first.label))

/-! ## The executor -/

/-- What a fresh transaction reads of a graph. -/
structure GraphView (V : Type) where
  vertices : List (Vertex V)
  edges : List (Edge V)
  vertexIds : (vertices.map Vertex.vid).Nodup
  edgeIds : (edges.map Edge.eid).Nodup

namespace GraphView

variable {V : Type} (view : GraphView V)

def getVertex (vid : Nat) : Option (Vertex V) := view.vertices.find? fun v => v.vid == vid

def iterAdjacencyOutgoing (vid : Nat) : List Neighbor :=
  (view.edges.filter fun e => e.srcId == vid).map fun e => ⟨e.labelId, e.dstId, e.eid⟩

/-- `vertex_has_all_labels`. -/
def vertexHasAllLabels (vid : Nat) (labelIds : Cubes Nat) : ExecutionResult Bool :=
  match view.getVertex vid with
  | none => .error .panicked
  | some v => .ok (specsContain labelIds v.labelId)

/-- The scan of the vertices of some labels, in ascending batches of 1024. -/
def vertexSource (labelIds : Cubes Nat) : ExecutionResult (List (List Nat)) := do
  let ids ← (view.vertices.map Vertex.vid).filterM fun vid => view.vertexHasAllLabels vid labelIds
  .ok (batches 1024 (ids.insertionSort (· ≤ ·)))

def targetAllowed (targetLabels : Option (Cubes Nat)) (n : Neighbor) : Bool :=
  match targetLabels with
  | none => true
  | some specs =>
    match view.getVertex n.neighborId with
    | none => false
    | some v => specsContain specs v.labelId

def neighbors (vertex : Nat) (edgeLabels targetLabels : Option (Cubes Nat)) : List Neighbor :=
  ((view.iterAdjacencyOutgoing vertex).filter (edgeLabelAllowed edgeLabels)).filter
    (view.targetAllowed targetLabels)

/-- `expand_from_vertex`: columns of edge ids and of vertex ids, in batches of 64. -/
def expandFromVertex : ExpandSource := fun vertex edgeLabels targetLabels =>
  match view.getVertex vertex with
  | none => none
  | some _ =>
    some ((batches 64 (view.neighbors vertex edgeLabels targetLabels)).map fun batch =>
      [batch.map Neighbor.eid, batch.map Neighbor.neighborId])

/-- `build_executor` on the chain, drained. -/
def execute : PlanNode → ExecutionResult (List Chunk)
  | .nodeScan _ labels => do
    let ids ← view.vertexSource labels
    .ok (ids.map fun batch => DataChunk.new [idColumn batch])
  | .expand child inputColumnIndex edgeLabels targetVertexLabels _ _ => do
    let chunks ← execute child
    let expanded ← Executor.expand view.expandFromVertex inputColumnIndex (some edgeLabels)
      targetVertexLabels chunks
    let numChildColumns := child.schema.length
    Executor.flatten [numChildColumns, numChildColumns + 1] expanded

end GraphView

end MiniGU
