import MiniGU.Lib.Products
import MiniGU.Model.Read

/-!
# Label expressions

`bind_label_expr` and `lower_label_expr_to_specs` (`gql/planner/src/binder/common.rs`) and
the three filters that interpret the lowered expression: that of the node scan
(`context/src/graph.rs`) and the two of the expand
(`gql/execution/src/source/expand_source.rs`). Label names are bound by the catalog of the
current graph, here the function from names to ids.

The label expressions and the edge directions of the AST are those of the parser and of the binder.
-/

namespace MiniGU

inductive LabelExpr where
  | conjunction (lhs rhs : LabelExpr)
  | disjunction (lhs rhs : LabelExpr)
  | negation (inner : LabelExpr)
  | label (name : String)
  | wildcard
deriving DecidableEq, Repr

/-- The direction of an edge pattern. -/
inductive EdgePatternKind where
  | left | leftUndirected | leftRight | right | rightUndirected | undirected | any
deriving DecidableEq, Repr

inductive BoundLabelExpr where
  | conjunction (lhs rhs : BoundLabelExpr)
  | disjunction (lhs rhs : BoundLabelExpr)
  | negation (inner : BoundLabelExpr)
  | label (id : Nat)
  | any
deriving DecidableEq, Repr

inductive BindError where
  | currentGraphNotSpecified
  | labelNotFound (name : String)
deriving DecidableEq, Repr

/-- `get_label_id` of the type of the current graph, if there is one. -/
abbrev CurrentGraph := Option (String → Option Nat)

def bindLabelExpr (currentGraph : CurrentGraph) : LabelExpr → Except BindError BoundLabelExpr
  | .wildcard => .ok .any
  | .label name =>
    match currentGraph with
    | none => .error .currentGraphNotSpecified
    | some getLabelId =>
      match getLabelId name with
      | none => .error (.labelNotFound name)
      | some id => .ok (.label id)
  | .negation inner => do
    let child ← bindLabelExpr currentGraph inner
    .ok (.negation child)
  | .conjunction lhs rhs => do
    let l ← bindLabelExpr currentGraph lhs
    let r ← bindLabelExpr currentGraph rhs
    .ok (.conjunction l r)
  | .disjunction lhs rhs => do
    let l ← bindLabelExpr currentGraph lhs
    let r ← bindLabelExpr currentGraph rhs
    .ok (.disjunction l r)

/-- `Vec::dedup`: drop an element that its successor repeats. -/
def dedup : List Nat → List Nat
  | a :: b :: l => if a = b then dedup (b :: l) else a :: dedup (b :: l)
  | l => l

/-- Two inner lists of a conjunction, sorted and without repetitions. -/
def mergeRoutes (l r : List Nat) : List Nat := dedup ((l ++ r).insertionSort (· ≤ ·))

/-- `lower_label_expr_to_specs`; `none` is the `unreachable!()` under a negation. -/
def lowerLabelExprToSpecs : BoundLabelExpr → Option (Cubes Nat)
  | .any => some [[]]
  | .label id => some [[id]]
  | .disjunction lhs rhs => do
    let a ← lowerLabelExprToSpecs lhs
    let b ← lowerLabelExprToSpecs rhs
    some (a ++ b)
  | .conjunction lhs rhs => do
    let left ← lowerLabelExprToSpecs lhs
    let right ← lowerLabelExprToSpecs rhs
    some (Cubes.meet mergeRoutes left right)
  | .negation _ => none

/-! ## The filters -/

/-- The loop over the specs in `vertex_has_all_labels` and in the target filter. -/
def specsContain (specs : Cubes Nat) (label : Nat) : Bool :=
  specs.any fun andLabels => andLabels.isEmpty || andLabels.contains label

/-- The edge filter of `expand_from_vertex`. -/
def edgeLabelAllowed (edgeLabels : Option (Cubes Nat)) (n : Neighbor) : Bool :=
  match edgeLabels with
  | none => true
  | some labels => labels.flatten.contains n.labelId

namespace MemoryGraph

variable {V : Type}

/-- `vertex_has_all_labels`, the filter of the node scan. -/
def vertexHasAllLabels (g : MemoryGraph V) (txn : MemTransaction) (vid : Nat)
    (labelIds : Option (Cubes Nat)) : Except StorageError Bool :=
  match labelIds with
  | none => .ok true
  | some specs =>
    match g.readEntity txn .vertex vid with
    | .error e => .error e
    | .ok v => .ok (specsContain specs (Vertex.labelId v))

/-- The target-vertex filter of `expand_from_vertex`; a target that cannot be read is
skipped. -/
def targetAllowed (g : MemoryGraph V) (txn : MemTransaction)
    (targetLabels : Option (Cubes Nat)) (n : Neighbor) : Bool :=
  match targetLabels with
  | none => true
  | some specs =>
    match g.readEntity txn .vertex n.neighborId with
    | .error _ => false
    | .ok v => specsContain specs (Vertex.labelId v)

/-- The neighbours that `expand_from_vertex` lists; a vertex that cannot be read has none. -/
def expandFromVertex (g : MemoryGraph V) (txn : MemTransaction) (vertex : Nat)
    (edgeLabels targetLabels : Option (Cubes Nat)) : Option (List Neighbor) :=
  match g.readEntity txn .vertex vertex with
  | .error _ => none
  | .ok _ =>
    some ((g.iterAdjacency txn vertex .outgoing (edgeLabelAllowed edgeLabels)).filter
      (g.targetAllowed txn targetLabels))

end MemoryGraph

end MiniGU
