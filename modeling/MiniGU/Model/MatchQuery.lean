import MiniGU.Model.GraphPattern
import MiniGU.Model.ObjectRef
import MiniGU.Model.QueryPlan

/-!
# Queries with one MATCH (`gql/planner/src/binder/query.rs`, `common.rs`, `object_expr.rs`,
`object_ref.rs`, `optimizer/mod.rs`)

A query that is planned has one MATCH of one path pattern, with or without `USE`, and a RETURN. The
binder keeps the modifiers of the MATCH in the bound query; the planner makes its plan of the
elements of the path.

A search prefix is refused by the binder; KEEP, WHERE, several paths and several statements are
refused there or by the planner, and left out. ORDER BY, OFFSET and LIMIT pick from the rows below.
An item of RETURN is the list of the variables that it mentions. A graph is known by `G`. An error
or a panic before execution is `none`.
-/

namespace MiniGU

open Parsing (MatchMode PathMode PathPatternPrefix SchemaRef CatalogObjectRef)

inductive GraphRef where
  | name (name : String)
  | parameter (name : String)
  | ref (catalogObjectRef : CatalogObjectRef)
  | home

inductive ObjectExpr where
  | variable (e : Parsing.Expr)
  | expr (e : Parsing.Expr)

inductive GraphExpr where
  | name (name : String)
  | ref (graphRef : GraphRef)
  | object (e : ObjectExpr)
  | current

structure MatchQuery where
  useGraph : Option GraphExpr
  matchMode : Option MatchMode
  pathPrefix : Option PathPatternPrefix
  elements : List Parsing.ElementPattern
  yieldClause : List String
  /-- `none` is `RETURN *`. -/
  items : Option (List (List String))

structure BoundMatchQuery (G : Type) where
  graph : G
  matchMode : Option MatchMode
  mode : Option PathMode
  elements : List BoundElementPattern
  yieldClause : List String
  items : Option (List (List String))
deriving DecidableEq, Repr

/-! ## The graph of USE -/

/-- What the binder takes from the session, and the graphs of each schema. -/
structure BinderSession (G : Type) where
  catalog : SchemaCatalog
  homeSchema : Option Nat
  currentSchema : Option Nat
  homeGraph : Option G
  currentGraph : Option G
  getGraph : Nat → String → Option G

namespace BinderSession

variable {G : Type} (session : BinderSession G)

def bindSchemaRef : SchemaRef → Option Nat
  | .absolute path => (session.catalog.bindAbsoluteSchemaPath path).toOption
  | .relative path => do
    let currentSchema ← session.currentSchema
    (session.catalog.bindRelativeSchemaPath currentSchema path).toOption
  | .predefined .home => session.homeSchema
  | .predefined .current => session.currentSchema
  | .parameter _ => none

def bindGraphRef : GraphRef → Option G
  | .name name => do
    let schema ← session.currentSchema
    session.getGraph schema name
  | .parameter _ => none
  | .ref catalogObjectRef => do
    let schema ← match catalogObjectRef.schema with
      | some schema => session.bindSchemaRef schema
      | none => session.currentSchema
    match catalogObjectRef.objects with
    | [name] => session.getGraph schema name
    | _ => none
  | .home => session.homeGraph

/-- A plain name and an expression are refused as not implemented. -/
def bindGraphExpr : GraphExpr → Option G
  | .name _ => none
  | .object _ => none
  | .ref graphRef => session.bindGraphRef graphRef
  | .current => session.currentGraph

end BinderSession

/-! ## The binder -/

section Bind

variable {G Property : Type} [DecidableEq Property]

/-- `bind_path_pattern_prefix`. -/
def bindPathPatternPrefix : Option PathPatternPrefix → Option (Option PathMode)
  | none => some none
  | some (.pathMode mode) => some (some mode)
  | some (.pathSearch _) => none

def toBinderFiller (filler : Parsing.ElementPatternFiller) : ElementPatternFiller :=
  ⟨filler.name, filler.label, filler.predicate.isSome⟩

/-- What the binder reads of an element of the AST. -/
def toBinderElement : Parsing.ElementPattern → ElementPattern
  | .node filler => .node (toBinderFiller filler)
  | .edge kind filler => .edge kind (toBinderFiller filler)

/-- The elements, and the variables that they leave bound. -/
def bindElementsWith (gt : GraphType Property) (schema : BindingSchema Property) :
    List ElementPattern → Except PatternError (List BoundElementPattern × BindingSchema Property)
  | [] => .ok ([], schema)
  | elem :: rest => do
    let (bound, schema) ← bindElementPattern gt schema elem
    let (tail, schema) ← bindElementsWith gt schema rest
    .ok (bound :: tail, schema)

/-- `bind_focused_linear_query_statement` and `bind_ambient_linear_query_statement`. YIELD and
RETURN name variables of the pattern, each without regard to the other. -/
def bindMatchQuery (session : BinderSession G) (typeOf : G → GraphType Property)
    (q : MatchQuery) : Option (BoundMatchQuery G) := do
  let graph ← match q.useGraph with
    | none => session.currentGraph
    | some useGraph => session.bindGraphExpr useGraph
  let mode ← bindPathPatternPrefix q.pathPrefix
  let elements := q.elements.map toBinderElement
  let (elements, schema) ← (bindElementsWith (typeOf graph) [] elements).toOption
  let names := schema.map Prod.fst
  if (∀ name ∈ q.yieldClause, name ∈ names) ∧
      ∀ items ∈ q.items, ∀ item ∈ items, ∀ name ∈ item, name ∈ names then
    some ⟨graph, q.matchMode, mode, elements, q.yieldClause, q.items⟩
  else none

end Bind

/-! ## Execution -/

/-- The graphs that scans and expands are built on: the session's, for each of them. -/
def PlanNode.reads {G : Type} (current : G) : PlanNode → List G
  | .nodeScan _ _ => [current]
  | .expand child _ _ _ _ _ => child.reads current ++ [current]

/-- The rows of a MATCH under the columns of its plan, and the graphs they were read from. -/
structure MatchTable (G : Type) where
  columns : List String
  rows : List (List (Option Nat))
  reads : List G
deriving DecidableEq, Repr

/-- `build_executor` on the plan of a MATCH, drained. -/
def executeMatch {G V : Type} (viewOf : G → GraphView V) (current : Option G) (plan : PlanNode) :
    ExecutionResult (MatchTable G) :=
  match current with
  | none => .error .panicked
  | some g => do
    let chunks ← (viewOf g).execute plan
    .ok ⟨plan.schema, chunks.flatMap idRows, plan.reads g⟩

/-- A query is bound and planned in a session, then executed there. The planner takes from the bound
query the elements alone. -/
def runMatchQuery {G V Property : Type} [DecidableEq Property] (session : BinderSession G)
    (typeOf : G → GraphType Property) (viewOf : G → GraphView V) (q : MatchQuery) :
    Option (BoundMatchQuery G × ExecutionResult (MatchTable G)) := do
  let bound ← bindMatchQuery session typeOf q
  let plan ← createPhysicalPlan bound.elements
  some (bound, executeMatch viewOf session.currentGraph plan)

end MiniGU
