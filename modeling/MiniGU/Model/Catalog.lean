import Mathlib.Algebra.GroupWithZero.Nat
import Mathlib.Data.List.Sort
import MiniGU.Lib.AssocList

/-!
# Graph types in the catalog (`catalog/src/memory/graph_type.rs`, `catalog/src/label_set.rs`)

A graph type names its labels and keeps its vertex and edge types under their label sets. A hash
map is a list of its entries; what it is iterated in is the order of that list, which nothing
below depends on. `P` is the type of property definitions.
-/

namespace MiniGU

/-- Label ids in ascending order. -/
abbrev LabelSet := List Nat

/-- `from_iter`: the ids are sorted, and a repeated id stays repeated. -/
def LabelSet.fromIter (ids : List Nat) : LabelSet := ids.insertionSort (· ≤ ·)

structure VertexType (P : Type) where
  labelSet : LabelSet
  properties : List P
deriving DecidableEq, Repr

structure EdgeType (P : Type) where
  labelSet : LabelSet
  src : VertexType P
  dst : VertexType P
  properties : List P
deriving DecidableEq, Repr

def u32Max : Nat := 2 ^ 32 - 1

/-- Names and ids of labels are each given once, and the next id is new. -/
structure GraphTypeCatalog (P : Type) where
  nextLabelId : Nat
  labelMap : List (String × Nat)
  vertexTypeMap : List (LabelSet × VertexType P)
  edgeTypeMap : List (LabelSet × EdgeType P)
  names : (labelMap.map Prod.fst).Nodup
  ids : (labelMap.map Prod.snd).Nodup
  below : ∀ p ∈ labelMap, 0 < p.2 ∧ p.2 < nextLabelId
  positive : 0 < nextLabelId
  bound : nextLabelId ≤ u32Max

namespace GraphTypeCatalog

variable {P : Type}

def new : GraphTypeCatalog P where
  nextLabelId := 1
  labelMap := []
  vertexTypeMap := []
  edgeTypeMap := []
  names := List.nodup_nil
  ids := List.nodup_nil
  below := fun _ hp => (nomatch hp)
  positive := Nat.one_pos
  bound := by decide

def getLabelId (c : GraphTypeCatalog P) (name : String) : Option Nat := c.labelMap.lookup name

def getVertexType (c : GraphTypeCatalog P) (key : LabelSet) : Option (VertexType P) :=
  c.vertexTypeMap.lookup key

def getEdgeType (c : GraphTypeCatalog P) (key : LabelSet) : Option (EdgeType P) :=
  c.edgeTypeMap.lookup key

/-- `add_label`: none where the name is taken, or the ids are used up. -/
def addLabel (c : GraphTypeCatalog P) (name : String) : Option (Nat × GraphTypeCatalog P) :=
  match hName : c.labelMap.lookup name with
  | some _ => none
  | none =>
    if hNext : c.nextLabelId < u32Max then
      some (c.nextLabelId,
        { c with
          nextLabelId := c.nextLabelId + 1
          labelMap := c.labelMap ++ [(name, c.nextLabelId)]
          names := by
            rw [List.map_append]
            refine List.nodup_append'.mpr ⟨c.names, List.nodup_singleton _, ?_⟩
            exact List.disjoint_singleton.mpr (notMem_of_lookup_eq_none hName)
          ids := by
            rw [List.map_append]
            refine List.nodup_append'.mpr ⟨c.ids, List.nodup_singleton _, ?_⟩
            refine List.disjoint_singleton.mpr fun hMem => ?_
            obtain ⟨p, hp, hId⟩ := List.mem_map.mp hMem
            have := (c.below p hp).2
            omega
          below := by
            intro p hp
            rcases List.mem_append.mp hp with hp | hp
            · exact ⟨(c.below p hp).1, Nat.lt_succ_of_lt (c.below p hp).2⟩
            · rw [List.mem_singleton.mp hp]
              exact ⟨c.positive, Nat.lt_succ_self _⟩
          positive := Nat.succ_pos _
          bound := hNext })
    else none

def addVertexType (c : GraphTypeCatalog P) (key : LabelSet) (t : VertexType P) :
    Bool × GraphTypeCatalog P :=
  match c.vertexTypeMap.lookup key with
  | some _ => (false, c)
  | none => (true, { c with vertexTypeMap := c.vertexTypeMap ++ [(key, t)] })

def addEdgeType (c : GraphTypeCatalog P) (key : LabelSet) (t : EdgeType P) :
    Bool × GraphTypeCatalog P :=
  match c.edgeTypeMap.lookup key with
  | some _ => (false, c)
  | none => (true, { c with edgeTypeMap := c.edgeTypeMap ++ [(key, t)] })

end GraphTypeCatalog

end MiniGU
