import Mathlib.Algebra.GroupWithZero.Nat
import MiniGU.Lib.AssocList
import MiniGU.Lib.StableSort
import MiniGU.Model.VectorIndexScan

/-!
# The vector index in memory (`storage/src/tp/vector_index/in_mem_diskann.rs`)

`InMemANNAdapter` gives the vectors of the DiskANN index the ids of the vertices they belong to,
in two maps: by vertex and by vector. DiskANN is a parameter: it numbers the vectors it takes one
after the other, at most `u32::MAX` of them, and each call says whether it `accepts`. It refuses to
build where the first vector is the one nearest to the centroid, so for a vector alone; for several
that rests on distances.

A call that panics gives `none`. The coordinates of vectors are values of a type `F32`, their
distances of an ordered type `D`.
-/

namespace MiniGU

namespace InMemANN

inductive VectorIndexError where
  | unsupportedOperation (text : String)
  | emptyDataset
  | invalidDimension (expected actual : Nat)
  | tooManyVectors (count : Nat)
  | invalidShard (vectorId shard max : Nat)
  | duplicateNodeId (nodeId : Nat)
  | indexNotBuilt
  | nodeIdNotFound (nodeId : Nat)
  | build
  | diskANN
deriving DecidableEq, Repr

/-! ## The map from vectors to vertices -/

/-- The low bits of a vector id choose the shard, the others the place in it. -/
structure ShardedVectorMap where
  shardBits : Nat
  shards : List (List (Option Nat))
  length_shards : shards.length = 2 ^ shardBits

namespace ShardedVectorMap

def new (shardCountLog2 : Nat) : ShardedVectorMap where
  shardBits := shardCountLog2
  shards := List.replicate (2 ^ shardCountLog2) []
  length_shards := List.length_replicate

/-- `new`, which refuses more than 2^16 shards. -/
def tryNew (shardCountLog2 : Nat) : Except VectorIndexError ShardedVectorMap :=
  if 16 < shardCountLog2 then
    .error (.unsupportedOperation "Shard count too large (max 2^16 = 65536 shards)")
  else .ok (new shardCountLog2)

def shardIdx (m : ShardedVectorMap) (vectorId : Nat) : Nat := vectorId % 2 ^ m.shardBits

def localIdx (m : ShardedVectorMap) (vectorId : Nat) : Nat := vectorId / 2 ^ m.shardBits

def modifyShard (m : ShardedVectorMap) (vectorId : Nat)
    (f : List (Option Nat) → List (Option Nat)) : ShardedVectorMap where
  shardBits := m.shardBits
  shards := m.shards.modify (m.shardIdx vectorId) f
  length_shards := (List.length_modify ..).trans m.length_shards

def get (m : ShardedVectorMap) (vectorId : Nat) : Option Nat :=
  match m.shards[m.shardIdx vectorId]? with
  | none => none
  | some shard => (shard[m.localIdx vectorId]?).join

/-- A shard is made longer first where it has no such place. -/
def set (m : ShardedVectorMap) (vectorId nodeId : Nat) :
    Except VectorIndexError ShardedVectorMap :=
  if m.shards.length ≤ m.shardIdx vectorId then
    .error (.invalidShard vectorId (m.shardIdx vectorId) (m.shards.length - 1))
  else
    .ok (m.modifyShard vectorId fun shard =>
      (shard ++ List.replicate (m.localIdx vectorId + 1 - shard.length) none).set
        (m.localIdx vectorId) (some nodeId))

def clear (m : ShardedVectorMap) : ShardedVectorMap where
  shardBits := m.shardBits
  shards := m.shards.map fun _ => []
  length_shards := (List.length_map _).trans m.length_shards

def containsKey (m : ShardedVectorMap) (vectorId : Nat) : Bool := (m.get vectorId).isSome

/-- `remove`, and `soft_delete`: the place is emptied. -/
def remove (m : ShardedVectorMap) (vectorId : Nat) : ShardedVectorMap :=
  m.modifyShard vectorId fun shard => shard.set (m.localIdx vectorId) none

/-- What `remove` and `soft_delete` return. -/
def removed (m : ShardedVectorMap) (vectorId : Nat) : Option Nat :=
  match m.shards[m.shardIdx vectorId]? with
  | none => none
  | some shard =>
    if m.localIdx vectorId < shard.length then (shard[m.localIdx vectorId]?).join else none

/-- The vertices that were there, each once. The source goes shard by shard, which makes no
difference to the maps. -/
def batchSoftDelete (m : ShardedVectorMap) : List Nat → ShardedVectorMap × List Nat
  | [] => (m, [])
  | vectorId :: rest =>
    let r := (m.remove vectorId).batchSoftDelete rest
    (r.1, (m.get vectorId).toList ++ r.2)

def isEmpty (m : ShardedVectorMap) : Bool := m.shards.all List.isEmpty

/-- The places that hold a vertex. -/
def occupied (m : ShardedVectorMap) : Nat :=
  (m.shards.map fun shard => shard.countP Option.isSome).sum

end ShardedVectorMap

/-- A call on the map. -/
inductive MapCall where
  | insert (vectorId nodeId : Nat)
  | get (vectorId : Nat)
  | remove (vectorId : Nat)
  | clear

/-- The map after a call, and what the call returns. -/
def MapCall.run (m : ShardedVectorMap) :
    MapCall → ShardedVectorMap × Except VectorIndexError (Option Nat)
  | .insert vectorId nodeId =>
    match m.set vectorId nodeId with
    | .error e => (m, .error e)
    | .ok m' => (m', .ok none)
  | .get vectorId => (m, .ok (m.get vectorId))
  | .remove vectorId => (m.remove vectorId, .ok (m.removed vectorId))
  | .clear => (m.clear, .ok none)

/-! ## The adapter -/

structure InMemANNAdapter where
  dimension : Nat
  nodeToVector : List (Nat × Nat)
  vectorToNode : ShardedVectorMap
  nextVectorId : Nat

namespace InMemANNAdapter

variable {F32 : Type}

/-- 16 shards. -/
def new (dimension : Nat) : InMemANNAdapter := ⟨dimension, [], .new 4, 0⟩

def clearMappings (a : InMemANNAdapter) : InMemANNAdapter :=
  { a with nodeToVector := [], vectorToNode := a.vectorToNode.clear, nextVectorId := 0 }

/-- The loop of `build`, over the vectors in the order of their vertices. -/
def buildLoop : List (Nat × Nat) → List Nat → InMemANNAdapter →
    InMemANNAdapter × Except VectorIndexError Unit
  | [], _, a => (a, .ok ())
  | (nodeId, arrayIndex) :: rest, seenNodes, a =>
    if nodeId ∈ seenNodes then (a.clearMappings, .error (.duplicateNodeId nodeId))
    else
      let a := { a with nodeToVector := assocInsert nodeId arrayIndex a.nodeToVector }
      match a.vectorToNode.set arrayIndex nodeId with
      | .error e => (a.clearMappings, .error e)
      | .ok m => buildLoop rest (nodeId :: seenNodes) { a with vectorToNode := m }

def build (a : InMemANNAdapter) (vectors : List (Nat × List F32)) (accepts : Bool) :
    InMemANNAdapter × Except VectorIndexError Unit :=
  match vectors with
  | [] => (a, .error .emptyDataset)
  | (_, firstVector) :: _ =>
    let a := a.clearMappings
    if firstVector.length ≠ a.dimension then
      (a, .error (.invalidDimension a.dimension firstVector.length))
    else
      let sortedVectors := sortByKey Prod.fst vectors
      if 2 ^ 32 ≤ sortedVectors.length then
        (a.clearMappings, .error (.tooManyVectors sortedVectors.length))
      else
        match buildLoop ((sortedVectors.map Prod.fst).zipIdx) [] a with
        | (a, .error e) => (a, .error e)
        | (a, .ok ()) =>
          if accepts && decide (1 < sortedVectors.length) then
            ({ a with nextVectorId := sortedVectors.length }, .ok ())
          else (a.clearMappings, .error .build)

/-- What `insert` checks before it touches a map. -/
def checkInsert (a : InMemANNAdapter) (vectors : List (Nat × List F32)) :
    Except VectorIndexError Unit :=
  if a.nodeToVector.isEmpty then .error .indexNotBuilt
  else
    match vectors.find? fun v => v.2.length ≠ a.dimension with
    | some (_, vector) => .error (.invalidDimension a.dimension vector.length)
    | none =>
      match vectors.find? fun v => (a.nodeToVector.lookup v.1).isSome with
      | some (nodeId, _) => .error (.duplicateNodeId nodeId)
      | none => .ok ()

/-- Take the mappings out again. -/
def rollback (a : InMemANNAdapter) (insertedMappings : List (Nat × Nat)) : InMemANNAdapter :=
  insertedMappings.foldl (fun a (nodeId, vectorId) =>
    { a with
      nodeToVector := assocErase nodeId a.nodeToVector
      vectorToNode := a.vectorToNode.remove vectorId }) a

/-- `fetch_add` and `fetch_sub` wrap around. -/
def wrappingAdd (x y : Nat) : Nat := (x + y) % 2 ^ 32

def wrappingSub (x y : Nat) : Nat := (x + (2 ^ 32 - y % 2 ^ 32)) % 2 ^ 32

def giveBack (a : InMemANNAdapter) (count : Nat) : InMemANNAdapter :=
  { a with nextVectorId := wrappingSub a.nextVectorId count }

/-- The loop of `insert`. A vector id past the last `u32` panics. -/
def insertLoop (baseVectorId : Nat) : List (Nat × Nat) → List (Nat × Nat) → InMemANNAdapter →
    Option (InMemANNAdapter × Except VectorIndexError (List (Nat × Nat)))
  | [], insertedMappings, a => some (a, .ok insertedMappings)
  | (nodeId, arrayIndex) :: rest, insertedMappings, a =>
    if 2 ^ 32 ≤ baseVectorId + arrayIndex then none
    else
      let vectorId := baseVectorId + arrayIndex
      let a := { a with nodeToVector := assocInsert nodeId vectorId a.nodeToVector }
      match a.vectorToNode.set vectorId nodeId with
      | .error e => some ((a.rollback insertedMappings).giveBack (arrayIndex + 1), .error e)
      | .ok m => insertLoop baseVectorId rest (insertedMappings ++ [(nodeId, vectorId)])
          { a with vectorToNode := m }

/-- DiskANN has no id for a vector past `u32::MAX` of them. -/
def insert (a : InMemANNAdapter) (vectors : List (Nat × List F32)) (accepts : Bool) :
    Option (InMemANNAdapter × Except VectorIndexError Unit) :=
  if vectors.isEmpty then some (a, .ok ())
  else
    match a.checkInsert vectors with
    | .error e => some (a, .error e)
    | .ok () =>
      let baseVectorId := a.nextVectorId
      let a := { a with nextVectorId := wrappingAdd baseVectorId vectors.length }
      match insertLoop baseVectorId ((vectors.map Prod.fst).zipIdx) [] a with
      | none => none
      | some (a, .error e) => some (a, .error e)
      | some (a, .ok insertedMappings) =>
        if accepts && decide (baseVectorId + vectors.length < 2 ^ 32) then some (a, .ok ())
        else some ((a.rollback insertedMappings).giveBack vectors.length, .error .build)

/-- The vector of a vertex that both maps know. -/
def vectorToDelete (a : InMemANNAdapter) (nodeId : Nat) : Except VectorIndexError Nat :=
  match a.nodeToVector.lookup nodeId with
  | none => .error (.nodeIdNotFound nodeId)
  | some vectorId =>
    if a.vectorToNode.containsKey vectorId then .ok vectorId else .error (.nodeIdNotFound nodeId)

def softDelete (a : InMemANNAdapter) (nodeIds : List Nat) (accepts : Bool) :
    InMemANNAdapter × Except VectorIndexError Unit :=
  if nodeIds.isEmpty then (a, .ok ())
  else if a.nodeToVector.isEmpty then (a, .error .indexNotBuilt)
  else
    match nodeIds.mapM a.vectorToDelete with
    | .error e => (a, .error e)
    | .ok vectorIdsToDelete =>
      if accepts then
        let r := a.vectorToNode.batchSoftDelete vectorIdsToDelete
        ({ a with
          vectorToNode := r.1
          nodeToVector := r.2.foldl (fun l nodeId => assocErase nodeId l) a.nodeToVector },
          .ok ())
      else (a, .error .diskANN)

end InMemANNAdapter

/-- A call on the index, and whether DiskANN accepts what it is asked for. -/
inductive Call (F32 : Type) where
  | build (vectors : List (Nat × List F32)) (accepts : Bool)
  | insert (vectors : List (Nat × List F32)) (accepts : Bool)
  | softDelete (nodeIds : List Nat) (accepts : Bool)

/-- The adapter after a call, and what the call returns. -/
def Call.run {F32 : Type} (a : InMemANNAdapter) :
    Call F32 → Option (InMemANNAdapter × Except VectorIndexError Unit)
  | .build vectors accepts => some (a.build vectors accepts)
  | .insert vectors accepts => a.insert vectors accepts
  | .softDelete nodeIds accepts => some (a.softDelete nodeIds accepts)

def Step {F32 : Type} (a : InMemANNAdapter) (call : Call F32) (a' : InMemANNAdapter) : Prop :=
  (call.run a).map Prod.fst = some a'

end InMemANN

end MiniGU
