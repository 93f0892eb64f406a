import MiniGU.Model.InMemANN

/-!
# The catalog of vector indexes (`context/src/graph.rs`)

A graph keeps what is known of its vector indexes in two maps, by key and by name, and the indexes
themselves in its storage (`storage/src/tp/memory_graph.rs`). `createVectorIndex` and
`dropVectorIndex` change both, one call at a time.

The vertices that a transaction sees, and whether DiskANN takes them, are given with each call. The
storage may refuse to delete an index as the type of the call allows, which it never does so far.
-/

namespace MiniGU

namespace IndexCatalog

open InMemANN

inductive VectorMetric where
  | l2
deriving DecidableEq, Repr

structure VectorIndexCatalogEntry where
  name : String
  key : VectorIndexKey
  metric : VectorMetric
  dimension : Nat
deriving DecidableEq, Repr

/-! ## The catalog -/

structure IndexCatalogState where
  entries : VectorIndexKey → Option VectorIndexCatalogEntry
  nameToIndex : String → Option VectorIndexKey

namespace IndexCatalogState

def new : IndexCatalogState := ⟨fun _ => none, fun _ => none⟩

def getVectorIndex (c : IndexCatalogState) (key : VectorIndexKey) :
    Option VectorIndexCatalogEntry :=
  c.entries key

def getVectorIndexByName (c : IndexCatalogState) (name : String) :
    Option VectorIndexCatalogEntry :=
  (c.nameToIndex name).bind c.entries

/-- The name is entered without a look at whether it leads elsewhere. -/
def insertVectorIndex (c : IndexCatalogState) (entry : VectorIndexCatalogEntry) :
    IndexCatalogState × Bool :=
  match c.entries entry.key with
  | some _ => (c, false)
  | none =>
    ({ entries := Function.update c.entries entry.key (some entry)
       nameToIndex := Function.update c.nameToIndex entry.name (some entry.key) }, true)

def removeVectorIndex (c : IndexCatalogState) (key : VectorIndexKey) : IndexCatalogState × Bool :=
  match c.entries key with
  | none => (c, false)
  | some entry =>
    ({ entries := Function.update c.entries key none
       nameToIndex := Function.update c.nameToIndex entry.name none }, true)

end IndexCatalogState

/-! ## The storage -/

inductive StorageError (E : Type) where
  | transaction (e : E)
  | vectorIndex (e : VectorIndexError)
  | delete (e : E)
deriving DecidableEq, Repr

/-- What a build finds: the vectors of the vertices with the label, and DiskANN's answers. -/
structure Dataset (E F32 : Type) where
  vectors : Except E (List (Nat × List F32))
  created : Bool
  accepts : Bool

abbrev VectorIndices := VectorIndexKey → Option InMemANNAdapter

variable {E F32 : Type}

def buildVectorIndex (indices : VectorIndices) (data : Dataset E F32) (indexKey : VectorIndexKey) :
    Except (StorageError E) VectorIndices :=
  match data.vectors with
  | .error e => .error (.transaction e)
  | .ok [] => .error (.vectorIndex .emptyDataset)
  | .ok ((nodeId, first) :: rest) =>
    let dimension := first.length
    match rest.find? fun vector => vector.2.length ≠ dimension with
    | some vector => .error (.vectorIndex (.invalidDimension dimension vector.2.length))
    | none =>
      if dimension = 104 ∨ dimension = 128 ∨ dimension = 256 then
        if data.created then
          match (InMemANNAdapter.new dimension).build ((nodeId, first) :: rest) data.accepts with
          | (_, .error e) => .error (.vectorIndex e)
          | (adapter, .ok ()) => .ok (Function.update indices indexKey (some adapter))
        else .error (.vectorIndex .diskANN)
      else
        .error (.vectorIndex (.unsupportedOperation ("Dimension " ++ toString dimension ++
          " not supported. Only dimensions 104, 128, 256 are supported.")))

/-- `failure` is what the call fails with, if it does. -/
def deleteVectorIndex (indices : VectorIndices) (failure : Option E) (indexKey : VectorIndexKey) :
    Except (StorageError E) (VectorIndices × Bool) :=
  match failure with
  | some e => .error (.delete e)
  | none => .ok (Function.update indices indexKey none, (indices indexKey).isSome)

/-! ## The calls -/

inductive IndexCatalogError (E : Type) where
  | storage (e : StorageError E)
  | vectorIndexNameAlreadyExists (name : String)
deriving DecidableEq, Repr

/-- A graph: the catalog of its container, and its storage. -/
structure GraphContainer where
  indexCatalog : IndexCatalogState
  vectorIndices : VectorIndices

namespace GraphContainer

def new : GraphContainer := ⟨.new, fun _ => none⟩

def createVectorIndex (g : GraphContainer) (entry : VectorIndexCatalogEntry)
    (data : Dataset E F32) : GraphContainer × Except (IndexCatalogError E) Bool :=
  if (g.indexCatalog.getVectorIndex entry.key).isSome then (g, .ok false)
  else
    match g.indexCatalog.getVectorIndexByName entry.name with
    | some existing =>
      if existing.key = entry.key then (g, .ok false)
      else (g, .error (.vectorIndexNameAlreadyExists entry.name))
    | none =>
      match g.indexCatalog.insertVectorIndex entry with
      | (_, false) => (g, .ok false)
      | (catalog, true) =>
        match buildVectorIndex g.vectorIndices data entry.key with
        | .error err =>
          ({ g with indexCatalog := (catalog.removeVectorIndex entry.key).1 },
            .error (.storage err))
        | .ok indices => (⟨catalog, indices⟩, .ok true)

def dropVectorIndex (g : GraphContainer) (key : VectorIndexKey)
    (rollbackMeta : Option VectorIndexCatalogEntry) (failure : Option E) :
    GraphContainer × Except (IndexCatalogError E) Bool :=
  match g.indexCatalog.removeVectorIndex key with
  | (_, false) => (g, .ok false)
  | (catalog, true) =>
    match deleteVectorIndex g.vectorIndices failure key with
    | .error err =>
      match rollbackMeta with
      | some entry =>
        ({ g with indexCatalog := (catalog.insertVectorIndex entry).1 }, .error (.storage err))
      | none => ({ g with indexCatalog := catalog }, .error (.storage err))
    | .ok (indices, _) => (⟨catalog, indices⟩, .ok true)

end GraphContainer

inductive Call (E F32 : Type) where
  | create (entry : VectorIndexCatalogEntry) (data : Dataset E F32)
  | drop (key : VectorIndexKey) (rollbackMeta : Option VectorIndexCatalogEntry)
      (failure : Option E)

def Call.run (g : GraphContainer) :
    Call E F32 → GraphContainer × Except (IndexCatalogError E) Bool
  | .create entry data => g.createVectorIndex entry data
  | .drop key rollbackMeta failure => g.dropVectorIndex key rollbackMeta failure

end IndexCatalog

end MiniGU
