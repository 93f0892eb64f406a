import MiniGU.Model.PathPattern
import MiniGU.Model.Txn

/-!
# Query executors as streams

Node scans, expands, vertex property scans and limits as `build_executor` chains them
(`gql/execution/src/builder.rs`). An executor is a generator that is pulled chunk by chunk; it is
a tree here, whose nodes hand out a chunk or call one of the three sources of a graph. What a
source answers is left open, so that the same tree runs over the storage with its transactions
and over a graph that changes between two calls.

A property value is a `V`; how a column of them becomes an array is a parameter.
-/

namespace MiniGU

/-! ## Chunks with properties -/

inductive Datum (V : Type) where
  | cell (c : Cell)
  | value (v : V)
deriving DecidableEq, Repr

inductive DatumType (Ty : Type) where
  | cell (t : CellType)
  | value (t : Ty)
deriving DecidableEq, Repr

abbrev QueryColumn (Ty V : Type) := ArrayRef (DatumType Ty) (Datum V)
abbrev QueryChunk (Ty V : Type) := DataChunk (DatumType Ty) (Datum V)

variable {Ty V : Type}

def cellColumn (c : Column) : QueryColumn Ty V := ⟨.cell c.dataType, c.values.map .cell⟩

def valueColumn (a : ArrayRef Ty V) : QueryColumn Ty V := ⟨.value a.dataType, a.values.map .value⟩

def Datum.cell? : Datum V → Option Cell
  | .cell c => some c
  | .value _ => none

/-- The column read as one of ids or of lists of ids. -/
def asCells (c : QueryColumn Ty V) : Option Column :=
  match c.dataType with
  | .cell t => (c.values.mapM Datum.cell?).map fun values => ⟨t, values⟩
  | .value _ => none

/-- `slice(offset, length)`. -/
def DataChunk.slice (c : QueryChunk Ty V) (offset length : Nat) : QueryChunk Ty V where
  columns := c.takeRows ((List.range length).map fun i => offset + i)
  filter := c.filter.map fun f => (f.drop offset).take length
  curIdx := some 0

/-! ## Calls to the sources -/

inductive SourceCall where
  | vertexSource (labelIds : Option (Cubes Nat)) (batchSize : Nat)
  | expandFromVertex (vertex : Nat) (edgeLabels targetVertexLabels : Option (Cubes Nat))
  | scanVertexProperties (vertices : List Nat) (propertyList : List Nat)
deriving DecidableEq, Repr

inductive QueryError where
  | executor (e : ExecutionError)
  | storage (e : StorageError)
deriving DecidableEq, Repr

/-- What a source returns. -/
def SourceCall.Answer (Ty V : Type) : SourceCall → Type
  | .vertexSource .. => Except StorageError (List (List Nat))
  | .expandFromVertex .. => Option (List (List (List Nat)))
  | .scanVertexProperties .. => Except StorageError (List (ArrayRef Ty V))

/-! ## Streams -/

inductive ChunkStream (Ty V : Type) where
  | exhausted
  | failed (e : QueryError)
  | chunk (c : QueryChunk Ty V) (rest : ChunkStream Ty V)
  | call (c : SourceCall) (next : c.Answer Ty V → ChunkStream Ty V)

namespace ChunkStream

def panicked : ChunkStream Ty V := .failed (.executor .panicked)

def append : ChunkStream Ty V → ChunkStream Ty V → ChunkStream Ty V
  | exhausted, s => s
  | failed e, _ => failed e
  | chunk c rest, s => chunk c (rest.append s)
  | call c next, s => call c fun a => (next a).append s

/-- `for chunk in child.into_iter()` with a body that hands out chunks itself. -/
def forEach (body : QueryChunk Ty V → ChunkStream Ty V) : ChunkStream Ty V → ChunkStream Ty V
  | exhausted => exhausted
  | failed e => failed e
  | chunk c rest => (body c).append (rest.forEach body)
  | call c next => call c fun a => (next a).forEach body

def ofList : List (ChunkStream Ty V) → ChunkStream Ty V
  | [] => exhausted
  | s :: rest => s.append (ofList rest)

/-- A body that makes one chunk of a chunk, or fails. -/
def ofResult : ExecutionResult (QueryChunk Ty V) → ChunkStream Ty V
  | .ok c => chunk c exhausted
  | .error e => failed (.executor e)

end ChunkStream

/-! ## The executors -/

namespace QueryExecutor

/-- `scan_vertex` over the batches of `vertex_source`. -/
def scanVertex (batches : List (List Nat)) : ChunkStream Ty V :=
  .ofList (batches.map fun vertices =>
    if vertices = [] then .exhausted
    else .chunk (DataChunk.new [cellColumn (idColumn vertices)]) .exhausted)

/-- The row `i` of a chunk with the neighbours of the vertex that stands there. -/
def expandRow (edgeLabels targetVertexLabels : Option (Cubes Nat)) (chunk : QueryChunk Ty V)
    (vertex i : Nat) : ChunkStream Ty V :=
  .call (.expandFromVertex vertex edgeLabels targetVertexLabels) fun
    | none => .exhausted
    | some expandIter => .ofList (expandIter.map fun neighborColumns =>
      .ofResult ((chunk.slice i 1).appendColumns
        (neighborColumns.map fun column => cellColumn (listColumn [column]))))

def expandChunk (inputColumnIndex : Nat) (edgeLabels targetVertexLabels : Option (Cubes Nat))
    (c : QueryChunk Ty V) : ChunkStream Ty V :=
  let chunk := c.compact
  if chunk.len = 0 then .exhausted
  else
    match (chunk.columns[inputColumnIndex]?.bind asCells).bind asPrimitive with
    | none => .panicked
    | some inputColumn => .ofList (inputColumn.zipIdx.map fun p =>
      expandRow edgeLabels targetVertexLabels chunk p.1 p.2)

def flattenChunk (columnIndices : List Nat) (c : QueryChunk Ty V) :
    ExecutionResult (QueryChunk Ty V) :=
  let chunk := c.compact
  match columnIndices.mapM fun i => (chunk.columns[i]?.bind asCells).bind asList with
  | none => .error .panicked
  | some columnsToFlatten =>
    let counts := (columnsToFlatten.head?.getD []).map List.length
    if columnsToFlatten.all fun segments => segments.map List.length == counts then
      if chunk.len = 0 then .error .nothingToConcat
      else
        let indices := counts.zipIdx.flatMap fun (n, i) => List.replicate n i
        let newColumns := chunk.columns.zipIdx.map fun (column, i) =>
          match columnIndices.idxOf? i with
          | some j => cellColumn (idColumn (columnsToFlatten[j]?.getD []).flatten)
          | none => { column with values := indices.filterMap fun i => column.values[i]? }
        .ok (DataChunk.new newColumns)
    else .error .panicked

/-- `scan_vertex_property` on one chunk. -/
def scanPropertyChunk (inputColumnIndex : Nat) (properties : List Nat) (c : QueryChunk Ty V) :
    ChunkStream Ty V :=
  let chunk := c.compact
  if chunk.len = 0 then .exhausted
  else
    match (chunk.columns[inputColumnIndex]?.bind asCells).bind asPrimitive with
    | none => .panicked
    | some inputColumn =>
      .call (.scanVertexProperties inputColumn properties) fun
        | .error e => .failed (.storage e)
        | .ok columns => .ofResult (chunk.appendColumns (columns.map valueColumn))

/-- `limit`, with `count` rows handed out so far. -/
def limitFrom (limit count : Nat) : ChunkStream Ty V → ChunkStream Ty V
  | .exhausted => .exhausted
  | .failed e => .failed e
  | .chunk c rest =>
    if limit ≤ count then .exhausted
    else if c.len ≤ limit - count then .chunk c (limitFrom limit (count + c.len) rest)
    else .chunk (c.slice 0 (limit - count)) .exhausted
  | .call c next => .call c fun a => limitFrom limit count (next a)

end QueryExecutor

/-! ## Plans -/

/-- A chain of operators over one node scan. An expand is given the number of its child's
columns. -/
inductive QueryPlan where
  | nodeScan (labels : Cubes Nat)
  | expand (child : QueryPlan) (inputColumnIndex numChildColumns : Nat) (edgeLabels : Cubes Nat)
      (targetVertexLabels : Option (Cubes Nat))
  | vertexPropertyFetch (child : QueryPlan) (bindingIdx : Nat) (propertyIds : List Nat)
  | limit (child : QueryPlan) (limit : Nat)
deriving DecidableEq, Repr

namespace QueryPlan

/-- The labels of the node scan at the bottom. -/
def scanLabels : QueryPlan → Cubes Nat
  | nodeScan labels => labels
  | expand child .. => child.scanLabels
  | vertexPropertyFetch child .. => child.scanLabels
  | limit child _ => child.scanLabels

/-- The operators over the scan, as `build_executor` wraps them. -/
def wrap (scan : ChunkStream Ty V) : QueryPlan → ChunkStream Ty V
  | nodeScan _ => scan
  | expand child inputColumnIndex numChildColumns edgeLabels targetVertexLabels =>
    ((child.wrap scan).forEach (QueryExecutor.expandChunk inputColumnIndex (some edgeLabels)
      targetVertexLabels)).forEach fun c =>
        .ofResult (QueryExecutor.flattenChunk [numChildColumns, numChildColumns + 1] c)
  | vertexPropertyFetch child bindingIdx propertyIds =>
    (child.wrap scan).forEach (QueryExecutor.scanPropertyChunk bindingIdx propertyIds)
  | limit child n => QueryExecutor.limitFrom n 0 (child.wrap scan)

/-- `build_executor`: the vertices are fetched while the tree is built, and a failure panics. -/
def build (plan : QueryPlan) : ChunkStream Ty V :=
  .call (.vertexSource (some plan.scanLabels) 1024) fun
    | .error _ => .panicked
    | .ok batches => plan.wrap (QueryExecutor.scanVertex batches)

end QueryPlan

/-! ## The sources over the storage -/

namespace MemoryGraph

/-- `begin_transaction(IsolationLevel::Serializable)`. -/
def beginSerializable (g : MemoryGraph V) : Outcome V MemTransaction :=
  g.beginTransactionAt none none .serializable g.txnManager.defaultLockStrategy false

/-- The graph after a call, the transaction that it began, and its answer. -/
structure Called (V α : Type) where
  graph : MemoryGraph V
  begun : Option MemTransaction
  answer : α

/-- The loop of `vertex_source` over the vertices that the scan has found. -/
def keepLabelled (txn : MemTransaction) (labelIds : Option (Cubes Nat)) (g : MemoryGraph V) :
    List Nat → Outcome V (List Nat)
  | [] => (g, .ok [])
  | vid :: vids =>
    let g' := if labelIds.isSome then g.noteRead txn .vertex vid else g
    match g.vertexHasAllLabels txn vid labelIds with
    | .error e => (g', .error e)
    | .ok kept =>
      match keepLabelled txn labelIds g' vids with
      | (g', .error e) => (g', .error e)
      | (g', .ok rest) => (g', .ok (if kept then vid :: rest else rest))

/-- `vertex_source`; the vertex map lists its keys as `keys g`. -/
def vertexSource (keys : MemoryGraph V → List Nat) (g : MemoryGraph V)
    (labelIds : Option (Cubes Nat)) (batchSize : Nat) :
    Called V (Except StorageError (List (List Nat))) :=
  match g.beginSerializable with
  | (g, .error e) => ⟨g, none, .error e⟩
  | (g, .ok txn) =>
    let (g', items) := g.iterVertices txn (keys g) fun _ => true
    match keepLabelled txn labelIds g' (items.map Vertex.vid) with
    | (g', .error e) => ⟨g', some txn, .error e⟩
    | (g', .ok ids) => ⟨g', some txn, .ok (batches batchSize (ids.insertionSort (· ≤ ·)))⟩

/-- The reads of the target filter of `expand_from_vertex`. -/
def noteTargets (g : MemoryGraph V) (txn : MemTransaction)
    (targetVertexLabels : Option (Cubes Nat)) (neighbors : List Neighbor) : MemoryGraph V :=
  match targetVertexLabels with
  | none => g
  | some _ => neighbors.foldl (fun h n => h.noteRead txn .vertex n.neighborId) g

/-- `expand_from_vertex` with its transaction; the iterator that it returns keeps the
transaction. -/
def expandVertex (g : MemoryGraph V) (vertex : Nat)
    (edgeLabels targetVertexLabels : Option (Cubes Nat)) :
    Called V (Option (List (List (List Nat)))) :=
  match g.beginSerializable with
  | (g, .error _) => ⟨g, none, none⟩
  | (g, .ok txn) =>
    let (g', found) := g.getVertex txn vertex
    match found with
    | .error _ => ⟨g', some txn, none⟩
    | .ok _ =>
      let g' := g'.noteTargets txn targetVertexLabels
        (g.iterAdjacency txn vertex .outgoing (edgeLabelAllowed edgeLabels))
      ⟨g', some txn, (g.expandFromVertex txn vertex edgeLabels targetVertexLabels).map
        fun neighbors => (batches 64 neighbors).map fun batch =>
          [batch.map Neighbor.eid, batch.map Neighbor.neighborId]⟩

/-- Read the vertices one by one, up to the first that fails. -/
def readVertices (txn : MemTransaction) (g : MemoryGraph V) :
    List Nat → Outcome V (List (Vertex V))
  | [] => (g, .ok [])
  | vid :: vids =>
    match g.getVertex txn vid with
    | (g, .error e) => (g, .error e)
    | (g, .ok v) =>
      match readVertices txn g vids with
      | (g, .error e) => (g, .error e)
      | (g, .ok vs) => (g, .ok (v :: vs))

/-- The value that the loop over one property takes from a vertex. -/
def propertyOf (null : V) (propId : Nat) (v : Vertex V) : V :=
  if v.isTombstone then null else v.properties[propId]?.getD null

/-- The loop over the properties. -/
def readColumns (null : V) (toArray : List V → ArrayRef Ty V) (txn : MemTransaction)
    (vertices : List Nat) (g : MemoryGraph V) :
    List Nat → Outcome V (List (ArrayRef Ty V))
  | [] => (g, .ok [])
  | propId :: propIds =>
    match readVertices txn g vertices with
    | (g, .error e) => (g, .error e)
    | (g, .ok vs) =>
      match readColumns null toArray txn vertices g propIds with
      | (g, .error e) => (g, .error e)
      | (g, .ok columns) => (g, .ok (toArray (vs.map (propertyOf null propId)) :: columns))

/-- An empty property list stands for all the properties of the first vertex. -/
def allProperties (txn : MemTransaction) (g : MemoryGraph V) :
    List Nat → Outcome V (List Nat)
  | [] => (g, .ok [])
  | first :: _ =>
    match g.getVertex txn first with
    | (g, .error e) => (g, .error e)
    | (g, .ok sample) => (g, .ok (List.range (Vertex.properties sample).length))

def scanVertexProperties (null : V) (toArray : List V → ArrayRef Ty V) (g : MemoryGraph V)
    (vertices propertyList : List Nat) : Called V (Except StorageError (List (ArrayRef Ty V))) :=
  match g.beginSerializable with
  | (g, .error e) => ⟨g, none, .error e⟩
  | (g, .ok txn) =>
    match (if propertyList = [] then allProperties txn g vertices else (g, .ok propertyList)) with
    | (g, .error e) => ⟨g, some txn, .error e⟩
    | (g, .ok propertyList) =>
      let (g, columns) := readColumns null toArray txn vertices g propertyList
      ⟨g, some txn, columns⟩

/-- The answer of a graph container to a call. -/
def answer (null : V) (toArray : List V → ArrayRef Ty V) (keys : MemoryGraph V → List Nat)
    (g : MemoryGraph V) : (c : SourceCall) → Called V (c.Answer Ty V)
  | .vertexSource labelIds batchSize => g.vertexSource keys labelIds batchSize
  | .expandFromVertex vertex edgeLabels targetVertexLabels =>
    g.expandVertex vertex edgeLabels targetVertexLabels
  | .scanVertexProperties vertices propertyList =>
    g.scanVertexProperties null toArray vertices propertyList

end MemoryGraph

/-! ## Executing a query -/

/-- How the consumer of an executor ends: nothing more comes, an error or a panic came, or it
stopped pulling. -/
inductive Ending where
  | exhausted
  | failed (e : QueryError)
  | stopped
deriving DecidableEq, Repr

structure Execution (Ty V : Type) where
  graph : MemoryGraph V
  begun : List MemTransaction
  chunks : List (QueryChunk Ty V)
  ending : Ending

section Execute

variable (null : V) (toArray : List V → ArrayRef Ty V) (keys : MemoryGraph V → List Nat)

/-- Pull `pulls` chunks, or fewer where the stream ends before. -/
def ChunkStream.run : ChunkStream Ty V → Nat → MemoryGraph V → Execution Ty V
  | _, 0, g => ⟨g, [], [], .stopped⟩
  | exhausted, _ + 1, g => ⟨g, [], [], .exhausted⟩
  | failed e, _ + 1, g => ⟨g, [], [], .failed e⟩
  | chunk c rest, pulls + 1, g =>
    let out := rest.run pulls g
    { out with chunks := c :: out.chunks }
  | call c next, pulls + 1, g =>
    let called := g.answer null toArray keys c
    let out := (next called.answer).run (pulls + 1) called.graph
    { out with begun := called.begun.toList ++ out.begun }

/-- Build the executor of a plan and pull from it. -/
def QueryPlan.execute (plan : QueryPlan) (pulls : Nat) (g : MemoryGraph V) : Execution Ty V :=
  let called := g.vertexSource keys (some plan.scanLabels) 1024
  let out : Execution Ty V := match called.answer with
    | .error _ => ⟨called.graph, [], [], .failed (.executor .panicked)⟩
    | .ok batches =>
      (plan.wrap (QueryExecutor.scanVertex batches)).run null toArray keys pulls called.graph
  { out with begun := called.begun.toList ++ out.begun }

end Execute

end MiniGU
