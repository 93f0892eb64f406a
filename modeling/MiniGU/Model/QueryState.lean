import MiniGU.Lib.Run
import MiniGU.Model.QueryPlan

/-!
# A query among commits

One query runs while other transactions commit. Every call of its executor to a source begins a
transaction of its own and reads the graph as it is committed at that moment, so the calls are
the only places where the query looks at the graph, each at one state of it.
-/

namespace MiniGU

variable {V Ty : Type}

namespace GraphView

variable (view : GraphView V)

def isLabelled (labelIds : Option (Cubes Nat)) (v : Vertex V) : Bool :=
  match labelIds with
  | none => true
  | some specs => specsContain specs v.labelId

/-- The vertices that `vertex_source` lists. -/
def labelledVertices (labelIds : Option (Cubes Nat)) : List Nat :=
  (view.vertices.filter (isLabelled labelIds)).map Vertex.vid

def readVertex (vid : Nat) : Except StorageError (Vertex V) :=
  match view.getVertex vid with
  | none => .error (.notFound .vertex vid)
  | some v => .ok v

/-- An empty property list stands for all the properties of the first vertex. -/
def propertiesOf (vertices : List Nat) : Except StorageError (List Nat) :=
  match vertices with
  | [] => .ok []
  | first :: _ => (view.readVertex first).map fun v => List.range v.properties.length

def scanVertexProperties (null : V) (toArray : List V → ArrayRef Ty V)
    (vertices propertyList : List Nat) : Except StorageError (List (ArrayRef Ty V)) := do
  let propertyList ← if propertyList = [] then view.propertiesOf vertices else .ok propertyList
  propertyList.mapM fun propId => do
    let vs ← vertices.mapM view.readVertex
    .ok (toArray (vs.map (MemoryGraph.propertyOf null propId)))

/-- The answer to a call whose transaction reads `view`. -/
def answer (null : V) (toArray : List V → ArrayRef Ty V) : (c : SourceCall) → c.Answer Ty V
  | .vertexSource labelIds batchSize =>
    .ok (batches batchSize ((view.labelledVertices labelIds).insertionSort (· ≤ ·)))
  | .expandFromVertex vertex edgeLabels targetVertexLabels =>
    view.expandFromVertex vertex edgeLabels targetVertexLabels
  | .scanVertexProperties vertices propertyList =>
    view.scanVertexProperties null toArray vertices propertyList

end GraphView

/-- The whole query on one state of the graph. -/
def ChunkStream.evaluate (null : V) (toArray : List V → ArrayRef Ty V) (view : GraphView V) :
    ChunkStream Ty V → List (QueryChunk Ty V) × Ending
  | exhausted => ([], .exhausted)
  | failed e => ([], .failed e)
  | chunk c rest =>
    let out := rest.evaluate null toArray view
    (c :: out.1, out.2)
  | call c next => (next (view.answer null toArray c)).evaluate null toArray view

/-- The committed graph, the state of it that the node scan has read, what the executor has
still to do, and the chunks it has handed out. -/
structure QueryState (Ty V : Type) where
  committed : GraphView V
  scanned : Option (GraphView V)
  todo : ChunkStream Ty V
  out : List (QueryChunk Ty V)

/-- Another transaction commits, or the query moves on. -/
inductive QueryAction (V : Type) where
  | commit (view : GraphView V)
  | advance

namespace QueryState

def start (plan : QueryPlan) (view : GraphView V) : QueryState Ty V := ⟨view, none, plan.build, []⟩

def next (null : V) (toArray : List V → ArrayRef Ty V) (s : QueryState Ty V) :
    QueryAction V → Option (QueryState Ty V)
  | .commit view => some { s with committed := view }
  | .advance =>
    match s.todo with
    | .exhausted => none
    | .failed _ => none
    | .chunk c rest => some { s with todo := rest, out := s.out ++ [c] }
    | .call c k => some { s with
        scanned := some (s.scanned.getD s.committed)
        todo := k (s.committed.answer null toArray c) }

def Step (null : V) (toArray : List V → ArrayRef Ty V) (s : QueryState Ty V) (a : QueryAction V)
    (s' : QueryState Ty V) : Prop := s.next null toArray a = some s'

/-- How the query has ended, if it has. -/
def ending (s : QueryState Ty V) : Option Ending :=
  match s.todo with
  | .exhausted => some .exhausted
  | .failed e => some (.failed e)
  | .chunk .. => none
  | .call .. => none

end QueryState

end MiniGU
