import MiniGU.Model.Server

/-!
# Checkpoints and recovery

`GraphCheckpoint::new` and `restore` (`tp/checkpoint.rs`), and `recover`,
`apply_wal_entries` and `create_checkpoint` of `memory_graph.rs`.

A checkpoint is taken while no transaction is active, and `write_checkpoint` starts the log
of the file anew, so the log of the graph is what the file holds after the last checkpoint.
The maps of a checkpoint are association lists; the order in which a `DashMap` lists its
keys is not specified, so `GraphCheckpoint.new` takes it as an argument. The wall clock and
the version of the metadata are read by nobody and left out.

Replay runs through the ordinary interface in a process that has just started: its
generators are at their initial values.
-/

namespace MiniGU

variable {V : Type}

structure CheckpointMetadata where
  lsn : Nat
  latestCommitTs : Nat
deriving DecidableEq, Repr

/-- The pairs of an edge id and the vertex at the other end. -/
structure SerializedAdjacency where
  outgoing : List (Nat × Nat)
  incoming : List (Nat × Nat)
deriving DecidableEq, Repr

/-- `SerializedVertex` and `SerializedEdge` hold what the head of a chain holds. -/
structure GraphCheckpoint (V : Type) where
  metadata : CheckpointMetadata
  vertices : List (Nat × CurrentVersion (Vertex V))
  edges : List (Nat × CurrentVersion (Edge V))
  adjacencyList : List (Nat × SerializedAdjacency)
deriving DecidableEq, Repr

/-- The orders in which the three maps of a graph list their keys. -/
structure MapKeys where
  vertices : List Nat
  edges : List Nat
  adjacencyList : List Nat

namespace MemoryGraph

/-- The keys of the three maps, each once. -/
structure ListsMaps (g : MemoryGraph V) (keys : MapKeys) : Prop where
  vertices : g.ListsKeys .vertex keys.vertices
  edges : g.ListsKeys .edge keys.edges
  adjacencyNodup : keys.adjacencyList.Nodup
  adjacencyList : ∀ vid, vid ∈ keys.adjacencyList ↔ (g.adjacencyList vid).isSome = true

end MemoryGraph

/-! ## Taking and restoring a checkpoint -/

def SerializedAdjacency.ofContainer (adj : AdjacencyContainer) : SerializedAdjacency where
  outgoing := adj.outgoing.map fun n => (n.eid, n.neighborId)
  incoming := adj.incoming.map fun n => (n.eid, n.neighborId)

namespace GraphCheckpoint

def new (g : MemoryGraph V) (keys : MapKeys) : GraphCheckpoint V where
  metadata := ⟨g.nextLsn, g.txnManager.latestCommitTs⟩
  vertices := keys.vertices.filterMap fun vid => (g.vertices vid).map fun c => (vid, c.current)
  edges := keys.edges.filterMap fun eid => (g.edges eid).map fun c => (eid, c.current)
  adjacencyList := keys.adjacencyList.filterMap fun vid =>
    (g.adjacencyList vid).map fun adj => (vid, .ofContainer adj)

end GraphCheckpoint

namespace MemoryGraph

/-- One adjacency set of a checkpoint; the label comes from the edge, which is unwrapped. -/
def restoreNeighbors (g : MemoryGraph V) (entries : List (Nat × Nat)) : Option (List Neighbor) :=
  entries.foldlM (fun ns p => (g.edges p.1).map fun c =>
    SkipList.insert Neighbor.lt ⟨c.current.data.labelId, p.2, p.1⟩ ns) []

def restoreAdjacency : MemoryGraph V → List (Nat × SerializedAdjacency) → Outcome V Unit
  | g, [] => (g, .ok ())
  | g, (vid, adj) :: rest =>
    match g.restoreNeighbors adj.outgoing, g.restoreNeighbors adj.incoming with
    | some outgoing, some incoming =>
      restoreAdjacency (g.setAdjacency vid (some ⟨incoming, outgoing⟩)) rest
    | _, _ => (g, .error .panicked)

/-- The vertices or the edges of a checkpoint: heads with nothing to undo. -/
def restoreHeads (k : Kind) (heads : List (Nat × CurrentVersion (Data V k))) (g : MemoryGraph V) :
    MemoryGraph V :=
  heads.foldl (fun h p => h.setChain k p.1 (some ⟨p.2, []⟩)) g

/-- `GraphCheckpoint::restore`. -/
def restore (g : MemoryGraph V) (checkpoint : GraphCheckpoint V) : Outcome V Unit :=
  let g := { g with nextLsn := checkpoint.metadata.lsn + 1 }
  let g := g.setLatestCommitTs checkpoint.metadata.latestCommitTs
  let g := g.restoreHeads .vertex checkpoint.vertices
  let g := g.restoreHeads .edge checkpoint.edges
  g.restoreAdjacency checkpoint.adjacencyList

/-! ## Replaying the log -/

/-- A delta of the log, through the operation that logged it. -/
def applyDelta (g : MemoryGraph V) (txn : MemTransaction) : DeltaOp V → Outcome V Unit
  | .createVertex vertex => g.createVertex txn vertex
  | .createEdge edge => g.createEdge txn edge
  | .delVertex vid => g.deleteVertex txn vid
  | .delEdge eid => g.deleteEdge txn eid
  | .setVertexProps vid op => g.setVertexProperty txn vid op.indices op.props
  | .setEdgeProps eid op => g.setEdgeProperty txn eid op.indices op.props
  -- `todo!()`
  | .addLabel _ => (g, .error .panicked)
  | .removeLabel _ => (g, .error .panicked)

/-- The handles that replay drops: a transaction that the manager does not hold any more
frees its undo buffer. -/
def dropHandles (g : MemoryGraph V) : MemoryGraph V :=
  { g with txns := fun t => if g.isHeld t then g.txns t else { g.txns t with undoBuffer := [] } }

/-- One turn of the loop of `apply_wal_entries`. `txn` is its variable of that name: the
transaction begun last, unless it has been finished. -/
def applyWalEntry [DecidableEq V] (g : MemoryGraph V) (txn : Option MemTransaction)
    (entry : RedoEntry V) : Outcome V (Option MemTransaction) :=
  let g := { g with nextLsn := entry.lsn + 1 }
  match entry.op, txn with
  | .beginTransaction startTs, _ =>
    match g.beginTransactionAt (some entry.txnId) (some startTs) entry.isoLevel
        g.txnManager.defaultLockStrategy true with
    | (g, .error e) => (g, .error e)
    | (g, .ok t) => (g, .ok (some t))
  | .commitTransaction commitTs, some t =>
    match g.commitAt t (some commitTs) true with
    | (g, .error e) => (g, .error e)
    | (g, .ok _) => ((g.markHandled t).dropHandles, .ok none)
  | .abortTransaction, some t =>
    match g.abortAt t true with
    | (g, .error e) => (g, .error e)
    | (g, .ok _) => ((g.markHandled t).dropHandles, .ok none)
  | .delta delta, some t =>
    match g.applyDelta t delta with
    | (g, .error e) => (g, .error e)
    | (g, .ok _) => (g, .ok (some t))
  -- without a transaction an entry is skipped
  | _, none => (g, .ok none)

def applyWalEntries [DecidableEq V] (g : MemoryGraph V) (txn : Option MemTransaction) :
    List (RedoEntry V) → Outcome V Unit
  | [] => (g, .ok ())
  | entry :: entries =>
    match g.applyWalEntry txn entry with
    | (g, .error e) => (g, .error e)
    | (g, .ok txn) => applyWalEntries g txn entries

/-- `recover`, given what the file holds: the checkpoint, if there is one, and the entries
of the log. -/
def recover [DecidableEq V] (g : MemoryGraph V) (checkpoint : Option (GraphCheckpoint V))
    (entries : List (RedoEntry V)) : Outcome V Unit :=
  match checkpoint with
  | none => g.applyWalEntries none entries
  | some c =>
    match g.restore c with
    | (g, .error e) => (g, .error e)
    | (g, .ok _) => g.applyWalEntries none entries

end MemoryGraph

/-! ## A graph with its file -/

/-- A graph and the checkpoint in its file; the log of the graph is the log of the file. -/
structure Session (V : Type) where
  graph : MemoryGraph V
  checkpoint : Option (GraphCheckpoint V)

/-- A call, or a checkpoint that lists the maps in the orders given. -/
inductive SessionAction (V : Type) where
  | call (a : Action V)
  | checkpoint (keys : MapKeys)

namespace Session

/-- A graph on a file that has just been made. -/
def new (gcThreshold : Option Nat) (lock : LockStrategy) (iso : IsolationLevel) : Session V :=
  ⟨.new gcThreshold lock iso, none⟩

/-- `create_checkpoint`, once it has waited for the active transactions. -/
def createCheckpoint (s : Session V) (keys : MapKeys) : Session V :=
  ⟨{ s.graph with wal := [] }, some (.new s.graph keys)⟩

def Step [DecidableEq V] (s : Session V) (a : SessionAction V) (s' : Session V) : Prop :=
  match a with
  | .call a => ∃ g, MemoryGraph.Step s.graph a g ∧ s' = { s with graph := g }
  | .checkpoint keys => s.graph.txnManager.activeTxns = [] ∧ s.graph.ListsMaps keys ∧
      s' = s.createCheckpoint keys

end Session

end MiniGU
