import Mathlib.Logic.Function.Basic
import MiniGU.Lib.AssocList
import MiniGU.Lib.SkipList
import MiniGU.Model.Data

/-!
# The state of a graph and its transactions

`MemoryGraph` (`storage/src/tp/memory_graph.rs`) with its `MemTxnManager`
(`txn_manager.rs`) and the transactions it hands out (`transaction.rs`).

* A `MemTransaction` is split in two: the fields fixed when it begins, passed
  around as the handle, and the buffers behind the handle's locks, kept in the graph
  under the transaction id (`TxnState`).
* An undo buffer owns its entries; the chains point to them weakly. A buffer is only
  ever appended to, drained as a whole (abort) or freed as a whole (the last handle
  is dropped), so an entry can be followed exactly while its owner's buffer is
  nonempty (`upgradable`).
* A hash map whose iteration order the code uses is an association list, a skip list
  a sorted list, and the maps of vertices, edges and adjacency are functions.
* The write-ahead log is the list of entries appended so far. Automatic checkpoints
  are off (`wal_threshold` 0).
-/

namespace MiniGU

variable {V : Type}

inductive IsolationLevel where
  | snapshot
  | serializable
deriving DecidableEq, Repr

inductive LockStrategy where
  | pessimistic
  | optimistic
deriving DecidableEq, Repr

/-- The errors of `storage/src/error.rs` that the modelled code returns, with the
values their texts are made from. `panicked` is not in the source's enumeration: it
stands for an `unwrap` or an index out of bounds that stops the thread. -/
inductive StorageError where
  | notFound (k : Kind) (id : Nat)
  | isTombstone (k : Kind) (id : Nat)
  | alreadyExists (k : Kind) (id : Nat)
  | writeWriteConflict (holder : Nat)
  | versionNotVisible (txnId : Nat)
  | readWriteConflict (k : Kind) (holder : Nat)
  | insertConflict (k : Kind) (id holder : Nat)
  | lockedConflict (k : Kind) (id holder : Nat)
  | guardConflict (k : Kind) (id guardTs current : Nat)
  | missingConflict (k : Kind) (id : Nat)
  | scheduledForDeletion (k : Kind) (id : Nat)
  | transactionNotFound (txnId : Nat)
  | transactionAlreadyCommitted (commitTs : Nat)
  | timestamp (e : TimestampError)
  | panicked
deriving DecidableEq, Repr

/-! ## Transactions -/

/-- The fields of `MemTransaction` that are set when it begins. -/
structure MemTransaction where
  txnId : Nat
  startTs : Nat
  isolationLevel : IsolationLevel
  lockStrategy : LockStrategy
deriving DecidableEq, Repr

/-- `WriteKind`, for the entities of one kind. -/
inductive WriteKind (D : Type) where
  | insert (data : D)
  | update (before after : D)
  | delete (before : D)
deriving DecidableEq, Repr

structure WriteIntent (D : Type) where
  guardTs : Nat
  kind : WriteKind D
deriving DecidableEq, Repr

inductive Operation (V : Type) where
  | beginTransaction (startTs : Nat)
  | commitTransaction (commitTs : Nat)
  | abortTransaction
  | delta (op : DeltaOp V)
deriving DecidableEq, Repr

structure RedoEntry (V : Type) where
  lsn : Nat
  txnId : Nat
  isoLevel : IsolationLevel
  op : Operation V
deriving DecidableEq, Repr

/-- The fields of `MemTransaction` that change while it runs. -/
structure TxnState (V : Type) where
  commitTs : Option Nat
  vertexReads : List Nat
  edgeReads : List Nat
  vertexWrites : List (Nat × WriteIntent (Vertex V))
  edgeWrites : List (Nat × WriteIntent (Edge V))
  undoBuffer : List (UndoEntry (DeltaOp V))
  redoBuffer : List (RedoEntry V)
  isHandled : Bool

namespace TxnState

def new : TxnState V where
  commitTs := none
  vertexReads := []
  edgeReads := []
  vertexWrites := []
  edgeWrites := []
  undoBuffer := []
  redoBuffer := []
  isHandled := false

def reads (s : TxnState V) : Kind → List Nat
  | .vertex => s.vertexReads
  | .edge => s.edgeReads

/-- Insert into the read set of kind `k`. -/
def insertRead (s : TxnState V) : Kind → Nat → TxnState V
  | .vertex, id => { s with vertexReads := if id ∈ s.vertexReads then s.vertexReads
                                            else s.vertexReads ++ [id] }
  | .edge, id => { s with edgeReads := if id ∈ s.edgeReads then s.edgeReads
                                        else s.edgeReads ++ [id] }

def writes (s : TxnState V) : (k : Kind) → List (Nat × WriteIntent (Data V k))
  | .vertex => s.vertexWrites
  | .edge => s.edgeWrites

def setWrites (s : TxnState V) : (k : Kind) → List (Nat × WriteIntent (Data V k)) → TxnState V
  | .vertex, ws => { s with vertexWrites := ws }
  | .edge, ws => { s with edgeWrites := ws }

/-- `lookup_vertex_write` and `lookup_edge_write`. -/
def lookupWrite (s : TxnState V) (k : Kind) (id : Nat) : Option (WriteIntent (Data V k)) :=
  (s.writes k).lookup id

end TxnState

/-! ## The graph -/

structure AdjacencyContainer where
  incoming : List Neighbor
  outgoing : List Neighbor
deriving DecidableEq, Repr

def AdjacencyContainer.new : AdjacencyContainer := ⟨[], []⟩

/-- `GC_TRIGGER_THRESHOLD`. -/
def gcTriggerThreshold : Nat := 50

/-- `MemTxnManager`: `active_txns` in the order of the transaction ids,
`committed_txns` in the order of the commit timestamps. `gcThreshold` is the number of
committed transactions at which the manager starts a collection by itself, in the code
`some gcTriggerThreshold`; `none` leaves every collection to its callers. -/
structure MemTxnManager where
  activeTxns : List MemTransaction
  committedTxns : List (Nat × MemTransaction)
  latestCommitTs : Nat
  watermark : Nat
  lastGcTs : Nat
  gcThreshold : Option Nat
  defaultLockStrategy : LockStrategy
  defaultIsolationLevel : IsolationLevel
deriving DecidableEq, Repr

abbrev VersionedVertex (V : Type) := VersionChain (Vertex V) (DeltaOp V)
abbrev VersionedEdge (V : Type) := VersionChain (Edge V) (DeltaOp V)

structure MemoryGraph (V : Type) where
  vertices : Nat → Option (VersionedVertex V)
  edges : Nat → Option (VersionedEdge V)
  adjacencyList : Nat → Option AdjacencyContainer
  txnManager : MemTxnManager
  txns : Nat → TxnState V
  wal : List (RedoEntry V)
  nextLsn : Nat
  timestampGenerator : GlobalTimestampGenerator
  transactionIdGenerator : TransactionIdGenerator

/-- What an operation leaves behind and returns. An error may come after part of the
operation has taken effect, so the graph is returned in both cases. -/
abbrev Outcome (V α : Type) := MemoryGraph V × Except StorageError α

def MemTxnManager.new (gcThreshold : Option Nat) (lock : LockStrategy) (iso : IsolationLevel) :
    MemTxnManager where
  activeTxns := []
  committedTxns := []
  latestCommitTs := 0
  watermark := 0
  lastGcTs := 0
  gcThreshold := gcThreshold
  defaultLockStrategy := lock
  defaultIsolationLevel := iso

namespace MemoryGraph

/-- An empty graph with the given transaction defaults, in a fresh process. -/
def new (gcThreshold : Option Nat) (lock : LockStrategy) (iso : IsolationLevel) :
    MemoryGraph V where
  vertices := fun _ => none
  edges := fun _ => none
  adjacencyList := fun _ => none
  txnManager := .new gcThreshold lock iso
  txns := fun _ => .new
  wal := []
  nextLsn := 1
  timestampGenerator := .new
  transactionIdGenerator := .new

/-- The map of kind `k`. -/
def chain (g : MemoryGraph V) : (k : Kind) → Nat → Option (VersionChain (Data V k) (DeltaOp V))
  | .vertex, id => g.vertices id
  | .edge, id => g.edges id

/-- Insert into, or remove from, the map of kind `k`. -/
def setChain (g : MemoryGraph V) :
    (k : Kind) → Nat → Option (VersionChain (Data V k) (DeltaOp V)) → MemoryGraph V
  | .vertex, id, c => { g with vertices := Function.update g.vertices id c }
  | .edge, id, c => { g with edges := Function.update g.edges id c }

def modifyTxn (g : MemoryGraph V) (txnId : Nat) (f : TxnState V → TxnState V) : MemoryGraph V :=
  { g with txns := Function.update g.txns txnId (f (g.txns txnId)) }

def pushUndo (g : MemoryGraph V) (txnId : Nat) (e : UndoEntry (DeltaOp V)) : MemoryGraph V :=
  g.modifyTxn txnId fun s => { s with undoBuffer := s.undoBuffer ++ [e] }

/-- Log a delta in the redo buffer; its LSN is assigned at commit. -/
def pushRedo (g : MemoryGraph V) (txn : MemTransaction) (op : DeltaOp V) : MemoryGraph V :=
  g.modifyTxn txn.txnId fun s => { s with redoBuffer := s.redoBuffer ++
    [{ lsn := 0, txnId := txn.txnId, isoLevel := txn.isolationLevel, op := .delta op }] }

/-- Whether a weak pointer into the undo buffer of `owner` can still be followed. -/
def upgradable (g : MemoryGraph V) (owner : Nat) : Bool :=
  !(g.txns owner).undoBuffer.isEmpty

def outgoing (g : MemoryGraph V) (vid : Nat) : List Neighbor :=
  (g.adjacencyList vid).elim [] AdjacencyContainer.outgoing

def incoming (g : MemoryGraph V) (vid : Nat) : List Neighbor :=
  (g.adjacencyList vid).elim [] AdjacencyContainer.incoming

def setAdjacency (g : MemoryGraph V) (vid : Nat) (adj : Option AdjacencyContainer) :
    MemoryGraph V :=
  { g with adjacencyList := Function.update g.adjacencyList vid adj }

/-- `entry(src).or_insert_with(new).outgoing().insert(n)`. -/
def insertOutgoing (g : MemoryGraph V) (src : Nat) (n : Neighbor) : MemoryGraph V :=
  let adj := (g.adjacencyList src).getD .new
  g.setAdjacency src
    (some { adj with outgoing := SkipList.insert Neighbor.lt n adj.outgoing })

def insertIncoming (g : MemoryGraph V) (dst : Nat) (n : Neighbor) : MemoryGraph V :=
  let adj := (g.adjacencyList dst).getD .new
  g.setAdjacency dst
    (some { adj with incoming := SkipList.insert Neighbor.lt n adj.incoming })

/-- `entry(src).and_modify(|adj| adj.outgoing().remove(n))`. -/
def removeOutgoing (g : MemoryGraph V) (src : Nat) (n : Neighbor) : MemoryGraph V :=
  g.setAdjacency src ((g.adjacencyList src).map fun adj =>
    { adj with outgoing := SkipList.remove Neighbor.lt n adj.outgoing })

def removeIncoming (g : MemoryGraph V) (dst : Nat) (n : Neighbor) : MemoryGraph V :=
  g.setAdjacency dst ((g.adjacencyList dst).map fun adj =>
    { adj with incoming := SkipList.remove Neighbor.lt n adj.incoming })

/-- The entries for an edge in the two adjacency sets it belongs to. -/
def insertAdjacency (g : MemoryGraph V) (e : Edge V) : MemoryGraph V :=
  (g.insertOutgoing e.srcId ⟨e.labelId, e.dstId, e.eid⟩).insertIncoming e.dstId
    ⟨e.labelId, e.srcId, e.eid⟩

def removeAdjacency (g : MemoryGraph V) (e : Edge V) : MemoryGraph V :=
  (g.removeOutgoing e.srcId ⟨e.labelId, e.dstId, e.eid⟩).removeIncoming e.dstId
    ⟨e.labelId, e.srcId, e.eid⟩

end MemoryGraph

end MiniGU
