import MiniGU.Lib.Run
import MiniGU.Model.Txn

/-!
# The graph as a state machine

Any number of transactions, their operations interleaved in any order: one action is
one call of the public interface, run to its end. An operation is called on an active
transaction; a call that panics poisons a lock and is no step.

A collection is an action of its own and may come at any time: the one that
`finish_transaction` starts at the threshold runs after the transaction has left the
manager, and holds no lock that the operations of other transactions take. Runs
therefore start from a graph whose `gcThreshold` is `none`.

## Commits under the commit lock and the automatic checkpoint

`commit_at` draws its timestamp, waits for `commit_lock` and keeps it to the end of the
call. When the commit has succeeded and enough entries have gone to the log,
`check_auto_checkpoint` runs inside the call: `create_checkpoint` takes `checkpoint_lock`
for writing, which keeps new transactions from starting, and waits until `active_txns` is
empty. The machine of this module has these waits as states of a call; the rest of a call
is one action.

A transaction is used by one thread: while its `commit_at` is in progress no other call is
made on it.
-/

namespace MiniGU

variable {V : Type}

/-- The writes of the public interface. -/
inductive Op (V : Type) where
  | createVertex (vertex : Vertex V)
  | createEdge (edge : Edge V)
  | deleteVertex (vid : Nat)
  | deleteEdge (eid : Nat)
  | setVertexProperty (vid : Nat) (indices : List Nat) (props : List V)
  | setEdgeProperty (eid : Nat) (indices : List Nat) (props : List V)
deriving DecidableEq, Repr

/-- The reads of the public interface. A scan is given the order in which the map
lists its keys. -/
inductive Query (V : Type) where
  | getVertex (vid : Nat)
  | getEdge (eid : Nat)
  | iterVertices (keys : List Nat) (filter : Vertex V → Bool)
  | iterEdges (keys : List Nat) (filter : Edge V → Bool)
  | iterAdjacency (vid : Nat) (dir : Direction) (filter : Neighbor → Bool)

inductive Answer (V : Type) where
  | vertex (r : Except StorageError (Vertex V))
  | edge (r : Except StorageError (Edge V))
  | vertices (r : List (Vertex V))
  | edges (r : List (Edge V))
  | neighbors (r : List Neighbor)

inductive Action (V : Type) where
  | begin (startTs : Option Nat) (isolationLevel : IsolationLevel) (lockStrategy : LockStrategy)
  | op (txn : MemTransaction) (o : Op V)
  | query (txn : MemTransaction) (q : Query V)
  | commit (txn : MemTransaction) (commitTs : Option Nat)
  | abort (txn : MemTransaction)
  | garbageCollect
  | release (txnId : Nat)

/-- A call that names no timestamp of its own and is not a collection. -/
def Action.isPlain : Action V → Bool
  | .begin (some _) .. => false
  | .commit _ (some _) => false
  | .garbageCollect => false
  | _ => true

/-- Forget the value an operation returns. -/
def Outcome.void {α : Type} (r : Outcome V α) : Outcome V Unit := (r.1, r.2.map fun _ => ())

namespace MemoryGraph

/-- The result of a call, whose error is `panicked` where it panics: the lock it holds then stays
poisoned, and the graph given with it is the one before the call and no later state. -/
def runOp (g : MemoryGraph V) (txn : MemTransaction) : Op V → Outcome V Unit
  | .createVertex vertex => g.createVertex txn vertex
  | .createEdge edge => g.createEdge txn edge
  | .deleteVertex vid => g.deleteVertex txn vid
  | .deleteEdge eid => g.deleteEdge txn eid
  | .setVertexProperty vid indices props => g.setVertexProperty txn vid indices props
  | .setEdgeProperty eid indices props => g.setEdgeProperty txn eid indices props

/-- A query leaves behind only what it adds to the read sets. -/
def runQuery (g : MemoryGraph V) (txn : MemTransaction) : Query V → MemoryGraph V × Answer V
  | .getVertex vid =>
    let r := g.getVertex txn vid
    (r.1, .vertex r.2)
  | .getEdge eid =>
    let r := g.getEdge txn eid
    (r.1, .edge r.2)
  | .iterVertices keys filter =>
    let r := g.iterVertices txn keys filter
    (r.1, .vertices r.2)
  | .iterEdges keys filter =>
    let r := g.iterEdges txn keys filter
    (r.1, .edges r.2)
  | .iterAdjacency vid dir filter => (g, .neighbors (g.iterAdjacency txn vid dir filter))

/-- The keys given to a scan are the map's. -/
def QueryOk (g : MemoryGraph V) : Query V → Prop
  | .iterVertices keys _ => g.ListsKeys .vertex keys
  | .iterEdges keys _ => g.ListsKeys .edge keys
  | _ => True

def isActive (g : MemoryGraph V) (txnId : Nat) : Bool :=
  g.txnManager.activeTxns.any fun t => t.txnId == txnId

/-- A transaction that the manager still holds. -/
def isHeld (g : MemoryGraph V) (txnId : Nat) : Bool :=
  g.isActive txnId || g.txnManager.committedTxns.any fun p => p.2.txnId == txnId

def Enabled (g : MemoryGraph V) : Action V → Prop
  | .begin .. => True
  | .op txn _ => txn ∈ g.txnManager.activeTxns
  | .query txn q => txn ∈ g.txnManager.activeTxns ∧ g.QueryOk q
  | .commit txn _ => txn ∈ g.txnManager.activeTxns
  | .abort txn => txn ∈ g.txnManager.activeTxns
  | .garbageCollect => True
  | .release txnId => g.isHeld txnId = false

def exec [DecidableEq V] (g : MemoryGraph V) : Action V → Outcome V Unit
  | .begin startTs iso lock => Outcome.void (g.beginTransactionAt none startTs iso lock false)
  | .op txn o => g.runOp txn o
  | .query txn q => ((g.runQuery txn q).1, .ok ())
  | .commit txn commitTs => Outcome.void (g.commitAt txn commitTs false)
  | .abort txn => g.abortAt txn false
  | .garbageCollect => (g.garbageCollect, .ok ())
  | .release txnId => (g.release txnId, .ok ())

/-- One step of the machine. -/
def Step [DecidableEq V] (g : MemoryGraph V) (a : Action V) (g' : MemoryGraph V) : Prop :=
  g.Enabled a ∧ ∃ r, g.exec a = (g', r) ∧ r ≠ .error .panicked

/-- `Enabled` as a test; scans are left to proofs. -/
def isEnabled (g : MemoryGraph V) : Action V → Bool
  | .begin .. => true
  | .op txn _ => decide (txn ∈ g.txnManager.activeTxns)
  | .query txn (.getVertex _) => decide (txn ∈ g.txnManager.activeTxns)
  | .query txn (.getEdge _) => decide (txn ∈ g.txnManager.activeTxns)
  | .query txn (.iterAdjacency ..) => decide (txn ∈ g.txnManager.activeTxns)
  | .query _ _ => false
  | .commit txn _ => decide (txn ∈ g.txnManager.activeTxns)
  | .abort txn => decide (txn ∈ g.txnManager.activeTxns)
  | .garbageCollect => true
  | .release txnId => !g.isHeld txnId

theorem enabled_of_isEnabled {g : MemoryGraph V} {a : Action V} (h : g.isEnabled a = true) :
    g.Enabled a := by
  cases a with
  | query txn q => cases q <;> simp_all [isEnabled, Enabled, QueryOk]
  | _ => simp_all [isEnabled, Enabled]

/-- One step by evaluation, under a side condition that can be tested. -/
def next [DecidableEq V] (p : MemoryGraph V → Action V → Bool) (g : MemoryGraph V)
    (a : Action V) : Option (MemoryGraph V) :=
  if g.isEnabled a && p g a then
    match g.exec a with
    | (_, .error .panicked) => none
    | (g', _) => some g'
  else none

theorem step_of_next [DecidableEq V] {p : MemoryGraph V → Action V → Bool}
    {g g' : MemoryGraph V} {a : Action V} (h : next p g a = some g') :
    p g a = true ∧ Step g a g' := by
  unfold next at h
  split at h
  · rename_i hp
    rw [Bool.and_eq_true] at hp
    refine ⟨hp.2, enabled_of_isEnabled hp.1, ?_⟩
    split at h
    · cases h
    · rename_i r hne heq
      cases h
      refine ⟨r, heq, ?_⟩
      rintro rfl
      exact hne rfl
  · cases h

/-- The `n`-th transaction of a run on concrete inputs, a snapshot transaction. -/
def snapshotTxn (n startTs : Nat) (lock : LockStrategy) : MemTransaction :=
  ⟨Timestamp.txnIdStart + n, startTs, .snapshot, lock⟩

end MemoryGraph

/-! ## Calls of commit in progress -/

/-- Where a call of `commit_at` stands. -/
inductive CommitStage where
  | waiting
  | locked
  | draining
deriving DecidableEq, Repr

/-- A call of `commit_at` in progress. -/
structure CommitCall where
  txn : MemTransaction
  commitTs : Nat
  skipWal : Bool
  stage : CommitStage
deriving DecidableEq, Repr

/-- The graph with its counter of log entries and the commits in progress. -/
structure Server (V : Type) where
  graph : MemoryGraph V
  walThreshold : Nat
  walEntriesSinceCheckpoint : Nat
  calls : List CommitCall

/-- The default of `CheckpointConfig::wal_threshold`. -/
def defaultWalThreshold : Nat := 1000

inductive ServerAction (V : Type) where
  | begin (startTs : Option Nat) (isolationLevel : IsolationLevel) (lockStrategy : LockStrategy)
  | op (txn : MemTransaction) (o : Op V)
  | query (txn : MemTransaction) (q : Query V)
  | callCommit (txn : MemTransaction) (commitTs : Option Nat) (skipWal : Bool)
  | acquire (call : CommitCall)
  | run (call : CommitCall)
  | drained (call : CommitCall)
  | abort (txn : MemTransaction)

namespace Server

/-- A graph that has just been made, with the configuration given. -/
def new (walThreshold : Nat) (lock : LockStrategy) (iso : IsolationLevel) : Server V where
  graph := .new (some gcTriggerThreshold) lock iso
  walThreshold := walThreshold
  walEntriesSinceCheckpoint := 0
  calls := []

/-- `checkpoint_lock` is held for writing. -/
def isDraining (s : Server V) : Bool := s.calls.any fun c => c.stage == .draining

/-- `commit_lock` is held. -/
def isLocked (s : Server V) : Bool := s.calls.any fun c => c.stage != .waiting

/-- The transaction is active and its thread is in no call. -/
def isFree (s : Server V) (txn : MemTransaction) : Bool :=
  decide (txn ∈ s.graph.txnManager.activeTxns) && s.calls.all fun c => c.txn.txnId != txn.txnId

/-- Whether the commit reaches `create_checkpoint` once it has succeeded:
`increment_wal_counter` for each entry and the two markers, then `check_auto_checkpoint`. -/
def reachesCheckpoint (s : Server V) (call : CommitCall) : Bool :=
  !call.skipWal && s.walThreshold != 0 && decide (s.walThreshold ≤
    s.walEntriesSinceCheckpoint + (s.graph.txns call.txn.txnId).redoBuffer.length + 2)

/-- The entries a commit adds to the counter. -/
def countEntries (s : Server V) (call : CommitCall) : Nat :=
  if call.skipWal then s.walEntriesSinceCheckpoint
  else s.walEntriesSinceCheckpoint + (s.graph.txns call.txn.txnId).redoBuffer.length + 2

/-- The end of a call. -/
def leave (s : Server V) (call : CommitCall) (g : MemoryGraph V) (count : Nat) : Server V :=
  { s with graph := g, walEntriesSinceCheckpoint := count, calls := s.calls.erase call }

/-- The commit under its lock, up to the wait of the checkpoint if it comes to that. -/
def runCommit [DecidableEq V] (s : Server V) (call : CommitCall) : Server V :=
  match s.graph.commitLocked call.txn call.commitTs call.skipWal with
  | (g, .error _) => s.leave call g s.walEntriesSinceCheckpoint
  | (g, .ok _) =>
    if s.reachesCheckpoint call then
      { s with
        graph := g
        walEntriesSinceCheckpoint := s.countEntries call
        calls := { call with stage := .draining } :: s.calls.erase call }
    else s.leave call (g.markHandled call.txn) (s.countEntries call)

/-- One action, if it is not blocked. -/
def next [DecidableEq V] (s : Server V) : ServerAction V → Option (Server V)
  | .begin startTs iso lock =>
    if s.isDraining then none
    else some { s with graph := (s.graph.beginTransactionAt none startTs iso lock false).1 }
  | .op txn o => if s.isFree txn then some { s with graph := (s.graph.runOp txn o).1 } else none
  | .query txn q =>
    if s.isFree txn then some { s with graph := (s.graph.runQuery txn q).1 } else none
  | .callCommit txn ts? skipWal =>
    if s.isFree txn then
      match s.graph.timestampGenerator.obtain ts? with
      | .error _ => some s
      | .ok (commitTs, tsGen) =>
        some { s with
          graph := { s.graph with timestampGenerator := tsGen }
          calls := ⟨txn, commitTs, skipWal, .waiting⟩ :: s.calls }
    else none
  | .acquire call =>
    if call ∈ s.calls ∧ call.stage = .waiting ∧ s.isLocked = false then
      some { s with calls := { call with stage := .locked } :: s.calls.erase call }
    else none
  | .run call =>
    if call ∈ s.calls ∧ call.stage = .locked then some (s.runCommit call) else none
  | .drained call =>
    if call ∈ s.calls ∧ call.stage = .draining ∧ s.graph.txnManager.activeTxns = [] then
      some (s.leave call (s.graph.markHandled call.txn) 0)
    else none
  | .abort txn => if s.isFree txn then some { s with graph := (s.graph.abortAt txn false).1 } else none

/-- One action as a step relation. -/
def Step [DecidableEq V] (s : Server V) (a : ServerAction V) (s' : Server V) : Prop :=
  s.next a = some s'

end Server

end MiniGU
