import MiniGU.Model.Write

/-!
# Begin, commit, abort and garbage collection

`txn_manager.rs` and the second half of `transaction.rs`. The steps of `commit_at`
are functions of their own: they run one after another under the commit lock, and the
threads that do not take that lock can run between them.
-/

namespace MiniGU

variable {V : Type}

namespace MemTxnManager

/-- Insert into `active_txns`, a map from transaction ids. -/
def insertActive (m : MemTxnManager) (txn : MemTransaction) : MemTxnManager :=
  let activeTxns := SkipList.insert (fun a b => decide (a.txnId < b.txnId)) txn m.activeTxns
  { m with activeTxns }

def removeActive (m : MemTxnManager) (txnId : Nat) : MemTxnManager :=
  { m with activeTxns := m.activeTxns.filter fun t => t.txnId != txnId }

/-- Insert into `committed_txns`, a map from commit timestamps. -/
def insertCommitted (m : MemTxnManager) (commitTs : Nat) (txn : MemTransaction) :
    MemTxnManager :=
  let committedTxns :=
    SkipList.insert (fun a b => decide (a.1 < b.1)) (commitTs, txn) m.committedTxns
  { m with committedTxns }

/-- The start timestamp of the active transaction with the smallest id, or the latest
commit timestamp; the watermark never goes back. -/
def updateWatermark (m : MemTxnManager) : MemTxnManager :=
  let minTs := (m.activeTxns.head?.map MemTransaction.startTs).getD m.latestCommitTs
  { m with watermark := max minTs m.watermark }

end MemTxnManager

namespace MemoryGraph

def withManager (g : MemoryGraph V) (m : MemTxnManager) : MemoryGraph V :=
  { g with txnManager := m }

/-- Append an entry of `txn` with the next LSN to the write-ahead log. -/
def appendWal (g : MemoryGraph V) (txn : MemTransaction) (op : Operation V) : MemoryGraph V :=
  { g with wal := g.wal ++ [⟨g.nextLsn, txn.txnId, txn.isolationLevel, op⟩]
           nextLsn := g.nextLsn + 1 }

def beginTransactionAt (g : MemoryGraph V) (txnId startTs : Option Nat)
    (isolationLevel : IsolationLevel) (lockStrategy : LockStrategy) (skipWal : Bool) :
    Outcome V MemTransaction :=
  match g.transactionIdGenerator.obtain txnId with
  | .error e => (g, .error (.timestamp e))
  | .ok (txnId, idGen) =>
    let g := { g with transactionIdGenerator := idGen }
    match g.timestampGenerator.obtain startTs with
    | .error e => (g, .error (.timestamp e))
    | .ok (startTs, tsGen) =>
      let txn : MemTransaction := ⟨txnId, startTs, isolationLevel, lockStrategy⟩
      let g := ({ g with timestampGenerator := tsGen }.modifyTxn txnId fun _ => .new
        ).withManager (g.txnManager.insertActive txn).updateWatermark
      (if skipWal then g else g.appendWal txn (.beginTransaction startTs), .ok txn)

/-! ## Garbage collection -/

/-- What one undo entry of an expired transaction does to the set of expired edges. -/
def noteExpired (expired : List (Nat × Edge V)) : DeltaOp V → List (Nat × Edge V)
  | .createEdge edge => assocInsert edge.eid edge.withoutProperties expired
  | .delEdge eid => expired.filter fun p => p.1 != eid
  | _ => expired

/-- The transactions committed at or below the watermark. -/
def expiredTxns (g : MemoryGraph V) : List MemTransaction :=
  (g.txnManager.committedTxns.takeWhile fun p => decide (p.1 ≤ g.txnManager.watermark)).map
    Prod.snd

/-- The edges that the expired transactions deleted. -/
def expiredEdges (g : MemoryGraph V) : List (Nat × Edge V) :=
  ((g.expiredTxns.flatMap fun t => (g.txns t.txnId).undoBuffer).map UndoEntry.delta).foldl
    noteExpired []

/-- `remove_vertex_and_adjacencies`. -/
def removeVertexAndAdjacencies (g : MemoryGraph V) (vid : Nat) : MemoryGraph V :=
  let g₁ := g.setChain .vertex vid none
  let g₂ := (g.incoming vid).foldl
    (fun h n => h.removeOutgoing n.neighborId ⟨n.labelId, vid, n.eid⟩) g₁
  let g₃ := (g.outgoing vid).foldl
    (fun h n => h.removeIncoming n.neighborId ⟨n.labelId, vid, n.eid⟩) g₂
  g₃.setAdjacency vid none

/-- `cleanup_expired_edge`; the three tombstone flags are read before anything is
removed. -/
def cleanupExpiredEdge (g : MemoryGraph V) (edge : Edge V) : MemoryGraph V :=
  let g₁ := if g.isTombstoned .vertex edge.srcId then g.removeVertexAndAdjacencies edge.srcId
    else g
  let g₂ := if g.isTombstoned .vertex edge.dstId then g₁.removeVertexAndAdjacencies edge.dstId
    else g₁
  if g.isTombstoned .edge edge.eid then
    (g₂.setChain .edge edge.eid none).removeAdjacency edge
  else g₂

def garbageCollect (g : MemoryGraph V) : MemoryGraph V :=
  let g' := g.expiredEdges.foldl (fun h p => h.cleanupExpiredEdge p.2) g
  let isExpired (commitTs : Nat) : Bool :=
    g.expiredTxns.any fun t => (g.txns t.txnId).commitTs == some commitTs
  g'.withManager
    { g.txnManager with
      committedTxns := g.txnManager.committedTxns.filter fun p => !isExpired p.1
      lastGcTs := g.timestampGenerator.counter }

/-- The undo buffer of a transaction is freed with its last handle. -/
def release (g : MemoryGraph V) (txnId : Nat) : MemoryGraph V :=
  g.modifyTxn txnId fun s => { s with undoBuffer := [] }

/-! ## The end of a transaction -/

/-- Leave `active_txns`, enter `committed_txns` when committed, update the watermark. -/
def retire (g : MemoryGraph V) (txn : MemTransaction) : MemoryGraph V :=
  let m := g.txnManager.removeActive txn.txnId
  let m := match (g.txns txn.txnId).commitTs with
    | some commitTs => m.insertCommitted commitTs txn
    | none => m
  g.withManager m.updateWatermark

/-- The collection that the manager starts by itself. -/
def collectAtThreshold (g : MemoryGraph V) : MemoryGraph V :=
  match g.txnManager.gcThreshold with
  | some threshold =>
    if threshold ≤ g.txnManager.committedTxns.length then g.garbageCollect else g
  | none => g

def finishTransaction (g : MemoryGraph V) (txn : MemTransaction) : Outcome V Unit :=
  if g.txnManager.activeTxns.any fun t => t.txnId == txn.txnId then
    ((g.retire txn).collectAtThreshold, .ok ())
  else (g, .error (.transactionNotFound txn.txnId))

/-- One turn of the loop of `abort_at`. -/
def abortEntry (txn : MemTransaction) (g : MemoryGraph V) (e : UndoEntry (DeltaOp V)) :
    MemoryGraph V :=
  match e.delta.target with
  | none => g
  | some (k, id) =>
    match g.chain k id with
    | none => g
    | some c =>
      if c.current.commitTs = txn.txnId then
        g.setChain k id (some ⟨⟨e.delta.restore c.current.data, e.timestamp⟩, e.next⟩)
      else g

/-- The loop of `abort_at`: the drained undo buffer, oldest entry first. -/
def undoAll (g : MemoryGraph V) (txn : MemTransaction) : MemoryGraph V :=
  (g.txns txn.txnId).undoBuffer.foldl (abortEntry txn)
    (g.modifyTxn txn.txnId fun s => { s with undoBuffer := [] })

/-- Clear the write intents of `txn`. -/
def clearWrites (g : MemoryGraph V) (txn : MemTransaction) : MemoryGraph V :=
  g.modifyTxn txn.txnId fun s => { s with vertexWrites := [], edgeWrites := [] }

def markHandled (g : MemoryGraph V) (txn : MemTransaction) : MemoryGraph V :=
  g.modifyTxn txn.txnId fun s => { s with isHandled := true }

def abortAt (g : MemoryGraph V) (txn : MemTransaction) (skipWal : Bool) : Outcome V Unit :=
  let g := g.undoAll txn
  let g := if skipWal then g else g.appendWal txn .abortTransaction
  match (g.clearWrites txn).finishTransaction txn with
  | (g, .error e) => (g, .error e)
  | (g, .ok _) => (g.markHandled txn, .ok ())

/-- `self.abort()?; return Err(err)`. -/
def abortWith {α : Type} (g : MemoryGraph V) (txn : MemTransaction) (err : StorageError) :
    Outcome V α :=
  match g.abortAt txn false with
  | (g, .error e) => (g, .error e)
  | (g, .ok _) => (g, .error err)

/-! ## Commit -/

/-- The validation of one read set. -/
def validateReads (g : MemoryGraph V) (txn : MemTransaction) (k : Kind) :
    List Nat → Except StorageError Unit
  | [] => .ok ()
  | id :: ids =>
    match g.chain k id with
    | none => .error (.notFound k id)
    | some c =>
      if c.current.commitTs != txn.txnId && decide (txn.startTs < c.current.commitTs) then
        .error (.readWriteConflict k c.current.commitTs)
      else g.validateReads txn k ids

def validateReadSets (g : MemoryGraph V) (txn : MemTransaction) : Except StorageError Unit :=
  match g.validateReads txn .vertex (g.txns txn.txnId).vertexReads with
  | .error e => .error e
  | .ok _ => g.validateReads txn .edge (g.txns txn.txnId).edgeReads

/-- `flush_redo_and_commit_wal`: the redo buffer is drained, each entry getting its
LSN, and the commit marker follows. -/
def flushRedoAndCommitWal (g : MemoryGraph V) (txn : MemTransaction) (commitTs : Nat) :
    MemoryGraph V :=
  let redo := (g.txns txn.txnId).redoBuffer
  let wal := g.wal ++ redo.mapIdx fun i e => { e with lsn := g.nextLsn + i }
  let nextLsn := g.nextLsn + redo.length
  let g := g.modifyTxn txn.txnId fun s => { s with redoBuffer := [] }
  { g with wal, nextLsn }.appendWal txn (.commitTransaction commitTs)

def setLatestCommitTs (g : MemoryGraph V) (commitTs : Nat) : MemoryGraph V :=
  g.withManager { g.txnManager with latestCommitTs := commitTs }

def finalizeCommitCommon (g : MemoryGraph V) (txn : MemTransaction) (commitTs : Nat)
    (skipWal : Bool) : Outcome V Unit :=
  let g := if skipWal then g else g.flushRedoAndCommitWal txn commitTs
  ((g.setLatestCommitTs commitTs).clearWrites txn).finishTransaction txn

/-- `commit_ts.set`, which fails when the cell is full. -/
def setCommitTs (g : MemoryGraph V) (txn : MemTransaction) (commitTs : Nat) :
    Option (MemoryGraph V) :=
  match (g.txns txn.txnId).commitTs with
  | some _ => none
  | none => some (g.modifyTxn txn.txnId fun s => { s with commitTs := some commitTs })

/-- `update_commit_ts!` for the target of one undo entry. -/
def publish (g : MemoryGraph V) (commitTs : Nat) (delta : DeltaOp V) :
    Option (MemoryGraph V) :=
  match delta.target with
  | none => none
  | some (k, id) => (g.chain k id).map fun c => g.setChain k id (some (c.stamp commitTs))

/-- The loop of `commit_pessimistic` over the undo buffer. -/
def publishAll (commitTs : Nat) (g : MemoryGraph V) : List (DeltaOp V) → Outcome V Unit
  | [] => (g, .ok ())
  | delta :: deltas =>
    match g.publish commitTs delta with
    | none => (g, .error .panicked)
    | some g' => publishAll commitTs g' deltas

def commitPessimistic (g : MemoryGraph V) (txn : MemTransaction) (commitTs : Nat)
    (skipWal : Bool) : Outcome V Nat :=
  match g.setCommitTs txn commitTs with
  | none => g.abortWith txn (.transactionAlreadyCommitted commitTs)
  | some g =>
    match publishAll commitTs g ((g.txns txn.txnId).undoBuffer.map UndoEntry.delta) with
    | (g, .error e) => (g, .error e)
    | (g, .ok _) =>
      match g.finalizeCommitCommon txn commitTs skipWal with
      | (g, .error e) => (g, .error e)
      | (g, .ok _) => (g, .ok commitTs)

/-! ### The optimistic commit -/

def WriteKind.isDelete {D : Type} : WriteKind D → Bool
  | .delete _ => true
  | _ => false

/-- Phase 1 for one write intent. -/
def validateIntent (g : MemoryGraph V) (txn : MemTransaction) (k : Kind) (id : Nat)
    (intent : WriteIntent (Data V k)) : Except StorageError Unit :=
  match intent.kind, g.chain k id with
  | .insert _, none => .ok ()
  | .insert _, some c =>
    let curTs := c.current.commitTs
    if (Timestamp.isTxnId curTs && curTs != txn.txnId) || Timestamp.isCommitTs curTs then
      .error (.insertConflict k id curTs)
    else .ok ()
  | kind, none =>
    if WriteKind.isDelete kind && intent.guardTs == 0 then .ok ()
    else .error (.missingConflict k id)
  | _, some c =>
    let curTs := c.current.commitTs
    if Timestamp.isTxnId curTs && curTs != txn.txnId then .error (.lockedConflict k id curTs)
    else if Timestamp.isCommitTs curTs && curTs != intent.guardTs then
      .error (.guardConflict k id intent.guardTs curTs)
    else .ok ()

def validateIntents (g : MemoryGraph V) (txn : MemTransaction) (k : Kind) :
    List (Nat × WriteIntent (Data V k)) → Except StorageError Unit
  | [] => .ok ()
  | (id, intent) :: ws =>
    match g.validateIntent txn k id intent with
    | .error e => .error e
    | .ok _ => g.validateIntents txn k ws

/-- `compute_prop_delta`: the positions where the two differ, with the old values. -/
def computePropDelta [DecidableEq V] (before after : List V) : SetPropsOp V :=
  let diff := (before.zip after).zipIdx.filter fun p => p.1.1 != p.1.2
  ⟨diff.map Prod.snd, diff.map fun p => p.1.1⟩

/-- The adjacency indexes kept alongside an applied intent; `d` is the new head. -/
def linkAdjacency (g : MemoryGraph V) : {k : Kind} → Data V k → MemoryGraph V
  | .vertex, _ => g
  | .edge, e => g.insertAdjacency e

def unlinkAdjacency (g : MemoryGraph V) : {k : Kind} → Data V k → MemoryGraph V
  | .vertex, _ => g
  | .edge, e => g.removeAdjacency e

/-- Phase 2 for one write intent. -/
def applyIntent [DecidableEq V] (txn : MemTransaction) (k : Kind) (g : MemoryGraph V) (id : Nat)
    (intent : WriteIntent (Data V k)) : Outcome V Unit :=
  match intent.kind with
  | .insert d =>
    let c := (g.chain k id).getD ⟨⟨d, 0⟩, []⟩
    ((g.writeVersion txn k id c (.del k id) c.current.commitTs d).linkAdjacency d, .ok ())
  | .update before after =>
    match g.chain k id with
    | none => (g, .error (.missingConflict k id))
    | some c =>
      let op := computePropDelta before.properties after.properties
      (g.writeVersion txn k id c (.setProps k id op) c.current.commitTs after, .ok ())
  | .delete before =>
    match g.chain k id, decide (intent.guardTs = 0) with
    | none, false => (g, .error (.missingConflict k id))
    | chain, _ =>
      let c := chain.getD ⟨⟨before, 0⟩, []⟩
      let d := c.current.data.tombstone
      ((g.writeVersion txn k id c (.create before) c.current.commitTs d).unlinkAdjacency d,
        .ok ())

def applyIntents [DecidableEq V] (txn : MemTransaction) (k : Kind) (g : MemoryGraph V) :
    List (Nat × WriteIntent (Data V k)) → Outcome V Unit
  | [] => (g, .ok ())
  | (id, intent) :: ws =>
    match applyIntent txn k g id intent with
    | (g, .error e) => (g, .error e)
    | (g, .ok _) => applyIntents txn k g ws

/-- Phase 3 for one entity. -/
def stampOwn (txn : MemTransaction) (commitTs : Nat) (k : Kind) (g : MemoryGraph V) (id : Nat) :
    MemoryGraph V :=
  match g.chain k id with
  | none => g
  | some c =>
    if c.current.commitTs = txn.txnId then g.setChain k id (some (c.stamp commitTs)) else g

/-- Phase 3 over the intents of both kinds. -/
def stampAll (g : MemoryGraph V) (txn : MemTransaction) (commitTs : Nat) (vids eids : List Nat) :
    MemoryGraph V :=
  eids.foldl (stampOwn txn commitTs .edge) (vids.foldl (stampOwn txn commitTs .vertex) g)

def commitOptimistic [DecidableEq V] (g : MemoryGraph V) (txn : MemTransaction) (commitTs : Nat)
    (skipWal : Bool) : Outcome V Nat :=
  let vertexWrites := (g.txns txn.txnId).vertexWrites
  let edgeWrites := (g.txns txn.txnId).edgeWrites
  match g.validateIntents txn .vertex vertexWrites with
  | .error e => g.abortWith txn e
  | .ok _ =>
  match g.validateIntents txn .edge edgeWrites with
  | .error e => g.abortWith txn e
  | .ok _ =>
  match applyIntents txn .vertex g vertexWrites with
  | (g, .error e) => (g, .error e)
  | (g, .ok _) =>
  match applyIntents txn .edge g edgeWrites with
  | (g, .error e) => (g, .error e)
  | (g, .ok _) =>
  let g := g.stampAll txn commitTs (vertexWrites.map Prod.fst) (edgeWrites.map Prod.fst)
  match g.setCommitTs txn commitTs with
  | none => g.abortWith txn (.transactionAlreadyCommitted commitTs)
  | some g =>
  match g.finalizeCommitCommon txn commitTs skipWal with
  | (g, .error e) => (g, .error e)
  | (g, .ok _) => (g, .ok commitTs)

/-- The part of `commit_at` under the commit lock. -/
def commitLocked [DecidableEq V] (g : MemoryGraph V) (txn : MemTransaction) (commitTs : Nat)
    (skipWal : Bool) : Outcome V Nat :=
  let valid := match txn.isolationLevel with
    | .serializable => g.validateReadSets txn
    | .snapshot => .ok ()
  match valid with
  | .error e => g.abortWith txn e
  | .ok _ =>
    match txn.lockStrategy with
    | .pessimistic => g.commitPessimistic txn commitTs skipWal
    | .optimistic => g.commitOptimistic txn commitTs skipWal

def commitAt [DecidableEq V] (g : MemoryGraph V) (txn : MemTransaction) (commitTs : Option Nat)
    (skipWal : Bool) : Outcome V Nat :=
  match g.timestampGenerator.obtain commitTs with
  | .error e => (g, .error (.timestamp e))
  | .ok (commitTs, tsGen) =>
    match { g with timestampGenerator := tsGen }.commitLocked txn commitTs skipWal with
    | (g, .error e) => (g, .error e)
    | (g, .ok commitTs) => (g.markHandled txn, .ok commitTs)

end MemoryGraph

end MiniGU
