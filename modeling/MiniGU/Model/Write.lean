import MiniGU.Model.Read

/-!
# Writes: create, delete and set-property

The mutable methods of `memory_graph.rs`. A pessimistic transaction checks the head
of the version chain and writes it in place; an optimistic one stages a write intent
with the timestamp of the version it was computed from.
-/

namespace MiniGU

variable {V : Type}

/-! ## Conflict checks -/

def checkWriteConflict (commitTs : Nat) (txn : MemTransaction) : Except StorageError Unit :=
  if Timestamp.isTxnId commitTs && commitTs != txn.txnId then
    .error (.writeWriteConflict commitTs)
  else if Timestamp.isCommitTs commitTs && decide (txn.startTs < commitTs) then
    .error (.versionNotVisible txn.txnId)
  else .ok ()

def optimisticWriteGuard (commitTs : Nat) (txn : MemTransaction) : Except StorageError Unit :=
  if Timestamp.isTxnId commitTs && commitTs != txn.txnId then
    .error (.writeWriteConflict commitTs)
  else .ok ()

/-- `prewrite_check_vertex` and `prewrite_check_edge`. -/
def prewriteCheck (commitTs : Nat) (txn : MemTransaction) : Except StorageError Unit :=
  match txn.lockStrategy with
  | .pessimistic => checkWriteConflict commitTs txn
  | .optimistic => optimisticWriteGuard commitTs txn

namespace MemoryGraph

/-! ## Snapshot reads of optimistic writers -/

/-- The loop of `snapshot_vertex_with_guard`: undo until the version is visible at
`startTs`, keeping the timestamp of the version reached. -/
def snapshotWalk {k : Kind} (live : Nat → Bool) (startTs : Nat) :
    Data V k → Nat → UndoPtr (DeltaOp V) → Data V k × Nat
  | d, guardTs, [] => (d, guardTs)
  | d, guardTs, r :: rest =>
    if live r.owner then
      if r.timestamp ≤ startTs then (r.delta.undo d, r.timestamp)
      else snapshotWalk live startTs (r.delta.undo d) r.timestamp rest
    else (d, guardTs)

/-- `snapshot_vertex_with_guard` and `snapshot_edge_with_guard`. -/
def snapshotWithGuard (g : MemoryGraph V) (txn : MemTransaction) {k : Kind}
    (c : VersionChain (Data V k) (DeltaOp V)) : Except StorageError (Data V k × Nat) :=
  match prewriteCheck c.current.commitTs txn with
  | .error e => .error e
  | .ok _ =>
    if txn.isOwnOrVisible c.current.commitTs then
      if c.current.data.isTombstone then .error (.versionNotVisible txn.txnId)
      else .ok (c.current.data, c.current.commitTs)
    else
      let r := snapshotWalk g.upgradable txn.startTs c.current.data c.current.commitTs c.undoPtr
      if decide (txn.startTs < r.2) || r.1.isTombstone then
        .error (.versionNotVisible txn.txnId)
      else .ok r

/-! ## Write intents -/

/-- Replace or insert the intent for `id`. -/
def stage (g : MemoryGraph V) (txn : MemTransaction) (k : Kind) (id : Nat)
    (intent : WriteIntent (Data V k)) : MemoryGraph V :=
  g.modifyTxn txn.txnId fun s => s.setWrites k (assocInsert id intent (s.writes k))

/-- The create branch: an insert intent, whose guard stays as it was. -/
def recordInsert (g : MemoryGraph V) (txn : MemTransaction) {k : Kind} (d : Data V k) :
    MemoryGraph V :=
  match (g.txns txn.txnId).lookupWrite k d.id with
  | some intent => g.stage txn k d.id { intent with kind := .insert d }
  | none => g.stage txn k d.id { guardTs := 0, kind := .insert d }

/-- `record_vertex_update` and `record_edge_update`. -/
def recordUpdate (g : MemoryGraph V) (txn : MemTransaction) (k : Kind) (id guardTs : Nat)
    (before newAfter : Data V k) : MemoryGraph V :=
  match (g.txns txn.txnId).lookupWrite k id with
  | some intent =>
    g.stage txn k id
      { guardTs := if intent.guardTs = 0 then guardTs else intent.guardTs
        kind := match intent.kind with
          | .insert _ => .insert newAfter
          | .update before' _ => .update before' newAfter
          | .delete _ => .update before newAfter }
  | none => g.stage txn k id { guardTs, kind := .update before newAfter }

/-- `record_vertex_delete` and `record_edge_delete`. -/
def recordDelete (g : MemoryGraph V) (txn : MemTransaction) (k : Kind) (id guardTs : Nat)
    (before : Data V k) : MemoryGraph V :=
  match (g.txns txn.txnId).lookupWrite k id with
  | some intent =>
    g.stage txn k id
      { guardTs := if intent.guardTs = 0 then guardTs else intent.guardTs
        kind := .delete before }
  | none => g.stage txn k id { guardTs, kind := .delete before }

/-- The delete of one entity under optimistic locking, up to its redo record. -/
def stageDelete (g : MemoryGraph V) (txn : MemTransaction) (k : Kind) (id : Nat) :
    Outcome V Unit :=
  match (g.txns txn.txnId).lookupWrite k id with
  | some intent =>
    match intent.kind with
    | .insert before => (g.recordDelete txn k id 0 before, .ok ())
    | .update before _ => (g.recordDelete txn k id intent.guardTs before, .ok ())
    | .delete _ => (g, .ok ())
  | none =>
    match g.chain k id with
    | none => (g, .error (.notFound k id))
    | some c =>
      match g.snapshotWithGuard txn c with
      | .error e => (g, .error e)
      | .ok (before, guardTs) => (g.recordDelete txn k id guardTs before, .ok ())

/-- `record_occ_edge_delete`, and the optimistic branch of `delete_edge`. -/
def recordOccEdgeDelete (g : MemoryGraph V) (txn : MemTransaction) (eid : Nat) :
    Outcome V Unit :=
  match g.stageDelete txn .edge eid with
  | (g', .error e) => (g', .error e)
  | (g', .ok _) => (g'.pushRedo txn (.delEdge eid), .ok ())

/-! ## In-place writes -/

/-- Write `d` over the chain `c` of `id` in place: an undo entry with the delta and
the timestamp given goes to the transaction's buffer, the chain points to it, and
the head is stamped with the transaction id. -/
def writeVersion (g : MemoryGraph V) (txn : MemTransaction) (k : Kind) (id : Nat)
    (c : VersionChain (Data V k) (DeltaOp V)) (delta : DeltaOp V) (ts : Nat) (d : Data V k) :
    MemoryGraph V :=
  (g.pushUndo txn.txnId ⟨delta, ts, c.undoPtr⟩).setChain k id
    (some (c.push txn.txnId delta ts d))

/-- The pessimistic branch of `create_vertex` and `create_edge`: the chain is made
with the new data as its head, or, where one exists, only gets the undo entry.
`ownTs` is the timestamp recorded when the head is the transaction's own. -/
def insertVersion (g : MemoryGraph V) (txn : MemTransaction) {k : Kind} (d : Data V k)
    (ownTs : Nat) : Outcome V Unit :=
  match g.chain k d.id with
  | none =>
    (g.writeVersion txn k d.id ⟨⟨d, txn.txnId⟩, []⟩ (.del k d.id) ownTs d, .ok ())
  | some c =>
    match checkWriteConflict c.current.commitTs txn with
    | .error e => (g, .error e)
    | .ok _ =>
      let ts := if c.current.commitTs = txn.txnId then ownTs else c.current.commitTs
      let e : UndoEntry (DeltaOp V) := ⟨.del k d.id, ts, c.undoPtr⟩
      ((g.pushUndo txn.txnId e).setChain k d.id
        (some { c with undoPtr := e.downgrade txn.txnId }), .ok ())

/-- The pessimistic delete of one entity, after its cascade. -/
def deleteVersion (g : MemoryGraph V) (txn : MemTransaction) (k : Kind) (id : Nat)
    (c : VersionChain (Data V k) (DeltaOp V)) : MemoryGraph V :=
  (g.writeVersion txn k id c (.create c.current.data) c.current.commitTs
    c.current.data.tombstone).pushRedo txn (.del k id)

/-- The macro `update_properties!`. -/
def updateProperties (g : MemoryGraph V) (txn : MemTransaction) (k : Kind) (id : Nat)
    (c : VersionChain (Data V k) (DeltaOp V)) (indices : List Nat) (props : List V) :
    Outcome V Unit :=
  match prewriteCheck c.current.commitTs txn with
  | .error e => (g, .error e)
  | .ok _ =>
    match indices.mapM fun i => c.current.data.properties[i]? with
    | none => (g, .error .panicked)
    | some deltaProps =>
      (g.writeVersion txn k id c (.setProps k id ⟨indices, deltaProps⟩) c.current.commitTs
        (c.current.data.setProps indices props), .ok ())

/-! ## The operations -/

/-- The tombstone guard of both create operations: ids are not reusable. -/
def isTombstoned (g : MemoryGraph V) (k : Kind) (id : Nat) : Bool :=
  (g.chain k id).elim false fun c => c.current.data.isTombstone

def createVertex (g : MemoryGraph V) (txn : MemTransaction) (vertex : Vertex V) :
    Outcome V Unit :=
  if g.isTombstoned .vertex vertex.vid then (g, .error (.alreadyExists .vertex vertex.vid))
  else
    match g.getVertex txn vertex.vid with
    | (g, .ok _) => (g, .error (.alreadyExists .vertex vertex.vid))
    | (g, .error _) =>
      match txn.lockStrategy with
      | .pessimistic =>
        match g.insertVersion txn (k := .vertex) vertex 0 with
        | (g, .error e) => (g, .error e)
        | (g, .ok _) => (g.pushRedo txn (.createVertex vertex), .ok ())
      | .optimistic =>
        ((g.recordInsert txn (k := .vertex) vertex).pushRedo txn (.createVertex vertex), .ok ())

def createEdge (g : MemoryGraph V) (txn : MemTransaction) (edge : Edge V) : Outcome V Unit :=
  match g.getVertex txn edge.srcId with
  | (g, .error e) => (g, .error e)
  | (g, .ok _) =>
    match g.getVertex txn edge.dstId with
    | (g, .error e) => (g, .error e)
    | (g, .ok _) =>
      if g.isTombstoned .edge edge.eid then (g, .error (.alreadyExists .edge edge.eid))
      else
        match g.getEdge txn edge.eid with
        | (g, .ok _) => (g, .error (.alreadyExists .edge edge.eid))
        | (g, .error _) =>
          match txn.lockStrategy with
          | .pessimistic =>
            match g.insertVersion txn (k := .edge) edge txn.txnId with
            | (g, .error e) => (g, .error e)
            | (g, .ok _) =>
              ((g.insertAdjacency edge).pushRedo txn (.createEdge edge), .ok ())
          | .optimistic =>
            ((g.recordInsert txn (k := .edge) edge).pushRedo txn (.createEdge edge), .ok ())

/-- The pessimistic branch of `delete_edge`. -/
def deleteEdgeInPlace (g : MemoryGraph V) (txn : MemTransaction) (eid : Nat) :
    Outcome V Unit :=
  match g.edges eid with
  | none => (g, .error (.notFound .edge eid))
  | some c =>
    match prewriteCheck c.current.commitTs txn with
    | .error e => (g, .error e)
    | .ok _ => (g.deleteVersion txn .edge eid c, .ok ())

def deleteEdge (g : MemoryGraph V) (txn : MemTransaction) (eid : Nat) : Outcome V Unit :=
  match txn.lockStrategy with
  | .pessimistic => g.deleteEdgeInPlace txn eid
  | .optimistic => g.recordOccEdgeDelete txn eid

/-- Run `op` for each id in turn, stopping at the first error. -/
def forEach (op : MemoryGraph V → Nat → Outcome V Unit) (g : MemoryGraph V) :
    List Nat → Outcome V Unit
  | [] => (g, .ok ())
  | id :: ids =>
    match op g id with
    | (g', .error e) => (g', .error e)
    | (g', .ok _) => forEach op g' ids

/-- The cascade of a pessimistic `delete_vertex`: the incident edges still in the map. -/
def cascadeInPlace (g : MemoryGraph V) (txn : MemTransaction) (vid : Nat) : Outcome V Unit :=
  g.forEach (fun g eid => if (g.edges eid).isSome then g.deleteEdgeInPlace txn eid
    else (g, .ok ())) ((g.incoming vid ++ g.outgoing vid).map Neighbor.eid)

/-- Whether a staged edge write touches the vertex `vid`. -/
def touchesVertex (vid : Nat) : WriteKind (Edge V) → Bool
  | .insert e => e.srcId == vid || e.dstId == vid
  | .update before after =>
    before.srcId == vid || before.dstId == vid || after.srcId == vid || after.dstId == vid
  | .delete before => before.srcId == vid || before.dstId == vid

/-- The edges an optimistic `delete_vertex` stages for deletion: those with a staged
write that touches the vertex, then the others of the adjacency sets, each once. -/
def incidentEdges (g : MemoryGraph V) (txn : MemTransaction) (vid : Nat) : List Nat :=
  let staged := ((g.txns txn.txnId).edgeWrites.filter fun w => touchesVertex vid w.2.kind).map
    Prod.fst
  ((g.incoming vid ++ g.outgoing vid).map Neighbor.eid).foldl
    (fun ids eid => if eid ∈ ids then ids else ids ++ [eid]) staged

def deleteVertex (g : MemoryGraph V) (txn : MemTransaction) (vid : Nat) : Outcome V Unit :=
  match txn.lockStrategy with
  | .pessimistic =>
    match g.vertices vid with
    | none => (g, .error (.notFound .vertex vid))
    | some c =>
      match prewriteCheck c.current.commitTs txn with
      | .error e => (g, .error e)
      | .ok _ =>
        match g.cascadeInPlace txn vid with
        | (g, .error e) => (g, .error e)
        | (g, .ok _) => (g.deleteVersion txn .vertex vid c, .ok ())
  | .optimistic =>
    match g.stageDelete txn .vertex vid with
    | (g, .error e) => (g, .error e)
    | (g, .ok _) =>
      match g.forEach (fun g eid => g.recordOccEdgeDelete txn eid) (g.incidentEdges txn vid) with
      | (g, .error e) => (g, .error e)
      | (g, .ok _) => (g.pushRedo txn (.delVertex vid), .ok ())

/-- Whether `set_props` stays in bounds. -/
def propsInBounds {k : Kind} (d : Data V k) (indices : List Nat) (props : List V) : Bool :=
  (indices.zip props).all fun ip => decide (ip.1 < d.properties.length)

/-- `set_vertex_property` and `set_edge_property`. -/
def setProperty (g : MemoryGraph V) (txn : MemTransaction) (k : Kind) (id : Nat)
    (indices : List Nat) (props : List V) : Outcome V Unit :=
  let redo : DeltaOp V := .setProps k id ⟨indices, props⟩
  match txn.lockStrategy with
  | .pessimistic =>
    match g.chain k id with
    | none => (g, .error (.notFound k id))
    | some c =>
      match g.updateProperties txn k id c indices props with
      | (g, .error e) => (g, .error e)
      | (g, .ok _) => (g.pushRedo txn redo, .ok ())
  | .optimistic =>
    match (g.txns txn.txnId).lookupWrite k id with
    | some intent =>
      match intent.kind with
      | .insert existing =>
        if propsInBounds existing indices props then
          ((g.stage txn k id { intent with kind := .insert (existing.setProps indices props) }
            ).pushRedo txn redo, .ok ())
        else (g, .error .panicked)
      | .update before after =>
        if propsInBounds after indices props then
          ((g.recordUpdate txn k id intent.guardTs before (after.setProps indices props)
            ).pushRedo txn redo, .ok ())
        else (g, .error .panicked)
      | .delete _ => (g, .error (.scheduledForDeletion k id))
    | none =>
      match g.chain k id with
      | none => (g, .error (.notFound k id))
      | some c =>
        match g.snapshotWithGuard txn c with
        | .error e => (g, .error e)
        | .ok (before, guardTs) =>
          if propsInBounds before indices props then
            ((g.recordUpdate txn k id guardTs before (before.setProps indices props)
              ).pushRedo txn redo, .ok ())
          else (g, .error .panicked)

def setVertexProperty (g : MemoryGraph V) (txn : MemTransaction) (vid : Nat)
    (indices : List Nat) (props : List V) : Outcome V Unit :=
  g.setProperty txn .vertex vid indices props

def setEdgeProperty (g : MemoryGraph V) (txn : MemTransaction) (eid : Nat)
    (indices : List Nat) (props : List V) : Outcome V Unit :=
  g.setProperty txn .edge eid indices props

end MemoryGraph

end MiniGU
