import MiniGU.Model.State

/-!
# Reads: point reads, scans and adjacency scans

`get_vertex`, `get_edge` and the visibility tests of `memory_graph.rs`, and the three
iterators of `tp/iterators`. An iterator is drained in one go; the order in which a
`DashMap` lists its keys is not specified, so the scans take it as an argument.
-/

namespace MiniGU

variable {V : Type}

/-- The post-write image of a write intent; a pending delete has none. -/
def WriteKind.image {D : Type} : WriteKind D → Option D
  | .insert d => some d
  | .update _ after => some after
  | .delete _ => none

namespace MemTransaction

/-- The head is another transaction's, or was committed after this one started. -/
def isForeign (txn : MemTransaction) (commitTs : Nat) : Bool :=
  (Timestamp.isTxnId commitTs && commitTs != txn.txnId) ||
  (Timestamp.isCommitTs commitTs && decide (txn.startTs < commitTs))

/-- The head is this transaction's own, or was committed no later than it started. -/
def isOwnOrVisible (txn : MemTransaction) (commitTs : Nat) : Bool :=
  (Timestamp.isTxnId commitTs && commitTs == txn.txnId) ||
  (Timestamp.isCommitTs commitTs && decide (commitTs ≤ txn.startTs))

theorem isOwnOrVisible_eq_not_isForeign (txn : MemTransaction) (ts : Nat) :
    txn.isOwnOrVisible ts = !txn.isForeign ts := by
  unfold isOwnOrVisible isForeign Timestamp.isTxnId Timestamp.isCommitTs
  by_cases h : Timestamp.txnIdStart ≤ ts
  · have h' : ¬ ts < Timestamp.txnIdStart := by omega
    simp [h, h', bne]
  · have h' : ts < Timestamp.txnIdStart := by omega
    have hle : decide (ts ≤ txn.startTs) = !decide (txn.startTs < ts) := by
      rw [Bool.eq_iff_iff]
      simp
    simp [h, h', hle]

end MemTransaction

/-- The direction of an adjacency scan. -/
inductive Direction where
  | incoming
  | outgoing
  | both
deriving DecidableEq, Repr

def Direction.hasOutgoing : Direction → Bool
  | .incoming => false
  | _ => true

def Direction.hasIncoming : Direction → Bool
  | .outgoing => false
  | _ => true

namespace MemoryGraph

/-- `apply_deltas_for_read`: the version of `d` that a snapshot at `startTs` sees. -/
def applyDeltasForRead (g : MemoryGraph V) {k : Kind} (undoPtr : UndoPtr (DeltaOp V))
    (d : Data V k) (startTs : Nat) : Data V k :=
  walk DeltaOp.undo g.upgradable startTs d undoPtr

/-- Under optimistic locking a read first consults the transaction's own intent. -/
def pendingWrite (g : MemoryGraph V) (txn : MemTransaction) (k : Kind) (id : Nat) :
    Option (WriteIntent (Data V k)) :=
  if txn.lockStrategy = .optimistic then (g.txns txn.txnId).lookupWrite k id else none

/-- The version of a chain that `txn` sees, tombstone or not. -/
def visibleData (g : MemoryGraph V) (txn : MemTransaction) {k : Kind}
    (c : VersionChain (Data V k) (DeltaOp V)) : Data V k :=
  if txn.isForeign c.current.commitTs then
    g.applyDeltasForRead c.undoPtr c.current.data txn.startTs
  else c.current.data

/-- The result of `get_vertex` and `get_edge`. -/
def readEntity (g : MemoryGraph V) (txn : MemTransaction) (k : Kind) (id : Nat) :
    Except StorageError (Data V k) :=
  match g.pendingWrite txn k id with
  | some intent =>
    match intent.kind.image with
    | some d => if d.isTombstone then .error (.isTombstone k id) else .ok d
    | none => .error (.isTombstone k id)
  | none =>
    match g.chain k id with
    | none => .error (.notFound k id)
    | some c =>
      if (g.visibleData txn c).isTombstone then .error (.isTombstone k id)
      else .ok (g.visibleData txn c)

/-- What `get_vertex` and `get_edge` add to the read set: the id, when the version
chain is consulted at the serializable level. -/
def noteRead (g : MemoryGraph V) (txn : MemTransaction) (k : Kind) (id : Nat) : MemoryGraph V :=
  match g.pendingWrite txn k id, g.chain k id, txn.isolationLevel with
  | none, some _, .serializable => g.modifyTxn txn.txnId fun s => s.insertRead k id
  | _, _, _ => g

def getEntity (g : MemoryGraph V) (txn : MemTransaction) (k : Kind) (id : Nat) :
    Outcome V (Data V k) :=
  (g.noteRead txn k id, g.readEntity txn k id)

def getVertex (g : MemoryGraph V) (txn : MemTransaction) (vid : Nat) : Outcome V (Vertex V) :=
  g.getEntity txn .vertex vid

def getEdge (g : MemoryGraph V) (txn : MemTransaction) (eid : Nat) : Outcome V (Edge V) :=
  g.getEntity txn .edge eid

/-! ## Visibility of a chain -/

/-- `VersionedVertex::get_visible` and `VersionedEdge::get_visible`. -/
def getVisible (g : MemoryGraph V) (txn : MemTransaction) {k : Kind}
    (c : VersionChain (Data V k) (DeltaOp V)) : Except StorageError (Data V k) :=
  if txn.isOwnOrVisible c.current.commitTs then
    if c.current.data.isTombstone then .error (.versionNotVisible txn.txnId)
    else .ok c.current.data
  else
    let d := g.applyDeltasForRead c.undoPtr c.current.data txn.startTs
    if d.isTombstone then .error (.versionNotVisible txn.txnId) else .ok d

/-- What undoing one record does to the flag that `is_visible` tracks. -/
def undoFlag : Kind → DeltaOp V → Bool → Bool
  | .vertex, .delVertex _, _ => false
  | .vertex, .createVertex _, _ => true
  | .edge, .delEdge _, _ => false
  | .edge, .createEdge _, _ => true
  | _, _, b => b

/-- The part of `is_visible` that looks at one chain. -/
def chainIsVisible (g : MemoryGraph V) (txn : MemTransaction) {k : Kind}
    (c : VersionChain (Data V k) (DeltaOp V)) : Bool :=
  if txn.isOwnOrVisible c.current.commitTs then !c.current.data.isTombstone
  else walk (undoFlag k) g.upgradable txn.startTs (!c.current.data.isTombstone) c.undoPtr

/-- `VersionedVertex::is_visible` for the vertex `vid`, if it is in the map. -/
def vertexIsVisible (g : MemoryGraph V) (txn : MemTransaction) (vid : Nat) : Bool :=
  (g.vertices vid).elim false fun c => g.chainIsVisible (k := .vertex) txn c

/-- `VersionedEdge::is_visible`: both endpoints must be visible as well. -/
def edgeIsVisible (g : MemoryGraph V) (txn : MemTransaction) (eid : Nat) : Bool :=
  (g.edges eid).elim false fun c =>
    g.vertexIsVisible txn c.current.data.dstId && g.vertexIsVisible txn c.current.data.srcId &&
      g.chainIsVisible (k := .edge) txn c

/-! ## Scans -/

/-- What `VertexIterator` and `EdgeIterator` yield for the key `id` of the map. -/
def iterItem (g : MemoryGraph V) (txn : MemTransaction) (k : Kind)
    (filter : Data V k → Bool) (id : Nat) : Option (Data V k) :=
  match g.chain k id with
  | none => none
  | some c =>
    match g.pendingWrite txn k id with
    | some intent => intent.kind.image.filter fun d => !d.isTombstone && filter d
    | none => (g.getVisible txn c).toOption.filter filter

/-- The pending inserts of an optimistic transaction that are not in the map. -/
def pendingInserts (g : MemoryGraph V) (txn : MemTransaction) (k : Kind) : List (Data V k) :=
  if txn.lockStrategy = .optimistic then
    ((g.txns txn.txnId).writes k).filterMap fun w =>
      match w.2.kind, g.chain k w.1 with
      | .insert d, none => some d
      | _, _ => none
  else []

/-- All items a scan yields, the map's keys being listed as `keys`. -/
def iterItems (g : MemoryGraph V) (txn : MemTransaction) (k : Kind) (keys : List Nat)
    (filter : Data V k → Bool) : List (Data V k) :=
  keys.filterMap (g.iterItem txn k filter) ++ (g.pendingInserts txn k).filter filter

/-- The read set after the scan: the keys yielded from the version chains. -/
def noteScan (g : MemoryGraph V) (txn : MemTransaction) (k : Kind) (keys : List Nat)
    (filter : Data V k → Bool) : MemoryGraph V :=
  keys.foldl (fun h id =>
    if (g.pendingWrite txn k id).isNone && (g.iterItem txn k filter id).isSome then
      h.modifyTxn txn.txnId fun s => s.insertRead k id
    else h) g

/-- `keys` lists the keys of the map of kind `k`, each once. -/
structure ListsKeys (g : MemoryGraph V) (k : Kind) (keys : List Nat) : Prop where
  nodup : keys.Nodup
  mem_iff : ∀ id, id ∈ keys ↔ (g.chain k id).isSome = true

def iterVertices (g : MemoryGraph V) (txn : MemTransaction) (keys : List Nat)
    (filter : Vertex V → Bool) : MemoryGraph V × List (Vertex V) :=
  (g.noteScan txn .vertex keys filter, g.iterItems txn .vertex keys filter)

def iterEdges (g : MemoryGraph V) (txn : MemTransaction) (keys : List Nat)
    (filter : Edge V → Bool) : MemoryGraph V × List (Edge V) :=
  (g.noteScan txn .edge keys filter, g.iterItems txn .edge keys filter)

/-! ## Adjacency scans -/

/-- One staged edge write laid over the adjacency set of `vid`. -/
def overlayEdge (vid : Nat) (dir : Direction) (combined : List Neighbor) :
    WriteKind (Edge V) → List Neighbor
  | .insert e | .update _ e =>
    if e.isTombstone then combined
    else
      let out := if dir.hasOutgoing && e.srcId == vid then
          SkipList.insert Neighbor.lt ⟨e.labelId, e.dstId, e.eid⟩ combined else combined
      if dir.hasIncoming && e.dstId == vid then
        SkipList.insert Neighbor.lt ⟨e.labelId, e.srcId, e.eid⟩ out else out
  | .delete e =>
    let out := if dir.hasOutgoing && e.srcId == vid then
        SkipList.remove Neighbor.lt ⟨e.labelId, e.dstId, e.eid⟩ combined else combined
    if dir.hasIncoming && e.dstId == vid then
      SkipList.remove Neighbor.lt ⟨e.labelId, e.srcId, e.eid⟩ out else out

/-- The adjacency set that `AdjacencyIterator::new` walks. -/
def adjacencyEntries (g : MemoryGraph V) (txn : MemTransaction) (vid : Nat) (dir : Direction) :
    List Neighbor :=
  let base := match dir with
    | .incoming => g.incoming vid
    | .outgoing => g.outgoing vid
    | .both => (g.outgoing vid).foldl (fun l n => SkipList.insert Neighbor.lt n l)
        (g.incoming vid)
  if txn.lockStrategy = .optimistic then
    (g.txns txn.txnId).edgeWrites.foldl (fun l w => overlayEdge vid dir l w.2.kind) base
  else base

/-- The visibility test of `AdjacencyIterator::next`. -/
def neighborIsVisible (g : MemoryGraph V) (txn : MemTransaction) (n : Neighbor) : Bool :=
  match g.pendingWrite txn .edge n.eid with
  | some intent =>
    match intent.kind.image with
    | some e => !e.isTombstone
    | none => false
  | none => g.edgeIsVisible txn n.eid

def iterAdjacency (g : MemoryGraph V) (txn : MemTransaction) (vid : Nat) (dir : Direction)
    (filter : Neighbor → Bool) : List Neighbor :=
  (g.adjacencyEntries txn vid dir).filter fun n => g.neighborIsVisible txn n && filter n

end MemoryGraph

end MiniGU
