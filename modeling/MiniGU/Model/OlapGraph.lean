import Mathlib.Logic.Function.Basic
import MiniGU.Model.Timestamp

/-!
# The AP store (`storage/src/ap/olap_graph.rs`)

Edges live in blocks of 256 slots, property values in columns of blocks of the same
shape, one version list for each slot. A slot holds one timestamp, overwritten in place.

* `usize::MAX` as a vertex's `block_offset` is `none`.
* `EdgeBlock.edges` lists the slots below `edge_counter`. The slots behind it hold
  `OlapStorageEdge::default()`, except in a block that `delete_edge` emptied, which every
  read skips as a tombstone.
* A read or a call that panics gives `none`: `Vec::insert` behind the end of its vector, or an
  index out of range.
* Left out are the values nothing reads: the bounds on labels, vertices and timestamps
  other than `min_ts`, and the compressed copies. Compaction
  takes the blocks out of the store, and is no step here.
-/

namespace MiniGU

namespace Olap

variable {V : Type}

def blockCapacity : Nat := 256

def tombstoneLabelId : Nat := 1

def tombstoneDstId : Nat := 1

inductive StorageError where
  | sourceVertexNotFound (vid : Nat)
  | vertexNotFound (vid : Nat)
  | vertexExisted (vid : Nat)
  | edgeNotFound (eid : Nat)
  | vertexBlockNotFound (vid : Nat)
  | edgeBlockNotFound (vid : Nat)
  | lengthMismatch (indices props : Nat)
  | propertyIndexOutOfRange
  | timestamp (e : TimestampError)
  | transactionAlreadyCommitted (commitTs : Nat)
deriving DecidableEq, Repr

structure OlapVertex (V : Type) where
  vid : Nat
  properties : List V
  blockOffset : Option Nat
deriving DecidableEq, Repr

structure OlapStorageEdge where
  eid : Nat
  labelId : Option Nat
  dstId : Nat
  commitTs : Nat
deriving DecidableEq, Repr

/-- Deleted, or the padding of a block. -/
def OlapStorageEdge.isTombstone (edge : OlapStorageEdge) : Bool :=
  edge.labelId == some tombstoneLabelId && edge.dstId == tombstoneDstId

structure OlapEdge (V : Type) where
  labelId : Option Nat
  srcId : Nat
  dstId : Nat
  properties : List (Option V)
deriving DecidableEq, Repr

/-- `OlapPropertyStore::get`. -/
def OlapEdge.get (edge : OlapEdge V) (index : Nat) : Option V :=
  (edge.properties[index]?).join

/-- `OlapPropertyStore::set_prop`, a `Vec::insert`. -/
def setProp (props : List (Option V)) (index : Nat) (prop : Option V) :
    Option (List (Option V)) :=
  if index ≤ props.length then some (props.insertIdx index prop) else none

structure EdgeBlock where
  preBlockIndex : Option Nat
  isTombstone : Bool
  minTs : Nat
  srcId : Nat
  edges : List OlapStorageEdge
deriving DecidableEq, Repr

structure PropertyVersion (V : Type) where
  ts : Nat
  value : Option V
deriving DecidableEq, Repr

/-- One version list for each of the 256 slots. -/
structure PropertyBlock (V : Type) where
  values : Nat → List (PropertyVersion V)

structure PropertyColumn (V : Type) where
  blocks : List (PropertyBlock V)

structure OlapStorage (V : Type) where
  logicIdCounter : Nat
  edgeIdCounter : Nat
  denseIdMap : Nat → Option Nat
  edgeIdMap : Nat → Option (Nat × Nat)
  vertices : List (OlapVertex V)
  edges : List EdgeBlock
  propertyColumns : List (PropertyColumn V)

/-- An empty store with `propertyCnt` columns. Edge id 0 is never given out: it marks
the slots behind the end of a block. -/
def OlapStorage.new (propertyCnt : Nat) : OlapStorage V where
  logicIdCounter := 0
  edgeIdCounter := 1
  denseIdMap _ := none
  edgeIdMap _ := none
  vertices := []
  edges := []
  propertyColumns := List.replicate propertyCnt ⟨[]⟩

/-- The two fields of a transaction that a read uses. -/
structure Reader where
  txnId : Nat
  startTs : Nat
deriving DecidableEq, Repr

/-- A transaction sees its own stamp and the commits up to its start. -/
def Reader.sees (txn : Reader) (ts : Nat) : Bool :=
  if Timestamp.isTxnId ts then ts == txn.txnId else decide (ts ≤ txn.startTs)

def propValueVisibleAt (versions : List (PropertyVersion V)) (txn : Reader) : Option V :=
  (versions.reverse.find? fun v => txn.sees v.ts).bind (·.value)

def latestCommittedPropValue (versions : List (PropertyVersion V)) : Option V :=
  (versions.reverse.find? fun v => !Timestamp.isTxnId v.ts).bind (·.value)

def latestPropValue (versions : List (PropertyVersion V)) : Option V :=
  versions.getLast?.bind (·.value)

/-- The filter on the block header. -/
def EdgeBlock.hiddenFrom (block : EdgeBlock) (txn : Reader) : Bool :=
  Timestamp.isCommitTs block.minTs && decide (txn.startTs < block.minTs)

namespace OlapStorage

/-! ## Reads at a timestamp -/

/-- The version list of a slot in a column. A missing block reads as no version. -/
def versionsAt (column : PropertyColumn V) (blockIdx offset : Nat) : List (PropertyVersion V) :=
  match column.blocks[blockIdx]? with
  | none => []
  | some block => block.values offset

/-- The properties of a slot, gathered column by column. -/
def propertiesAt (columns : List (PropertyColumn V)) (txn : Reader) (blockIdx offset : Nat) :
    Option (List (Option V)) :=
  columns.zipIdx.foldlM (fun props (column, colIdx) =>
    match propValueVisibleAt (versionsAt column blockIdx offset) txn with
    | some val => setProp props colIdx (some val)
    | none => some props) []

def edgeWithProps (g : OlapStorage V) (txn : Reader) (block : EdgeBlock) (blockIdx : Nat)
    (edge : OlapStorageEdge) (offset : Nat) : Option (OlapEdge V) :=
  (propertiesAt g.propertyColumns txn blockIdx offset).map fun props =>
    { labelId := edge.labelId, srcId := block.srcId, dstId := edge.dstId, properties := props }

def getEdgeAtTs (g : OlapStorage V) (txn : Reader) (eid : Nat) :
    Option (Option (OlapEdge V)) :=
  match g.edgeIdMap eid with
  | none => some none
  | some (blockIdx, offset) =>
    match g.edges[blockIdx]? with
    | none => some none
    | some block =>
      match block.edges[offset]? with
      | none => some none
      | some edge =>
        if block.isTombstone then some none
        else if block.hiddenFrom txn then some none
        else if edge.eid ≠ eid then some none
        else if edge.isTombstone then some none
        else if txn.sees edge.commitTs then
          (g.edgeWithProps txn block blockIdx edge offset).map some
        else some none

/-- `get_edge`: the slot whatever its stamp, with the properties visible to the reader. -/
def getEdge (g : OlapStorage V) (txn : Reader) (eid : Nat) :
    Option (Except StorageError (OlapEdge V)) :=
  match g.edgeIdMap eid with
  | none => some (.error (.edgeNotFound eid))
  | some (blockIdx, offset) =>
    match g.edges[blockIdx]? with
    | none => some (.error (.edgeNotFound eid))
    | some block =>
      match block.edges[offset]? with
      | none => some (.error (.edgeNotFound eid))
      | some edge =>
        if block.isTombstone then some (.error (.edgeNotFound eid))
        else if edge.isTombstone then some (.error (.edgeNotFound eid))
        else if edge.eid ≠ eid then some (.error (.edgeNotFound eid))
        else (g.edgeWithProps txn block blockIdx edge offset).map .ok

/-- What `EdgeIterAtTs` yields from one block: it stops at the first unused slot and
passes over tombstones. -/
def scanBlock (g : OlapStorage V) (txn : Reader) (block : EdgeBlock) (blockIdx : Nat) :
    List (Option (OlapEdge V)) :=
  (block.edges.zipIdx.takeWhile fun (raw, _) => raw.eid != 0).filterMap fun (raw, offset) =>
    if raw.isTombstone then none
    else if txn.sees raw.commitTs then some (g.edgeWithProps txn block blockIdx raw offset)
    else none

/-- The items of `EdgeIterAtTs`, in order; `none` is a call of `next` that panics. -/
def iterEdgesAtTs (g : OlapStorage V) (txn : Reader) : List (Option (OlapEdge V)) :=
  g.edges.zipIdx.flatMap fun (block, blockIdx) =>
    if block.isTombstone then []
    else if block.hiddenFrom txn then []
    else g.scanBlock txn block blockIdx

/-- What `AdjacencyIteratorAtTs` yields from one block: it takes a tombstone for the
end of the block. -/
def scanAdjacentBlock (g : OlapStorage V) (txn : Reader) (block : EdgeBlock) (blockIdx : Nat) :
    List (Option (OlapEdge V)) :=
  (block.edges.zipIdx.takeWhile fun (raw, _) => !raw.isTombstone).filterMap fun (raw, offset) =>
    if txn.sees raw.commitTs then some (g.edgeWithProps txn block blockIdx raw offset)
    else none

/-- The items of `AdjacencyIteratorAtTs` from a block on. A block is older than the
one that points back to it, so the number of blocks bounds the walk. -/
def scanAdjacency (g : OlapStorage V) (txn : Reader) :
    Nat → Option Nat → List (Option (OlapEdge V))
  | 0, _ => []
  | _, none => []
  | fuel + 1, some blockIdx =>
    match g.edges[blockIdx]? with
    | none => []
    | some block =>
      if block.isTombstone then g.scanAdjacency txn fuel block.preBlockIndex
      else if block.hiddenFrom txn then g.scanAdjacency txn fuel block.preBlockIndex
      else g.scanAdjacentBlock txn block blockIdx ++ g.scanAdjacency txn fuel block.preBlockIndex

/-- The last committed properties of a slot. -/
def committedPropertiesAt (columns : List (PropertyColumn V)) (blockIdx offset : Nat) :
    Option (List (Option V)) :=
  columns.zipIdx.foldlM (fun props (column, colIdx) =>
    match latestCommittedPropValue (versionsAt column blockIdx offset) with
    | some val => setProp props colIdx (some val)
    | none => some props) []

/-- A stored edge as `AdjacencyIterator` yields it. -/
def edgeWithCommitted (g : OlapStorage V) (block : EdgeBlock) (blockIdx : Nat)
    (edge : OlapStorageEdge) (offset : Nat) : Option (OlapEdge V) :=
  (committedPropertiesAt g.propertyColumns blockIdx offset).map fun props =>
    { labelId := edge.labelId, srcId := block.srcId, dstId := edge.dstId, properties := props }

/-- The items of `AdjacencyIterator` from a block on, whatever the stamps of slots and blocks. -/
def scanStored (g : OlapStorage V) : Nat → Option Nat → List (Option (OlapEdge V))
  | 0, _ => []
  | _, none => []
  | fuel + 1, some blockIdx =>
    match g.edges[blockIdx]? with
    | none => []
    | some block =>
      if block.isTombstone then g.scanStored fuel block.preBlockIndex
      else
        ((block.edges.zipIdx.takeWhile fun (raw, _) => !raw.isTombstone).map fun (raw, offset) =>
          g.edgeWithCommitted block blockIdx raw offset) ++ g.scanStored fuel block.preBlockIndex

def getVertex (g : OlapStorage V) (vid : Nat) : Except StorageError (OlapVertex V) :=
  match g.denseIdMap vid with
  | none => .error (.vertexNotFound vid)
  | some logicalId =>
    match g.vertices[logicalId]? with
    | none => .error (.edgeNotFound vid)
    | some vertex => .ok vertex

def iterAdjacencyAtTs (g : OlapStorage V) (txn : Reader) (vid : Nat) :
    Except StorageError (List (Option (OlapEdge V))) :=
  (g.getVertex vid).map fun vertex => g.scanAdjacency txn g.edges.length vertex.blockOffset

def iterAdjacency (g : OlapStorage V) (vid : Nat) :
    Except StorageError (List (Option (OlapEdge V))) :=
  (g.getVertex vid).map fun vertex => g.scanStored g.edges.length vertex.blockOffset

/-! ## Where an edge lives -/

/-- The slot at an offset below the block's counter. -/
def slotAt (g : OlapStorage V) (blockIdx offset : Nat) : Option OlapStorageEdge :=
  (g.edges[blockIdx]?).bind fun block => block.edges[offset]?

/-- Whether a location holds the edge. -/
def holds (g : OlapStorage V) (eid : Nat) (loc : Nat × Nat) : Bool :=
  match g.slotAt loc.1 loc.2 with
  | none => false
  | some edge => edge.eid == eid

/-- The scan over all blocks that `resolve_edge_location` falls back to. -/
def scanForEdge (g : OlapStorage V) (eid : Nat) : Option (Nat × Nat) :=
  g.edges.zipIdx.findSome? fun (block, blockIdx) =>
    (block.edges.findIdx? fun edge => edge.eid == eid).map fun offset => (blockIdx, offset)

/-- The preferred location, then the map's, then the scan, which mends the map. -/
def resolveEdgeLocation (g : OlapStorage V) (eid : Nat) (preferred : Nat × Nat) :
    OlapStorage V × Option (Nat × Nat) :=
  if g.holds eid preferred then (g, some preferred)
  else
    match (g.edgeIdMap eid).filter (g.holds eid) with
    | some loc => (g, some loc)
    | none =>
      match g.scanForEdge eid with
      | some loc => ({ g with edgeIdMap := Function.update g.edgeIdMap eid (some loc) }, some loc)
      | none => (g, none)

/-- The map after the edges of a block from an offset on have moved. -/
def remap (edgeIdMap : Nat → Option (Nat × Nat)) (blockIdx : Nat)
    (edges : List OlapStorageEdge) (start : Nat) : Nat → Option (Nat × Nat) :=
  (edges.zipIdx.drop start).foldl (fun map (edge, i) =>
    if edge.eid = 0 then map else Function.update map edge.eid (some (blockIdx, i))) edgeIdMap

/-! ## Property blocks -/

/-- A block of a column, made when it is the next one. `Vec::insert` panics when a
block before it is missing. -/
def ensureBlock (blocks : List (PropertyBlock V)) (blockIdx : Nat) :
    Option (List (PropertyBlock V)) :=
  if blockIdx < blocks.length then some blocks
  else if blockIdx = blocks.length then some (blocks ++ [⟨fun _ => []⟩])
  else none

def modifyValues (f : (Nat → List (PropertyVersion V)) → Nat → List (PropertyVersion V))
    (blocks : List (PropertyBlock V)) (blockIdx : Nat) : List (PropertyBlock V) :=
  blocks.modify blockIdx fun block => ⟨f block.values⟩

/-- Move the values from `pos` on one slot to the right, the counter being `counter`.
The slot at `pos` keeps a copy. -/
def shiftRight (pos counter : Nat) (values : Nat → List (PropertyVersion V)) :
    Nat → List (PropertyVersion V) :=
  fun i => if pos < i ∧ i ≤ counter then values (i - 1) else values i

/-- Move the values behind `pos` one slot to the left and clear the last one. -/
def shiftLeft (pos counter : Nat) (values : Nat → List (PropertyVersion V)) :
    Nat → List (PropertyVersion V) :=
  fun i => if pos ≤ i ∧ i < counter then values (i + 1) else if i = counter then [] else values i

def pushVersion (offset : Nat) (version : PropertyVersion V)
    (values : Nat → List (PropertyVersion V)) : Nat → List (PropertyVersion V) :=
  Function.update values offset (values offset ++ [version])

/-! ## Creating an edge -/

/-- The key of `binary_search_by_key`: the destination, then the label, `None` first. -/
def compareKey (a b : Nat × Option Nat) : Ordering :=
  (compare a.1 b.1).then <|
    match a.2, b.2 with
    | none, none => .eq
    | none, some _ => .lt
    | some _, none => .gt
    | some l, some l' => compare l l'

/-- The loop of the standard library's binary search. -/
def searchBase (cmp : Nat → Ordering) : (fuel size base : Nat) → Nat
  | 0, _, base => base
  | fuel + 1, size, base =>
    if size ≤ 1 then base
    else
      let half := size / 2
      let mid := base + half
      searchBase cmp fuel (size - half) (if cmp mid = .gt then base else mid)

/-- `binary_search_by_key(..).unwrap_or_else(|e| e)` over the slots in use. -/
def insertPos (edges : List OlapStorageEdge) (key : Nat × Option Nat) : Nat :=
  let cmp i := match edges[i]? with
    | none => .eq
    | some edge => compareKey (edge.dstId, edge.labelId) key
  if edges = [] then 0
  else
    let base := searchBase cmp edges.length edges.length 0
    match cmp base with
    | .lt => base + 1
    | _ => base

/-- Push an empty block and let the vertex start there. -/
def pushBlock (g : OlapStorage V) (denseId : Nat) (pre : Option Nat) (srcId minTs : Nat) :
    OlapStorage V :=
  { g with
    edges := g.edges ++
      [{ preBlockIndex := pre, isTombstone := false, minTs := minTs, srcId := srcId, edges := [] }]
    vertices := g.vertices.modify denseId fun v => { v with blockOffset := some g.edges.length } }

/-- The block a new edge of the vertex goes to: its last one, or a new one when there is
none or it is full. -/
def openBlock (g : OlapStorage V) (denseId : Nat) (vertex : OlapVertex V) (srcId minTs : Nat) :
    Except StorageError (OlapStorage V × Nat) :=
  match vertex.blockOffset with
  | none => .ok (g.pushBlock denseId none srcId minTs, g.edges.length)
  | some offset =>
    match g.edges[offset]? with
    | none => .error (.vertexBlockNotFound vertex.vid)
    | some block =>
      if blockCapacity ≤ block.edges.length then
        .ok (g.pushBlock denseId (some offset) srcId minTs, g.edges.length)
      else .ok (g, offset)

/-- Put a slot into a block and move the ones behind it. -/
def insertSlot (g : OlapStorage V) (blockIdx pos : Nat) (edge : OlapStorageEdge) :
    OlapStorage V :=
  let edges := g.edges.modify blockIdx fun block =>
    { block with edges := block.edges.insertIdx pos edge }
  let slots := match edges[blockIdx]? with
    | none => []
    | some block => block.edges
  { g with
    edges := edges
    edgeIdMap := Function.update (remap g.edgeIdMap blockIdx slots (pos + 1)) edge.eid
      (some (blockIdx, pos)) }

def extendColumns (g : OlapStorage V) (n : Nat) : OlapStorage V :=
  { g with propertyColumns :=
      g.propertyColumns ++ List.replicate (n - g.propertyColumns.length) ⟨[]⟩ }

/-- Make room for the new slot in every column and push its first version there. -/
def insertProperties (g : OlapStorage V) (blockIdx pos counter stamp : Nat) (edge : OlapEdge V) :
    Option (OlapStorage V) :=
  let insert (p : PropertyColumn V × Nat) : Option (PropertyColumn V) :=
    (ensureBlock p.1.blocks blockIdx).map fun blocks =>
      ⟨modifyValues (fun values => pushVersion pos ⟨stamp, edge.get p.2⟩
        (shiftRight pos counter values)) blocks blockIdx⟩
  (g.propertyColumns.zipIdx.mapM insert).map fun columns => { g with propertyColumns := columns }

/-- Lower the first timestamp of a block. -/
def touchBlock (g : OlapStorage V) (blockIdx ts : Nat) : OlapStorage V :=
  { g with edges := g.edges.modify blockIdx fun block =>
      { block with minTs := min block.minTs ts } }

/-- The vertex an edge starts at, with its place in the vertex array. -/
def findSource (g : OlapStorage V) (srcId : Nat) : Except StorageError (Nat × OlapVertex V) :=
  match g.denseIdMap srcId with
  | none => .error (.sourceVertexNotFound srcId)
  | some denseId =>
    match g.vertices[denseId]? with
    | none => .error (.sourceVertexNotFound srcId)
    | some vertex => .ok (denseId, vertex)

/-! ## Removing an edge -/

/-- Close the gap that the slot at an offset leaves, in the block and the map. -/
def removeSlot (g : OlapStorage V) (blockIdx offset eid : Nat) : OlapStorage V :=
  let edges := g.edges.modify blockIdx fun block =>
    { block with edges := block.edges.eraseIdx offset }
  let slots := match edges[blockIdx]? with
    | none => []
    | some block => block.edges
  { g with
    edges := edges
    edgeIdMap := Function.update (remap g.edgeIdMap blockIdx slots offset) eid none }

/-- Close the gap in every column that has the block; `counter` slots stay in use. -/
def removeProperties (g : OlapStorage V) (blockIdx offset counter : Nat) : OlapStorage V :=
  { g with propertyColumns := g.propertyColumns.map fun (column : PropertyColumn V) =>
      ⟨modifyValues (shiftLeft offset counter) column.blocks blockIdx⟩ }

/-- Overwrite a slot in use. -/
def modifySlot (g : OlapStorage V) (blockIdx offset : Nat)
    (f : OlapStorageEdge → OlapStorageEdge) : OlapStorage V :=
  { g with edges := g.edges.modify blockIdx fun block =>
      { block with edges := block.edges.modify offset f } }

def modifyVersions (g : OlapStorage V) (colIdx blockIdx offset : Nat)
    (f : List (PropertyVersion V) → List (PropertyVersion V)) : OlapStorage V :=
  { g with propertyColumns := g.propertyColumns.modify colIdx fun (column : PropertyColumn V) =>
      ⟨modifyValues (fun values => Function.update values offset (f (values offset)))
        column.blocks blockIdx⟩ }

/-- Make the block of one column. -/
def ensureColumnBlock (g : OlapStorage V) (colIdx blockIdx : Nat) : Option (OlapStorage V) :=
  match g.propertyColumns[colIdx]? with
  | none => none
  | some column => (ensureBlock column.blocks blockIdx).map fun blocks =>
      { g with propertyColumns := g.propertyColumns.set colIdx ⟨blocks⟩ }

/-! ## The calls outside a transaction -/

def createVertex (g : OlapStorage V) (vid : Nat) (properties : List V) :
    Option (OlapStorage V × Except StorageError Nat) :=
  match g.denseIdMap vid with
  | some _ => some (g, .error (.vertexExisted vid))
  | none =>
    let index := g.logicIdCounter
    if index ≤ g.vertices.length then
      some ({ g with
        logicIdCounter := index + 1
        denseIdMap := Function.update g.denseIdMap vid (some index)
        vertices := g.vertices.insertIdx index ⟨vid, properties, none⟩ }, .ok vid)
    else none

def createEdge (g : OlapStorage V) (edge : OlapEdge V) :
    Option (OlapStorage V × Except StorageError Nat) :=
  match g.findSource edge.srcId with
  | .error e => some (g, .error e)
  | .ok (denseId, vertex) =>
    match g.openBlock denseId vertex edge.srcId Timestamp.maxCommitTs with
    | .error e => some (g, .error e)
    | .ok (g, blockIdx) =>
      let eid := g.edgeIdCounter
      let g := { g with edgeIdCounter := eid + 1 }
      match g.edges[blockIdx]? with
      | none => some (g, .error (.edgeBlockNotFound vertex.vid))
      | some block =>
        let pos := insertPos block.edges (edge.dstId, edge.labelId)
        let g := g.insertSlot blockIdx pos ⟨eid, edge.labelId, edge.dstId, 0⟩
        (g.insertProperties blockIdx pos block.edges.length 0 edge).map fun g => (g, .ok eid)

/-- The loop of `delete_vertex` over the blocks of the vertex. Indexing a missing block
panics; the number of blocks bounds the walk. -/
def tombstoneBlocks (g : OlapStorage V) : Nat → Option Nat → Option (OlapStorage V)
  | _, none => some g
  | 0, some _ => none
  | fuel + 1, some blockIdx =>
    match g.edges[blockIdx]? with
    | none => none
    | some block =>
      tombstoneBlocks { g with edges := g.edges.set blockIdx { block with isTombstone := true } }
        fuel block.preBlockIndex

/-- A vertex that never had an edge starts at `usize::MAX`, where no block is. -/
def deleteVertex (g : OlapStorage V) (vid : Nat) :
    Option (OlapStorage V × Except StorageError Unit) :=
  match g.vertices.findIdx? fun vertex => vertex.vid == vid with
  | none => some (g, .error (.vertexNotFound vid))
  | some index =>
    match (g.vertices[index]?).bind (·.blockOffset) with
    | none => none
    | some blockIdx =>
      (tombstoneBlocks { g with vertices := g.vertices.eraseIdx index } g.edges.length
        (some blockIdx)).map fun g => (g, .ok ())

def deleteEdge (g : OlapStorage V) (eid : Nat) :
    Option (OlapStorage V × Except StorageError Unit) :=
  match g.edgeIdMap eid with
  | none => some (g, .error (.edgeNotFound eid))
  | some (blockIdx, offset) =>
    match g.edges[blockIdx]? with
    | none => none
    | some block =>
      if g.holds eid (blockIdx, offset) then
        if block.edges.length = 1 then
          -- the last edge of its block takes the block with it
          some ({ g with
            edges := g.edges.set blockIdx { block with isTombstone := true, edges := [] }
            edgeIdMap := Function.update g.edgeIdMap eid none }, .ok ())
        else
          some ((g.removeSlot blockIdx offset eid).removeProperties blockIdx offset
            (block.edges.length - 1), .ok ())
      else some (g, .error (.edgeNotFound eid))

/-- The loop of `set_vertex_property` over a vertex's record, an assignment by index. -/
def setProps (properties : List V) (indices : List Nat) (props : List V) : Option (List V) :=
  (indices.zip props).foldlM (fun record (index, prop) =>
    if index < record.length then some (record.set index prop) else none) properties

def setVertexProperty (g : OlapStorage V) (vid : Nat) (indices : List Nat) (props : List V) :
    Option (OlapStorage V × Except StorageError Unit) :=
  match g.denseIdMap vid with
  | none => some (g, .error (.vertexNotFound vid))
  | some logicalId =>
    match g.vertices[logicalId]? with
    | none => none
    | some vertex => (setProps vertex.properties indices props).map fun properties =>
        ({ g with vertices := g.vertices.set logicalId { vertex with properties := properties } },
          .ok ())

def setEdgeProperty (g : OlapStorage V) (eid : Nat) (indices : List Nat) (props : List V) :
    OlapStorage V × Except StorageError Unit :=
  match g.edgeIdMap eid with
  | none => (g, .error (.edgeNotFound eid))
  | some (blockIdx, offset) =>
    match g.edges[blockIdx]? with
    | none => (g, .error (.edgeNotFound eid))
    | some block =>
      if block.isTombstone then (g, .error (.edgeNotFound eid))
      else if g.holds eid (blockIdx, offset) then
        ((indices.zip props).foldl (fun g (index, prop) =>
          g.modifyVersions index blockIdx offset (· ++ [⟨0, some prop⟩])) g, .ok ())
      else (g, .error (.edgeNotFound eid))

end OlapStorage

end Olap

end MiniGU
