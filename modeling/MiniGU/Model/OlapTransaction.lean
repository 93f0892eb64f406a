import MiniGU.Lib.Run
import MiniGU.Model.OlapGraph

/-!
# AP transactions (`storage/src/ap/transaction.rs`)

A transaction stamps the slots and versions it writes with its id, and remembers for
each write the stamp the slot had before. Commit replaces the stamps that are still
its own; abort takes the undo buffer back to front.

* Of an undo entry only what commit and abort read is kept: the edge id and, for a
  property update, the columns.
* The calls return the new store and transaction with their result; `none` is a panic.
* A committed or aborted transaction is not kept from writing on.
-/

namespace MiniGU

namespace Olap

variable {V : Type}

/-- The entries of `DeltaOp` that AP transactions record. -/
inductive DeltaOp where
  | createEdge (eid : Nat)
  | setEdgeProps (eid : Nat) (indices : List Nat)
  | delEdge (eid : Nat)
deriving DecidableEq, Repr

def DeltaOp.eid : DeltaOp → Nat
  | createEdge eid | setEdgeProps eid _ | delEdge eid => eid

structure MemTransaction extends Reader where
  commitTs : Option Nat
  undoBuffer : List (DeltaOp × Nat)
  deletedEdgeSnapshot : Nat → Option (Option Nat × Nat)

namespace MemTransaction

def new (txnId startTs : Nat) : MemTransaction where
  txnId := txnId
  startTs := startTs
  commitTs := none
  undoBuffer := []
  deletedEdgeSnapshot _ := none

def pushUndo (txn : MemTransaction) (op : DeltaOp) (ts : Nat) : MemTransaction :=
  { txn with undoBuffer := txn.undoBuffer ++ [(op, ts)] }

def recordDeletedEdge (txn : MemTransaction) (eid : Nat) (labelId : Option Nat) (dstId : Nat) :
    MemTransaction :=
  { txn with
    deletedEdgeSnapshot := Function.update txn.deletedEdgeSnapshot eid (some (labelId, dstId)) }

end MemTransaction

namespace OlapStorage

/-! ## Writes in a transaction (`olap_graph.rs`) -/

def createEdgeInTxn (g : OlapStorage V) (txn : MemTransaction) (edge : OlapEdge V) :
    Option (OlapStorage V × MemTransaction × Except StorageError Nat) :=
  match g.findSource edge.srcId with
  | .error e => some (g, txn, .error e)
  | .ok (denseId, vertex) =>
    match g.openBlock denseId vertex edge.srcId txn.txnId with
    | .error e => some (g, txn, .error e)
    | .ok (g, blockIdx) =>
      let eid := g.edgeIdCounter
      let g := { g with edgeIdCounter := eid + 1 }
      match g.edges[blockIdx]? with
      | none => some (g, txn, .error (.edgeBlockNotFound vertex.vid))
      | some block =>
        let pos := insertPos block.edges (edge.dstId, edge.labelId)
        let g := g.insertSlot blockIdx pos ⟨eid, edge.labelId, edge.dstId, txn.txnId⟩
        let g := g.extendColumns edge.properties.length
        (g.insertProperties blockIdx pos block.edges.length txn.txnId edge).map fun g =>
          (g.touchBlock blockIdx txn.txnId, txn.pushUndo (.createEdge eid) txn.txnId, .ok eid)

/-- The slot of an edge for a write, as both writes look it up. -/
def findForWrite (g : OlapStorage V) (eid : Nat) :
    OlapStorage V × Except StorageError (Nat × Nat × OlapStorageEdge) :=
  match g.edgeIdMap eid with
  | none => (g, .error (.edgeNotFound eid))
  | some initialLocation =>
    match g.resolveEdgeLocation eid initialLocation with
    | (g, none) => (g, .error (.edgeNotFound eid))
    | (g, some (blockIdx, offset)) =>
      match g.edges[blockIdx]? with
      | none => (g, .error (.edgeNotFound eid))
      | some block =>
        match block.edges[offset]? with
        | none => (g, .error (.edgeNotFound eid))
        | some edge =>
          if block.isTombstone ∨ edge.eid ≠ eid then (g, .error (.edgeNotFound eid))
          else (g, .ok (blockIdx, offset, edge))

/-- Push one value of a property update. -/
def setVersion (txnId blockIdx offset : Nat) (g : OlapStorage V) (p : Nat × V) :
    Option (OlapStorage V) :=
  (g.ensureColumnBlock p.1 blockIdx).map fun g =>
    g.modifyVersions p.1 blockIdx offset (· ++ [⟨txnId, some p.2⟩])

def setEdgePropertyInTxn (g : OlapStorage V) (txn : MemTransaction) (eid : Nat)
    (indices : List Nat) (props : List V) :
    Option (OlapStorage V × MemTransaction × Except StorageError Unit) :=
  if indices.length ≠ props.length then
    some (g, txn, .error (.lengthMismatch indices.length props.length))
  else
    match g.findForWrite eid with
    | (g, .error e) => some (g, txn, .error e)
    | (g, .ok (blockIdx, offset, edge)) =>
      if indices.any fun idx => decide (g.propertyColumns.length ≤ idx) then
        some (g, txn, .error .propertyIndexOutOfRange)
      else
        let txn := txn.pushUndo (.setEdgeProps eid indices) edge.commitTs
        let g := g.modifySlot blockIdx offset fun edge => { edge with commitTs := txn.txnId }
        let g := g.touchBlock blockIdx txn.txnId
        ((indices.zip props).foldlM (setVersion txn.txnId blockIdx offset) g).map fun g =>
          (g, txn, .ok ())

def deleteEdgeInTxn (g : OlapStorage V) (txn : MemTransaction) (eid : Nat) :
    OlapStorage V × MemTransaction × Except StorageError Unit :=
  match g.findForWrite eid with
  | (g, .error e) => (g, txn, .error e)
  | (g, .ok (blockIdx, offset, edge)) =>
    let txn := txn.recordDeletedEdge eid edge.labelId edge.dstId
    let txn := txn.pushUndo (.delEdge eid) edge.commitTs
    let g := g.modifySlot blockIdx offset fun edge =>
      { edge with
        labelId := some tombstoneLabelId
        dstId := tombstoneDstId
        commitTs := txn.txnId }
    (g.touchBlock blockIdx txn.txnId, txn, .ok ())

end OlapStorage

/-! ## Commit -/

/-- The last version of a slot, when the transaction wrote it, becomes committed. -/
def promoteLast (txnId commitTs : Nat) (versions : List (PropertyVersion V)) :
    List (PropertyVersion V) :=
  match versions.getLast? with
  | none => versions
  | some last => if last.ts = txnId then versions.dropLast ++ [{ last with ts := commitTs }]
    else versions

namespace OlapStorage

/-- Put the commit timestamp on a slot and its block. -/
def publishSlot (g : OlapStorage V) (blockIdx offset commitTs : Nat) : OlapStorage V :=
  { g with edges := g.edges.modify blockIdx fun block =>
      { block with
        edges := block.edges.modify offset fun edge => { edge with commitTs := commitTs }
        minTs := if Timestamp.isTxnId block.minTs then commitTs else min block.minTs commitTs } }

/-- Promote the slot's versions in every column that has the block. -/
def promoteVersions (g : OlapStorage V) (blockIdx offset txnId commitTs : Nat) :
    OlapStorage V :=
  { g with propertyColumns := g.propertyColumns.map fun (column : PropertyColumn V) =>
      ⟨modifyValues (fun values =>
        Function.update values offset (promoteLast txnId commitTs (values offset)))
        column.blocks blockIdx⟩ }

/-- One entry of the undo buffer at commit: a slot that no longer carries the
transaction's stamp is left as it is. -/
def commitEntry (txnId commitTs : Nat) (g : OlapStorage V) (op : DeltaOp) : OlapStorage V :=
  match g.edgeIdMap op.eid with
  | none => g
  | some (blockIdx, offset) =>
    match g.slotAt blockIdx offset with
    | none => g
    | some edge =>
      if edge.eid = op.eid ∧ edge.commitTs = txnId then
        match op with
        | .createEdge _ | .setEdgeProps _ _ =>
          (g.publishSlot blockIdx offset commitTs).promoteVersions blockIdx offset txnId commitTs
        | .delEdge _ => g.publishSlot blockIdx offset commitTs
      else g

/-- `commit_at`. The commit timestamp of a transaction is set once. -/
def commitAt (g : OlapStorage V) (gen : GlobalTimestampGenerator) (txn : MemTransaction)
    (commitTsOpt : Option Nat) :
    OlapStorage V × GlobalTimestampGenerator × MemTransaction × Except StorageError Nat :=
  let stamp := match commitTsOpt with
    | some ts => (gen.updateIfGreater ts).map fun gen => (ts, gen)
    | none => gen.next
  match stamp with
  | .error e => (g, gen, txn, .error (.timestamp e))
  | .ok (commitTs, gen) =>
    match txn.commitTs with
    | some _ => (g, gen, txn, .error (.transactionAlreadyCommitted commitTs))
    | none =>
      (txn.undoBuffer.foldl (fun g entry => commitEntry txn.txnId commitTs g entry.1) g, gen,
        { txn with
          commitTs := some commitTs
          undoBuffer := []
          deletedEdgeSnapshot := fun _ => none }, .ok commitTs)

/-! ## Abort -/

/-- Take the transaction's versions out of one column. A column that is missing is
passed over; a missing block is made. -/
def retainVersions (txnId blockIdx offset : Nat) (g : OlapStorage V) (idx : Nat) :
    Option (OlapStorage V) :=
  if g.propertyColumns.length ≤ idx then some g
  else (g.ensureColumnBlock idx blockIdx).map fun g =>
    g.modifyVersions idx blockIdx offset (·.filter fun v => v.ts != txnId)

/-- One entry of the undo buffer at abort. -/
def abortEntry (txnId : Nat) (snapshot : Nat → Option (Option Nat × Nat)) (g : OlapStorage V)
    (entry : DeltaOp × Nat) : Option (OlapStorage V) :=
  match g.edgeIdMap entry.1.eid with
  | none => some g
  | some (blockIdx, offset) =>
    match g.slotAt blockIdx offset with
    | none => some g
    | some edge =>
      if edge.eid ≠ entry.1.eid then some g
      else
        match entry.1 with
        | .createEdge eid =>
          if edge.commitTs = txnId then
            let g := g.removeSlot blockIdx offset eid
            let counter := ((g.edges[blockIdx]?).map fun block => block.edges.length).getD 0
            some (g.removeProperties blockIdx offset counter)
          else some g
        | .delEdge eid =>
          let (labelId, dstId) := (snapshot eid).getD (edge.labelId, edge.dstId)
          some (g.modifySlot blockIdx offset fun edge =>
            { edge with commitTs := entry.2, labelId := labelId, dstId := dstId })
        | .setEdgeProps _ indices =>
          (indices.foldlM (retainVersions txnId blockIdx offset) g).map fun g =>
            g.modifySlot blockIdx offset fun edge => { edge with commitTs := entry.2 }

def abort (g : OlapStorage V) (txn : MemTransaction) :
    Option (OlapStorage V × MemTransaction × Except StorageError Unit) :=
  match txn.commitTs with
  | some commitTs => some (g, txn, .error (.transactionAlreadyCommitted commitTs))
  | none =>
    (txn.undoBuffer.reverse.foldlM (abortEntry txn.txnId txn.deletedEdgeSnapshot) g).map fun g =>
      (g, { txn with undoBuffer := [], deletedEdgeSnapshot := fun _ => none }, .ok ())

end OlapStorage

/-! ## The store as a state machine -/

/-- The writes of a transaction. -/
inductive TxnOp (V : Type) where
  | createEdge (edge : OlapEdge V)
  | setEdgeProperty (eid : Nat) (indices : List Nat) (props : List V)
  | deleteEdge (eid : Nat)
deriving DecidableEq, Repr

/-- The writes that belong to no transaction. -/
inductive PlainOp (V : Type) where
  | createVertex (vid : Nat) (properties : List V)
  | createEdge (edge : OlapEdge V)
  | setEdgeProperty (eid : Nat) (indices : List Nat) (props : List V)
  | setVertexProperty (vid : Nat) (indices : List Nat) (props : List V)
  | deleteVertex (vid : Nat)
  | deleteEdge (eid : Nat)
deriving DecidableEq, Repr

inductive Action (V : Type) where
  | plain (o : PlainOp V)
  | begin (txnId startTs : Nat)
  | op (txnId : Nat) (o : TxnOp V)
  | commit (txnId : Nat) (commitTs : Option Nat)
  | abort (txnId : Nat)
deriving DecidableEq, Repr

structure OlapState (V : Type) where
  storage : OlapStorage V
  gen : GlobalTimestampGenerator
  txns : Nat → Option MemTransaction

def OlapState.init (propertyCnt : Nat) : OlapState V where
  storage := .new propertyCnt
  gen := .new
  txns _ := none

def TxnOp.run (o : TxnOp V) (g : OlapStorage V) (txn : MemTransaction) :
    Option (OlapStorage V × MemTransaction) :=
  match o with
  | .createEdge edge => (g.createEdgeInTxn txn edge).map fun r => (r.1, r.2.1)
  | .setEdgeProperty eid indices props =>
    (g.setEdgePropertyInTxn txn eid indices props).map fun r => (r.1, r.2.1)
  | .deleteEdge eid => some ((g.deleteEdgeInTxn txn eid).1, (g.deleteEdgeInTxn txn eid).2.1)

def PlainOp.run (o : PlainOp V) (g : OlapStorage V) : Option (OlapStorage V) :=
  match o with
  | .createVertex vid properties => (g.createVertex vid properties).map (·.1)
  | .createEdge edge => (g.createEdge edge).map (·.1)
  | .setEdgeProperty eid indices props => some (g.setEdgeProperty eid indices props).1
  | .setVertexProperty vid indices props => (g.setVertexProperty vid indices props).map (·.1)
  | .deleteVertex vid => (g.deleteVertex vid).map (·.1)
  | .deleteEdge eid => (g.deleteEdge eid).map (·.1)

/-- One call, run to its end. A call that panics poisons the locks and is no step, and
neither is a call on an unknown transaction. The caller names the id of a new
transaction; ids are drawn from a generator and never come twice. -/
def next (s : OlapState V) : Action V → Option (OlapState V)
  | .plain o => (o.run s.storage).map fun g => { s with storage := g }
  | .begin txnId startTs =>
    if Timestamp.isTxnId txnId ∧ s.txns txnId = none then
      some { s with txns := Function.update s.txns txnId (some (.new txnId startTs)) }
    else none
  | .op txnId o =>
    (s.txns txnId).bind fun txn => (o.run s.storage txn).map fun (g, txn) =>
      { s with storage := g, txns := Function.update s.txns txnId (some txn) }
  | .commit txnId commitTs =>
    (s.txns txnId).map fun txn =>
      let r := s.storage.commitAt s.gen txn commitTs
      { storage := r.1, gen := r.2.1, txns := Function.update s.txns txnId (some r.2.2.1) }
  | .abort txnId =>
    (s.txns txnId).bind fun txn => (s.storage.abort txn).map fun r =>
      { s with storage := r.1, txns := Function.update s.txns txnId (some r.2.1) }

/-- A call that panics. -/
def Panics (s : OlapState V) : Action V → Prop
  | .plain o => o.run s.storage = none
  | .op txnId o => ∃ txn, s.txns txnId = some txn ∧ o.run s.storage txn = none
  | .abort txnId => ∃ txn, s.txns txnId = some txn ∧ s.storage.abort txn = none
  | .begin _ _ | .commit _ _ => False

/-- A step of the machine as a relation. -/
def Step (s : OlapState V) (a : Action V) (s' : OlapState V) : Prop := next s a = some s'

/-- The states of all runs from an empty store. -/
def Reachable (s : OlapState V) : Prop :=
  ∃ propertyCnt trace, Run Step (fun _ _ => True) (.init propertyCnt) trace s

end Olap

end MiniGU
