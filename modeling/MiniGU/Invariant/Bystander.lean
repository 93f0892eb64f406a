import MiniGU.Invariant.OpStep

/-!
# What the operations of a transaction do not look at

A read or a write looks at the maps, the adjacency lists, the transaction's own buffers
and, of every other transaction, only at whether its undo buffer is alive. `behind F T g`
is `g` with all the rest replaced: the manager, the log, the generators and the other
buffers of the transaction `T`. Every operation of another transaction returns the same
in `g` and in `behind F T g` (`runOp_behind`, `runQuery_behind`), and so does every
sequence of calls (`replies_behind`).
-/

namespace MiniGU

variable {V : Type}

/-- What the operations of transactions other than `T` do not look at. -/
structure Backstage (V : Type) where
  txnManager : MemTxnManager
  wal : List (RedoEntry V)
  nextLsn : Nat
  timestampGenerator : GlobalTimestampGenerator
  transactionIdGenerator : TransactionIdGenerator
  state : TxnState V

/-- A call of the public interface on a running transaction. -/
inductive Call (V : Type) where
  | op (o : Op V)
  | query (q : Query V)

inductive Reply (V : Type) where
  | done (r : Except StorageError Unit)
  | answer (a : Answer V)

namespace MemoryGraph

def call (g : MemoryGraph V) (txn : MemTransaction) : Call V → MemoryGraph V × Reply V
  | .op o =>
    let r := g.runOp txn o
    (r.1, .done r.2)
  | .query q =>
    let r := g.runQuery txn q
    (r.1, .answer r.2)

/-- What a sequence of calls, of any transactions, returns, up to the first that panics. -/
def replies (g : MemoryGraph V) : List (MemTransaction × Call V) → List (Reply V)
  | [] => []
  | (txn, c) :: calls =>
    let r := g.call txn c
    match r.2 with
    | .done (.error .panicked) => [r.2]
    | _ => r.2 :: r.1.replies calls

def behind (F : Backstage V) (T : Nat) (g : MemoryGraph V) : MemoryGraph V :=
  { g with
    txnManager := F.txnManager
    txns := Function.update g.txns T { F.state with undoBuffer := (g.txns T).undoBuffer }
    wal := F.wal
    nextLsn := F.nextLsn
    timestampGenerator := F.timestampGenerator
    transactionIdGenerator := F.transactionIdGenerator }

variable {g : MemoryGraph V} {F : Backstage V} {T : Nat} {txn : MemTransaction} {k : Kind} {id : Nat}

/-- An outcome in the graph with the rest replaced. -/
def Outcome.behind {α : Type} (F : Backstage V) (T : Nat) (r : Outcome V α) : Outcome V α :=
  (r.1.behind F T, r.2)

@[simp] theorem chain_behind : (g.behind F T).chain = g.chain := by
  funext k id
  cases k <;> rfl

@[simp] theorem vertices_behind : (g.behind F T).vertices = g.vertices := rfl

@[simp] theorem edges_behind : (g.behind F T).edges = g.edges := rfl

@[simp] theorem adjacencyList_behind : (g.behind F T).adjacencyList = g.adjacencyList := rfl

@[simp] theorem outgoing_behind (vid : Nat) : (g.behind F T).outgoing vid = g.outgoing vid := rfl

@[simp] theorem incoming_behind (vid : Nat) : (g.behind F T).incoming vid = g.incoming vid := rfl

theorem txns_behind_of_ne {t : Nat} (ht : t ≠ T) : (g.behind F T).txns t = g.txns t :=
  Function.update_of_ne ht ..

@[simp] theorem upgradable_behind : (g.behind F T).upgradable = g.upgradable := by
  funext o
  unfold upgradable
  by_cases ho : o = T
  · subst ho
    simp [behind]
  · rw [txns_behind_of_ne ho]

@[simp] theorem isTombstoned_behind : (g.behind F T).isTombstoned k id = g.isTombstoned k id :=
  isTombstoned_of_chain (by simp)

theorem setChain_behind (c : Option (VersionChain (Data V k) (DeltaOp V))) :
    (g.behind F T).setChain k id c = (g.setChain k id c).behind F T := by
  cases k <;> rfl

theorem setAdjacency_behind (vid : Nat) (a : Option AdjacencyContainer) :
    (g.behind F T).setAdjacency vid a = (g.setAdjacency vid a).behind F T := rfl

theorem insertAdjacency_behind (e : Edge V) :
    (g.behind F T).insertAdjacency e = (g.insertAdjacency e).behind F T := rfl

section Other

variable (hT : txn.txnId ≠ T)

include hT

theorem modifyTxn_behind (f : TxnState V → TxnState V) :
    (g.behind F T).modifyTxn txn.txnId f = (g.modifyTxn txn.txnId f).behind F T := by
  unfold modifyTxn behind
  dsimp only
  rw [Function.update_of_ne hT, Function.update_of_ne (Ne.symm hT), Function.update_comm hT]

theorem pushRedo_behind (delta : DeltaOp V) :
    (g.behind F T).pushRedo txn delta = (g.pushRedo txn delta).behind F T :=
  modifyTxn_behind hT _

theorem lookupWrite_behind :
    ((g.behind F T).txns txn.txnId).lookupWrite k id = (g.txns txn.txnId).lookupWrite k id := by
  rw [txns_behind_of_ne hT]

/-! ## Reads -/

theorem pendingWrite_behind :
    (g.behind F T).pendingWrite txn k id = g.pendingWrite txn k id := by
  unfold pendingWrite
  rw [lookupWrite_behind hT]

theorem readEntity_behind : (g.behind F T).readEntity txn k id = g.readEntity txn k id := by
  unfold readEntity visibleData applyDeltasForRead
  rw [pendingWrite_behind hT, chain_behind, upgradable_behind]

theorem noteRead_behind :
    (g.behind F T).noteRead txn k id = (g.noteRead txn k id).behind F T := by
  unfold noteRead
  rw [pendingWrite_behind hT, chain_behind]
  split
  · exact modifyTxn_behind hT _
  · rfl

theorem getEntity_behind :
    (g.behind F T).getEntity txn k id = Outcome.behind F T (g.getEntity txn k id) := by
  unfold getEntity Outcome.behind
  rw [noteRead_behind hT, readEntity_behind hT]

theorem iterItem_behind (filter : Data V k → Bool) :
    (g.behind F T).iterItem txn k filter = g.iterItem txn k filter := by
  funext id
  unfold iterItem getVisible applyDeltasForRead
  rw [pendingWrite_behind hT, chain_behind, upgradable_behind]

theorem iterItems_behind (keys : List Nat) (filter : Data V k → Bool) :
    (g.behind F T).iterItems txn k keys filter = g.iterItems txn k keys filter := by
  unfold iterItems pendingInserts
  rw [iterItem_behind hT, txns_behind_of_ne hT, chain_behind]

theorem noteScan_behind (keys : List Nat) (filter : Data V k → Bool) :
    (g.behind F T).noteScan txn k keys filter = (g.noteScan txn k keys filter).behind F T := by
  have hFold : ∀ (p : Nat → Bool) (h : MemoryGraph V),
      keys.foldl (fun h id => if p id then
        h.modifyTxn txn.txnId fun s => s.insertRead k id else h) (h.behind F T) =
      (keys.foldl (fun h id => if p id then
        h.modifyTxn txn.txnId fun s => s.insertRead k id else h) h).behind F T := by
    intro p
    induction keys with
    | nil => exact fun _ => rfl
    | cons id keys ih =>
      intro h
      rw [List.foldl_cons, List.foldl_cons, ← ih]
      cases p id with
      | false => rfl
      | true => simp only [if_true, modifyTxn_behind hT]
  unfold noteScan
  simp only [iterItem_behind hT, pendingWrite_behind hT]
  exact hFold (fun id => (g.pendingWrite txn k id).isNone && (g.iterItem txn k filter id).isSome) g

theorem iterAdjacency_behind (vid : Nat) (dir : Direction) (filter : Neighbor → Bool) :
    (g.behind F T).iterAdjacency txn vid dir filter = g.iterAdjacency txn vid dir filter := by
  unfold iterAdjacency adjacencyEntries neighborIsVisible edgeIsVisible vertexIsVisible
    chainIsVisible
  simp only [pendingWrite_behind hT, txns_behind_of_ne hT, upgradable_behind, vertices_behind,
    edges_behind, outgoing_behind, incoming_behind]

theorem runQuery_behind (q : Query V) : (g.behind F T).runQuery txn q =
    ((g.runQuery txn q).1.behind F T, (g.runQuery txn q).2) := by
  cases q with
  | getVertex vid =>
    simp only [runQuery, getVertex, getEntity_behind hT]
    rfl
  | getEdge eid =>
    simp only [runQuery, getEdge, getEntity_behind hT]
    rfl
  | iterVertices keys filter =>
    exact congrArg₂ Prod.mk (noteScan_behind (k := .vertex) hT keys filter)
      (congrArg Answer.vertices (iterItems_behind (k := .vertex) hT keys filter))
  | iterEdges keys filter =>
    exact congrArg₂ Prod.mk (noteScan_behind (k := .edge) hT keys filter)
      (congrArg Answer.edges (iterItems_behind (k := .edge) hT keys filter))
  | iterAdjacency vid dir filter =>
    simp only [runQuery, iterAdjacency_behind hT]

/-! ## Writes -/

theorem stage_behind (intent : WriteIntent (Data V k)) :
    (g.behind F T).stage txn k id intent = (g.stage txn k id intent).behind F T :=
  modifyTxn_behind hT _

theorem writeVersion_behind (c : VersionChain (Data V k) (DeltaOp V)) (delta : DeltaOp V) (ts : Nat)
    (d : Data V k) : (g.behind F T).writeVersion txn k id c delta ts d =
      (g.writeVersion txn k id c delta ts d).behind F T := by
  unfold writeVersion pushUndo
  rw [modifyTxn_behind hT, setChain_behind]

theorem insertVersion_behind (d : Data V k) (ownTs : Nat) :
    (g.behind F T).insertVersion txn d ownTs =
      Outcome.behind F T (g.insertVersion txn d ownTs) := by
  unfold insertVersion
  rw [chain_behind]
  cases g.chain k d.id with
  | none => simp only [writeVersion_behind hT, Outcome.behind]
  | some c =>
    dsimp only
    cases checkWriteConflict c.current.commitTs txn with
    | error e => rfl
    | ok u => simp only [pushUndo, modifyTxn_behind hT, setChain_behind, Outcome.behind]

theorem recordInsert_behind (d : Data V k) :
    (g.behind F T).recordInsert txn d = (g.recordInsert txn d).behind F T := by
  unfold recordInsert
  rw [lookupWrite_behind hT]
  cases (g.txns txn.txnId).lookupWrite k d.id <;> exact stage_behind hT _

theorem recordUpdate_behind (guardTs : Nat) (before after : Data V k) :
    (g.behind F T).recordUpdate txn k id guardTs before after =
      (g.recordUpdate txn k id guardTs before after).behind F T := by
  unfold recordUpdate
  rw [lookupWrite_behind hT]
  cases (g.txns txn.txnId).lookupWrite k id <;> exact stage_behind hT _

theorem recordDelete_behind (guardTs : Nat) (before : Data V k) :
    (g.behind F T).recordDelete txn k id guardTs before =
      (g.recordDelete txn k id guardTs before).behind F T := by
  unfold recordDelete
  rw [lookupWrite_behind hT]
  cases (g.txns txn.txnId).lookupWrite k id <;> exact stage_behind hT _

omit hT in
theorem snapshotWithGuard_behind (c : VersionChain (Data V k) (DeltaOp V)) :
    (g.behind F T).snapshotWithGuard txn c = g.snapshotWithGuard txn c := by
  unfold snapshotWithGuard
  rw [upgradable_behind]

theorem stageDelete_behind :
    (g.behind F T).stageDelete txn k id = Outcome.behind F T (g.stageDelete txn k id) := by
  unfold stageDelete
  rw [lookupWrite_behind hT, chain_behind]
  cases (g.txns txn.txnId).lookupWrite k id with
  | some intent =>
    dsimp only
    cases intent.kind with
    | insert before => simp only [recordDelete_behind hT, Outcome.behind]
    | update before after => simp only [recordDelete_behind hT, Outcome.behind]
    | delete before => rfl
  | none =>
    cases g.chain k id with
    | none => rfl
    | some c =>
      dsimp only
      rw [snapshotWithGuard_behind]
      cases g.snapshotWithGuard txn c with
      | error e => rfl
      | ok r => simp only [recordDelete_behind hT, Outcome.behind]

theorem recordOccEdgeDelete_behind (eid : Nat) : (g.behind F T).recordOccEdgeDelete txn eid =
    Outcome.behind F T (g.recordOccEdgeDelete txn eid) := by
  unfold recordOccEdgeDelete
  rw [stageDelete_behind hT]
  obtain ⟨g', r⟩ := g.stageDelete txn .edge eid
  cases r with
  | error e => rfl
  | ok u => simp only [Outcome.behind, pushRedo_behind hT]

theorem deleteVersion_behind (c : VersionChain (Data V k) (DeltaOp V)) :
    (g.behind F T).deleteVersion txn k id c = (g.deleteVersion txn k id c).behind F T := by
  unfold deleteVersion
  rw [writeVersion_behind hT, pushRedo_behind hT]

theorem deleteEdgeInPlace_behind (eid : Nat) : (g.behind F T).deleteEdgeInPlace txn eid =
    Outcome.behind F T (g.deleteEdgeInPlace txn eid) := by
  unfold deleteEdgeInPlace
  rw [edges_behind]
  cases g.edges eid with
  | none => rfl
  | some c =>
    dsimp only
    cases prewriteCheck c.current.commitTs txn with
    | error e => rfl
    | ok u => exact congrArg (·, _) (deleteVersion_behind (k := .edge) hT c)

theorem deleteEdge_behind (eid : Nat) :
    (g.behind F T).deleteEdge txn eid = Outcome.behind F T (g.deleteEdge txn eid) := by
  unfold deleteEdge
  cases txn.lockStrategy with
  | pessimistic => exact deleteEdgeInPlace_behind hT eid
  | optimistic => exact recordOccEdgeDelete_behind hT eid

omit hT in
theorem forEach_behind {op : MemoryGraph V → Nat → Outcome V Unit}
    (hOp : ∀ h id, op (h.behind F T) id = Outcome.behind F T (op h id)) (ids : List Nat) :
    forEach op (g.behind F T) ids = Outcome.behind F T (forEach op g ids) := by
  induction ids generalizing g with
  | nil => rfl
  | cons id ids ih =>
    unfold forEach
    rw [hOp]
    cases hr : op g id with
    | mk g' r =>
      cases r with
      | error e => rfl
      | ok u => exact ih

theorem cascadeInPlace_behind (vid : Nat) : (g.behind F T).cascadeInPlace txn vid =
    Outcome.behind F T (g.cascadeInPlace txn vid) := by
  refine forEach_behind (fun h eid => ?_) _
  rw [edges_behind]
  split
  · exact deleteEdgeInPlace_behind hT eid
  · rfl

theorem incidentEdges_behind (vid : Nat) :
    (g.behind F T).incidentEdges txn vid = g.incidentEdges txn vid := by
  unfold incidentEdges
  rw [txns_behind_of_ne hT, outgoing_behind, incoming_behind]

theorem deleteVertex_behind (vid : Nat) :
    (g.behind F T).deleteVertex txn vid = Outcome.behind F T (g.deleteVertex txn vid) := by
  unfold deleteVertex
  cases txn.lockStrategy with
  | pessimistic =>
    dsimp only
    rw [vertices_behind]
    cases g.vertices vid with
    | none => rfl
    | some c =>
      dsimp only
      cases prewriteCheck c.current.commitTs txn with
      | error e => rfl
      | ok u =>
        dsimp only
        rw [cascadeInPlace_behind hT]
        obtain ⟨g', r⟩ := g.cascadeInPlace txn vid
        cases r with
        | error e => rfl
        | ok u => exact congrArg (·, _) (deleteVersion_behind (k := .vertex) hT c)
  | optimistic =>
    dsimp only
    rw [stageDelete_behind hT]
    obtain ⟨g', r⟩ := g.stageDelete txn .vertex vid
    cases r with
    | error e => rfl
    | ok u =>
      simp only [Outcome.behind]
      rw [incidentEdges_behind hT, forEach_behind fun h eid => recordOccEdgeDelete_behind hT eid]
      obtain ⟨g'', r'⟩ := g'.forEach (fun h eid => h.recordOccEdgeDelete txn eid)
        (g'.incidentEdges txn vid)
      cases r' with
      | error e => rfl
      | ok u => simp only [Outcome.behind, pushRedo_behind hT]

theorem createVertex_behind (vertex : Vertex V) :
    (g.behind F T).createVertex txn vertex = Outcome.behind F T (g.createVertex txn vertex) := by
  unfold createVertex getVertex
  rw [isTombstoned_behind, getEntity_behind hT]
  split
  · rfl
  · obtain ⟨g', r⟩ := g.getEntity txn .vertex vertex.vid
    cases r with
    | ok d => rfl
    | error e =>
      simp only [Outcome.behind]
      cases txn.lockStrategy with
      | pessimistic =>
        dsimp only
        rw [insertVersion_behind (k := .vertex) hT vertex 0]
        obtain ⟨g'', r'⟩ := g'.insertVersion (k := .vertex) txn vertex 0
        cases r' with
        | error e => rfl
        | ok u => simp only [Outcome.behind, pushRedo_behind hT]
      | optimistic =>
        dsimp only
        rw [recordInsert_behind (k := .vertex) hT vertex, pushRedo_behind hT]

theorem createEdge_behind (edge : Edge V) :
    (g.behind F T).createEdge txn edge = Outcome.behind F T (g.createEdge txn edge) := by
  unfold createEdge getVertex getEdge
  rw [getEntity_behind hT]
  obtain ⟨g₁, r₁⟩ := g.getEntity txn .vertex edge.srcId
  cases r₁ with
  | error e => rfl
  | ok src =>
    simp only [Outcome.behind]
    rw [getEntity_behind hT]
    obtain ⟨g₂, r₂⟩ := g₁.getEntity txn .vertex edge.dstId
    cases r₂ with
    | error e => rfl
    | ok dst =>
      simp only [Outcome.behind]
      rw [isTombstoned_behind, getEntity_behind hT]
      split
      · rfl
      · obtain ⟨g₃, r₃⟩ := g₂.getEntity txn .edge edge.eid
        cases r₃ with
        | ok d => rfl
        | error e =>
          simp only [Outcome.behind]
          cases txn.lockStrategy with
          | pessimistic =>
            dsimp only
            rw [insertVersion_behind (k := .edge) hT edge txn.txnId]
            obtain ⟨g₄, r₄⟩ := g₃.insertVersion (k := .edge) txn edge txn.txnId
            cases r₄ with
            | error e => rfl
            | ok u => simp only [Outcome.behind, insertAdjacency_behind, pushRedo_behind hT]
          | optimistic =>
            dsimp only
            rw [recordInsert_behind (k := .edge) hT edge, pushRedo_behind hT]

theorem updateProperties_behind (c : VersionChain (Data V k) (DeltaOp V)) (indices : List Nat)
    (props : List V) : (g.behind F T).updateProperties txn k id c indices props =
      Outcome.behind F T (g.updateProperties txn k id c indices props) := by
  unfold updateProperties
  cases prewriteCheck c.current.commitTs txn with
  | error e => rfl
  | ok u =>
    dsimp only
    cases indices.mapM fun i => c.current.data.properties[i]? with
    | none => rfl
    | some old => simp only [writeVersion_behind hT, Outcome.behind]

/-- Setting properties gives the same, whatever the rest of the graph is replaced by. -/
theorem setProperty_behind (k : Kind) (id : Nat) (indices : List Nat) (props : List V) :
    (g.behind F T).setProperty txn k id indices props =
      Outcome.behind F T (g.setProperty txn k id indices props) := by
  unfold setProperty
  cases txn.lockStrategy with
  | pessimistic =>
    dsimp only
    rw [chain_behind]
    cases g.chain k id with
    | none => rfl
    | some c =>
      dsimp only
      rw [updateProperties_behind hT]
      obtain ⟨g', r⟩ := g.updateProperties txn k id c indices props
      cases r with
      | error e => rfl
      | ok u => simp only [Outcome.behind, pushRedo_behind hT]
  | optimistic =>
    dsimp only
    rw [lookupWrite_behind hT, chain_behind]
    cases (g.txns txn.txnId).lookupWrite k id with
    | some intent =>
      dsimp only
      cases intent.kind with
      | insert existing =>
        dsimp only
        split
        · simp only [stage_behind hT, pushRedo_behind hT, Outcome.behind]
        · rfl
      | update before after =>
        dsimp only
        split
        · simp only [recordUpdate_behind hT, pushRedo_behind hT, Outcome.behind]
        · rfl
      | delete before => rfl
    | none =>
      cases g.chain k id with
      | none => rfl
      | some c =>
        dsimp only
        rw [snapshotWithGuard_behind]
        cases g.snapshotWithGuard txn c with
        | error e => rfl
        | ok r =>
          dsimp only
          split
          · simp only [recordUpdate_behind hT, pushRedo_behind hT, Outcome.behind]
          · rfl

theorem runOp_behind (o : Op V) :
    (g.behind F T).runOp txn o = Outcome.behind F T (g.runOp txn o) := by
  cases o with
  | createVertex vertex => exact createVertex_behind hT vertex
  | createEdge edge => exact createEdge_behind hT edge
  | deleteVertex vid => exact deleteVertex_behind hT vid
  | deleteEdge eid => exact deleteEdge_behind hT eid
  | setVertexProperty vid indices props => exact setProperty_behind hT .vertex vid indices props
  | setEdgeProperty eid indices props => exact setProperty_behind hT .edge eid indices props

theorem call_behind (c : Call V) : (g.behind F T).call txn c =
    ((g.call txn c).1.behind F T, (g.call txn c).2) := by
  cases c with
  | op o =>
    simp only [call, runOp_behind hT]
    rfl
  | query q => simp only [call, runQuery_behind hT]

end Other

/-- **The calls of other transactions do not notice what is replaced.** -/
theorem replies_behind {calls : List (MemTransaction × Call V)}
    (hCalls : ∀ p ∈ calls, p.1.txnId ≠ T) : (g.behind F T).replies calls = g.replies calls := by
  induction calls generalizing g with
  | nil => rfl
  | cons p calls ih =>
    obtain ⟨txn, c⟩ := p
    have hT : txn.txnId ≠ T := hCalls (txn, c) (List.mem_cons_self ..)
    unfold replies
    rw [call_behind hT]
    simp only [ih fun q hq => hCalls q (List.mem_cons_of_mem _ hq)]

end MemoryGraph

end MiniGU
