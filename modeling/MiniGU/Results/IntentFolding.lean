import MiniGU.Invariant.Session
import MiniGU.Results.SnapshotRead
import MiniGU.Results.StatementAtomicity

/-!
# Write intents fold the writes of a transaction

Whatever an optimistic transaction writes of one entity is folded into one intent. The intent
should stand for the version in the transaction's snapshot with the operations applied to it,
carry the commit timestamp of that version, and be what the transaction reads.

Two defects get in the way. The readers' walk passes a version committed exactly at the
start, so an entity of the snapshot can be taken for a new one, and is staged without its
timestamp. A `delete_vertex` that is refused leaves behind what it staged before.
-/

namespace MiniGU.MemoryGraph

variable {V : Type} {g g' g₁ : MemoryGraph V} {txn : MemTransaction} {k : Kind} {id : Nat}
  {commitTs : Nat} {skipWal : Bool}

-- ----
-- The end of a transaction
-- ----

/-- A transaction that is still active has its intents. -/
def KeepsIntents (g g' : MemoryGraph V) (txn : MemTransaction) : Prop :=
  txn ∈ g'.txnManager.activeTxns →
    ∀ k, (g'.txns txn.txnId).writes k = (g.txns txn.txnId).writes k

theorem notMem_finishTransaction :
    txn ∉ (g.finishTransaction txn).1.txnManager.activeTxns := by
  intro hMem
  cases hFin : g.finishTransaction txn with
  | mk g₁ r =>
    rw [hFin] at hMem
    cases r with
    | ok u => exact ne_of_finishTransaction hFin hMem rfl
    | error e =>
      unfold finishTransaction at hFin
      split at hFin
      · cases hFin
      · rename_i hNone
        obtain ⟨rfl, -⟩ := Prod.mk.inj hFin
        exact hNone (List.any_eq_true.mpr ⟨txn, hMem, beq_self_eq_true _⟩)

theorem notMem_abortAt : txn ∉ (g.abortAt txn skipWal).1.txnManager.activeTxns := by
  have hFin : txn ∉ ((g.abortDrained txn skipWal).finishTransaction txn).1.txnManager.activeTxns :=
    notMem_finishTransaction
  rw [abortAt_eq]
  cases hRes : (g.abortDrained txn skipWal).finishTransaction txn with
  | mk g₁ r =>
    rw [hRes] at hFin
    cases r <;> exact hFin

theorem keepsIntents_abortWith {α : Type} {err : StorageError} :
    KeepsIntents g (g₁.abortWith txn err : Outcome V α).1 txn := by
  rw [abortWith_fst]
  exact fun hMem => absurd hMem notMem_abortAt

theorem keepsIntents_finalize : KeepsIntents g
    (match g₁.finalizeCommitCommon txn commitTs skipWal with
      | (g, .error e) => (g, .error e)
      | (g, .ok _) => (g, .ok commitTs) : Outcome V Nat).1 txn := by
  have hFin : txn ∉ (g₁.finalizeCommitCommon txn commitTs skipWal).1.txnManager.activeTxns := by
    rw [finalizeCommitCommon_logged]
    exact notMem_finishTransaction
  intro hMem
  cases hRes : g₁.finalizeCommitCommon txn commitTs skipWal with
  | mk g₂ r =>
    rw [hRes] at hFin hMem
    cases r <;> exact absurd hMem hFin

theorem writes_applyIntents [DecidableEq V] {k k' : Kind} {t : Nat} {r : Except StorageError Unit}
    {ws : List (Nat × WriteIntent (Data V k))} (h : applyIntents txn k g ws = (g', r)) :
    (g'.txns t).writes k' = (g.txns t).writes k' := by
  induction ws generalizing g with
  | nil =>
    cases h
    rfl
  | cons w ws ih =>
    obtain ⟨id, intent⟩ := w
    unfold applyIntents at h
    split at h
    · rename_i g₁ e hHead
      rw [← (Prod.mk.inj h).1, applyIntent_error hHead]
    · rename_i g₁ u hHead
      rw [ih h, (applyIntent_ok hHead).txns]
      unfold intentWrite
      by_cases ht : t = txn.txnId
      · rw [ht, txns_writeVersion_self]
        cases k' <;> rfl
      · rw [txns_writeVersion_of_ne ht]

theorem keepsIntents_commitLocked [DecidableEq V] (hOpt : txn.lockStrategy = .optimistic) :
    KeepsIntents g (g.commitLocked txn commitTs skipWal).1 txn := by
  unfold commitLocked commitOptimistic
  rw [hOpt]
  dsimp only
  split
  · exact keepsIntents_abortWith
  · split
    · exact keepsIntents_abortWith
    · split
      · exact keepsIntents_abortWith
      · split
        · rename_i g₁ e hVertices
          exact fun _ _ => writes_applyIntents hVertices
        · rename_i g₁ u hVertices
          split
          · rename_i g₂ e hEdges
            exact fun _ _ => (writes_applyIntents hEdges).trans (writes_applyIntents hVertices)
          · split
            · exact keepsIntents_abortWith
            · exact keepsIntents_finalize

theorem keepsIntents_commitAt [DecidableEq V] {ts? : Option Nat}
    (hOpt : txn.lockStrategy = .optimistic) :
    KeepsIntents g (g.commitAt txn ts? skipWal).1 txn := by
  unfold commitAt
  cases hTs : g.timestampGenerator.obtain ts? with
  | error e => exact fun _ _ => rfl
  | ok p =>
    obtain ⟨ts, gen⟩ := p
    have hLocked : KeepsIntents { g with timestampGenerator := gen }
        (({ g with timestampGenerator := gen } : MemoryGraph V).commitLocked txn ts skipWal).1
        txn := keepsIntents_commitLocked hOpt
    dsimp only
    cases hRes : ({ g with timestampGenerator := gen } : MemoryGraph V).commitLocked txn ts
      skipWal with
    | mk g₁ r =>
      rw [hRes] at hLocked
      cases r with
      | error e => exact hLocked
      | ok ts' =>
        intro hMem k
        refine Eq.trans ?_ (hLocked hMem k)
        unfold markHandled
        rw [txns_modifyTxn_self]
        cases k <;> rfl

-- ----
-- What one call folds in
-- ----

/-- What a call does to an entity. -/
def opOn (g : MemoryGraph V) (txn : MemTransaction) (o : Op V) (k : Kind) (id : Nat) :
    Option (EntityOp V k) :=
  match k, o with
  | .vertex, .createVertex vertex =>
    if vertex.vid = id then some (.create (k := .vertex) vertex) else none
  | .vertex, .deleteVertex vid => if vid = id then some .delete else none
  | .vertex, .setVertexProperty vid indices props =>
    if vid = id then some (.setProps indices props) else none
  | .edge, .createEdge edge => if edge.eid = id then some (.create (k := .edge) edge) else none
  | .edge, .deleteVertex vid => if id ∈ g.incidentEdges txn vid then some .delete else none
  | .edge, .deleteEdge eid => if eid = id then some .delete else none
  | .edge, .setEdgeProperty eid indices props =>
    if eid = id then some (.setProps indices props) else none
  | _, _ => none

/-- What a call that succeeds does to an entity; one that fails does nothing. -/
def acts (g : MemoryGraph V) (txn : MemTransaction) (o : Op V) (k : Kind) (id : Nat) :
    Option (EntityOp V k) :=
  if (g.runOp txn o).2.isOk then g.opOn txn o k id else none

/-- The intent for an entity, after a call that does this to it. -/
def FoldsAt (txn : MemTransaction) (g g' : MemoryGraph V) (k : Kind) (id : Nat) :
    Option (EntityOp V k) → Prop
  | some op => FoldedIn txn id op g g'
  | none => (g'.txns txn.txnId).lookupWrite k id = (g.txns txn.txnId).lookupWrite k id

/-- A create finds every entity of the snapshot: no version committed exactly at the start has
been written over. -/
def CreatesLegibly (g : MemoryGraph V) (txn : MemTransaction) : Op V → Prop
  | .createVertex vertex => Legible g txn .vertex vertex.vid
  | .createEdge edge => Legible g txn .edge edge.eid
  | _ => True

/-- A call that acts on one entity. -/
theorem Folds.at {op : EntityOp V k} (h : Folds txn id op g g') (k' : Kind) (id' : Nat)
    {acted : Option (EntityOp V k')}
    (hSelf : ∀ hk : k' = k, id' = id → acted = some (hk ▸ op))
    (hElse : (k', id') ≠ (k, id) → acted = none) : FoldsAt txn g g' k' id' acted := by
  by_cases hEq : (k', id') = (k, id)
  · obtain ⟨rfl, rfl⟩ := Prod.mk.inj hEq
    rw [hSelf rfl rfl]
    exact h.toFoldedIn
  · rw [hElse hEq]
    exact h.others k' id' hEq

theorem Folds.create {d : Data V k} (hOpt : txn.lockStrategy = .optimistic)
    (hLegible : Legible g txn k d.id) (hRead : ∀ d', g.readEntity txn k d.id ≠ .ok d') :
    Folds txn d.id (.create d) g (g.recordInsert txn d) := by
  refine .recordInsert rfl fun hNone => ?_
  have hPending : g.pendingWrite txn k d.id = none := by
    unfold pendingWrite
    rw [if_pos hOpt, hNone]
  exact snapshotVersion_eq_none hPending (hLegible hPending) hRead

theorem Legible.noted {k' : Kind} {id' : Nat} (h : Legible g txn k id) :
    Legible (g.noteRead txn k' id') txn k id := by
  intro hPending c hc
  rw [chain_noteRead] at hc
  refine h ?_ c hc
  unfold pendingWrite at hPending ⊢
  rwa [lookupWrite_noteRead] at hPending

theorem createVertex_folds {vertex : Vertex V} {u : Unit} (hOpt : txn.lockStrategy = .optimistic)
    (hLegible : Legible g txn .vertex vertex.vid)
    (h : g.createVertex txn vertex = (g', .ok u)) :
    Folds txn vertex.vid (.create (k := .vertex) vertex) g g' := by
  unfold createVertex getVertex getEntity at h
  split at h
  · cases h
  · cases hRead : g.readEntity txn .vertex vertex.vid with
    | ok d =>
      rw [hRead] at h
      cases h
    | error e =>
      rw [hRead, hOpt] at h
      obtain ⟨rfl, -⟩ := Prod.mk.inj h
      have hFold : Folds txn vertex.vid (.create (k := .vertex) vertex)
          (g.noteRead txn .vertex vertex.vid)
          ((g.noteRead txn .vertex vertex.vid).recordInsert txn (k := .vertex) vertex) := by
        refine Folds.create (k := .vertex) hOpt hLegible.noted fun d' => ?_
        rw [readEntity_noteRead]
        exact fun hOk => nomatch hRead.symm.trans hOk
      exact hFold.noted.pushRedo _

/-- A staged `create_edge` is folded into the intent of its edge. -/
theorem createEdge_folds {edge : Edge V} {u : Unit} (hOpt : txn.lockStrategy = .optimistic)
    (hLegible : Legible g txn .edge edge.eid) (h : g.createEdge txn edge = (g', .ok u)) :
    Folds txn edge.eid (.create (k := .edge) edge) g g' := by
  unfold createEdge getVertex getEdge getEntity at h
  rw [hOpt] at h
  split at h
  · cases h
  · rename_i g₁ src heq
    obtain ⟨rfl, -⟩ := Prod.mk.inj heq
    split at h
    · cases h
    · rename_i g₂ dst heq
      obtain ⟨rfl, -⟩ := Prod.mk.inj heq
      split at h
      · cases h
      · split at h
        · cases h
        · rename_i g₃ e heq
          obtain ⟨rfl, hRead⟩ := Prod.mk.inj heq
          obtain ⟨rfl, -⟩ := Prod.mk.inj h
          have hFold : ∀ h : MemoryGraph V, Legible h txn .edge edge.eid →
              (∀ d', h.readEntity txn .edge edge.eid ≠ .ok d') →
              Folds txn edge.eid (.create (k := .edge) edge) h
                (h.recordInsert txn (k := .edge) edge) :=
            fun h hLegible hRead => Folds.create (k := .edge) hOpt hLegible hRead
          have hFails : ∀ d', (((g.noteRead txn .vertex edge.srcId).noteRead txn .vertex
              edge.dstId).noteRead txn .edge edge.eid).readEntity txn .edge edge.eid ≠ .ok d' := by
            intro d'
            rw [readEntity_noteRead]
            exact fun hOk => nomatch hRead.symm.trans hOk
          -- the three reads before it leave the snapshot alone
          exact (hFold _ hLegible.noted.noted.noted hFails).noted.noted.noted.pushRedo _

-- ----
-- The cascade
-- ----

theorem recordOccEdgeDelete_folds {eid : Nat} {u : Unit}
    (h : g.recordOccEdgeDelete txn eid = (g', .ok u)) :
    Folds txn eid (.delete : EntityOp V .edge) g g' ∧ g'.chain = g.chain ∧
      ∀ t, (g'.txns t).undoBuffer = (g.txns t).undoBuffer := by
  unfold recordOccEdgeDelete at h
  split at h
  · cases h
  · rename_i g₁ u₁ hStage
    obtain ⟨rfl, -⟩ := Prod.mk.inj h
    have hStaged := stageDelete_ok hStage
    exact ⟨(Folds.stageDelete hStage).pushRedo _, (chain_modifyTxn ..).trans hStaged.chain,
      fun t => (undoBuffer_pushRedo ..).trans (hStaged.undoBuffer t)⟩

theorem FoldedIn.delete_again (h : FoldedIn txn id (.delete : EntityOp V k) g g₁)
    (h' : FoldedIn txn id (.delete : EntityOp V k) g₁ g') :
    FoldedIn txn id (.delete : EntityOp V k) g g' := by
  refine ⟨h'.staged, ?_⟩
  rw [h'.view, h.view]
  rfl

/-- The loop folds a delete into the intent of each of its edges, and of nothing else. -/
theorem forEach_recordOccEdgeDelete_folds {eids : List Nat} {u : Unit}
    (h : forEach (fun g eid => g.recordOccEdgeDelete txn eid) g eids = (g', .ok u)) :
    (∀ eid ∈ eids, FoldedIn txn eid (.delete : EntityOp V .edge) g g') ∧
    (∀ eid, eid ∉ eids → (g'.txns txn.txnId).lookupWrite .edge eid =
      (g.txns txn.txnId).lookupWrite .edge eid) ∧
    ∀ vid, (g'.txns txn.txnId).lookupWrite .vertex vid =
      (g.txns txn.txnId).lookupWrite .vertex vid := by
  induction eids generalizing g with
  | nil =>
    cases h
    exact ⟨fun _ hMem => (nomatch hMem), fun _ _ => rfl, fun _ => rfl⟩
  | cons eid eids ih =>
    unfold forEach at h
    split at h
    · cases h
    · rename_i g₁ u₁ hHead
      obtain ⟨hFold, hChain, hUndo⟩ := recordOccEdgeDelete_folds hHead
      obtain ⟨hIn, hOut, hVertex⟩ := ih h
      have hSame : ∀ id, id ≠ eid → (g₁.txns txn.txnId).lookupWrite .edge id =
          (g.txns txn.txnId).lookupWrite .edge id :=
        fun id hne => hFold.others .edge id fun hEq => hne (Prod.mk.inj hEq).2
      refine ⟨fun id hMem => ?_, fun id hNot => ?_, fun vid => ?_⟩
      · by_cases hEq : id = eid
        · subst hEq
          by_cases hAgain : id ∈ eids
          · exact hFold.toFoldedIn.delete_again (hIn id hAgain)
          · refine ⟨?_, ?_⟩
            · rw [hOut id hAgain]
              exact hFold.staged
            · rw [← hFold.view]
              exact intentView_congr_of_some hFold.staged (hOut id hAgain)
        · have hTail : id ∈ eids := (List.mem_cons.mp hMem).resolve_left hEq
          exact (hIn id hTail).congr hChain hUndo (hSame id hEq)
      · rw [List.mem_cons, not_or] at hNot
        exact (hOut id hNot.2).trans (hSame id hNot.1)
      · exact (hVertex vid).trans (hFold.others .vertex vid fun hEq => nomatch (Prod.mk.inj hEq).1)

/-- An optimistic `delete_vertex` that succeeds has staged the vertex and every edge of its
cascade. -/
theorem deleteVertex_folds {vid : Nat} {u : Unit} (hOpt : txn.lockStrategy = .optimistic)
    (h : g.deleteVertex txn vid = (g', .ok u)) (k : Kind) (id : Nat) :
    FoldsAt txn g g' k id (g.opOn txn (.deleteVertex vid) k id) := by
  unfold deleteVertex at h
  rw [hOpt] at h
  dsimp only at h
  split at h
  · cases h
  · rename_i g₁ u₁ hStage
    have hStaged := stageDelete_ok hStage
    have hVertex : Folds txn vid (.delete : EntityOp V .vertex) g g₁ := .stageDelete hStage
    split at h
    · cases h
    · rename_i g₂ u₂ hLoop
      obtain ⟨rfl, -⟩ := Prod.mk.inj h
      obtain ⟨hIn, hOut, hVertices⟩ := forEach_recordOccEdgeDelete_folds hLoop
      have hEdges : g₁.incidentEdges txn vid = g.incidentEdges txn vid := hStaged.incidentEdges vid
      rw [hEdges] at hIn hOut
      have hPush : ∀ {k : Kind} {id : Nat} {op : EntityOp V k}, FoldedIn txn id op g g₂ →
          FoldedIn txn id op g (g₂.pushRedo txn (.delVertex vid)) := by
        intro k id op hFold
        have hLook : ((g₂.pushRedo txn (.delVertex vid)).txns txn.txnId).lookupWrite k id =
            (g₂.txns txn.txnId).lookupWrite k id := lookupWrite_pushRedo ..
        refine ⟨by rw [hLook]; exact hFold.staged, ?_⟩
        rw [← hFold.view]
        exact intentView_congr_of_some hFold.staged hLook
      cases k with
      | vertex =>
        show FoldsAt _ _ _ _ _ (if vid = id then some .delete else none)
        by_cases hEq : vid = id
        · subst hEq
          rw [if_pos rfl]
          refine hPush ⟨?_, ?_⟩
          · rw [hVertices]
            exact hVertex.staged
          · rw [← hVertex.view]
            exact intentView_congr_of_some hVertex.staged (hVertices vid)
        · rw [if_neg hEq]
          refine (lookupWrite_pushRedo ..).trans ((hVertices id).trans (hVertex.others _ _ ?_))
          exact fun hPair => hEq (Prod.mk.inj hPair).2.symm
      | edge =>
        have hBefore : ∀ eid, (g₁.txns txn.txnId).lookupWrite .edge eid =
            (g.txns txn.txnId).lookupWrite .edge eid :=
          fun eid => hVertex.others .edge eid fun hPair => nomatch (Prod.mk.inj hPair).1
        show FoldsAt _ _ _ _ _ (if id ∈ g.incidentEdges txn vid then some .delete else none)
        by_cases hMem : id ∈ g.incidentEdges txn vid
        · rw [if_pos hMem]
          exact hPush ((hIn id hMem).congr hStaged.chain hStaged.undoBuffer (hBefore id))
        · rw [if_neg hMem]
          exact (lookupWrite_pushRedo ..).trans ((hOut id hMem).trans (hBefore id))

/-- **What one call of an optimistic transaction folds in**, entity by entity. -/
theorem runOp_folds {o : Op V} (hOpt : txn.lockStrategy = .optimistic)
    (hId : Timestamp.txnIdStart < txn.txnId) (hClear : g.cascadeClear txn o = true)
    (hLegible : g.CreatesLegibly txn o) (k : Kind) (id : Nat) :
    FoldsAt txn g (g.runOp txn o).1 k id (g.acts txn o k id) := by
  unfold acts
  cases hRun : g.runOp txn o with
  | mk g' r =>
    cases r with
    | error e =>
      -- a call that fails leaves the intents as they were
      have hBefore : AsBefore g g' := (atomic_iff hId o).mpr hClear g' e hRun
      show _ = _
      unfold TxnState.lookupWrite
      rw [hBefore.writes]
    | ok u =>
      show FoldsAt txn g g' k id (g.opOn txn o k id)
      cases o with
      | createVertex vertex =>
        refine (createVertex_folds hOpt hLegible hRun).at k id (fun hk hi => ?_) fun hne => ?_
        · subst hk
          exact if_pos hi.symm
        · cases k with
          | vertex => exact if_neg fun hEq => hne (by rw [hEq])
          | edge => rfl
      | createEdge edge =>
        refine (createEdge_folds hOpt hLegible hRun).at k id (fun hk hi => ?_) fun hne => ?_
        · subst hk
          exact if_pos hi.symm
        · cases k with
          | vertex => rfl
          | edge => exact if_neg fun hEq => hne (by rw [hEq])
      | deleteVertex vid => exact deleteVertex_folds hOpt hRun k id
      | deleteEdge eid =>
        have hDel : g.recordOccEdgeDelete txn eid = (g', .ok u) := by
          rw [← hRun]
          show _ = g.deleteEdge txn eid
          unfold deleteEdge
          rw [hOpt]
        refine (recordOccEdgeDelete_folds hDel).1.at k id (fun hk hi => ?_) fun hne => ?_
        · subst hk
          exact if_pos hi.symm
        · cases k with
          | vertex => rfl
          | edge => exact if_neg fun hEq => hne (by rw [hEq])
      | setVertexProperty vid indices props =>
        refine (Folds.setProperty (k := .vertex) hOpt hRun).at k id (fun hk hi => ?_) fun hne => ?_
        · subst hk
          exact if_pos hi.symm
        · cases k with
          | vertex => exact if_neg fun hEq => hne (by rw [hEq])
          | edge => rfl
      | setEdgeProperty eid indices props =>
        refine (Folds.setProperty (k := .edge) hOpt hRun).at k id (fun hk hi => ?_) fun hne => ?_
        · subst hk
          exact if_pos hi.symm
        · cases k with
          | vertex => rfl
          | edge => exact if_neg fun hEq => hne (by rw [hEq])

-- ----
-- Steps and the intents of one transaction
-- ----

theorem writes_noteScan {filter : Data V k → Bool} (keys : List Nat) (t : Nat) (k' : Kind) :
    ((g.noteScan txn k keys filter).txns t).writes k' = (g.txns t).writes k' := by
  unfold noteScan
  refine List.foldlRecOn keys _ (motive := fun (h : MemoryGraph V) =>
    (h.txns t).writes k' = (g.txns t).writes k') rfl fun h hKeep id _ => ?_
  rw [← hKeep]
  split
  · by_cases ht : t = txn.txnId
    · subst ht
      rw [txns_modifyTxn_self]
      cases k <;> cases k' <;> rfl
    · rw [txns_modifyTxn_of_ne _ _ ht]
  · rfl

theorem writes_runQuery (q : Query V) (t : Nat) (k : Kind) :
    (((g.runQuery txn q).1).txns t).writes k = (g.txns t).writes k := by
  cases q with
  | getVertex vid => exact asBefore_noteRead.writes t k
  | getEdge eid => exact asBefore_noteRead.writes t k
  | iterVertices keys filter => exact writes_noteScan (k := .vertex) keys t k
  | iterEdges keys filter => exact writes_noteScan (k := .edge) keys t k
  | iterAdjacency vid dir filter => rfl

/-- The ids of the active transactions tell them apart and are drawn. -/
structure IdsApart (g : MemoryGraph V) : Prop where
  apart : ∀ t ∈ g.txnManager.activeTxns, ∀ t' ∈ g.txnManager.activeTxns,
    t.txnId = t'.txnId → t = t'
  drawn : ∀ t ∈ g.txnManager.activeTxns, t.txnId < g.counters.2

/-- What a step other than a call of the transaction itself leaves of it. -/
inductive Uninvolved (g g' : MemoryGraph V) (t : MemTransaction) : Prop where
  | stays (hMem : t ∈ g.txnManager.activeTxns)
      (hWrites : ∀ k, (g'.txns t.txnId).writes k = (g.txns t.txnId).writes k)
  | begins (hId : t.txnId = g.counters.2) (hWrites : ∀ k, (g'.txns t.txnId).writes k = [])

theorem uninvolved_begin [DecidableEq V] {startTs : Option Nat} {iso : IsolationLevel}
    {lock : LockStrategy} {r : Except StorageError Unit} {t : MemTransaction} (hIds : IdsApart g)
    (hExec : g.exec (.begin startTs iso lock) = (g', r)) (ht : t ∈ g'.txnManager.activeTxns) :
    Uninvolved g g' t := by
  obtain rfl | ⟨idGen, hCounter, rfl⟩ | ⟨s, idGen, tsGen, hCounter, -, rfl⟩ := begin_cases hExec
  · exact .stays ht fun _ => rfl
  · exact .stays ht fun _ => rfl
  · have hBegun : t ∈ (g.begun ⟨g.counters.2, s, iso, lock⟩ idGen tsGen).txnManager.activeTxns := ht
    rcases mem_active_begun hBegun with rfl | hOld
    · refine .begins rfl fun k => ?_
      show ((Function.update g.txns _ _) _).writes k = []
      rw [Function.update_self]
      cases k <;> rfl
    · have hLt := hIds.drawn t hOld
      refine .stays hOld fun k => ?_
      show ((Function.update g.txns _ _) _).writes k = _
      rw [Function.update_of_ne (Nat.ne_of_lt hLt)]

/-- The end of a transaction leaves the others alone, and itself only if it stays. -/
theorem uninvolved_ends {t : MemTransaction} {gen : GlobalTimestampGenerator} (hIds : IdsApart g)
    (hTxn : txn ∈ g.txnManager.activeTxns)
    (hOwn : OwnOnly { g with timestampGenerator := gen } g' txn)
    (hSelf : t = txn → KeepsIntents g g' txn) (ht : t ∈ g'.txnManager.activeTxns) :
    Uninvolved g g' t := by
  have hMem : t ∈ g.txnManager.activeTxns := hOwn.active t ht
  refine .stays hMem fun k => ?_
  by_cases hId : t.txnId = txn.txnId
  · obtain rfl := hIds.apart t hMem txn hTxn hId
    exact hSelf rfl ht k
  · rw [hOwn.others _ hId]

/-- A step of the machine that is no operation of the transaction leaves its staged writes alone. -/
theorem uninvolved_of_step [DecidableEq V] {a : Action V} {t : MemTransaction} (hIds : IdsApart g)
    (hs : Step g a g') (ht : t ∈ g'.txnManager.activeTxns)
    (hOpt : t.lockStrategy = .optimistic) (hOther : ∀ o, a ≠ .op t o) : Uninvolved g g' t := by
  obtain ⟨hEnabled, r, hExec, -⟩ := hs
  have hFst : g' = (g.exec a).1 := by rw [hExec]
  cases a with
  | begin startTs iso lock => exact uninvolved_begin hIds hExec ht
  | op txn o =>
    have hOwn : OwnOnly g g' txn := hFst ▸ ownOnly_opSteps (opSteps_runOp o)
    exact uninvolved_ends hIds hEnabled hOwn (fun hEq => absurd (by rw [hEq]) (hOther o)) ht
  | query txn q =>
    have hOwn : OwnOnly g g' txn := hFst ▸ ownOnly_opSteps (opSteps_runQuery q)
    exact uninvolved_ends hIds hEnabled.1 hOwn (fun _ _ k => hFst ▸ writes_runQuery q _ k) ht
  | commit txn ts? =>
    obtain ⟨gen, hOwn, -⟩ := @commitAt_ends V g txn false _ ts?
    have hFst : g' = (g.commitAt txn ts? false).1 := hFst
    rw [← hFst] at hOwn
    exact uninvolved_ends hIds hEnabled hOwn
      (fun hEq => hFst ▸ keepsIntents_commitAt (hEq ▸ hOpt)) ht
  | abort txn =>
    have hFst : g' = (g.abortAt txn false).1 := hFst
    have hOwn : OwnOnly g g' txn := hFst ▸ ownOnly_abortAt
    exact uninvolved_ends hIds hEnabled hOwn
      (fun _ hMem => absurd (hFst ▸ hMem) notMem_abortAt) ht
  | garbageCollect =>
    have hFst : g' = g.garbageCollect := hFst
    rw [hFst, activeTxns_garbageCollect] at ht
    exact .stays ht fun k => by rw [hFst, txns_garbageCollect]
  | release o =>
    rw [hFst] at ht ⊢
    refine .stays ht fun k => ?_
    show ((g.modifyTxn o fun s => { s with undoBuffer := [] }).txns t.txnId).writes k = _
    by_cases hEq : t.txnId = o
    · rw [hEq, txns_modifyTxn_self]
      cases k <;> rfl
    · rw [txns_modifyTxn_of_ne _ _ hEq]

/-- Transactions keep ids of their own. -/
theorem IdsApart.step [DecidableEq V] {a : Action V} (h : IdsApart g) (hKeyed : Keyed g')
    (hs : Step g a g') : IdsApart g' := by
  refine ⟨fun t ht t' ht' hEq => ?_, fun t ht => (hKeyed.stamped.active t ht).lt⟩
  obtain ⟨hEnabled, r, hExec, -⟩ := hs
  have hFst : g' = (g.exec a).1 := by rw [hExec]
  have hShrinks : (∀ t ∈ g'.txnManager.activeTxns, t ∈ g.txnManager.activeTxns) → t = t' :=
    fun hOld => h.apart t (hOld t ht) t' (hOld t' ht') hEq
  cases a with
  | begin startTs iso lock =>
    obtain rfl | ⟨idGen, hCounter, rfl⟩ | ⟨s, idGen, tsGen, hCounter, -, rfl⟩ := begin_cases hExec
    · exact hShrinks fun _ hMem => hMem
    · exact hShrinks fun _ hMem => hMem
    · -- the new id is the counter, which is above all others
      have hMem : ∀ t₁ ∈ (g.begun ⟨g.counters.2, s, iso, lock⟩ idGen tsGen).txnManager.activeTxns,
          t₁ = ⟨g.counters.2, s, iso, lock⟩ ∨ t₁ ∈ g.txnManager.activeTxns :=
        fun t₁ ht₁ => mem_active_begun ht₁
      rcases hMem t ht with rfl | hOld
      · rcases hMem t' ht' with rfl | hOld'
        · rfl
        · exact absurd hEq.symm (Nat.ne_of_lt (h.drawn t' hOld'))
      · rcases hMem t' ht' with rfl | hOld'
        · exact absurd hEq (Nat.ne_of_lt (h.drawn t hOld))
        · exact h.apart t hOld t' hOld' hEq
  | op txn o =>
    have hOwn : OwnOnly g g' txn := hFst ▸ ownOnly_opSteps (opSteps_runOp o)
    exact hShrinks hOwn.active
  | query txn q =>
    have hOwn : OwnOnly g g' txn := hFst ▸ ownOnly_opSteps (opSteps_runQuery q)
    exact hShrinks hOwn.active
  | commit txn ts? =>
    obtain ⟨gen, hOwn, -⟩ := @commitAt_ends V g txn false _ ts?
    have hFst : g' = (g.commitAt txn ts? false).1 := hFst
    rw [← hFst] at hOwn
    exact hShrinks hOwn.active
  | abort txn =>
    have hOwn : OwnOnly g g' txn := hFst ▸ ownOnly_abortAt
    exact hShrinks hOwn.active
  | garbageCollect =>
    have hFst : g' = g.garbageCollect := hFst
    exact hShrinks fun t₁ ht₁ => by rwa [hFst, activeTxns_garbageCollect] at ht₁
  | release o =>
    have hFst : g' = g.release o := hFst
    exact hShrinks fun t₁ ht₁ => by rwa [hFst] at ht₁

-- ----
-- Along a run
-- ----

variable {trace : List (MemoryGraph V × Action V)} {a : Action V} {t : MemTransaction}

/-- What one step of a run is for an entity and a transaction: a call of the transaction that
succeeds and acts on the entity, with the graph in which it was made. -/
def touch (t : MemTransaction) (k : Kind) (id : Nat) (p : MemoryGraph V × Action V) :
    Option (MemoryGraph V × EntityOp V k) :=
  match p.2 with
  | .op t' o => if t' = t then (p.1.acts t o k id).map fun op => (p.1, op) else none
  | _ => none

/-- The operations of a transaction on an entity so far, in order. -/
def touches (trace : List (MemoryGraph V × Action V)) (t : MemTransaction) (k : Kind) (id : Nat) :
    List (MemoryGraph V × EntityOp V k) :=
  trace.filterMap (touch t k id)

/-- The operations applied to the version in the snapshot that the first of them finds. -/
def foldedValue (t : MemTransaction) (k : Kind) (id : Nat) :
    List (MemoryGraph V × EntityOp V k) → Option (Data V k)
  | [] => none
  | (s, op) :: rest => ((op :: rest.map Prod.snd).foldl (fun value op => op.apply value)
      ((s.snapshotVersion t k id).map Prod.fst))

/-- The commit timestamp of that version, 0 where the entity is not in the snapshot. -/
def firstGuard (t : MemTransaction) (k : Kind) (id : Nat) :
    List (MemoryGraph V × EntityOp V k) → Nat
  | [] => 0
  | (s, _) :: _ => ((s.snapshotVersion t k id).map Prod.snd).getD 0

/-- **The intent of a transaction for an entity is right**: there is none before the first
operation, and from then on it denotes the folded value, carries the guard of the version
first touched, and is what the transaction reads. -/
def FoldsRight (trace : List (MemoryGraph V × Action V)) (g : MemoryGraph V) (t : MemTransaction)
    (k : Kind) (id : Nat) : Prop :=
  match (g.txns t.txnId).lookupWrite k id with
  | none => touches trace t k id = []
  | some intent => touches trace t k id ≠ [] ∧
      intent.kind.image.bind Data.alive = foldedValue t k id (touches trace t k id) ∧
      intent.guardTs = firstGuard t k id (touches trace t k id) ∧
      (g.getEntity t k id).2.toOption = foldedValue t k id (touches trace t k id)

/-- The condition on each step. An optimistic transaction creates nothing that its snapshot
holds in a version committed exactly at its start and written over since, and deletes no vertex
with an incident edge that is refused after something was staged. -/
def Foldable (g : MemoryGraph V) (a : Action V) : Prop :=
  ∀ txn o, a = .op txn o → txn.lockStrategy = .optimistic →
    g.cascadeClear txn o = true ∧ g.CreatesLegibly txn o

/-- The intent so far, as the view that it stands for. -/
def Tracks (g : MemoryGraph V) (t : MemTransaction) (k : Kind) (id : Nat) :
    List (MemoryGraph V × EntityOp V k) → Prop
  | [] => (g.txns t.txnId).lookupWrite k id = none
  | p :: ops => ((g.txns t.txnId).lookupWrite k id).isSome = true ∧
      g.intentView t k id = (foldedValue t k id (p :: ops), firstGuard t k id (p :: ops))

variable {ops : List (MemoryGraph V × EntityOp V k)}

theorem Tracks.congr (h : Tracks g t k id ops)
    (hLook : (g'.txns t.txnId).lookupWrite k id = (g.txns t.txnId).lookupWrite k id) :
    Tracks g' t k id ops := by
  cases ops with
  | nil => exact hLook.trans h
  | cons p ops => exact ⟨by rw [hLook]; exact h.1, by rw [intentView_congr_of_some h.1 hLook, h.2]⟩

theorem Tracks.snoc {op : EntityOp V k} (h : Tracks g t k id ops) (hFold : FoldedIn t id op g g') :
    Tracks g' t k id (ops ++ [(g, op)]) := by
  cases ops with
  | nil =>
    refine ⟨hFold.staged, ?_⟩
    rw [hFold.view, intentView_of_none h]
    rfl
  | cons p ops =>
    obtain ⟨s, op₁⟩ := p
    refine ⟨hFold.staged, ?_⟩
    have hValue : foldedValue t k id ((s, op₁) :: (ops ++ [(g, op)])) =
        op.apply (foldedValue t k id ((s, op₁) :: ops)) := by
      simp only [foldedValue, List.map_append, List.map_cons, List.map_nil, List.foldl_cons,
        List.foldl_append, List.foldl_nil]
    rw [hFold.view, h.2, ← hValue]
    rfl

theorem Tracks.foldsRight (hOpt : t.lockStrategy = .optimistic)
    (h : Tracks g t k id (touches trace t k id)) : FoldsRight trace g t k id := by
  unfold FoldsRight
  cases hTouches : touches trace t k id with
  | nil =>
    rw [hTouches] at h
    rw [show (g.txns t.txnId).lookupWrite k id = none from h]
  | cons p ops =>
    rw [hTouches] at h
    obtain ⟨hSome, hView⟩ := h
    obtain ⟨intent, hLook⟩ := Option.isSome_iff_exists.mp hSome
    rw [intentView_of_some hLook] at hView
    obtain ⟨hValue, hGuard⟩ := Prod.mk.inj hView
    have hPending : g.pendingWrite t k id = some intent := by
      unfold pendingWrite
      rw [if_pos hOpt, hLook]
    rw [hLook]
    refine ⟨List.cons_ne_nil _ _, hValue, hGuard, ?_⟩
    rw [← hValue]
    show (g.readEntity t k id).toOption = _
    unfold readEntity
    rw [hPending]
    dsimp only
    cases intent.kind.image with
    | none => rfl
    | some d =>
      unfold Data.alive
      dsimp only [Option.bind_some]
      split <;> rfl

/-- What holds in every run under the condition. -/
structure Folding (trace : List (MemoryGraph V × Action V)) (g : MemoryGraph V) : Prop where
  ids : IdsApart g
  drawn : ∀ p ∈ trace, ∀ t o, p.2 = .op t o → t.txnId < g.counters.2
  tracks : ∀ t ∈ g.txnManager.activeTxns, t.lockStrategy = .optimistic →
    ∀ k id, Tracks g t k id (touches trace t k id)

theorem touches_snoc : touches (trace ++ [(g, a)]) t k id =
    touches trace t k id ++ (touch t k id (g, a)).toList := by
  unfold touches
  rw [List.filterMap_append]
  cases hTouch : touch t k id (g, a) <;> simp [hTouch]

theorem touch_of_ne (hOther : ∀ o, a ≠ .op t o) : touch t k id (g, a) = none := by
  unfold touch
  cases a with
  | op t' o =>
    have hne : t' ≠ t := fun hEq => hOther o (by rw [hEq])
    exact if_neg hne
  | _ => rfl

/-- A transaction that has just drawn its id has called nothing. -/
theorem touches_of_new (hDrawn : ∀ p ∈ trace, ∀ t o, p.2 = .op t o → t.txnId < g.counters.2)
    (hId : t.txnId = g.counters.2) : touches trace t k id = [] := by
  unfold touches
  rw [List.filterMap_eq_nil_iff]
  intro p hp
  obtain ⟨s, a⟩ := p
  refine touch_of_ne fun o hEq => ?_
  have hLt := hDrawn (s, a) hp t o hEq
  omega

/-- One step keeps every intent the fold of the writes that were staged under it. -/
theorem Folding.step [DecidableEq V] (h : Folding trace g) (hKeyed : Keyed g)
    (hKeyed' : Keyed g') (hFoldable : Foldable g a) (hs : Step g a g') :
    Folding (trace ++ [(g, a)]) g' := by
  have hMono : g.counters.2 ≤ g'.counters.2 := (movesOn_step hs).id
  refine ⟨h.ids.step hKeyed' hs, fun p hp t o hEq => ?_, fun t ht hOpt k id => ?_⟩
  · rcases List.mem_append.mp hp with hp | hp
    · have hLt := h.drawn p hp t o hEq
      omega
    · rw [List.mem_singleton] at hp
      subst hp
      obtain rfl : a = .op t o := hEq
      have hLt := (hKeyed.stamped.active t hs.1).lt
      omega
  · rw [touches_snoc]
    by_cases hSelf : ∃ o, a = .op t o
    · obtain ⟨o, rfl⟩ := hSelf
      obtain ⟨hTxn, r, hExec, -⟩ := hs
      obtain ⟨hClear, hLegible⟩ := hFoldable t o rfl hOpt
      have hFst : (g.runOp t o).1 = g' := congrArg Prod.fst hExec
      have hFold := runOp_folds hOpt (hKeyed.stamped.active t hTxn).id hClear hLegible k id
      rw [hFst] at hFold
      have hTouch : touch t k id (g, .op t o) = (g.acts t o k id).map fun op => (g, op) :=
        if_pos rfl
      have hBefore := h.tracks t hTxn hOpt k id
      rw [hTouch]
      cases hActs : g.acts t o k id with
      | none =>
        rw [hActs] at hFold
        rw [Option.map_none, Option.toList_none, List.append_nil]
        exact hBefore.congr hFold
      | some op =>
        rw [hActs] at hFold
        exact hBefore.snoc hFold
    · have hOther : ∀ o, a ≠ .op t o := fun o hEq => hSelf ⟨o, hEq⟩
      rw [touch_of_ne hOther, Option.toList_none, List.append_nil]
      cases uninvolved_of_step h.ids hs ht hOpt hOther with
      | stays hMem hWrites =>
        refine (h.tracks t hMem hOpt k id).congr ?_
        unfold TxnState.lookupWrite
        rw [hWrites]
      | begins hId hWrites =>
        rw [touches_of_new h.drawn hId]
        show (g'.txns t.txnId).lookupWrite k id = none
        unfold TxnState.lookupWrite
        rw [hWrites]
        rfl

/-- **Intents fold the operations**: in every run whose steps meet the condition, every intent
of an active optimistic transaction is right. -/
theorem intents_fold [DecidableEq V] {gcThreshold : Option Nat} {lock : LockStrategy}
    {iso : IsolationLevel} (hRun : Run Step Foldable (.new gcThreshold lock iso) trace g)
    (hTxn : t ∈ g.txnManager.activeTxns) (hOpt : t.lockStrategy = .optimistic) (k : Kind)
    (id : Nat) : FoldsRight trace g t k id := by
  have hFolding : Keyed g ∧ Folding trace g := by
    refine hRun.invariant (I := fun trace g => Keyed g ∧ Folding trace g)
      ⟨.new gcThreshold lock iso, ⟨fun t ht => (nomatch ht), fun t ht => (nomatch ht)⟩,
        fun p hp => (nomatch hp), fun t ht => (nomatch ht)⟩
      fun trace s a s' _ hI hFoldable hs => ?_
    have hKeyed := hI.1.step hs
    exact ⟨hKeyed, hI.2.step hI.1 hKeyed hFoldable hs⟩
  exact (hFolding.2.tracks t hTxn hOpt k id).foldsRight hOpt

-- ----
-- Runs in which an intent is wrong
-- ----

section Traces

/-- Vertex 1 is committed at 2 and written over at 4; an optimistic transaction that starts
at 2 creates it. -/
def createdAgain : List (Action Nat) :=
  let t₁ := snapshotTxn 1 1 .pessimistic
  let t₂ := snapshotTxn 2 3 .pessimistic
  let t₃ := snapshotTxn 3 2 .optimistic
  [.begin none .snapshot .pessimistic, .op t₁ (.createVertex (.new 1 0 [7])), .commit t₁ none,
   .begin none .snapshot .pessimistic, .op t₂ (.setVertexProperty 1 [0] [8]), .commit t₂ none,
   .begin (some 2) .snapshot .optimistic, .op t₃ (.createVertex (.new 1 0 [9]))]

/-- **An intent without the timestamp of the version it replaces**: the snapshot holds vertex 1
as committed at 2, the insert that is staged for it carries 0. -/
theorem created_over_snapshot : ∃ trace g t k id,
    Run Step (fun _ _ => True) (.new none .pessimistic .snapshot : MemoryGraph Nat) trace g ∧
    t ∈ g.txnManager.activeTxns ∧ t.lockStrategy = .optimistic ∧ ¬ FoldsRight trace g t k id := by
  let t₃ := snapshotTxn 3 2 .optimistic
  obtain ⟨trace, g, hList, hFacts⟩ := exists_of_runList
    (show (runList (next fun _ _ => true)
      (.new none .pessimistic .snapshot : MemoryGraph Nat) createdAgain).map (fun r =>
      (decide (t₃ ∈ r.2.txnManager.activeTxns),
      ((r.2.txns t₃.txnId).lookupWrite .vertex 1).map WriteIntent.guardTs,
      firstGuard t₃ .vertex 1 (touches r.1 t₃ .vertex 1))) = some (true, some 0, 2) by rfl)
  simp only [Prod.mk.injEq] at hFacts
  obtain ⟨hTxn, hGuard, hFirst⟩ := hFacts
  refine ⟨trace, g, t₃, .vertex, 1,
    Run.of_runList (fun s a s' hNext => ⟨trivial, (step_of_next hNext).2⟩) hList,
    of_decide_eq_true hTxn, rfl, fun hFolds => ?_⟩
  obtain ⟨intent, hLook, hZero⟩ := Option.map_eq_some_iff.mp hGuard
  unfold FoldsRight at hFolds
  rw [hLook] at hFolds
  have hGuards := hFolds.2.2.1
  rw [hZero, hFirst] at hGuards
  cases hGuards

/-- Vertex 1 with an edge, which another transaction writes while an optimistic one deletes
the vertex. -/
def heldEdge : List (Action Nat) :=
  let t₁ := snapshotTxn 1 1 .pessimistic
  let t₂ := snapshotTxn 2 3 .pessimistic
  let t₃ := snapshotTxn 3 4 .optimistic
  [.begin none .snapshot .pessimistic,
   .op t₁ (.createVertex (.new 1 0 [])), .op t₁ (.createVertex (.new 2 0 [])),
   .op t₁ (.createEdge (.new 10 1 2 0 [7])), .commit t₁ none,
   .begin none .snapshot .pessimistic, .op t₂ (.setEdgeProperty 10 [0] [8]),
   .begin none .snapshot .optimistic, .op t₃ (.deleteVertex 1)]

/-- **The intent of a call that failed**: the delete of vertex 1 is refused at its edge, and
the transaction has it staged. -/
theorem refused_delete_staged : ∃ trace g t k id,
    Run Step (fun _ _ => True) (.new none .pessimistic .snapshot : MemoryGraph Nat) trace g ∧
    t ∈ g.txnManager.activeTxns ∧ t.lockStrategy = .optimistic ∧ ¬ FoldsRight trace g t k id := by
  let t₃ := snapshotTxn 3 4 .optimistic
  obtain ⟨trace, g, hList, hFacts⟩ := exists_of_runList
    (show (runList (next fun _ _ => true)
      (.new none .pessimistic .snapshot : MemoryGraph Nat) heldEdge).map (fun r =>
      (decide (t₃ ∈ r.2.txnManager.activeTxns), ((r.2.txns t₃.txnId).lookupWrite .vertex 1).isSome,
      (touches r.1 t₃ .vertex 1).isEmpty)) = some (true, true, true) by rfl)
  simp only [Prod.mk.injEq] at hFacts
  obtain ⟨hTxn, hSome, hEmpty⟩ := hFacts
  refine ⟨trace, g, t₃, .vertex, 1,
    Run.of_runList (fun s a s' hNext => ⟨trivial, (step_of_next hNext).2⟩) hList,
    of_decide_eq_true hTxn, rfl, fun hFolds => ?_⟩
  obtain ⟨intent, hLook⟩ := Option.isSome_iff_exists.mp hSome
  unfold FoldsRight at hFolds
  rw [hLook] at hFolds
  exact hFolds.1 (List.isEmpty_iff.mp hEmpty)

/-- What a call creates is not in the map. -/
def createsNew (g : MemoryGraph Nat) : Op Nat → Bool
  | .createVertex vertex => (g.chain .vertex vertex.vid).isNone
  | .createEdge edge => (g.chain .edge edge.eid).isNone
  | _ => true

/-- A part of `Foldable` that can be tested. -/
def isFoldable (g : MemoryGraph Nat) : Action Nat → Bool
  | .op txn o => txn.lockStrategy = .pessimistic || (g.cascadeClear txn o && g.createsNew o)
  | _ => true

theorem foldable_of_isFoldable {g : MemoryGraph Nat} {a : Action Nat}
    (h : isFoldable g a = true) : Foldable g a := by
  rintro txn o rfl hOpt
  have hTest : (decide (txn.lockStrategy = .pessimistic) ||
      (g.cascadeClear txn o && g.createsNew o)) = true := h
  rw [hOpt, show decide (LockStrategy.optimistic = .pessimistic) = false from rfl, Bool.false_or,
    Bool.and_eq_true] at hTest
  obtain ⟨hClear, hNew⟩ := hTest
  refine ⟨hClear, ?_⟩
  cases o with
  | createVertex vertex =>
    intro _ c hc
    rw [Option.isNone_iff_eq_none.mp hNew] at hc
    cases hc
  | createEdge edge =>
    intro _ c hc
    rw [Option.isNone_iff_eq_none.mp hNew] at hc
    cases hc
  | _ => trivial

/-- An optimistic transaction sets a property twice, and creates and deletes a vertex. -/
def foldedTwice : List (Action Nat) :=
  let t₁ := snapshotTxn 1 1 .pessimistic
  let t₂ := snapshotTxn 2 3 .optimistic
  [.begin none .snapshot .pessimistic, .op t₁ (.createVertex (.new 1 0 [7])), .commit t₁ none,
   .begin none .snapshot .optimistic, .op t₂ (.setVertexProperty 1 [0] [8]),
   .op t₂ (.createVertex (.new 2 0 [])), .op t₂ (.deleteVertex 2),
   .op t₂ (.setVertexProperty 1 [0] [9])]

/-- After two writes the intent for vertex 1 denotes the second, and is guarded by 2. -/
theorem intents_fold_twice : ∃ trace g,
    Run Step Foldable (.new none .pessimistic .snapshot : MemoryGraph Nat) trace g ∧
    FoldsRight trace g (snapshotTxn 2 3 .optimistic) .vertex 1 ∧
    (touches trace (snapshotTxn 2 3 .optimistic) .vertex 1).length = 2 ∧
    firstGuard (snapshotTxn 2 3 .optimistic) .vertex 1
      (touches trace (snapshotTxn 2 3 .optimistic) .vertex 1) = 2 := by
  let t₂ := snapshotTxn 2 3 .optimistic
  obtain ⟨trace, g, hList, hFacts⟩ := exists_of_runList
    (show (runList (next isFoldable)
      (.new none .pessimistic .snapshot : MemoryGraph Nat) foldedTwice).map (fun r =>
      (decide (t₂ ∈ r.2.txnManager.activeTxns), (touches r.1 t₂ .vertex 1).length,
      firstGuard t₂ .vertex 1 (touches r.1 t₂ .vertex 1))) = some (true, 2, 2) by rfl)
  simp only [Prod.mk.injEq] at hFacts
  obtain ⟨hTxn, hLength, hFirst⟩ := hFacts
  have hRun : Run Step Foldable (.new none .pessimistic .snapshot : MemoryGraph Nat) trace g := by
    refine Run.of_runList (fun s a s' hNext => ?_) hList
    obtain ⟨hTest, hStep⟩ := step_of_next hNext
    exact ⟨foldable_of_isFoldable hTest, hStep⟩
  exact ⟨trace, g, hRun, intents_fold hRun (of_decide_eq_true hTxn) rfl .vertex 1, hLength, hFirst⟩

end Traces

end MiniGU.MemoryGraph
