import MiniGU.Invariant.WriteIntents

/-!
# Calls that fail

A call that is refused should leave no trace of itself but in the read sets. One call runs
other calls: `delete_vertex` deletes the incident edges one after the other and stops at the
first that is refused, with the edges before it deleted and, under optimistic locking, the
vertex already staged for deletion.
-/

namespace MiniGU.MemoryGraph

variable {V : Type} {g g' g₁ : MemoryGraph V} {txn : MemTransaction} {e : StorageError}

-- ----
-- Atomicity
-- ----

/-- The maps, and of every transaction the buffers and the intents, are as they were. -/
structure AsBefore (g g' : MemoryGraph V) : Prop where
  vertices : g'.vertices = g.vertices
  edges : g'.edges = g.edges
  adjacencyList : g'.adjacencyList = g.adjacencyList
  undoBuffer : ∀ t, (g'.txns t).undoBuffer = (g.txns t).undoBuffer
  redoBuffer : ∀ t, (g'.txns t).redoBuffer = (g.txns t).redoBuffer
  writes : ∀ t k, (g'.txns t).writes k = (g.txns t).writes k

/-- A call that returns an error leaves everything as it was. -/
def Atomic (g : MemoryGraph V) (txn : MemTransaction) (o : Op V) : Prop :=
  ∀ g' e, g.runOp txn o = (g', .error e) → AsBefore g g'

theorem AsBefore.refl : AsBefore g g := ⟨rfl, rfl, rfl, fun _ => rfl, fun _ => rfl, fun _ _ => rfl⟩

theorem AsBefore.trans (h : AsBefore g g₁) (h' : AsBefore g₁ g') : AsBefore g g' where
  vertices := h'.vertices.trans h.vertices
  edges := h'.edges.trans h.edges
  adjacencyList := h'.adjacencyList.trans h.adjacencyList
  undoBuffer t := (h'.undoBuffer t).trans (h.undoBuffer t)
  redoBuffer t := (h'.redoBuffer t).trans (h.redoBuffer t)
  writes t k := (h'.writes t k).trans (h.writes t k)

theorem AsBefore.of_eq (h : g' = g) : AsBefore g g' := h ▸ .refl

theorem asBefore_noteRead {k : Kind} {id : Nat} : AsBefore g (g.noteRead txn k id) := by
  have hTxns : ∀ t, ((g.noteRead txn k id).txns t).redoBuffer = (g.txns t).redoBuffer ∧
      ∀ k', ((g.noteRead txn k id).txns t).writes k' = (g.txns t).writes k' := by
    intro t
    rcases txns_noteRead (g := g) txn k id t with hEq | ⟨-, hEq⟩
    · rw [hEq]
      exact ⟨rfl, fun _ => rfl⟩
    · rw [hEq]
      exact ⟨by cases k <;> rfl, fun k' => by cases k <;> cases k' <;> rfl⟩
  have hMaps : (g.noteRead txn k id).vertices = g.vertices ∧ (g.noteRead txn k id).edges = g.edges ∧
      (g.noteRead txn k id).adjacencyList = g.adjacencyList := by
    unfold noteRead
    split <;> exact ⟨rfl, rfl, rfl⟩
  exact ⟨hMaps.1, hMaps.2.1, hMaps.2.2, undoBuffer_noteRead, fun t => (hTxns t).1,
    fun t => (hTxns t).2⟩

-- ----
-- Calls that run no other call
-- ----

theorem createVertex_error {vertex : Vertex V}
    (h : g.createVertex txn vertex = (g', .error e)) : AsBefore g g' := by
  unfold createVertex getVertex getEntity at h
  split at h
  · cases h
    exact .refl
  · cases hRead : g.readEntity txn .vertex vertex.vid with
    | ok d =>
      rw [hRead] at h
      cases h
      exact asBefore_noteRead
    | error e' =>
      rw [hRead] at h
      dsimp only at h
      cases hLock : txn.lockStrategy with
      | pessimistic =>
        rw [hLock] at h
        dsimp only at h
        split at h
        · rename_i g₂ e₂ heq
          cases h
          exact asBefore_noteRead.trans (.of_eq (insertVersion_error heq))
        · cases h
      | optimistic =>
        rw [hLock] at h
        cases h

/-- A failing `create_edge` leaves everything as it was. -/
theorem createEdge_error {edge : Edge V}
    (h : g.createEdge txn edge = (g', .error e)) : AsBefore g g' := by
  unfold createEdge getVertex getEdge getEntity at h
  cases hSrc : g.readEntity txn .vertex edge.srcId with
  | error e' =>
    rw [hSrc] at h
    cases h
    exact asBefore_noteRead
  | ok src =>
    rw [hSrc] at h
    dsimp only at h
    have hNoted : AsBefore g ((g.noteRead txn .vertex edge.srcId).noteRead txn .vertex edge.dstId) :=
      asBefore_noteRead.trans asBefore_noteRead
    split at h
    · rename_i g₂ e₂ heq
      obtain ⟨rfl, -⟩ := Prod.mk.inj heq
      cases h
      exact hNoted
    · rename_i g₂ dst heq
      obtain ⟨rfl, -⟩ := Prod.mk.inj heq
      split at h
      · cases h
        exact hNoted
      · split at h
        · rename_i g₃ d heq
          obtain ⟨rfl, -⟩ := Prod.mk.inj heq
          cases h
          exact hNoted.trans asBefore_noteRead
        · rename_i g₃ e₃ heq
          obtain ⟨rfl, -⟩ := Prod.mk.inj heq
          cases hLock : txn.lockStrategy with
          | pessimistic =>
            rw [hLock] at h
            dsimp only at h
            split at h
            · rename_i g₄ e₄ heq
              cases h
              exact (hNoted.trans asBefore_noteRead).trans (.of_eq (insertVersion_error heq))
            · cases h
          | optimistic =>
            rw [hLock] at h
            cases h

theorem stageDelete_error {k : Kind} {id : Nat}
    (h : g.stageDelete txn k id = (g', .error e)) : g' = g := by
  unfold stageDelete at h
  split at h
  · split at h <;> cases h
  · split at h
    · cases h
      rfl
    · split at h <;> cases h
      rfl

theorem deleteEdge_error {eid : Nat} (h : g.deleteEdge txn eid = (g', .error e)) : g' = g := by
  unfold deleteEdge deleteEdgeInPlace recordOccEdgeDelete at h
  split at h
  · split at h
    · cases h
      rfl
    · split at h <;> cases h
      rfl
  · split at h
    · rename_i g₁ e₁ heq
      cases h
      exact stageDelete_error heq
    · cases h

theorem updateProperties_error {k : Kind} {id : Nat} {c : VersionChain (Data V k) (DeltaOp V)}
    {indices : List Nat} {props : List V}
    (h : g.updateProperties txn k id c indices props = (g', .error e)) : g' = g := by
  unfold updateProperties at h
  split at h
  · cases h
    rfl
  · split at h <;> cases h
    rfl

theorem setProperty_error {k : Kind} {id : Nat} {indices : List Nat} {props : List V}
    (h : g.setProperty txn k id indices props = (g', .error e)) : g' = g := by
  unfold setProperty at h
  split at h
  · split at h
    · cases h
      rfl
    · split at h
      · rename_i g₁ e₁ heq
        cases h
        exact updateProperties_error heq
      · cases h
  · split at h
    · split at h
      · split at h <;> cases h
        rfl
      · split at h <;> cases h
        rfl
      · cases h
        rfl
    · split at h
      · cases h
        rfl
      · split at h
        · cases h
          rfl
        · split at h <;> cases h
          rfl

-- ----
-- What a cascade can be refused
-- ----

/-- Whether the delete of one entity is refused, by the checks made before anything is
written. -/
def refuses (g : MemoryGraph V) (txn : MemTransaction) (k : Kind) (id : Nat) : Bool :=
  match txn.lockStrategy with
  | .pessimistic => (g.chain k id).elim true fun c => !(prewriteCheck c.current.commitTs txn).isOk
  | .optimistic => ((g.txns txn.txnId).lookupWrite k id).isNone &&
      (g.chain k id).elim true fun c => !(g.snapshotWithGuard txn c).isOk

/-- The edges that the cascade of `delete_vertex` deletes, in its order. -/
def cascadeEdges (g : MemoryGraph V) (txn : MemTransaction) (vid : Nat) : List Nat :=
  match txn.lockStrategy with
  | .pessimistic =>
    ((g.incoming vid ++ g.outgoing vid).map Neighbor.eid).filter fun eid => (g.edges eid).isSome
  | .optimistic => g.incidentEdges txn vid

/-- Whether `delete_vertex` writes for the vertex before its edges: an optimistic
transaction stages the delete, unless it is staged already. -/
def stagesVertex (g : MemoryGraph V) (txn : MemTransaction) (vid : Nat) : Bool :=
  match txn.lockStrategy with
  | .pessimistic => false
  | .optimistic =>
    match (g.txns txn.txnId).lookupWrite .vertex vid with
    | some ⟨_, .delete _⟩ => false
    | _ => true

/-- Whether nothing is written before the call can be refused: the vertex is refused, or no
incident edge is, or the first one is and the vertex has nothing staged. -/
def cascadeClear (g : MemoryGraph V) (txn : MemTransaction) : Op V → Bool
  | .deleteVertex vid => g.refuses txn .vertex vid ||
      (g.cascadeEdges txn vid).all (fun eid => !g.refuses txn .edge eid) ||
      (!g.stagesVertex txn vid && (g.cascadeEdges txn vid).head?.any (g.refuses txn .edge))
  | _ => true

/-- What the delete of an edge that is not refused does for the other edges of a cascade. -/
structure EdgeDeleted (txn : MemTransaction) (g g' : MemoryGraph V) : Prop where
  refuses : ∀ id, g'.refuses txn .edge id = g.refuses txn .edge id
  isSome : ∀ id, (g'.edges id).isSome = (g.edges id).isSome
  redo : (g.txns txn.txnId).redoBuffer.length < (g'.txns txn.txnId).redoBuffer.length

theorem prewriteCheck_own (hId : Timestamp.txnIdStart < txn.txnId) :
    prewriteCheck txn.txnId txn = .ok () := by
  have hNot : Timestamp.isCommitTs txn.txnId = false := by
    rw [Bool.eq_false_iff, ne_eq, Timestamp.isCommitTs_iff]
    omega
  unfold prewriteCheck checkWriteConflict optimisticWriteGuard
  split <;> simp [hNot]

theorem refuses_pessimistic (hLock : txn.lockStrategy = .pessimistic) (k : Kind) (id : Nat) :
    g.refuses txn k id =
      (g.chain k id).elim true fun c => !(prewriteCheck c.current.commitTs txn).isOk := by
  unfold refuses
  rw [hLock]

theorem refuses_optimistic (hLock : txn.lockStrategy = .optimistic) (k : Kind) (id : Nat) :
    g.refuses txn k id = (((g.txns txn.txnId).lookupWrite k id).isNone &&
      (g.chain k id).elim true fun c => !(g.snapshotWithGuard txn c).isOk) := by
  unfold refuses
  rw [hLock]

theorem refuses_of_chain (hLock : txn.lockStrategy = .pessimistic) {k : Kind} {id : Nat}
    {c : VersionChain (Data V k) (DeltaOp V)} (hc : g.chain k id = some c) :
    g.refuses txn k id = !(prewriteCheck c.current.commitTs txn).isOk := by
  rw [refuses_pessimistic hLock, hc, Option.elim_some]

/-- The checks of an optimistic delete read the chains, the undo buffers and the intent. -/
theorem refuses_congr (hLock : txn.lockStrategy = .optimistic) {k : Kind} {id : Nat}
    (hChain : g'.chain = g.chain) (hUndo : ∀ t, (g'.txns t).undoBuffer = (g.txns t).undoBuffer)
    (hLook : (g'.txns txn.txnId).lookupWrite k id = (g.txns txn.txnId).lookupWrite k id) :
    g'.refuses txn k id = g.refuses txn k id := by
  have hLive : g'.upgradable = g.upgradable := by
    funext o
    simp only [upgradable, hUndo]
  rw [refuses_optimistic hLock, refuses_optimistic hLock, hLook, hChain]
  unfold snapshotWithGuard
  rw [hLive]

-- ----
-- The delete of one edge
-- ----

theorem deleteEdgeInPlace_error {eid : Nat} (hLock : txn.lockStrategy = .pessimistic)
    (h : g.deleteEdgeInPlace txn eid = (g', .error e)) : g.refuses txn .edge eid = true := by
  unfold deleteEdgeInPlace at h
  split at h
  · rename_i hNone
    rw [refuses_pessimistic hLock, show g.chain .edge eid = none from hNone]
    rfl
  · rename_i c hc
    split at h
    · rename_i e' hCheck
      rw [refuses_of_chain hLock (k := .edge) hc, hCheck]
      rfl
    · cases h

theorem chain_deleteVersion_self {k : Kind} (id : Nat) (c : VersionChain (Data V k) (DeltaOp V)) :
    ∃ c', (g.deleteVersion txn k id c).chain k id = some c' ∧ c'.current.commitTs = txn.txnId := by
  refine ⟨c.push txn.txnId (.create c.current.data) c.current.commitTs c.current.data.tombstone, ?_,
    VersionChain.push_commitTs ..⟩
  simp [deleteVersion, pushRedo, writeVersion]

theorem chain_deleteVersion_of_ne {k : Kind} {id id' : Nat}
    (c : VersionChain (Data V k) (DeltaOp V)) (hne : id' ≠ id) :
    (g.deleteVersion txn k id c).chain k id' = g.chain k id' := by
  simp only [deleteVersion, pushRedo, writeVersion, chain_modifyTxn]
  rw [chain_setChain_of_ne _ _ (fun hEq => hne (Prod.mk.inj hEq).2)]
  simp [pushUndo]

/-- What a successful delete in place has checked and changed. -/
theorem deleteEdgeInPlace_ok {eid : Nat} {u : Unit} (hLock : txn.lockStrategy = .pessimistic)
    (hId : Timestamp.txnIdStart < txn.txnId) (h : g.deleteEdgeInPlace txn eid = (g', .ok u)) :
    g.refuses txn .edge eid = false ∧ EdgeDeleted txn g g' := by
  unfold deleteEdgeInPlace at h
  split at h
  · cases h
  · rename_i c hc
    split at h
    · cases h
    · rename_i u' hCheck
      obtain ⟨rfl, -⟩ := Prod.mk.inj h
      have hFree : g.refuses txn .edge eid = false := by
        rw [refuses_of_chain hLock (k := .edge) hc, hCheck]
        rfl
      obtain ⟨c', hc', hOwn⟩ : ∃ c', (g.deleteVersion txn .edge eid c).chain .edge eid = some c' ∧
          c'.current.commitTs = txn.txnId := chain_deleteVersion_self (k := .edge) eid c
      have hOther : ∀ id, id ≠ eid →
          (g.deleteVersion txn .edge eid c).chain .edge id = g.chain .edge id :=
        fun id hne => chain_deleteVersion_of_ne (k := .edge) c hne
      refine ⟨hFree, fun id => ?_, fun id => ?_, ?_⟩
      · by_cases hEq : id = eid
        · -- the head is the transaction's own from now on
          rw [hEq, hFree, refuses_of_chain hLock hc', hOwn, prewriteCheck_own hId]
          rfl
        · rw [refuses_pessimistic hLock, refuses_pessimistic hLock, hOther id hEq]
      · show ((g.deleteVersion txn .edge eid c).chain .edge id).isSome = (g.chain .edge id).isSome
        by_cases hEq : id = eid
        · rw [hEq, hc', show g.chain .edge eid = some c from hc]
          rfl
        · rw [hOther id hEq]
      · simp [deleteVersion, pushRedo, writeVersion, pushUndo]

/-- A delete that is staged leaves chains and buffers alone and an intent behind. -/
structure DeleteStaged (txn : MemTransaction) (k : Kind) (id : Nat) (g g' : MemoryGraph V) :
    Prop where
  chain : g'.chain = g.chain
  adjacencyList : g'.adjacencyList = g.adjacencyList
  undoBuffer : ∀ t, (g'.txns t).undoBuffer = (g.txns t).undoBuffer
  redoBuffer : ∀ t, (g'.txns t).redoBuffer = (g.txns t).redoBuffer
  intent : ∃ guardTs before,
    (g'.txns txn.txnId).lookupWrite k id = some ⟨guardTs, .delete before⟩
  others : ∀ k' id', (k', id') ≠ (k, id) →
    (g'.txns txn.txnId).lookupWrite k' id' = (g.txns txn.txnId).lookupWrite k' id'
  otherKind : ∀ k', k' ≠ k → (g'.txns txn.txnId).writes k' = (g.txns txn.txnId).writes k'

theorem deleteStaged_stage {k : Kind} {id guardTs : Nat} {before : Data V k} :
    DeleteStaged txn k id g (g.stage txn k id ⟨guardTs, .delete before⟩) := by
  have hTxns : ∀ t,
      ((g.stage txn k id ⟨guardTs, .delete before⟩).txns t).undoBuffer = (g.txns t).undoBuffer ∧
      ((g.stage txn k id ⟨guardTs, .delete before⟩).txns t).redoBuffer = (g.txns t).redoBuffer := by
    intro t
    unfold stage
    by_cases ht : t = txn.txnId
    · subst ht
      rw [txns_modifyTxn_self]
      cases k <;> exact ⟨rfl, rfl⟩
    · rw [txns_modifyTxn_of_ne _ _ ht]
      exact ⟨rfl, rfl⟩
  refine ⟨chain_modifyTxn .., rfl, fun t => (hTxns t).1, fun t => (hTxns t).2,
    ⟨guardTs, before, lookupWrite_stage_self _⟩, fun k' id' hne => lookupWrite_stage_of_ne _ hne,
    fun k' hne => writes_stage_of_ne hne ..⟩

theorem recordDelete_eq {k : Kind} {id guardTs : Nat} {before : Data V k} :
    ∃ ts, g.recordDelete txn k id guardTs before = g.stage txn k id ⟨ts, .delete before⟩ := by
  unfold recordDelete
  split
  · exact ⟨_, rfl⟩
  · exact ⟨_, rfl⟩

theorem stageDelete_ok {k : Kind} {id : Nat} {u : Unit}
    (h : g.stageDelete txn k id = (g', .ok u)) : DeleteStaged txn k id g g' := by
  have hRecord : ∀ guardTs (before : Data V k), g.recordDelete txn k id guardTs before = g' →
      DeleteStaged txn k id g g' := by
    intro guardTs before hEq
    obtain ⟨ts, hStage⟩ : ∃ ts, g.recordDelete txn k id guardTs before =
        g.stage txn k id ⟨ts, .delete before⟩ := recordDelete_eq
    rw [← hEq, hStage]
    exact deleteStaged_stage
  unfold stageDelete at h
  split at h
  · rename_i intent hLook
    split at h
    · exact hRecord _ _ (Prod.mk.inj h).1
    · exact hRecord _ _ (Prod.mk.inj h).1
    · rename_i before hKind
      obtain ⟨rfl, -⟩ := Prod.mk.inj h
      refine ⟨rfl, rfl, fun _ => rfl, fun _ => rfl, ⟨intent.guardTs, before, ?_⟩, fun _ _ _ => rfl,
        fun _ _ => rfl⟩
      rw [hLook, ← hKind]
  · split at h
    · cases h
    · split at h
      · cases h
      · exact hRecord _ _ (Prod.mk.inj h).1

/-- The edges of a cascade are those found before the vertex was staged. -/
theorem DeleteStaged.incidentEdges {id : Nat} (h : DeleteStaged txn .vertex id g g') (vid : Nat) :
    g'.incidentEdges txn vid = g.incidentEdges txn vid := by
  have hWrites : (g'.txns txn.txnId).edgeWrites = (g.txns txn.txnId).edgeWrites :=
    h.otherKind .edge (by decide)
  unfold MemoryGraph.incidentEdges incoming outgoing
  rw [hWrites, h.adjacencyList]

theorem stageDelete_refused {k : Kind} {id : Nat} (hLock : txn.lockStrategy = .optimistic)
    (h : g.stageDelete txn k id = (g', .error e)) : g.refuses txn k id = true := by
  rw [refuses_optimistic hLock]
  unfold stageDelete at h
  split at h
  · split at h <;> cases h
  · rename_i hLook
    rw [hLook]
    split at h
    · rename_i hNone
      rw [hNone]
      rfl
    · rename_i c hc
      split at h
      · rename_i e' hSnap
        rw [hc, Option.elim_some, hSnap]
        rfl
      · cases h

theorem stageDelete_accepted {k : Kind} {id : Nat} {u : Unit}
    (hLock : txn.lockStrategy = .optimistic) (h : g.stageDelete txn k id = (g', .ok u)) :
    g.refuses txn k id = false := by
  rw [refuses_optimistic hLock]
  unfold stageDelete at h
  split at h
  · rename_i intent hLook
    rw [hLook]
    rfl
  · rename_i hLook
    rw [hLook]
    split at h
    · cases h
    · rename_i c hc
      split at h
      · cases h
      · rename_i before guardTs hSnap
        rw [hc, Option.elim_some, hSnap]
        rfl

/-- A staged delete leaves every other check as it was, and passes its own from now on. -/
theorem DeleteStaged.refuses (hLock : txn.lockStrategy = .optimistic) {k : Kind} {id : Nat}
    (h : DeleteStaged txn k id g g') (hFree : g.refuses txn k id = false) (k' : Kind) (id' : Nat) :
    g'.refuses txn k' id' = g.refuses txn k' id' := by
  by_cases hEq : (k', id') = (k, id)
  · obtain ⟨rfl, rfl⟩ := Prod.mk.inj hEq
    obtain ⟨guardTs, before, hLook⟩ := h.intent
    rw [hFree, refuses_optimistic hLock, hLook]
    rfl
  · exact refuses_congr hLock h.chain h.undoBuffer (h.others k' id' hEq)

theorem deleteEdge_refused {eid : Nat} (h : g.deleteEdge txn eid = (g', .error e)) :
    g.refuses txn .edge eid = true := by
  unfold deleteEdge at h
  cases hLock : txn.lockStrategy with
  | pessimistic =>
    rw [hLock] at h
    exact deleteEdgeInPlace_error hLock h
  | optimistic =>
    rw [hLock] at h
    unfold recordOccEdgeDelete at h
    dsimp only at h
    split at h
    · rename_i g₁ e₁ heq
      exact stageDelete_refused hLock heq
    · cases h

theorem deleteEdge_ok {eid : Nat} {u : Unit} (hId : Timestamp.txnIdStart < txn.txnId)
    (h : g.deleteEdge txn eid = (g', .ok u)) :
    g.refuses txn .edge eid = false ∧ EdgeDeleted txn g g' := by
  unfold deleteEdge at h
  cases hLock : txn.lockStrategy with
  | pessimistic =>
    rw [hLock] at h
    exact deleteEdgeInPlace_ok hLock hId h
  | optimistic =>
    rw [hLock] at h
    unfold recordOccEdgeDelete at h
    dsimp only at h
    split at h
    · cases h
    · rename_i g₁ u₁ heq
      obtain ⟨rfl, -⟩ := Prod.mk.inj h
      have hFree := stageDelete_accepted hLock heq
      have hStaged := stageDelete_ok heq
      refine ⟨hFree, fun id => ?_, fun id => ?_, ?_⟩
      · rw [← hStaged.refuses hLock hFree .edge id]
        exact refuses_congr hLock (chain_modifyTxn ..)
          (fun t => undoBuffer_pushRedo ..) (lookupWrite_pushRedo ..)
      · show (g₁.chain .edge id).isSome = (g.chain .edge id).isSome
        rw [hStaged.chain]
      · rw [← hStaged.redoBuffer]
        simp [pushRedo]

-- ----
-- The cascade
-- ----

/-- A loop of deletes that runs to its end met no edge that is refused. -/
theorem forEach_deleteEdge_ok {eids : List Nat} {u : Unit} (hId : Timestamp.txnIdStart < txn.txnId)
    (h : forEach (fun g eid => g.deleteEdge txn eid) g eids = (g', .ok u)) :
    ∀ eid ∈ eids, g.refuses txn .edge eid = false := by
  induction eids generalizing g with
  | nil => exact fun _ hMem => (nomatch hMem)
  | cons eid eids ih =>
    unfold forEach at h
    split at h
    · cases h
    · rename_i g₁ u₁ heq
      obtain ⟨hFree, hStep⟩ := deleteEdge_ok hId heq
      intro id hMem
      rcases List.mem_cons.mp hMem with rfl | hMem
      · exact hFree
      · rw [← hStep.refuses id]
        exact ih h id hMem

/-- **Where a loop of deletes fails**: at an edge that is refused. Nothing is written when
that is the first edge, and something is in every other case. -/
theorem forEach_deleteEdge_error {eids : List Nat} (hId : Timestamp.txnIdStart < txn.txnId)
    (h : forEach (fun g eid => g.deleteEdge txn eid) g eids = (g', .error e)) :
    (∃ eid ∈ eids, g.refuses txn .edge eid = true) ∧
    (eids.head?.any (g.refuses txn .edge) = true → g' = g) ∧
    (eids.head?.any (g.refuses txn .edge) = false →
      (g.txns txn.txnId).redoBuffer.length < (g'.txns txn.txnId).redoBuffer.length) := by
  induction eids generalizing g with
  | nil => cases h
  | cons eid eids ih =>
    unfold forEach at h
    split at h
    · rename_i g₁ e₁ heq
      obtain ⟨rfl, -⟩ := Prod.mk.inj h
      have hRefused := deleteEdge_refused heq
      refine ⟨⟨eid, List.mem_cons_self .., hRefused⟩, fun _ => deleteEdge_error heq, fun hHead => ?_⟩
      rw [List.head?_cons, Option.any_some, hRefused] at hHead
      cases hHead
    · rename_i g₁ u₁ heq
      obtain ⟨hFree, hStep⟩ := deleteEdge_ok hId heq
      obtain ⟨⟨id, hMem, hRefused⟩, hSame, hLonger⟩ := ih h
      refine ⟨⟨id, List.mem_cons_of_mem _ hMem, ?_⟩, fun hHead => ?_, fun _ => ?_⟩
      · rw [← hStep.refuses id]
        exact hRefused
      · rw [List.head?_cons, Option.any_some, hFree] at hHead
        cases hHead
      · have hFirst := hStep.redo
        cases hAny : eids.head?.any (g₁.refuses txn .edge) with
        | true =>
          rw [hSame hAny]
          exact hFirst
        | false =>
          have hRest := hLonger hAny
          omega

/-- The pessimistic loop skips the edges that are not in the map: none of them is put
there on the way. -/
theorem cascadeInPlace_eq (hLock : txn.lockStrategy = .pessimistic)
    (hId : Timestamp.txnIdStart < txn.txnId) (vid : Nat) :
    g.cascadeInPlace txn vid =
      forEach (fun g eid => g.deleteEdge txn eid) g (g.cascadeEdges txn vid) := by
  have hLoop : ∀ (eids : List Nat) (h : MemoryGraph V),
      (∀ id, (h.edges id).isSome = (g.edges id).isSome) →
      h.forEach (fun g eid => if (g.edges eid).isSome then g.deleteEdgeInPlace txn eid
        else (g, .ok ())) eids =
      forEach (fun g eid => g.deleteEdge txn eid) h (eids.filter fun eid => (g.edges eid).isSome) := by
    intro eids
    induction eids with
    | nil => exact fun _ _ => rfl
    | cons eid eids ih =>
      intro h hSome
      have hSame : ∀ h' : MemoryGraph V, h'.deleteEdge txn eid = h'.deleteEdgeInPlace txn eid := by
        intro h'
        unfold deleteEdge
        rw [hLock]
      cases hIn : (g.edges eid).isSome with
      | false =>
        have hSkip : (eid :: eids).filter (fun eid => (g.edges eid).isSome) =
            eids.filter fun eid => (g.edges eid).isSome := List.filter_cons_of_neg (by simp [hIn])
        rw [hSkip, forEach]
        simp only [hSome eid, hIn, Bool.false_eq_true, if_false]
        exact ih h hSome
      | true =>
        have hTake : (eid :: eids).filter (fun eid => (g.edges eid).isSome) =
            eid :: eids.filter fun eid => (g.edges eid).isSome := List.filter_cons_of_pos hIn
        rw [hTake, forEach, forEach]
        simp only [hSome eid, hIn, if_true, hSame]
        cases hDel : h.deleteEdgeInPlace txn eid with
        | mk h₁ r =>
          cases r with
          | error e₁ => rfl
          | ok u₁ =>
            obtain ⟨-, hStep⟩ := deleteEdgeInPlace_ok hLock hId hDel
            exact ih h₁ fun id => (hStep.isSome id).trans (hSome id)
  unfold cascadeInPlace cascadeEdges
  rw [hLock]
  exact hLoop _ g fun _ => rfl

/-- What is known where the cascade starts. -/
structure CascadeReady (txn : MemTransaction) (vid : Nat) (g g₁ : MemoryGraph V) : Prop where
  refuses : ∀ id, g₁.refuses txn .edge id = g.refuses txn .edge id
  redoBuffer : (g₁.txns txn.txnId).redoBuffer = (g.txns txn.txnId).redoBuffer
  same : g.stagesVertex txn vid = false → g₁ = g
  staged : g.stagesVertex txn vid = true → (g₁.txns txn.txnId).vertexWrites ≠
    (g.txns txn.txnId).vertexWrites

theorem cascadeReady_staged {vid : Nat} {u : Unit} (hLock : txn.lockStrategy = .optimistic)
    (h : g.stageDelete txn .vertex vid = (g', .ok u)) : CascadeReady txn vid g g' := by
  have hStaged := stageDelete_ok h
  have hFree := stageDelete_accepted hLock h
  refine ⟨hStaged.refuses hLock hFree .edge, hStaged.redoBuffer _, fun hNot => ?_, fun hStages => ?_⟩
  · -- the delete was staged before
    unfold stagesVertex at hNot
    rw [hLock] at hNot
    dsimp only at hNot
    split at hNot
    · rename_i guardTs before hLook
      unfold stageDelete at h
      rw [hLook] at h
      exact (Prod.mk.inj h).1.symm
    · cases hNot
  · intro hEq
    obtain ⟨guardTs, before, hLook⟩ := hStaged.intent
    unfold stagesVertex at hStages
    rw [hLock] at hStages
    have hOld : (g.txns txn.txnId).lookupWrite .vertex vid = some ⟨guardTs, .delete before⟩ := by
      rw [← hLook]
      unfold TxnState.lookupWrite TxnState.writes
      rw [hEq]
    rw [hOld] at hStages
    cases hStages

/-- **`delete_vertex` is a check of the vertex and a loop of `delete_edge`.** -/
theorem deleteVertex_outcome (hId : Timestamp.txnIdStart < txn.txnId) (vid : Nat) :
    (g.refuses txn .vertex vid = true ∧ ∃ e, g.deleteVertex txn vid = (g, .error e)) ∨
    (g.refuses txn .vertex vid = false ∧ ∃ g₁, CascadeReady txn vid g g₁ ∧
      ∃ finish : MemoryGraph V → MemoryGraph V, g.deleteVertex txn vid =
        match forEach (fun g eid => g.deleteEdge txn eid) g₁ (g.cascadeEdges txn vid) with
        | (h, .error e) => (h, .error e)
        | (h, .ok _) => (finish h, .ok ())) := by
  cases hLock : txn.lockStrategy with
  | pessimistic =>
    unfold deleteVertex
    rw [hLock]
    dsimp only
    cases hc : g.vertices vid with
    | none =>
      refine .inl ⟨?_, _, rfl⟩
      rw [refuses_pessimistic hLock, show g.chain .vertex vid = none from hc]
      rfl
    | some c =>
      have hRefuses := refuses_of_chain hLock (k := .vertex) hc
      cases hCheck : prewriteCheck c.current.commitTs txn with
      | error e =>
        rw [hCheck] at hRefuses
        simp only [hCheck]
        exact .inl ⟨hRefuses, e, rfl⟩
      | ok u =>
        rw [hCheck] at hRefuses
        simp only [hCheck]
        have hStages : g.stagesVertex txn vid = false := by
          unfold stagesVertex
          rw [hLock]
        refine .inr ⟨hRefuses, g, ⟨fun _ => rfl, rfl, fun _ => rfl, fun hT => ?_⟩,
          fun h => h.deleteVersion txn .vertex vid c, ?_⟩
        · rw [hStages] at hT
          cases hT
        · exact congrArg (fun o : Outcome V Unit => (match o with
            | (h, .error e) => (h, .error e)
            | (h, .ok _) => (h.deleteVersion txn .vertex vid c, .ok ()) : Outcome V Unit))
              (cascadeInPlace_eq hLock hId vid)
  | optimistic =>
    unfold deleteVertex
    rw [hLock]
    dsimp only
    cases hStage : g.stageDelete txn .vertex vid with
    | mk g₁ r =>
      cases r with
      | error e =>
        refine .inl ⟨stageDelete_refused hLock hStage, e, ?_⟩
        rw [stageDelete_error hStage]
      | ok u =>
        refine .inr ⟨stageDelete_accepted hLock hStage, g₁, cascadeReady_staged hLock hStage,
          fun h => h.pushRedo txn (.delVertex vid), ?_⟩
        have hStaged := stageDelete_ok hStage
        have hEdges : g₁.incidentEdges txn vid = g.cascadeEdges txn vid := by
          unfold cascadeEdges
          rw [hLock, hStaged.incidentEdges]
        have hDelete : (fun (g : MemoryGraph V) eid => g.deleteEdge txn eid) =
            fun g eid => g.recordOccEdgeDelete txn eid := by
          funext h eid
          unfold deleteEdge
          rw [hLock]
        have hLoop : forEach (fun g eid => g.recordOccEdgeDelete txn eid) g₁
              (g₁.incidentEdges txn vid) =
            forEach (fun g eid => g.deleteEdge txn eid) g₁ (g.cascadeEdges txn vid) := by
          rw [hDelete, hEdges]
        exact congrArg (fun o : Outcome V Unit => (match o with
          | (h, .error e) => (h, .error e)
          | (h, .ok _) => (h.pushRedo txn (.delVertex vid), .ok ()) : Outcome V Unit)) hLoop

-- ----
-- Atomic calls
-- ----

/-- The delete of a vertex is atomic where nothing is written before it can be refused. -/
theorem deleteVertex_atomic_iff (hId : Timestamp.txnIdStart < txn.txnId) (vid : Nat) :
    Atomic g txn (.deleteVertex vid) ↔ g.cascadeClear txn (.deleteVertex vid) = true := by
  have hClear : g.cascadeClear txn (.deleteVertex vid) = (g.refuses txn .vertex vid ||
      (g.cascadeEdges txn vid).all (fun eid => !g.refuses txn .edge eid) ||
      (!g.stagesVertex txn vid && (g.cascadeEdges txn vid).head?.any (g.refuses txn .edge))) := rfl
  have hRun : g.runOp txn (.deleteVertex vid) = g.deleteVertex txn vid := rfl
  unfold Atomic
  rw [hClear, hRun]
  rcases deleteVertex_outcome (g := g) hId vid with ⟨hRefused, e, hOut⟩ |
    ⟨hFree, g₁, hReady, finish, hOut⟩
  · rw [hRefused, hOut]
    refine ⟨fun _ => rfl, fun _ g' e' hEq => ?_⟩
    exact .of_eq (Prod.mk.inj hEq).1.symm
  · have hHead : (g.cascadeEdges txn vid).head?.any (g₁.refuses txn .edge) =
        (g.cascadeEdges txn vid).head?.any (g.refuses txn .edge) := by
      rw [show g₁.refuses txn .edge = g.refuses txn .edge from funext hReady.refuses]
    rw [hFree, hOut, Bool.false_or, Bool.or_eq_true, Bool.and_eq_true, Bool.not_eq_true']
    cases hLoop : forEach (fun g eid => g.deleteEdge txn eid) g₁ (g.cascadeEdges txn vid) with
    | mk h r =>
      cases r with
      | ok u =>
        refine ⟨fun _ => .inl ?_, fun _ g' e' hEq => (nomatch hEq)⟩
        rw [List.all_eq_true]
        intro eid hMem
        rw [← hReady.refuses eid, forEach_deleteEdge_ok hId hLoop eid hMem]
        rfl
      | error e =>
        obtain ⟨⟨eid, hMem, hRefused⟩, hSame, hLonger⟩ := forEach_deleteEdge_error hId hLoop
        rw [hHead] at hSame hLonger
        constructor
        · intro hAtomic
          have hBefore : AsBefore g h := hAtomic h e rfl
          -- the redo buffer tells whether an edge was deleted, the intents whether the vertex was
          have hHeadRefused : (g.cascadeEdges txn vid).head?.any (g.refuses txn .edge) = true := by
            by_contra hNot
            have hLt := hLonger (Bool.eq_false_iff.mpr hNot)
            rw [hBefore.redoBuffer, hReady.redoBuffer] at hLt
            exact Nat.lt_irrefl _ hLt
          refine .inr ⟨?_, hHeadRefused⟩
          by_contra hNot
          refine hReady.staged (by simpa using hNot) ?_
          rw [← hSame hHeadRefused]
          exact hBefore.writes txn.txnId .vertex
        · rintro (hAll | ⟨hStages, hHeadRefused⟩) g' e' hEq
          · have hNot := List.all_eq_true.mp hAll eid hMem
            rw [← hReady.refuses eid, hRefused] at hNot
            cases hNot
          · obtain ⟨rfl, -⟩ := Prod.mk.inj hEq
            exact .of_eq ((hSame hHeadRefused).trans (hReady.same hStages))

theorem atomic_iff (hId : Timestamp.txnIdStart < txn.txnId) (o : Op V) :
    Atomic g txn o ↔ g.cascadeClear txn o = true := by
  cases o with
  | createVertex vertex => exact ⟨fun _ => rfl, fun _ _ _ h => createVertex_error h⟩
  | createEdge edge => exact ⟨fun _ => rfl, fun _ _ _ h => createEdge_error h⟩
  | deleteVertex vid => exact deleteVertex_atomic_iff hId vid
  | deleteEdge eid => exact ⟨fun _ => rfl, fun _ _ _ h => .of_eq (deleteEdge_error h)⟩
  | setVertexProperty vid indices props =>
    exact ⟨fun _ => rfl, fun _ _ _ h => .of_eq (setProperty_error h)⟩
  | setEdgeProperty eid indices props =>
    exact ⟨fun _ => rfl, fun _ _ _ h => .of_eq (setProperty_error h)⟩

/-- **Which calls are atomic**: in every graph that is reached, whatever was called before,
the calls of an active transaction in which no delete comes before one that is refused. -/
theorem statement_atomic_iff [DecidableEq V] {P : MemoryGraph V → Action V → Prop}
    {gcThreshold : Option Nat} {lock : LockStrategy} {iso : IsolationLevel}
    {trace : List (MemoryGraph V × Action V)}
    (hRun : Run Step P (.new gcThreshold lock iso) trace g)
    (hTxn : txn ∈ g.txnManager.activeTxns) (o : Op V) :
    Atomic g txn o ↔ g.cascadeClear txn o = true :=
  atomic_iff ((keyed_run hRun).stamped.active txn hTxn).id o

-- ----
-- A cascade that fails half way
-- ----

section Traces

/-- Vertex 1 with an edge to vertex 2 and one to vertex 3, committed; then a transaction
writes the second edge, and another one is begun. -/
def secondEdgeHeld : List (Action Nat) :=
  let t₁ := snapshotTxn 1 1 .pessimistic
  let t₂ := snapshotTxn 2 3 .pessimistic
  [.begin none .snapshot .pessimistic,
   .op t₁ (.createVertex (.new 1 0 [])), .op t₁ (.createVertex (.new 2 0 [])),
   .op t₁ (.createVertex (.new 3 0 [])), .op t₁ (.createEdge (.new 10 1 2 0 [])),
   .op t₁ (.createEdge (.new 11 1 3 0 [7])), .commit t₁ none,
   .begin none .snapshot .pessimistic, .op t₂ (.setEdgeProperty 11 [0] [8]),
   .begin none .snapshot .pessimistic]

theorem secondEdgeHeld_run : ∃ trace g,
    Run Step (fun _ _ => True) (.new none .pessimistic .snapshot : MemoryGraph Nat) trace g ∧
    snapshotTxn 3 4 .pessimistic ∈ g.txnManager.activeTxns ∧
    g.cascadeClear (snapshotTxn 3 4 .pessimistic) (.deleteVertex 3) = true ∧
    (g.deleteVertex (snapshotTxn 3 4 .pessimistic) 1).2 ≠ .ok () ∧
    ((g.deleteVertex (snapshotTxn 3 4 .pessimistic) 1).1.isTombstoned .edge 10,
      g.isTombstoned .edge 10) = (true, false) := by
  let t₃ := snapshotTxn 3 4 .pessimistic
  obtain ⟨trace, g, hList, hFacts⟩ := exists_of_runList
    (show (runList (next fun _ _ => true)
      (.new none .pessimistic .snapshot : MemoryGraph Nat) secondEdgeHeld).map (fun r =>
      (decide (t₃ ∈ r.2.txnManager.activeTxns), r.2.cascadeClear t₃ (.deleteVertex 3),
      (r.2.deleteVertex t₃ 1).2.toOption, (r.2.deleteVertex t₃ 1).1.isTombstoned .edge 10,
      r.2.isTombstoned .edge 10)) = some (true, true, none, true, false) by decide +kernel)
  simp only [Prod.mk.injEq] at hFacts
  obtain ⟨hTxn, hClear, hError, hAfter, hBefore⟩ := hFacts
  refine ⟨trace, g, Run.of_runList (fun s a s' hNext => ⟨trivial, (step_of_next hNext).2⟩) hList,
    of_decide_eq_true hTxn, hClear, fun hOk => ?_, by rw [hAfter, hBefore]⟩
  rw [hOk] at hError
  cases hError

/-- **A refused `delete_vertex` deletes an edge**: of the two edges of vertex 1 the second is
held by another transaction, and the first is deleted when the call returns its error. -/
theorem failed_delete_deletes_edge : ∃ trace g txn vid,
    Run Step (fun _ _ => True) (.new none .pessimistic .snapshot : MemoryGraph Nat) trace g ∧
    txn ∈ g.txnManager.activeTxns ∧ ¬ Atomic g txn (.deleteVertex vid) := by
  obtain ⟨trace, g, hRun, hTxn, -, hFails, hTombs⟩ := secondEdgeHeld_run
  refine ⟨trace, g, _, 1, hRun, hTxn, fun hAtomic => ?_⟩
  obtain ⟨hAfter, hBefore⟩ := Prod.mk.inj hTombs
  cases hOut : g.deleteVertex (snapshotTxn 3 4 .pessimistic) 1 with
  | mk h r =>
    rw [hOut] at hFails hAfter
    cases r with
    | ok u => exact hFails rfl
    | error e =>
      have hSame : AsBefore g h := hAtomic h e hOut
      have hChain : h.chain .edge 10 = g.chain .edge 10 := congrFun hSame.edges 10
      rw [isTombstoned_of_chain hChain, hBefore] at hAfter
      cases hAfter

/-- The delete of vertex 3 is refused at its only edge and leaves everything as it was. -/
theorem statement_atomic_only_edge : ∃ trace g,
    Run Step (fun _ _ => True) (.new none .pessimistic .snapshot : MemoryGraph Nat) trace g ∧
    Atomic g (snapshotTxn 3 4 .pessimistic) (.deleteVertex 3) := by
  obtain ⟨trace, g, hRun, hTxn, hClear, -⟩ := secondEdgeHeld_run
  exact ⟨trace, g, hRun, (statement_atomic_iff hRun hTxn _).mpr hClear⟩

end Traces

end MiniGU.MemoryGraph
