import MiniGU.Invariant.Order
import MiniGU.Model.QueryPlan

/-!
# The transactions that a query leaves behind

`vertex_source`, `expand_from_vertex` and `scan_vertex_properties` begin a transaction for every
call, and none of them finishes it. Dropping the handle does not end it either: `active_txns`
holds another one.

## Results

* `leaves_none_open_iff` — a query leaves no transaction open exactly when it cannot begin one.
* `watermark_held`       — as long as nobody ends it for the query, the low watermark stays at or
  below the start of every transaction that the query has begun.
-/

namespace MiniGU

variable {V Ty : Type}

namespace MemoryGraph

variable {null : V} {toArray : List V → ArrayRef Ty V} {keys : MemoryGraph V → List Nat}
  {g g' : MemoryGraph V} {begun : List MemTransaction} {t : MemTransaction}

-- ----
-- One call
-- ----

/-- What a call does to the storage: it fails to begin a transaction, or begins one and reads
in it. -/
inductive CallEffect (g : MemoryGraph V) : MemoryGraph V → List MemTransaction → Prop where
  | refused {g' : MemoryGraph V} {e : StorageError} (h : g.beginSerializable = (g', .error e)) :
      CallEffect g g' []
  | reads {g₁ g' : MemoryGraph V} {txn : MemTransaction} (h : g.beginSerializable = (g₁, .ok txn))
      (hReads : OpSteps txn g₁ g') : CallEffect g g' [txn]

theorem opSteps_keepLabelled {txn : MemTransaction} (labelIds : Option (Cubes Nat))
    (vids : List Nat) : OpSteps txn g (keepLabelled txn labelIds g vids).1 := by
  induction vids generalizing g with
  | nil => exact .refl
  | cons vid vids ih =>
    have hNote : OpSteps txn g (if labelIds.isSome then g.noteRead txn .vertex vid else g) := by
      split
      · exact opSteps_noteRead .vertex vid
      · exact .refl
    have hRest := hNote.trans ih
    unfold keepLabelled
    dsimp only
    split
    · exact hNote
    · split
      · rename_i heq
        rwa [heq] at hRest
      · rename_i heq
        rwa [heq] at hRest

theorem callEffect_vertexSource (labelIds : Option (Cubes Nat)) (batchSize : Nat) :
    CallEffect g (g.vertexSource keys labelIds batchSize).graph
      (g.vertexSource keys labelIds batchSize).begun.toList := by
  unfold vertexSource
  split
  · rename_i hBegin
    exact .refused hBegin
  · rename_i g₁ txn hBegin
    dsimp only
    have hScan : OpSteps txn g₁ (g₁.iterVertices txn (keys g₁) fun _ => true).1 :=
      opSteps_noteScan .vertex _ _
    have hKeep := hScan.trans (opSteps_keepLabelled labelIds
      ((g₁.iterVertices txn (keys g₁) fun _ => true).2.map Vertex.vid))
    split
    · rename_i heq
      rw [heq] at hKeep
      exact .reads hBegin hKeep
    · rename_i heq
      rw [heq] at hKeep
      exact .reads hBegin hKeep

theorem opSteps_noteTargets {txn : MemTransaction} (targetVertexLabels : Option (Cubes Nat))
    (neighbors : List Neighbor) :
    OpSteps txn g (g.noteTargets txn targetVertexLabels neighbors) := by
  unfold noteTargets
  split
  · exact .refl
  · induction neighbors generalizing g with
    | nil => exact .refl
    | cons n neighbors ih => exact (opSteps_noteRead .vertex n.neighborId).trans ih

theorem callEffect_expandVertex (vertex : Nat) (edgeLabels targetVertexLabels : Option (Cubes Nat)) :
    CallEffect g (g.expandVertex vertex edgeLabels targetVertexLabels).graph
      (g.expandVertex vertex edgeLabels targetVertexLabels).begun.toList := by
  unfold expandVertex
  split
  · rename_i hBegin
    exact .refused hBegin
  · rename_i g₁ txn hBegin
    dsimp only
    have hGet : OpSteps txn g₁ (g₁.getVertex txn vertex).1 := opSteps_noteRead .vertex vertex
    split
    · exact .reads hBegin hGet
    · exact .reads hBegin (hGet.trans (opSteps_noteTargets ..))

theorem opSteps_readVertices {txn : MemTransaction} (vids : List Nat) :
    OpSteps txn g (readVertices txn g vids).1 := by
  induction vids generalizing g with
  | nil => exact .refl
  | cons vid vids ih =>
    have hGet : OpSteps txn g (g.getVertex txn vid).1 := opSteps_noteRead .vertex vid
    unfold readVertices
    split
    · rename_i heq
      rwa [heq] at hGet
    · rename_i g₁ v heq
      rw [heq] at hGet
      have hRest := hGet.trans (ih (g := g₁))
      split
      · rename_i heq'
        rwa [heq'] at hRest
      · rename_i heq'
        rwa [heq'] at hRest

theorem opSteps_readColumns {txn : MemTransaction} (vertices propIds : List Nat) :
    OpSteps txn g (readColumns null toArray txn vertices g propIds).1 := by
  induction propIds generalizing g with
  | nil => exact .refl
  | cons propId propIds ih =>
    have hRead : OpSteps txn g (readVertices txn g vertices).1 := opSteps_readVertices vertices
    unfold readColumns
    split
    · rename_i heq
      rwa [heq] at hRead
    · rename_i g₁ vs heq
      rw [heq] at hRead
      have hRest := hRead.trans (ih (g := g₁))
      split
      · rename_i heq'
        rwa [heq'] at hRest
      · rename_i heq'
        rwa [heq'] at hRest

theorem opSteps_allProperties {txn : MemTransaction} (vertices : List Nat) :
    OpSteps txn g (allProperties txn g vertices).1 := by
  cases vertices with
  | nil => exact .refl
  | cons first rest =>
    have hGet : OpSteps txn g (g.getVertex txn first).1 := opSteps_noteRead .vertex first
    simp only [allProperties]
    split
    · rename_i heq
      rwa [heq] at hGet
    · rename_i heq
      rwa [heq] at hGet

theorem callEffect_scanVertexProperties (vertices propertyList : List Nat) :
    CallEffect g (g.scanVertexProperties null toArray vertices propertyList).graph
      (g.scanVertexProperties null toArray vertices propertyList).begun.toList := by
  unfold scanVertexProperties
  split
  · rename_i hBegin
    exact .refused hBegin
  · rename_i g₁ txn hBegin
    have hList : OpSteps txn g₁ (if propertyList = [] then allProperties txn g₁ vertices
        else (g₁, .ok propertyList)).1 := by
      split
      · exact opSteps_allProperties vertices
      · exact .refl
    split
    · rename_i heq
      rw [heq] at hList
      exact .reads hBegin hList
    · rename_i heq
      rw [heq] at hList
      exact .reads hBegin (hList.trans (opSteps_readColumns ..))

theorem callEffect_answer (c : SourceCall) :
    CallEffect g (g.answer null toArray keys c).graph
      (g.answer null toArray keys c).begun.toList := by
  cases c with
  | vertexSource labelIds batchSize => exact callEffect_vertexSource labelIds batchSize
  | expandFromVertex vertex edgeLabels targetVertexLabels =>
    exact callEffect_expandVertex vertex edgeLabels targetVertexLabels
  | scanVertexProperties vertices propertyList =>
    exact callEffect_scanVertexProperties vertices propertyList

theorem manager_of_opSteps {txn : MemTransaction} (h : OpSteps txn g g') :
    g'.txnManager = g.txnManager ∧ g'.counters = g.counters := by
  induction h with
  | refl => exact ⟨rfl, rfl⟩
  | tail _ hStep ih => exact ⟨hStep.txnManager.trans ih.1, hStep.counters.trans ih.2⟩

-- ----
-- A whole execution
-- ----

/-- One call after the other. -/
inductive CallEffects : MemoryGraph V → MemoryGraph V → List MemTransaction → Prop where
  | nil (g : MemoryGraph V) : CallEffects g g []
  | cons {g g₁ g' : MemoryGraph V} {begun begun' : List MemTransaction}
      (h : CallEffect g g₁ begun) (hRest : CallEffects g₁ g' begun') :
      CallEffects g g' (begun ++ begun')

theorem callEffects_run (s : ChunkStream Ty V) (pulls : Nat) :
    CallEffects g (s.run null toArray keys pulls g).graph
      (s.run null toArray keys pulls g).begun := by
  induction s generalizing pulls g with
  | exhausted => cases pulls <;> exact .nil g
  | failed e => cases pulls <;> exact .nil g
  | chunk c rest ih =>
    cases pulls with
    | zero => exact .nil g
    | succ pulls => exact ih pulls
  | call c next ih =>
    cases pulls with
    | zero => exact .nil g
    | succ pulls => exact .cons (callEffect_answer c) (ih _ (pulls + 1))

theorem callEffects_execute (plan : QueryPlan) (pulls : Nat) :
    ∃ g₁ begun₁ begun₂, CallEffect g g₁ begun₁ ∧
      CallEffects g₁ (plan.execute null toArray keys pulls g).graph begun₂ ∧
      (plan.execute null toArray keys pulls g).begun = begun₁ ++ begun₂ := by
  have hSource := @callEffect_vertexSource V keys g (some plan.scanLabels) 1024
  unfold QueryPlan.execute
  dsimp only
  split
  · exact ⟨_, _, [], hSource, .nil _, rfl⟩
  · exact ⟨_, _, _, hSource, callEffects_run _ pulls, rfl⟩

-- ----
-- Open transactions
-- ----

/-- The transaction is active, and its id is not given out again. -/
def Open (g : MemoryGraph V) (t : MemTransaction) : Prop :=
  t ∈ g.txnManager.activeTxns ∧ t.txnId < g.counters.2

theorem Open.of_same (h : Open g t) (hMgr : g'.txnManager = g.txnManager)
    (hCounters : g.counters.2 ≤ g'.counters.2) : Open g' t := by
  refine ⟨?_, Nat.lt_of_lt_of_le h.2 hCounters⟩
  rw [hMgr]
  exact h.1

theorem beginSerializable_error {e : StorageError} (h : g.beginSerializable = (g', .error e)) :
    g'.txnManager = g.txnManager ∧ g.counters.2 ≤ g'.counters.2 := by
  unfold beginSerializable beginTransactionAt at h
  split at h
  · obtain ⟨rfl, -⟩ := Prod.mk.inj h
    exact ⟨rfl, Nat.le_refl _⟩
  · rename_i txnId idGen hId
    obtain ⟨-, hCounter⟩ := TransactionIdGenerator.obtain_none hId
    dsimp only at h
    split at h
    · obtain ⟨rfl, -⟩ := Prod.mk.inj h
      refine ⟨rfl, ?_⟩
      show g.transactionIdGenerator.counter ≤ idGen.counter
      omega
    · cases (Prod.mk.inj h).2

/-- A begun transaction is open, and those that were open stay so. -/
theorem open_begun {g₁ : MemoryGraph V} {txn : MemTransaction}
    (h : g.beginSerializable = (g₁, .ok txn)) :
    Open g₁ txn ∧ (Open g t → Open g₁ t) := by
  obtain ⟨idGen, tsGen, hNew, -, -, hId, -, rfl⟩ := beginTransactionAt_ok h
  have hCounter : ((g.begun txn idGen tsGen).appendWal txn
      (.beginTransaction txn.startTs)).counters.2 = g.counters.2 + 1 := hId
  refine ⟨⟨SkipList.mem_insert_self .., by rw [hCounter, hNew]; exact Nat.lt_succ_self _⟩,
    fun hOpen => ⟨SkipList.mem_insert_of_mem hOpen.1 (.inr ?_), ?_⟩⟩
  · rw [decide_eq_true_eq, hNew]
    exact hOpen.2
  · rw [hCounter]
    exact Nat.lt_succ_of_lt hOpen.2

/-- What a call begins is open afterwards, and nothing is closed. -/
theorem CallEffect.opens (h : CallEffect g g' begun) :
    (∀ t ∈ begun, Open g' t) ∧ ∀ t, Open g t → Open g' t := by
  cases h with
  | refused hBegin =>
    obtain ⟨hMgr, hCounters⟩ := beginSerializable_error hBegin
    refine ⟨fun t ht => ?_, fun t hOpen => hOpen.of_same hMgr hCounters⟩
    cases ht
  | reads hBegin hReads =>
    obtain ⟨hMgr, hCounters⟩ := manager_of_opSteps hReads
    have hCounter := Nat.le_of_eq (congrArg Prod.snd hCounters).symm
    refine ⟨fun t ht => ?_, fun t hOpen => ?_⟩
    · rw [List.mem_singleton.mp ht]
      exact (open_begun (t := t) hBegin).1.of_same hMgr hCounter
    · exact ((open_begun hBegin).2 hOpen).of_same hMgr hCounter

theorem CallEffects.opens (h : CallEffects g g' begun) :
    (∀ t ∈ begun, Open g' t) ∧ ∀ t, Open g t → Open g' t := by
  induction h with
  | nil g => exact ⟨fun t ht => absurd ht List.not_mem_nil, fun t hOpen => hOpen⟩
  | cons hCall _ ih =>
    obtain ⟨hNew, hOld⟩ := hCall.opens
    refine ⟨fun t ht => ?_, fun t hOpen => ih.2 t (hOld t hOpen)⟩
    rcases List.mem_append.mp ht with ht | ht
    · exact ih.2 t (hNew t ht)
    · exact ih.1 t ht

/-- **Whatever a query has begun is still active when it has ended.** -/
theorem execute_opens (plan : QueryPlan) (pulls : Nat) :
    ∀ t ∈ (plan.execute null toArray keys pulls g).begun,
      Open (plan.execute null toArray keys pulls g).graph t := by
  obtain ⟨g₁, begun₁, begun₂, hFirst, hRest, hBegun⟩ :=
    @callEffects_execute V Ty null toArray keys g plan pulls
  intro t ht
  rw [hBegun] at ht
  exact (CallEffects.cons hFirst hRest).opens.1 t ht

-- ----
-- No transaction is left open
-- ----

/-- No transaction id or no start timestamp is left to give out. -/
def IsExhausted (g : MemoryGraph V) : Prop :=
  g.transactionIdGenerator.counter = Timestamp.u64Max ∨
    Timestamp.maxCommitTs ≤ g.timestampGenerator.counter

theorem beginSerializable_fails_iff :
    (∃ g' e, g.beginSerializable = (g', .error e)) ↔ IsExhausted g := by
  unfold beginSerializable beginTransactionAt TransactionIdGenerator.obtain
    GlobalTimestampGenerator.obtain TransactionIdGenerator.next GlobalTimestampGenerator.next
    IsExhausted
  by_cases hId : g.transactionIdGenerator.counter = Timestamp.u64Max
  · simp [hId]
  · by_cases hTs : Timestamp.maxCommitTs ≤ g.timestampGenerator.counter
    · simp [hId, hTs]
    · simp [hId, hTs]

/-- The actions of those who do not hold the handle of `t`. -/
def Spares (t : MemTransaction) : Action V → Prop
  | .commit txn _ => txn ≠ t
  | .abort txn => txn ≠ t
  | _ => True

/-- Others can bring the low watermark past the start of `t`. -/
def CanPass [DecidableEq V] (g : MemoryGraph V) (t : MemTransaction) : Prop :=
  ∃ trace g', Run Step (fun _ a => Spares t a) g trace g' ∧ t.startTs < g'.txnManager.watermark

/-- **A query has left no transaction open**: what it began is finished, the active transactions
are those from before, and the low watermark can pass every start. -/
structure LeavesNoneOpen [DecidableEq V] (g : MemoryGraph V) (out : Execution Ty V) : Prop where
  finished : ∀ t ∈ out.begun, t ∉ out.graph.txnManager.activeTxns
  active : out.graph.txnManager.activeTxns = g.txnManager.activeTxns
  watermark : ∀ t ∈ out.begun, CanPass out.graph t

/-- **Every query that can begin a transaction leaves one open**, whatever its plan and whenever
its consumer stops. -/
theorem leaves_none_open_iff [DecidableEq V] (plan : QueryPlan) (pulls : Nat) (g : MemoryGraph V) :
    LeavesNoneOpen g (plan.execute null toArray keys pulls g) ↔ IsExhausted g := by
  rw [← beginSerializable_fails_iff]
  constructor
  · intro h
    obtain ⟨g₁, begun₁, begun₂, hFirst, hRest, hBegun⟩ :=
      @callEffects_execute V Ty null toArray keys g plan pulls
    cases hFirst with
    | refused hBegin => exact ⟨g₁, _, hBegin⟩
    | @reads _ _ txn hBegin hReads =>
      have hMem : txn ∈ (plan.execute null toArray keys pulls g).begun := by
        rw [hBegun]
        exact List.mem_append_left _ (List.mem_singleton_self txn)
      exact absurd (execute_opens plan pulls txn hMem).1 (h.finished txn hMem)
  · rintro ⟨g₁, e, hBegin⟩
    -- the scan is refused, and the build panics
    have hSource : g.vertexSource keys (some plan.scanLabels) 1024 = ⟨g₁, none, .error e⟩ := by
      unfold vertexSource
      rw [hBegin]
    have hNone : (plan.execute null toArray keys pulls g).begun = [] := by
      unfold QueryPlan.execute
      rw [hSource]
      rfl
    have hGraph : (plan.execute null toArray keys pulls g).graph = g₁ := by
      unfold QueryPlan.execute
      rw [hSource]
    refine ⟨fun t ht => ?_, ?_, fun t ht => ?_⟩
    · rw [hNone] at ht
      cases ht
    · rw [hGraph, (beginSerializable_error hBegin).1]
    · rw [hNone] at ht
      cases ht

-- ----
-- The low watermark
-- ----

theorem step_begin [DecidableEq V] {r : Except StorageError MemTransaction}
    (h : g.beginSerializable = (g', r)) :
    Step g (.begin none .serializable g.txnManager.defaultLockStrategy) g' := by
  have hPanic : r ≠ .error .panicked := by
    rintro rfl
    unfold beginSerializable beginTransactionAt at h
    split at h
    · cases (Prod.mk.inj h).2
    · dsimp only at h
      split at h
      · cases (Prod.mk.inj h).2
      · cases (Prod.mk.inj h).2
  refine ⟨trivial, r.map fun _ => (), ?_, ?_⟩
  · unfold beginSerializable at h
    simp only [exec, Outcome.void, h]
  · intro hEq
    cases r with
    | error e => exact hPanic (by cases hEq; rfl)
    | ok txn => cases hEq

theorem CallEffect.inOrder [DecidableEq V] (h : CallEffect g g' begun) (hwf : WF g)
    (hOrder : InOrder g) : WF g' ∧ InOrder g' := by
  cases h with
  | refused hBegin =>
    have hStep := step_begin hBegin
    exact ⟨wf_step (a := .begin ..) hwf trivial hStep,
      InOrder.step (a := .begin ..) hwf hOrder rfl hStep⟩
  | @reads _ _ txn hBegin hReads =>
    have hStep := step_begin hBegin
    have hwf₁ := wf_step (a := .begin ..) hwf trivial hStep
    have hOrder₁ := InOrder.step (a := .begin ..) hwf hOrder rfl hStep
    obtain ⟨hwf', hMgr⟩ := hwf₁.opSteps (open_begun (t := txn) hBegin).1.1 hReads
    exact ⟨hwf', by rw [hMgr]; exact hOrder₁.sorted, by rw [hMgr]; exact hOrder₁.watermark⟩

theorem CallEffects.inOrder [DecidableEq V] (h : CallEffects g g' begun) (hwf : WF g)
    (hOrder : InOrder g) : WF g' ∧ InOrder g' := by
  induction h with
  | nil g => exact ⟨hwf, hOrder⟩
  | cons hCall _ ih =>
    obtain ⟨hwf₁, hOrder₁⟩ := hCall.inOrder hwf hOrder
    exact ih hwf₁ hOrder₁

theorem active_of_spares [DecidableEq V] {a : Action V} (hwf : WF g)
    (ht : t ∈ g.txnManager.activeTxns) (hSpares : Spares t a) (hs : Step g a g') :
    t ∈ g'.txnManager.activeTxns := by
  have hEnds : ∀ {txn}, txn ∈ g.txnManager.activeTxns → txn ≠ t → Ends g g' txn →
      t ∈ g'.txnManager.activeTxns := by
    intro txn hTxn hne he
    exact he.mem_active.mpr ⟨ht, fun hId => hne (hwf.activeInj txn hTxn t ht hId.symm)⟩
  cases step_cases hwf hs with
  | idle _ hg => rwa [hg]
  | skipId _ hg => rwa [hg]
  | @begun _ txn _ _ hNew _ _ _ _ _ _ hg =>
    rw [hg]
    refine SkipList.mem_insert_of_mem ht (.inr ?_)
    rw [decide_eq_true_eq, hNew]
    exact (hwf.activeId t ht).2
  | op hTxn hSteps => rwa [(hwf.opSteps hTxn hSteps).2]
  | query hTxn hSteps => rwa [(hwf.opSteps hTxn hSteps).2]
  | rollback hTxn hAbort => exact hEnds hTxn hSpares hAbort.toEnds
  | abort hTxn hAbort => exact hEnds hTxn hSpares hAbort.toEnds
  | commitPess hTxn _ _ _ _ hCommit => exact hEnds hTxn hSpares hCommit.toEnds
  | commitOpt hTxn _ _ _ _ hCommit => exact hEnds hTxn hSpares hCommit.toEnds
  | garbageCollect hg => rwa [hg, activeTxns_garbageCollect]
  | release _ hg => rwa [hg]

/-- **The low watermark stays behind.** Whatever others do after the query, as long as no begin
names its start timestamp, the watermark stays at or below the start of every transaction that
the query has begun. -/
theorem watermark_held [DecidableEq V] {g₀ g₁ : MemoryGraph V}
    {trace trace' : List (MemoryGraph V × Action V)} (hInit : Initial g₀)
    (hBefore : Run Step (fun g a => GcOk g a ∧ DrawsStart a) g₀ trace g)
    (plan : QueryPlan) (pulls : Nat)
    (ht : t ∈ (plan.execute null toArray keys pulls g).begun)
    (hAfter : Run Step (fun g a => (GcOk g a ∧ DrawsStart a) ∧ Spares t a)
      (plan.execute null toArray keys pulls g).graph trace' g₁) :
    t ∈ g₁.txnManager.activeTxns ∧ g₁.txnManager.watermark ≤ t.startTs := by
  have hwf : WF g := wf_run hInit (fun _ _ h => h.1) hBefore
  obtain ⟨g₂, begun₁, begun₂, hFirst, hRest, -⟩ :=
    @callEffects_execute V Ty null toArray keys g plan pulls
  have hOut := (CallEffects.cons hFirst hRest).inOrder hwf (watermark_le_start hInit hBefore)
  have hInv : (WF g₁ ∧ InOrder g₁) ∧ t ∈ g₁.txnManager.activeTxns := by
    refine hAfter.stateInvariant (I := fun g => (WF g ∧ InOrder g) ∧ t ∈ g.txnManager.activeTxns)
      ⟨hOut, (execute_opens plan pulls t ht).1⟩ fun s a s' hI hP hs => ?_
    obtain ⟨⟨hwf', hOrder⟩, hActive⟩ := hI
    exact ⟨⟨wf_step hwf' hP.1.1 hs, hOrder.step hwf' hP.1.2 hs⟩,
      active_of_spares hwf' hActive hP.2 hs⟩
  exact ⟨hInv.2, hInv.1.2.watermark t hInv.2⟩

-- ----
-- A scan and an expand
-- ----

/-- Vertex 1 is created and committed. -/
def loneVertexActions : List (Action Nat) :=
  let t₁ := snapshotTxn 1 1 .pessimistic
  [.begin none .snapshot .pessimistic, .op t₁ (.createVertex (.new 1 1 [7])), .commit t₁ none]

/-- `MATCH (a)-[e:L1]->(b)` from the start to the end of its stream. -/
def oneExpand (g : MemoryGraph Nat) : Execution Unit Nat :=
  QueryPlan.execute 0 (fun values => ⟨(), values⟩) (fun _ => [1])
    (.expand (.nodeScan [[]]) 0 1 [[1]] (some [[]])) 5 g

/-- After such a query vertex 2 is created and committed. -/
def laterActions : List (Action Nat) :=
  let t₄ := snapshotTxn 4 5 .pessimistic
  [.begin none .snapshot .pessimistic, .op t₄ (.createVertex (.new 2 1 [8])), .commit t₄ none]

/-- The actions of a snapshot transaction that writes. -/
def ofWriter : MemoryGraph Nat → Action Nat → Bool
  | _, .begin startTs _ _ => startTs.isNone
  | _, .op _ _ => true
  | _, .commit txn _ => decide (txn.isolationLevel = .snapshot)
  | _, _ => false

theorem step_ofWriter {g g' : MemoryGraph Nat} {a : Action Nat} (ht : t.isolationLevel ≠ .snapshot)
    (h : next ofWriter g a = some g') :
    ((GcOk g a ∧ DrawsStart a) ∧ Spares t a) ∧ Step g a g' := by
  obtain ⟨hWriter, hStep⟩ := step_of_next h
  refine ⟨?_, hStep⟩
  cases a with
  | begin startTs isolation lock =>
    exact ⟨⟨trivial, Option.isNone_iff_eq_none.mp hWriter⟩, trivial⟩
  | op txn o => exact ⟨⟨trivial, trivial⟩, trivial⟩
  | commit txn commitTs =>
    refine ⟨⟨trivial, trivial⟩, ?_⟩
    rintro rfl
    exact ht (of_decide_eq_true hWriter)
  | _ => cases hWriter

/-- A writer commits, a query scans and expands what it wrote, and another writer commits. -/
theorem watermark_held_writers : ∃ trace g trace' g₁ t,
    Run Step (fun g a => GcOk g a ∧ DrawsStart a)
      (.new none .pessimistic .snapshot : MemoryGraph Nat) trace g ∧ trace.length = 3 ∧
    Run Step (fun g a => (GcOk g a ∧ DrawsStart a) ∧ Spares t a) (oneExpand g).graph trace' g₁ ∧
    trace'.length = 3 ∧ (oneExpand g).begun.head? = some t ∧
    t ∈ g₁.txnManager.activeTxns ∧ g₁.txnManager.watermark ≤ t.startTs := by
  let run := (runList (next ofWriter) (.new none .pessimistic .snapshot : MemoryGraph Nat)
    loneVertexActions).bind fun before =>
      (runList (next ofWriter) (oneExpand before.2).graph laterActions).map (before, ·)
  have hSome : run.isSome = true := by decide +kernel
  have hFacts : run.map (fun r => (r.1.1.length, r.2.1.length,
      (oneExpand r.1.2).begun.head?.map MemTransaction.isolationLevel)) =
      some (3, 3, some .serializable) := by decide +kernel
  obtain ⟨⟨⟨trace, g⟩, trace', g₁⟩, hRun⟩ := Option.isSome_iff_exists.mp hSome
  rw [hRun, Option.map_some, Option.some.injEq, Prod.mk.injEq, Prod.mk.injEq] at hFacts
  obtain ⟨hLength, hLength', hLevel⟩ := hFacts
  obtain ⟨t, hHead, hLevel⟩ := Option.map_eq_some_iff.mp hLevel
  have hNot : t.isolationLevel ≠ .snapshot := by
    rw [hLevel]
    decide
  obtain ⟨before, hBefore, hAfter⟩ := Option.bind_eq_some_iff.mp hRun
  obtain ⟨after, hAfter, hPair⟩ := Option.map_eq_some_iff.mp hAfter
  obtain ⟨rfl, rfl⟩ := Prod.mk.inj hPair
  have hRunBefore := Run.of_runList (fun s a s' h => (step_ofWriter hNot h).imp And.left id) hBefore
  have hRunAfter := Run.of_runList (fun s a s' h => step_ofWriter hNot h) hAfter
  have hMem : t ∈ (oneExpand g).begun := List.mem_of_mem_head? hHead
  exact ⟨trace, g, trace', g₁, t, hRunBefore, hLength, hRunAfter, hLength', hHead,
    watermark_held ⟨.pessimistic, .snapshot, rfl⟩ hRunBefore _ _ hMem hRunAfter⟩

/-- **The two transactions of a drained query stay active**: one of the scan, one of the vertex
that it found. -/
theorem drained_query_leaves_open : ∃ trace g,
    Run Step (fun _ _ => True) (.new none .pessimistic .snapshot : MemoryGraph Nat) trace g ∧
    g.txnManager.activeTxns = [] ∧ (oneExpand g).ending = .exhausted ∧
    ¬ LeavesNoneOpen g (oneExpand g) := by
  obtain ⟨trace, g, hList, hFacts⟩ := exists_of_runList
    (show (runList (next fun _ _ => true)
      (.new none .pessimistic .snapshot : MemoryGraph Nat) loneVertexActions).map (fun r =>
      (r.2.txnManager.activeTxns, (oneExpand r.2).ending,
      (oneExpand r.2).graph.txnManager.activeTxns.length)) = some ([], .exhausted, 2)
      by decide +kernel)
  simp only [Prod.mk.injEq] at hFacts
  obtain ⟨hActive, hEnding, hOpen⟩ := hFacts
  refine ⟨trace, g, Run.of_runList (fun s a s' hNext => ⟨trivial, (step_of_next hNext).2⟩) hList,
    hActive, hEnding, fun h => ?_⟩
  rw [h.active, hActive] at hOpen
  cases hOpen

end MemoryGraph

end MiniGU
