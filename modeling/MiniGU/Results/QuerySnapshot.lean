import MiniGU.Invariant.OpStep
import MiniGU.Invariant.PathPlan
import MiniGU.Model.QueryState

/-!
# The snapshot of a query

Every call of a query's executor reads the graph at its own time. Where a commit has changed what
a later call reads, the rows belong to no single state of the graph, and a property scan fails on
a vertex that was deleted after the node scan had found it.

## Results

* `one_snapshot`          — if every call finds what it reads as the node scan's snapshot has it,
  the query is the one evaluated on that snapshot.
* `scan_then_delete_fails` — a delete between the node scan and the property scan makes the query
  fail, although it fails on neither state.
-/

namespace MiniGU

variable {V Ty : Type} {null : V} {toArray : List V → ArrayRef Ty V}

-- ----
-- What a call reads
-- ----

namespace GraphView

variable {a b : GraphView V}

/-- The two states agree on all that a call reads: the vertices of a node scan; the presence of
the vertex of an expand, its edges of the wanted labels and the labels of the vertices they lead
to; the vertices of a property scan. -/
def SameFor (a b : GraphView V) : SourceCall → Prop
  | .vertexSource .. => a.vertices = b.vertices
  | .expandFromVertex vertex edgeLabels _ =>
    (a.getVertex vertex).isSome = (b.getVertex vertex).isSome ∧
    (a.iterAdjacencyOutgoing vertex).filter (edgeLabelAllowed edgeLabels) =
      (b.iterAdjacencyOutgoing vertex).filter (edgeLabelAllowed edgeLabels) ∧
    ∀ n ∈ (a.iterAdjacencyOutgoing vertex).filter (edgeLabelAllowed edgeLabels),
      (a.getVertex n.neighborId).map Vertex.labelId = (b.getVertex n.neighborId).map Vertex.labelId
  | .scanVertexProperties vertices _ => ∀ vid ∈ vertices, a.getVertex vid = b.getVertex vid

theorem targetAllowed_congr {n : Neighbor} (targetLabels : Option (Cubes Nat))
    (h : (a.getVertex n.neighborId).map Vertex.labelId =
      (b.getVertex n.neighborId).map Vertex.labelId) :
    a.targetAllowed targetLabels n = b.targetAllowed targetLabels n := by
  unfold targetAllowed
  cases targetLabels with
  | none => rfl
  | some specs =>
    cases ha : a.getVertex n.neighborId with
    | none =>
      rw [ha] at h
      rw [Option.map_eq_none_iff.mp h.symm]
    | some v =>
      rw [ha] at h
      obtain ⟨w, hw, hLabel⟩ := Option.map_eq_some_iff.mp h.symm
      rw [hw]
      dsimp only
      rw [hLabel]

theorem mapM_congr {α β ε : Type} {f f' : α → Except ε β} {l : List α}
    (h : ∀ x ∈ l, f x = f' x) : l.mapM f = l.mapM f' := by
  induction l with
  | nil => rfl
  | cons x l ih =>
    rw [List.mapM_cons, List.mapM_cons, h x (List.mem_cons_self ..),
      ih fun y hy => h y (List.mem_cons_of_mem _ hy)]

theorem readVertex_congr {vid : Nat} (h : a.getVertex vid = b.getVertex vid) :
    a.readVertex vid = b.readVertex vid := by
  unfold readVertex
  rw [h]

/-- Two graphs that are the same for the reader give one answer to every call of a source. -/
theorem SameFor.answer {c : SourceCall} (h : SameFor a b c) :
    a.answer null toArray c = b.answer null toArray c := by
  cases c with
  | vertexSource labelIds batchSize =>
    have hVertices : a.vertices = b.vertices := h
    unfold GraphView.answer labelledVertices
    rw [hVertices]
  | expandFromVertex vertex edgeLabels targetVertexLabels =>
    obtain ⟨hSome, hOut, hTargets⟩ := h
    have hNeighbors : a.neighbors vertex edgeLabels targetVertexLabels =
        b.neighbors vertex edgeLabels targetVertexLabels := by
      unfold neighbors
      rw [← hOut]
      exact List.filter_congr fun n hn => targetAllowed_congr targetVertexLabels (hTargets n hn)
    unfold GraphView.answer expandFromVertex
    dsimp only
    rw [hNeighbors]
    cases ha : a.getVertex vertex with
    | none =>
      rw [ha] at hSome
      rw [Option.isSome_eq_false_iff.mp hSome.symm |> Option.isNone_iff_eq_none.mp]
    | some v =>
      rw [ha] at hSome
      obtain ⟨w, hw⟩ := Option.isSome_iff_exists.mp hSome.symm
      rw [hw]
  | scanVertexProperties vertices propertyList =>
    have hRead : ∀ vid ∈ vertices, a.readVertex vid = b.readVertex vid :=
      fun vid hvid => readVertex_congr (h vid hvid)
    have hAll : a.propertiesOf vertices = b.propertiesOf vertices := by
      unfold propertiesOf
      cases vertices with
      | nil => rfl
      | cons first rest =>
        dsimp only
        rw [hRead first (List.mem_cons_self ..)]
    unfold GraphView.answer GraphView.scanVertexProperties
    dsimp only
    rw [hAll, mapM_congr hRead]

end GraphView

-- ----
-- Runs
-- ----

namespace QueryState

variable {plan : QueryPlan} {s s' : QueryState Ty V} {view₀ : GraphView V}
  {trace : List (QueryState Ty V × QueryAction V)}

/-- The committed states of a run, the present one included. -/
def history (trace : List (QueryState Ty V × QueryAction V)) (s : QueryState Ty V) :
    List (GraphView V) :=
  trace.map (fun p => p.1.committed) ++ [s.committed]

/-- **The query reads one snapshot**: once it has ended, its chunks and the way it ended are
those of an evaluation on one of the committed states. -/
def OneSnapshot (null : V) (toArray : List V → ArrayRef Ty V) (plan : QueryPlan)
    (trace : List (QueryState Ty V × QueryAction V)) (s : QueryState Ty V) : Prop :=
  ∀ e, s.ending = some e →
    ∃ view ∈ history trace s, plan.build.evaluate null toArray view = (s.out, e)

/-- A call comes while the graph still has what the call reads as the node scan saw it. -/
def Undisturbed (s : QueryState Ty V) : QueryAction V → Prop
  | .commit _ => True
  | .advance => ∀ c k first, s.todo = .call c k → s.scanned = some first →
      first.SameFor s.committed c

/-- What remains to be done, evaluated on the scan's snapshot, completes what is handed out to
the evaluation of the whole query. -/
structure OnSnapshot (null : V) (toArray : List V → ArrayRef Ty V) (plan : QueryPlan)
    (trace : List (QueryState Ty V × QueryAction V)) (s : QueryState Ty V) : Prop where
  before : s.scanned = none → s.todo = plan.build ∧ s.out = []
  mem : ∀ first, s.scanned = some first → first ∈ history trace s
  rest : ∀ first, s.scanned = some first →
    (s.out ++ (s.todo.evaluate null toArray first).1, (s.todo.evaluate null toArray first).2) =
      plan.build.evaluate null toArray first

theorem history_step {a : QueryAction V} {view : GraphView V} (h : view ∈ history trace s) :
    view ∈ history (trace ++ [(s, a)]) s' := by
  unfold history at h ⊢
  rw [List.map_append]
  exact List.mem_append_left _ h

/-- A step that does not disturb the query leaves its transaction on the snapshot it began with. -/
theorem OnSnapshot.step {a : QueryAction V} (h : OnSnapshot null toArray plan trace s)
    (hCond : Undisturbed s a) (hs : Step null toArray s a s') :
    OnSnapshot null toArray plan (trace ++ [(s, a)]) s' := by
  cases a with
  | commit view =>
    obtain rfl := Option.some.inj hs
    exact ⟨h.before, fun first hFirst => history_step (h.mem first hFirst), h.rest⟩
  | advance =>
    unfold Step next at hs
    dsimp only at hs
    split at hs
    · cases hs
    · cases hs
    · rename_i c rest hTodo
      obtain rfl := Option.some.inj hs
      refine ⟨fun hNone => ?_, fun first hFirst => history_step (h.mem first hFirst),
        fun first hFirst => ?_⟩
      · -- the first thing to do is a call
        rw [(h.before hNone).1] at hTodo
        cases hTodo
      · rw [← h.rest first hFirst, hTodo]
        simp [ChunkStream.evaluate]
    · rename_i c k hTodo
      obtain rfl := Option.some.inj hs
      cases hScanned : s.scanned with
      | none =>
        obtain ⟨hBuild, hOut⟩ := h.before hScanned
        refine ⟨fun hNone => (nomatch hNone), fun first hFirst => ?_, fun first hFirst => ?_⟩
        · obtain rfl := Option.some.inj hFirst
          exact history_step (List.mem_append_right _ (List.mem_singleton_self _))
        · obtain rfl := Option.some.inj hFirst
          rw [← hBuild, hTodo, hOut]
          rfl
      | some first =>
        have hSame : first.answer null toArray c = s.committed.answer null toArray c :=
          (hCond c k first hTodo hScanned).answer
        refine ⟨fun hNone => (nomatch hNone), fun first' hFirst => ?_, fun first' hFirst => ?_⟩
        · obtain rfl := Option.some.inj hFirst
          exact history_step (h.mem first hScanned)
        · obtain rfl : first = first' := Option.some.inj hFirst
          rw [← h.rest first hScanned, hTodo, ← hSame]
          rfl

/-- **A query that nothing disturbs reads the snapshot of its node scan.** -/
theorem one_snapshot (hRun : Run (Step null toArray) Undisturbed (start plan view₀) trace s) :
    OneSnapshot null toArray plan trace s := by
  have hInv : OnSnapshot null toArray plan trace s := by
    refine hRun.invariant (I := fun trace s => OnSnapshot null toArray plan trace s) ?_
      fun trace s a s' _ hI hCond hStep => hI.step hCond hStep
    exact ⟨fun _ => ⟨rfl, rfl⟩, fun _ h => (nomatch h), fun _ h => (nomatch h)⟩
  intro e hEnding
  cases hScanned : s.scanned with
  | none =>
    have hTodo := (hInv.before hScanned).1
    unfold ending at hEnding
    rw [hTodo] at hEnding
    cases hEnding
  | some first =>
    refine ⟨first, hInv.mem first hScanned, ?_⟩
    rw [← hInv.rest first hScanned]
    unfold ending at hEnding
    split at hEnding
    · rename_i hTodo
      obtain rfl := Option.some.inj hEnding
      rw [hTodo]
      simp [ChunkStream.evaluate]
    · rename_i e' hTodo
      obtain rfl := Option.some.inj hEnding
      rw [hTodo]
      simp [ChunkStream.evaluate]
    · cases hEnding
    · cases hEnding

-- ----
-- A delete between the scan and the properties
-- ----

/-- Vertices 0 and 1, each with one property. -/
def twoVertices : GraphView Nat where
  vertices := [.new 0 1 [7], .new 1 1 [8]]
  edges := []
  vertexIds := by decide
  edgeIds := List.nodup_nil

/-- Vertex 1 is deleted. -/
def oneVertex : GraphView Nat where
  vertices := [.new 0 1 [7]]
  edges := []
  vertexIds := by decide
  edgeIds := List.nodup_nil

/-- `MATCH (n) RETURN n`. -/
def allVertices : QueryPlan := .vertexPropertyFetch (.nodeScan [[]]) 0 [0]

def unitArray (values : List Nat) : ArrayRef Unit Nat := ⟨(), values⟩

/-- The node scan comes first, then the delete, then the property scan. -/
def deletedBetween : List (QueryAction Nat) := [.advance, .commit oneVertex, .advance]

/-- **A delete between the node scan and the property scan makes the query fail**, and it fails
on neither of the two states. -/
theorem scan_then_delete_fails : ∃ trace s,
    Run (Step 0 unitArray) (fun _ _ => True) (start allVertices twoVertices) trace s ∧
    s.ending = some (.failed (.storage (.notFound .vertex 1))) ∧
    ¬ OneSnapshot 0 unitArray allVertices trace s := by
  obtain ⟨⟨trace, s⟩, hList⟩ := Option.isSome_iff_exists.mp (show (runList (next 0 unitArray)
    (start allVertices twoVertices) deletedBetween).isSome = true from rfl)
  have hEnding : (runList (next 0 unitArray) (start allVertices twoVertices) deletedBetween).map
      (fun r => r.2.ending) = some (some (.failed (.storage (.notFound .vertex 1)))) := rfl
  have hHistory : (runList (next 0 unitArray) (start allVertices twoVertices) deletedBetween).map
      (fun r => history r.1 r.2) = some [twoVertices, twoVertices, oneVertex, oneVertex] := rfl
  rw [hList, Option.map_some, Option.some.injEq] at hEnding hHistory
  refine ⟨trace, s, Run.of_runList (fun _ _ _ hNext => ⟨trivial, hNext⟩) hList, hEnding,
    fun h => ?_⟩
  obtain ⟨view, hView, hEval⟩ := h _ hEnding
  dsimp only at hHistory
  rw [hHistory] at hView
  have hEnds : (allVertices.build.evaluate 0 unitArray twoVertices).2 = .exhausted ∧
      (allVertices.build.evaluate 0 unitArray oneVertex).2 = .exhausted := ⟨rfl, rfl⟩
  have hFailed := congrArg Prod.snd hEval
  simp only [List.mem_cons, List.not_mem_nil, or_false] at hView
  rcases hView with rfl | rfl | rfl | rfl
  · rw [hEnds.1] at hFailed
    cases hFailed
  · rw [hEnds.1] at hFailed
    cases hFailed
  · rw [hEnds.2] at hFailed
    cases hFailed
  · rw [hEnds.2] at hFailed
    cases hFailed

/-- A vertex that is created meanwhile disturbs nothing: the query gives the row of vertex 0. -/
theorem scan_then_create_reads_scan : ∃ trace s,
    Run (Step 0 unitArray) Undisturbed (start allVertices oneVertex) trace s ∧
    s.ending = some .exhausted ∧ OneSnapshot 0 unitArray allVertices trace s := by
  let row : QueryChunk Unit Nat :=
    DataChunk.new [cellColumn (idColumn [0]), valueColumn (unitArray [7])]
  let s₁ : QueryState Unit Nat :=
    ⟨oneVertex, some oneVertex, allVertices.wrap (QueryExecutor.scanVertex [[0]]), []⟩
  let s₂ : QueryState Unit Nat := { s₁ with committed := twoVertices }
  let s₃ : QueryState Unit Nat := { s₂ with todo := .chunk row .exhausted }
  let s₄ : QueryState Unit Nat := { s₃ with todo := .exhausted, out := [row] }
  have hScan : Undisturbed (start allVertices oneVertex : QueryState Unit Nat) .advance :=
    fun _ _ _ _ hFirst => (nomatch hFirst)
  have hProperties : Undisturbed s₂ .advance := by
    intro c k first hTodo hFirst
    have hCall : ChunkStream.call (.scanVertexProperties [0] [0]) _ = ChunkStream.call c k := hTodo
    cases hCall
    obtain rfl := Option.some.inj hFirst
    intro vid hvid
    rw [List.mem_singleton.mp hvid]
    rfl
  have hOut : Undisturbed s₃ .advance := fun c k first hTodo _ => (nomatch hTodo)
  have hRun : Run (Step 0 unitArray) Undisturbed (start allVertices oneVertex) _ s₄ :=
    ((Run.nil.snoc hScan (show Step 0 unitArray _ _ s₁ from rfl)).snoc
      (show Undisturbed s₁ (.commit twoVertices) from trivial)
      (show Step 0 unitArray _ _ s₂ from rfl)).snoc hProperties
      (show Step 0 unitArray _ _ s₃ from rfl) |>.snoc hOut (show Step 0 unitArray _ _ s₄ from rfl)
  exact ⟨_, s₄, hRun, rfl, one_snapshot hRun⟩

end QueryState

-- ----
-- The storage answers as the graph it reads
-- ----

section Storage

open MemoryGraph

variable {g g₁ : MemoryGraph V} {txn : MemTransaction} {view : GraphView V}
  {keys : MemoryGraph V → List Nat}

/-- The transaction reads exactly `view`: every vertex, the adjacency in its order, and the
vertices that the scan lists. -/
structure GraphView.ReadBy (keys : MemoryGraph V → List Nat) (g : MemoryGraph V)
    (txn : MemTransaction) (view : GraphView V) : Prop where
  vertex : ∀ vid, (g.readEntity txn .vertex vid).toOption = view.getVertex vid
  outgoing : ∀ vid, g.iterAdjacency txn vid .outgoing (fun _ => true) =
    view.iterAdjacencyOutgoing vid
  listed : ((g.iterItems txn .vertex (keys g) fun _ => true).map Vertex.vid).Perm
    (view.vertices.map Vertex.vid)

/-- Two answers to one call, the texts of errors apart. -/
def SourceCall.SameAnswer : (c : SourceCall) → c.Answer Ty V → c.Answer Ty V → Prop
  | .vertexSource .., a, b => Except.toOption a = Except.toOption b
  | .expandFromVertex .., a, b => a = b
  | .scanVertexProperties .., a, b => Except.toOption a = Except.toOption b

theorem toOption_bind {ε α β : Type} (x : Except ε α) (f : α → Except ε β) :
    (x >>= f).toOption = x.toOption.bind fun a => (f a).toOption := by
  cases x <;> rfl

theorem toOption_mapM {ε α β : Type} (f : α → Except ε β) (l : List α) :
    (l.mapM f).toOption = l.mapM fun a => (f a).toOption := by
  induction l with
  | nil => rfl
  | cons a l ih =>
    rw [List.mapM_cons, List.mapM_cons, toOption_bind, ← ih]
    refine Option.bind_congr fun b _ => ?_
    rw [toOption_bind]
    rfl

theorem toOption_readVertex (view : GraphView V) (vid : Nat) :
    (view.readVertex vid).toOption = view.getVertex vid := by
  unfold GraphView.readVertex
  cases view.getVertex vid <;> rfl

/-- Reading notes what it reads, and what is noted changes no read. -/
def SameReads (g h : MemoryGraph V) (txn : MemTransaction) : Prop :=
  ∀ vid, h.readEntity txn .vertex vid = g.readEntity txn .vertex vid

theorem SameReads.note {h : MemoryGraph V} (hSame : SameReads g h txn) (k : Kind) (id : Nat) :
    SameReads g (h.modifyTxn txn.txnId fun s => s.insertRead k id) txn := by
  intro vid
  rw [← hSame vid]
  refine readEntity_congr (by simp) (fun t => ?_) (by simp)
  by_cases ht : t = txn.txnId
  · subst ht
    simp
  · rw [txns_modifyTxn_of_ne _ _ ht]

theorem SameReads.noteRead {h : MemoryGraph V} (hSame : SameReads g h txn) (k : Kind) (id : Nat) :
    SameReads g (h.noteRead txn k id) txn := fun vid => by
  rw [MemoryGraph.readEntity_noteRead, hSame vid]

theorem sameReads_noteScan (filter : Vertex V → Bool) (ids : List Nat) :
    SameReads g (g.noteScan txn .vertex ids filter) txn := by
  unfold MemoryGraph.noteScan
  refine List.foldlRecOn ids _ (motive := fun h => SameReads g h txn) (fun _ => rfl)
    fun h hSame id _ => ?_
  split
  · exact hSame.note .vertex id
  · exact hSame

section Loops

variable {h : MemoryGraph V}

theorem readVertices_toOption (hRead : view.ReadBy keys g txn) (hSame : SameReads g h txn)
    (vids : List Nat) :
    SameReads g (readVertices txn h vids).1 txn ∧
    (readVertices txn h vids).2.toOption = vids.mapM view.getVertex := by
  induction vids generalizing h with
  | nil => exact ⟨hSame, rfl⟩
  | cons vid vids ih =>
    have hVertex : (h.readEntity txn .vertex vid).toOption = view.getVertex vid := by
      rw [hSame vid, hRead.vertex vid]
    obtain ⟨hSame', hRest⟩ := ih (hSame.noteRead .vertex vid)
    unfold readVertices getVertex getEntity
    rw [List.mapM_cons, ← hVertex, ← hRest]
    cases h.readEntity txn .vertex vid with
    | error e => exact ⟨hSame.noteRead .vertex vid, rfl⟩
    | ok v =>
      dsimp only
      cases hMore : readVertices txn (h.noteRead txn .vertex vid) vids with
      | mk h' r =>
        rw [hMore] at hSame'
        cases r <;> exact ⟨hSame', rfl⟩

theorem readColumns_toOption (hRead : view.ReadBy keys g txn) (hSame : SameReads g h txn)
    (vertices propIds : List Nat) :
    (readColumns null toArray txn vertices h propIds).2.toOption =
      propIds.mapM fun propId => (vertices.mapM view.getVertex).map fun vs =>
        toArray (vs.map (propertyOf null propId)) := by
  induction propIds generalizing h with
  | nil => rfl
  | cons propId propIds ih =>
    obtain ⟨hSame', hVertices⟩ := readVertices_toOption hRead hSame vertices
    have hRest := ih hSame'
    unfold readColumns
    rw [List.mapM_cons, ← hRest, ← hVertices]
    cases readVertices txn h vertices with
    | mk h' r =>
      cases r with
      | error e => rfl
      | ok vs =>
        dsimp only
        cases readColumns null toArray txn vertices h' propIds with
        | mk h'' r' => cases r' <;> rfl

theorem allProperties_toOption (hRead : view.ReadBy keys g txn) (hSame : SameReads g h txn)
    (vertices : List Nat) :
    SameReads g (allProperties txn h vertices).1 txn ∧
    (allProperties txn h vertices).2.toOption = (view.propertiesOf vertices).toOption := by
  cases vertices with
  | nil => exact ⟨hSame, rfl⟩
  | cons first rest =>
    have hVertex : (h.readEntity txn .vertex first).toOption = (view.readVertex first).toOption := by
      rw [hSame first, hRead.vertex first, toOption_readVertex]
    have hLength : ∀ r : Except StorageError (Vertex V),
        (r.map fun v => List.range v.properties.length).toOption =
          r.toOption.map fun v => List.range v.properties.length := fun r => by cases r <;> rfl
    simp only [allProperties, GraphView.propertiesOf, getVertex, getEntity]
    rw [hLength, ← hVertex]
    cases h.readEntity txn .vertex first with
    | error e => exact ⟨hSame.noteRead .vertex first, rfl⟩
    | ok v => exact ⟨hSame.noteRead .vertex first, rfl⟩

/-- The loop of the node scan keeps the vertices of the wanted labels. -/
theorem keepLabelled_toOption (hRead : view.ReadBy keys g txn) (hSame : SameReads g h txn)
    (labelIds : Option (Cubes Nat)) {vids : List Nat}
    (hVids : ∀ vid ∈ vids, vid ∈ view.vertices.map Vertex.vid) :
    (keepLabelled txn labelIds h vids).2.toOption = some (vids.filter fun vid =>
      (view.getVertex vid).any (GraphView.isLabelled labelIds)) := by
  induction vids generalizing h with
  | nil => rfl
  | cons vid vids ih =>
    obtain ⟨v, hv, hVid⟩ := List.mem_map.mp (hVids vid (List.mem_cons_self ..))
    have hGet : view.getVertex vid = some v := hVid ▸ getVertex_of_mem hv
    have hVertex : h.readEntity txn .vertex vid = .ok v := by
      have hSome := hRead.vertex vid
      rw [hGet, ← hSame vid] at hSome
      cases hFound : h.readEntity txn .vertex vid with
      | error e =>
        rw [hFound] at hSome
        cases hSome
      | ok w =>
        rw [hFound] at hSome
        rw [Option.some.inj hSome]
    have hKept : h.vertexHasAllLabels txn vid labelIds = .ok (GraphView.isLabelled labelIds v) := by
      unfold MemoryGraph.vertexHasAllLabels GraphView.isLabelled
      cases labelIds with
      | none => rfl
      | some specs =>
        dsimp only
        rw [hVertex]
    have hNext : SameReads g (if labelIds.isSome then h.noteRead txn .vertex vid else h) txn := by
      split
      · exact hSame.noteRead .vertex vid
      · exact hSame
    have hRest := ih hNext fun w hw => hVids w (List.mem_cons_of_mem _ hw)
    unfold keepLabelled
    dsimp only
    rw [hKept, List.filter_cons, hGet]
    dsimp only
    cases hMore : keepLabelled txn labelIds
        (if labelIds.isSome then h.noteRead txn .vertex vid else h) vids with
    | mk h' r =>
      rw [hMore] at hRest
      cases r with
      | error e => cases hRest
      | ok ids =>
        obtain rfl := Option.some.inj hRest
        cases hLabelled : GraphView.isLabelled labelIds v <;> simp [hLabelled, Except.toOption]

end Loops

/-- Both list the same vertices, so they list the same batches of them. -/
theorem batches_of_listed (hRead : view.ReadBy keys g txn) (labelIds : Option (Cubes Nat)) :
    (((g.iterItems txn .vertex (keys g) fun _ => true).map Vertex.vid).filter fun vid =>
      (view.getVertex vid).any (GraphView.isLabelled labelIds)).insertionSort (· ≤ ·) =
    (view.labelledVertices labelIds).insertionSort (· ≤ ·) := by
  have hFilter : (view.vertices.map Vertex.vid).filter (fun vid =>
      (view.getVertex vid).any (GraphView.isLabelled labelIds)) =
        view.labelledVertices labelIds := by
    unfold GraphView.labelledVertices
    rw [List.filter_map]
    refine congrArg (List.map Vertex.vid) (List.filter_congr fun v hv => ?_)
    rw [Function.comp_apply, getVertex_of_mem hv]
    rfl
  rw [← hFilter]
  have hPerm := hRead.listed.filter fun vid =>
    (view.getVertex vid).any (GraphView.isLabelled labelIds)
  exact ((List.perm_insertionSort _ _).trans (hPerm.trans (List.perm_insertionSort _ _).symm)
    ).eq_of_pairwise (fun a b _ _ hab hba => Nat.le_antisymm hab hba)
      (List.pairwise_insertionSort ..) (List.pairwise_insertionSort ..)

theorem answer_batches (hRead : view.ReadBy keys g₁ txn) {labelIds : Option (Cubes Nat)}
    (batchSize : Nat) {out : Outcome V (List Nat)}
    (hOut : out.2.toOption = some (((g₁.iterItems txn .vertex (keys g₁) fun _ => true).map
      Vertex.vid).filter fun vid => (view.getVertex vid).any (GraphView.isLabelled labelIds))) :
    Except.toOption (match out with
      | (g', .error e) => (⟨g', some txn, .error e⟩ : Called V (Except StorageError _))
      | (g', .ok ids) => ⟨g', some txn, .ok (batches batchSize (ids.insertionSort (· ≤ ·)))⟩
      ).answer = some (batches batchSize ((view.labelledVertices labelIds).insertionSort
        (· ≤ ·))) := by
  obtain ⟨g', r⟩ := out
  cases r with
  | error e => cases hOut
  | ok ids =>
    obtain rfl := Option.some.inj hOut
    exact congrArg (fun ids => some (batches batchSize ids)) (batches_of_listed hRead labelIds)

/-- **A storage call answers as the graph that its transaction reads.** -/
theorem answer_readBy (hBegin : g.beginSerializable = (g₁, .ok txn))
    (hRead : view.ReadBy keys g₁ txn) (c : SourceCall) :
    c.SameAnswer (g.answer null toArray keys c).answer (view.answer null toArray c) := by
  cases c with
  | vertexSource labelIds batchSize =>
    have hListed : ∀ vid ∈ (g₁.iterItems txn .vertex (keys g₁) fun _ => true).map Vertex.vid,
        vid ∈ view.vertices.map Vertex.vid := fun vid hvid => hRead.listed.mem_iff.mp hvid
    have hLoop := keepLabelled_toOption hRead (sameReads_noteScan (fun _ => true) (keys g₁)) labelIds
      hListed
    show Except.toOption (g.vertexSource keys labelIds batchSize).answer = some _
    unfold MemoryGraph.vertexSource MemoryGraph.iterVertices
    rw [hBegin]
    exact answer_batches hRead batchSize hLoop
  | expandFromVertex vertex edgeLabels targetVertexLabels =>
    show (g.expandVertex vertex edgeLabels targetVertexLabels).answer = _
    have hOf : view.Of g₁ txn := by
      refine ⟨fun vid v => ?_, fun vid => by rw [hRead.outgoing vid]⟩
      rw [← hRead.vertex vid]
      cases g₁.readEntity txn .vertex vid with
      | error e => exact ⟨fun h => (by cases h), fun h => (by cases h)⟩
      | ok w => exact ⟨fun h => congrArg some (Except.ok.inj h),
          fun h => congrArg Except.ok (Option.some.inj h)⟩
    have hVertex := hRead.vertex vertex
    unfold MemoryGraph.expandVertex getVertex getEntity GraphView.answer GraphView.expandFromVertex
    rw [hBegin]
    dsimp only
    cases hGet : g₁.readEntity txn .vertex vertex with
    | error e =>
      rw [hGet] at hVertex
      rw [← hVertex]
      rfl
    | ok v =>
      rw [hGet] at hVertex
      rw [← hVertex]
      have hFound : g₁.expandFromVertex txn vertex edgeLabels targetVertexLabels =
          some (view.neighbors vertex edgeLabels targetVertexLabels) := by
        have hFilter : g₁.iterAdjacency txn vertex .outgoing (edgeLabelAllowed edgeLabels) =
            (view.iterAdjacencyOutgoing vertex).filter (edgeLabelAllowed edgeLabels) := by
          rw [← hRead.outgoing vertex]
          unfold MemoryGraph.iterAdjacency
          rw [List.filter_filter]
          refine List.filter_congr fun n _ => ?_
          rw [Bool.and_true, Bool.and_comm]
        unfold MemoryGraph.expandFromVertex GraphView.neighbors
        rw [hGet]
        dsimp only
        rw [hFilter, hOf.targetAllowed]
      rw [hFound]
      rfl
  | scanVertexProperties vertices propertyList =>
    show Except.toOption (g.scanVertexProperties null toArray vertices propertyList).answer =
      (view.scanVertexProperties null toArray vertices propertyList).toOption
    have hView : ∀ propIds : List Nat, Except.toOption (propIds.mapM fun propId => (do
        let vs ← vertices.mapM view.readVertex
        .ok (toArray (vs.map (propertyOf null propId))) : Except StorageError (ArrayRef Ty V))) =
        propIds.mapM fun propId => (vertices.mapM view.getVertex).map fun vs =>
          toArray (vs.map (propertyOf null propId)) := by
      intro propIds
      rw [toOption_mapM]
      refine congrArg (fun f => propIds.mapM f) (funext fun propId => ?_)
      rw [toOption_bind, toOption_mapM]
      simp only [toOption_readVertex]
      cases vertices.mapM view.getVertex <;> rfl
    unfold MemoryGraph.scanVertexProperties GraphView.scanVertexProperties
    rw [hBegin]
    dsimp only
    have hSelf : SameReads g₁ g₁ txn := fun _ => rfl
    obtain ⟨hSame, hList⟩ := allProperties_toOption hRead hSelf vertices
    by_cases hEmpty : propertyList = []
    · rw [if_pos hEmpty, if_pos hEmpty, toOption_bind, ← hList]
      cases hAll : allProperties txn g₁ vertices with
      | mk g' r =>
        rw [hAll] at hSame
        cases r with
        | error e => rfl
        | ok propIds =>
          exact (readColumns_toOption hRead hSame vertices propIds).trans (hView propIds).symm
    · rw [if_neg hEmpty, if_neg hEmpty]
      exact (readColumns_toOption hRead hSelf vertices propertyList).trans (hView propertyList).symm

/-- Vertices 1 and 2 with an edge from the first to the second, committed at 1. -/
def linkedVertices : MemoryGraph Nat :=
  let vertex (vid : Nat) : VersionedVertex Nat := ⟨⟨.new vid 1 [7], 1⟩, []⟩
  let edge : VersionedEdge Nat := ⟨⟨.new 5 1 2 3 [], 1⟩, []⟩
  ((((MemoryGraph.new none .pessimistic .snapshot).setChain .vertex 1 (some (vertex 1))).setChain
    .vertex 2 (some (vertex 2))).setChain .edge 5 (some edge)).insertOutgoing 1 ⟨3, 2, 5⟩

def linkedView : GraphView Nat where
  vertices := [.new 1 1 [7], .new 2 1 [7]]
  edges := [.new 5 1 2 3 []]
  vertexIds := by decide
  edgeIds := by decide

/-- In the concrete graph the transaction reads the view that the query is answered from. -/
theorem readBy_linkedVertices {g₁ : MemoryGraph Nat} {txn : MemTransaction}
    (hBegin : linkedVertices.beginSerializable = (g₁, .ok txn)) :
    linkedView.ReadBy (fun _ => [1, 2]) g₁ txn := by
  refine ⟨fun vid => ?_, fun vid => ?_, ?_⟩
  · by_cases hOne : vid = 1
    · subst hOne
      cases hBegin
      rfl
    · by_cases hTwo : vid = 2
      · subst hTwo
        cases hBegin
        rfl
      · have hChain : g₁.chain .vertex vid = none := by
          cases hBegin
          exact (Function.update_of_ne hTwo _ _).trans (Function.update_of_ne hOne _ _)
        have hView : linkedView.getVertex vid = none := by
          simp [linkedView, GraphView.getVertex, Vertex.new, Ne.symm hOne, Ne.symm hTwo]
        have hPending : g₁.pendingWrite txn .vertex vid = none := by
          cases hBegin
          rfl
        unfold readEntity
        rw [hView, hPending, hChain]
        rfl
  · by_cases hOne : vid = 1
    · subst hOne
      cases hBegin
      rfl
    · have hView : linkedView.iterAdjacencyOutgoing vid = [] := by
        simp [linkedView, GraphView.iterAdjacencyOutgoing, Edge.new, Ne.symm hOne]
      have hEntries : g₁.adjacencyEntries txn vid .outgoing = [] := by
        have hNone : g₁.adjacencyList vid = none := by
          cases hBegin
          exact Function.update_of_ne hOne _ _
        have hPessimistic : txn.lockStrategy ≠ .optimistic := by
          cases hBegin
          decide
        unfold adjacencyEntries
        rw [if_neg hPessimistic]
        show g₁.outgoing vid = []
        unfold MemoryGraph.outgoing
        rw [hNone]
        rfl
      unfold iterAdjacency
      rw [hEntries, hView]
      rfl
  · cases hBegin
    exact .refl _

/-- The storage and the view find the edge of vertex 1, and both miss vertex 3. -/
theorem answer_linkedVertices :
    let toArray := fun vs : List Nat => (⟨(), vs⟩ : ArrayRef Unit Nat)
    let storage := fun c => (MemoryGraph.answer 0 toArray (fun _ => [1, 2]) linkedVertices c).answer
    let view := fun c => linkedView.answer 0 toArray c
    (SourceCall.SameAnswer (.expandFromVertex 1 none none) (storage _) (view _) ∧
      view (.expandFromVertex 1 none none) = some [[[5], [2]]]) ∧
    (SourceCall.SameAnswer (.vertexSource none 1024) (storage _) (view _) ∧
      view (.vertexSource none 1024) = .ok [[1, 2]]) ∧
    SourceCall.SameAnswer (.scanVertexProperties [1, 3] [0]) (storage _) (view _) := by
  obtain ⟨g₁, txn, hBegin⟩ : ∃ g₁ txn, linkedVertices.beginSerializable = (g₁, .ok txn) := ⟨_, _, rfl⟩
  have hRead := readBy_linkedVertices hBegin
  exact ⟨⟨answer_readBy hBegin hRead _, rfl⟩, ⟨answer_readBy hBegin hRead _, rfl⟩,
    answer_readBy hBegin hRead _⟩

end Storage

end MiniGU
