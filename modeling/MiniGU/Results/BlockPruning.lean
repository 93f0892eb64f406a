import MiniGU.Invariant.OlapStamps

/-!
# Pruning blocks by their first timestamp

A read passes over a block whose `min_ts` is a commit timestamp behind its start. That
loses no visible edge in runs whose calls put only fitting stamps into blocks
(`pruning_sound`); the plain `create_edge` does not, and neither does a transaction that
writes into a block committed after its start.
-/

namespace MiniGU

namespace Olap

open OlapStorage

variable {V : Type}

/-- No block is passed over for its first timestamp while the reader sees one of its edges. -/
def OlapStorage.PruningSound (g : OlapStorage V) (txn : Reader) : Prop :=
  ∀ block ∈ g.edges, block.isTombstone = false → block.hiddenFrom txn = true →
    ∀ edge ∈ block.edges, ¬ (edge.isTombstone = false ∧ txn.sees edge.commitTs = true)

namespace OlapState

/-- The starts of the transactions. -/
def starts (s : OlapState V) (txnId : Nat) : Option Nat := (s.txns txnId).map (·.startTs)

/-- A reader is one of the transactions, or one that has written nothing here. -/
def IsReader (s : OlapState V) (txn : Reader) : Prop :=
  ∀ start, s.starts txn.txnId = some start → txn.startTs = start

end OlapState

/-- The call puts no stamp into a block that hides it. -/
def KeepsStampsFit (s : OlapState V) : Action V → Prop
  | .plain (.createEdge edge) =>
    OlapStorage.TakesStamp s.starts s.storage Timestamp.maxCommitTs 0 edge
  | .op txnId (.createEdge edge) => OlapStorage.TakesStamp s.starts s.storage txnId txnId edge
  | .op txnId (.setEdgeProperty eid indices props) =>
    indices.length = props.length → (∀ idx ∈ indices, idx < s.storage.propertyColumns.length) →
      ∀ block ∈ s.storage.edges, block.isTombstone = false → ∀ edge ∈ block.edges,
      edge.eid = eid → edge.isTombstone = false → StampFits s.starts block.minTs txnId
  | .commit txnId commitTs => ∀ txn ts gen, s.txns txnId = some txn → txn.commitTs = none →
    s.gen.obtain commitTs = .ok (ts, gen) → ∀ block ∈ s.storage.edges,
      block.isTombstone = false → Timestamp.isTxnId block.minTs = true →
      (∃ edge ∈ block.edges, OlapStorage.Published txnId txn.undoBuffer edge) →
      ∀ edge ∈ block.edges, edge.isTombstone = false →
      ¬ OlapStorage.Published txnId txn.undoBuffer edge → StampFits s.starts ts edge.commitTs
  | .abort txnId => ∀ txn, s.txns txnId = some txn → txn.commitTs = none →
    ∀ entry ∈ txn.undoBuffer, OlapStorage.RestoresFit s.starts s.storage entry
  | _ => True

-- ----
-- The invariant
-- ----

/-- What runs of such calls keep: stamps fit, and transactions are filed under their ids. -/
structure StampsFit (s : OlapState V) : Prop where
  wellFormed : s.storage.WellFormed
  fits : OlapStorage.AllFit s.starts s.storage
  ids : ∀ txnId txn, s.txns txnId = some txn →
    txn.txnId = txnId ∧ Timestamp.isTxnId txnId = true
  undo : ∀ txnId txn, s.txns txnId = some txn → ∀ entry ∈ txn.undoBuffer,
    Timestamp.isTxnId entry.2 = true → s.starts entry.2 ≠ none

theorem StampsFit.init (n : Nat) : StampsFit (.init n : OlapState V) where
  wellFormed := .new n
  fits _ hBlock := nomatch hBlock
  ids _ _ h := nomatch h
  undo _ _ h := nomatch h

theorem StampsFit.starts_isSome {s : OlapState V} (h : StampsFit s) {ts : Nat}
    (hKnown : s.starts ts ≠ none) : Timestamp.isTxnId ts = true := by
  obtain ⟨start, hStart⟩ := Option.ne_none_iff_exists'.mp hKnown
  obtain ⟨txn, hTxn, -⟩ := Option.map_eq_some_iff.mp hStart
  exact (h.ids ts txn hTxn).2

/-- **Soundness of the pruning**, from the fitting stamps. -/
theorem StampsFit.pruningSound {s : OlapState V} (h : StampsFit s) {txn : Reader}
    (hReader : s.IsReader txn) : s.storage.PruningSound txn := by
  rintro block hBlock hLive hHidden edge hEdge ⟨hShown, hSees⟩
  have hHidden : (Timestamp.isCommitTs block.minTs && decide (txn.startTs < block.minTs)) = true :=
    hHidden
  rw [Bool.and_eq_true, decide_eq_true_eq] at hHidden
  obtain ⟨hCommit, hBefore⟩ := hHidden
  have hBlockFits := h.fits block hBlock
  obtain ⟨hLater, hOwner⟩ := hBlockFits.fits hLive edge hEdge hShown hCommit
  unfold Reader.sees at hSees
  split at hSees
  · rename_i hTxn
    -- a stamp of the reader's own
    have hOwn : edge.commitTs = txn.txnId := by simpa using hSees
    obtain ⟨start, hStart⟩ := Option.ne_none_iff_exists'.mp (hBlockFits.known edge hEdge hTxn)
    have := hOwner start hStart
    have := hReader start (hOwn ▸ hStart)
    omega
  · rename_i hCommitted
    have := hLater (by simpa using hCommitted)
    have := decide_eq_true_eq.mp hSees
    omega

-- ----
-- The steps
-- ----

theorem StampsFit.storage {s : OlapState V} (h : StampsFit s) {g : OlapStorage V}
    (hw : g.WellFormed) (hFits : OlapStorage.AllFit s.starts g) :
    StampsFit { s with storage := g } :=
  ⟨hw, hFits, h.ids, h.undo⟩

theorem starts_update {s : OlapState V} {txnId : Nat} {txn txn' : MemTransaction}
    (hTxn : s.txns txnId = some txn) (hStart : txn'.startTs = txn.startTs)
    (g : OlapStorage V) (gen : GlobalTimestampGenerator) :
    OlapState.starts ⟨g, gen, Function.update s.txns txnId (some txn')⟩ = s.starts := by
  funext id
  show (Function.update s.txns txnId (some txn') id).map _ = (s.txns id).map _
  by_cases hSame : id = txnId
  · subst hSame
    rw [Function.update_self, hTxn]
    exact congrArg some hStart
  · rw [Function.update_of_ne hSame]

theorem StampsFit.update {s : OlapState V} (h : StampsFit s) {txnId : Nat}
    {txn txn' : MemTransaction} (hTxn : s.txns txnId = some txn) {g : OlapStorage V}
    (gen : GlobalTimestampGenerator) (hw : g.WellFormed)
    (hFits : OlapStorage.AllFit s.starts g)
    (hKept : OlapStorage.TxnKept s.starts txn txn') :
    StampsFit ⟨g, gen, Function.update s.txns txnId (some txn')⟩ := by
  have hStarts := starts_update hTxn hKept.startTs g gen
  refine ⟨hw, ?_, fun id txn₁ h₁ => ?_, fun id txn₁ h₁ entry hEntry hId => ?_⟩
  · rw [hStarts]
    exact hFits
  · have h₁ : Function.update s.txns txnId (some txn') id = some txn₁ := h₁
    by_cases hSame : id = txnId
    · subst hSame
      rw [Function.update_self] at h₁
      cases h₁
      exact ⟨hKept.txnId.trans (h.ids id txn hTxn).1, (h.ids id txn hTxn).2⟩
    · rw [Function.update_of_ne hSame] at h₁
      exact h.ids id txn₁ h₁
  · rw [hStarts]
    have h₁ : Function.update s.txns txnId (some txn') id = some txn₁ := h₁
    by_cases hSame : id = txnId
    · subst hSame
      rw [Function.update_self] at h₁
      cases h₁
      rcases hKept.undo entry hEntry with hOld | hKnown
      · exact h.undo id txn hTxn entry hOld hId
      · exact hKnown hId
    · rw [Function.update_of_ne hSame] at h₁
      exact h.undo id txn₁ h₁ entry hEntry hId

theorem StampsFit.op {s : OlapState V} (h : StampsFit s) {txnId : Nat} {o : TxnOp V}
    {txn txn' : MemTransaction} {g : OlapStorage V} (hTxn : s.txns txnId = some txn)
    (hKeeps : KeepsStampsFit s (.op txnId o)) (hRun : o.run s.storage txn = some (g, txn')) :
    StampsFit { s with storage := g, txns := Function.update s.txns txnId (some txn') } := by
  have hw := h.wellFormed.edits (TxnOp.run_edits hRun)
  obtain ⟨hId, hIsId⟩ := h.ids txnId txn hTxn
  have hTxnId : Timestamp.isTxnId txn.txnId = true := hId.symm ▸ hIsId
  have hKnown : s.starts txn.txnId ≠ none := by
    unfold OlapState.starts
    rw [hId, hTxn]
    exact Option.some_ne_none _
  have hBoth : OlapStorage.AllFit s.starts g ∧ OlapStorage.TxnKept s.starts txn txn' := by
    cases o with
    | createEdge edge =>
      obtain ⟨r, hr, hEq⟩ := Option.map_eq_some_iff.mp hRun
      cases hEq
      have hTakes : OlapStorage.TakesStamp s.starts s.storage txnId txnId edge := hKeeps
      exact h.fits.createEdgeInTxn hr hTxnId hKnown (hId.symm ▸ hTakes)
    | setEdgeProperty eid indices props =>
      obtain ⟨r, hr, hEq⟩ := Option.map_eq_some_iff.mp hRun
      cases hEq
      refine h.fits.setEdgePropertyInTxn hr hTxnId hKnown ?_
      rw [hId]
      exact hKeeps
    | deleteEdge eid =>
      cases hRun
      exact h.fits.deleteEdgeInTxn eid hTxnId hKnown
  exact h.update hTxn s.gen hw hBoth.1 hBoth.2

theorem obtain_commitTs {gen gen' : GlobalTimestampGenerator} {commitTs : Option Nat} {ts : Nat}
    (h : gen.obtain commitTs = .ok (ts, gen')) : Timestamp.isTxnId ts = false := by
  have hLt : ts < Timestamp.maxCommitTs := by
    cases commitTs with
    | none =>
      have h : gen.next = .ok (ts, gen') := h
      unfold GlobalTimestampGenerator.next at h
      split at h
      · cases h
      · rename_i hLe
        cases h
        omega
    | some t =>
      have h : (gen.updateIfGreater t).map (fun gen' => (t, gen')) = .ok (ts, gen') := h
      unfold GlobalTimestampGenerator.updateIfGreater at h
      split at h
      · cases h
      · split at h
        · cases h
        · rename_i hLe
          cases h
          omega
  unfold Timestamp.isTxnId Timestamp.txnIdStart
  unfold Timestamp.maxCommitTs at hLt
  rw [decide_eq_false_iff_not]
  omega

/-- A begin under a new id keeps the stamps known. -/
theorem StampsFit.begin {s : OlapState V} (h : StampsFit s) {txnId startTs : Nat}
    (hId : Timestamp.isTxnId txnId = true) (hNew : s.txns txnId = none) :
    StampsFit { s with txns := Function.update s.txns txnId (some (.new txnId startTs)) } := by
  have hStarts : OlapState.starts
      { s with txns := Function.update s.txns txnId (some (.new txnId startTs)) } =
      Function.update s.starts txnId (some startTs) := by
    funext id
    show (Function.update s.txns txnId (some (.new txnId startTs)) id).map _ = _
    by_cases hSame : id = txnId
    · subst hSame
      rw [Function.update_self, Function.update_self]
      rfl
    · rw [Function.update_of_ne hSame, Function.update_of_ne hSame]
      rfl
  have hUnknown : s.starts txnId = none := by
    unfold OlapState.starts
    rw [hNew]
    rfl
  have hStill : ∀ ts, s.starts ts ≠ none → Function.update s.starts txnId (some startTs) ts ≠ none := by
    intro ts hTs
    have hOther : ts ≠ txnId := by
      rintro rfl
      exact hTs hUnknown
    rwa [Function.update_of_ne hOther]
  refine ⟨h.wellFormed, ?_, fun id txn hTxn => ?_, fun id txn hTxn entry hEntry hEntryId => ?_⟩
  · rw [hStarts]
    intro block hBlock
    have hBlockFits := h.fits block hBlock
    refine ⟨fun hLive edge hEdge hShown hCommit => ?_, fun edge hEdge hTxn =>
      hStill _ (hBlockFits.known edge hEdge hTxn)⟩
    obtain ⟨hLater, hOwner⟩ := hBlockFits.fits hLive edge hEdge hShown hCommit
    refine ⟨hLater, fun start hStart => hOwner start ?_⟩
    have hOther : edge.commitTs ≠ txnId := by
      rintro rfl
      exact hBlockFits.known edge hEdge hId hUnknown
    rwa [Function.update_of_ne hOther] at hStart
  · have hTxn : Function.update s.txns txnId (some (.new txnId startTs)) id = some txn := hTxn
    by_cases hSame : id = txnId
    · subst hSame
      rw [Function.update_self] at hTxn
      cases hTxn
      exact ⟨rfl, hId⟩
    · rw [Function.update_of_ne hSame] at hTxn
      exact h.ids id txn hTxn
  · rw [hStarts]
    have hTxn : Function.update s.txns txnId (some (.new txnId startTs)) id = some txn := hTxn
    by_cases hSame : id = txnId
    · subst hSame
      rw [Function.update_self] at hTxn
      cases hTxn
      cases hEntry
    · rw [Function.update_of_ne hSame] at hTxn
      exact hStill _ (h.undo id txn hTxn entry hEntry hEntryId)

theorem StampsFit.commit {s : OlapState V} (h : StampsFit s) {txnId : Nat}
    {commitTs : Option Nat} {txn : MemTransaction} (hTxn : s.txns txnId = some txn)
    (hKeeps : KeepsStampsFit s (.commit txnId commitTs)) :
    StampsFit ⟨(s.storage.commitAt s.gen txn commitTs).1,
      (s.storage.commitAt s.gen txn commitTs).2.1,
      Function.update s.txns txnId (some (s.storage.commitAt s.gen txn commitTs).2.2.1)⟩ := by
  have hw := h.wellFormed.edits (commitAt_edits s.storage s.gen txn commitTs)
  rcases commitAt_cases s.storage s.gen txn commitTs with
    ⟨hSame, hTxnSame⟩ | ⟨ts, gen', hObtain, hNone, hStore, hTxn'⟩
  · rw [hSame, hTxnSame]
    exact h.update hTxn _ h.wellFormed h.fits (.refl _ txn)
  · obtain ⟨hId, hIsId⟩ := h.ids txnId txn hTxn
    have hTs := obtain_commitTs hObtain
    have hFree : s.starts ts = none := by
      by_contra hKnown
      rw [h.starts_isSome hKnown] at hTs
      cases hTs
    refine h.update hTxn _ hw ?_ ?_
    · rw [hStore, hId]
      exact h.fits.commitEntries h.wellFormed hTs hIsId hFree _
        (hKeeps txn ts gen' hTxn hNone hObtain)
    · rw [hTxn']
      exact ⟨rfl, rfl, fun entry hEntry => nomatch hEntry⟩

theorem StampsFit.abort {s : OlapState V} (h : StampsFit s) {txnId : Nat} {txn : MemTransaction}
    {r : OlapStorage V × MemTransaction × Except StorageError Unit}
    (hTxn : s.txns txnId = some txn) (hr : s.storage.abort txn = some r)
    (hKeeps : KeepsStampsFit s (.abort txnId)) :
    StampsFit { s with storage := r.1, txns := Function.update s.txns txnId (some r.2.1) } := by
  have hw := h.wellFormed.edits (abort_edits hr)
  unfold OlapStorage.abort at hr
  split at hr
  · cases hr
    exact h.update hTxn s.gen h.wellFormed h.fits (.refl _ txn)
  · rename_i hNone
    obtain ⟨g, hLoop, rfl⟩ := Option.map_eq_some_iff.mp hr
    refine h.update hTxn s.gen hw ?_ ⟨rfl, rfl, fun entry hEntry => nomatch hEntry⟩
    refine h.fits.abortEntries _ hLoop (fun entry hEntry => ?_) fun entry hEntry => ?_
    · exact hKeeps txn hTxn hNone entry (List.mem_reverse.mp hEntry)
    · exact h.undo txnId txn hTxn entry (List.mem_reverse.mp hEntry)

/-- A call that meets the condition keeps the stamps of every block within its bounds. -/
theorem StampsFit.step {s s' : OlapState V} {a : Action V} (h : StampsFit s)
    (hKeeps : KeepsStampsFit s a) (hStep : Step s a s') : StampsFit s' := by
  have hw := hStep.wellFormed h.wellFormed
  cases a with
  | plain o =>
    obtain ⟨g, hRun, rfl⟩ := Option.map_eq_some_iff.mp hStep
    refine h.storage hw ?_
    cases o with
    | createVertex vid properties =>
      obtain ⟨r, hr, rfl⟩ := Option.map_eq_some_iff.mp hRun
      rcases createVertex_cases hr with ⟨-, hSame⟩ | ⟨-, -, hSame⟩
      · exact hSame ▸ h.fits
      · exact h.fits.congr (hSame ▸ rfl)
    | createEdge edge =>
      obtain ⟨r, hr, rfl⟩ := Option.map_eq_some_iff.mp hRun
      exact h.fits.createEdge hr hKeeps
    | setEdgeProperty eid indices props =>
      obtain rfl := Option.some.inj hRun
      obtain ⟨columns, hSame⟩ := setEdgeProperty_columns s.storage eid indices props
      exact h.fits.congr (hSame ▸ rfl)
    | setVertexProperty vid indices props =>
      obtain ⟨r, hr, rfl⟩ := Option.map_eq_some_iff.mp hRun
      obtain ⟨vertices, hSame⟩ := setVertexProperty_vertices hr
      exact h.fits.congr (hSame ▸ rfl)
    | deleteVertex vid =>
      obtain ⟨r, hr, rfl⟩ := Option.map_eq_some_iff.mp hRun
      exact h.fits.deleteVertex hr
    | deleteEdge eid =>
      obtain ⟨r, hr, rfl⟩ := Option.map_eq_some_iff.mp hRun
      exact h.fits.deleteEdge hr
  | begin txnId startTs =>
    have hStep : (if Timestamp.isTxnId txnId = true ∧ s.txns txnId = none then
        some { s with txns := Function.update s.txns txnId (some (.new txnId startTs)) }
      else none) = some s' := hStep
    by_cases hNew : Timestamp.isTxnId txnId = true ∧ s.txns txnId = none
    · rw [if_pos hNew] at hStep
      cases hStep
      exact h.begin hNew.1 hNew.2
    · rw [if_neg hNew] at hStep
      cases hStep
  | op txnId o =>
    obtain ⟨txn, hTxn, hRun⟩ := Option.bind_eq_some_iff.mp hStep
    obtain ⟨⟨g, txn'⟩, hOp, rfl⟩ := Option.map_eq_some_iff.mp hRun
    exact h.op hTxn hKeeps hOp
  | commit txnId commitTs =>
    obtain ⟨txn, hTxn, rfl⟩ := Option.map_eq_some_iff.mp hStep
    exact h.commit hTxn hKeeps
  | abort txnId =>
    obtain ⟨txn, hTxn, hRun⟩ := Option.bind_eq_some_iff.mp hStep
    obtain ⟨r, hr, rfl⟩ := Option.map_eq_some_iff.mp hRun
    exact h.abort hTxn hr hKeeps

theorem stampsFit_of_run {n : Nat} {trace : List (OlapState V × Action V)}
    {s : OlapState V}
    (h : Run Step KeepsStampsFit (.init n) trace s) : StampsFit s :=
  h.stateInvariant (.init n) fun _ _ _ hFits hKeeps hStep => hFits.step hKeeps hStep

-- ----
-- The pruning
-- ----

/-- **Soundness of the pruning** in every state of a run whose calls put only fitting
stamps into blocks, for each transaction of the run and every other reader. -/
theorem OlapState.pruning_sound {n : Nat} {trace : List (OlapState V × Action V)} {s : OlapState V}
    (h : Run Step KeepsStampsFit (.init n) trace s) {txn : Reader} (hReader : s.IsReader txn) :
    s.storage.PruningSound txn :=
  (stampsFit_of_run h).pruningSound hReader

/-- A transaction that starts at 3 creates an edge and commits it at 5: a reader at 4 is
kept from the block, and sees nothing of it. -/
theorem OlapState.pruning_sound_committed : ∃ s : OlapState Nat,
    s.storage.edges = [⟨none, false, 5, 1, [⟨1, none, 2, 5⟩]⟩] ∧
      s.storage.PruningSound ⟨Timestamp.u64Max, 4⟩ := by
  obtain ⟨trace, s, hRun, hEdges, hStarts⟩ : ∃ trace s,
      Run Step KeepsStampsFit (OlapState.init (V := Nat) 0) trace s ∧
        s.storage.edges = [⟨none, false, 5, 1, [⟨1, none, 2, 5⟩]⟩] ∧
        s.starts Timestamp.u64Max = none := by
    have hNone : Run Step KeepsStampsFit (OlapState.init (V := Nat) 0) [] (.init 0) := .nil
    have hVertex := hNone.snoc (a := Action.plain (.createVertex 1 [])) trivial rfl
    have hBegin := hVertex.snoc (a := Action.begin Timestamp.txnIdStart 3) trivial rfl
    have hCreate := hBegin.snoc (a := Action.op Timestamp.txnIdStart (.createEdge ⟨none, 1, 2, []⟩))
      (by
        intro i vertex g b block hSource hOpen hb _ _
        have hSource : Except.ok (0, ⟨1, [], none⟩) = Except.ok (i, vertex) := hSource
        cases hSource
        cases hOpen
        cases hb
        exact .of_txnId (by decide)) rfl
    refine ⟨_, _, Run.snoc (a := Action.commit Timestamp.txnIdStart (some 5)) hCreate ?_ rfl,
      rfl, rfl⟩
    intro txn ts gen hTxn _ _ block hBlock _ _ _ edge hEdge _ hNot
    cases hTxn
    cases hBlock with
    | head =>
      cases hEdge with
      | head => exact absurd ⟨rfl, _, List.mem_singleton_self _, rfl⟩ hNot
      | tail _ hEdge => cases hEdge
    | tail _ hBlock => cases hBlock
  refine ⟨s, hEdges, OlapState.pruning_sound hRun fun start hStart => ?_⟩
  have hStart : s.starts Timestamp.u64Max = some start := hStart
  rw [hStarts] at hStart
  cases hStart

/-- The plain `create_edge` opens a block that readers are kept from until the end of
times, while its edge is there for all of them. -/
theorem OlapState.plain_edge_pruned : ∃ s : OlapState Nat, Reachable s ∧
    s.IsReader ⟨Timestamp.u64Max, 5⟩ ∧ ¬ s.storage.PruningSound ⟨Timestamp.u64Max, 5⟩ := by
  obtain ⟨trace, s, hList, hFacts⟩ := exists_of_runList
    (show (runList next (OlapState.init (V := Nat) 0)
      [.plain (.createVertex 1 []), .plain (.createEdge ⟨none, 1, 2, []⟩)]).map
      (fun r => (r.2.storage.edges, r.2.starts Timestamp.u64Max)) =
      some ([⟨none, false, Timestamp.maxCommitTs, 1, [⟨1, none, 2, 0⟩]⟩], none) by decide +kernel)
  obtain ⟨hEdges, hStarts⟩ := Prod.mk.inj hFacts
  refine ⟨s, ⟨0, trace, .of_runList (fun _ _ _ h => ⟨trivial, h⟩) hList⟩, fun start hStart => ?_,
    fun hSound => ?_⟩
  · have hStarts : s.starts Timestamp.u64Max = none := hStarts
    rw [hStarts] at hStart
    cases hStart
  · have hEdges : s.storage.edges = _ := hEdges
    refine hSound ⟨none, false, Timestamp.maxCommitTs, 1, [⟨1, none, 2, 0⟩]⟩ ?_ rfl ?_
      ⟨1, none, 2, 0⟩ (List.mem_singleton_self _) ⟨rfl, ?_⟩
    · rw [hEdges]
      exact List.mem_singleton_self _
    · decide +kernel
    · decide +kernel

end Olap

end MiniGU
