import MiniGU.Invariant.Readers
import MiniGU.Model.Manager
import MiniGU.Results.FirstCommitter

/-!
# Garbage collection is invisible

A collection takes the edges that expired transactions deleted, and their endpoints,
where the head is a tombstone. It does not look at the stamp of the head: the tombstone
may be that of a transaction that still runs.

## The low watermark

The watermark is read off the active transaction with the smallest id and stored some accesses
later, so it bounds every active start only where ids and starts come in the same order and no
start is entered below a watermark that is published or that an update in progress has read.
-/

namespace MiniGU.MemoryGraph

variable {V : Type} {g : MemoryGraph V} {t : MemTransaction} {k : Kind} {id : Nat}

/-- What the collection would take is dead: each entity it removes was committed at or
below the watermark, an edge listed under a vertex it removes has that vertex as an
endpoint, and no active transaction has staged a write of any of these. -/
structure CollectsDead (g : MemoryGraph V) : Prop where
  committed : CollectsCommitted g
  listed : ∀ vid n, g.gcRemoves .vertex vid = true → n ∈ g.incoming vid ∨ n ∈ g.outgoing vid →
    ∀ c, g.edges n.eid = some c → c.current.data.srcId = vid ∨ c.current.data.dstId = vid
  unstaged : ∀ t ∈ g.txnManager.activeTxns, ∀ k id, g.Touched k id →
    (g.txns t.txnId).lookupWrite k id = none

/-- **The collection is invisible**: together with any buffers freed after it, it changes
no read of an active transaction, takes only tombstones committed at or below the
watermark, and leaves everything that an active transaction has written in the maps. -/
structure CollectionInvisible (g : MemoryGraph V) : Prop where
  reads : ∀ ids : List Nat, (∀ o ∈ ids, g.garbageCollect.isHeld o = false) →
    ∀ t ∈ g.txnManager.activeTxns, SameReads g (ids.foldl release g.garbageCollect) t
  removed : ∀ k id c, g.chain k id = some c → g.garbageCollect.chain k id = none →
    Gone c.current.data ∧ c.current.commitTs ≤ g.txnManager.watermark
  written : ∀ t ∈ g.txnManager.activeTxns, ∀ k id, g.Wrote t k id →
    (g.chain k id).isSome = true → (g.garbageCollect.chain k id).isSome = true

theorem gone_of_gcRemoves {c : VersionChain (Data V k) (DeltaOp V)}
    (hRem : g.gcRemoves k id = true) (hc : g.chain k id = some c) : Gone c.current.data := by
  simp only [gcRemoves, Bool.and_eq_true] at hRem
  simpa [isTombstoned, hc, Gone] using hRem.1

/-- What the collection removes is a tombstone to every active transaction. -/
theorem Steady.hidden_of_gcRemoves (hs : Steady g) (hGc : CollectsCommitted g)
    (ht : t ∈ g.txnManager.activeTxns) {c : VersionChain (Data V k) (DeltaOp V)}
    (hRem : g.gcRemoves k id = true) (hc : g.chain k id = some c) : Hidden t c := by
  refine ⟨gone_of_gcRemoves hRem hc, ?_⟩
  have hHead := hGc k id c hRem hc
  have hWm := hs.wf.watermark
  have hle := hs.inOrder.watermark t ht
  have hne : c.current.commitTs ≠ t.txnId :=
    hs.wf.commitTs_ne_id (n := g.counters.1) (by omega) hs.wf.tsBound ht
  rw [hs.wf.isForeign_eq ht hne, decide_eq_false_iff_not]
  omega

/-- An adjacency entry that the collection takes was of an edge that nobody is shown: the
edge itself is a tombstone, or the vertex it was listed under is. -/
theorem Steady.not_visible_of_touched (hs : Steady g) (hDead : CollectsDead g)
    (ht : t ∈ g.txnManager.activeTxns) {n : Neighbor} (hTouched : g.Touched .edge n.eid) :
    g.neighborIsVisible t n = false := by
  have hVertex : ∀ vid, g.gcRemoves .vertex vid = true → g.vertexIsVisible t vid = false := by
    intro vid hRem
    unfold vertexIsVisible
    cases hc : g.vertices vid with
    | none => rfl
    | some c =>
      exact (hs.hidden_of_gcRemoves (k := .vertex) hDead.committed ht hRem hc).chainIsVisible
  unfold neighborIsVisible
  rw [pendingWrite_eq_none (hDead.unstaged t ht .edge n.eid hTouched)]
  dsimp only
  unfold edgeIsVisible
  cases hc : g.edges n.eid with
  | none => rfl
  | some c =>
    rw [Option.elim_some]
    rcases hTouched with hRem | ⟨-, vid, m, hRem, hListed, hEid⟩
    · have hHidden := hs.hidden_of_gcRemoves (k := .edge) hDead.committed ht hRem hc
      rw [hHidden.chainIsVisible (k := .edge), Bool.and_false]
    · rcases hDead.listed vid m hRem hListed c (by rw [hEid]; exact hc) with hEnd | hEnd
      · rw [hEnd, hVertex vid hRem, Bool.and_false, Bool.false_and]
      · rw [hEnd, hVertex vid hRem, Bool.false_and, Bool.false_and]

theorem Steady.alike_garbageCollect (hs : Steady g) (hDead : CollectsDead g)
    (ht : t ∈ g.txnManager.activeTxns) : Alike g g.garbageCollect t := by
  have hShrinks := shrinks_garbageCollect (g := g)
  refine ⟨fun k => by rw [txns_garbageCollect], fun k id => ?_, hShrinks.outgoing,
    hShrinks.incoming, fun v n hn => ?_, fun v n hn => ?_⟩
  · have hChain := chain_garbageCollect (g := g) k id
    by_cases hRem : g.gcRemoves k id = true
    · rw [if_pos hRem] at hChain
      exact .gone hChain (fun c hc => hs.hidden_of_gcRemoves hDead.committed ht hRem hc)
        (hDead.unstaged t ht k id (.inl hRem))
    · rw [if_neg hRem] at hChain
      refine .kept hChain fun c hc _ D undo d => ?_
      have hLive : g.garbageCollect.upgradable = g.upgradable := by
        funext o
        exact upgradable_congr (by rw [txns_garbageCollect])
      rw [hLive]
  · exact (hShrinks.lostOutgoing v n hn).imp_right fun hd =>
      hs.not_visible_of_touched hDead ht hd.touched
  · exact (hShrinks.lostIncoming v n hn).imp_right fun hd =>
      hs.not_visible_of_touched hDead ht hd.touched

/-- **A collection of what is dead is invisible**, in every graph reached by drawn
steps. -/
theorem collection_invisible [DecidableEq V] {trace : List (MemoryGraph V × Action V)}
    {g₀ : MemoryGraph V} (hInit : Initial g₀) (hRun : Run Step Drawn g₀ trace g)
    (hDead : CollectsDead g) : CollectionInvisible g := by
  have hs := steady_run hInit hRun
  have hSteady : Steady g.garbageCollect :=
    steady_step (a := .garbageCollect) hs hDead.committed ⟨trivial, _, rfl, by simp⟩
  have hRemoved : ∀ k id c, g.chain k id = some c → g.garbageCollect.chain k id = none →
      g.gcRemoves k id = true := by
    intro k id c hc hNone
    by_contra hNot
    rw [chain_garbageCollect, if_neg hNot, hc] at hNone
    cases hNone
  refine ⟨fun ids hHeld t ht => ?_, fun k id c hc hNone => ?_, fun t ht k id hWrote hSome => ?_⟩
  · obtain ⟨hChain, hReads⟩ := hSteady.sameReads_releases hHeld ht
    exact (hs.alike_garbageCollect hDead ht).sameReads.trans hReads hChain
  · have hRem := hRemoved k id c hc hNone
    exact ⟨gone_of_gcRemoves hRem hc, hDead.committed k id c hRem hc⟩
  · obtain ⟨c, hc⟩ := Option.isSome_iff_exists.mp hSome
    by_contra hNot
    have hRem := hRemoved k id c hc (Option.not_isSome_iff_eq_none.mp hNot)
    rcases hWrote with hUndo | hIntent
    · -- the head would be the transaction's own, not a committed one
      obtain ⟨c', hc', hOwn⟩ := hs.wf.head_of_entriesFor ht hUndo
      obtain rfl := Option.some.inj (hc.symm.trans hc')
      have hHead := hDead.committed k id c hRem hc
      have hWm := hs.wf.watermark
      exact hs.wf.commitTs_ne_id (n := g.counters.1) (by omega) hs.wf.tsBound ht hOwn
    · rw [hDead.unstaged t ht k id (.inl hRem)] at hIntent
      cases hIntent

/-! ## Two collections -/

section Traces

/-- Edge 1 is created (commit 2) and deleted (commit 4), and transaction 3 begins. -/
def deletedEdgeActions : List (Action Nat) :=
  let t₁ := snapshotTxn 1 1 .pessimistic
  let t₂ := snapshotTxn 2 3 .pessimistic
  [.begin none .snapshot .pessimistic, .op t₁ (.createVertex (.new 1 0 [])),
    .op t₁ (.createVertex (.new 2 0 [])), .op t₁ (.createEdge (.new 1 1 2 0 [7])),
    .commit t₁ none, .begin none .snapshot .pessimistic, .op t₂ (.deleteEdge 1), .commit t₂ none,
    .begin none .snapshot .pessimistic]

/-- What the two collections below depend on. -/
def collectionFacts (g : MemoryGraph Nat) : Option Nat × Bool × Nat × List MemTransaction :=
  ((g.edges 1).map fun c => c.current.commitTs, (g.garbageCollect.edges 1).isSome,
    g.txnManager.watermark, g.txnManager.activeTxns)

/-- **A collection takes an edge from under a running transaction**: transaction 3 has
deleted edge 1 once more, and the collection removes the edge it holds. -/
theorem collection_takes_locked : ∃ trace g,
    Run Step (fun _ _ => True) (.new none .pessimistic .snapshot : MemoryGraph Nat) trace g ∧
    (∀ t ∈ g.txnManager.activeTxns, g.txnManager.watermark ≤ t.startTs) ∧
    ¬ CollectionInvisible g := by
  let t₃ := snapshotTxn 3 5 .pessimistic
  let actions := deletedEdgeActions ++ [.op t₃ (.deleteEdge 1)]
  obtain ⟨trace, g, hList, hFacts⟩ := exists_of_runList
    (show (runList (next fun _ _ => true)
      (.new none .pessimistic .snapshot : MemoryGraph Nat) actions).map
      (fun r => collectionFacts r.2) = some (some t₃.txnId, false, 5, [t₃]) by rfl)
  simp only [collectionFacts, Prod.mk.injEq] at hFacts
  obtain ⟨hHead, hGone, hWm, hActive⟩ := hFacts
  refine ⟨trace, g, Run.of_runList (fun s a s' hNext => ⟨trivial, (step_of_next hNext).2⟩) hList,
    fun t ht => ?_, fun hInv => ?_⟩
  · rw [hActive] at ht
    rw [hWm, List.mem_singleton.mp ht]
    exact Nat.le_refl 5
  · obtain ⟨c, hc, hTs⟩ := Option.map_eq_some_iff.mp hHead
    have hNone : g.garbageCollect.edges 1 = none := by simpa using hGone
    have hle := (hInv.removed .edge 1 c hc hNone).2
    rw [hTs, hWm] at hle
    exact absurd hle (by decide)

/-- Where transaction 3 keeps off the edge, the collection takes it unnoticed. -/
theorem collection_invisible_deletedEdge : ∃ trace g,
    Run Step Drawn (.new none .pessimistic .snapshot : MemoryGraph Nat) trace g ∧
    g.garbageCollect.edges 1 = none ∧ CollectionInvisible g := by
  let t₃ := snapshotTxn 3 5 .pessimistic
  obtain ⟨trace, g, hList, hFacts⟩ := exists_of_runList
    (show (runList (next fun _ a => a.isPlain)
      (.new none .pessimistic .snapshot : MemoryGraph Nat) deletedEdgeActions).map
      (fun r => collectionFacts r.2) = some (some 4, false, 5, [t₃]) by rfl)
  have hNamed : (runList (next fun _ a => a.isPlain)
      (.new none .pessimistic .snapshot : MemoryGraph Nat) deletedEdgeActions).map
        (fun r => (r.2.expiredEdges, r.2.isTombstoned .vertex 1, r.2.isTombstoned .vertex 2)) =
      some ([(1, Edge.new 1 1 2 0 [])], false, false) := by rfl
  have hStaged : (runList (next fun _ a => a.isPlain)
      (.new none .pessimistic .snapshot : MemoryGraph Nat) deletedEdgeActions).map
        (fun r => ((r.2.txns t₃.txnId).vertexWrites, (r.2.txns t₃.txnId).edgeWrites)) =
      some ([], []) := by rfl
  rw [hList, Option.map_some, Option.some.injEq] at hNamed hStaged
  simp only [collectionFacts, Prod.mk.injEq] at hFacts hNamed hStaged
  obtain ⟨hHead, hGone, hWm, hActive⟩ := hFacts
  obtain ⟨hExpired, hOne, hTwo⟩ := hNamed
  obtain ⟨hVertex, hEdge⟩ := hStaged
  have hRun : Run Step Drawn (.new none .pessimistic .snapshot : MemoryGraph Nat) trace g := by
    refine Run.of_runList (fun s a s' hNext => ?_) hList
    obtain ⟨hPlain, hStep⟩ := step_of_next hNext
    exact ⟨drawn_of_isPlain hPlain, hStep⟩
  -- the only entity that the expired edge names and that is a tombstone is the edge
  have hVertices : ∀ vid, g.gcRemoves .vertex vid = false := by
    intro vid
    unfold gcRemoves
    rw [hExpired]
    by_cases h₁ : vid = 1
    · simp [h₁, hOne]
    · by_cases h₂ : vid = 2
      · simp [h₂, hTwo]
      · simp [Edge.new, Ne.symm h₁, Ne.symm h₂]
  have hEdges : ∀ eid, g.gcRemoves .edge eid = true → eid = 1 := by
    intro eid hRem
    unfold gcRemoves at hRem
    rw [hExpired] at hRem
    simp [Edge.new] at hRem
    exact hRem.2.symm
  refine ⟨trace, g, hRun, by simpa using hGone,
    collection_invisible ⟨_, _, rfl⟩ hRun ⟨fun k id c hRem hc => ?_, fun vid n hRem => ?_,
      fun t ht k id _ => ?_⟩⟩
  · cases k with
    | vertex => simp [hVertices id] at hRem
    | edge =>
      obtain rfl := hEdges id hRem
      obtain ⟨c', hc', hTs⟩ := Option.map_eq_some_iff.mp hHead
      obtain rfl := Option.some.inj (hc.symm.trans hc')
      rw [hTs, hWm]
      decide
  · simp [hVertices vid] at hRem
  · rw [hActive] at ht
    rw [List.mem_singleton.mp ht]
    cases k with
    | vertex =>
      unfold TxnState.lookupWrite TxnState.writes
      rw [hVertex]
      rfl
    | edge =>
      unfold TxnState.lookupWrite TxnState.writes
      rw [hEdge]
      rfl

end Traces

end MiniGU.MemoryGraph

namespace MiniGU

namespace ManagerState

variable {s s' : ManagerState} {a : ManagerAction}

/-- The low watermark is at most the start of every active transaction. -/
def Sound (s : ManagerState) : Prop :=
  ∀ t ∈ s.manager.activeTxns, s.manager.watermark ≤ t.startTs

/-- Neither the watermark nor what an update has read is above the start of an active
transaction. -/
structure Safe (s : ManagerState) : Prop where
  sound : s.Sound
  reads : ∀ call ∈ s.calls, ∀ v ∈ call.reading, ∀ t ∈ s.manager.activeTxns, v ≤ t.startTs

/-- A transaction is entered with a start not below the watermark and what updates in progress
have read; an update finds the active transaction with the smallest id to have the smallest start,
or, where it found none, finds no active start below the latest commit. -/
def Orderly (s : ManagerState) : ManagerAction → Prop
  | .insert txn => s.manager.watermark ≤ txn.startTs ∧
      ∀ call ∈ s.calls, ∀ v ∈ call.reading, v ≤ txn.startTs
  | .readFront => ∀ t₀ ∈ s.manager.activeTxns.head?,
      ∀ t ∈ s.manager.activeTxns, t₀.startTs ≤ t.startTs
  | .readLatest none => ∀ t ∈ s.manager.activeTxns, s.manager.latestCommitTs ≤ t.startTs
  | _ => True

instance (s : ManagerState) : (a : ManagerAction) → Decidable (Orderly s a)
  | .insert txn => inferInstanceAs (Decidable (s.manager.watermark ≤ txn.startTs ∧
      ∀ call ∈ s.calls, ∀ v ∈ call.reading, v ≤ txn.startTs))
  | .readFront => inferInstanceAs (Decidable (∀ t₀ ∈ s.manager.activeTxns.head?,
      ∀ t ∈ s.manager.activeTxns, t₀.startTs ≤ t.startTs))
  | .readLatest none => inferInstanceAs
      (Decidable (∀ t ∈ s.manager.activeTxns, s.manager.latestCommitTs ≤ t.startTs))
  | .drawId _ | .drawStart .. | .drawCommit .. | .setLatest .. | .removeCommitted ..
  | .insertCommitted .. | .removeAborted _ | .readLatest (some _) | .readWatermark _
  | .storeWatermark _ => inferInstanceAs (Decidable True)

/-! ## One access -/

theorem resume_some {call : ManagerCall} {f : ManagerState → ManagerState}
    (h : s.resume call f = some s') :
    call ∈ s.calls ∧ s' = f { s with calls := s.calls.erase call } := by
  unfold resume at h
  split at h
  · rename_i hCall
    exact ⟨hCall, (Option.some.inj h).symm⟩
  · cases h

/-- A call goes on that has read nothing, and the active transactions and the watermark stay, but
that some may have ended. -/
def Keeps (s s' : ManagerState) : Prop :=
  s'.manager.watermark = s.manager.watermark ∧
    (∀ t ∈ s'.manager.activeTxns, t ∈ s.manager.activeTxns) ∧
    ∀ call ∈ s'.calls, call ∈ s.calls ∨ call.reading = none

theorem keeps_of_calls (h : s'.manager = s.manager)
    (hCalls : ∀ call ∈ s'.calls, call ∈ s.calls ∨ call.reading = none) : Keeps s s' := by
  refine ⟨by rw [h], fun t ht => ?_, hCalls⟩
  rwa [h] at ht

theorem keeps_cons {call call' : ManagerCall} {m : MemTxnManager} (hNone : call'.reading = none)
    (hWm : m.watermark = s.manager.watermark)
    (hActive : ∀ t ∈ m.activeTxns, t ∈ s.manager.activeTxns) :
    Keeps s { s with manager := m, calls := call' :: s.calls.erase call } := by
  refine ⟨hWm, hActive, fun c hc => ?_⟩
  rcases List.mem_cons.mp hc with rfl | hc
  · exact .inr hNone
  · exact .inl (List.mem_of_mem_erase hc)

theorem Safe.keeps (h : Safe s) (hKeeps : Keeps s s') : Safe s' := by
  obtain ⟨hWm, hActive, hCalls⟩ := hKeeps
  refine ⟨fun t ht => ?_, fun call hc v hv t ht => ?_⟩
  · rw [hWm]
    exact h.sound t (hActive t ht)
  · rcases hCalls call hc with hOld | hNone
    · exact h.reads call hOld v hv t (hActive t ht)
    · rw [hNone] at hv
      cases hv

/-- An update in progress goes on: it is safe if what it has read now is. -/
theorem Safe.cons_iff (h : Safe s) {call call' : ManagerCall} :
    Safe { s with calls := call' :: s.calls.erase call } ↔
      ∀ v ∈ call'.reading, ∀ t ∈ s.manager.activeTxns, v ≤ t.startTs := by
  constructor
  · exact fun hSafe => hSafe.reads call' (List.mem_cons_self ..)
  · refine fun hNew => ⟨h.sound, fun c hc v hv t ht => ?_⟩
    rcases List.mem_cons.mp hc with rfl | hc
    · exact hNew v hv t ht
    · exact h.reads c (List.mem_of_mem_erase hc) v hv t ht

theorem Safe.insert_iff (h : Safe s) {txn : MemTransaction} :
    Safe ({ s with
      manager := s.manager.insertActive txn
      calls := .updating :: s.calls.erase (.startDrawn txn) }) ↔ Orderly s (.insert txn) := by
  constructor
  · intro hSafe
    refine ⟨hSafe.sound txn (SkipList.mem_insert_self ..), fun call hc v hv => ?_⟩
    have hNe : call ≠ .startDrawn txn := by
      rintro rfl
      cases hv
    have hOld : call ∈ s.calls.erase (.startDrawn txn) := (List.mem_erase_of_ne hNe).mpr hc
    exact hSafe.reads call (List.mem_cons_of_mem _ hOld) v hv txn (SkipList.mem_insert_self ..)
  · rintro ⟨hWm, hReads⟩
    refine ⟨fun t ht => ?_, fun call hc v hv t ht => ?_⟩
    · rcases SkipList.mem_of_mem_insert ht with rfl | ht
      · exact hWm
      · exact h.sound t ht
    · rcases List.mem_cons.mp hc with rfl | hc
      · cases hv
      · rcases SkipList.mem_of_mem_insert ht with rfl | ht
        · exact hReads call (List.mem_of_mem_erase hc) v hv
        · exact h.reads call (List.mem_of_mem_erase hc) v hv t ht

/-- **One access leaves a safe state exactly when it is orderly.** -/
theorem safe_step_iff (hs : Step s a s') (h : Safe s) : Safe s' ↔ Orderly s a := by
  -- an insert and the reads of a new minimum can go wrong; the others keep what calls hold
  unfold Step next at hs
  cases a with
  | drawId txnId =>
    dsimp only at hs
    split at hs
    · cases hs
    · obtain rfl := Option.some.inj hs
      refine iff_of_true (h.keeps (keeps_of_calls rfl fun call hc => ?_)) trivial
      rcases List.mem_cons.mp hc with rfl | hc
      · exact .inr rfl
      · exact .inl hc
  | drawStart txnId startTs iso lock =>
    obtain ⟨-, rfl⟩ := resume_some hs
    refine iff_of_true (h.keeps ?_) trivial
    dsimp only
    split
    · exact keeps_of_calls rfl fun call hc => .inl (List.mem_of_mem_erase hc)
    · refine keeps_of_calls rfl fun call hc => ?_
      rcases List.mem_cons.mp hc with rfl | hc
      · exact .inr rfl
      · exact .inl (List.mem_of_mem_erase hc)
  | insert txn =>
    obtain ⟨-, rfl⟩ := resume_some hs
    exact h.insert_iff
  | drawCommit txn commitTs =>
    dsimp only at hs
    split at hs
    · split at hs
      · cases hs
      · obtain rfl := Option.some.inj hs
        refine iff_of_true (h.keeps (keeps_of_calls rfl fun call hc => ?_)) trivial
        rcases List.mem_cons.mp hc with rfl | hc
        · exact .inr rfl
        · exact .inl hc
    · cases hs
  | setLatest txn commitTs =>
    obtain ⟨-, rfl⟩ := resume_some hs
    exact iff_of_true (h.keeps (keeps_cons rfl rfl fun t ht => ht)) trivial
  | removeCommitted txn commitTs =>
    obtain ⟨-, rfl⟩ := resume_some hs
    exact iff_of_true (h.keeps (keeps_cons rfl rfl fun t ht => List.mem_of_mem_filter ht)) trivial
  | insertCommitted txn commitTs =>
    obtain ⟨-, rfl⟩ := resume_some hs
    exact iff_of_true (h.keeps (keeps_cons rfl rfl fun t ht => ht)) trivial
  | removeAborted txn =>
    dsimp only at hs
    split at hs
    · obtain rfl := Option.some.inj hs
      refine iff_of_true (h.keeps ⟨rfl, fun t ht => List.mem_of_mem_filter ht, fun call hc => ?_⟩)
        trivial
      rcases List.mem_cons.mp hc with rfl | hc
      · exact .inr rfl
      · exact .inl hc
    · cases hs
  | readFront =>
    obtain ⟨-, rfl⟩ := resume_some hs
    refine h.cons_iff.trans ⟨fun hNew t₀ ht₀ => hNew _ ?_, fun hOrd v hv => ?_⟩
    · rw [Option.mem_def, ManagerCall.reading, ht₀, Option.map_some]
    · obtain ⟨t₀, ht₀, rfl⟩ := Option.map_eq_some_iff.mp hv
      exact hOrd t₀ ht₀
  | readLatest startTs =>
    obtain ⟨hCall, rfl⟩ := resume_some hs
    refine h.cons_iff.trans ?_
    cases startTs with
    | none => exact ⟨fun hNew => hNew _ rfl, fun hOrd v hv => Option.some.inj hv ▸ hOrd⟩
    | some front =>
      refine iff_of_true (fun v hv => ?_) trivial
      exact h.reads _ hCall v hv
  | readWatermark minTs =>
    obtain ⟨hCall, rfl⟩ := resume_some hs
    refine iff_of_true (h.cons_iff.mpr fun v hv t ht => ?_) trivial
    obtain rfl := Option.some.inj hv
    exact Nat.max_le.mpr ⟨h.reads _ hCall _ rfl t ht, h.sound t ht⟩
  | storeWatermark minTs =>
    obtain ⟨hCall, rfl⟩ := resume_some hs
    exact iff_of_true ⟨h.reads _ hCall _ rfl, fun call hc => h.reads call
      (List.mem_of_mem_erase hc)⟩ trivial

/-! ## Runs -/

theorem safe_new (gcThreshold : Option Nat) (lock : LockStrategy) (iso : IsolationLevel) :
    Safe (.new gcThreshold lock iso) where
  sound _ ht := (nomatch ht)
  reads _ hc := (nomatch hc)

/-- **Watermark soundness**: along a run of orderly accesses from a fresh manager, the watermark is
sound in every state. -/
theorem watermark_sound {gcThreshold : Option Nat} {lock : LockStrategy}
    {iso : IsolationLevel} {trace : List (ManagerState × ManagerAction)}
    (hRun : Run Step Orderly (.new gcThreshold lock iso) trace s) :
    Sound s ∧ ∀ p ∈ trace, Sound p.1 := by
  have hSafe : Safe s ∧ ∀ p ∈ trace, Safe p.1 := by
    refine hRun.invariant (I := fun trace s => Safe s ∧ ∀ p ∈ trace, Safe p.1)
      ⟨safe_new .., by simp⟩ fun trace s a s' _ ⟨hSafe, hTrace⟩ hOrd hs => ?_
    refine ⟨(safe_step_iff hs hSafe).mpr hOrd, fun p hp => ?_⟩
    rcases List.mem_append.mp hp with hp | hp
    · exact hTrace p hp
    · rw [List.mem_singleton.mp hp]
      exact hSafe
  exact ⟨hSafe.1.sound, fun p hp => (hSafe.2 p hp).sound⟩

/-- Two begins that cross: the first draws its id, the second runs to its end, and only
then does the first draw its start. -/
def crossingBegins : List ManagerAction :=
  let t₁ : MemTransaction := ⟨Timestamp.txnIdStart + 1, 2, .snapshot, .pessimistic⟩
  let t₂ : MemTransaction := ⟨Timestamp.txnIdStart + 2, 1, .snapshot, .pessimistic⟩
  [.drawId none, .drawId none, .drawStart t₂.txnId none .snapshot .pessimistic, .insert t₂,
    .readFront, .readLatest (some 1), .readWatermark 1, .storeWatermark 1,
    .drawStart t₁.txnId none .snapshot .pessimistic, .insert t₁,
    .readFront, .readLatest (some 2), .readWatermark 2, .storeWatermark 2]

/-- **The watermark overtakes an active transaction**: it is 2 while the second begin's
transaction, started at 1, is active. -/
theorem watermark_overtakes : ∃ trace s,
    Run Step (fun _ _ => True) (.new (some gcTriggerThreshold) .pessimistic .snapshot) trace s ∧
    ¬ Sound s := by
  obtain ⟨trace, s, hList, hManager⟩ := exists_of_runList
    (show (runList next (.new (some gcTriggerThreshold) .pessimistic .snapshot) crossingBegins).map
      (fun r => (r.2.manager.watermark, r.2.manager.activeTxns.map MemTransaction.startTs)) =
      some (2, [2, 1]) by rfl)
  rw [Prod.mk.injEq] at hManager
  refine ⟨trace, s, Run.of_runList (fun _ _ _ hNext => ⟨trivial, hNext⟩) hList, fun hSound => ?_⟩
  have hMem : 1 ∈ s.manager.activeTxns.map MemTransaction.startTs := by
    rw [hManager.2]
    decide
  obtain ⟨t, ht, hStart⟩ := List.mem_map.mp hMem
  have hWm : s.manager.watermark = 2 := hManager.1
  have hle := hSound t ht
  omega

/-- One begin followed by its commit. -/
def singleTxn : List ManagerAction :=
  let t : MemTransaction := ⟨Timestamp.txnIdStart + 1, 1, .snapshot, .pessimistic⟩
  [.drawId none, .drawStart t.txnId none .snapshot .pessimistic, .insert t,
    .readFront, .readLatest (some 1), .readWatermark 1, .storeWatermark 1,
    .drawCommit t none, .setLatest t 2, .removeCommitted t 2, .insertCommitted t 2,
    .readFront, .readLatest none, .readWatermark 2, .storeWatermark 2]

/-- One transaction begins and commits uninterrupted: the watermark ends at its commit. -/
theorem watermark_sound_single : ∃ trace s,
    Run Step Orderly (.new (some gcTriggerThreshold) .pessimistic .snapshot) trace s ∧
    s.manager.watermark = 2 ∧ Sound s ∧ ∀ p ∈ trace, Sound p.1 := by
  have hNext : ∀ s a s', (if Orderly s a then next s a else none) = some s' →
      Orderly s a ∧ Step s a s' := by
    intro s a s' h
    split at h
    · rename_i hOrderly
      exact ⟨hOrderly, h⟩
    · cases h
  obtain ⟨trace, s, hList, hWm⟩ := exists_of_runList
    (show (runList (fun s a => if Orderly s a then next s a else none)
      (.new (some gcTriggerThreshold) .pessimistic .snapshot) singleTxn).map
      (fun r => r.2.manager.watermark) = some 2 by rfl)
  have hRun := Run.of_runList hNext hList
  exact ⟨trace, s, hRun, hWm, watermark_sound hRun⟩

end ManagerState

end MiniGU
