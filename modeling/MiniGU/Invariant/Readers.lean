import Mathlib.Data.List.Perm.Basic
import MiniGU.Invariant.Adjacency
import MiniGU.Invariant.Stable

/-!
# What a transaction is shown

`SameReads g h t`: no point read, scan or adjacency scan of `t` tells the graphs `g` and
`h` apart. `Alike` is what has to be checked chain by chain to conclude it
(`Alike.sameReads`): a chain may lose records that the walks of `t` do not reach, and an
entity whose head is a tombstone to `t` may be gone altogether.
-/

namespace MiniGU

variable {V : Type}

/-- Two listings that agree where `f` yields something yield the same items. -/
theorem perm_filterMap {α β : Type} {f : α → Option β} {l l' : List α} (hl : l.Nodup)
    (hl' : l'.Nodup) (h : ∀ a, (f a).isSome = true → (a ∈ l ↔ a ∈ l')) :
    (l.filterMap f).Perm (l'.filterMap f) := by
  have hFilter : ∀ l : List α, l.filterMap f = (l.filter fun a => (f a).isSome).filterMap f := by
    intro l
    rw [List.filterMap_filter]
    refine List.filterMap_congr fun a _ => ?_
    cases f a <;> rfl
  rw [hFilter l, hFilter l']
  refine List.Perm.filterMap _ ?_
  rw [List.perm_ext_iff_of_nodup (hl.filter _) (hl'.filter _)]
  intro a
  rw [List.mem_filter, List.mem_filter]
  constructor
  · exact fun ⟨ha, hf⟩ => ⟨(h a hf).mp ha, hf⟩
  · exact fun ⟨ha, hf⟩ => ⟨(h a hf).mpr ha, hf⟩

namespace MemoryGraph

/-- No read of `t` tells `g` and `h` apart. A point read is compared by what it finds:
an absent entity and a tombstone differ in their error only. -/
structure SameReads (g h : MemoryGraph V) (t : MemTransaction) : Prop where
  get : ∀ k id, (h.readEntity t k id).toOption = (g.readEntity t k id).toOption
  scan : ∀ k filter keys keys', g.ListsKeys k keys → h.ListsKeys k keys' →
    (h.iterItems t k keys' filter).Perm (g.iterItems t k keys filter)
  adjacency : ∀ vid dir filter n,
    n ∈ h.iterAdjacency t vid dir filter ↔ n ∈ g.iterAdjacency t vid dir filter

/-- The walks of `t` through a chain end alike in both graphs, whatever they compute. -/
def SameWalks (g h : MemoryGraph V) (t : MemTransaction) (ptr : UndoPtr (DeltaOp V)) : Prop :=
  ∀ {D : Type} (undo : DeltaOp V → D → D) (d : D),
    walk undo h.upgradable t.startTs d ptr = walk undo g.upgradable t.startTs d ptr

/-- The head is a tombstone, and `t` reads the head. -/
def Hidden (t : MemTransaction) {k : Kind} (c : VersionChain (Data V k) (DeltaOp V)) : Prop :=
  Gone c.current.data ∧ t.isForeign c.current.commitTs = false

/-- The two ways in which an entity may look to `t` as it did. -/
inductive AlikeAt (g h : MemoryGraph V) (t : MemTransaction) (k : Kind) (id : Nat) : Prop where
  | kept (hChain : h.chain k id = g.chain k id)
      (hWalks : ∀ c, g.chain k id = some c → t.isForeign c.current.commitTs = true →
        SameWalks g h t c.undoPtr)
  | gone (hNone : h.chain k id = none) (hHidden : ∀ c, g.chain k id = some c → Hidden t c)
      (hIntent : (g.txns t.txnId).lookupWrite k id = none)

/-- What `SameReads` comes down to. -/
structure Alike (g h : MemoryGraph V) (t : MemTransaction) : Prop where
  intents : ∀ k, (h.txns t.txnId).writes k = (g.txns t.txnId).writes k
  entity : ∀ k id, AlikeAt g h t k id
  outgoing : ∀ v n, n ∈ h.outgoing v → n ∈ g.outgoing v
  incoming : ∀ v n, n ∈ h.incoming v → n ∈ g.incoming v
  lostOutgoing : ∀ v n, n ∈ g.outgoing v → n ∈ h.outgoing v ∨ g.neighborIsVisible t n = false
  lostIncoming : ∀ v n, n ∈ g.incoming v → n ∈ h.incoming v ∨ g.neighborIsVisible t n = false

variable {g h : MemoryGraph V} {t : MemTransaction} {k : Kind} {id : Nat}
  {c : VersionChain (Data V k) (DeltaOp V)}

/-! ## One chain -/

theorem visibleData_of_sameWalks
    (hw : t.isForeign c.current.commitTs = true → SameWalks g h t c.undoPtr) :
    h.visibleData t c = g.visibleData t c := by
  unfold visibleData applyDeltasForRead
  split
  · rename_i hForeign
    exact hw hForeign _ _
  · rfl

theorem getVisible_of_sameWalks
    (hw : t.isForeign c.current.commitTs = true → SameWalks g h t c.undoPtr) :
    h.getVisible t c = g.getVisible t c := by
  unfold getVisible applyDeltasForRead
  rw [MemTransaction.isOwnOrVisible_eq_not_isForeign]
  cases hForeign : t.isForeign c.current.commitTs with
  | false => rfl
  | true => rw [hw hForeign]

theorem chainIsVisible_of_sameWalks
    (hw : t.isForeign c.current.commitTs = true → SameWalks g h t c.undoPtr) :
    h.chainIsVisible t c = g.chainIsVisible t c := by
  unfold chainIsVisible
  rw [MemTransaction.isOwnOrVisible_eq_not_isForeign]
  cases hForeign : t.isForeign c.current.commitTs with
  | false => rfl
  | true => rw [hw hForeign]

theorem Hidden.visibleData (hh : Hidden t c) : (g.visibleData t c).isTombstone = true := by
  unfold MemoryGraph.visibleData
  rw [hh.2]
  exact hh.1

theorem Hidden.getVisible (hh : Hidden t c) : (g.getVisible t c).toOption = none := by
  have hTomb : c.current.data.isTombstone = true := hh.1
  unfold MemoryGraph.getVisible
  rw [MemTransaction.isOwnOrVisible_eq_not_isForeign, hh.2]
  simp [hTomb, Except.toOption]

theorem Hidden.chainIsVisible (hh : Hidden t c) : g.chainIsVisible t c = false := by
  have hTomb : c.current.data.isTombstone = true := hh.1
  unfold MemoryGraph.chainIsVisible
  rw [MemTransaction.isOwnOrVisible_eq_not_isForeign, hh.2]
  simp [hTomb]

/-! ## Point reads and scans -/

theorem Alike.pendingWrite (ha : Alike g h t) (k : Kind) (id : Nat) :
    h.pendingWrite t k id = g.pendingWrite t k id := by
  unfold MemoryGraph.pendingWrite TxnState.lookupWrite
  rw [ha.intents]

theorem pendingWrite_eq_none (hIntent : (g.txns t.txnId).lookupWrite k id = none) :
    g.pendingWrite t k id = none := by
  unfold pendingWrite
  rw [hIntent, ite_self]

theorem Alike.readEntity (ha : Alike g h t) (k : Kind) (id : Nat) :
    (h.readEntity t k id).toOption = (g.readEntity t k id).toOption := by
  unfold MemoryGraph.readEntity
  rw [ha.pendingWrite]
  cases ha.entity k id with
  | kept hChain hWalks =>
    rw [hChain]
    cases hc : g.chain k id with
    | none => rfl
    | some c => simp only [visibleData_of_sameWalks (hWalks c hc)]
  | gone hNone hHidden hIntent =>
    rw [pendingWrite_eq_none hIntent, hNone]
    cases hc : g.chain k id with
    | none => rfl
    | some c => simp [(hHidden c hc).visibleData, Except.toOption]

theorem Alike.iterItem (ha : Alike g h t) (filter : Data V k → Bool) (id : Nat) :
    h.iterItem t k filter id = g.iterItem t k filter id := by
  unfold MemoryGraph.iterItem
  rw [ha.pendingWrite]
  cases ha.entity k id with
  | kept hChain hWalks =>
    rw [hChain]
    cases hc : g.chain k id with
    | none => rfl
    | some c => simp only [getVisible_of_sameWalks (hWalks c hc)]
  | gone hNone hHidden hIntent =>
    rw [pendingWrite_eq_none hIntent, hNone]
    cases hc : g.chain k id with
    | none => rfl
    | some c => simp [(hHidden c hc).getVisible]

theorem Alike.pendingInserts (ha : Alike g h t) (k : Kind) :
    h.pendingInserts t k = g.pendingInserts t k := by
  unfold MemoryGraph.pendingInserts
  rw [ha.intents]
  split
  · refine List.filterMap_congr fun w hw => ?_
    cases ha.entity k w.1 with
    | kept hChain _ => rw [hChain]
    | gone _ _ hIntent => exact absurd (List.mem_map.mpr ⟨w, hw, rfl⟩) (lookup_eq_none_iff.mp hIntent)
  · rfl

theorem isSome_of_iterItem {filter : Data V k → Bool}
    (hSome : (g.iterItem t k filter id).isSome = true) : (g.chain k id).isSome = true := by
  unfold iterItem at hSome
  split at hSome
  · cases hSome
  · rename_i c hc
    rw [hc]
    rfl

theorem Alike.iterItems (ha : Alike g h t) (filter : Data V k → Bool) {keys keys' : List Nat}
    (hKeys : g.ListsKeys k keys) (hKeys' : h.ListsKeys k keys') :
    (h.iterItems t k keys' filter).Perm (g.iterItems t k keys filter) := by
  unfold MemoryGraph.iterItems
  have hItem : h.iterItem t k filter = g.iterItem t k filter := funext (ha.iterItem filter)
  rw [ha.pendingInserts, hItem]
  refine List.Perm.append_right _ (perm_filterMap hKeys'.nodup hKeys.nodup fun id hSome => ?_)
  -- an item that is yielded is in both maps
  have hMem := (hKeys.mem_iff id).mpr (isSome_of_iterItem hSome)
  rw [← hItem] at hSome
  have hMem' := (hKeys'.mem_iff id).mpr (isSome_of_iterItem hSome)
  exact ⟨fun _ => hMem, fun _ => hMem'⟩

/-! ## Adjacency scans -/

theorem Alike.vertexIsVisible (ha : Alike g h t) (vid : Nat) :
    h.vertexIsVisible t vid = g.vertexIsVisible t vid := by
  have hEq : ∀ f : MemoryGraph V, f.vertexIsVisible t vid =
      (f.chain .vertex vid).elim false fun c => f.chainIsVisible (k := .vertex) t c := fun _ => rfl
  rw [hEq, hEq]
  cases ha.entity .vertex vid with
  | kept hChain hWalks =>
    rw [hChain]
    cases hc : g.chain .vertex vid with
    | none => rfl
    | some c => exact chainIsVisible_of_sameWalks (k := .vertex) (hWalks c hc)
  | gone hNone hHidden _ =>
    rw [hNone]
    cases hc : g.chain .vertex vid with
    | none => rfl
    | some c => exact ((hHidden c hc).chainIsVisible (k := .vertex)).symm

theorem Alike.edgeIsVisible (ha : Alike g h t) (eid : Nat) :
    h.edgeIsVisible t eid = g.edgeIsVisible t eid := by
  have hEq : ∀ f : MemoryGraph V, f.edgeIsVisible t eid =
      (f.chain .edge eid).elim false fun c =>
        f.vertexIsVisible t (Edge.dstId c.current.data) &&
          f.vertexIsVisible t (Edge.srcId c.current.data) &&
          f.chainIsVisible (k := .edge) t c := fun _ => rfl
  rw [hEq, hEq]
  cases ha.entity .edge eid with
  | kept hChain hWalks =>
    rw [hChain]
    cases hc : g.chain .edge eid with
    | none => rfl
    | some c =>
      simp only [Option.elim_some, ha.vertexIsVisible,
        chainIsVisible_of_sameWalks (k := .edge) (hWalks c hc)]
  | gone hNone hHidden _ =>
    rw [hNone]
    cases hc : g.chain .edge eid with
    | none => rfl
    | some c => simp [(hHidden c hc).chainIsVisible (k := .edge)]

theorem Alike.neighborIsVisible (ha : Alike g h t) (n : Neighbor) :
    h.neighborIsVisible t n = g.neighborIsVisible t n := by
  unfold MemoryGraph.neighborIsVisible
  rw [ha.pendingWrite, ha.edgeIsVisible]

/-- Whether an entry is in the overlaid set depends on whether it was in the set. -/
theorem mem_overlayEdge_congr {n : Neighbor} {l l' : List Neighbor} (hIff : n ∈ l ↔ n ∈ l')
    (vid : Nat) (dir : Direction) (w : WriteKind (Edge V)) :
    n ∈ overlayEdge vid dir l w ↔ n ∈ overlayEdge vid dir l' w := by
  have hIns : ∀ (b : Bool) (m : Neighbor) {l l' : List Neighbor}, (n ∈ l ↔ n ∈ l') →
      (n ∈ (if b then SkipList.insert Neighbor.lt m l else l) ↔
        n ∈ (if b then SkipList.insert Neighbor.lt m l' else l')) := by
    intro b m l l' hIff
    cases b with
    | false => exact hIff
    | true => simp only [if_true, Neighbor.mem_insert, hIff]
  have hRem : ∀ (b : Bool) (m : Neighbor) {l l' : List Neighbor}, (n ∈ l ↔ n ∈ l') →
      (n ∈ (if b then SkipList.remove Neighbor.lt m l else l) ↔
        n ∈ (if b then SkipList.remove Neighbor.lt m l' else l')) := by
    intro b m l l' hIff
    cases b with
    | false => exact hIff
    | true => simp only [if_true, Neighbor.mem_remove, hIff]
  -- an insert and an update lay the new image over the set in the same way
  have hImage : ∀ e : Edge V, n ∈ overlayEdge vid dir l (.insert e) ↔
      n ∈ overlayEdge vid dir l' (.insert e) := by
    intro e
    cases hTomb : e.isTombstone with
    | true => simpa only [overlayEdge, hTomb, if_true] using hIff
    | false =>
      simp only [overlayEdge, hTomb, Bool.false_eq_true, if_false]
      exact hIns _ _ (hIns _ _ hIff)
  cases w with
  | insert e => exact hImage e
  | update before e => exact hImage e
  | delete e => exact hRem _ _ (hRem _ _ hIff)

theorem mem_foldl_insert {n : Neighbor} (l l' : List Neighbor) :
    n ∈ l.foldl (fun l m => SkipList.insert Neighbor.lt m l) l' ↔ n ∈ l ∨ n ∈ l' := by
  induction l generalizing l' with
  | nil => simp
  | cons m l ih =>
    rw [List.foldl_cons, ih, Neighbor.mem_insert, List.mem_cons]
    tauto

/-- Of the neighbours that the transaction sees, both graphs list the same. -/
theorem Alike.mem_adjacencyEntries (ha : Alike g h t) {n : Neighbor}
    (hVis : g.neighborIsVisible t n = true) (vid : Nat) (dir : Direction) :
    n ∈ h.adjacencyEntries t vid dir ↔ n ∈ g.adjacencyEntries t vid dir := by
  have hOut : n ∈ h.outgoing vid ↔ n ∈ g.outgoing vid :=
    ⟨ha.outgoing vid n, fun hn => (ha.lostOutgoing vid n hn).resolve_right (by simp [hVis])⟩
  have hIn : n ∈ h.incoming vid ↔ n ∈ g.incoming vid :=
    ⟨ha.incoming vid n, fun hn => (ha.lostIncoming vid n hn).resolve_right (by simp [hVis])⟩
  have hFold : ∀ (ws : List (Nat × WriteIntent (Edge V))) {l l' : List Neighbor},
      (n ∈ l ↔ n ∈ l') → (n ∈ ws.foldl (fun l w => overlayEdge vid dir l w.2.kind) l ↔
        n ∈ ws.foldl (fun l w => overlayEdge vid dir l w.2.kind) l') := by
    intro ws
    induction ws with
    | nil => exact id
    | cons w ws ih => exact fun hIff => ih (mem_overlayEdge_congr hIff vid dir w.2.kind)
  have hWrites : (h.txns t.txnId).edgeWrites = (g.txns t.txnId).edgeWrites := ha.intents .edge
  unfold adjacencyEntries
  rw [hWrites]
  cases dir with
  | incoming =>
    dsimp only
    split
    · exact hFold _ hIn
    · exact hIn
  | outgoing =>
    dsimp only
    split
    · exact hFold _ hOut
    · exact hOut
  | both =>
    have hBoth : n ∈ (h.outgoing vid).foldl (fun l m => SkipList.insert Neighbor.lt m l)
        (h.incoming vid) ↔ n ∈ (g.outgoing vid).foldl
          (fun l m => SkipList.insert Neighbor.lt m l) (g.incoming vid) := by
      rw [mem_foldl_insert, mem_foldl_insert, hOut, hIn]
    dsimp only
    split
    · exact hFold _ hBoth
    · exact hBoth

/-- **Graphs that look alike read the same.** -/
theorem Alike.sameReads (ha : Alike g h t) : SameReads g h t := by
  refine ⟨ha.readEntity, fun k filter keys keys' => ha.iterItems filter,
    fun vid dir filter n => ?_⟩
  unfold iterAdjacency
  rw [List.mem_filter, List.mem_filter, ha.neighborIsVisible]
  constructor
  · rintro ⟨hMem, hTest⟩
    exact ⟨(ha.mem_adjacencyEntries (Bool.and_eq_true_iff.mp hTest).1 vid dir).mp hMem, hTest⟩
  · rintro ⟨hMem, hTest⟩
    exact ⟨(ha.mem_adjacencyEntries (Bool.and_eq_true_iff.mp hTest).1 vid dir).mpr hMem, hTest⟩

/-- A graph that keeps the maps, the intents of `t` and the adjacency lists, and whose
buffers are as good to `t` as before. -/
theorem alike_of_walks (hChain : h.chain = g.chain)
    (hIntents : ∀ k, (h.txns t.txnId).writes k = (g.txns t.txnId).writes k)
    (hAdj : h.adjacencyList = g.adjacencyList)
    (hWalks : ∀ k id c, g.chain k id = some c → t.isForeign c.current.commitTs = true →
      SameWalks g h t c.undoPtr) : Alike g h t := by
  have hOut := outgoing_of_adjacencyList hAdj
  have hIn := incoming_of_adjacencyList hAdj
  refine ⟨hIntents, fun k id => .kept (by rw [hChain]) (hWalks k id), ?_, ?_, ?_, ?_⟩
  · intro v n hn
    rwa [hOut] at hn
  · intro v n hn
    rwa [hIn] at hn
  · intro v n hn
    rw [hOut]
    exact .inl hn
  · intro v n hn
    rw [hIn]
    exact .inl hn

theorem SameReads.trans {f : MemoryGraph V} (hs : SameReads f g t) (hs' : SameReads g h t)
    (hChain : h.chain = g.chain) : SameReads f h t := by
  refine ⟨fun k id => (hs'.get k id).trans (hs.get k id), fun k filter keys keys' hk hk' => ?_,
    fun vid dir filter n => (hs'.adjacency vid dir filter n).trans (hs.adjacency vid dir filter n)⟩
  have hKeys : g.ListsKeys k keys' := ⟨hk'.nodup, fun id => by rw [← hChain]; exact hk'.mem_iff id⟩
  exact (hs'.scan k filter keys' keys' hKeys hk').trans (hs.scan k filter keys keys' hk hKeys)

/-! ## Releases -/

theorem Steady.sameWalks_release (hs : Steady g) {o : Nat} (hHeld : g.isHeld o = false)
    (ht : t ∈ g.txnManager.activeTxns) (hc : g.chain k id = some c)
    (hForeign : t.isForeign c.current.commitTs = true) :
    SameWalks g (g.release o) t c.undoPtr := by
  intro D undo d
  have hne : c.current.commitTs ≠ t.txnId := by
    intro heq
    have hId := (hs.wf.activeId t ht).1
    unfold MemTransaction.isForeign Timestamp.isCommitTs at hForeign
    rw [heq] at hForeign
    have : ¬ t.txnId < Timestamp.txnIdStart := by omega
    simp [this] at hForeign
  rw [hs.wf.isForeign_eq ht hne, decide_eq_true_eq] at hForeign
  refine (hs.layers k id c hc).walk_congr hForeign ((hs.apart t ht).record k id c hc) ?_ d
  intro u hDiff
  -- only the released buffer changes, and only when it was not empty
  obtain rfl : u = o := by
    by_contra hu
    refine hDiff (upgradable_congr ?_)
    unfold release
    rw [txns_modifyTxn_of_ne g _ hu]
  have hBuf : (g.txns u).undoBuffer ≠ [] := by
    intro hEmpty
    refine hDiff (upgradable_congr ?_)
    unfold release
    rw [txns_modifyTxn_self, hEmpty]
  obtain ⟨ts, hTs, hle⟩ := hs.keeps.buffer u hBuf hHeld
  exact ⟨ts, hTs, Nat.le_trans hle (hs.inOrder.watermark t ht)⟩

theorem Steady.sameReads_release (hs : Steady g) {o : Nat} (hHeld : g.isHeld o = false)
    (ht : t ∈ g.txnManager.activeTxns) : SameReads g (g.release o) t := by
  refine (alike_of_walks (chain_modifyTxn ..) (fun k => ?_) rfl fun k id c hc hForeign =>
    hs.sameWalks_release hHeld ht hc hForeign).sameReads
  rw [txns_modifyTxn_of_ne g _ (ne_of_isHeld hHeld ht)]

/-- **Freed buffers show in no read**: nobody holds the transactions that are released. -/
theorem Steady.sameReads_releases [DecidableEq V] (hs : Steady g) {ids : List Nat}
    (hHeld : ∀ o ∈ ids, g.isHeld o = false) (ht : t ∈ g.txnManager.activeTxns) :
    (ids.foldl release g).chain = g.chain ∧ SameReads g (ids.foldl release g) t := by
  induction ids generalizing g with
  | nil =>
    exact ⟨rfl, (alike_of_walks rfl (fun _ => rfl) rfl fun _ _ _ _ _ _ _ _ => rfl).sameReads⟩
  | cons o ids ih =>
    have hFree := hHeld o (List.mem_cons_self ..)
    have hSteady : Steady (g.release o) :=
      steady_step (a := .release o) hs trivial ⟨hFree, _, rfl, by simp⟩
    have hChain : (g.release o).chain = g.chain := chain_modifyTxn ..
    obtain ⟨hRest, hReads⟩ := ih hSteady (fun o' ho' => hHeld o' (List.mem_cons_of_mem _ ho')) ht
    exact ⟨hRest.trans hChain, (hs.sameReads_release hFree ht).trans hReads hRest⟩

end MemoryGraph

end MiniGU
