import MiniGU.Invariant.Keys
import MiniGU.Invariant.Snapshot

/-!
# What a write intent stands for

An optimistic transaction folds its writes of one entity into one intent. What the intent
should stand for is stated apart from it: the version of the entity in the transaction's
snapshot (`snapshotVersion`), and the operations applied to that version one after the other
(`EntityOp.apply`).
-/

namespace MiniGU

variable {V : Type}

/-- What one call does to one entity. -/
inductive EntityOp (V : Type) (k : Kind) where
  | create (d : Data V k)
  | delete
  | setProps (indices : List Nat) (props : List V)

/-- The operation on the value of the entity, which is `none` where there is none. -/
def EntityOp.apply {k : Kind} : EntityOp V k → Option (Data V k) → Option (Data V k)
  | .create d, _ => d.alive
  | .delete, _ => none
  | .setProps indices props, value => value.map fun d => d.setProps indices props

theorem alive_setProps {k : Kind} (d : Data V k) (indices : List Nat) (props : List V) :
    (d.setProps indices props).alive = d.alive.map fun d => d.setProps indices props := by
  unfold Data.alive
  rw [Data.isTombstone_setProps]
  cases d.isTombstone <;> rfl

namespace MemoryGraph

variable {g g' g₁ : MemoryGraph V} {txn : MemTransaction} {k : Kind} {id : Nat}
  {c : VersionChain (Data V k) (DeltaOp V)}

/-! ## The version in the snapshot -/

/-- The versions behind `d`, the newest first, with their stamps. -/
def olderVersions (live : Nat → Bool) : Data V k → UndoPtr (DeltaOp V) → List (Data V k × Nat)
  | _, [] => []
  | d, r :: rest =>
    if live r.owner then
      (r.delta.undo d, r.timestamp) :: olderVersions live (r.delta.undo d) rest
    else []

/-- The version of an entity in the snapshot of `txn`, with its stamp: the head where it is
the transaction's own or committed no later than its start, else the newest older version
committed no later. -/
def snapshotVersion (g : MemoryGraph V) (txn : MemTransaction) (k : Kind) (id : Nat) :
    Option (Data V k × Nat) :=
  (g.chain k id).bind fun c =>
    (if txn.isOwnOrVisible c.current.commitTs then some (c.current.data, c.current.commitTs)
      else (olderVersions g.upgradable c.current.data c.undoPtr).find? fun v =>
        decide (v.2 ≤ txn.startTs)).filter fun v => !v.1.isTombstone

/-- The writers' walk stops at the first version committed no later than the start. -/
theorem find?_olderVersions_of_walk {live : Nat → Bool} {s : Nat} {ptr : UndoPtr (DeltaOp V)}
    {d : Data V k} {ts : Nat} (hLate : s < ts) (hFound : (snapshotWalk live s d ts ptr).2 ≤ s) :
    (olderVersions live d ptr).find? (fun v => decide (v.2 ≤ s)) =
      some (snapshotWalk live s d ts ptr) := by
  induction ptr generalizing d ts with
  | nil =>
    unfold snapshotWalk at hFound
    omega
  | cons r rest ih =>
    unfold snapshotWalk at hFound ⊢
    unfold olderVersions
    cases hLive : live r.owner with
    | false =>
      simp only [hLive, Bool.false_eq_true, if_false] at hFound
      omega
    | true =>
      simp only [hLive, if_true] at hFound ⊢
      by_cases hLe : r.timestamp ≤ s
      · rw [List.find?_cons_of_pos (by simpa using hLe), if_pos hLe]
      · rw [if_neg hLe] at hFound ⊢
        rw [List.find?_cons_of_neg (by simpa using hLe)]
        exact ih (by omega) hFound

/-- A head that a writer may write over and does not see was committed after its start. -/
theorem lt_of_prewriteCheck {ts : Nat} {u : Unit} (hCheck : prewriteCheck ts txn = .ok u)
    (hNot : txn.isOwnOrVisible ts = false) : txn.startTs < ts := by
  have hGuard : (Timestamp.isTxnId ts && ts != txn.txnId) = false := by
    unfold prewriteCheck checkWriteConflict optimisticWriteGuard at hCheck
    cases hBusy : Timestamp.isTxnId ts && ts != txn.txnId with
    | false => rfl
    | true =>
      rw [hBusy] at hCheck
      split at hCheck <;> cases hCheck
  unfold MemTransaction.isOwnOrVisible Timestamp.isTxnId Timestamp.isCommitTs at hNot
  unfold Timestamp.isTxnId at hGuard
  by_cases hTxn : Timestamp.txnIdStart ≤ ts
  · have hOwn : ts = txn.txnId := by simpa [hTxn] using hGuard
    simp [hOwn] at hNot
    simp [hOwn] at hTxn
    omega
  · have hCommit : ts < Timestamp.txnIdStart := by omega
    simp [hTxn, hCommit] at hNot
    exact hNot

/-- **The snapshot read of the writers finds the version in the snapshot**, with its stamp. -/
theorem snapshotVersion_of_snapshotWithGuard {before : Data V k} {guardTs : Nat}
    (hc : g.chain k id = some c) (h : g.snapshotWithGuard txn c = .ok (before, guardTs)) :
    g.snapshotVersion txn k id = some (before, guardTs) := by
  unfold snapshotVersion
  rw [hc, Option.bind_some]
  unfold snapshotWithGuard at h
  split at h
  · cases h
  · rename_i u hCheck
    split at h
    · rename_i hVisible
      rw [if_pos hVisible]
      split at h
      · cases h
      · rename_i hAlive
        obtain ⟨rfl, rfl⟩ := Prod.mk.inj (Except.ok.inj h)
        simp [hAlive]
    · rename_i hNot
      rw [if_neg hNot]
      dsimp only at h
      split at h
      · cases h
      · rename_i hFound
        simp only [Bool.or_eq_true, decide_eq_true_eq, not_or, Nat.not_lt] at hFound
        have hLate : txn.startTs < c.current.commitTs := lt_of_prewriteCheck hCheck (by simpa using hNot)
        rw [find?_olderVersions_of_walk hLate hFound.1, Except.ok.inj h]
        have hAlive := hFound.2
        rw [Except.ok.inj h] at hAlive
        simp [hAlive]

/-- The readers' walk stops at the same version, unless that was committed exactly at the
start and is not the creation. -/
theorem walk_of_find?_olderVersions {live : Nat → Bool} {s : Nat} {ptr : UndoPtr (DeltaOp V)}
    {d : Data V k} {v : Data V k × Nat}
    (hLegible : ∀ r ∈ ptr, r.timestamp = s → r.delta = .del k id)
    (hFound : (olderVersions live d ptr).find? (fun v => decide (v.2 ≤ s)) = some v)
    (hAlive : v.1.isTombstone = false) : walk DeltaOp.undo live s d ptr = v.1 := by
  induction ptr generalizing d with
  | nil => cases hFound
  | cons r rest ih =>
    unfold olderVersions at hFound
    unfold walk
    cases hLive : live r.owner with
    | false => simp [hLive] at hFound
    | true =>
      simp only [hLive, if_true] at hFound ⊢
      by_cases hLe : r.timestamp ≤ s
      · rw [List.find?_cons_of_pos (by simpa using hLe), Option.some.injEq] at hFound
        by_cases hLt : r.timestamp < s
        · rw [if_pos hLt, ← hFound]
        · -- the version before the creation is a tombstone
          have hDel := hLegible r (List.mem_cons_self ..) (by omega)
          rw [← hFound, hDel] at hAlive
          cases k <;> cases hAlive
      · rw [List.find?_cons_of_neg (by simpa using hLe)] at hFound
        rw [if_neg (by omega)]
        exact ih (fun r' hr' => hLegible r' (List.mem_cons_of_mem _ hr')) hFound

/-- An entity that a transaction with no intent for it cannot read is not in its snapshot. -/
theorem snapshotVersion_eq_none (hPending : g.pendingWrite txn k id = none)
    (hLegible : ∀ c, g.chain k id = some c → txn.isForeign c.current.commitTs = true →
      ∀ r ∈ c.undoPtr, r.timestamp = txn.startTs → r.delta = .del k id)
    (hRead : ∀ d, g.readEntity txn k id ≠ .ok d) : g.snapshotVersion txn k id = none := by
  unfold snapshotVersion
  cases hc : g.chain k id with
  | none => rfl
  | some c =>
    have hGone : (g.visibleData txn c).isTombstone = true := by
      by_contra hNot
      refine hRead (g.visibleData txn c) ?_
      unfold readEntity
      rw [hPending, hc]
      simp [hNot]
    rw [Option.bind_some, Option.filter_eq_none_iff]
    intro v hv
    unfold visibleData at hGone
    rw [MemTransaction.isOwnOrVisible_eq_not_isForeign] at hv
    cases hForeign : txn.isForeign c.current.commitTs with
    | false =>
      simp only [hForeign, Bool.not_false, if_true, Option.some.injEq] at hv
      simp only [hForeign, Bool.false_eq_true, if_false] at hGone
      simp [← hv, hGone]
    | true =>
      simp only [hForeign, Bool.not_true, Bool.false_eq_true, if_false] at hv
      simp only [hForeign, if_true] at hGone
      cases hAlive : v.1.isTombstone with
      | true => simp
      | false =>
        have hWalk := walk_of_find?_olderVersions (hLegible c hc hForeign) hv hAlive
        unfold applyDeltasForRead at hGone
        rw [hWalk, hAlive] at hGone
        cases hGone

/-! ## Staging an intent -/

theorem lookupWrite_stage_self (intent : WriteIntent (Data V k)) :
    ((g.stage txn k id intent).txns txn.txnId).lookupWrite k id = some intent := by
  unfold TxnState.lookupWrite
  rw [writes_stage_self, lookup_assocInsert, if_pos rfl]

theorem lookupWrite_stage_of_ne {k' : Kind} {id' : Nat} (intent : WriteIntent (Data V k))
    (hne : (k', id') ≠ (k, id)) : ((g.stage txn k id intent).txns txn.txnId).lookupWrite k' id' =
      (g.txns txn.txnId).lookupWrite k' id' := by
  unfold TxnState.lookupWrite
  by_cases hk : k' = k
  · subst hk
    rw [writes_stage_self, lookup_assocInsert, if_neg fun hEq => hne (by rw [hEq])]
  · rw [writes_stage_of_ne hk]

theorem lookupWrite_pushRedo (delta : DeltaOp V) (k : Kind) (id : Nat) :
    ((g.pushRedo txn delta).txns txn.txnId).lookupWrite k id =
      (g.txns txn.txnId).lookupWrite k id := by
  unfold pushRedo
  rw [txns_modifyTxn_self]
  cases k <;> rfl

/-- The value and the guard that the transaction's intent for an entity stands for, or
would start from. -/
def intentView (g : MemoryGraph V) (txn : MemTransaction) (k : Kind) (id : Nat) :
    Option (Data V k) × Nat :=
  match (g.txns txn.txnId).lookupWrite k id with
  | some intent => (intent.kind.image.bind Data.alive, intent.guardTs)
  | none => ((g.snapshotVersion txn k id).map Prod.fst,
      ((g.snapshotVersion txn k id).map Prod.snd).getD 0)

theorem intentView_of_some {intent : WriteIntent (Data V k)}
    (h : (g.txns txn.txnId).lookupWrite k id = some intent) :
    g.intentView txn k id = (intent.kind.image.bind Data.alive, intent.guardTs) := by
  unfold intentView
  rw [h]

theorem intentView_of_none (h : (g.txns txn.txnId).lookupWrite k id = none) :
    g.intentView txn k id = ((g.snapshotVersion txn k id).map Prod.fst,
      ((g.snapshotVersion txn k id).map Prod.snd).getD 0) := by
  unfold intentView
  rw [h]

/-- What the snapshot read of a writer returns is the view that the intent starts from. -/
theorem intentView_of_snapshot {before : Data V k} {guardTs : Nat}
    (hNone : (g.txns txn.txnId).lookupWrite k id = none) (hc : g.chain k id = some c)
    (h : g.snapshotWithGuard txn c = .ok (before, guardTs)) :
    before.isTombstone = false ∧ g.intentView txn k id = (some before, guardTs) := by
  have hVersion := snapshotVersion_of_snapshotWithGuard hc h
  rw [intentView_of_none hNone, hVersion]
  refine ⟨?_, rfl⟩
  unfold snapshotVersion at hVersion
  rw [hc, Option.bind_some, Option.filter_eq_some_iff] at hVersion
  simpa using hVersion.2

/-- The view depends on the chain, the undo buffers and the intent. -/
theorem intentView_congr (hChain : g'.chain = g.chain)
    (hUndo : ∀ t, (g'.txns t).undoBuffer = (g.txns t).undoBuffer)
    (hLook : (g'.txns txn.txnId).lookupWrite k id = (g.txns txn.txnId).lookupWrite k id) :
    g'.intentView txn k id = g.intentView txn k id := by
  have hLive : g'.upgradable = g.upgradable := by
    funext o
    simp only [upgradable, hUndo]
  unfold intentView snapshotVersion
  rw [hLook, hChain, hLive]

theorem intentView_congr_of_some (hSome : ((g.txns txn.txnId).lookupWrite k id).isSome = true)
    (hLook : (g'.txns txn.txnId).lookupWrite k id = (g.txns txn.txnId).lookupWrite k id) :
    g'.intentView txn k id = g.intentView txn k id := by
  obtain ⟨intent, hIntent⟩ := Option.isSome_iff_exists.mp hSome
  rw [intentView_of_some hIntent, intentView_of_some (hLook.trans hIntent)]

/-- One operation folded into the intent: the value has the operation applied to it, and
the guard stays. -/
structure FoldedIn (txn : MemTransaction) (id : Nat) (op : EntityOp V k) (g g' : MemoryGraph V) :
    Prop where
  staged : ((g'.txns txn.txnId).lookupWrite k id).isSome = true
  view : g'.intentView txn k id = (op.apply (g.intentView txn k id).1, (g.intentView txn k id).2)

/-- Nothing else is folded in. -/
structure Folds (txn : MemTransaction) (id : Nat) (op : EntityOp V k) (g g' : MemoryGraph V) : Prop
    extends FoldedIn txn id op g g' where
  others : ∀ k' id', (k', id') ≠ (k, id) →
    (g'.txns txn.txnId).lookupWrite k' id' = (g.txns txn.txnId).lookupWrite k' id'

variable {op : EntityOp V k}

theorem FoldedIn.congr (h : FoldedIn txn id op g₁ g') (hChain : g₁.chain = g.chain)
    (hUndo : ∀ t, (g₁.txns t).undoBuffer = (g.txns t).undoBuffer)
    (hLook : (g₁.txns txn.txnId).lookupWrite k id = (g.txns txn.txnId).lookupWrite k id) :
    FoldedIn txn id op g g' :=
  ⟨h.staged, by rw [h.view, intentView_congr hChain hUndo hLook]⟩

theorem Folds.noted {k' : Kind} {id' : Nat} (h : Folds txn id op (g.noteRead txn k' id') g') :
    Folds txn id op g g' :=
  ⟨h.toFoldedIn.congr chain_noteRead undoBuffer_noteRead (lookupWrite_noteRead ..),
    fun k₁ id₁ hne => (h.others k₁ id₁ hne).trans (lookupWrite_noteRead ..)⟩

theorem Folds.stage {intent : WriteIntent (Data V k)}
    (hValue : intent.kind.image.bind Data.alive = op.apply (g.intentView txn k id).1)
    (hGuard : intent.guardTs = (g.intentView txn k id).2) :
    Folds txn id op g (g.stage txn k id intent) := by
  have hLook : ((g.stage txn k id intent).txns txn.txnId).lookupWrite k id = some intent :=
    lookupWrite_stage_self intent
  refine ⟨⟨by rw [hLook]; rfl, ?_⟩, fun k' id' hne => lookupWrite_stage_of_ne intent hne⟩
  rw [intentView_of_some hLook, hValue, hGuard]

theorem Folds.pushRedo (h : Folds txn id op g g') (delta : DeltaOp V) :
    Folds txn id op g (g'.pushRedo txn delta) := by
  refine ⟨⟨by rw [lookupWrite_pushRedo]; exact h.staged, ?_⟩,
    fun k' id' hne => (lookupWrite_pushRedo ..).trans (h.others k' id' hne)⟩
  rw [← h.view]
  exact intentView_congr (chain_modifyTxn ..) (fun t => undoBuffer_pushRedo ..)
    (lookupWrite_pushRedo ..)

/-- A create is folded in where the entity has no intent only if it is not in the snapshot. -/
theorem Folds.recordInsert {d : Data V k} (hId : d.id = id)
    (hNone : (g.txns txn.txnId).lookupWrite k id = none → g.snapshotVersion txn k id = none) :
    Folds txn id (.create d) g (g.recordInsert txn d) := by
  subst hId
  unfold MemoryGraph.recordInsert
  split
  · rename_i intent hLook
    refine .stage rfl ?_
    rw [intentView_of_some hLook]
  · rename_i hLook
    refine .stage rfl ?_
    rw [intentView_of_none hLook, hNone hLook]
    rfl

theorem Folds.recordDelete {guardTs : Nat} {before : Data V k}
    (hGuard : ∀ intent, (g.txns txn.txnId).lookupWrite k id = some intent → intent.guardTs = 0 →
      guardTs = 0)
    (hNone : (g.txns txn.txnId).lookupWrite k id = none → guardTs = (g.intentView txn k id).2) :
    Folds txn id (.delete : EntityOp V k) g (g.recordDelete txn k id guardTs before) := by
  unfold MemoryGraph.recordDelete
  split
  · rename_i intent hLook
    refine .stage rfl ?_
    rw [intentView_of_some hLook]
    by_cases hZero : intent.guardTs = 0
    · simp [hZero, hGuard intent hLook hZero]
    · simp [hZero]
  · rename_i hLook
    exact .stage rfl (hNone hLook)

/-- A staged delete is folded into the intent of its entity. -/
theorem Folds.stageDelete {u : Unit} (h : g.stageDelete txn k id = (g', .ok u)) :
    Folds txn id (.delete : EntityOp V k) g g' := by
  unfold MemoryGraph.stageDelete at h
  split at h
  · rename_i intent hLook
    split at h
    · obtain ⟨rfl, -⟩ := Prod.mk.inj h
      refine .recordDelete (fun _ _ _ => rfl) fun hNone => ?_
      rw [hLook] at hNone
      cases hNone
    · obtain ⟨rfl, -⟩ := Prod.mk.inj h
      refine .recordDelete (fun intent' hLook' hZero => ?_) fun hNone => ?_
      · rw [hLook, Option.some.injEq] at hLook'
        rw [hLook', hZero]
      · rw [hLook] at hNone
        cases hNone
    · rename_i before hKind
      obtain ⟨rfl, -⟩ := Prod.mk.inj h
      refine ⟨⟨by rw [hLook]; rfl, ?_⟩, fun _ _ _ => rfl⟩
      rw [intentView_of_some hLook, hKind]
      rfl
  · rename_i hLook
    split at h
    · cases h
    · rename_i c hc
      split at h
      · cases h
      · rename_i before guardTs hSnap
        obtain ⟨rfl, -⟩ := Prod.mk.inj h
        refine .recordDelete (fun intent hSome => ?_) fun _ => ?_
        · rw [hLook] at hSome
          cases hSome
        · rw [(intentView_of_snapshot hLook hc hSnap).2]

/-- Staged properties are folded into what is staged already. -/
theorem Folds.setProperty {indices : List Nat} {props : List V} {u : Unit}
    (hLock : txn.lockStrategy = .optimistic)
    (h : g.setProperty txn k id indices props = (g', .ok u)) :
    Folds txn id (.setProps indices props : EntityOp V k) g g' := by
  unfold MemoryGraph.setProperty at h
  rw [hLock] at h
  dsimp only at h
  split at h
  · rename_i intent hLook
    split at h
    · rename_i existing hKind
      split at h
      · obtain ⟨rfl, -⟩ := Prod.mk.inj h
        refine Folds.pushRedo (.stage ?_ ?_) _
        · rw [intentView_of_some hLook, hKind]
          exact alive_setProps existing indices props
        · rw [intentView_of_some hLook]
      · cases h
    · rename_i before after hKind
      split at h
      · obtain ⟨rfl, -⟩ := Prod.mk.inj h
        unfold recordUpdate
        rw [hLook]
        refine Folds.pushRedo (.stage ?_ ?_) _
        · rw [intentView_of_some hLook, hKind]
          exact alive_setProps after indices props
        · rw [intentView_of_some hLook]
          exact ite_self _
      · cases h
    · cases h
  · rename_i hLook
    split at h
    · cases h
    · rename_i c hc
      split at h
      · cases h
      · rename_i before guardTs hSnap
        obtain ⟨hAlive, hView⟩ := intentView_of_snapshot hLook hc hSnap
        split at h
        · obtain ⟨rfl, -⟩ := Prod.mk.inj h
          unfold recordUpdate
          rw [hLook]
          refine Folds.pushRedo (.stage ?_ ?_) _
          · rw [hView]
            show (before.setProps indices props).alive = some (before.setProps indices props)
            rw [Data.alive_eq_some, Data.isTombstone_setProps]
            exact ⟨hAlive, rfl⟩
          · rw [hView]
        · cases h

end MemoryGraph

end MiniGU
