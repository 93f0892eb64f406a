import Mathlib.Data.List.Induction
import MiniGU.Invariant.Snapshot
import MiniGU.Results.FirstCommitter

/-!
# Four ways to ask what a transaction sees

`get_visible`, `is_visible`, `get_vertex` with `get_edge`, and the guarded snapshot read of
the optimistic writers each walk the undo records on their own. They differ in three
places: `is_visible` takes every undone deletion for a live version, even that of a
tombstone, and asks for the endpoints of an edge; the guarded read stops at a version
stamped `start_ts` where the others go on; and it refuses a head that is locked or a chain
that ends above the snapshot where the others take what they have.
-/

namespace MiniGU

variable {V : Type}

/-! ## What the walks make of a trail -/

section Undone

variable {k : Kind}

/-- The version that undoing the records in turn gives. -/
def undone (l : UndoPtr (DeltaOp V)) (d : Data V k) : Data V k :=
  l.foldl (fun d r => r.delta.undo d) d

/-- Undoing the delta leaves the flag of `is_visible` alone. -/
def KeepsFlag (k : Kind) (δ : DeltaOp V) : Prop := ∀ b, MemoryGraph.undoFlag k δ b = b

/-- What a delta is to the entities of one kind: the undoing of a deletion, that of a
creation, or neither. -/
theorem DeltaOp.kind_cases (k : Kind) (δ : DeltaOp V) :
    (∃ img : Data V k, δ = create img ∧ (∀ b, MemoryGraph.undoFlag k δ b = true)) ∨
    ((∀ b, MemoryGraph.undoFlag k δ b = false) ∧ (∀ img : Data V k, δ ≠ create img) ∧
      ∀ d : Data V k, (δ.undo d).isTombstone = true) ∨
    (KeepsFlag k δ ∧ (∀ img : Data V k, δ ≠ create img) ∧
      ∀ d : Data V k, (δ.undo d).isTombstone = d.isTombstone) := by
  cases k with
  | vertex =>
    cases δ with
    | createVertex v => exact .inl ⟨v, rfl, fun _ => rfl⟩
    | delVertex vid => exact .inr (.inl ⟨fun _ => rfl, fun _ h => (nomatch h), fun _ => rfl⟩)
    | _ => exact .inr (.inr ⟨fun _ => rfl, fun _ h => (nomatch h), fun _ => rfl⟩)
  | edge =>
    cases δ with
    | createEdge e => exact .inl ⟨e, rfl, fun _ => rfl⟩
    | delEdge eid => exact .inr (.inl ⟨fun _ => rfl, fun _ h => (nomatch h), fun _ => rfl⟩)
    | _ => exact .inr (.inr ⟨fun _ => rfl, fun _ h => (nomatch h), fun _ => rfl⟩)

/-- The last deletion undone is not that of a tombstone. -/
def UndoesLive (k : Kind) (l : UndoPtr (DeltaOp V)) : Prop :=
  ∀ pre r post, ∀ img : Data V k, l = pre ++ r :: post → r.delta = .create img →
    (∀ r' ∈ post, KeepsFlag k r'.delta) → img.isTombstone = false

/-- The flag that `is_visible` tracks along a trail. -/
def flagAfter (k : Kind) (l : UndoPtr (DeltaOp V)) (b : Bool) : Bool :=
  l.foldl (fun b r => MemoryGraph.undoFlag k r.delta b) b

theorem undone_snoc (l : UndoPtr (DeltaOp V)) (r : UndoRec (DeltaOp V)) (d : Data V k) :
    undone (l ++ [r]) d = r.delta.undo (undone l d) := by
  unfold undone
  rw [List.foldl_append]
  rfl

theorem flagAfter_snoc (l : UndoPtr (DeltaOp V)) (r : UndoRec (DeltaOp V)) (b : Bool) :
    flagAfter k (l ++ [r]) b = MemoryGraph.undoFlag k r.delta (flagAfter k l b) := by
  unfold flagAfter
  rw [List.foldl_append]
  rfl

/-- A record of a trail with a last one is that one, or comes before it. -/
theorem snoc_eq_append_cons {l pre post : UndoPtr (DeltaOp V)} {r r' : UndoRec (DeltaOp V)}
    (h : l ++ [r] = pre ++ r' :: post) :
    (post = [] ∧ r' = r) ∨ ∃ post', post = post' ++ [r] ∧ l = pre ++ r' :: post' := by
  cases post using List.reverseRecOn with
  | nil =>
    obtain ⟨-, hr⟩ := List.append_inj' h rfl
    exact .inl ⟨rfl, (List.singleton_inj.mp hr).symm⟩
  | append_singleton post last =>
    rw [← List.cons_append, ← List.append_assoc] at h
    obtain ⟨hl, hr⟩ := List.append_inj' h rfl
    exact .inr ⟨post, by rw [List.singleton_inj.mp hr], hl⟩

/-- Where the last record keeps the flag, the records before it decide. -/
theorem undoesLive_snoc_of_keeps {l : UndoPtr (DeltaOp V)} {r : UndoRec (DeltaOp V)}
    (hKeeps : KeepsFlag k r.delta) (hNot : ∀ img : Data V k, r.delta ≠ .create img) :
    UndoesLive k (l ++ [r]) ↔ UndoesLive k l := by
  constructor
  · intro h pre r' post img hL hCreate hPost
    refine h pre r' (post ++ [r]) img (by rw [hL]; simp) hCreate fun r'' hMem => ?_
    rcases List.mem_append.mp hMem with hMem | hMem
    · exact hPost r'' hMem
    · rw [List.mem_singleton.mp hMem]
      exact hKeeps
  · intro h pre r' post img hL hCreate hPost
    rcases snoc_eq_append_cons hL with ⟨-, rfl⟩ | ⟨post', rfl, hL'⟩
    · exact absurd hCreate (hNot img)
    · exact h pre r' post' img hL' hCreate fun r'' hMem => hPost r'' (List.mem_append_left _ hMem)

theorem undoesLive_snoc_of_sets {l : UndoPtr (DeltaOp V)} {r : UndoRec (DeltaOp V)}
    (hSets : ¬ KeepsFlag k r.delta) : UndoesLive k (l ++ [r]) ↔
      ∀ img : Data V k, r.delta = .create img → img.isTombstone = false := by
  constructor
  · intro h img hCreate
    exact h l r [] img rfl hCreate (by simp)
  · intro h pre r' post img hL hCreate hPost
    rcases snoc_eq_append_cons hL with ⟨-, rfl⟩ | ⟨post', rfl, -⟩
    · exact h img hCreate
    · exact absurd (hPost r (by simp)) hSets

/-- **The flag is that of the version reached exactly when the last deletion undone was of
a live version**; where it is not, the flag says visible. -/
theorem flagAfter_iff (l : UndoPtr (DeltaOp V)) (d : Data V k) :
    (flagAfter k l (!d.isTombstone) = !(undone l d).isTombstone ↔ UndoesLive k l) ∧
    ((undone l d).isTombstone = false → flagAfter k l (!d.isTombstone) = true) := by
  induction l using List.reverseRecOn with
  | nil =>
    refine ⟨⟨fun _ pre r post img hL => ?_, fun _ => rfl⟩, fun hTomb => ?_⟩
    · simp at hL
    · have hTomb : d.isTombstone = false := hTomb
      simp [flagAfter, hTomb]
  | append_singleton l r ih =>
    rw [undone_snoc, flagAfter_snoc]
    rcases DeltaOp.kind_cases k r.delta with ⟨img, hCreate, hFlag⟩ | ⟨hFlag, hNot, hTomb⟩ |
      ⟨hKeeps, hNot, hTomb⟩
    · have hSets : ¬ KeepsFlag k r.delta := fun hKeeps => by simpa [hFlag] using hKeeps false
      rw [hFlag, undoesLive_snoc_of_sets hSets, hCreate, DeltaOp.undo_create]
      refine ⟨⟨fun hEq img' hCreate' => ?_, fun h => ?_⟩, fun _ => rfl⟩
      · obtain rfl := DeltaOp.create_inj hCreate'
        simpa using hEq
      · rw [h img rfl]
        rfl
    · have hSets : ¬ KeepsFlag k r.delta := fun hKeeps => by simpa [hFlag] using hKeeps true
      rw [hFlag, hTomb, undoesLive_snoc_of_sets hSets]
      exact ⟨⟨fun _ img hCreate => absurd hCreate (hNot img), fun _ => rfl⟩, fun h => (nomatch h)⟩
    · rw [hKeeps, hTomb, undoesLive_snoc_of_keeps hKeeps hNot]
      exact ih

/-! ## What the guarded read makes of it -/

/-- The guarded walk ends at a version stamped exactly with the snapshot. -/
theorem snapshotWalk_of_stamped {live : Nat → Bool} {s : Nat} {ptr pre post : UndoPtr (DeltaOp V)}
    {r : UndoRec (DeltaOp V)} (hTrail : trail live s ptr = pre ++ r :: post)
    (hPre : ∀ r' ∈ pre, s < r'.timestamp) (hStamp : r.timestamp = s) (d : Data V k)
    (guardTs : Nat) :
    MemoryGraph.snapshotWalk live s d guardTs ptr = (undone (pre ++ [r]) d, s) := by
  induction ptr generalizing d guardTs pre with
  | nil => simp [trail] at hTrail
  | cons r₀ rest ih =>
    unfold trail at hTrail
    unfold MemoryGraph.snapshotWalk
    cases hLive : live r₀.owner with
    | false => simp [hLive] at hTrail
    | true =>
      simp only [hLive, if_true] at hTrail ⊢
      cases pre with
      | nil =>
        -- the first record carries the stamp
        have hHead : r₀ = r := by
          split at hTrail
          · exact (List.cons.inj hTrail).1
          · exact (List.cons.inj hTrail).1
        subst hHead
        rw [if_pos (by omega), hStamp]
        rfl
      | cons r₁ pre =>
        have hLater : ¬ r₀.timestamp < s := fun hLt => by
          rw [if_pos hLt] at hTrail
          have hNil := (List.cons.inj hTrail).2
          simp at hNil
        rw [if_neg hLater] at hTrail
        obtain ⟨rfl, hRest⟩ := List.cons.inj hTrail
        have hNew := hPre r₀ (List.mem_cons_self ..)
        rw [if_neg (by omega),
          ih hRest (fun r' hr' => hPre r' (List.mem_cons_of_mem _ hr')) _ _]
        rfl

/-- The walk meets a record stamped at the start, passes all records, or stops before an older one.
-/
theorem snapshotWalk_cases (live : Nat → Bool) (s : Nat) (ptr : UndoPtr (DeltaOp V))
    (d : Data V k) (guardTs : Nat) :
    (∃ pre r post, trail live s ptr = pre ++ r :: post ∧ (∀ r' ∈ pre, s < r'.timestamp) ∧
      r.timestamp = s) ∨
    ((∀ r ∈ trail live s ptr, s < r.timestamp) ∧
      (s < guardTs → s < (MemoryGraph.snapshotWalk live s d guardTs ptr).2)) ∨
    ((∃ r ∈ trail live s ptr, r.timestamp < s) ∧ (∀ r ∈ trail live s ptr, r.timestamp ≠ s) ∧
      (MemoryGraph.snapshotWalk live s d guardTs ptr).1 = undone (trail live s ptr) d ∧
      (MemoryGraph.snapshotWalk live s d guardTs ptr).2 < s) := by
  induction ptr generalizing d guardTs with
  | nil => exact .inr (.inl ⟨by simp [trail], id⟩)
  | cons r rest ih =>
    unfold trail MemoryGraph.snapshotWalk
    cases live r.owner with
    | false => exact .inr (.inl ⟨by simp, id⟩)
    | true =>
      simp only [if_true]
      rcases Nat.lt_trichotomy r.timestamp s with hLt | hEq | hGt
      · -- both walks end here
        rw [if_pos hLt, if_pos (Nat.le_of_lt hLt)]
        refine .inr (.inr ⟨⟨r, by simp, hLt⟩, fun r' hr' => ?_, rfl, hLt⟩)
        rw [List.mem_singleton.mp hr']
        omega
      · rw [if_neg (by omega)]
        exact .inl ⟨[], r, _, rfl, by simp, hEq⟩
      · rw [if_neg (by omega), if_neg (by omega)]
        rcases ih (r.delta.undo d) r.timestamp with ⟨pre, r', post, hTrail, hPre, hStamp⟩ |
          ⟨hAll, hGuard⟩ | ⟨⟨r', hr', hOld⟩, hNe, hData, hGuard⟩
        · refine .inl ⟨r :: pre, r', post, by rw [hTrail]; rfl, fun r'' hr'' => ?_, hStamp⟩
          rcases List.mem_cons.mp hr'' with rfl | hr''
          · exact hGt
          · exact hPre r'' hr''
        · refine .inr (.inl ⟨fun r' hr' => ?_, fun _ => hGuard hGt⟩)
          rcases List.mem_cons.mp hr' with rfl | hr'
          · exact hGt
          · exact hAll r' hr'
        · refine .inr (.inr ⟨⟨r', List.mem_cons_of_mem _ hr', hOld⟩, fun r'' hr'' => ?_, hData,
            hGuard⟩)
          rcases List.mem_cons.mp hr'' with rfl | hr''
          · omega
          · exact hNe r'' hr''

end Undone

namespace MemoryGraph

variable {g : MemoryGraph V} {t : MemTransaction} {k : Kind} {id : Nat}
  {c : VersionChain (Data V k) (DeltaOp V)}

/-! ## When the four agree -/

/-- `VersionedVertex::is_visible` or `VersionedEdge::is_visible`. -/
def entityIsVisible (g : MemoryGraph V) (t : MemTransaction) : Kind → Nat → Bool
  | .vertex, vid => g.vertexIsVisible t vid
  | .edge, eid => g.edgeIsVisible t eid

/-- The endpoints that `is_visible` asks for; a vertex has none. -/
def endpointsVisible (g : MemoryGraph V) (t : MemTransaction) : {k : Kind} → Data V k → Bool
  | .vertex, _ => true
  | .edge, e => g.vertexIsVisible t (Edge.dstId e) && g.vertexIsVisible t (Edge.srcId e)

/-- The four ways to ask for the entity `id`, whose chain is `c`, give `t` one answer. The
guarded read is that of the optimistic writers; an error is the answer "absent". -/
structure VisibilityAgrees (g : MemoryGraph V) (t : MemTransaction) (k : Kind) (id : Nat)
    (c : VersionChain (Data V k) (DeltaOp V)) : Prop where
  point : (g.readEntity t k id).toOption = (g.getVisible t c).toOption
  flag : g.entityIsVisible t k id = (g.getVisible t c).toOption.isSome
  guarded : t.lockStrategy = .optimistic →
    (g.snapshotWithGuard t c).toOption.map Prod.fst = (g.getVisible t c).toOption

/-- The head was committed after `t` started. -/
def CommittedSince (t : MemTransaction) (c : VersionChain (Data V k) (DeltaOp V)) : Prop :=
  Timestamp.isCommitTs c.current.commitTs = true ∧ t.startTs < c.current.commitTs

/-- The head is locked by another transaction. -/
def LockedFor (t : MemTransaction) (c : VersionChain (Data V k) (DeltaOp V)) : Prop :=
  Timestamp.isTxnId c.current.commitTs = true ∧ c.current.commitTs ≠ t.txnId

/-- The undo records between the head and what `t` may see. -/
def trailOf (g : MemoryGraph V) (t : MemTransaction) (c : VersionChain (Data V k) (DeltaOp V)) :
    UndoPtr (DeltaOp V) :=
  if t.isForeign c.current.commitTs then trail g.upgradable t.startTs c.undoPtr else []

/-- The version that a trail leads to from the head of the chain is none, or a tombstone. -/
def EndsGone (c : VersionChain (Data V k) (DeltaOp V)) (l : UndoPtr (DeltaOp V)) : Prop :=
  Gone (k := k) (undone l c.current.data)

/-- What the records of a chain must be like for the four to agree. -/
structure Coherent (g : MemoryGraph V) (t : MemTransaction) (k : Kind) (id : Nat)
    (c : VersionChain (Data V k) (DeltaOp V)) : Prop where
  /-- A staged write, which only the point read looks at, stages what the chain holds. -/
  staged : ∀ intent, g.pendingWrite t k id = some intent →
    intent.kind.image.bind Data.alive =
      Data.alive (k := k) (undone (g.trailOf t c) c.current.data)
  /-- An edge without one of its endpoints is gone as well. -/
  endpoints : g.endpointsVisible t c.current.data = false → EndsGone c (g.trailOf t c)
  /-- The last deletion undone is not that of a tombstone. -/
  undoesLive : g.endpointsVisible t c.current.data = true → UndoesLive k (g.trailOf t c)
  /-- What another transaction has locked is gone below the lock. -/
  unlocked : t.lockStrategy = .optimistic → LockedFor t c → EndsGone c (g.trailOf t c)
  /-- Behind a version stamped with the snapshot itself, the records change nothing. -/
  stamped : t.lockStrategy = .optimistic → CommittedSince t c → ∀ pre r post,
    g.trailOf t c = pre ++ r :: post → (∀ r' ∈ pre, t.startTs < r'.timestamp) →
    r.timestamp = t.startTs →
    Data.alive (k := k) (undone (pre ++ [r]) c.current.data) =
      Data.alive (k := k) (undone (pre ++ r :: post) c.current.data)
  /-- A trail that stays above the snapshot ends in nothing. -/
  reaches : t.lockStrategy = .optimistic → CommittedSince t c →
    (∀ r ∈ g.trailOf t c, t.startTs < r.timestamp) → EndsGone c (g.trailOf t c)

theorem visibleData_eq_undone : g.visibleData t c = undone (g.trailOf t c) c.current.data := by
  unfold visibleData trailOf applyDeltasForRead
  split
  · exact walk_eq_foldl ..
  · rfl

theorem chainIsVisible_eq_flagAfter :
    g.chainIsVisible t c = flagAfter k (g.trailOf t c) (!c.current.data.isTombstone) := by
  unfold chainIsVisible trailOf
  rw [MemTransaction.isOwnOrVisible_eq_not_isForeign]
  cases t.isForeign c.current.commitTs with
  | false => rfl
  | true => exact walk_eq_foldl ..

/-- `get_visible` gives the version at the end of the trail, unless it is a tombstone. -/
theorem getVisible_toOption : (g.getVisible t c).toOption = (g.visibleData t c).alive := by
  unfold getVisible visibleData Data.alive
  rw [MemTransaction.isOwnOrVisible_eq_not_isForeign]
  cases t.isForeign c.current.commitTs with
  | false =>
    simp only [Bool.not_false, if_true, Bool.false_eq_true, if_false]
    split <;> rfl
  | true =>
    simp only [Bool.not_true, Bool.false_eq_true, if_false, if_true]
    split <;> rfl

theorem readEntity_of_chain (hc : g.chain k id = some c)
    (hp : g.pendingWrite t k id = none) :
    (g.readEntity t k id).toOption = (g.visibleData t c).alive := by
  unfold readEntity Data.alive
  simp only [hp, hc]
  split <;> rfl

theorem readEntity_of_staged {intent : WriteIntent (Data V k)}
    (hp : g.pendingWrite t k id = some intent) :
    (g.readEntity t k id).toOption = intent.kind.image.bind Data.alive := by
  unfold readEntity
  simp only [hp]
  cases intent.kind.image with
  | none => rfl
  | some d =>
    simp only [Option.bind_some]
    unfold Data.alive
    split <;> rfl

theorem entityIsVisible_eq (hc : g.chain k id = some c) : g.entityIsVisible t k id =
    (g.endpointsVisible t c.current.data && g.chainIsVisible t c) := by
  cases k with
  | vertex =>
    have hFlag : g.vertexIsVisible t id = g.chainIsVisible (k := .vertex) t c :=
      congrArg (fun o => Option.elim o false fun c => g.chainIsVisible (k := .vertex) t c) hc
    exact hFlag.trans (Bool.true_and _).symm
  | edge =>
    exact congrArg (fun o => Option.elim o false fun c => g.vertexIsVisible t (Edge.dstId c.current.data) &&
      g.vertexIsVisible t (Edge.srcId c.current.data) && g.chainIsVisible (k := .edge) t c) hc

theorem isSome_alive {d : Data V k} : d.alive.isSome = !d.isTombstone := by
  unfold Data.alive
  cases d.isTombstone <;> rfl

theorem flag_agrees_iff (hc : g.chain k id = some c) :
    g.entityIsVisible t k id = (g.visibleData t c).alive.isSome ↔
      (g.endpointsVisible t c.current.data = false → EndsGone c (g.trailOf t c)) ∧
      (g.endpointsVisible t c.current.data = true → UndoesLive k (g.trailOf t c)) := by
  rw [entityIsVisible_eq hc, isSome_alive, visibleData_eq_undone, chainIsVisible_eq_flagAfter]
  cases g.endpointsVisible t c.current.data with
  | false =>
    unfold EndsGone Gone
    cases Data.isTombstone (k := k) (undone (g.trailOf t c) c.current.data) <;> simp
  | true =>
    rw [Bool.true_and, (flagAfter_iff _ _).1]
    simp

theorem snapshotWithGuard_of_seen (hOpt : t.lockStrategy = .optimistic)
    (hSeen : t.isForeign c.current.commitTs = false) :
    (g.snapshotWithGuard t c).toOption.map Prod.fst = c.current.data.alive := by
  have hCheck : prewriteCheck c.current.commitTs t = .ok () := by
    unfold prewriteCheck optimisticWriteGuard
    rw [hOpt]
    unfold MemTransaction.isForeign at hSeen
    simp only [Bool.or_eq_false_iff] at hSeen
    simp [hSeen.1]
  unfold snapshotWithGuard Data.alive
  simp only [hCheck, MemTransaction.isOwnOrVisible_eq_not_isForeign, hSeen, Bool.not_false, if_true]
  split <;> rfl

theorem snapshotWithGuard_of_locked (hOpt : t.lockStrategy = .optimistic) (hLocked : LockedFor t c) :
    (g.snapshotWithGuard t c).toOption = none := by
  unfold snapshotWithGuard prewriteCheck optimisticWriteGuard
  simp [hOpt, hLocked.1, hLocked.2, Except.toOption]

theorem isForeign_iff : t.isForeign c.current.commitTs = true ↔ LockedFor t c ∨ CommittedSince t c := by
  unfold MemTransaction.isForeign LockedFor CommittedSince
  simp

theorem not_lockedFor_of_committedSince (hLate : CommittedSince t c) : ¬ LockedFor t c := by
  intro hLocked
  have hIs := hLate.1
  have hId := hLocked.1
  simp only [Timestamp.isCommitTs, Timestamp.isTxnId, decide_eq_true_eq] at hIs hId
  omega

/-- The guarded read behind a head committed later: what its walk reaches, if the stamp of
that is not above the snapshot. -/
theorem snapshotWithGuard_of_late (hOpt : t.lockStrategy = .optimistic) (hLate : CommittedSince t c) :
    (g.snapshotWithGuard t c).toOption.map Prod.fst =
      let r := snapshotWalk g.upgradable t.startTs c.current.data c.current.commitTs c.undoPtr
      if t.startTs < r.2 then none else r.1.alive := by
  have hForeign : t.isForeign c.current.commitTs = true := isForeign_iff.mpr (.inr hLate)
  have hCheck : prewriteCheck c.current.commitTs t = .ok () := by
    have hNot := not_lockedFor_of_committedSince hLate
    unfold LockedFor at hNot
    unfold prewriteCheck optimisticWriteGuard
    rw [hOpt]
    refine if_neg fun hAnd => hNot ?_
    simpa using hAnd
  unfold snapshotWithGuard Data.alive
  simp only [hCheck, MemTransaction.isOwnOrVisible_eq_not_isForeign, hForeign, Bool.not_true,
    Bool.false_eq_true, if_false, Bool.or_eq_true, decide_eq_true_eq]
  by_cases hAbove : t.startTs <
      (snapshotWalk g.upgradable t.startTs c.current.data c.current.commitTs c.undoPtr).2
  · simp [hAbove, Except.toOption]
  · simp only [hAbove, false_or, if_false]
    split <;> rfl

theorem trailOf_of_late (hLate : CommittedSince t c) :
    g.trailOf t c = trail g.upgradable t.startTs c.undoPtr :=
  if_pos (isForeign_iff.mpr (.inr hLate))

/-- The answer of the guarded read behind a head committed later. -/
theorem late_agrees_iff (hOpt : t.lockStrategy = .optimistic) (hLate : CommittedSince t c) :
    (g.snapshotWithGuard t c).toOption.map Prod.fst = (g.visibleData t c).alive ↔
      (∀ pre r post, g.trailOf t c = pre ++ r :: post →
        (∀ r' ∈ pre, t.startTs < r'.timestamp) → r.timestamp = t.startTs →
        Data.alive (k := k) (undone (pre ++ [r]) c.current.data) =
          Data.alive (k := k) (undone (pre ++ r :: post) c.current.data)) ∧
      ((∀ r ∈ g.trailOf t c, t.startTs < r.timestamp) → EndsGone c (g.trailOf t c)) := by
  rw [snapshotWithGuard_of_late hOpt hLate, visibleData_eq_undone, trailOf_of_late hLate]
  rcases snapshotWalk_cases g.upgradable t.startTs c.undoPtr c.current.data c.current.commitTs with
    ⟨pre, r, post, hTrail, hPre, hStamp⟩ | ⟨hAll, hGuard⟩ | ⟨⟨r, hr, hOld⟩, hNe, hData, hGuard⟩
  · -- the guarded walk stops at a version stamped with the snapshot
    have hWalk := snapshotWalk_of_stamped hTrail hPre hStamp c.current.data c.current.commitTs
    have hMem : r ∈ trail g.upgradable t.startTs c.undoPtr := by simp [hTrail]
    simp only [hWalk, Nat.lt_irrefl, if_false]
    constructor
    · intro hEq
      refine ⟨fun pre' r' post' hTrail' hPre' hStamp' => ?_, fun hAll => ?_⟩
      · have hWalk' := snapshotWalk_of_stamped hTrail' hPre' hStamp' c.current.data
          c.current.commitTs
        rw [← hTrail', ← hEq]
        rw [hWalk] at hWalk'
        exact congrArg Data.alive (congrArg Prod.fst hWalk').symm
      · exact absurd (hAll r hMem) (by omega)
    · intro h
      rw [h.1 pre r post hTrail hPre hStamp, hTrail]
  · -- it runs out above the snapshot
    have hAbove := hGuard hLate.2
    simp only [hAbove, if_true]
    constructor
    · intro hEq
      refine ⟨fun pre r post hTrail _ hStamp => ?_, fun _ => ?_⟩
      · exact absurd (hAll r (by simp [hTrail])) (by omega)
      · have hNone : (Data.alive (k := k)
          (undone (trail g.upgradable t.startTs c.undoPtr) c.current.data)).isSome = false := by
          rw [← hEq]
          rfl
        rw [isSome_alive] at hNone
        simpa [EndsGone, Gone] using hNone
    · intro h
      rw [Data.alive_of_gone (h.2 hAll)]
  · -- it ends with the other walks
    have hBelow : ¬ t.startTs <
        (snapshotWalk g.upgradable t.startTs c.current.data c.current.commitTs c.undoPtr).2 := by
      omega
    simp only [hBelow, if_false, hData, true_iff]
    refine ⟨fun pre r' post hTrail _ hStamp => ?_, fun hAll => ?_⟩
    · exact absurd hStamp (hNe r' (by simp [hTrail]))
    · exact absurd (hAll r hr) (by omega)

theorem point_agrees_iff (hc : g.chain k id = some c) :
    (g.readEntity t k id).toOption = (g.visibleData t c).alive ↔
      ∀ intent, g.pendingWrite t k id = some intent → intent.kind.image.bind Data.alive =
        Data.alive (k := k) (undone (g.trailOf t c) c.current.data) := by
  rw [← visibleData_eq_undone]
  cases hp : g.pendingWrite t k id with
  | none => simp [readEntity_of_chain hc hp]
  | some intent =>
    rw [readEntity_of_staged hp]
    constructor
    · rintro hEq _ ⟨⟩
      exact hEq
    · intro h
      exact h intent rfl

/-- **When all agree**: for every graph, every entity in it and every transaction, whatever
its start timestamp, the four answers are one exactly when the chain is coherent. -/
theorem visibility_agrees_iff (hc : g.chain k id = some c) :
    VisibilityAgrees g t k id c ↔ Coherent g t k id c := by
  constructor
  · rintro ⟨hPoint, hFlag, hGuarded⟩
    rw [getVisible_toOption, point_agrees_iff hc] at hPoint
    rw [getVisible_toOption, flag_agrees_iff hc] at hFlag
    rw [getVisible_toOption] at hGuarded
    refine ⟨hPoint, hFlag.1, hFlag.2, fun hOpt hLocked => ?_, fun hOpt hLate => ?_,
      fun hOpt hLate => ?_⟩
    · have hNone := hGuarded hOpt
      rw [snapshotWithGuard_of_locked hOpt hLocked, visibleData_eq_undone] at hNone
      have hSome := congrArg Option.isSome hNone.symm
      rw [isSome_alive] at hSome
      simpa [EndsGone, Gone] using hSome
    · exact ((late_agrees_iff hOpt hLate).mp (hGuarded hOpt)).1
    · exact ((late_agrees_iff hOpt hLate).mp (hGuarded hOpt)).2
  · intro h
    refine ⟨?_, ?_, fun hOpt => ?_⟩
    · rw [getVisible_toOption]
      exact (point_agrees_iff hc).mpr h.staged
    · rw [getVisible_toOption]
      exact (flag_agrees_iff hc).mpr ⟨h.endpoints, h.undoesLive⟩
    · rw [getVisible_toOption]
      -- the guarded read, by who wrote the head
      cases hForeign : t.isForeign c.current.commitTs with
      | false =>
        rw [snapshotWithGuard_of_seen hOpt hForeign]
        unfold visibleData
        rw [hForeign]
        rfl
      | true =>
        rcases isForeign_iff.mp hForeign with hLocked | hLate
        · rw [snapshotWithGuard_of_locked hOpt hLocked, visibleData_eq_undone,
            Data.alive_of_gone (h.unlocked hOpt hLocked)]
          rfl
        · exact (late_agrees_iff hOpt hLate).mpr ⟨h.stamped hOpt hLate, h.reaches hOpt hLate⟩

/-! ## A vertex updated, and one deleted twice -/

section Traces

/-- Vertex 1 is created (commit 2) and, while transaction 2 (start 3) reads on, its
property is set (commit 5). -/
def updatedVertexActions : List (Action Nat) :=
  let t₁ := snapshotTxn 1 1 .pessimistic
  let t₃ := snapshotTxn 3 4 .pessimistic
  [.begin none .snapshot .pessimistic, .op t₁ (.createVertex (.new 1 0 [7])), .commit t₁ none,
    .begin none .snapshot .optimistic, .begin none .snapshot .pessimistic,
    .op t₃ (.setVertexProperty 1 [0] [8]), .commit t₃ none]

/-- The record that undoes the update. -/
def updatedVertexRecord : UndoRec (DeltaOp Nat) :=
  ⟨Timestamp.txnIdStart + 3, .setVertexProps 1 ⟨[0], [7]⟩, 2⟩

def updatedVertexChain : VersionChain (Vertex Nat) (DeltaOp Nat) :=
  ⟨⟨.new 1 0 [8], 5⟩, [updatedVertexRecord, ⟨Timestamp.txnIdStart + 1, .delVertex 1, 0⟩]⟩

/-- Vertex 1 is created (commit 2), deleted (commit 4), and, while transaction 3 (start 5)
reads on, deleted once more (commit 7). -/
def deletedTwiceActions : List (Action Nat) :=
  let t₁ := snapshotTxn 1 1 .pessimistic
  let t₂ := snapshotTxn 2 3 .pessimistic
  let t₄ := snapshotTxn 4 6 .pessimistic
  [.begin none .snapshot .pessimistic, .op t₁ (.createVertex (.new 1 0 [])), .commit t₁ none,
    .begin none .snapshot .pessimistic, .op t₂ (.deleteVertex 1), .commit t₂ none,
    .begin none .snapshot .pessimistic, .begin none .snapshot .pessimistic,
    .op t₄ (.deleteVertex 1), .commit t₄ none]

/-- **The answers part**: to the transaction that reads on, the vertex deleted twice is
absent, yet `is_visible` has it. -/
theorem visibility_disagrees : ∃ trace g,
    Run Step (fun _ _ => True) (.new none .pessimistic .snapshot : MemoryGraph Nat) trace g ∧
    ∃ t ∈ g.txnManager.activeTxns, ∃ c, g.chain .vertex 1 = some c ∧
      ¬ VisibilityAgrees g t .vertex 1 c := by
  let t₃ := snapshotTxn 3 5 .pessimistic
  obtain ⟨trace, g, hList, hFacts⟩ := exists_of_runList
    (show (runList (next fun _ _ => true)
      (.new none .pessimistic .snapshot : MemoryGraph Nat) deletedTwiceActions).map (fun r =>
      (r.2.txnManager.activeTxns, (r.2.vertices 1).isSome, r.2.vertexIsVisible t₃ 1,
      (r.2.readEntity t₃ .vertex 1).toOption.isSome)) = some ([t₃], true, true, false)
      by decide +kernel)
  simp only [Prod.mk.injEq] at hFacts
  obtain ⟨hActive, hSome, hFlag, hRead⟩ := hFacts
  obtain ⟨c, hc⟩ := Option.isSome_iff_exists.mp hSome
  refine ⟨trace, g, Run.of_runList (fun s a s' hNext => ⟨trivial, (step_of_next hNext).2⟩) hList,
    t₃, by rw [hActive]; exact List.mem_singleton.mpr rfl, c, hc, fun hAgrees => ?_⟩
  have hEq : g.vertexIsVisible t₃ 1 = (g.getVisible (k := .vertex) t₃ c).toOption.isSome :=
    hAgrees.flag
  rw [← hAgrees.point, hFlag, hRead] at hEq
  cases hEq

/-- An older snapshot of an updated vertex is one in all four. -/
theorem visibility_agrees_updated : ∃ trace g,
    Run Step (fun _ _ => True) (.new none .pessimistic .snapshot : MemoryGraph Nat) trace g ∧
    g.chain .vertex 1 = some updatedVertexChain ∧
    VisibilityAgrees g (snapshotTxn 2 3 .optimistic) .vertex 1 updatedVertexChain := by
  let t₂ := snapshotTxn 2 3 .optimistic
  obtain ⟨trace, g, hList, hFacts⟩ := exists_of_runList
    (show (runList (next fun _ _ => true)
      (.new none .pessimistic .snapshot : MemoryGraph Nat) updatedVertexActions).map (fun r =>
      (r.2.vertices 1, (r.2.pendingWrite t₂ .vertex 1).isSome,
      r.2.trailOf (k := .vertex) t₂ updatedVertexChain)) =
      some (some updatedVertexChain, false, [updatedVertexRecord]) by decide +kernel)
  simp only [Prod.mk.injEq] at hFacts
  obtain ⟨hc, hNone, hTrail⟩ := hFacts
  have hPending : g.pendingWrite t₂ .vertex 1 = none := by simpa using hNone
  refine ⟨trace, g, Run.of_runList (fun s a s' hNext => ⟨trivial, (step_of_next hNext).2⟩) hList,
    hc, (visibility_agrees_iff (k := .vertex) hc).mpr ?_⟩
  refine ⟨fun intent hp => ?_, fun hEnds => (nomatch hEnds), fun _ => ?_, fun _ hLocked => ?_,
    fun _ _ => ?_, fun _ _ hAll => ?_⟩
  · rw [hPending] at hp
    cases hp
  · -- the one record sets a property
    rw [hTrail]
    intro pre r post img hEq hCreate
    have hMem : r ∈ [updatedVertexRecord] := by simp [hEq]
    rw [List.mem_singleton.mp hMem] at hCreate
    cases hCreate
  · exact absurd hLocked.1 (by decide)
  · rw [hTrail]
    intro pre r post hEq _ hStamp
    have hMem : r ∈ [updatedVertexRecord] := by simp [hEq]
    rw [List.mem_singleton.mp hMem] at hStamp
    exact absurd hStamp (by decide)
  · rw [hTrail] at hAll
    exact absurd (hAll _ (List.mem_singleton.mpr rfl)) (by decide)

end Traces

end MemoryGraph

end MiniGU
