import Mathlib.Data.List.Basic

/-!
# Version chains with undo records

A store that keeps only the newest version of an item and reaches older ones by
undoing: the head carries the data and a stamp, and a list of undo records leads
back in time. Each record belongs to the undo buffer of the transaction that wrote
it (`owner`) and can be followed only while that buffer is alive, which is what a
weak pointer into the buffer gives. Records never change once written, so a pointer
is represented by the records it leads to.

`D` is the data, `Δ` the kind of undo delta and `undo` how one delta is undone.

* `Overlay` says that the newest versions of a chain are the writes of one
  transaction over the version it found; `Overlay.restore_some` gives what undoing it
  oldest-first leaves.
* `Layered` says that each version was written by a transaction committed no earlier
  than the stamp the version carries.
* `Tells` says that the versions of a chain are the values that an item had over time;
  `Tells.walk` is then what a reader is given, and `Overlay.tells` keeps it true under
  the writes of a running transaction.
-/

namespace MiniGU

variable {D Δ : Type}

/-- One undo record as seen through a weak pointer. `timestamp` is the stamp of the
version that undoing the record restores. -/
structure UndoRec (Δ : Type) where
  owner : Nat
  delta : Δ
  timestamp : Nat
deriving DecidableEq, Repr

/-- A weak pointer to an undo entry: the entry and everything behind it. -/
abbrev UndoPtr (Δ : Type) := List (UndoRec Δ)

/-- An entry of an undo buffer. -/
structure UndoEntry (Δ : Type) where
  delta : Δ
  timestamp : Nat
  next : UndoPtr Δ
deriving DecidableEq, Repr

/-- The weak pointer to an entry held in the buffer of `owner`. -/
def UndoEntry.downgrade (owner : Nat) (e : UndoEntry Δ) : UndoPtr Δ :=
  ⟨owner, e.delta, e.timestamp⟩ :: e.next

structure CurrentVersion (D : Type) where
  data : D
  commitTs : Nat
deriving DecidableEq, Repr

structure VersionChain (D Δ : Type) where
  current : CurrentVersion D
  undoPtr : UndoPtr Δ
deriving DecidableEq, Repr

/-- Follow the undo records from `d`, undoing each, until one restores a version
stamped before `s` or a record can no longer be followed. -/
def walk (undo : Δ → D → D) (live : Nat → Bool) (s : Nat) : D → UndoPtr Δ → D
  | d, [] => d
  | d, r :: rest =>
    if live r.owner then
      if r.timestamp < s then undo r.delta d else walk undo live s (undo r.delta d) rest
    else d

namespace VersionChain

/-- What a reader with snapshot `s`, not the writer of the head, is given. -/
def readAt (undo : Δ → D → D) (live : Nat → Bool) (s : Nat) (c : VersionChain D Δ) : D :=
  if c.current.commitTs ≤ s then c.current.data
  else walk undo live s c.current.data c.undoPtr

/-- The chain after `owner` has written `d` over `c`, undone by `δ`; `ts` is the
stamp recorded with the undo record. -/
def push (owner : Nat) (δ : Δ) (ts : Nat) (d : D) (c : VersionChain D Δ) :
    VersionChain D Δ :=
  ⟨⟨d, owner⟩, ⟨owner, δ, ts⟩ :: c.undoPtr⟩

/-- The chain with its head stamped `ts`. -/
def stamp (ts : Nat) (c : VersionChain D Δ) : VersionChain D Δ :=
  { c with current := { c.current with commitTs := ts } }

@[simp] theorem push_commitTs (owner : Nat) (δ : Δ) (ts : Nat) (d : D) (c : VersionChain D Δ) :
    (c.push owner δ ts d).current.commitTs = owner := rfl

@[simp] theorem push_undoPtr (owner : Nat) (δ : Δ) (ts : Nat) (d : D) (c : VersionChain D Δ) :
    (c.push owner δ ts d).undoPtr = ⟨owner, δ, ts⟩ :: c.undoPtr := rfl

end VersionChain

/-! ## Reading a chain -/

section Read

variable {undo : Δ → D → D} {live : Nat → Bool} {s : Nat} {c : VersionChain D Δ}

theorem VersionChain.readAt_of_le (h : c.current.commitTs ≤ s) :
    c.readAt undo live s = c.current.data := if_pos h

theorem VersionChain.readAt_of_lt (h : s < c.current.commitTs) :
    c.readAt undo live s = walk undo live s c.current.data c.undoPtr :=
  if_neg (Nat.not_le.mpr h)

end Read

/-! ## Trails -/

/-- The records that a reader with snapshot `s` undoes. -/
def trail (live : Nat → Bool) (s : Nat) : UndoPtr Δ → UndoPtr Δ
  | [] => []
  | r :: rest =>
    if live r.owner then if r.timestamp < s then [r] else r :: trail live s rest else []

theorem walk_eq_foldl (undo : Δ → D → D) (live : Nat → Bool) (s : Nat) (d : D) (ptr : UndoPtr Δ) :
    walk undo live s d ptr = (trail live s ptr).foldl (fun d r => undo r.delta d) d := by
  induction ptr generalizing d with
  | nil => rfl
  | cons r rest ih =>
    unfold walk trail
    split
    · split
      · rfl
      · exact ih _
    · rfl

theorem mem_of_mem_trail {live : Nat → Bool} {s : Nat} {ptr : UndoPtr Δ} {r : UndoRec Δ}
    (h : r ∈ trail live s ptr) : r ∈ ptr := by
  induction ptr with
  | nil => exact h
  | cons r' rest ih =>
    unfold trail at h
    split at h
    · split at h
      · rw [List.mem_singleton.mp h]
        exact List.mem_cons_self ..
      · rcases List.mem_cons.mp h with rfl | h
        · exact List.mem_cons_self ..
        · exact List.mem_cons_of_mem _ (ih h)
    · cases h

/-! ## The writes of one transaction -/

/-- `Overlay undo gone T base es c`: the chain `c` is what the writes of `T` made of
`base` (`none`: `T` created the item; else a version `T` had no part in), and `es` are
their undo entries, oldest first. Undoing an entry gives back the data before the write;
undoing a creation gives something `gone`. -/
inductive Overlay (undo : Δ → D → D) (gone : D → Prop) (T : Nat) :
    Option (VersionChain D Δ) → List (UndoEntry Δ) → VersionChain D Δ → Prop where
  | create (d : D) (δ : Δ) (ts : Nat) (hGone : ∀ d', gone (undo δ d')) :
      Overlay undo gone T none [⟨δ, ts, []⟩] ⟨⟨d, T⟩, [⟨T, δ, ts⟩]⟩
  | first (c : VersionChain D Δ) (d : D) (δ : Δ) (hTs : c.current.commitTs ≠ T)
      (hOwner : ∀ r ∈ c.undoPtr, r.owner ≠ T) (hUndo : undo δ d = c.current.data) :
      Overlay undo gone T (some c) [⟨δ, c.current.commitTs, c.undoPtr⟩]
        (c.push T δ c.current.commitTs d)
  | next {base : Option (VersionChain D Δ)} {es : List (UndoEntry Δ)} {c : VersionChain D Δ}
      (h : Overlay undo gone T base es c) (d : D) (δ : Δ) (hUndo : undo δ d = c.current.data) :
      Overlay undo gone T base (es ++ [⟨δ, T, c.undoPtr⟩]) (c.push T δ T d)

namespace Overlay

variable {undo : Δ → D → D} {gone : D → Prop} {T : Nat} {base : Option (VersionChain D Δ)}
  {b c : VersionChain D Δ} {es : List (UndoEntry Δ)} {live : Nat → Bool} {s : Nat}

theorem commitTs_eq (h : Overlay undo gone T base es c) : c.current.commitTs = T := by
  cases h <;> rfl

theorem ne_nil (h : Overlay undo gone T base es c) : es ≠ [] := by
  cases h <;> simp

theorem base_ne (h : Overlay undo gone T (some b) es c) : b.current.commitTs ≠ T := by
  generalize hb : some b = base at h
  induction h with
  | create => cases hb
  | first c d δ hTs =>
    cases hb
    exact hTs
  | next _ _ _ _ ih => exact ih hb

/-- The entries are the records of the chain, seen from the buffer. -/
theorem mem_undoPtr (h : Overlay undo gone T base es c) {e : UndoEntry Δ} (he : e ∈ es) :
    ⟨T, e.delta, e.timestamp⟩ ∈ c.undoPtr ∧ ∀ r ∈ e.next, r ∈ c.undoPtr := by
  induction h with
  | create d δ ts =>
    obtain rfl := List.mem_singleton.mp he
    simp
  | first c d δ =>
    obtain rfl := List.mem_singleton.mp he
    exact ⟨List.mem_cons_self .., fun r hr => List.mem_cons_of_mem _ hr⟩
  | next h d δ _ ih =>
    rcases List.mem_append.mp he with he | he
    · obtain ⟨hSelf, hNext⟩ := ih he
      exact ⟨List.mem_cons_of_mem _ hSelf, fun r hr => List.mem_cons_of_mem _ (hNext r hr)⟩
    · obtain rfl := List.mem_singleton.mp he
      exact ⟨List.mem_cons_self .., fun r hr => List.mem_cons_of_mem _ hr⟩

/-- The oldest entry remembers the stamp and the records of the base. -/
theorem head_entry (h : Overlay undo gone T (some b) es c) :
    ∃ e es', es = e :: es' ∧ e.timestamp = b.current.commitTs ∧ e.next = b.undoPtr := by
  generalize hb : some b = base at h
  induction h with
  | create => cases hb
  | first c d δ =>
    cases hb
    exact ⟨_, [], rfl, rfl, rfl⟩
  | @next base es c h d δ _ ih =>
    obtain ⟨e, es', rfl, hTs, hNext⟩ := ih hb
    exact ⟨e, es' ++ [⟨δ, T, c.undoPtr⟩], rfl, hTs, hNext⟩

/-- Every record in front of the base belongs to the writer. -/
theorem owner_of_mem (h : Overlay undo gone T base es c) {r : UndoRec Δ}
    (hr : r ∈ c.undoPtr) : r.owner = T ∨ ∃ b, base = some b ∧ r ∈ b.undoPtr := by
  induction h with
  | create d δ ts =>
    obtain rfl : r = ⟨T, δ, ts⟩ := by simpa using hr
    exact .inl rfl
  | first c d δ =>
    rcases List.mem_cons.mp hr with rfl | hr
    · exact .inl rfl
    · exact .inr ⟨c, rfl, hr⟩
  | next h d δ _ ih =>
    rcases List.mem_cons.mp hr with rfl | hr
    · exact .inl rfl
    · exact ih hr

end Overlay

/-- Put back, for one undo entry of `T`, the version it remembers, if the head is
still `T`'s. -/
def restoreEntry (restore : Δ → D → D) (T : Nat) (c : VersionChain D Δ) (e : UndoEntry Δ) :
    VersionChain D Δ :=
  if c.current.commitTs = T then ⟨⟨restore e.delta c.current.data, e.timestamp⟩, e.next⟩ else c

theorem foldl_restoreEntry_of_ne {restore : Δ → D → D} {T : Nat} {c : VersionChain D Δ}
    (h : c.current.commitTs ≠ T) (es : List (UndoEntry Δ)) :
    es.foldl (restoreEntry restore T) c = c := by
  induction es with
  | nil => rfl
  | cons e es ih => rw [List.foldl_cons, restoreEntry, if_neg h, ih]

/-- A restored chain is the chain it was, or one that some entry remembers. -/
theorem foldl_restoreEntry_cases (restore : Δ → D → D) (T : Nat) (c : VersionChain D Δ)
    (es : List (UndoEntry Δ)) :
    es.foldl (restoreEntry restore T) c = c ∨ c.current.commitTs = T ∧ ∃ e ∈ es,
      (es.foldl (restoreEntry restore T) c).current.commitTs = e.timestamp ∧
      (es.foldl (restoreEntry restore T) c).undoPtr = e.next := by
  by_cases hT : c.current.commitTs = T
  · induction es generalizing c with
    | nil => exact .inl rfl
    | cons e es ih =>
      -- the last entry that finds its own stamp at the head decides
      rw [List.foldl_cons]
      have hHead : restoreEntry restore T c e =
          ⟨⟨restore e.delta c.current.data, e.timestamp⟩, e.next⟩ := if_pos hT
      refine .inr ⟨hT, ?_⟩
      by_cases hStop : e.timestamp = T
      · rcases ih (restoreEntry restore T c e) (by rw [hHead]; exact hStop) with
          heq | ⟨-, e', he', hTs, hNext⟩
        · rw [heq, hHead]
          exact ⟨e, List.mem_cons_self .., rfl, rfl⟩
        · exact ⟨e', List.mem_cons_of_mem _ he', hTs, hNext⟩
      · rw [foldl_restoreEntry_of_ne (by rw [hHead]; exact hStop), hHead]
        exact ⟨e, List.mem_cons_self .., rfl, rfl⟩
  · exact .inl (foldl_restoreEntry_of_ne hT es)

/-- Restored oldest entry first, a chain gets the stamp and the records of the base,
and the data that the oldest entry alone makes of the head. -/
theorem Overlay.restore_some {undo : Δ → D → D} {gone : D → Prop} {T : Nat}
    {b c : VersionChain D Δ} {es : List (UndoEntry Δ)} (restore : Δ → D → D)
    (h : Overlay undo gone T (some b) es c) :
    ∃ e es', es = e :: es' ∧ es.foldl (restoreEntry restore T) c =
      ⟨⟨restore e.delta c.current.data, b.current.commitTs⟩, b.undoPtr⟩ := by
  obtain ⟨e, es', rfl, hTs, hNext⟩ := h.head_entry
  refine ⟨e, es', rfl, ?_⟩
  have hHead : restoreEntry restore T c e =
      ⟨⟨restore e.delta c.current.data, b.current.commitTs⟩, b.undoPtr⟩ := by
    rw [restoreEntry, if_pos h.commitTs_eq, hTs, hNext]
  rw [List.foldl_cons, hHead]
  exact foldl_restoreEntry_of_ne (by exact h.base_ne) es'

/-! ## Versions and the transactions that wrote them -/

/-- `Layered cts ts ptr`: behind a version stamped `ts`, each record belongs to a
transaction that, if it has committed (`cts`), did so no earlier than the version that
undoing the record leads away from. -/
def Layered (cts : Nat → Option Nat) : Nat → UndoPtr Δ → Prop
  | _, [] => True
  | ts, r :: rest => (∀ t, cts r.owner = some t → ts ≤ t) ∧ Layered cts (min ts r.timestamp) rest

namespace Layered

variable {cts cts' : Nat → Option Nat} {ts : Nat} {ptr : UndoPtr Δ}

theorem anti {ts' : Nat} (h : Layered cts ts ptr) (hle : ts' ≤ ts) : Layered cts ts' ptr := by
  induction ptr generalizing ts ts' with
  | nil => trivial
  | cons r rest ih =>
    obtain ⟨hr, hrest⟩ := h
    exact ⟨fun t ht => Nat.le_trans hle (hr t ht), ih hrest (by omega)⟩

theorem congr (h : Layered cts ts ptr) (hEq : ∀ r ∈ ptr, cts' r.owner = cts r.owner) :
    Layered cts' ts ptr := by
  induction ptr generalizing ts with
  | nil => trivial
  | cons r rest ih =>
    obtain ⟨hr, hrest⟩ := h
    refine ⟨fun t ht => hr t ?_, ih hrest fun r' hr' => hEq r' (List.mem_cons_of_mem _ hr')⟩
    rw [← hEq r (List.mem_cons_self ..)]
    exact ht

/-- Records of transactions that have not committed are layered under any stamp. -/
theorem of_none (h : ∀ r ∈ ptr, cts r.owner = none) : Layered cts ts ptr := by
  induction ptr generalizing ts with
  | nil => trivial
  | cons r rest ih =>
    refine ⟨fun t ht => ?_, ih fun r' hr' => h r' (List.mem_cons_of_mem _ hr')⟩
    rw [h r (List.mem_cons_self ..)] at ht
    cases ht

/-- What lies under the writes of one transaction is layered as it was. -/
theorem base {undo : Δ → D → D} {gone : D → Prop} {T : Nat} {b c : VersionChain D Δ}
    {es : List (UndoEntry Δ)} (h : Overlay undo gone T (some b) es c)
    (hc : Layered cts T c.undoPtr) : Layered cts (min T b.current.commitTs) b.undoPtr := by
  generalize hb : some b = base at h
  induction h with
  | create => cases hb
  | first c d δ =>
    cases hb
    exact hc.2
  | next h d δ _ ih =>
    refine ih ?_ hb
    have hRest := hc.2
    rwa [Nat.min_self] at hRest

/-- A transaction commits at `c`, and the head gets a stamp no later than that. -/
theorem commit {T c : Nat} (h : Layered cts ts ptr) (hT : ∀ t, cts' T = some t → c ≤ t)
    (hEq : ∀ o, o ≠ T → cts' o = cts o) : Layered cts' (min c ts) ptr := by
  induction ptr generalizing ts with
  | nil => trivial
  | cons r rest ih =>
    obtain ⟨hr, hrest⟩ := h
    refine ⟨fun t ht => ?_, ?_⟩
    · by_cases hOwner : r.owner = T
      · rw [hOwner] at ht
        have := hT t ht
        omega
      · rw [hEq _ hOwner] at ht
        have := hr t ht
        omega
    · rw [Nat.min_assoc]
      exact ih hrest

/-- What a snapshot below the stamp reads does not depend on the buffers of the
transactions committed at or before the snapshot. -/
theorem walk_congr {undo : Δ → D → D} {live live' : Nat → Bool} {s : Nat}
    (h : Layered cts ts ptr) (hs : s < ts) (hNe : ∀ r ∈ ptr, r.timestamp ≠ s)
    (hLive : ∀ o, live o ≠ live' o → ∃ t, cts o = some t ∧ t ≤ s) (d : D) :
    walk undo live s d ptr = walk undo live' s d ptr := by
  induction ptr generalizing ts d with
  | nil => rfl
  | cons r rest ih =>
    obtain ⟨hr, hrest⟩ := h
    have hOwner : live r.owner = live' r.owner := by
      by_contra hne
      obtain ⟨t, ht, hle⟩ := hLive r.owner hne
      have := hr t ht
      omega
    simp only [walk, hOwner]
    by_cases hStop : r.timestamp < s
    · simp only [hStop, if_true]
    · -- the walk goes on: the next version is newer than the snapshot as well
      have hne := hNe r (List.mem_cons_self ..)
      rw [ih hrest (by omega) fun r' hr' => hNe r' (List.mem_cons_of_mem _ hr')]

end Layered

/-! ## Chains that tell a history -/

section Tells

variable {X : Type} {undo : Δ → D → D} {val : D → Option X} {f f' : Nat → Option X}
  {hi s : Nat} {d : D} {ptr : UndoPtr Δ}

/-- Behind a version with data `d` that holds from `hi` on, the records tell `f` for every
time before `hi`. -/
def Tells (undo : Δ → D → D) (val : D → Option X) (f : Nat → Option X) :
    Nat → D → UndoPtr Δ → Prop
  | hi, d, [] => ∀ s < hi, f s = val d
  | hi, d, r :: rest =>
    (∀ s, r.timestamp ≤ s → s < hi → f s = val (undo r.delta d)) ∧
      Tells undo val f (min hi r.timestamp) (undo r.delta d) rest

/-- A chain whose head is committed tells `f`; where there is no chain, the item never had
a value. -/
def TellsAll (undo : Δ → D → D) (val : D → Option X) (f : Nat → Option X) :
    Option (VersionChain D Δ) → Prop
  | none => ∀ s, f s = none
  | some c => (∀ s, c.current.commitTs ≤ s → f s = val c.current.data) ∧
      Tells undo val f c.current.commitTs c.current.data c.undoPtr

theorem Tells.congr (h : Tells undo val f hi d ptr) (hEq : ∀ s < hi, f' s = f s) :
    Tells undo val f' hi d ptr := by
  induction ptr generalizing hi d with
  | nil => exact fun s hs => (hEq s hs).trans (h s hs)
  | cons r rest ih =>
    obtain ⟨hHere, hRest⟩ := h
    refine ⟨fun s hle hlt => (hEq s hlt).trans (hHere s hle hlt), ih hRest fun s hs => ?_⟩
    exact hEq s (by omega)

/-- **A reader is given what the chain tells**, unless it stands exactly at the stamp of a
version that has been written over: there the walk goes on, which does no harm only if
nothing lies behind. -/
theorem Tells.walk {live : Nat → Bool} (h : Tells undo val f hi d ptr) (hs : s < hi)
    (hLive : ∀ r ∈ ptr, live r.owner = true)
    (hLast : ∀ pre r post, ptr = pre ++ r :: post → r.timestamp = s → post = []) :
    val (walk undo live s d ptr) = f s := by
  induction ptr generalizing hi d with
  | nil => exact (h s hs).symm
  | cons r rest ih =>
    obtain ⟨hHere, hRest⟩ := h
    simp only [MiniGU.walk, hLive r (List.mem_cons_self ..), if_true]
    by_cases hlt : r.timestamp < s
    · rw [if_pos hlt]
      exact (hHere s (Nat.le_of_lt hlt) hs).symm
    · rw [if_neg hlt]
      by_cases hEq : r.timestamp = s
      · obtain rfl := hLast [] r rest rfl hEq
        exact (hHere s (Nat.le_of_eq hEq) hs).symm
      · refine ih hRest (by omega) (fun r' hr' => hLive r' (List.mem_cons_of_mem _ hr')) ?_
        intro pre r' post hPtr
        exact hLast (r :: pre) r' post (by rw [hPtr]; rfl)

/-- The writes of `T` over a chain that tells `f` tell it as well, for every time that is
not later than `T`'s stamp. -/
theorem Overlay.tells {gone : D → Prop} {T : Nat} {base : Option (VersionChain D Δ)}
    {es : List (UndoEntry Δ)} {c : VersionChain D Δ} (h : Overlay undo gone T base es c)
    (hGone : ∀ d, gone d → val d = none) (hBase : TellsAll undo val f base)
    (hLe : ∀ b, base = some b → b.current.commitTs ≤ hi) (hT : hi ≤ T) :
    Tells undo val f hi c.current.data c.undoPtr := by
  induction h with
  | create d δ ts hUndo =>
    have hNone : ∀ s, f s = val (undo δ d) := fun s => by rw [hBase s, hGone _ (hUndo d)]
    exact ⟨fun s _ _ => hNone s, fun s _ => hNone s⟩
  | first c d δ hTs hOwner hUndo =>
    have hStamp := hLe c rfl
    refine ⟨fun s hle _ => ?_, ?_⟩
    · exact (hBase.1 s hle).trans (by rw [← hUndo]; rfl)
    · show Tells undo val f (min hi c.current.commitTs) (undo δ d) c.undoPtr
      rw [hUndo, Nat.min_eq_right hStamp]
      exact hBase.2
  | next h d δ hUndo ih =>
    refine ⟨fun s (hle : T ≤ s) hlt => by omega, ?_⟩
    show Tells undo val f (min hi T) (undo δ d) _
    rw [hUndo, Nat.min_eq_left hT]
    exact ih hBase hLe

end Tells

end MiniGU
