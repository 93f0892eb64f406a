import Mathlib.Data.List.Basic
import Mathlib.Logic.Function.Basic

/-!
# Loops over a list with its indices

A loop over `l.zipIdx` whose body looks an element up by its key is the loop over the
keys (`scan_zipIdx`), or over the indices (`foldlM_zipIdx`). A loop that writes a map
leaves at each key what one of the writes to it put there (`foldl_update_cases`). Setting one
position keeps the elements of the others (`mem_set_or_eq`), and so does one more element
(`getElem?_concat_cases`).
-/

namespace MiniGU

variable {α β γ κ : Type}

/-- A loop over a list with its indices is a loop over the indices. -/
theorem foldlM_zipIdx {F : β → α × Nat → Option β} {G : β → Nat → Option β} (l : List α)
    (k : Nat) (init : β) (h : ∀ i a acc, l[i]? = some a → F acc (a, k + i) = G acc (k + i)) :
    (l.zipIdx k).foldlM F init = (List.range' k l.length).foldlM G init := by
  induction l generalizing k init with
  | nil => rfl
  | cons a l ih =>
    have hHead : F init (a, k) = G init k := h 0 a init rfl
    have hTail : ∀ i a' acc, l[i]? = some a' → F acc (a', k + 1 + i) = G acc (k + 1 + i) := by
      intro i a' acc hi
      rw [show k + 1 + i = k + (i + 1) by omega]
      exact h (i + 1) a' acc hi
    rw [List.zipIdx_cons, List.length_cons, List.range'_succ, List.foldlM_cons, List.foldlM_cons,
      hHead]
    exact bind_congr fun acc => ih (k + 1) acc hTail

/-- A scan that stops at the first element failing a test and picks from the rest sees
only the keys. -/
theorem scan_zipIdx {key : α → κ} {p : α × Nat → Bool} {p' : κ → Bool}
    {f : α × Nat → Option β} {f' : κ → Option β} (l : List α) (k : Nat)
    (hp : ∀ i a, l[i]? = some a → p (a, k + i) = p' (key a))
    (hf : ∀ i a, l[i]? = some a → p (a, k + i) = true → f (a, k + i) = f' (key a)) :
    ((l.zipIdx k).takeWhile p).filterMap f = ((l.map key).takeWhile p').filterMap f' := by
  induction l generalizing k with
  | nil => rfl
  | cons a l ih =>
    have hIh : ((l.zipIdx (k + 1)).takeWhile p).filterMap f =
        ((l.map key).takeWhile p').filterMap f' := by
      refine ih (k + 1) (fun i a' hi => ?_) fun i a' hi => ?_
      · rw [show k + 1 + i = k + (i + 1) by omega]
        exact hp (i + 1) a' hi
      · rw [show k + 1 + i = k + (i + 1) by omega]
        exact hf (i + 1) a' hi
    have hHead : p (a, k) = p' (key a) := hp 0 a rfl
    rw [List.zipIdx_cons, List.map_cons, List.takeWhile_cons, List.takeWhile_cons, ← hHead]
    split
    · rename_i hTrue
      have hItem : f (a, k) = f' (key a) := hf 0 a rfl hTrue
      rw [List.filterMap_cons, List.filterMap_cons, hItem, hIh]
    · rfl

theorem map_zipIdx_fst {f : α → β} (l : List α) :
    l.map f = l.zipIdx.map fun q => f q.1 := by
  conv_lhs => rw [← List.zipIdx_map_fst 0 l]
  rw [List.map_map]
  rfl

theorem mem_drop_zipIdx {l : List α} {s i : Nat} {a : α} :
    (a, i) ∈ l.zipIdx.drop s ↔ s ≤ i ∧ l[i]? = some a := by
  rw [List.mem_iff_getElem?]
  constructor
  · rintro ⟨n, hn⟩
    rw [List.getElem?_drop, List.getElem?_zipIdx, Option.map_eq_some_iff] at hn
    obtain ⟨a', hl, hEq⟩ := hn
    obtain ⟨rfl, hi⟩ := Prod.mk.inj hEq
    have hIdx : i = s + n := by omega
    exact ⟨by omega, hIdx ▸ hl⟩
  · rintro ⟨hs, hl⟩
    refine ⟨i - s, ?_⟩
    rw [List.getElem?_drop, List.getElem?_zipIdx, show s + (i - s) = i by omega, hl]
    simp

/-- What a loop of guarded writes leaves at a key: one of the writes to it, or, when
there is none, the value from before. -/
theorem foldl_update_cases [DecidableEq κ] {skip : α → Bool} {key : α → κ} {val : α → γ}
    (l : List α) (m : κ → γ) (k : κ) :
    (∃ a ∈ l, skip a = false ∧ key a = k ∧
      l.foldl (fun m a => if skip a then m else Function.update m (key a) (val a)) m k = val a) ∨
    ((∀ a ∈ l, skip a = false → key a ≠ k) ∧
      l.foldl (fun m a => if skip a then m else Function.update m (key a) (val a)) m k = m k) := by
  induction l generalizing m with
  | nil => exact .inr ⟨fun _ ha => (nomatch ha), rfl⟩
  | cons a l ih =>
    rw [List.foldl_cons]
    rcases ih (if skip a then m else Function.update m (key a) (val a)) with
      ⟨a', ha', hSkip, hKey, hVal⟩ | ⟨hNone, hVal⟩
    · exact .inl ⟨a', List.mem_cons_of_mem _ ha', hSkip, hKey, hVal⟩
    · by_cases hWrite : skip a = false ∧ key a = k
      · obtain ⟨hSkip, hKey⟩ := hWrite
        refine .inl ⟨a, List.mem_cons_self .., hSkip, hKey, ?_⟩
        rw [hVal, hSkip, ← hKey]
        simp
      · refine .inr ⟨fun a' ha' hSkip => ?_, ?_⟩
        · rcases List.mem_cons.mp ha' with rfl | ha'
          · exact fun hKey => hWrite ⟨hSkip, hKey⟩
          · exact hNone a' ha' hSkip
        · rw [hVal]
          cases hSkip : skip a with
          | true => rfl
          | false =>
            exact Function.update_of_ne (fun hKey => hWrite ⟨hSkip, hKey.symm⟩) _ _

/-- In a list without repetitions an element is among those taken when the test holds up
to its place. -/
theorem mem_takeWhile_iff {l : List α} {p : α → Bool} {x : α} {j : Nat} (hNodup : l.Nodup)
    (hj : l[j]? = some x) :
    x ∈ l.takeWhile p ↔ ∀ i ≤ j, ∀ y, l[i]? = some y → p y = true := by
  induction l generalizing j with
  | nil => cases hj
  | cons a l ih =>
    obtain ⟨hHead, hTail⟩ := List.nodup_cons.mp hNodup
    rw [List.takeWhile_cons]
    cases j with
    | zero =>
      obtain rfl : a = x := Option.some.inj hj
      constructor
      · intro h i hi y hy
        obtain rfl : i = 0 := Nat.le_zero.mp hi
        obtain rfl : a = y := Option.some.inj hy
        split at h
        · rename_i hp
          exact hp
        · cases h
      · intro h
        rw [if_pos (h 0 (Nat.le_refl 0) a rfl)]
        exact List.mem_cons_self ..
    | succ j =>
      have hj : l[j]? = some x := hj
      have hNe : x ≠ a := by
        rintro rfl
        exact hHead (List.mem_iff_getElem?.mpr ⟨j, hj⟩)
      constructor
      · intro h i hi y hy
        split at h
        · rename_i hp
          cases i with
          | zero =>
            obtain rfl : a = y := Option.some.inj hy
            exact hp
          | succ i =>
            have hMem := (List.mem_cons.mp h).resolve_left hNe
            exact (ih hTail hj).mp hMem i (Nat.le_of_succ_le_succ hi) y hy
        · cases h
      · intro h
        rw [if_pos (h 0 (Nat.zero_le _) a rfl)]
        refine List.mem_cons_of_mem _ ((ih hTail hj).mpr fun i hi y hy => ?_)
        exact h (i + 1) (Nat.succ_le_succ hi) y hy

/-- What stands in a list with one more element. -/
theorem getElem?_concat_cases {l : List α} {x y : α} {i : Nat} (h : (l ++ [x])[i]? = some y) :
    l[i]? = some y ∨ (i = l.length ∧ y = x) := by
  rw [List.getElem?_append] at h
  split at h
  · exact .inl h
  · rename_i hLt
    have hIdx : i - l.length = 0 := by
      have := (List.getElem?_eq_some_iff.mp h).1
      simpa using this
    rw [hIdx] at h
    exact .inr ⟨by omega, (Option.some.inj h).symm⟩

/-- An element of a list is still there after one position is set, unless it was the one there. -/
theorem mem_set_or_eq {xs : List α} {x y : α} {i : Nat} (hx : x ∈ xs)
    (hAt : xs[i]? = some y) (z : α) : x = y ∨ x ∈ xs.set i z := by
  obtain ⟨j, hj⟩ := List.mem_iff_getElem?.mp hx
  by_cases hSame : i = j
  · subst hSame
    exact .inl (Option.some.inj (hj.symm.trans hAt))
  · refine .inr (List.mem_iff_getElem?.mpr ⟨j, ?_⟩)
    rw [List.getElem?_set_ne hSame, hj]

end MiniGU
