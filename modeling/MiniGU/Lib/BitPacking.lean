import Mathlib.Algebra.GroupWithZero.Nat
import Mathlib.Data.List.Basic
import Mathlib.Data.Nat.Init

/-!
# Numbers packed into bits, and ranks in a bitmap

`pack` writes numbers one behind the other, each in the same number of bits, lowest bit
first; reading one back gives it up to the width (`readBits_pack`). A dense array of the
values that are there is read at the number of values before (`getElem?_filterMap_range`),
which can be summed up word by word (`countP_range_words`).
-/

namespace MiniGU

/-! ## Bits -/

/-- Set `width` bits from `start` on to those of `x`. -/
def writeBits (bits : List Bool) (start width x : Nat) : List Bool :=
  (List.range width).foldl (fun bits j => bits.set (start + j) (x.testBit j)) bits

def readBits (bits : List Bool) (start width : Nat) : Nat :=
  Nat.ofBits fun j : Fin width => (bits[start + j]?).getD false

theorem writeBits_succ (bits : List Bool) (start width x : Nat) :
    writeBits bits start (width + 1) x =
      (writeBits bits start width x).set (start + width) (x.testBit width) := by
  unfold writeBits
  rw [List.range_succ, List.foldl_append]
  rfl

theorem length_writeBits (bits : List Bool) (start width x : Nat) :
    (writeBits bits start width x).length = bits.length := by
  induction width with
  | zero => rfl
  | succ width ih => rw [writeBits_succ, List.length_set, ih]

theorem getElem?_writeBits (bits : List Bool) {start width : Nat} (x : Nat)
    (hRoom : start + width ≤ bits.length) (k : Nat) :
    (writeBits bits start width x)[k]? =
      if start ≤ k ∧ k < start + width then some (x.testBit (k - start)) else bits[k]? := by
  induction width with
  | zero =>
    rw [if_neg (by omega)]
    rfl
  | succ width ih =>
    rw [writeBits_succ]
    by_cases hk : start + width = k
    · subst hk
      rw [List.getElem?_set_self (by rw [length_writeBits]; omega), if_pos (by omega),
        Nat.add_sub_cancel_left]
    · rw [List.getElem?_set_ne hk, ih (by omega)]
      by_cases hIn : start ≤ k ∧ k < start + width
      · rw [if_pos hIn, if_pos (by omega)]
      · rw [if_neg hIn, if_neg (by omega)]

/-- A number is read back up to the width. -/
theorem readBits_writeBits (bits : List Bool) {start width : Nat} (x : Nat)
    (hRoom : start + width ≤ bits.length) :
    readBits (writeBits bits start width x) start width = x % 2 ^ width := by
  unfold readBits
  rw [← Nat.ofBits_testBit x width]
  congr 1
  funext j
  rw [getElem?_writeBits bits x hRoom, if_pos (by omega), Nat.add_sub_cancel_left]
  rfl

/-- Bits elsewhere are not touched. -/
theorem readBits_writeBits_other (bits : List Bool) {start width start' width' : Nat} (x : Nat)
    (hRoom : start + width ≤ bits.length)
    (hApart : start' + width' ≤ start ∨ start + width ≤ start') :
    readBits (writeBits bits start width x) start' width' = readBits bits start' width' := by
  unfold readBits
  congr 1
  funext j
  rw [getElem?_writeBits bits x hRoom, if_neg (by omega)]

/-! ## Packed numbers -/

def writeAll (width : Nat) (bits : List Bool) (xs : List (Nat × Nat)) : List Bool :=
  xs.foldl (fun bits (x, i) => writeBits bits (i * width) width x) bits

/-- The numbers one behind the other. -/
def pack (width : Nat) (xs : List Nat) : List Bool :=
  writeAll width (List.replicate (width * xs.length) false) xs.zipIdx

theorem place_le {i k width n : Nat} (h : i < k) (hRoom : k * width ≤ n) :
    i * width + width ≤ n := by
  have hMul : (i + 1) * width ≤ k * width := Nat.mul_le_mul_right width h
  rw [Nat.succ_mul] at hMul
  omega

theorem readBits_writeAll (width : Nat) (xs : List Nat) (k : Nat) (bits : List Bool)
    (hRoom : (k + xs.length) * width ≤ bits.length) (i : Nat) :
    readBits (writeAll width bits (xs.zipIdx k)) (i * width) width =
      if k ≤ i ∧ i < k + xs.length then (xs[i - k]?).getD 0 % 2 ^ width
      else readBits bits (i * width) width := by
  induction xs generalizing k bits with
  | nil =>
    rw [List.length_nil, if_neg (by omega)]
    rfl
  | cons x xs ih =>
    rw [List.length_cons] at hRoom ⊢
    have hHere : k * width + width ≤ bits.length := place_le (by omega) hRoom
    have hRest : (k + 1 + xs.length) * width ≤ (writeBits bits (k * width) width x).length := by
      rw [length_writeBits, show k + 1 + xs.length = k + (xs.length + 1) by omega]
      exact hRoom
    have hStep := ih (k + 1) (writeBits bits (k * width) width x) hRest
    show readBits (writeAll width (writeBits bits (k * width) width x) (xs.zipIdx (k + 1))) _ _ = _
    rw [hStep]
    rcases Nat.lt_trichotomy i k with hLt | rfl | hGt
    · rw [if_neg (by omega), if_neg (by omega), readBits_writeBits_other bits x hHere]
      exact .inl (place_le hLt (Nat.le_refl _))
    · rw [if_neg (by omega), if_pos (by omega), readBits_writeBits bits x hHere, Nat.sub_self,
        List.getElem?_cons_zero, Option.getD_some]
    · by_cases hIn : i < k + (xs.length + 1)
      · rw [if_pos (by omega), if_pos (by omega), show i - k = (i - (k + 1)) + 1 by omega]
        rfl
      · rw [if_neg (by omega), if_neg (by omega), readBits_writeBits_other bits x hHere]
        exact .inr (place_le hGt (Nat.le_refl _))

/-- **Reading back** a packed number. -/
theorem readBits_pack (width : Nat) {xs : List Nat} {i x : Nat} (h : xs[i]? = some x) :
    readBits (pack width xs) (i * width) width = x % 2 ^ width := by
  have hi := (List.getElem?_eq_some_iff.mp h).1
  have hRoom : (0 + xs.length) * width ≤ (List.replicate (width * xs.length) false).length :=
    Nat.le_of_eq (by rw [List.length_replicate, Nat.zero_add, Nat.mul_comm])
  unfold pack
  rw [readBits_writeAll width xs 0 _ hRoom, if_pos (by omega), Nat.sub_zero, h,
    Option.getD_some]

/-! ## Ranks -/

variable {α : Type}

/-- In the dense array a value stands behind those before it. -/
theorem getElem?_filterMap_range (f : Nat → Option α) {n i : Nat} (hi : i < n) {a : α}
    (h : f i = some a) :
    ((List.range n).filterMap f)[(List.range i).countP fun j => (f j).isSome]? = some a := by
  obtain ⟨m, rfl⟩ : ∃ m, n = i + (m + 1) := ⟨n - i - 1, by omega⟩
  have hBefore : ((List.range i).filterMap f).length =
      (List.range i).countP fun j => (f j).isSome := List.length_filterMap_eq_countP
  rw [List.range_add, List.filterMap_append, List.getElem?_append_right (Nat.le_of_eq hBefore),
    hBefore, Nat.sub_self, List.range_succ_eq_map, List.map_cons, List.filterMap_cons, Nat.add_zero,
    h]
  rfl

/-- A count up to some index, by words of `width`. -/
theorem countP_range_words (p : Nat → Bool) (width k r : Nat) :
    (List.range (k * width + r)).countP p =
      ((List.range k).map fun c => (List.range width).countP fun j => p (c * width + j)).sum +
        (List.range r).countP fun j => p (k * width + j) := by
  have hWords : (List.range (k * width)).countP p =
      ((List.range k).map fun c => (List.range width).countP fun j => p (c * width + j)).sum := by
    induction k with
    | zero => rw [Nat.zero_mul]; rfl
    | succ k ih =>
      rw [Nat.succ_mul, List.range_add, List.countP_append, ih, List.range_succ, List.map_append,
        List.sum_append, List.map_singleton, List.sum_singleton, List.countP_map]
      rfl
  rw [List.range_add, List.countP_append, hWords, List.countP_map]
  rfl

end MiniGU
