import Mathlib.Data.List.Sort
import Mathlib.Data.Prod.Lex

/-!
# The least elements of a stream

A bounded heap, kept as the ascending list of its elements, takes the elements of a stream one
after the other: while it has room it takes each, then one that is less than its largest in place
of that one. It holds the least elements of what has been offered (`foldl_offer`).

Selecting the least `k` before a test loses something the test would have let in unless nothing
that fails stands before something that passes across the limit (`length_filter_take_eq_min_iff`);
how many are less tells which side of the limit an element is on (`mem_take_iff_rank`).
-/

namespace MiniGU

variable {α : Type}

theorem dropLast_take_succ {k : Nat} {l : List α} (h : k < l.length) :
    (l.take (k + 1)).dropLast = l.take k := by
  rw [List.dropLast_eq_take, List.length_take, List.take_take]
  congr 1
  omega

/-! ## The heap -/

section Heap

variable [LinearOrder α]

/-- Offer `x` to a heap of at most `k` elements. -/
def offer (k : Nat) (heap : List α) (x : α) : List α :=
  if heap.length < k then heap.orderedInsert (· ≤ ·) x
  else
    match heap.getLast? with
    | some max => if x < max then heap.dropLast.orderedInsert (· ≤ ·) x else heap
    | none => heap

/-- An element that comes after the first leaves it in place. -/
theorem offer_cons_of_lt {a x : α} (h : a < x) (k : Nat) (heap : List α) :
    offer (k + 1) (a :: heap) x = a :: offer k heap x := by
  have hInsert : ∀ l : List α, (a :: l).orderedInsert (· ≤ ·) x = a :: l.orderedInsert (· ≤ ·) x :=
    fun l => List.orderedInsert_of_not_le _ l (not_le.mpr h)
  unfold offer
  by_cases hRoom : heap.length < k
  · rw [if_pos hRoom, if_pos (by rw [List.length_cons]; omega), hInsert]
  · rw [if_neg hRoom, if_neg (by rw [List.length_cons]; omega)]
    cases heap with
    | nil => exact if_neg (not_lt.mpr (le_of_lt h))
    | cons b heap =>
      rw [List.getLast?_cons_cons, List.dropLast_cons_cons]
      cases List.getLast? (b :: heap) with
      | none => rfl
      | some max =>
        dsimp only
        rw [hInsert]
        split
        · rfl
        · rfl

/-- What is put before all of a sorted list goes to its front. -/
theorem orderedInsert_of_forall_le {x : α} {l : List α} (h : ∀ b ∈ l, x ≤ b) :
    l.orderedInsert (· ≤ ·) x = x :: l := by
  cases l with
  | nil => rfl
  | cons b l => exact List.orderedInsert_cons_of_le _ l (h b List.mem_cons_self)

/-- What is put between what is less and what is greater. -/
theorem orderedInsert_append {x : α} {l₁ l₂ : List α} (h₁ : ∀ b ∈ l₁, b < x) (h₂ : ∀ b ∈ l₂, x ≤ b) :
    (l₁ ++ l₂).orderedInsert (· ≤ ·) x = l₁ ++ x :: l₂ := by
  induction l₁ with
  | nil => exact orderedInsert_of_forall_le h₂
  | cons b l₁ ih =>
    obtain ⟨hb, hRest⟩ := List.forall_mem_cons.mp h₁
    rw [List.cons_append, List.orderedInsert_of_not_le _ _ (not_le.mpr hb), ih hRest,
      List.cons_append]

/-- The first elements after an insertion are found among the first before it. -/
theorem take_orderedInsert (k : Nat) (x : α) (l : List α) :
    (l.orderedInsert (· ≤ ·) x).take k = ((l.take k).orderedInsert (· ≤ ·) x).take k := by
  induction l generalizing k with
  | nil => rw [List.take_nil]
  | cons b l ih =>
    cases k with
    | zero => rw [List.take_zero, List.take_zero]
    | succ k =>
      rw [List.take_succ_cons]
      by_cases h : x ≤ b
      · rw [List.orderedInsert_cons_of_le _ _ h, List.orderedInsert_cons_of_le _ _ h,
          List.take_succ_cons, List.take_succ_cons]
        cases k with
        | zero => rfl
        | succ k =>
          rw [List.take_succ_cons, List.take_succ_cons, List.take_take,
            Nat.min_eq_left (Nat.le_succ k)]
      · rw [List.orderedInsert_of_not_le _ _ h, List.orderedInsert_of_not_le _ _ h,
          List.take_succ_cons, List.take_succ_cons, ih]

/-- An element that comes before the first goes to the front, and the last makes room for it. -/
theorem offer_cons_of_le {a x : α} {S : List α} (hS : (a :: S).Pairwise (· ≤ ·)) (h : x ≤ a)
    (k : Nat) : offer (k + 1) ((a :: S).take (k + 1)) x = x :: (a :: S).take k := by
  have hFirst : ∀ b ∈ a :: S, x ≤ b := by
    intro b hb
    rcases List.mem_cons.mp hb with rfl | hb
    · exact h
    · exact le_trans h ((List.pairwise_cons.mp hS).1 b hb)
  have hFirstTake : ∀ n, ∀ b ∈ (a :: S).take n, x ≤ b := fun n b hb =>
    hFirst b (List.mem_of_mem_take hb)
  unfold offer
  by_cases hRoom : ((a :: S).take (k + 1)).length < k + 1
  · rw [if_pos hRoom, orderedInsert_of_forall_le (hFirstTake _)]
    rw [List.length_take] at hRoom
    rw [List.take_of_length_le (by omega), List.take_of_length_le (by omega)]
  · rw [if_neg hRoom]
    rw [List.length_take] at hRoom
    have hLength : k < (a :: S).length := by omega
    have hLast : ((a :: S).take (k + 1)).getLast? = (a :: S)[k]? := by
      rw [List.getLast?_take, if_neg (by omega), Nat.add_sub_cancel,
        List.getElem?_eq_getElem hLength]
      rfl
    rw [hLast, List.getElem?_eq_getElem hLength]
    dsimp only
    by_cases hLess : x < (a :: S)[k]
    · rw [if_pos hLess, dropLast_take_succ hLength, orderedInsert_of_forall_le (hFirstTake k)]
    · -- the heap is full of `x`
      rw [if_neg hLess]
      have hSame : ∀ b ∈ (a :: S).take (k + 1), b = x := by
        intro b hb
        obtain ⟨i, hi, hAt⟩ := List.mem_take_iff_getElem.mp hb
        have hLe : b ≤ (a :: S)[k] := by
          rw [← hAt]
          rcases Nat.lt_or_ge i k with hLt | hGe
          · exact List.pairwise_iff_getElem.mp hS i k _ _ hLt
          · have hEq : i = k := by omega
            subst hEq
            exact le_refl _
        exact le_antisymm (le_trans hLe (not_lt.mp hLess)) (hFirstTake _ b hb)
      have hPrefix : ∀ b ∈ (a :: S).take k, b = x := fun b hb =>
        hSame b (List.take_subset_take_left _ (Nat.le_succ k) hb)
      rw [List.eq_replicate_of_mem hSame, List.eq_replicate_of_mem hPrefix, List.length_take,
        List.length_take, ← List.replicate_succ]
      congr 1
      omega

/-- **One offer**: the least `k` of a sorted list become the least `k` with `x` in it. -/
theorem offer_take {S : List α} (hS : S.Pairwise (· ≤ ·)) (k : Nat) (x : α) :
    offer k (S.take k) x = (S.orderedInsert (· ≤ ·) x).take k := by
  induction S generalizing k with
  | nil =>
    cases k with
    | zero => rfl
    | succ k =>
      rw [List.take_nil, List.orderedInsert_nil, List.take_succ_cons, List.take_nil]
      exact if_pos (Nat.succ_pos k)
  | cons a S ih =>
    cases k with
    | zero => rfl
    | succ k =>
      by_cases h : x ≤ a
      · rw [offer_cons_of_le hS h, List.orderedInsert_cons_of_le _ S h, List.take_succ_cons]
      · rw [List.take_succ_cons, offer_cons_of_lt (not_le.mp h), ih (List.pairwise_cons.mp hS).2,
          List.orderedInsert_of_not_le _ S h, List.take_succ_cons]

/-- The elements of the stream in order. -/
theorem foldl_orderedInsert (l : List α) (S : List α) (hS : S.Pairwise (· ≤ ·)) :
    (l.foldl (fun S x => S.orderedInsert (· ≤ ·) x) S).Pairwise (· ≤ ·) ∧
      (l.foldl (fun S x => S.orderedInsert (· ≤ ·) x) S).Perm (S ++ l) := by
  induction l generalizing S with
  | nil => exact ⟨hS, by rw [List.append_nil]; exact List.Perm.refl S⟩
  | cons x l ih =>
    obtain ⟨hSorted, hPerm⟩ := ih _ (hS.orderedInsert x S)
    refine ⟨hSorted, hPerm.trans ?_⟩
    have hHead := (List.perm_orderedInsert (· ≤ ·) x S).append_right l
    exact hHead.trans List.perm_middle.symm

/-- **The heap holds the least elements of the stream.** -/
theorem foldl_offer (k : Nat) (l : List α) :
    l.foldl (offer k) [] = (l.insertionSort (· ≤ ·)).take k := by
  have hRun : ∀ S : List α, S.Pairwise (· ≤ ·) → l.foldl (offer k) (S.take k) =
      (l.foldl (fun S x => S.orderedInsert (· ≤ ·) x) S).take k := by
    induction l with
    | nil => exact fun S _ => rfl
    | cons x l ih =>
      intro S hS
      rw [List.foldl_cons, offer_take hS]
      exact ih _ (hS.orderedInsert x S)
  have hEmpty := hRun [] List.Pairwise.nil
  rw [List.take_nil] at hEmpty
  obtain ⟨hSorted, hPerm⟩ := foldl_orderedInsert l [] List.Pairwise.nil
  have hSame : l.foldl (fun S x => S.orderedInsert (· ≤ ·) x) [] = l.insertionSort (· ≤ ·) :=
    (hPerm.trans (List.perm_insertionSort _ l).symm).eq_of_pairwise
      (fun a b _ _ => le_antisymm) hSorted (List.pairwise_insertionSort _ l)
  rw [hEmpty, hSame]

end Heap

/-! ## Selecting before testing -/

/-- Selecting `k` first gives as many that pass as there are to give if and only if nothing that
fails is selected while something that passes is not. -/
theorem length_filter_take_eq_min_iff (p : α → Bool) (l : List α) (k : Nat) :
    ((l.take k).filter p).length = min k (l.filter p).length ↔
      ∀ x ∈ l.take k, ∀ y ∈ l.drop k, p x = false → p y = false := by
  have hSplit : (l.filter p).length = ((l.take k).filter p).length + ((l.drop k).filter p).length := by
    rw [← List.length_append, ← List.filter_append, List.take_append_drop]
  have hTake : (l.take k).length = min k l.length := List.length_take
  have hDrop : (l.drop k).length = l.length - k := List.length_drop
  have hLe := List.length_filter_le p (l.take k)
  have hLeDrop := List.length_filter_le p (l.drop k)
  constructor
  · intro hLength x hx y hy hFails
    by_contra hPasses
    have hLt : ((l.take k).filter p).length < (l.take k).length :=
      List.length_filter_lt_length_iff_exists.mpr ⟨x, hx, by rw [hFails]; exact Bool.false_ne_true⟩
    have hPos : 0 < ((l.drop k).filter p).length :=
      List.length_pos_iff_exists_mem.mpr
        ⟨y, List.mem_filter.mpr ⟨hy, by simpa using hPasses⟩⟩
    omega
  · intro hAcross
    by_cases hAll : ∀ x ∈ l.take k, p x = true
    · have hSelf : (l.take k).filter p = l.take k := List.filter_eq_self.mpr hAll
      rw [hSelf] at hSplit ⊢
      omega
    · obtain ⟨x, hx, hFails⟩ : ∃ x ∈ l.take k, p x = false := by
        simpa using hAll
      have hNone : (l.drop k).filter p = [] := List.filter_eq_nil_iff.mpr fun y hy => by
        rw [hAcross x hx y hy hFails]
        exact Bool.false_ne_true
      rw [hNone, List.length_nil] at hSplit
      omega

/-- An element of a list in strict order is among the first `k` when fewer than `k` are less. -/
theorem mem_take_iff_rank [LinearOrder α] {S : List α} (hS : S.Pairwise (· < ·)) {x : α}
    (hx : x ∈ S) (k : Nat) : x ∈ S.take k ↔ (S.filter fun y => decide (y < x)).length < k := by
  have hSplit : (S.filter fun y => decide (y < x)).length =
      ((S.take k).filter fun y => decide (y < x)).length +
        ((S.drop k).filter fun y => decide (y < x)).length := by
    rw [← List.length_append, ← List.filter_append, List.take_append_drop]
  rw [← List.take_append_drop k S, List.pairwise_append] at hS
  obtain ⟨-, hDropSorted, hAcross⟩ := hS
  have hTake : (S.take k).length = min k S.length := List.length_take
  constructor
  · intro hIn
    have hNone : (S.drop k).filter (fun y => decide (y < x)) = [] :=
      List.filter_eq_nil_iff.mpr fun y hy => by
        simpa using le_of_lt (hAcross x hIn y hy)
    have hLt : ((S.take k).filter fun y => decide (y < x)).length < (S.take k).length :=
      List.length_filter_lt_length_iff_exists.mpr ⟨x, hIn, by simp⟩
    rw [hNone, List.length_nil] at hSplit
    omega
  · intro hRank
    by_contra hOut
    have hDrop : x ∈ S.drop k := by
      rw [← List.take_append_drop k S] at hx
      exact (List.mem_append.mp hx).resolve_left hOut
    have hAll : (S.take k).filter (fun y => decide (y < x)) = S.take k :=
      List.filter_eq_self.mpr fun y hy => by simpa using hAcross y hy x hDrop
    have hPos := List.length_pos_of_mem hDrop
    rw [List.length_drop] at hPos
    rw [hAll] at hSplit
    omega

end MiniGU
