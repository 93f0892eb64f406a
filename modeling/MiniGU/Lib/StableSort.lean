import Mathlib.Data.List.Sort

/-!
# Stable sorting by a key

`sortByKey` sorts by a numeric key and keeps elements of equal keys in the order they had.
A sorted list is determined by what it holds under each key, in order
(`eq_of_filter_key`), and a stable sort keeps exactly that (`filter_key_sortByKey`); that
sorting commutes with filtering and absorbs an earlier sort follows.
-/

namespace MiniGU

variable {α : Type} {key : α → Nat}

/-- A stable sort by `key`, in increasing order. -/
def sortByKey (key : α → Nat) (l : List α) : List α := l.insertionSort fun a b => key a ≤ key b

theorem pairwise_sortByKey (l : List α) :
    (sortByKey key l).Pairwise fun a b => key a ≤ key b := by
  have hTotal : Std.Total fun a b : α => key a ≤ key b := ⟨fun a b => Nat.le_total _ _⟩
  have hTrans : IsTrans α fun a b => key a ≤ key b := ⟨fun _ _ _ => Nat.le_trans⟩
  exact List.pairwise_insertionSort _ l

theorem mem_sortByKey {a : α} {l : List α} : a ∈ sortByKey key l ↔ a ∈ l :=
  List.mem_insertionSort _

@[simp] theorem length_sortByKey (l : List α) : (sortByKey key l).length = l.length :=
  List.length_insertionSort _ l

/-- **Stability**: under each key the elements stay in the order they had. -/
theorem filter_key_sortByKey (l : List α) (n : Nat) :
    (sortByKey key l).filter (fun a => key a = n) = l.filter fun a => key a = n := by
  have hTotal : Std.Total fun a b : α => key a ≤ key b := ⟨fun a b => Nat.le_total _ _⟩
  have hTrans : IsTrans α fun a b => key a ≤ key b := ⟨fun _ _ _ => Nat.le_trans⟩
  have hSub : List.Sublist (l.filter fun a => key a = n) (sortByKey key l) := by
    refine List.sublist_insertionSort (List.pairwise_of_forall_mem_list fun a ha b hb => ?_)
      List.filter_sublist
    have hA := (List.mem_filter.mp ha).2
    have hB := (List.mem_filter.mp hb).2
    simp only [decide_eq_true_eq] at hA hB
    omega
  have hPerm : (sortByKey key l).Perm l := List.perm_insertionSort _ l
  have hSub' := hSub.filter fun a => decide (key a = n)
  rw [List.filter_filter] at hSub'
  simp only [Bool.and_self] at hSub'
  exact (hSub'.eq_of_length (hPerm.filter _).length_eq.symm).symm

/-- **A sorted list is determined by what it holds under each key.** -/
theorem eq_of_filter_key {l m : List α} (hl : l.Pairwise fun a b => key a ≤ key b)
    (hm : m.Pairwise fun a b => key a ≤ key b)
    (h : ∀ n, l.filter (fun a => key a = n) = m.filter fun a => key a = n) : l = m := by
  induction l generalizing m with
  | nil =>
    cases m with
    | nil => rfl
    | cons b m => simpa using h (key b)
  | cons a l ih =>
    cases m with
    | nil => simpa using h (key a)
    | cons b m =>
      rw [List.pairwise_cons] at hl hm
      have hMem : ∀ {x : α} {xs ys : List α}, xs.filter (fun y => key y = key x) =
          ys.filter (fun y => key y = key x) → x ∈ xs → x ∈ ys := by
        intro x xs ys hEq hx
        have hIn : x ∈ xs.filter fun y => key y = key x := List.mem_filter.mpr ⟨hx, by simp⟩
        rw [hEq] at hIn
        exact (List.mem_filter.mp hIn).1
      -- the heads have the smallest key of both lists
      have hLe : key b ≤ key a := by
        rcases List.mem_cons.mp (hMem (h (key a)) List.mem_cons_self) with rfl | hIn
        · exact Nat.le_refl _
        · exact hm.1 a hIn
      have hGe : key a ≤ key b := by
        rcases List.mem_cons.mp (hMem (h (key b)).symm List.mem_cons_self) with rfl | hIn
        · exact Nat.le_refl _
        · exact hl.1 b hIn
      have hKey : key a = key b := Nat.le_antisymm hGe hLe
      have hHead := h (key b)
      simp only [List.filter_cons, hKey, decide_true, if_true, List.cons.injEq] at hHead
      obtain ⟨rfl, hTail⟩ := hHead
      refine congrArg (List.cons a) (ih hl.2 hm.2 fun n => ?_)
      by_cases hn : key a = n
      · subst hn
        exact hTail
      · have hRest := h n
        simpa only [List.filter_cons, hn, decide_false, Bool.false_eq_true, if_false] using hRest

/-- Sorting commutes with filtering. -/
theorem sortByKey_filter (l : List α) (p : α → Bool) :
    sortByKey key (l.filter p) = (sortByKey key l).filter p := by
  refine eq_of_filter_key (pairwise_sortByKey _) ((pairwise_sortByKey l).filter p) fun n => ?_
  rw [filter_key_sortByKey, List.filter_filter, List.filter_filter]
  calc l.filter (fun a => decide (key a = n) && p a)
      = (l.filter fun a => key a = n).filter p := by
        rw [List.filter_filter]
        simp only [Bool.and_comm]
    _ = ((sortByKey key l).filter fun a => key a = n).filter p := by rw [filter_key_sortByKey]
    _ = (sortByKey key l).filter (fun a => decide (key a = n) && p a) := by
        rw [List.filter_filter]
        simp only [Bool.and_comm]

/-- An earlier sort of the first part makes no difference. -/
theorem sortByKey_append_left (l m : List α) :
    sortByKey key (sortByKey key l ++ m) = sortByKey key (l ++ m) := by
  refine eq_of_filter_key (pairwise_sortByKey _) (pairwise_sortByKey _) fun n => ?_
  rw [filter_key_sortByKey, filter_key_sortByKey, List.filter_append, List.filter_append,
    filter_key_sortByKey]

theorem sortByKey_sortByKey (l : List α) : sortByKey key (sortByKey key l) = sortByKey key l := by
  have h : sortByKey key (sortByKey key l ++ []) = sortByKey key (l ++ []) :=
    sortByKey_append_left l []
  rwa [List.append_nil, List.append_nil] at h

theorem sortByKey_append_congr {l m : List α} (h : sortByKey key l = sortByKey key m)
    (l' : List α) : sortByKey key (l ++ l') = sortByKey key (m ++ l') := by
  rw [← sortByKey_append_left l, h, sortByKey_append_left]

end MiniGU
