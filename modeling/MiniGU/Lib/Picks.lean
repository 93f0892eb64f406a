import Mathlib.Algebra.BigOperators.Group.List.Basic
import Mathlib.Algebra.Order.BigOperators.Group.List
import Mathlib.Data.List.Dedup
import Mathlib.Logic.Function.Basic
import Mathlib.Data.List.Forall2
import Mathlib.Data.List.Pairwise

/-!
# Choosing one element from each of several lists

`picks` lists the ways to take one element from each of a list of lists, the first choice
varying slowest: the rows of a Cartesian product. `assign` files the elements picked for a
list of indices under them.

## Choosing one element for each of several

A choice is a list related to another, element by element (`List.Forall₂`).
-/

namespace MiniGU

section Picks

variable {α : Type}

def picks : List (List α) → List (List α)
  | [] => [[]]
  | l :: ls => l.flatMap fun a => (picks ls).map fun p => a :: p

example : picks [[1, 2], [3, 4]] = [[1, 3], [1, 4], [2, 3], [2, 4]] := by simp [picks]

theorem length_picks (ls : List (List α)) : (picks ls).length = (ls.map List.length).prod := by
  induction ls with
  | nil => rfl
  | cons l ls ih =>
    unfold picks
    simp [List.length_flatMap, ih]

theorem picks_append (ls ms : List (List α)) :
    picks (ls ++ ms) = (picks ls).flatMap fun p => (picks ms).map fun q => p ++ q := by
  induction ls with
  | nil => simp [picks]
  | cons l ls ih =>
    simp only [List.cons_append, picks, ih, List.map_flatMap, List.flatMap_map, List.flatMap_assoc,
      List.map_map]
    rfl

theorem picks_map {β : Type} (f : α → β) (ls : List (List α)) :
    picks (ls.map (List.map f)) = (picks ls).map (List.map f) := by
  induction ls with
  | nil => rfl
  | cons l ls ih =>
    simp only [List.map_cons, picks, ih, List.map_flatMap, List.flatMap_map, List.map_map]
    rfl

theorem picks_eq_nil {ls : List (List α)} : picks ls = [] ↔ [] ∈ ls := by
  induction ls with
  | nil => simp [picks]
  | cons l ls ih =>
    unfold picks
    rw [List.flatMap_eq_nil_iff]
    simp only [List.map_eq_nil_iff, ih, List.mem_cons]
    cases l with
    | nil => simp
    | cons a l =>
      simp only [reduceCtorEq, false_or]
      exact ⟨fun h => h a (List.mem_cons_self ..), fun h _ _ => h⟩

/-- What each pick consists of. -/
theorem mem_picks {ls : List (List α)} {p : List α} :
    p ∈ picks ls ↔ List.Forall₂ (fun a l => a ∈ l) p ls := by
  induction ls generalizing p with
  | nil => simp [picks]
  | cons l ls ih =>
    unfold picks
    simp only [List.mem_flatMap, List.mem_map, ih]
    constructor
    · rintro ⟨a, ha, q, hq, rfl⟩
      exact .cons ha hq
    · rintro (_ | ⟨ha, hq⟩)
      exact ⟨_, ha, _, hq, rfl⟩

/-- Distinct choices make distinct picks. -/
theorem nodup_picks {ls : List (List α)} (h : ∀ l ∈ ls, l.Nodup) : (picks ls).Nodup := by
  induction ls with
  | nil => exact List.nodup_singleton _
  | cons l ls ih =>
    have hTail := ih fun m hm => h m (List.mem_cons_of_mem _ hm)
    unfold picks
    refine List.nodup_flatMap.mpr ⟨fun a _ => hTail.map fun p q hpq => (List.cons.inj hpq).2, ?_⟩
    refine (h l List.mem_cons_self).imp fun {a b} hab => List.disjoint_left.mpr ?_
    intro x hx hx'
    obtain ⟨p, -, rfl⟩ := List.mem_map.mp hx
    obtain ⟨q, -, hEq⟩ := List.mem_map.mp hx'
    exact hab (List.cons.inj hEq).1.symm

theorem length_of_mem_picks {ls : List (List α)} {p : List α} (h : p ∈ picks ls) :
    p.length = ls.length := (mem_picks.mp h).length_eq

end Picks

section Assign

variable {ι α : Type} [DecidableEq ι]

/-- The elements of `p` under the indices `is`, over `base`. -/
def assign (base : ι → α) : List ι → List α → ι → α
  | i :: is, a :: p => Function.update (assign base is p) i a
  | _, _ => base

variable {base : ι → α} {is : List ι} {rows : ι → List α}

theorem assign_of_notMem {i : ι} (hi : i ∉ is) (p : List α) : assign base is p i = base i := by
  induction is generalizing p with
  | nil => rfl
  | cons j is ih =>
    cases p with
    | nil => rfl
    | cons a p =>
      have hne : i ≠ j := fun heq => hi (heq ▸ List.mem_cons_self ..)
      unfold assign
      rw [Function.update_of_ne hne, ih fun hMem => hi (List.mem_cons_of_mem _ hMem)]

theorem assign_mem {p : List α} (hp : p ∈ picks (is.map rows)) {i : ι} (hi : i ∈ is) :
    assign base is p i ∈ rows i := by
  induction is generalizing p with
  | nil => cases hi
  | cons j is ih =>
    obtain _ | ⟨ha, hq⟩ := mem_picks.mp hp
    unfold assign
    by_cases hij : i = j
    · subst hij
      rw [Function.update_self]
      exact ha
    · rw [Function.update_of_ne hij]
      exact ih (mem_picks.mpr hq) ((List.mem_cons.mp hi).resolve_left hij)

/-- Each index has one choice wherever it comes up again. -/
def Settled (rows : ι → List α) (is : List ι) : Prop :=
  ∀ i, 2 ≤ is.count i → ∃ a, rows i = [a]

theorem Settled.tail {i : ι} (h : Settled rows (i :: is)) : Settled rows is :=
  fun j hj => h j (Nat.le_trans hj (List.count_le_count_cons ..))

/-- Picking for repeated indices is picking for each once. -/
theorem map_assign_dedup (h : Settled rows is) :
    (picks (is.map rows)).map (assign base is) =
      (picks (is.dedup.map rows)).map (assign base is.dedup) := by
  induction is with
  | nil => rfl
  | cons i is ih =>
    by_cases hi : i ∈ is
    · -- the choice for the repeated index is the one already made
      obtain ⟨a, ha⟩ := h i (by
        have := List.count_pos_iff.mpr hi
        rw [List.count_cons_self]
        omega)
      rw [List.dedup_cons_of_mem hi, ← ih h.tail]
      simp only [List.map_cons, picks, ha, List.flatMap_cons, List.flatMap_nil, List.append_nil,
        List.map_map]
      refine List.map_congr_left fun p hp => ?_
      have hMem : assign base is p i ∈ rows i := assign_mem hp hi
      rw [ha, List.mem_singleton] at hMem
      show Function.update (assign base is p) i a = _
      rw [← hMem, Function.update_eq_self]
    · rw [List.dedup_cons_of_notMem hi]
      simp only [List.map_cons, picks, List.map_flatMap, List.map_map]
      refine List.flatMap_congr fun a _ => ?_
      have hTail := congrArg (List.map fun τ : ι → α => Function.update τ i a) (ih h.tail)
      rw [List.map_map, List.map_map] at hTail
      exact hTail

/-- A pick reads back what it assigns, unless an index comes up with another choice. -/
theorem map_assign (h : Settled rows is) {p : List α} (hp : p ∈ picks (is.map rows)) :
    is.map (assign base is p) = p := by
  induction is generalizing p with
  | nil =>
    obtain _ | _ := mem_picks.mp hp
    rfl
  | cons i is ih =>
    obtain _ | ⟨ha, hq⟩ := mem_picks.mp hp
    rename_i a q
    have hTail := ih h.tail (mem_picks.mpr hq)
    unfold assign
    rw [List.map_cons, Function.update_self]
    congr 1
    refine Eq.trans (List.map_congr_left fun j hj => ?_) hTail
    by_cases hij : j = i
    · subst hij
      obtain ⟨b, hb⟩ := h j (by
        have := List.count_pos_iff.mpr hj
        rw [List.count_cons_self]
        omega)
      have hMem : assign base is q j ∈ rows j := assign_mem (mem_picks.mpr hq) hj
      rw [hb, List.mem_singleton] at hMem ha
      rw [Function.update_self, ha, hMem]
    · rw [Function.update_of_ne hij]

end Assign

/-! ## Counting -/

section Count

variable {ι : Type} [DecidableEq ι] {size part : ι → Nat} {is : List ι}

theorem prod_dedup_le (hPart : ∀ i, part i ≤ size i) (hPos : ∀ i ∈ is, 0 < size i) :
    (is.dedup.map part).prod ≤ (is.map size).prod := by
  induction is with
  | nil => exact Nat.le_refl _
  | cons i is ih =>
    have hTail := ih fun j hj => hPos j (List.mem_cons_of_mem _ hj)
    rw [List.map_cons, List.prod_cons]
    by_cases hi : i ∈ is
    · rw [List.dedup_cons_of_mem hi]
      exact Nat.le_trans hTail (Nat.le_mul_of_pos_left _ (hPos i (List.mem_cons_self ..)))
    · rw [List.dedup_cons_of_notMem hi, List.map_cons, List.prod_cons]
      exact Nat.mul_le_mul (hPart i) hTail

omit [DecidableEq ι] in
theorem prod_pos {is : List ι} (hPos : ∀ i ∈ is, 0 < size i) : 0 < (is.map size).prod := by
  induction is with
  | nil => exact Nat.one_pos
  | cons i is ih =>
    rw [List.map_cons, List.prod_cons]
    exact Nat.mul_pos (hPos i (List.mem_cons_self ..))
      (ih fun j hj => hPos j (List.mem_cons_of_mem _ hj))

/-- Equal products of positive factors, one below the other factor by factor. -/
theorem mul_eq_mul_of_le {a b c d : Nat} (hac : a ≤ c) (hbd : b ≤ d) (hc : 0 < c) (hd : 0 < d)
    (h : c * d = a * b) : a = c ∧ b = d := by
  have h₁ : a * b ≤ a * d := Nat.mul_le_mul_left a hbd
  have h₂ : a * d ≤ c * d := Nat.mul_le_mul_right d hac
  have hEq : a * d = c * d := Nat.le_antisymm h₂ (h ▸ h₁)
  have ha : a = c := Nat.eq_of_mul_eq_mul_right hd hEq
  subst ha
  exact ⟨rfl, (Nat.eq_of_mul_eq_mul_left hc h).symm⟩

/-- Where counting each index once and in part loses nothing, every part is whole and every
repeated index has size one. -/
theorem eq_of_prod_eq (hPart : ∀ i, part i ≤ size i) (hPos : ∀ i ∈ is, 0 < size i)
    (hEq : (is.map size).prod = (is.dedup.map part).prod) :
    (∀ i ∈ is, part i = size i) ∧ ∀ i, 2 ≤ is.count i → size i = 1 := by
  induction is with
  | nil => exact ⟨fun i hi => (nomatch hi), fun i hi => absurd hi (by simp)⟩
  | cons i is ih =>
    have hTailPos : ∀ j ∈ is, 0 < size j := fun j hj => hPos j (List.mem_cons_of_mem _ hj)
    have hSize := hPos i (List.mem_cons_self ..)
    have hProd := prod_pos hTailPos
    have hLe := prod_dedup_le hPart hTailPos
    rw [List.map_cons, List.prod_cons] at hEq
    by_cases hi : i ∈ is
    · rw [List.dedup_cons_of_mem hi] at hEq
      obtain ⟨hOne, hTail⟩ := mul_eq_mul_of_le (a := 1) hSize hLe hSize hProd (by rw [hEq, Nat.one_mul])
      obtain ⟨hWhole, hRepeat⟩ := ih hTailPos hTail.symm
      refine ⟨fun j hj => ?_, fun j hj => ?_⟩
      · rcases List.mem_cons.mp hj with rfl | hj
        · exact hWhole j hi
        · exact hWhole j hj
      · by_cases hij : j = i
        · rw [hij, ← hOne]
        · rw [List.count_cons_of_ne (Ne.symm hij)] at hj
          exact hRepeat j hj
    · rw [List.dedup_cons_of_notMem hi, List.map_cons, List.prod_cons] at hEq
      obtain ⟨hWhole₁, hTail⟩ := mul_eq_mul_of_le (hPart i) hLe hSize hProd hEq
      obtain ⟨hWhole, hRepeat⟩ := ih hTailPos hTail.symm
      refine ⟨fun j hj => ?_, fun j hj => ?_⟩
      · rcases List.mem_cons.mp hj with rfl | hj
        · exact hWhole₁
        · exact hWhole j hj
      · by_cases hij : j = i
        · subst hij
          rw [List.count_cons_self, List.count_eq_zero_of_not_mem hi] at hj
          omega
        · rw [List.count_cons_of_ne (Ne.symm hij)] at hj
          exact hRepeat j hj

end Count

section Choice

variable {α β : Type} {C : α → β → Prop} {l : List α} {bs : List β}

/-- One element of a choice can be any. -/
theorem exists_choice_through (hSome : ∀ a ∈ l, ∃ b, C a b) {a : α} (ha : a ∈ l) {b : β} (hb : C a b) :
    ∃ bs, List.Forall₂ C l bs ∧ b ∈ bs := by
  have hAll : ∀ {l : List α}, (∀ a ∈ l, ∃ b, C a b) → ∃ bs, List.Forall₂ C l bs := by
    intro l hSome
    induction l with
    | nil => exact ⟨[], .nil⟩
    | cons a l ih =>
      obtain ⟨b, hb⟩ := hSome a (List.mem_cons_self ..)
      obtain ⟨bs, hbs⟩ := ih fun a' ha' => hSome a' (List.mem_cons_of_mem _ ha')
      exact ⟨b :: bs, .cons hb hbs⟩
  induction l with
  | nil => cases ha
  | cons a' l ih =>
    have hRest : ∀ a ∈ l, ∃ b, C a b := fun a'' h => hSome a'' (List.mem_cons_of_mem _ h)
    rcases List.mem_cons.mp ha with rfl | ha
    · obtain ⟨bs, hbs⟩ := hAll hRest
      exact ⟨b :: bs, .cons hb hbs, List.mem_cons_self ..⟩
    · obtain ⟨b', hb'⟩ := hSome a' (List.mem_cons_self ..)
      obtain ⟨bs, hbs, hMem⟩ := ih hRest ha
      exact ⟨b' :: bs, .cons hb' hbs, List.mem_cons_of_mem _ hMem⟩

theorem exists_of_mem_choice (h : List.Forall₂ C l bs) {b : β} (hb : b ∈ bs) : ∃ a ∈ l, C a b := by
  induction h with
  | nil => cases hb
  | cons hHead _ ih =>
    rcases List.mem_cons.mp hb with rfl | hb
    · exact ⟨_, List.mem_cons_self .., hHead⟩
    · obtain ⟨a, ha, hC⟩ := ih hb
      exact ⟨a, List.mem_cons_of_mem _ ha, hC⟩

/-- All choices of one element each are pairwise related exactly if the sets chosen from are. -/
theorem forall_choices_pairwise {R : β → β → Prop}
    (hSome : ∀ a ∈ l, ∃ b, C a b) :
    (∀ bs, List.Forall₂ C l bs → bs.Pairwise R) ↔
      l.Pairwise fun a a' => ∀ b, C a b → ∀ b', C a' b' → R b b' := by
  induction l with
  | nil =>
    refine ⟨fun _ => .nil, fun _ bs hbs => ?_⟩
    cases hbs
    exact .nil
  | cons a l ih =>
    have hRest : ∀ a ∈ l, ∃ b, C a b := fun a' ha' => hSome a' (List.mem_cons_of_mem _ ha')
    obtain ⟨b₀, hb₀⟩ := hSome a (List.mem_cons_self ..)
    rw [List.pairwise_cons, ← ih hRest]
    constructor
    · intro h
      refine ⟨fun a' ha' b hb b' hb' => ?_, fun bs hbs => ?_⟩
      · obtain ⟨bs, hbs, hMem⟩ := exists_choice_through hRest ha' hb'
        exact (List.pairwise_cons.mp (h (b :: bs) (.cons hb hbs))).1 b' hMem
      · exact (List.pairwise_cons.mp (h (b₀ :: bs) (.cons hb₀ hbs))).2
    · rintro ⟨hHead, hTail⟩ bs hbs
      cases hbs with
      | @cons _ b _ bs hb hbs =>
        refine List.pairwise_cons.mpr ⟨fun b' hb' => ?_, hTail bs hbs⟩
        obtain ⟨a', ha', hC⟩ := exists_of_mem_choice hbs hb'
        exact hHead a' ha' b hb b' hC

theorem dropLast_forall₂ (h : List.Forall₂ C l bs) : List.Forall₂ C l.dropLast bs.dropLast := by
  induction h with
  | nil => exact .nil
  | @cons a b l bs hHead hTail ih =>
    cases hTail with
    | nil => exact .nil
    | cons hNext hRest => exact .cons hHead ih

end Choice

end MiniGU
