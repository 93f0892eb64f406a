import Mathlib.Data.List.Basic

/-!
# Ordered containers as sorted lists

A skip-list set or map is a list kept in the order of a Boolean comparison
`lt`. Two elements that compare equal in both directions occupy one place, so
`insert` replaces (a map whose `lt` looks only at the key) or does nothing (a
set whose `lt` is total). `front` of the container is the head of the list.
-/

namespace MiniGU.SkipList

variable {α : Type} {lt : α → α → Bool}

/-- Insert `a` at its place, replacing an element that compares equal to it. -/
def insert (lt : α → α → Bool) (a : α) : List α → List α
  | [] => [a]
  | b :: l =>
    if lt a b then a :: b :: l
    else if lt b a then b :: insert lt a l
    else a :: l

example : insert (fun a b : Nat => a < b) 2 [1, 3] = [1, 2, 3] := by simp [insert]

/-- Remove the elements that compare equal to `a`. -/
def remove (lt : α → α → Bool) (a : α) (l : List α) : List α :=
  l.filter fun b => lt a b || lt b a

theorem mem_insert_self (a : α) (l : List α) : a ∈ insert lt a l := by
  induction l with
  | nil => simp [insert]
  | cons b l ih =>
    unfold insert
    split
    · simp
    · split
      · simp [ih]
      · simp

theorem mem_of_mem_insert {a x : α} {l : List α} (h : x ∈ insert lt a l) :
    x = a ∨ x ∈ l := by
  induction l with
  | nil => simpa [insert] using h
  | cons b l ih =>
    unfold insert at h
    split at h
    · simpa using h
    · split at h
      · rcases List.mem_cons.mp h with rfl | h
        · simp
        · rcases ih h with rfl | h
          · simp
          · simp [h]
      · rcases List.mem_cons.mp h with rfl | h
        · simp
        · simp [h]

/-- An element that compares different from `a` survives the insertion of `a`. -/
theorem mem_insert_of_mem {a x : α} {l : List α} (hx : x ∈ l)
    (hne : lt a x = true ∨ lt x a = true) : x ∈ insert lt a l := by
  induction l with
  | nil => simp at hx
  | cons b l ih =>
    unfold insert
    split
    · simpa using Or.inr hx
    · rename_i hab
      split
      · rcases List.mem_cons.mp hx with rfl | hx
        · simp
        · simp [ih hx]
      · rename_i hba
        rcases List.mem_cons.mp hx with rfl | hx
        · rcases hne with h | h
          · exact absurd h hab
          · exact absurd h hba
        · simp [hx]

/-- What comes after every element is inserted at the end. -/
theorem insert_eq_append {a : α} {l : List α} (h : ∀ b ∈ l, lt a b = false ∧ lt b a = true) :
    insert lt a l = l ++ [a] := by
  induction l with
  | nil => rfl
  | cons b l ih =>
    obtain ⟨hab, hba⟩ := h b (List.mem_cons_self ..)
    simp [insert, hab, hba, ih fun b' hb' => h b' (List.mem_cons_of_mem _ hb')]

theorem mem_remove {a x : α} {l : List α} :
    x ∈ remove lt a l ↔ x ∈ l ∧ (lt a x = true ∨ lt x a = true) := by
  simp [remove, List.mem_filter]

end MiniGU.SkipList
