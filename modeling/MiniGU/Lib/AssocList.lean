import Mathlib.Data.List.Nodup

/-!
# Maps as association lists

A hash map whose iteration order matters is a list of keys and values, in the order of
insertion; `List.lookup` reads it. Keys stay distinct (`nodup_keys_assocInsert`), so
membership and lookup agree.
-/

namespace MiniGU

section Lookup

variable {α β : Type} [BEq α] [LawfulBEq α] {l : List (α × β)} {a : α} {b : β}

theorem mem_of_lookup_eq_some (h : l.lookup a = some b) : (a, b) ∈ l := by
  induction l with
  | nil => cases h
  | cons p l ih =>
    obtain ⟨a', b'⟩ := p
    rw [List.lookup_cons] at h
    split at h
    · rename_i heq
      obtain rfl : a = a' := by simpa using heq
      cases h
      exact List.mem_cons_self ..
    · exact List.mem_cons_of_mem _ (ih h)

theorem notMem_of_lookup_eq_none (h : l.lookup a = none) : a ∉ l.map Prod.fst := by
  intro hMem
  obtain ⟨p, hp, rfl⟩ := List.mem_map.mp hMem
  rw [List.lookup_eq_none_iff] at h
  simpa using h p hp

end Lookup

variable {β : Type}

/-- Insert under a key: the value is replaced in place, or appended. -/
def assocInsert (id : Nat) (b : β) : List (Nat × β) → List (Nat × β)
  | [] => [(id, b)]
  | (id', b') :: l => if id' = id then (id, b) :: l else (id', b') :: assocInsert id b l

theorem mem_of_mem_assocInsert {id : Nat} {b : β} {l : List (Nat × β)} {p : Nat × β}
    (h : p ∈ assocInsert id b l) : p = (id, b) ∨ p ∈ l := by
  induction l with
  | nil => exact .inl (List.mem_singleton.mp h)
  | cons q l ih =>
    unfold assocInsert at h
    split at h
    · rcases List.mem_cons.mp h with rfl | h
      · exact .inl rfl
      · exact .inr (List.mem_cons_of_mem _ h)
    · rcases List.mem_cons.mp h with rfl | h
      · exact .inr (List.mem_cons_self ..)
      · rcases ih h with rfl | h
        · exact .inl rfl
        · exact .inr (List.mem_cons_of_mem _ h)

theorem keys_assocInsert (id : Nat) (b : β) (l : List (Nat × β)) :
    (assocInsert id b l).map Prod.fst =
      if id ∈ l.map Prod.fst then l.map Prod.fst else l.map Prod.fst ++ [id] := by
  induction l with
  | nil => simp [assocInsert]
  | cons p l ih =>
    unfold assocInsert
    by_cases hp : p.1 = id
    · simp [hp]
    · rw [if_neg hp, List.map_cons, ih, List.map_cons]
      by_cases hMem : id ∈ l.map Prod.fst
      · simp only [List.mem_cons, hMem, or_true, if_true]
      · simp only [List.mem_cons, Ne.symm hp, hMem, or_self, if_false, List.cons_append]

theorem nodup_keys_assocInsert {l : List (Nat × β)} (h : (l.map Prod.fst).Nodup) (id : Nat)
    (b : β) : ((assocInsert id b l).map Prod.fst).Nodup := by
  rw [keys_assocInsert]
  split
  · exact h
  · rename_i hMem
    rw [List.nodup_append]
    refine ⟨h, List.nodup_singleton id, ?_⟩
    intro a ha b hb heq
    rw [List.mem_singleton.mp hb] at heq
    exact hMem (heq ▸ ha)

theorem lookup_assocInsert (id id' : Nat) (b : β) (l : List (Nat × β)) :
    (assocInsert id b l).lookup id' = if id' = id then some b else l.lookup id' := by
  induction l with
  | nil =>
    by_cases h : id' = id
    · simp [assocInsert, h]
    · have hb : (id' == id) = false := by simpa using h
      simp [assocInsert, List.lookup_cons, h, hb]
  | cons p l ih =>
    obtain ⟨i, b'⟩ := p
    unfold assocInsert
    by_cases hi : i = id
    · subst hi
      by_cases h : id' = i
      · simp [h]
      · have hb : (id' == i) = false := by simpa using h
        simp [List.lookup_cons, h, hb]
    · rw [if_neg hi]
      by_cases h : id' = i
      · subst h
        simp [hi]
      · have hb : (id' == i) = false := by simpa using h
        simp only [List.lookup_cons, hb, ih]

/-- Remove a key. -/
def assocErase (id : Nat) (l : List (Nat × β)) : List (Nat × β) := l.filter fun p => p.1 ≠ id

theorem lookup_assocErase (id id' : Nat) (l : List (Nat × β)) :
    (assocErase id l).lookup id' = if id' = id then none else l.lookup id' := by
  unfold assocErase
  induction l with
  | nil => exact (ite_self _).symm
  | cons p l ih =>
    obtain ⟨i, b⟩ := p
    by_cases hi : i = id
    · rw [List.filter_cons_of_neg (by simpa using hi), ih]
      by_cases h : id' = id
      · rw [if_pos h, if_pos h]
      · have hb : (id' == i) = false := by simpa [hi] using h
        rw [if_neg h, if_neg h, List.lookup_cons, hb]
    · rw [List.filter_cons_of_pos (by simpa using hi), List.lookup_cons, List.lookup_cons, ih]
      by_cases h : id' = i
      · have hb : (id' == i) = true := by simpa using h
        have hNe : ¬ id' = id := by
          rw [h]
          exact hi
        simp only [hb, hNe, if_false]
      · have hb : (id' == i) = false := by simpa using h
        rw [hb]

theorem lookup_foldl_assocErase (ids : List Nat) (id' : Nat) (l : List (Nat × β)) :
    (ids.foldl (fun l id => assocErase id l) l).lookup id' =
      if id' ∈ ids then none else l.lookup id' := by
  induction ids generalizing l with
  | nil => exact (if_neg List.not_mem_nil).symm
  | cons id ids ih =>
    rw [List.foldl_cons, ih, lookup_assocErase]
    by_cases hTail : id' ∈ ids
    · rw [if_pos hTail, if_pos (List.mem_cons_of_mem _ hTail)]
    · by_cases hHead : id' = id
      · rw [if_neg hTail, if_pos hHead, if_pos (hHead ▸ List.mem_cons_self)]
      · rw [if_neg hTail, if_neg hHead, if_neg (by simp [hHead, hTail])]

theorem lookup_eq_some_iff {l : List (Nat × β)} (h : (l.map Prod.fst).Nodup) {id : Nat} {b : β} :
    l.lookup id = some b ↔ (id, b) ∈ l := by
  induction l with
  | nil => simp
  | cons p l ih =>
    obtain ⟨i, b'⟩ := p
    rw [List.map_cons, List.nodup_cons] at h
    obtain ⟨hNot, hNodup⟩ := h
    by_cases hi : id = i
    · subst hi
      have hMem : (id, b) ∉ l := fun hm => hNot (List.mem_map.mpr ⟨_, hm, rfl⟩)
      simp [hMem, eq_comm]
    · have hb : (id == i) = false := by simpa using hi
      simp only [List.lookup_cons, hb, List.mem_cons, Prod.mk.injEq, hi, false_and, false_or]
      exact ih hNodup

theorem lookup_eq_none_iff {l : List (Nat × β)} {id : Nat} :
    l.lookup id = none ↔ id ∉ l.map Prod.fst := by
  induction l with
  | nil => simp
  | cons p l ih =>
    obtain ⟨i, b'⟩ := p
    by_cases hi : id = i
    · subst hi
      simp
    · have hb : (id == i) = false := by simpa using hi
      simp only [List.lookup_cons, hb, ih, List.map_cons, List.mem_cons, hi, false_or]

end MiniGU
