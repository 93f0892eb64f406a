import Mathlib.Data.List.Basic

/-!
# Cutting a list into batches

`batches size l` are the successive slices of `l`, each of `size` elements but the last. Laid
end to end they are `l` again, and none is empty.
-/

namespace MiniGU

variable {α : Type}

/-- At most `fuel` batches. -/
def batchesGo (size : Nat) : Nat → List α → List (List α)
  | 0, _ => []
  | fuel + 1, l =>
    match l with
    | [] => []
    | a :: l => (a :: l).take size :: batchesGo size fuel ((a :: l).drop size)

def batches (size : Nat) (l : List α) : List (List α) := batchesGo size l.length l

variable {size : Nat}

theorem flatten_batchesGo (hSize : 0 < size) {fuel : Nat} {l : List α} (h : l.length ≤ fuel) :
    (batchesGo size fuel l).flatten = l := by
  induction fuel generalizing l with
  | zero => exact (List.length_eq_zero_iff.mp (by omega)).symm
  | succ fuel ih =>
    cases l with
    | nil => rfl
    | cons a l =>
      unfold batchesGo
      have hDrop : ((a :: l).drop size).length ≤ fuel := by
        rw [List.length_drop]
        omega
      rw [List.flatten_cons, ih hDrop, List.take_append_drop]

@[simp] theorem flatten_batches (hSize : 0 < size) (l : List α) : (batches size l).flatten = l :=
  flatten_batchesGo hSize (Nat.le_refl _)

theorem ne_nil_of_mem_batchesGo (hSize : 0 < size) {fuel : Nat} {l b : List α}
    (h : b ∈ batchesGo size fuel l) : b ≠ [] := by
  induction fuel generalizing l with
  | zero => cases h
  | succ fuel ih =>
    cases l with
    | nil => cases h
    | cons a l =>
      rcases List.mem_cons.mp h with rfl | h
      · obtain ⟨n, rfl⟩ := Nat.exists_eq_add_of_lt hSize
        simp
      · exact ih h

theorem ne_nil_of_mem_batches (hSize : 0 < size) {l b : List α} (h : b ∈ batches size l) :
    b ≠ [] := ne_nil_of_mem_batchesGo hSize h

theorem length_le_of_mem_batchesGo {fuel : Nat} {l b : List α} (h : b ∈ batchesGo size fuel l) :
    b.length ≤ size := by
  induction fuel generalizing l with
  | zero => cases h
  | succ fuel ih =>
    cases l with
    | nil => cases h
    | cons a l =>
      unfold batchesGo at h
      rcases List.mem_cons.mp h with rfl | h
      · exact List.length_take_le _ _
      · exact ih h

theorem length_le_of_mem_batches {l b : List α} (h : b ∈ batches size l) : b.length ≤ size :=
  length_le_of_mem_batchesGo h

theorem batches_eq_nil (hSize : 0 < size) {l : List α} : batches size l = [] ↔ l = [] := by
  constructor
  · intro h
    rw [← flatten_batches hSize l, h]
    rfl
  · rintro rfl
    rfl

end MiniGU
