import MiniGU.Invariant.ChunkRows

/-!
# Limit and offset

`Limit` and `Offset` measure a chunk by its length, which counts the rows that the filter drops.
What the one lets through and the other leaves out are the first `n` *physical* rows of the
stream; the two always make up the stream (`limit_append_offset`). They are the first `n`
logical rows only where the filters do not matter.
-/

namespace MiniGU

namespace StreamExecutor

variable {E Ty Val : Type} {cs : List (DataChunk Ty Val)}

theorem limit_ok (hcs : ∀ c ∈ cs, c.Aligned) (n : Nat) :
    ∃ ls : List (DataChunk Ty Val),
      limit (E := E) n (cs.map .ok) = ls.map .ok ∧ flaggedOf ls = (flaggedOf cs).take n :=
  limitFrom_ok n hcs (Nat.zero_le n)

theorem offset_ok (hcs : ∀ c ∈ cs, c.Aligned) (n : Nat) :
    ∃ os : List (DataChunk Ty Val),
      offset (E := E) n (cs.map .ok) = os.map .ok ∧ flaggedOf os = (flaggedOf cs).drop n :=
  offsetFrom_ok n hcs (Nat.zero_le n)

/-- **The rows let through and the rows left over make up the stream**, wherever it is cut. -/
theorem limit_append_offset (hcs : ∀ c ∈ cs, c.Aligned) (n : Nat) :
    ∃ ls os : List (DataChunk Ty Val),
      limit (E := E) n (cs.map .ok) = ls.map .ok ∧ offset (E := E) n (cs.map .ok) = os.map .ok ∧
      rowsOf ls ++ rowsOf os = rowsOf cs := by
  obtain ⟨ls, hLs, hTake⟩ := limit_ok (E := E) hcs n
  obtain ⟨os, hOs, hDrop⟩ := offset_ok (E := E) hcs n
  refine ⟨ls, os, hLs, hOs, ?_⟩
  rw [rowsOf_eq_filter, rowsOf_eq_filter, rowsOf_eq_filter, hTake, hDrop, ← List.map_append,
    ← List.filter_append, List.take_append_drop]

/-- `Limit` and `Offset` by `n` cut the logical rows of the stream after the first `n`. -/
def CutsLogicalRows (E : Type) (n : Nat) (cs : List (DataChunk Ty Val)) : Prop :=
  ∃ ls os : List (DataChunk Ty Val),
    limit (E := E) n (cs.map .ok) = ls.map .ok ∧ rowsOf ls = (rowsOf cs).take n ∧
    offset (E := E) n (cs.map .ok) = os.map .ok ∧ rowsOf os = (rowsOf cs).drop n ∧
    rowsOf ls ++ rowsOf os = rowsOf cs

-- ----
-- Taking before and after a filter
-- ----

variable {α : Type}

/-- Taking before the filter takes as many as there are among those taken. -/
theorem filter_take_eq_take (p : α → Bool) (l : List α) (n : Nat) :
    (l.take n).filter p = (l.filter p).take ((l.take n).countP p) := by
  have hSplit : l.filter p = (l.take n).filter p ++ (l.drop n).filter p := by
    rw [← List.filter_append, List.take_append_drop]
  rw [hSplit, List.countP_eq_length_filter, List.take_left]

/-- The filter commutes with the cut at `n` iff it drops nothing before it or all after it. -/
theorem filter_take_length_iff (p : α → Bool) (l : List α) (n : Nat) :
    ((l.take n).filter p).length = ((l.filter p).take n).length ↔
      (∀ a ∈ l.take n, p a = true) ∨ ∀ a ∈ l.drop n, p a = false := by
  have hCount : (l.filter p).length = ((l.take n).filter p).length + ((l.drop n).filter p).length := by
    rw [← List.length_append, ← List.filter_append, List.take_append_drop]
  have hBound : ((l.take n).filter p).length ≤ (l.take n).length := List.length_filter_le ..
  have hAll : (∀ a ∈ l.take n, p a = true) ↔
      ((l.take n).filter p).length = (l.take n).length := List.length_filter_eq_length_iff.symm
  have hNone : (∀ a ∈ l.drop n, p a = false) ↔ ((l.drop n).filter p).length = 0 := by
    rw [List.length_eq_zero_iff, List.filter_eq_nil_iff]
    simp
  rw [hAll, hNone, List.length_take]
  -- a stream shorter than `n` has nothing after the cut
  have hShort : l.length ≤ n → ((l.drop n).filter p).length = 0 := by
    intro h
    rw [List.drop_of_length_le h]
    rfl
  rw [List.length_take] at hBound ⊢
  omega

-- ----
-- The condition
-- ----

/-- **Limit and offset act on logical rows** exactly where the first `n` physical rows of the
stream are all logical ones, or no logical row comes after them. -/
theorem limit_offset_logical_iff (hcs : ∀ c ∈ cs, c.Aligned) (n : Nat) :
    CutsLogicalRows E n cs ↔
      (∀ p ∈ (flaggedOf cs).take n, p.1 = true) ∨ ∀ p ∈ (flaggedOf cs).drop n, p.1 = false := by
  obtain ⟨ls, hLs, hTake⟩ := limit_ok (E := E) hcs n
  obtain ⟨os, hOs, hDrop⟩ := offset_ok (E := E) hcs n
  have hAppend : rowsOf ls ++ rowsOf os = rowsOf cs := by
    rw [rowsOf_eq_filter, rowsOf_eq_filter, rowsOf_eq_filter, hTake, hDrop, ← List.map_append,
      ← List.filter_append, List.take_append_drop]
  rw [← filter_take_length_iff]
  constructor
  · rintro ⟨ls', -, hLs', hRows, -⟩
    have hSame : ls' = ls := by
      refine List.map_injective_iff.mpr (fun a b h => by cases h; rfl) (hLs'.symm.trans hLs)
    have hLength := congrArg List.length hRows
    rw [hSame, rowsOf_eq_filter, rowsOf_eq_filter, hTake] at hLength
    simpa using hLength
  · intro hLength
    have hRows : rowsOf ls = (rowsOf cs).take n := by
      rw [rowsOf_eq_filter, rowsOf_eq_filter, hTake, ← List.map_take]
      congr 1
      rw [filter_take_eq_take] at hLength ⊢
      rw [List.take_eq_take_iff]
      simpa using hLength
    refine ⟨ls, os, hLs, hRows, hOs, ?_, hAppend⟩
    have hSplit : rowsOf ls ++ rowsOf os = (rowsOf cs).take n ++ (rowsOf cs).drop n := by
      rw [hAppend, List.take_append_drop]
    rw [hRows] at hSplit
    exact List.append_cancel_left hSplit

/-- Two numbers, of which a filter keeps the second. -/
def secondOfTwo : DataChunk Unit Nat := ⟨[⟨(), [1, 2]⟩], some [false, true], some 0⟩

/-- A chunk without a filter, and after it the one whose first row is dropped. -/
def keptThenFiltered : List (DataChunk Unit Nat) := [⟨[⟨(), [5, 6]⟩], none, none⟩, secondOfTwo]

theorem aligned_keptThenFiltered : ∀ c ∈ keptThenFiltered, c.Aligned := by
  intro c hc
  simp only [keptThenFiltered, List.mem_cons, List.not_mem_nil, or_false] at hc
  rcases hc with rfl | rfl
  · exact ⟨by decide, by decide, by simp [DataChunk.len]⟩
  · exact ⟨by decide, by decide, by simp [secondOfTwo, DataChunk.len]⟩

/-- A cut inside the filtered chunk, between the row that is dropped and the one that is kept. -/
theorem keptThenFiltered_parts : ∃ ls os : List (DataChunk Unit Nat),
    limit (E := Unit) 3 (keptThenFiltered.map .ok) = ls.map .ok ∧
    offset (E := Unit) 3 (keptThenFiltered.map .ok) = os.map .ok ∧
    rowsOf ls ++ rowsOf os = [[5], [6], [2]] :=
  limit_append_offset aligned_keptThenFiltered 3

/-- Cuts inside the first chunk, between the chunks and after everything. -/
theorem keptThenFiltered_cut :
    CutsLogicalRows Unit 1 keptThenFiltered ∧ CutsLogicalRows Unit 2 keptThenFiltered ∧
      CutsLogicalRows Unit 4 keptThenFiltered :=
  ⟨(limit_offset_logical_iff aligned_keptThenFiltered 1).mpr (.inl (by decide)),
    (limit_offset_logical_iff aligned_keptThenFiltered 2).mpr (.inl (by decide)),
    (limit_offset_logical_iff aligned_keptThenFiltered 4).mpr (.inr (by decide))⟩

/-- The row that the filter drops uses up the limit. -/
theorem secondOfTwo_not_cut : ¬CutsLogicalRows Unit 1 [secondOfTwo] := by
  rintro ⟨ls, -, hLs, hRows, -⟩
  have hOut : limit (E := Unit) 1 [.ok secondOfTwo] =
      [(⟨[⟨(), [1]⟩], some [false], some 0⟩ : DataChunk Unit Nat)].map .ok := rfl
  have hSame : ls = [⟨[⟨(), [1]⟩], some [false], some 0⟩] :=
    List.map_injective_iff.mpr (fun a b h => by cases h; rfl) (hLs.symm.trans hOut)
  rw [hSame] at hRows
  revert hRows
  decide

end StreamExecutor

end MiniGU
