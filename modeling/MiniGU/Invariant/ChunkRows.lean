import MiniGU.Model.ChunkStream

/-!
# The rows of data chunks

The logical rows of a chunk are its physical rows that the filter keeps, in order
(`rows_eq_filter`). Slicing a chunk, and letting a prefix or a suffix of a stream through, takes
consecutive physical rows.
-/

namespace MiniGU

section ChunkRows

variable {E Ty Val : Type}

/-! ## One chunk -/

namespace DataChunk

@[simp] theorem length_flagged (c : DataChunk Ty Val) : c.flagged.length = c.len := by
  simp [flagged]

theorem keptRows_eq (c : DataChunk Ty Val) : c.keptRows = (List.range c.len).filter c.keeps := by
  unfold keptRows keeps
  cases c.filter with
  | none => simp
  | some f => rfl

/-- The logical rows are the physical rows that the filter keeps. -/
theorem rows_eq_filter (c : DataChunk Ty Val) :
    c.rows = (c.flagged.filter Prod.fst).map Prod.snd := by
  rw [rows, keptRows_eq, flagged, List.filter_map, List.map_map]
  rfl

theorem flagged_of_filter_none {c : DataChunk Ty Val} (h : c.filter = none) :
    ∀ p ∈ c.flagged, p.1 = true := by
  intro p hp
  simp only [flagged, List.mem_map] at hp
  obtain ⟨i, -, rfl⟩ := hp
  simp [keeps, h]

end DataChunk

theorem rowsOf_eq_filter (cs : List (DataChunk Ty Val)) :
    rowsOf cs = ((flaggedOf cs).filter Prod.fst).map Prod.snd := by
  induction cs with
  | nil => rfl
  | cons c cs ih =>
    simp only [rowsOf, flaggedOf, List.flatMap_cons, List.filter_append, List.map_append] at ih ⊢
    rw [ih, c.rows_eq_filter]

@[simp] theorem rowsOf_cons (c : DataChunk Ty Val) (cs : List (DataChunk Ty Val)) :
    rowsOf (c :: cs) = c.rows ++ rowsOf cs := rfl

@[simp] theorem flaggedOf_cons (c : DataChunk Ty Val) (cs : List (DataChunk Ty Val)) :
    flaggedOf (c :: cs) = c.flagged ++ flaggedOf cs := rfl

/-! ## Slices -/

namespace StreamExecutor

variable {c s : DataChunk Ty Val} {o l : Nat}

theorem slice_eq_ok (h : o + l ≤ c.len) : ∃ s, slice (E := E) c o l = .ok s := by
  simp [slice, h]

/-- A slice holds the physical rows from `o` on, `l` of them, as the filter has them. -/
theorem flagged_slice (hc : c.Aligned) (h : slice (E := E) c o l = .ok s) :
    s.flagged = (c.flagged.drop o).take l := by
  unfold slice at h
  split at h
  case isFalse => cases h
  rename_i hBound
  cases h
  have hLen : (DataChunk.mk (c.columns.map fun a => { a with values := (a.values.drop o).take l })
      (c.filter.map fun f => (f.drop o).take l) (some 0)).len = l := by
    obtain ⟨a, as, hCols⟩ := List.exists_cons_of_ne_nil hc.columns
    have hA : a.values.length = c.len := hc.lengths a (by simp [hCols])
    simp only [DataChunk.len, hCols, List.map_cons, List.head?_cons, Option.map_some,
      Option.getD_some, List.length_take, List.length_drop]
    omega
  apply List.ext_getElem?
  intro i
  simp only [DataChunk.flagged, hLen, List.getElem?_map, List.getElem?_take, List.getElem?_drop]
  by_cases hi : i < l
  · have hi' : o + i < c.len := by omega
    simp only [hi, hi', List.getElem?_range, Option.map_some, if_true, Option.some.injEq,
      Prod.mk.injEq]
    refine ⟨?_, ?_⟩
    · unfold DataChunk.keeps
      cases c.filter with
      | none => rfl
      | some f => simp [hi]
    · simp [DataChunk.rowAt, List.filterMap_map, hi]
  · simp [hi]

/-! ## Limit and offset -/

theorem limitFrom_ok (limit : Nat) {cs : List (DataChunk Ty Val)} (hcs : ∀ c ∈ cs, c.Aligned)
    {count : Nat} (hCount : count ≤ limit) :
    ∃ ls : List (DataChunk Ty Val),
      limitFrom (E := E) limit count (cs.map .ok) = ls.map .ok ∧
      flaggedOf ls = (flaggedOf cs).take (limit - count) := by
  induction cs generalizing count with
  | nil => exact ⟨[], rfl, by simp [flaggedOf]⟩
  | cons c cs ih =>
    simp only [List.map_cons, limitFrom, flaggedOf_cons, List.take_append,
      DataChunk.length_flagged]
    by_cases hFull : limit ≤ count
    · refine ⟨[], by simp [hFull], ?_⟩
      have hZero : limit - count = 0 := by omega
      simp [hZero, flaggedOf]
    · by_cases hFits : c.len ≤ limit - count
      · have hNext : count + c.len ≤ limit := by omega
        obtain ⟨ls, hLs, hTake⟩ := ih (fun d hd => hcs d (List.mem_cons_of_mem c hd)) hNext
        refine ⟨c :: ls, by simp [hFull, hFits, hLs], ?_⟩
        have hRest : limit - (count + c.len) = limit - count - c.len := by omega
        have hAll : c.flagged.take (limit - count) = c.flagged :=
          List.take_of_length_le (by simpa using hFits)
        rw [flaggedOf_cons, hTake, hRest, hAll]
      · -- the chunk is cut, and the loop ends
        obtain ⟨s, hs⟩ := slice_eq_ok (E := E) (c := c) (o := 0) (l := limit - count) (by omega)
        refine ⟨[s], by simp [hFull, hFits, hs], ?_⟩
        have hZero : limit - count - c.len = 0 := by omega
        simp [flaggedOf, flagged_slice (hcs c List.mem_cons_self) hs, hZero]

/-- With some rows already skipped, `offset` goes on to drop the rest of its rows. -/
theorem offsetFrom_ok (offset : Nat) {cs : List (DataChunk Ty Val)} (hcs : ∀ c ∈ cs, c.Aligned)
    {skipped : Nat} (hSkipped : skipped ≤ offset) :
    ∃ os : List (DataChunk Ty Val),
      offsetFrom (E := E) offset skipped (cs.map .ok) = os.map .ok ∧
      flaggedOf os = (flaggedOf cs).drop (offset - skipped) := by
  induction cs generalizing skipped with
  | nil => exact ⟨[], rfl, by simp [flaggedOf]⟩
  | cons c cs ih =>
    have hTail : ∀ d ∈ cs, d.Aligned := fun d hd => hcs d (List.mem_cons_of_mem c hd)
    simp only [List.map_cons, offsetFrom, flaggedOf_cons, List.drop_append,
      DataChunk.length_flagged]
    by_cases hMore : skipped < offset
    · by_cases hFits : c.len ≤ offset - skipped
      · have hNext : skipped + c.len ≤ offset := by omega
        obtain ⟨os, hOs, hDrop⟩ := ih hTail hNext
        refine ⟨os, by simp [hMore, hFits, hOs], ?_⟩
        have hRest : offset - (skipped + c.len) = offset - skipped - c.len := by omega
        have hNone : c.flagged.drop (offset - skipped) = [] :=
          List.drop_of_length_le (by simpa using hFits)
        rw [hDrop, hRest, hNone, List.nil_append]
      · obtain ⟨s, hs⟩ := slice_eq_ok (E := E) (c := c) (o := offset - skipped)
          (l := c.len - (offset - skipped)) (by omega)
        obtain ⟨os, hOs, hDrop⟩ := ih hTail (Nat.le_refl offset)
        refine ⟨s :: os, by simp [hMore, hFits, hs, hOs], ?_⟩
        have hZero : offset - skipped - c.len = 0 := by omega
        rw [flaggedOf_cons, flagged_slice (hcs c List.mem_cons_self) hs, hDrop, hZero,
          Nat.sub_self, List.take_of_length_le (by simp)]
    · obtain ⟨os, hOs, hDrop⟩ := ih hTail hSkipped
      refine ⟨c :: os, by simp [hMore, hOs], ?_⟩
      have hZero : offset - skipped = 0 := by omega
      rw [flaggedOf_cons, hDrop, hZero]
      simp

end StreamExecutor

end ChunkRows

end MiniGU
