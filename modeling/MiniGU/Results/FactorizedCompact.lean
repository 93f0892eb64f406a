import MiniGU.Lib.Collect
import MiniGU.Model.ListArray

/-!
# Compacting list columns by a mask

The elements are selected by the bits of the whole mask, the lists are cut out of what is selected
by the bits of the rows alone. `factorized_compact_iff`: each list is restricted to its own
elements if and only if the values of column and mask are equally many, no list is null, and the
first bits of the mask that are set stand at the elements that the rows keep.
-/

namespace MiniGU

variable {α Ty Val : Type}

open ArrayChunk

-- ----
-- The lists of an array
-- ----

namespace ListArray

/-- The first offset. -/
def first (a : ListArray α) : Nat := a.offsets.head a.ne_nil

/-- The lengths of the lists. -/
def lengths (a : ListArray α) : List Nat := gaps a.offsets

def lists (a : ListArray α) : List (List α) := (List.range a.len).map a.value

theorem offsets_eq (a : ListArray α) : a.offsets = a.first :: a.offsets.tail :=
  (List.cons_head_tail a.ne_nil).symm

theorem value_eq {a : ListArray α} {i : Nat} (hi : i < a.len) :
    (segments a.values a.offsets)[i]? = some (a.value i) := by
  unfold len at hi
  have hStart : a.offsets[i]? = some a.offsets[i] := List.getElem?_eq_getElem (by omega)
  have hStop : a.offsets[i + 1]? = some a.offsets[i + 1] := List.getElem?_eq_getElem (by omega)
  unfold value
  rw [getElem?_segments a.values hStart hStop, hStart, hStop]

/-- **The lists** are the values from the first offset on, cut by their lengths. -/
theorem lists_eq (a : ListArray α) : a.lists = a.lengths.splitLengths (a.values.drop a.first) := by
  have hSegments : a.lists = segments a.values a.offsets := by
    unfold lists
    refine List.ext_getElem? fun i => ?_
    rw [List.getElem?_map]
    by_cases hi : i < a.len
    · rw [List.getElem?_range hi, value_eq hi]
      rfl
    · rw [List.getElem?_eq_none (by rw [List.length_range]; omega),
        List.getElem?_eq_none (by rw [length_segments]; unfold len at hi; omega)]
      rfl
  have hSorted := a.sorted
  unfold lengths
  rw [hSegments]
  rw [offsets_eq a] at hSorted ⊢
  exact segments_eq_splitLengths a.values hSorted

theorem lengths_fit (a : ListArray α) : a.first + a.lengths.sum ≤ a.values.length := by
  have hSorted := a.sorted
  have hBounded := a.bounded
  unfold lengths
  rw [offsets_eq a] at hSorted hBounded ⊢
  exact sum_gaps_le hSorted hBounded

theorem lengths_le_drop (a : ListArray α) : a.lengths.sum ≤ (a.values.drop a.first).length := by
  have hFit := a.lengths_fit
  rw [List.length_drop]
  omega

theorem length_lists (a : ListArray α) : a.lists.length = a.len := by
  unfold lists
  rw [List.length_map, List.length_range]

theorem length_lengths (a : ListArray α) : a.lengths.length = a.len := by
  rw [← length_lists, lists_eq, List.length_splitLengths]

theorem new_offsetsFrom {ns : List Nat} {values : List α} (h : ns.sum ≤ values.length) :
    ∃ a, new (offsetsFrom 0 ns) values = .ok a ∧ a.nulls = none ∧
      a.lists = ns.splitLengths values ∧ a.len = ns.length := by
  obtain ⟨rest, hCons⟩ := offsetsFrom_cons 0 ns
  have hValid : offsetsFrom 0 ns ≠ [] ∧ (offsetsFrom 0 ns).Pairwise (· ≤ ·) ∧
      ∀ o ∈ offsetsFrom 0 ns, o ≤ values.length := by
    refine ⟨by rw [hCons]; exact List.cons_ne_nil _ _, pairwise_offsetsFrom 0 ns, fun o ho => ?_⟩
    have hLe := (mem_offsetsFrom ho).2
    omega
  refine ⟨_, dif_pos hValid, rfl, ?_, ?_⟩
  · rw [lists_eq]
    have hFirst : first ⟨offsetsFrom 0 ns, values, none, hValid.1, hValid.2.1, hValid.2.2⟩ = 0 := by
      unfold first
      simp only [hCons, List.head_cons]
    rw [hFirst]
    unfold lengths
    rw [gaps_offsetsFrom, List.drop_zero]
  · unfold len
    rw [length_offsetsFrom, Nat.add_sub_cancel]

end ListArray

-- ----
-- What compaction is for
-- ----

/-- Every list is the old one with the elements whose bit is set; what is null stays null. -/
def RowsRestricted (mask : ListArray (Option Bool)) (a a' : ListArray α) : Prop :=
  a'.len = a.len ∧
    ∀ i < a.len, a'.row i = (a.row i).map fun l => filterValues l (mask.value i)

/-- The list columns are restricted by the mask, and nothing else has changed. -/
structure Compacted (mask : ListArray (Option Bool)) (unflat : List Nat)
    (c c' : ArrayChunk Ty Val) : Prop where
  filter : c'.filter = c.filter
  curIdx : c'.curIdx = c.curIdx
  flat : ∀ i ∉ unflat, c'.columns[i]? = c.columns[i]?
  lists : ∀ i ∈ unflat, ∀ field a, c.columns[i]? = some (.list field a) →
    ∃ a', c'.columns[i]? = some (.list field a') ∧ RowsRestricted mask a a'

/-- The unflat columns, each named once, are list arrays, and the mask has a bit for every element
of every list. -/
structure Masked (mask : ListArray (Option Bool)) (unflat : List Nat) (c : ArrayChunk Ty Val) :
    Prop where
  nodup : unflat.Nodup
  len : c.len = mask.len
  lists : ∀ i ∈ unflat, ∃ field a, c.columns[i]? = some (.list field a) ∧ a.lengths = mask.lengths

-- ----
-- The condition
-- ----

/-- How many elements the rows of the mask keep. -/
def keptCount (mask : ListArray (Option Bool)) : Nat :=
  ((List.range mask.len).map fun i => trueCount (mask.value i)).sum

/-- The places of the mask's values whose bit is set. -/
def setPlaces (mask : ListArray (Option Bool)) : List Nat :=
  filterValues (List.range mask.values.length) mask.values

/-- The places of a column that the rows keep, where its lists begin at `first`. -/
def keptPlaces (first : Nat) (mask : ListArray (Option Bool)) : List Nat :=
  filterValues ((List.range mask.values.length).drop first) (mask.values.drop mask.first)

/-- What a column and a mask have to agree on. The first bits that are set in the mask's values
belong to the rows, or stand at elements equal to the rows'. -/
structure AlignedWith (mask : ListArray (Option Bool)) (a : ListArray α) : Prop where
  values : a.values.length = mask.values.length
  valid : ∀ i < a.len, a.isValid i = true
  places : (((setPlaces mask).take (keptCount mask)).map fun i => a.values[i]?) =
    ((keptPlaces a.first mask).take (keptCount mask)).map fun i => a.values[i]?

-- ----
-- One column
-- ----

section Column

variable {mask : ListArray (Option Bool)} {a : ListArray α}

/-- The lists of the mask, as bits. -/
theorem bits_lists (mask : ListArray (Option Bool)) :
    mask.lists.map bits = mask.lengths.splitLengths ((bits mask.values).drop mask.first) := by
  rw [mask.lists_eq]
  have hMap : ∀ (ls : List Nat) (l : List (Option Bool)),
      (ls.splitLengths l).map bits = ls.splitLengths (bits l) := by
    intro ls
    induction ls with
    | nil => exact fun l => rfl
    | cons n ls ih =>
      intro l
      rw [List.splitLengths_cons, List.splitLengths_cons, List.map_cons, ih]
      unfold bits
      rw [List.map_take, List.map_drop]
  rw [hMap]
  unfold bits
  rw [List.map_drop]

theorem counts_eq (mask : ListArray (Option Bool)) :
    (List.range mask.len).map (fun i => trueCount (mask.value i)) =
      (mask.lengths.splitLengths ((bits mask.values).drop mask.first)).map (List.count true) := by
  rw [← bits_lists]
  unfold ListArray.lists
  rw [List.map_map, List.map_map]
  rfl

theorem keptCount_le (hValues : a.values.length = mask.values.length) :
    keptCount mask ≤ (filterValues a.values mask.values).length := by
  have hLength : (bits mask.values).length = mask.values.length := List.length_map _
  have hSelected : (filterValues a.values mask.values).length = (bits mask.values).count true :=
    length_selectBy (by omega)
  have hRows := sum_count_splitLengths_le mask.lengths ((bits mask.values).drop mask.first)
  have hDrop : ((bits mask.values).drop mask.first).count true ≤ (bits mask.values).count true :=
    (List.drop_sublist _ _).count_le true
  unfold keptCount
  rw [counts_eq]
  omega

/-- The lists that are asked for, cut from the elements of the rows. -/
theorem restricted_lists (h : a.lengths = mask.lengths) :
    List.zipWith (fun l m => filterValues l m) a.lists mask.lists =
      ((List.range mask.len).map fun i => trueCount (mask.value i)).splitLengths
        (filterValues (a.values.drop a.first) (mask.values.drop mask.first)) := by
  have hBits : List.zipWith (fun l m => filterValues l m) a.lists mask.lists =
      List.zipWith selectBy a.lists (mask.lists.map bits) := by
    rw [List.zipWith_map_right]
    rfl
  have hMaskRoom : mask.lengths.sum ≤ ((bits mask.values).drop mask.first).length := by
    have hRoom := mask.lengths_le_drop
    rw [List.length_drop] at hRoom ⊢
    unfold bits
    rw [List.length_map]
    exact hRoom
  rw [hBits, bits_lists, a.lists_eq, h, counts_eq,
    zipWith_selectBy_splitLengths (h ▸ a.lengths_le_drop) hMaskRoom]
  unfold filterValues bits
  rw [List.map_drop]

theorem map_some_filterValues (l : List α) (m : List (Option Bool)) (n : Nat) :
    (filterValues (l.drop n) m).map some =
      (filterValues ((List.range l.length).drop n) m).map fun i => l[i]? := by
  unfold filterValues
  rw [← selectBy_map, ← selectBy_map, List.map_drop, List.map_drop, map_some_eq_range]

/-- The rows of an array without nulls, against those of another. -/
theorem rowsRestricted_iff {a' : ListArray α} (hNulls : a'.nulls = none) (hLen : a'.len = a.len)
    (hMask : mask.len = a.len) : RowsRestricted mask a a' ↔
      (∀ i < a.len, a.isValid i = true) ∧
        a'.lists = List.zipWith (fun l m => filterValues l m) a.lists mask.lists := by
  have hRow : ∀ i, a'.row i = some (a'.value i) := by
    intro i
    unfold ListArray.row ListArray.isValid
    rw [hNulls]
    rfl
  have hZip : List.zipWith (fun l m => filterValues l m) a.lists mask.lists =
      (List.range a.len).map fun i => filterValues (a.value i) (mask.value i) := by
    unfold ListArray.lists
    rw [hMask, List.zipWith_map, List.zipWith_self]
  rw [hZip]
  unfold ListArray.lists
  rw [hLen]
  constructor
  · rintro ⟨-, hRows⟩
    have hValid : ∀ i < a.len, a.isValid i = true := by
      intro i hi
      by_contra hNull
      have hAt := hRows i hi
      rw [hRow] at hAt
      unfold ListArray.row at hAt
      rw [if_neg hNull] at hAt
      cases hAt
    refine ⟨hValid, List.map_congr_left fun i hi => ?_⟩
    have hi := List.mem_range.mp hi
    have hAt := hRows i hi
    rw [hRow] at hAt
    unfold ListArray.row at hAt
    rw [if_pos (hValid i hi)] at hAt
    exact Option.some.inj hAt
  · rintro ⟨hValid, hLists⟩
    refine ⟨hLen, fun i hi => ?_⟩
    have hAt := List.map_inj_left.mp hLists i (List.mem_range.mpr hi)
    rw [hRow, hAt]
    unfold ListArray.row
    rw [if_pos (hValid i hi)]
    rfl

/-- **One column**: what compaction makes of it, where the values are equally many. -/
theorem compactColumn_ok (field : Ty) {a : ListArray Val} (h : a.lengths = mask.lengths)
    (hValues : a.values.length = mask.values.length) :
    ∃ a', compactColumn mask (.list field a) = .ok (.list field a') ∧
      (RowsRestricted mask a a' ↔ (∀ i < a.len, a.isValid i = true) ∧
        (filterValues a.values mask.values).take (keptCount mask) =
          (filterValues (a.values.drop a.first) (mask.values.drop mask.first)).take
            (keptCount mask)) := by
  obtain ⟨a', hNew, hNulls, hLists, hLen⟩ :=
    ListArray.new_offsetsFrom (keptCount_le (a := a) hValues)
  have hMask : mask.len = a.len := by rw [← mask.length_lengths, ← a.length_lengths, h]
  refine ⟨a', ?_, ?_⟩
  · unfold compactColumn
    dsimp only
    rw [if_pos hValues]
    unfold newOffsets
    rw [hNew]
    rfl
  · rw [List.length_map, List.length_range, hMask] at hLen
    rw [rowsRestricted_iff hNulls hLen hMask, hLists, restricted_lists h, splitLengths_eq_iff]
    rfl

theorem selected_iff_places (hValues : a.values.length = mask.values.length) :
    (filterValues a.values mask.values).take (keptCount mask) =
        (filterValues (a.values.drop a.first) (mask.values.drop mask.first)).take
          (keptCount mask) ↔
      (((setPlaces mask).take (keptCount mask)).map fun i => a.values[i]?) =
        ((keptPlaces a.first mask).take (keptCount mask)).map fun i => a.values[i]? := by
  have hAll := map_some_filterValues a.values mask.values 0
  have hRows := map_some_filterValues a.values (mask.values.drop mask.first) a.first
  rw [List.drop_zero, List.drop_zero, hValues] at hAll
  rw [hValues] at hRows
  unfold setPlaces keptPlaces
  rw [List.map_take, List.map_take, ← hAll, ← hRows, ← List.map_take, ← List.map_take]
  exact (List.map_injective_iff.mpr (Option.some_injective α)).eq_iff.symm

end Column

-- ----
-- All columns
-- ----

section Chunk

variable {mask : ListArray (Option Bool)} {unflat : List Nat} {c c' : ArrayChunk Ty Val}

/-- The loop over the columns. -/
def compactLoop (mask : ListArray (Option Bool)) (unflat : List Nat) (c : ArrayChunk Ty Val) :
    ExecutionResult (ArrayChunk Ty Val) :=
  unflat.foldlM (fun c colIdx =>
    match c.columns[colIdx]? with
    | none => .error .panicked
    | some column => do
      let newColumn ← compactColumn mask column
      return { c with columns := c.columns.set colIdx newColumn }) c

theorem compactLoop_cons {i : Nat} {column newColumn : ColumnArray Ty Val}
    (hColumn : c.columns[i]? = some column) (hNew : compactColumn mask column = .ok newColumn) :
    compactLoop mask (i :: unflat) c =
      compactLoop mask unflat { c with columns := c.columns.set i newColumn } := by
  unfold compactLoop
  rw [List.foldlM_cons, hColumn]
  dsimp only
  rw [hNew]
  rfl

theorem lists_set {i : Nat} {column : ColumnArray Ty Val} (hi : i ∉ unflat)
    (h : ∀ j ∈ unflat, ∃ field a, c.columns[j]? = some (.list field a) ∧
      a.lengths = mask.lengths) :
    ∀ j ∈ unflat, ∃ field a, (c.columns.set i column)[j]? = some (.list field a) ∧
      a.lengths = mask.lengths := by
  intro j hj
  have hNe : i ≠ j := fun hEq => hi (hEq ▸ hj)
  rw [List.getElem?_set_ne hNe]
  exact h j hj

/-- What the loop leaves: in place of each list column what was made of it. -/
structure LoopResult (mask : ListArray (Option Bool)) (unflat : List Nat)
    (c c' : ArrayChunk Ty Val) : Prop where
  filter : c'.filter = c.filter
  curIdx : c'.curIdx = c.curIdx
  flat : ∀ i ∉ unflat, c'.columns[i]? = c.columns[i]?
  lists : ∀ i ∈ unflat, ∀ column, c.columns[i]? = some column →
    ∃ column', c'.columns[i]? = some column' ∧ compactColumn mask column = .ok column'

theorem LoopResult.cons {i : Nat} {column newColumn : ColumnArray Ty Val} (hi : i ∉ unflat)
    (hColumn : c.columns[i]? = some column) (hNew : compactColumn mask column = .ok newColumn)
    (h : LoopResult mask unflat { c with columns := c.columns.set i newColumn } c') :
    LoopResult mask (i :: unflat) c c' := by
  have hOther : ∀ j, j ≠ i → (c.columns.set i newColumn)[j]? = c.columns[j]? := fun j hj =>
    List.getElem?_set_ne (Ne.symm hj)
  refine ⟨h.filter, h.curIdx, fun j hj => ?_, fun j hj column' hColumn' => ?_⟩
  · rw [List.mem_cons, not_or] at hj
    exact (h.flat j hj.2).trans (hOther j hj.1)
  · by_cases hSame : j = i
    · subst hSame
      obtain rfl : column = column' := Option.some.inj (hColumn.symm.trans hColumn')
      refine ⟨newColumn, ?_, hNew⟩
      have hLt := (List.getElem?_eq_some_iff.mp hColumn).1
      exact (h.flat j hi).trans (List.getElem?_set_self hLt)
    · have hRest := (List.mem_cons.mp hj).resolve_left hSame
      exact h.lists j hRest column' ((hOther j hSame).trans hColumn')

/-- The loop ends if and only if the values of every list column are as many as the mask's. -/
theorem compactLoop_ok (hNodup : unflat.Nodup)
    (hLists : ∀ i ∈ unflat, ∃ field a, c.columns[i]? = some (.list field a) ∧
      a.lengths = mask.lengths) :
    (∃ c', compactLoop mask unflat c = .ok c' ∧ LoopResult mask unflat c c' ∧
      ∀ i ∈ unflat, ∀ field a, c.columns[i]? = some (.list field a) →
        a.values.length = mask.values.length) ∨
    ((∀ c', compactLoop mask unflat c ≠ .ok c') ∧
      ∃ i ∈ unflat, ∃ field a, c.columns[i]? = some (.list field a) ∧
        a.values.length ≠ mask.values.length) := by
  induction unflat generalizing c with
  | nil =>
    exact .inl ⟨c, rfl, ⟨rfl, rfl, fun i _ => rfl, fun i hi => (nomatch hi)⟩,
      fun i hi => (nomatch hi)⟩
  | cons i unflat ih =>
    obtain ⟨hi, hRestNodup⟩ := List.nodup_cons.mp hNodup
    obtain ⟨field, a, hColumn, hLengths⟩ := hLists i List.mem_cons_self
    have hRestLists := fun j hj => hLists j (List.mem_cons_of_mem i hj)
    by_cases hValues : a.values.length = mask.values.length
    · obtain ⟨a', hNew, -⟩ := compactColumn_ok field hLengths hValues
      have hOther : ∀ j ∈ unflat, (c.columns.set i (.list field a'))[j]? = c.columns[j]? := by
        intro j hj
        have hNe : i ≠ j := fun hEq => hi (hEq ▸ hj)
        exact List.getElem?_set_ne hNe
      rw [compactLoop_cons hColumn hNew]
      rcases ih (c := { c with columns := c.columns.set i (.list field a') }) hRestNodup
        (lists_set hi hRestLists) with ⟨c', hOk, hResult, hAll⟩ | ⟨hFails, j, hj, field', b, hAt, hNe⟩
      · refine .inl ⟨c', hOk, hResult.cons hi hColumn hNew, fun j hj field' b hAt => ?_⟩
        rcases List.mem_cons.mp hj with rfl | hj
        · have hSame := Option.some.inj (hColumn.symm.trans hAt)
          obtain ⟨-, rfl⟩ := ColumnArray.list.inj hSame
          exact hValues
        · exact hAll j hj field' b ((hOther j hj).trans hAt)
      · exact .inr ⟨hFails, j, List.mem_cons_of_mem i hj, field', b, (hOther j hj).symm.trans hAt,
          hNe⟩
    · refine .inr ⟨fun c' hOk => ?_, i, List.mem_cons_self, field, a, hColumn, hValues⟩
      unfold compactLoop at hOk
      rw [List.foldlM_cons, hColumn] at hOk
      dsimp only [compactColumn] at hOk
      rw [if_neg hValues] at hOk
      cases hOk

/-- **When compaction keeps rows and lists aligned**: for every chunk and every mask. -/
theorem factorized_compact_iff (h : Masked mask unflat c) :
    (∃ c', c.factorizedCompact mask unflat = .ok c' ∧ Compacted mask unflat c c') ↔
      ∀ i ∈ unflat, ∀ field a, c.columns[i]? = some (.list field a) → AlignedWith mask a := by
  have hRun : c.factorizedCompact mask unflat = compactLoop mask unflat c := if_pos h.len
  have hLengths : ∀ i ∈ unflat, ∀ field a, c.columns[i]? = some (.list field a) →
      a.lengths = mask.lengths := by
    intro i hi field a hColumn
    obtain ⟨field', b, hAt, hEq⟩ := h.lists i hi
    obtain ⟨-, rfl⟩ := ColumnArray.list.inj (Option.some.inj (hAt.symm.trans hColumn))
    exact hEq
  rw [hRun]
  constructor
  · rintro ⟨c', hOk, hCompacted⟩ i hi field a hColumn
    rcases compactLoop_ok h.nodup h.lists with ⟨c'', hOk', hResult, hAll⟩ | ⟨hFails, -⟩
    · obtain rfl := Except.ok.inj (hOk.symm.trans hOk')
      have hValues := hAll i hi field a hColumn
      obtain ⟨a', hNew, hRows⟩ := compactColumn_ok field
        (hLengths i hi field a hColumn) hValues
      obtain ⟨column', hAt, hMade⟩ := hResult.lists i hi _ hColumn
      obtain rfl := Except.ok.inj (hNew.symm.trans hMade)
      obtain ⟨b, hAt', hRestricted⟩ := hCompacted.lists i hi field a hColumn
      obtain ⟨-, rfl⟩ := ColumnArray.list.inj (Option.some.inj (hAt.symm.trans hAt'))
      obtain ⟨hValid, hSelected⟩ := hRows.mp hRestricted
      exact ⟨hValues, hValid, (selected_iff_places hValues).mp hSelected⟩
    · exact absurd hOk (hFails c')
  · intro hAligned
    rcases compactLoop_ok h.nodup h.lists with
      ⟨c', hOk, hResult, -⟩ | ⟨-, i, hi, field, a, hColumn, hNe⟩
    · refine ⟨c', hOk, hResult.filter, hResult.curIdx, hResult.flat, fun i hi field a hColumn => ?_⟩
      have hColumnAligned := hAligned i hi field a hColumn
      obtain ⟨a', hNew, hRows⟩ := compactColumn_ok field
        (hLengths i hi field a hColumn) hColumnAligned.values
      obtain ⟨column', hAt, hMade⟩ := hResult.lists i hi _ hColumn
      obtain rfl := Except.ok.inj (hNew.symm.trans hMade)
      exact ⟨a', hAt, hRows.mpr ⟨hColumnAligned.valid,
        (selected_iff_places hColumnAligned.values).mpr hColumnAligned.places⟩⟩
    · exact absurd (hAligned i hi field a hColumn).values hNe

end Chunk

-- ----
-- Concrete chunks
-- ----

/-- Three rows, the second with an empty list, and a mask with a null. -/
def threeRows : ArrayChunk Unit Nat where
  columns := [.flat ⟨(), [7, 8, 9]⟩,
    .list () ⟨[0, 2, 2, 4], [1, 2, 3, 4], none, by decide, by decide, by decide⟩]
  filter := none
  curIdx := some 0

def threeRowsMask : ListArray (Option Bool) :=
  ⟨[0, 2, 2, 4], [some false, some true, none, some true], none, by decide, by decide, by decide⟩

/-- A mask on the lists of three rows. -/
theorem factorized_compact_three : ∃ c',
    threeRows.factorizedCompact threeRowsMask [1] = .ok c' ∧
      Compacted threeRowsMask [1] threeRows c' := by
  have hMasked : Masked threeRowsMask [1] threeRows := by
    refine ⟨by decide, by decide, fun i hi => ?_⟩
    obtain rfl := List.mem_singleton.mp hi
    exact ⟨(), _, rfl, by decide⟩
  refine (factorized_compact_iff hMasked).mpr fun i hi field a hColumn => ?_
  obtain rfl := List.mem_singleton.mp hi
  obtain ⟨-, rfl⟩ := ColumnArray.list.inj (Option.some.inj hColumn)
  exact ⟨by decide, by decide, by decide⟩

/-- The second of two rows with the lists `[1, 2]` and `[3]`, as a slice keeps it. -/
def secondRow : ArrayChunk Unit Nat where
  columns := [.list () ⟨[2, 3], [1, 2, 3], none, by decide, by decide, by decide⟩]
  filter := none
  curIdx := some 0

/-- A mask for that row alone, and one that is a slice of its own. -/
def freshMask : ListArray (Option Bool) :=
  ⟨[0, 1], [some true], none, by decide, by decide, by decide⟩

def slicedMask : ListArray (Option Bool) :=
  ⟨[2, 3], [some true, some false, some true], none, by decide, by decide, by decide⟩

/-- The first row of the first column. -/
def firstList (c : ArrayChunk Unit Nat) : Option (List Nat) :=
  match c.columns[0]? with
  | some (ColumnArray.list _ a) => a.row 0
  | _ => none

/-- On the slice the first mask panics, and the second leaves the row `[1]` instead of `[3]`. -/
theorem sliced_chunk_misaligned :
    (Masked freshMask [0] secondRow ∧
      ¬ ∃ c', secondRow.factorizedCompact freshMask [0] = .ok c' ∧
        Compacted freshMask [0] secondRow c') ∧
    (Masked slicedMask [0] secondRow ∧
      ¬ ∃ c', secondRow.factorizedCompact slicedMask [0] = .ok c' ∧
        Compacted slicedMask [0] secondRow c') := by
  refine ⟨⟨?_, ?_⟩, ⟨?_, ?_⟩⟩
  · refine ⟨by decide, by decide, fun i hi => ?_⟩
    obtain rfl := List.mem_singleton.mp hi
    exact ⟨(), _, rfl, by decide⟩
  · rintro ⟨c', hOk, -⟩
    cases hOk
  · refine ⟨by decide, by decide, fun i hi => ?_⟩
    obtain rfl := List.mem_singleton.mp hi
    exact ⟨(), _, rfl, by decide⟩
  · rintro ⟨c', hOk, hCompacted⟩
    have hRow : (secondRow.factorizedCompact slicedMask [0]).toOption.bind firstList = some [1] := by
      decide
    obtain ⟨a', hAt, hRows⟩ := hCompacted.lists 0 (by decide) () _ rfl
    have hThree : a'.row 0 = some [3] := (hRows.2 0 (by decide)).trans (by decide)
    rw [hOk] at hRow
    have hOne : firstList c' = some [1] := hRow
    unfold firstList at hOne
    rw [hAt] at hOne
    cases hOne.symm.trans hThree

end MiniGU
