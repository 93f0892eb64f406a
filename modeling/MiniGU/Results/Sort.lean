import MiniGU.Invariant.RowTables
import MiniGU.Model.Sort

/-!
# Sorting

`Sort` puts all chunks together before it does anything else, and evaluates its keys over the
whole. So it panics where there is no chunk to put together, because the stream is empty or starts
with an error; and a key that is one value for all rows gives a column of one value, which orders
the first row only or does not go with the other columns. Otherwise it sorts.
-/

namespace MiniGU

variable {E Ty Val : Type}

-- ----
-- The order of rows
-- ----

namespace RowConverter

variable (arrow : RowConverter E Ty Val)

theorem optionLe_total (o : SortOptions) (a b : Val) :
    arrow.optionLe o a b = true ∨ arrow.optionLe o b a = true := by
  unfold optionLe
  cases arrow.isNull a <;> cases arrow.isNull b
  · cases o.descending
    · exact arrow.total a b
    · exact arrow.total b a
  all_goals cases o.nullsFirst <;> simp

theorem optionLe_trans (o : SortOptions) {a b c : Val} (hab : arrow.optionLe o a b = true)
    (hbc : arrow.optionLe o b c = true) : arrow.optionLe o a c = true := by
  unfold optionLe at *
  cases ha : arrow.isNull a <;> cases hb : arrow.isNull b <;> cases hc : arrow.isNull c
  all_goals simp only [ha, hb, hc] at hab hbc ⊢
  · cases hd : o.descending
    · simp only [hd] at hab hbc ⊢
      exact arrow.trans a b c hab hbc
    · simp only [hd] at hab hbc ⊢
      exact arrow.trans c b a hbc hab
  all_goals cases hFirst : o.nullsFirst <;> simp_all

theorem rowLe_total (os : List SortOptions) (as bs : List Val) :
    arrow.rowLe os as bs = true ∨ arrow.rowLe os bs as = true := by
  induction os generalizing as bs with
  | nil => exact .inl rfl
  | cons o os ih =>
    cases as with
    | nil => exact .inl rfl
    | cons a as =>
      cases bs with
      | nil => exact .inl rfl
      | cons b bs =>
        simp only [rowLe, Bool.and_eq_true, Bool.or_eq_true, Bool.not_eq_true']
        rcases Bool.eq_false_or_eq_true (arrow.optionLe o a b) with hab | hab
        all_goals rcases Bool.eq_false_or_eq_true (arrow.optionLe o b a) with hba | hba
        · rcases ih as bs with h | h
          · exact .inl ⟨hab, .inr h⟩
          · exact .inr ⟨hba, .inr h⟩
        · exact .inl ⟨hab, .inl hba⟩
        · exact .inr ⟨hba, .inl hab⟩
        · rcases arrow.optionLe_total o a b with h | h
          · rw [hab] at h
            cases h
          · rw [hba] at h
            cases h

theorem rowLe_trans (os : List SortOptions) {as bs cs : List Val} (ha : as.length = os.length)
    (hb : bs.length = os.length) (hc : cs.length = os.length) (hab : arrow.rowLe os as bs = true)
    (hbc : arrow.rowLe os bs cs = true) : arrow.rowLe os as cs = true := by
  induction os generalizing as bs cs with
  | nil => rfl
  | cons o os ih =>
    obtain ⟨a, as, rfl⟩ := List.exists_cons_of_length_eq_add_one ha
    obtain ⟨b, bs, rfl⟩ := List.exists_cons_of_length_eq_add_one hb
    obtain ⟨c, cs, rfl⟩ := List.exists_cons_of_length_eq_add_one hc
    simp only [rowLe, Bool.and_eq_true, Bool.or_eq_true, Bool.not_eq_true'] at hab hbc ⊢
    simp only [List.length_cons, Nat.add_right_cancel_iff] at ha hb hc
    refine ⟨arrow.optionLe_trans o hab.1 hbc.1, ?_⟩
    -- a strict step on either side is strict over both
    rcases hab.2 with hba | hab'
    · left
      rw [Bool.eq_false_iff] at hba ⊢
      exact fun hca => hba (arrow.optionLe_trans o hbc.1 hca)
    · rcases hbc.2 with hcb | hbc'
      · left
        rw [Bool.eq_false_iff] at hcb ⊢
        exact fun hca => hcb (arrow.optionLe_trans o hca hab.1)
      · exact .inr (ih ha hb hc hab' hbc')

end RowConverter

-- ----
-- Sort keys
-- ----

/-- A sort key whose expression can be evaluated over a schema. It has a value at each row; as a
scalar it has one value for all. -/
structure SortKey (arrow : RowConverter E Ty Val) (schema : List Ty) extends SortSpec E Ty Val where
  ty : Ty
  value : List Val → Val
  isScalar : Bool
  scalar : isScalar = true → ∀ row, value row = value []
  evaluates : ∀ rows, RowsFit schema rows → key (tableOf schema rows) =
    .ok ⟨⟨ty, if isScalar then [value []] else rows.map value⟩, isScalar⟩
  supported : arrow.supports ty = true

namespace StreamExecutor

variable {arrow : RowConverter E Ty Val} {unstable : UnstableSort (Nat × List Val)}
  {schema : List Ty} {keys : List (SortKey arrow schema)} {rows : List (List Val)}

def sortSpecs (keys : List (SortKey arrow schema)) : List (SortSpec E Ty Val) :=
  keys.map SortKey.toSortSpec

/-- The values of the keys at a row. -/
def sortKeyOf (keys : List (SortKey arrow schema)) (row : List Val) : List Val :=
  keys.map fun k => k.value row

/-- The rows are in the order of the keys. -/
def SortedBy (keys : List (SortKey arrow schema)) (rows : List (List Val)) : Prop :=
  rows.Pairwise fun row row' => arrow.rowLe ((sortSpecs keys).map SortSpec.options)
    (sortKeyOf keys row) (sortKeyOf keys row') = true

/-- The values of a key over some rows. -/
def SortKey.column (k : SortKey arrow schema) (rows : List (List Val)) : ArrayRef Ty Val :=
  ⟨k.ty, if k.isScalar then [k.value []] else rows.map k.value⟩

theorem keyColumns_ok (keys : List (SortKey arrow schema)) (hFits : RowsFit schema rows) :
    (sortSpecs keys).mapM (fun spec => (spec.key (tableOf schema rows)).map DatumRef.array) =
      .ok (keys.map fun k => SortKey.column k rows) := by
  rw [mapM_ok_iff, sortSpecs, List.map_map, List.map_map]
  refine List.map_congr_left fun k _ => ?_
  show (k.key (tableOf schema rows)).map DatumRef.array = _
  rw [k.evaluates rows hFits]
  rfl

theorem supports_all (keys : List (SortKey arrow schema)) (rows : List (List Val)) :
    ((keys.map fun k => SortKey.column k rows).all fun a => arrow.supports a.dataType) = true := by
  rw [List.all_eq_true]
  intro a ha
  obtain ⟨k, -, rfl⟩ := List.mem_map.mp ha
  exact k.supported

/-- Without a scalar key, or over one row, the rows of the keys are those of the rows. -/
theorem convertColumns_ok (hKeys : keys ≠ []) (hRows : rows ≠ [])
    (h : rows.length ≤ 1 ∨ ∀ k ∈ keys, k.isScalar = false) :
    arrow.convertColumns (keys.map fun k => SortKey.column k rows) = .ok (rows.map (sortKeyOf keys)) := by
  have hColumn : ∀ k ∈ keys, (SortKey.column k rows).values = rows.map k.value := by
    intro k hk
    unfold SortKey.column
    cases hScalar : k.isScalar with
    | false => rfl
    | true =>
      rcases h with hOne | hNone
      · obtain ⟨row, rfl⟩ := List.length_eq_one_iff.mp
          (Nat.le_antisymm hOne (List.length_pos_of_ne_nil hRows))
        show [k.value []] = [k.value row]
        rw [k.scalar hScalar row]
      · rw [hNone k hk] at hScalar
        cases hScalar
  have hLength : ∀ k ∈ keys, (SortKey.column k rows).values.length = rows.length := by
    intro k hk
    rw [hColumn k hk, List.length_map]
  have hNum : ((keys.map fun k => SortKey.column k rows).head?.map fun a => a.values.length).getD 0 =
      rows.length := by
    obtain ⟨k, ks, rfl⟩ := List.exists_cons_of_ne_nil hKeys
    exact hLength k List.mem_cons_self
  have hAll : ((keys.map fun k => SortKey.column k rows).all fun a =>
      a.values.length == rows.length) = true := by
    rw [List.all_eq_true]
    intro a ha
    obtain ⟨k, hk, rfl⟩ := List.mem_map.mp ha
    rw [beq_iff_eq]
    exact hLength k hk
  rw [RowConverter.convertColumns, if_pos (supports_all keys rows)]
  simp only [hNum, hAll, if_true]
  congr 1
  apply List.ext_getElem (by simp)
  intro i hi hi'
  have hi'' : i < rows.length := by simpa using hi
  rw [List.getElem_map, List.getElem_range, List.getElem_map, List.filterMap_map, sortKeyOf,
    ← List.filterMap_eq_map]
  refine List.filterMap_congr fun k hk => ?_
  show (SortKey.column k rows).values[i]? = some (k.value rows[i])
  rw [hColumn k hk, List.getElem?_map, List.getElem?_eq_getElem hi'']
  rfl

/-- With a scalar key and more rows, either there is one row of keys, or none at all. -/
theorem convertColumns_scalar (rows : List (List Val)) {k : SortKey arrow schema} (hk : k ∈ keys) (hScalar : k.isScalar = true) :
    (∃ e, arrow.convertColumns (keys.map fun k => SortKey.column k rows) = .error e) ∨
      ∃ row, arrow.convertColumns (keys.map fun k => SortKey.column k rows) = .ok [row] := by
  rw [RowConverter.convertColumns, if_pos (supports_all keys rows)]
  dsimp only
  split
  · right
    rename_i hAll
    rw [List.all_eq_true] at hAll
    have hNum := beq_iff_eq.mp (hAll _ (List.mem_map_of_mem hk))
    have hOne : (SortKey.column k rows).values.length = 1 := by simp [SortKey.column, hScalar]
    rw [← hNum, hOne]
    exact ⟨_, rfl⟩
  · exact .inl ⟨_, rfl⟩

-- ----
-- The sorted rows
-- ----

theorem mem_zipIdx_swap {keyRows : List (List Val)} {p : Nat × List Val}
    (h : p ∈ keyRows.zipIdx.map fun p => (p.2, p.1)) : keyRows[p.1]? = some p.2 := by
  obtain ⟨q, hq, rfl⟩ := List.mem_map.mp h
  exact List.mem_zipIdx_iff_getElem?.mp hq

theorem sortedIndices_perm (arrow : RowConverter E Ty Val)
    (unstable : UnstableSort (Nat × List Val)) (specs : List (SortSpec E Ty Val)) (keyRows : List (List Val)) :
    (sortedIndices arrow unstable specs keyRows).Perm (List.range keyRows.length) := by
  have hPerm := (unstable.perm (fun p q => arrow.rowLe (specs.map SortSpec.options) p.2 q.2)
    (keyRows.zipIdx.map fun p => (p.2, p.1))).map Prod.fst
  have hRange : (keyRows.zipIdx.map fun p => (p.2, p.1)).map Prod.fst = List.range keyRows.length := by
    rw [List.map_map]
    show keyRows.zipIdx.map Prod.snd = _
    rw [List.zipIdx_map_snd, List.range_eq_range']
  rw [hRange] at hPerm
  exact hPerm

/-- The sorted indices list every row once, in the order of the keys. -/
theorem sorted_rows (unstable : UnstableSort (Nat × List Val)) (keys : List (SortKey arrow schema))
    (rows : List (List Val)) :
    ((sortedIndices arrow unstable (sortSpecs keys) (rows.map (sortKeyOf keys))).filterMap fun i =>
      rows[i]?).Perm rows ∧
    SortedBy keys ((sortedIndices arrow unstable (sortSpecs keys)
      (rows.map (sortKeyOf keys))).filterMap fun i => rows[i]?) := by
  constructor
  · have hPerm := (sortedIndices_perm arrow unstable (sortSpecs keys)
      (rows.map (sortKeyOf keys))).filterMap fun i => rows[i]?
    rwa [List.length_map, filterMap_range_getElem?] at hPerm
  · rw [SortedBy, sortedIndices, List.filterMap_map, List.pairwise_filterMap]
    have hWidth : ∀ p ∈ (rows.map (sortKeyOf keys)).zipIdx.map fun p => (p.2, p.1),
        p.2.length = ((sortSpecs keys).map SortSpec.options).length := by
      intro p hp
      have hAt := mem_zipIdx_swap hp
      rw [List.getElem?_map] at hAt
      obtain ⟨row, -, hRow⟩ := Option.map_eq_some_iff.mp hAt
      rw [← hRow, sortKeyOf, List.length_map, List.length_map, sortSpecs, List.length_map]
    have hSorted := unstable.sorted
      (fun p q => arrow.rowLe ((sortSpecs keys).map SortSpec.options) p.2 q.2)
      ((rows.map (sortKeyOf keys)).zipIdx.map fun p => (p.2, p.1))
      (fun p _ q _ => arrow.rowLe_total _ p.2 q.2)
      (fun p hp q hq r hr => arrow.rowLe_trans _ (hWidth p hp) (hWidth q hq) (hWidth r hr))
    refine hSorted.imp_of_mem fun {p q} hp hq hpq row hRow row' hRow' => ?_
    -- a place has the key of its row
    have hKey : ∀ p ∈ (rows.map (sortKeyOf keys)).zipIdx.map fun p => (p.2, p.1), ∀ row,
        rows[p.1]? = some row → p.2 = sortKeyOf keys row := by
      intro p hp row hRow
      have hAt := mem_zipIdx_swap hp
      rw [List.getElem?_map, hRow] at hAt
      exact (Option.some.inj hAt).symm
    have hp' := ((unstable.perm _ _).mem_iff).mp hp
    have hq' := ((unstable.perm _ _).mem_iff).mp hq
    rw [← hKey p hp' row hRow, ← hKey q hq' row' hRow']
    exact hpq

/-- The slices of a chunk are there, and hold its rows in order. -/
theorem slices_from {c : DataChunk Ty Val} (hc : c.Aligned) {size : Nat} (n o : Nat)
    (h : n = 0 ∨ o + (n - 1) * size < c.len) :
    ∃ out : List (DataChunk Ty Val),
      (List.range' o n size).map (fun offset =>
        slice (E := E) c offset (min size (c.len - offset))) = out.map .ok ∧
      flaggedOf out = (c.flagged.drop o).take (n * size) := by
  induction n generalizing o with
  | zero => exact ⟨[], rfl, by simp [flaggedOf]⟩
  | succ n ih =>
    have hFirst : o < c.len := by
      rcases h with h | h
      · cases h
      · exact Nat.lt_of_le_of_lt (Nat.le_add_right o _) h
    obtain ⟨s, hs⟩ := slice_eq_ok (E := E) (c := c) (o := o) (l := min size (c.len - o)) (by omega)
    have hNext : n = 0 ∨ o + size + (n - 1) * size < c.len := by
      rcases h with h | h
      · cases h
      · cases n with
        | zero => exact .inl rfl
        | succ m =>
          right
          have hMul : (m + 1 + 1 - 1) * size = (m + 1 - 1) * size + size := by
            rw [Nat.add_sub_cancel, Nat.add_sub_cancel, Nat.succ_mul]
          omega
    obtain ⟨out, hOut, hFlagged⟩ := ih (o + size) hNext
    refine ⟨s :: out, by rw [List.range'_succ, List.map_cons, hs, hOut, List.map_cons], ?_⟩
    have hTake : (c.flagged.drop o).take (min size (c.len - o)) = (c.flagged.drop o).take size := by
      rw [List.take_eq_take_iff, List.length_drop, DataChunk.length_flagged]
      omega
    rw [flaggedOf_cons, flagged_slice hc hs, hFlagged, hTake, Nat.succ_mul, Nat.add_comm (n * size),
      List.take_add, List.drop_drop]

theorem slices_ok {c : DataChunk Ty Val} (hc : c.Aligned) {size : Nat} (hSize : 0 < size) :
    ∃ out : List (DataChunk Ty Val), slices (E := E) size c = out.map .ok ∧ rowsOf out = c.rows := by
  have hCount : (c.len + size - 1) / size = 0 ∨
      0 + ((c.len + size - 1) / size - 1) * size < c.len := by
    rcases Nat.eq_zero_or_pos ((c.len + size - 1) / size) with hZero | hPos
    · exact .inl hZero
    · right
      have hMul := Nat.div_mul_le_self (c.len + size - 1) size
      have hSub : ((c.len + size - 1) / size - 1) * size + size = (c.len + size - 1) / size * size := by
        rw [← Nat.succ_mul]
        congr 1
        omega
      omega
  obtain ⟨out, hOut, hFlagged⟩ := slices_from (E := E) hc ((c.len + size - 1) / size) 0 hCount
  refine ⟨out, hOut, ?_⟩
  have hEnough : c.len ≤ (c.len + size - 1) / size * size := by
    have hLt := Nat.lt_div_mul_add hSize (a := c.len + size - 1)
    omega
  rw [rowsOf_eq_filter, hFlagged, List.drop_zero, List.take_of_length_le (by simpa using hEnough),
    ← c.rows_eq_filter]

-- ----
-- The executor
-- ----

variable [DecidableEq Ty] {cs : List (DataChunk Ty Val)}

/-- What is asked of sorting: an error of the child comes through; without one the chunks that come
out hold the logical rows of the child in the order of the keys. -/
def SortsRows (unstable : UnstableSort (Nat × List Val)) (keys : List (SortKey arrow schema))
    (maxChunkSize : Nat) (cs : List (DataChunk Ty Val)) (failure : Option E) : Prop :=
  match failure with
  | some e =>
    sort arrow unstable (sortSpecs keys) maxChunkSize (endingIn cs (some e)) = [.error (.error e)]
  | none =>
    ∃ out, sort arrow unstable (sortSpecs keys) maxChunkSize (endingIn cs none) = out.map .ok ∧
      (rowsOf out).Perm (rowsOf cs) ∧ SortedBy keys (rowsOf out)

theorem tryCollect_endingIn (hcs : OfSchema schema cs) (hSome : cs ≠ []) (failure : Option E) :
    tryCollect (endingIn cs failure) =
      match failure with
      | some e => .error (.error e)
      | none => .ok (tableOf schema (rowsOf cs)) := by
  rw [tryCollect, chunksBefore_endingIn, firstError_endingIn, concat_ok hcs hSome]
  cases failure <;> rfl

/-- An empty stream, or one that starts with an error, makes `concat` panic. -/
theorem sort_of_no_chunk {maxChunkSize : Nat} (failure : Option E) (hKeys : keys ≠ [])
    (hSize : 0 < maxChunkSize) :
    sort arrow unstable (sortSpecs keys) maxChunkSize (endingIn [] failure) = [.error .panicked] := by
  have hSpecs : ¬(sortSpecs keys = [] ∨ maxChunkSize = 0) := by
    rw [sortSpecs, List.map_eq_nil_iff]
    rintro (h | h)
    · exact hKeys h
    · omega
  rw [sort, if_neg hSpecs, sortChunk, tryCollect, chunksBefore_endingIn]
  rfl

/-- **Sorting** yields the logical rows in order, and the error of its child, exactly where the
first item of the child is a chunk, and, unless an error follows, there is at most one row or no
key is a scalar. -/
theorem sort_iff {maxChunkSize : Nat} (hKeys : keys ≠ []) (hSize : 0 < maxChunkSize)
    (hcs : OfSchema schema cs) (failure : Option E) :
    SortsRows unstable keys maxChunkSize cs failure ↔
      cs ≠ [] ∧ (failure = none → (rowsOf cs).length ≤ 1 ∨ ∀ k ∈ keys, k.isScalar = false) := by
  have hSpecs : ¬(sortSpecs keys = [] ∨ maxChunkSize = 0) := by
    rw [sortSpecs, List.map_eq_nil_iff]
    rintro (h | h)
    · exact hKeys h
    · omega
  -- without a chunk there is no schema, and the executor panics
  by_cases hNil : cs = []
  · subst hNil
    refine ⟨fun h => ?_, fun h => absurd rfl h.1⟩
    cases failure with
    | some e =>
      rw [SortsRows, sort_of_no_chunk _ hKeys hSize] at h
      cases h
    | none =>
      obtain ⟨out, hOut, -⟩ := h
      rw [sort_of_no_chunk _ hKeys hSize] at hOut
      cases out <;> cases hOut
  have hCollect := tryCollect_endingIn hcs hNil failure
  cases failure with
  | some e =>
    refine ⟨fun _ => ⟨hNil, fun h => by cases h⟩, fun _ => ?_⟩
    rw [SortsRows, sort, if_neg hSpecs, sortChunk, hCollect]
    rfl
  | none =>
    have hSchema := hcs.ne_nil hNil
    have hFits := hcs.fits
    simp only [ne_eq, hNil, not_false_eq_true, true_and, forall_const]
    rw [SortsRows, sort, if_neg hSpecs, sortChunk, hCollect]
    simp only [ok_bind, len_tableOf hSchema hFits]
    by_cases hEmpty : rowsOf cs = []
    · -- nothing to sort
      simp only [hEmpty, List.length_nil, if_true]
      refine ⟨fun _ => .inl (by omega), fun _ => ⟨[], rfl, List.Perm.refl _, List.Pairwise.nil⟩⟩
    · have hLen : ¬(rowsOf cs).length = 0 := fun h => hEmpty (List.eq_nil_of_length_eq_zero h)
      rw [if_neg hLen, keyColumns_ok keys hFits, ok_bind]
      by_cases hCondition : (rowsOf cs).length ≤ 1 ∨ ∀ k ∈ keys, k.isScalar = false
      · refine ⟨fun _ => hCondition, fun _ => ?_⟩
        rw [convertColumns_ok hKeys hEmpty hCondition, ok_bind]
        obtain ⟨hPerm, hSorted⟩ := sorted_rows unstable keys (rowsOf cs)
        have hBounds : ∀ i ∈ sortedIndices arrow unstable (sortSpecs keys)
            ((rowsOf cs).map (sortKeyOf keys)), i < (rowsOf cs).length := by
          intro i hi
          have hRange := (sortedIndices_perm _ _ _ _).mem_iff.mp hi
          simpa using hRange
        have hFits' : RowsFit schema ((sortedIndices arrow unstable (sortSpecs keys)
            ((rowsOf cs).map (sortKeyOf keys))).filterMap fun i => (rowsOf cs)[i]?) :=
          fun row hRow => hFits row (hPerm.mem_iff.mp hRow)
        rw [take_tableOf hSchema hFits hBounds]
        obtain ⟨out, hOut, hRows⟩ := slices_ok (E := E) (aligned_tableOf hSchema hFits') hSize
        rw [rows_tableOf hSchema hFits'] at hRows
        exact ⟨out, hOut, hRows ▸ hPerm, hRows ▸ hSorted⟩
      · refine ⟨fun h => ?_, fun h => absurd h hCondition⟩
        rw [not_or] at hCondition
        -- a scalar key makes one row of keys, so that one row at most comes out of two or more
        have hScalar : ∃ k ∈ keys, k.isScalar = true := by
          by_contra hNone
          refine hCondition.2 fun k hk => ?_
          rw [Bool.eq_false_iff]
          exact fun hTrue => hNone ⟨k, hk, hTrue⟩
        obtain ⟨k, hk, hScalar⟩ := hScalar
        obtain ⟨out, hOut, hPerm, -⟩ := h
        rcases convertColumns_scalar (rowsOf cs) hk hScalar with ⟨e, hError⟩ | ⟨row, hOne⟩
        · rw [hError] at hOut
          cases out <;> cases hOut
        · -- one row of keys gives one row
          rw [hOne, ok_bind] at hOut
          have hIndices := sortedIndices_perm arrow unstable (sortSpecs keys) [row]
          have hBounds : ∀ i ∈ sortedIndices arrow unstable (sortSpecs keys) [row],
              i < (rowsOf cs).length := by
            intro i hi
            have hRange := hIndices.mem_iff.mp hi
            simp only [List.length_singleton, List.mem_range] at hRange
            omega
          have hLength : (sortedIndices arrow unstable (sortSpecs keys) [row]).length = 1 := by
            rw [hIndices.length_eq]
            rfl
          rw [take_tableOf hSchema hFits hBounds] at hOut
          have hFits' : RowsFit schema ((sortedIndices arrow unstable (sortSpecs keys)
              [row]).filterMap fun i => (rowsOf cs)[i]?) := by
            intro r hr
            obtain ⟨i, -, hi⟩ := List.mem_filterMap.mp hr
            exact hFits r (List.mem_of_getElem? hi)
          obtain ⟨out', hOut', hRows⟩ := slices_ok (E := E) (aligned_tableOf hSchema hFits') hSize
          have hSame : out = out' :=
            List.map_injective_iff.mpr (fun a b h => Except.ok.inj h) (hOut.symm.trans hOut')
          have hCount := hPerm.length_eq
          rw [hSame, hRows, rows_tableOf hSchema hFits'] at hCount
          have hAtMost := List.length_filterMap_le (fun i => (rowsOf cs)[i]?)
            (sortedIndices arrow unstable (sortSpecs keys) [row])
          omega

-- ----
-- A column of numbers
-- ----

/-- Merge sort is one of the sorts. -/
def mergeSorting (α : Type) : UnstableSort α where
  sort le l := (l.attach.mergeSort fun a b => le a.1 b.1).map Subtype.val
  perm le l := by
    have hPerm := (List.mergeSort_perm l.attach fun a b => le a.1 b.1).map Subtype.val
    rwa [List.attach_map_subtype_val] at hPerm
  sorted le l hTotal hTrans := by
    rw [List.pairwise_map]
    refine List.pairwise_mergeSort (fun a b c => hTrans a.1 a.2 b.1 b.2 c.1 c.2) (fun a b => ?_) _
    rw [Bool.or_eq_true]
    exact hTotal a.1 a.2 b.1 b.2

/-- Numbers and nulls, as the arrow library compares them. -/
def numberConverter : RowConverter Unit Unit (Option Nat) where
  isNull v := v.isNone
  le a b := a.getD 0 ≤ b.getD 0
  total a b := by simpa using Nat.le_total _ _
  trans a b c hab hbc := by
    simp only [decide_eq_true_eq] at hab hbc ⊢
    omega
  supports _ := true
  unsupported := ()
  lengthMismatch := ()

/-- The first column of a table of one column, in ascending order. -/
def firstColumn : SortKey numberConverter [()] where
  key := columnRef 0
  sortOrdering := .ascending
  nullOrdering := .last
  ty := ()
  value row := row.headD none
  isScalar := false
  scalar h := by cases h
  evaluates rows hFits := by
    have hValues : (rows.filterMap fun row => row[0]?) = rows.map fun row => row.headD none := by
      rw [← List.filterMap_eq_map]
      refine List.filterMap_congr fun row hRow => ?_
      obtain ⟨v, rfl⟩ := List.length_eq_one_iff.mp (hFits row hRow)
      rfl
    simp [columnRef, tableOf, DataChunk.new, columnsOf, hValues]
  supported := rfl

def numbers (ns : List (Option Nat)) (filter : List Bool) : DataChunk Unit (Option Nat) :=
  ⟨[⟨(), ns⟩], some filter, some 0⟩

/-- Two chunks with a null and a filter; and a stream that fails after its first chunk. -/
theorem numbers_sorted :
    SortsRows (mergeSorting _) [firstColumn] 1
      [numbers [some 3, none] [true, true], numbers [some 2, some 1] [false, true]] none ∧
    SortsRows (mergeSorting _) [firstColumn] 1 [numbers [some 3, none] [true, true]] (some ()) := by
  have hAligned : ∀ a b f g, (numbers [a, b] [f, g]).Aligned := fun a b f g =>
    ⟨by simp [numbers], by simp [numbers, DataChunk.len], by simp [numbers, DataChunk.len]⟩
  have hTwo : OfSchema [()]
      [numbers [some 3, none] [true, true], numbers [some 2, some 1] [false, true]] := by
    constructor
    all_goals
      intro c hc
      simp only [List.mem_cons, List.not_mem_nil, or_false] at hc
      rcases hc with rfl | rfl
    all_goals first
      | exact hAligned ..
      | rfl
  have hOne : OfSchema [()] [numbers [some 3, none] [true, true]] := by
    constructor
    all_goals
      intro c hc
      rw [List.mem_singleton] at hc
      subst hc
    · exact hAligned ..
    · rfl
  refine ⟨(sort_iff (by simp) (by omega) hTwo none).mpr ⟨by simp, fun _ => .inr ?_⟩,
    (sort_iff (by simp) (by omega) hOne (some ())).mpr ⟨by simp, fun h => by cases h⟩⟩
  intro k hk
  rw [List.mem_singleton] at hk
  subst hk
  rfl

/-- Without a chunk, and where the child fails at once, the executor panics. -/
theorem no_chunk_not_sorted :
    ¬SortsRows (mergeSorting _) [firstColumn] 1 [] none ∧
    ¬SortsRows (mergeSorting _) [firstColumn] 1 [] (some ()) ∧
    sort numberConverter (mergeSorting _) (sortSpecs [firstColumn]) 1 (endingIn [] (some ())) =
      [.error .panicked] := by
  have hPanic : ∀ failure, sort numberConverter (mergeSorting _) (sortSpecs [firstColumn]) 1
      (endingIn [] failure) = [.error .panicked] := fun failure =>
    sort_of_no_chunk failure (by simp) (by omega)
  refine ⟨?_, ?_, hPanic _⟩
  · rintro ⟨out, hOut, -⟩
    rw [hPanic] at hOut
    cases out <;> cases hOut
  · intro h
    rw [SortsRows, hPanic] at h
    cases h

end StreamExecutor

end MiniGU
