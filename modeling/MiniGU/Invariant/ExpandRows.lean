import MiniGU.Invariant.RowTables
import MiniGU.Model.Expand

/-!
# The rows of expanded and flattened chunks

A batch of neighbours that is appended to a row as lists, and then flattened, gives the row next to
each row of the batch (`rows_flattenChunk`).
-/

namespace MiniGU

section Lists

variable {α β : Type}

/-- Looking a key up in a mapped list, by its place among the keys. -/
theorem idxOf?_bind_map [DecidableEq α] (g : α → β) (l : List α) (a : α) :
    ((l.idxOf? a).bind fun j => (l.map g)[j]?) = if a ∈ l then some (g a) else none := by
  induction l with
  | nil => rfl
  | cons b l ih =>
    rw [List.idxOf?_cons]
    by_cases h : b = a
    · subst h
      simp
    · have hNe : ¬a = b := fun hab => h hab.symm
      simp only [beq_eq_false_iff_ne.mpr h, Bool.false_eq_true, if_false, Option.bind_map,
        List.mem_cons, hNe, false_or]
      exact ih

theorem flatMap_zipIdx_singleton (count : Nat) :
    ([count].zipIdx.flatMap fun (n, i) => List.replicate n i) = List.replicate count 0 := by
  simp

end Lists

namespace StreamExecutor

variable {E Ty Val : Type} {arrow : ListArrays E Ty Val} {schema : List Ty}
  {rows : List (List Val)} {row : List Val}

theorem slice_tableOf (hSchema : schema ≠ []) (hFits : RowsFit schema rows) {i : Nat}
    (hi : i < rows.length) :
    slice (E := E) (tableOf schema rows) i 1 = .ok (tableOf schema [rows[i]]) := by
  rw [slice, if_pos (by rw [len_tableOf hSchema hFits]; omega)]
  congr 1
  simp only [tableOf, DataChunk.new, columnsOf, List.map_map, Option.map_none, DataChunk.mk.injEq,
    and_true]
  refine List.map_congr_left fun p hp => ?_
  have hj : p.2 < schema.length := by simpa using (List.mem_zipIdx hp).2.1
  have hCell : ∀ row ∈ rows, (row[p.2]?).isSome = true := by
    intro row hRow
    rw [List.getElem?_eq_getElem (by rw [hFits row hRow]; exact hj)]
    rfl
  simp only [Function.comp_apply, ArrayRef.mk.injEq, true_and]
  apply List.ext_getElem?
  intro n
  rw [List.getElem?_take, List.getElem?_drop, getElem?_filterMap hCell,
    getElem?_filterMap fun row hRow => hCell row (by
      rw [List.mem_singleton.mp hRow]
      exact List.getElem_mem hi)]
  cases n with
  | zero => simp [hi]
  | succ n => simp

/-! ## Batches -/

/-- The rows of a batch of neighbours. -/
def batchRows (columns : List (ArrayRef Ty Val)) : List (List Val) := (DataChunk.new columns).rows

/-- The batch has a number of columns without nulls, as long as each other. -/
structure IsBatch (arrow : ListArrays E Ty Val) (width : Nat) (columns : List (ArrayRef Ty Val)) :
    Prop where
  width : columns.length = width
  lengths : ∀ a ∈ columns, a.values.length = (DataChunk.new columns).len
  bounded : (DataChunk.new columns).len < 2 ^ 31
  noNulls : ∀ a ∈ columns, ∀ v ∈ a.values, arrow.isNull v = false

/-- The columns of lists that the columns of a batch become. -/
def listed (arrow : ListArrays E Ty Val) (a : ArrayRef Ty Val) : ArrayRef Ty Val :=
  ⟨arrow.listType a.dataType, [arrow.list a.values]⟩

section Batch

variable {width : Nat} {columns : List (ArrayRef Ty Val)} (hBatch : IsBatch arrow width columns)

include hBatch

theorem listColumns_ok : columns.mapM (listColumn arrow) = .ok (columns.map (listed arrow)) := by
  refine mapM_eq_ok fun a ha => ?_
  have hBound := hBatch.bounded
  rw [← hBatch.lengths a ha] at hBound
  have hNulls : a.values.any arrow.isNull = false := by
    rw [List.any_eq_false]
    intro v hv
    rw [hBatch.noNulls a ha v hv]
    exact Bool.false_ne_true
  rw [listColumn, if_neg (by omega), hNulls]
  rfl

/-- A row, with the columns of a batch as lists. -/
def listedRow (arrow : ListArrays E Ty Val) (schema : List Ty) (row : List Val)
    (columns : List (ArrayRef Ty Val)) : DataChunk Ty Val :=
  DataChunk.new (columnsOf schema [row] ++ columns.map (listed arrow))

omit hBatch in
theorem len_listedRow (arrow : ListArrays E Ty Val) (columns : List (ArrayRef Ty Val))
    (hSchema : schema ≠ []) (hRow : row.length = schema.length) :
    (listedRow arrow schema row columns).len = 1 := by
  obtain ⟨ty, tys, rfl⟩ := List.exists_cons_of_ne_nil hSchema
  obtain ⟨v, vs, rfl⟩ := List.exists_cons_of_length_eq_add_one hRow
  simp [listedRow, DataChunk.len, DataChunk.new, columnsOf]

omit hBatch in
theorem appendColumns_ok (hSchema : schema ≠ []) (hRow : row.length = schema.length) :
    appendColumns (E := E) (tableOf schema [row]) (columns.map (listed arrow)) =
      .ok (listedRow arrow schema row columns) := by
  have hFits : RowsFit schema [row] := fun r hr => by rw [List.mem_singleton.mp hr, hRow]
  rw [appendColumns]
  show (if _ then Except.ok (listedRow arrow schema row columns) else _) = _
  rw [if_pos]
  rw [List.all_eq_true]
  intro a ha
  rw [beq_iff_eq]
  show a.values.length = (listedRow arrow schema row columns).len
  rw [len_listedRow arrow columns hSchema hRow]
  rcases List.mem_append.mp ha with ha | ha
  · have hLength := (aligned_tableOf hSchema hFits).lengths a ha
    rwa [len_tableOf hSchema hFits] at hLength
  · obtain ⟨b, hb, rfl⟩ := List.mem_map.mp ha
    rfl

/-! ## Flattening one row -/

variable {columnIndices : List Nat}

/-- Flattening the columns of the batch gives back the batch, next to the repeated row. -/
theorem flattenChunk_listedRow (hWidth : width ≠ 0) (hRow : row.length = schema.length)
    (hSchema : schema ≠ []) (hIndices : columnIndices.Perm (List.range' schema.length width)) :
    flattenChunk arrow columnIndices (listedRow arrow schema row columns) =
      .ok (DataChunk.new (columnsOf schema
        (List.replicate (DataChunk.new columns).len row) ++ columns)) := by
  obtain ⟨first, rest, hColumns⟩ := List.exists_cons_of_ne_nil (l := columns) (by
    intro hNil
    exact hWidth (by rw [← hBatch.width, hNil]; rfl))
  have hIn : ∀ i ∈ columnIndices, schema.length ≤ i ∧ i < schema.length + width := by
    intro i hi
    have hRange := hIndices.mem_iff.mp hi
    rwa [List.mem_range'_1] at hRange
  -- the column that is flattened at a place
  let column : Nat → ArrayRef Ty Val := fun i => (columns[i - schema.length]?).getD first
  have hColumn : ∀ i ∈ columnIndices, columns[i - schema.length]? = some (column i) := by
    intro i hi
    have hLt : i - schema.length < columns.length := by
      have hBounds := hIn i hi
      rw [hBatch.width]
      omega
    simp only [column, List.getElem?_eq_getElem hLt, Option.getD_some]
  have hMem : ∀ i ∈ columnIndices, column i ∈ columns := fun i hi =>
    List.mem_of_getElem? (hColumn i hi)
  have hFound : (columnIndices.mapM fun i => (listedRow arrow schema row columns).columns[i]?) =
      some (columnIndices.map fun i => listed arrow (column i)) := by
    refine mapM_eq_some fun i hi => ?_
    rw [listedRow, DataChunk.new, List.getElem?_append_right (by
      rw [length_columnsOf]
      exact (hIn i hi).1), length_columnsOf, List.getElem?_map, hColumn i hi]
    rfl
  have hLists : (columnIndices.map fun i => listed arrow (column i)).mapM (asList arrow) =
      some (columnIndices.map fun i => ((column i).dataType, [(column i).values])) := by
    rw [List.mapM_map]
    refine mapM_eq_some fun i hi => ?_
    show asList arrow (listed arrow (column i)) = _
    simp only [asList, listed, arrow.itemType_listType, Option.map_some, List.map_cons,
      List.map_nil, arrow.items_list]
  have hFirst : columnIndices ≠ [] := by
    intro hNil
    have hLength := hIndices.length_eq
    rw [hNil, List.length_range'] at hLength
    exact hWidth hLength.symm
  have hCounts : ((((columnIndices.map fun i =>
      ((column i).dataType, [(column i).values])).head?.map Prod.snd).getD []).map List.length) =
      [(DataChunk.new columns).len] := by
    obtain ⟨i, is, hCons⟩ := List.exists_cons_of_ne_nil hFirst
    have hLength := hBatch.lengths _ (hMem i (by rw [hCons]; exact List.mem_cons_self))
    rw [hCons]
    simp [hLength]
  have hNoNulls : ((columnIndices.map fun i => listed arrow (column i)).any fun c =>
      c.values.any arrow.isNull) = false := by
    rw [List.any_eq_false]
    intro a ha
    obtain ⟨i, -, rfl⟩ := List.mem_map.mp ha
    simp [listed, arrow.list_not_null]
  have hSame : ((columnIndices.map fun i => ((column i).dataType, [(column i).values])).all fun c =>
      c.2.map List.length == [(DataChunk.new columns).len]) = true := by
    rw [List.all_eq_true]
    intro p hp
    obtain ⟨i, hi, rfl⟩ := List.mem_map.mp hp
    simp [hBatch.lengths _ (hMem i hi)]
  have hLen := len_listedRow arrow columns hSchema hRow
  have hCompact : (listedRow arrow schema row columns).compact = listedRow arrow schema row columns :=
    rfl
  simp only [flattenChunk, hCompact, hFound, hLists, hCounts, hNoNulls, hSame, hLen, and_self,
    if_true, Nat.one_ne_zero, if_false]
  congr 2
  have hPick : ∀ i, ((columnIndices.idxOf? i).bind fun j => (columnIndices.map fun i =>
      ((column i).dataType, [(column i).values]))[j]?) = if i ∈ columnIndices then
        some ((column i).dataType, [(column i).values]) else none := fun i =>
    idxOf?_bind_map _ columnIndices i
  have hWidthOf := hBatch.width
  generalize (DataChunk.new columns).len = count
  rw [flatMap_zipIdx_singleton]
  simp only [hPick, listedRow, DataChunk.new, List.zipIdx_append, List.map_append]
  congr 1
  · -- the columns of the row are repeated
    apply List.ext_getElem (by simp)
    intro i hi hi'
    have hLt : i < schema.length := by simpa using hi'
    have hOut : i ∉ columnIndices := fun h => by
      have hBounds := hIn i h
      omega
    have hValue : i < row.length := by omega
    simp [columnsOf, hOut, hValue, List.filterMap_replicate]
  · -- the lists are laid out
    apply List.ext_getElem (by simp)
    intro i hi hi'
    have hHere : schema.length + i ∈ columnIndices := by
      rw [hIndices.mem_iff, List.mem_range'_1]
      omega
    have hColumnHere := hColumn _ hHere
    rw [Nat.add_sub_cancel_left, List.getElem?_eq_getElem hi'] at hColumnHere
    simp [hHere, ← Option.some.inj hColumnHere]

omit hBatch in
theorem rows_repeated (hSchema : schema ≠ []) (hRow : row.length = schema.length) :
    (DataChunk.new (columnsOf schema (List.replicate (DataChunk.new columns).len row) ++
      columns)).rows = (batchRows columns).map fun neighbour => row ++ neighbour := by
  generalize hCount : (DataChunk.new columns).len = count
  have hFits : RowsFit schema (List.replicate count row) := fun r hr => by
    rw [List.eq_of_mem_replicate hr, hRow]
  have hTable := len_tableOf hSchema hFits
  have hLen : (DataChunk.new (columnsOf schema (List.replicate count row) ++ columns)).len =
      count := by
    obtain ⟨ty, tys, rfl⟩ := List.exists_cons_of_ne_nil hSchema
    rw [List.length_replicate] at hTable
    exact hTable
  have hRows : ∀ cs : List (ArrayRef Ty Val), (DataChunk.new cs).rows =
      (List.range (DataChunk.new cs).len).map (DataChunk.new cs).rowAt := fun _ => rfl
  rw [batchRows, hRows, hRows, hLen, hCount, List.map_map]
  refine List.map_congr_left fun i hi => ?_
  have hLt : i < (List.replicate count row).length := by simpa using hi
  have hRowAt := rowAt_tableOf hFits hLt
  rw [List.getElem_replicate] at hRowAt
  have hSplit : (DataChunk.new (columnsOf schema (List.replicate count row) ++ columns)).rowAt i =
      (tableOf schema (List.replicate count row)).rowAt i ++ (DataChunk.new columns).rowAt i :=
    List.filterMap_append
  rw [hSplit, hRowAt]
  rfl

end Batch

end StreamExecutor

end MiniGU
