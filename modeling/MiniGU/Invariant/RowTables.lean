import MiniGU.Lib.Collect
import MiniGU.Invariant.ChunkRows

/-!
# Chunks as tables of rows

Over a schema, a chunk without a filter is determined by its rows (`tableOf`). Compacting a chunk
gives the table of its logical rows, and so `concat` gives the table of the logical rows of all
chunks (`concat_ok`), `take` and `slice` tables of some of the rows.
-/

namespace MiniGU

section Lists

variable {α β : Type}

theorem map_some_filterMap {f : α → Option β} {l : List α}
    (h : ∀ a ∈ l, (f a).isSome = true) : (l.filterMap f).map some = l.map f := by
  induction l with
  | nil => rfl
  | cons a l ih =>
    obtain ⟨b, hb⟩ := Option.isSome_iff_exists.mp (h a List.mem_cons_self)
    rw [List.filterMap_cons, hb, List.map_cons, List.map_cons, hb,
      ih fun a' ha' => h a' (List.mem_cons_of_mem a ha')]

theorem getElem?_filterMap {f : α → Option β} {l : List α}
    (h : ∀ a ∈ l, (f a).isSome = true) (i : Nat) : (l.filterMap f)[i]? = l[i]?.bind f := by
  have hMap := congrArg (fun m => m[i]?) (map_some_filterMap h)
  simp only [List.getElem?_map] at hMap
  cases hl : l[i]? with
  | none =>
    rw [hl] at hMap
    simpa using hMap
  | some a =>
    rw [hl] at hMap
    cases hf : (l.filterMap f)[i]? with
    | none =>
      rw [hf] at hMap
      cases hMap
    | some b =>
      rw [hf] at hMap
      exact Option.some.inj hMap

theorem length_filterMap {f : α → Option β} {l : List α} (h : ∀ a ∈ l, (f a).isSome = true) :
    (l.filterMap f).length = l.length := by
  have hMap := congrArg List.length (map_some_filterMap h)
  rwa [List.length_map, List.length_map] at hMap

theorem filterMap_range_getElem? (l : List α) :
    ((List.range l.length).filterMap fun i => l[i]?) = l := by
  have hSome : ∀ i ∈ List.range l.length, (l[i]?).isSome = true := by
    intro i hi
    rw [List.getElem?_eq_getElem (List.mem_range.mp hi)]
    rfl
  apply List.ext_getElem?
  intro i
  rw [getElem?_filterMap hSome]
  by_cases hi : i < l.length
  · rw [List.getElem?_range hi]
    rfl
  · rw [List.getElem?_eq_none (by simpa using hi), List.getElem?_eq_none (by omega)]
    rfl

end Lists

section Tables

variable {E Ty Val : Type} {schema : List Ty} {rows : List (List Val)}

/-! ## Tables -/

/-- The columns of the types of the schema with the rows. -/
def columnsOf (schema : List Ty) (rows : List (List Val)) : List (ArrayRef Ty Val) :=
  schema.zipIdx.map fun (ty, j) => ⟨ty, rows.filterMap fun row => row[j]?⟩

def tableOf (schema : List Ty) (rows : List (List Val)) : DataChunk Ty Val :=
  DataChunk.new (columnsOf schema rows)

/-- Each row has a value for each column. -/
def RowsFit (schema : List Ty) (rows : List (List Val)) : Prop :=
  ∀ row ∈ rows, row.length = schema.length

/-- The chunks have columns of the types of the schema. -/
structure OfSchema (schema : List Ty) (cs : List (DataChunk Ty Val)) : Prop where
  aligned : ∀ c ∈ cs, c.Aligned
  types : ∀ c ∈ cs, c.columns.map ArrayRef.dataType = schema

theorem types_columnsOf (schema : List Ty) (rows : List (List Val)) :
    (columnsOf schema rows).map ArrayRef.dataType = schema := by
  rw [columnsOf, List.map_map]
  exact List.zipIdx_map_fst 0 schema

@[simp] theorem length_columnsOf (schema : List Ty) (rows : List (List Val)) :
    (columnsOf schema rows).length = schema.length := by
  simp [columnsOf]

theorem getElem?_columnsOf {j : Nat} {ty : Ty} (hj : schema[j]? = some ty) :
    (columnsOf schema rows)[j]? = some ⟨ty, rows.filterMap fun row => row[j]?⟩ := by
  simp [columnsOf, List.getElem?_zipIdx, hj]

theorem length_column_of_fits (hFits : RowsFit schema rows) {j : Nat} (hj : j < schema.length) :
    (rows.filterMap fun row => row[j]?).length = rows.length := by
  apply length_filterMap
  intro row hRow
  rw [List.getElem?_eq_getElem (by rw [hFits row hRow]; exact hj)]
  rfl

theorem rowAt_tableOf (hFits : RowsFit schema rows) {i : Nat} (hi : i < rows.length) :
    (tableOf schema rows).rowAt i = rows[i] := by
  have hRow : rows[i].length = schema.length := hFits _ (List.getElem_mem hi)
  have hValue : ∀ j, j < schema.length →
      (rows.filterMap fun row => row[j]?)[i]? = rows[i][j]? := by
    intro j hj
    rw [getElem?_filterMap, List.getElem?_eq_getElem hi]
    · rfl
    · intro row hIn
      rw [List.getElem?_eq_getElem (by rw [hFits row hIn]; exact hj)]
      rfl
  apply List.ext_getElem?
  intro j
  rw [DataChunk.rowAt, tableOf, DataChunk.new, getElem?_filterMap]
  · by_cases hj : j < schema.length
    · rw [getElem?_columnsOf (List.getElem?_eq_getElem hj), Option.bind_some, hValue j hj]
    · rw [List.getElem?_eq_none (by simpa using hj), List.getElem?_eq_none (by omega)]
      rfl
  · intro a ha
    obtain ⟨p, hp, rfl⟩ := List.mem_map.mp ha
    have hj : p.2 < schema.length := by
      have hLt := (List.mem_zipIdx hp).2.1
      simpa using hLt
    show ((rows.filterMap fun row => row[p.2]?)[i]?).isSome = true
    rw [hValue p.2 hj, List.getElem?_eq_getElem (by omega)]
    rfl

section OfFits

variable (hSchema : schema ≠ []) (hFits : RowsFit schema rows)

include hSchema hFits

theorem len_tableOf : (tableOf schema rows).len = rows.length := by
  obtain ⟨ty, tys, rfl⟩ := List.exists_cons_of_ne_nil hSchema
  have hColumn := length_column_of_fits hFits (j := 0) (by simp)
  simpa [tableOf, DataChunk.len, DataChunk.new, columnsOf] using hColumn

theorem rows_tableOf : (tableOf schema rows).rows = rows := by
  have hRows : (tableOf schema rows).rows =
      (List.range (tableOf schema rows).len).map (tableOf schema rows).rowAt := rfl
  rw [hRows, len_tableOf hSchema hFits]
  apply List.ext_getElem (by simp)
  intro i hi hi'
  rw [List.getElem_map, List.getElem_range, rowAt_tableOf hFits]

theorem aligned_tableOf : (tableOf schema rows).Aligned where
  columns := by
    intro hNil
    have hLength := congrArg List.length hNil
    rw [tableOf, DataChunk.new, length_columnsOf] at hLength
    exact hSchema (List.eq_nil_of_length_eq_zero hLength)
  lengths := by
    intro a ha
    rw [len_tableOf hSchema hFits]
    obtain ⟨p, hp, rfl⟩ := List.mem_map.mp ha
    exact length_column_of_fits hFits (by simpa using (List.mem_zipIdx hp).2.1)
  filter := by
    intro f hf
    cases hf

end OfFits

/-! ## Chunks of a schema -/

section OneChunk

variable {c : DataChunk Ty Val}

theorem DataChunk.Aligned.getElem?_rowAt (hc : c.Aligned) {i : Nat} (hi : i < c.len) (j : Nat) :
    (c.rowAt i)[j]? = (c.columns[j]?).bind fun a => a.values[i]? := by
  refine getElem?_filterMap (fun a ha => ?_) j
  rw [List.getElem?_eq_getElem (by rw [hc.lengths a ha]; exact hi)]
  rfl

theorem DataChunk.Aligned.length_rowAt (hc : c.Aligned) {i : Nat} (hi : i < c.len) :
    (c.rowAt i).length = c.columns.length := by
  refine length_filterMap fun a ha => ?_
  rw [List.getElem?_eq_getElem (by rw [hc.lengths a ha]; exact hi)]
  rfl

theorem lt_of_mem_keptRows {i : Nat} (h : i ∈ c.keptRows) : i < c.len := by
  rw [DataChunk.keptRows_eq] at h
  exact List.mem_range.mp (List.mem_filter.mp h).1

/-- Some rows of a chunk are the columns of a table of these rows. -/
theorem takeRows_eq_columnsOf (hc : c.Aligned) (hTypes : c.columns.map ArrayRef.dataType = schema)
    {is : List Nat} (his : ∀ i ∈ is, i < c.len) :
    c.takeRows is = columnsOf schema (is.map c.rowAt) := by
  subst hTypes
  apply List.ext_getElem?
  intro j
  rw [DataChunk.takeRows, List.getElem?_map]
  cases hj : c.columns[j]? with
  | none =>
    rw [List.getElem?_eq_none (by simpa using List.getElem?_eq_none_iff.mp hj)]
    rfl
  | some a =>
    rw [getElem?_columnsOf (by rw [List.getElem?_map, hj]; rfl), Option.map_some,
      List.filterMap_map]
    congr 2
    refine List.filterMap_congr fun i hi => ?_
    show a.values[i]? = (c.rowAt i)[j]?
    rw [hc.getElem?_rowAt (his i hi), hj]
    rfl

theorem columns_eq_columnsOf (hc : c.Aligned) (hTypes : c.columns.map ArrayRef.dataType = schema)
    (hFilter : c.filter = none) : c.columns = columnsOf schema c.rows := by
  have hKept : c.keptRows = List.range c.len := by simp [DataChunk.keptRows, hFilter]
  have hAll : c.takeRows (List.range c.len) = c.columns := by
    rw [DataChunk.takeRows]
    conv_rhs => rw [← List.map_id c.columns]
    refine List.map_congr_left fun a ha => ?_
    rw [← hc.lengths a ha, filterMap_range_getElem?]
    rfl
  rw [DataChunk.rows, hKept, ← takeRows_eq_columnsOf hc hTypes fun i hi => List.mem_range.mp hi, hAll]

theorem columns_compact (hc : c.Aligned) (hTypes : c.columns.map ArrayRef.dataType = schema) :
    c.compact.columns = columnsOf schema c.rows := by
  unfold DataChunk.compact
  cases hFilter : c.filter with
  | none => exact columns_eq_columnsOf hc hTypes hFilter
  | some f => exact takeRows_eq_columnsOf hc hTypes fun i hi => lt_of_mem_keptRows hi

theorem rowsFit_rows (hc : c.Aligned) (hTypes : c.columns.map ArrayRef.dataType = schema) :
    RowsFit schema c.rows := by
  intro row hRow
  obtain ⟨i, hi, rfl⟩ := List.mem_map.mp hRow
  rw [hc.length_rowAt (lt_of_mem_keptRows hi), ← hTypes, List.length_map]

end OneChunk

variable {cs : List (DataChunk Ty Val)}

theorem OfSchema.ne_nil (h : OfSchema schema cs) (hcs : cs ≠ []) : schema ≠ [] := by
  obtain ⟨c, hc⟩ := List.exists_mem_of_ne_nil cs hcs
  intro hNil
  have hTypes := h.types c hc
  rw [hNil] at hTypes
  exact (h.aligned c hc).columns (List.map_eq_nil_iff.mp hTypes)

theorem OfSchema.singleton (h : OfSchema schema cs) {c : DataChunk Ty Val} (hc : c ∈ cs) :
    OfSchema schema [c] :=
  ⟨fun _ hd => List.mem_singleton.mp hd ▸ h.aligned c hc,
    fun _ hd => List.mem_singleton.mp hd ▸ h.types c hc⟩

theorem OfSchema.fits (h : OfSchema schema cs) : RowsFit schema (rowsOf cs) := by
  intro row hRow
  obtain ⟨c, hc, hRow⟩ := List.mem_flatMap.mp hRow
  exact rowsFit_rows (h.aligned c hc) (h.types c hc) row hRow

/-! ## Putting chunks together -/

namespace StreamExecutor

/-- The chunks put together are the table of all logical rows. -/
theorem concat_ok [DecidableEq Ty] (h : OfSchema schema cs) (hcs : cs ≠ []) :
    concat (E := E) cs = .ok (tableOf schema (rowsOf cs)) := by
  have hCompact : ∀ c ∈ cs, c.compact.columns = columnsOf schema c.rows := fun c hc =>
    columns_compact (h.aligned c hc) (h.types c hc)
  obtain ⟨first, rest, rfl⟩ := List.exists_cons_of_ne_nil hcs
  have hFirst := hCompact first List.mem_cons_self
  have hRest : ∀ c ∈ rest, c.compact.columns = columnsOf schema c.rows := fun c hc =>
    hCompact c (List.mem_cons_of_mem first hc)
  have hMatch : ((rest.map DataChunk.compact).all fun c =>
      c.columns.map ArrayRef.dataType = first.compact.columns.map ArrayRef.dataType) = true := by
    rw [List.all_eq_true]
    intro c hc
    obtain ⟨d, hd, rfl⟩ := List.mem_map.mp hc
    rw [hRest d hd, hFirst, types_columnsOf, types_columnsOf, decide_eq_true_eq]
  rw [concat, List.map_cons]
  simp only [hMatch, if_true]
  congr 2
  apply List.ext_getElem?
  intro j
  rw [List.getElem?_map, List.getElem?_zipIdx, hFirst]
  cases hj : schema[j]? with
  | none =>
    have hNone : ∀ rows : List (List Val), (columnsOf schema rows)[j]? = none := by
      intro rows
      rw [List.getElem?_eq_none_iff, length_columnsOf]
      exact List.getElem?_eq_none_iff.mp hj
    rw [hNone, hNone]
    rfl
  | some ty =>
    rw [getElem?_columnsOf hj, getElem?_columnsOf hj]
    -- each chunk has the values of its rows in this column
    have hValues : ∀ c ∈ first :: rest, ((c.compact.columns[j]?).map ArrayRef.values).getD [] =
        c.rows.filterMap fun row => row[j]? := by
      intro c hc
      rw [hCompact c hc, getElem?_columnsOf hj]
      rfl
    have hAll : ((first.compact :: rest.map DataChunk.compact).flatMap fun c =>
        ((c.columns[j]?).map ArrayRef.values).getD []) =
        (rowsOf (first :: rest)).filterMap fun row => row[j]? := by
      rw [← List.map_cons, List.flatMap_map, rowsOf, List.filterMap_flatMap]
      exact List.flatMap_congr hValues
    simp only [Option.map_some, Nat.zero_add, hAll]

/-- A stream that ends in an error, or does not. -/
def endingIn (cs : List (DataChunk Ty Val)) (failure : Option E) : Stream E Ty Val :=
  cs.map .ok ++ failure.toList.map fun e => .error (.error e)

theorem chunksBefore_endingIn (cs : List (DataChunk Ty Val)) (failure : Option E) :
    chunksBefore (endingIn cs failure) = cs := by
  induction cs with
  | nil => cases failure <;> rfl
  | cons c cs ih => exact congrArg (List.cons c) ih

theorem firstError_endingIn (cs : List (DataChunk Ty Val)) (failure : Option E) :
    firstError (endingIn cs failure) = failure.map .error := by
  induction cs with
  | nil => cases failure <;> rfl
  | cons c cs ih => exact ih

/-! ## Rows of a table -/

variable {rows : List (List Val)}

theorem take_tableOf (hSchema : schema ≠ []) (hFits : RowsFit schema rows) {is : List Nat}
    (his : ∀ i ∈ is, i < rows.length) :
    take (E := E) (tableOf schema rows) is =
      .ok (tableOf schema (is.filterMap fun i => rows[i]?)) := by
  have hLen := len_tableOf hSchema hFits
  have hBounds : (is.all fun i => decide (i < (tableOf schema rows).len)) = true := by
    rw [List.all_eq_true]
    intro i hi
    rw [hLen, decide_eq_true_eq]
    exact his i hi
  have hRows : is.map (tableOf schema rows).rowAt = is.filterMap fun i => rows[i]? := by
    rw [← List.filterMap_eq_map]
    refine List.filterMap_congr fun i hi => ?_
    show some ((tableOf schema rows).rowAt i) = rows[i]?
    rw [rowAt_tableOf hFits (his i hi), List.getElem?_eq_getElem (his i hi)]
  rw [take, if_pos hBounds, takeRows_eq_columnsOf (aligned_tableOf hSchema hFits)
    (types_columnsOf schema rows) (fun i hi => by rw [hLen]; exact his i hi), hRows]
  rfl

end StreamExecutor

end Tables

end MiniGU
