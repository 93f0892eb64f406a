import MiniGU.Invariant.ExpandRows
import MiniGU.Model.PathPattern

/-!
# Expand and flatten as a lateral join

A vertex column with a null, and a batch of neighbours with a null or of a length that is no `i32`,
are refused: `Expand` asserts the first, and the lists that it builds have non-null items. Otherwise
each row is joined with the neighbours of its vertex, in order, up to the first error of the child
or of the source.

## Results

- `graphSource_yieldsBatches`: the neighbours in a graph come in such batches.
-/

namespace MiniGU

namespace StreamExecutor

variable {E Ty Val : Type} [DecidableEq Ty] {arrow : ListArrays E Ty Val}

/-- The logical rows of a stream, one after the other. -/
def rowStream (s : Stream E Ty Val) : List (Except (Fault E) (List Val)) :=
  forEach (fun c => c.rows.map .ok) s

section Lateral

variable (arrow) (source : ExpandSource E Ty Val) (edgeLabels targetLabels : Option (Cubes Nat))

/-- The rows that the source yields for a vertex; a null has no neighbours. -/
def neighbours (v : Val) : List (Except (Fault E) (List Val)) :=
  if arrow.isNull v then []
  else
    match source (arrow.vertex v) edgeLabels targetLabels with
    | none => []
    | some expandIter => forEach (fun columns => (batchRows columns).map .ok) expandIter

/-- A row, extended with each of the neighbours of its vertex. -/
def lateralRow (column : Nat) (row : List Val) : List (Except (Fault E) (List Val)) :=
  match row[column]? with
  | none => []
  | some v =>
    forEach (fun neighbour => [.ok (row ++ neighbour)])
      (neighbours arrow source edgeLabels targetLabels v)

def lateralJoin (column : Nat) (child : Stream E Ty Val) : List (Except (Fault E) (List Val)) :=
  forEach (lateralRow arrow source edgeLabels targetLabels column) (rowStream child)

/-- The batches that the source yields for any vertex. -/
def YieldsBatches (width : Nat) : Prop :=
  ∀ vertex expandIter, source vertex edgeLabels targetLabels = some expandIter →
    ∀ columns, .ok columns ∈ expandIter → IsBatch arrow width columns

end Lateral

variable {source : ExpandSource E Ty Val} {edgeLabels targetLabels : Option (Cubes Nat)}
  {schema : List Ty} {width column : Nat} {columnIndices : List Nat}

-- ----
-- One row
-- ----

/-- The rows of the chunks of a stream when flattened. -/
def flattenedRows (arrow : ListArrays E Ty Val) (columnIndices : List Nat) (s : Stream E Ty Val) :
    List (Except (Fault E) (List Val)) :=
  rowStream (forEach (fun chunk => [flattenChunk arrow columnIndices chunk]) s)

omit [DecidableEq Ty] in
theorem flattenedRows_forEach {α : Type} (arrow : ListArrays E Ty Val)
    (columnIndices : List Nat) (body : α → Stream E Ty Val)
    (items : List (Except (Fault E) α)) :
    flattenedRows arrow columnIndices (forEach body items) =
      forEach (fun a => flattenedRows arrow columnIndices (body a)) items := by
  rw [flattenedRows, rowStream, forEach_forEach, forEach_forEach]
  refine forEach_congr fun a _ => ?_
  rw [flattenedRows, rowStream, forEach_forEach]

omit [DecidableEq Ty] in
theorem flattenedRows_expandRow (hSchema : schema ≠ []) (hWidth : width ≠ 0)
    (hIndices : columnIndices.Perm (List.range' schema.length width))
    (hSource : YieldsBatches arrow source edgeLabels targetLabels width)
    {chunk : DataChunk Ty Val} {row : List Val} {i : Nat} (hRow : row.length = schema.length)
    (hSlice : slice (E := E) chunk i 1 = .ok (tableOf schema [row])) {v : Val}
    (hValue : row[column]? = some v) (hNull : arrow.isNull v = false) :
    flattenedRows arrow columnIndices
        (expandRow arrow source edgeLabels targetLabels chunk (arrow.vertex v) i) =
      lateralRow arrow source edgeLabels targetLabels column row := by
  rw [expandRow, hSlice, flattenedRows_forEach, forEach_singleton, lateralRow, hValue]
  simp only [neighbours, hNull, Bool.false_eq_true, if_false]
  cases hIter : source (arrow.vertex v) edgeLabels targetLabels with
  | none => rfl
  | some expandIter =>
    simp only
    rw [flattenedRows_forEach, untilError_forEach, forEach_forEach]
    refine forEach_congr fun columns hColumns => ?_
    have hBatch := hSource _ _ hIter columns hColumns
    have hAppend : (do
        let lists ← columns.mapM (listColumn arrow)
        appendColumns (tableOf schema [row]) lists) = .ok (listedRow arrow schema row columns) := by
      rw [listColumns_ok hBatch, ok_bind, appendColumns_ok hSchema hRow]
    rw [hAppend, flattenedRows, forEach_singleton,
      flattenChunk_listedRow hBatch hWidth hRow hSchema hIndices]
    show untilError (forEach _ [.ok _]) = _
    rw [forEach_singleton, rows_repeated hSchema hRow, forEach_pure, untilError_map_ok, untilError_map_ok]

-- ----
-- One chunk
-- ----

/-- One chunk: expanding and flattening joins each row to the entries of its vertex. -/
theorem flattenedRows_expandChunk (hWidth : width ≠ 0)
    (hIndices : columnIndices.Perm (List.range' schema.length width))
    (hSource : YieldsBatches arrow source edgeLabels targetLabels width)
    (hVertex : schema[column]? = some arrow.vertexType) {c : DataChunk Ty Val}
    (hc : OfSchema schema [c])
    (hNull : ∀ row ∈ c.rows, ∀ v, row[column]? = some v → arrow.isNull v = false) :
    flattenedRows arrow columnIndices
        (expandChunk arrow source column edgeLabels targetLabels c) =
      forEach (lateralRow arrow source edgeLabels targetLabels column) (c.rows.map .ok) := by
  have hSchema := hc.ne_nil (by simp)
  have hAligned := hc.aligned c List.mem_cons_self
  have hTypes := hc.types c List.mem_cons_self
  have hFits := rowsFit_rows hAligned hTypes
  have hColumns := columns_compact hAligned hTypes
  have hFilter : c.compact.filter = none := by
    unfold DataChunk.compact
    cases hf : c.filter <;> simp [hf]
  have hLen : c.compact.len = c.rows.length := by
    rw [← len_tableOf hSchema hFits, DataChunk.len, hColumns]
    rfl
  have hSlice : ∀ i, slice (E := E) c.compact i 1 = slice (tableOf schema c.rows) i 1 := by
    intro i
    rw [slice, slice, hLen, len_tableOf hSchema hFits, hColumns, hFilter]
    rfl
  by_cases hEmpty : c.rows = []
  · rw [expandChunk]
    simp only [hLen, hEmpty, List.length_nil, if_true]
    rfl
  obtain ⟨first, rest, hRows⟩ := List.exists_cons_of_ne_nil hEmpty
  have hLt : column < schema.length := (List.getElem?_eq_some_iff.mp hVertex).1
  have hFirst : column < first.length := by
    rw [hFits first (by rw [hRows]; exact List.mem_cons_self)]
    exact hLt
  -- the vertex of a row
  let value : List Val → Val := fun row => (row[column]?).getD first[column]
  have hValue : ∀ row ∈ c.rows, row[column]? = some (value row) := by
    intro row hRow
    have hIn : column < row.length := by
      rw [hFits row hRow]
      exact hLt
    simp only [value, List.getElem?_eq_getElem hIn, Option.getD_some]
  have hColumn : c.compact.columns[column]? = some ⟨arrow.vertexType, c.rows.map value⟩ := by
    rw [hColumns, getElem?_columnsOf hVertex, List.filterMap_congr hValue, List.filterMap_eq_map']
  have hNoNull : (c.rows.map value).any arrow.isNull = false := by
    rw [List.any_eq_false]
    intro v hv
    obtain ⟨row, hRow, rfl⟩ := List.mem_map.mp hv
    rw [hNull row hRow _ (hValue row hRow)]
    exact Bool.false_ne_true
  have hLength : ¬c.rows.length = 0 := fun h => hEmpty (List.eq_nil_of_length_eq_zero h)
  have hPlaces : c.rows.map (Except.ok (ε := Fault E)) =
      c.rows.zipIdx.map fun p => .ok p.1 := by
    conv_lhs => rw [← List.zipIdx_map_fst 0 c.rows, List.map_map]
    rfl
  simp only [expandChunk, hLen, if_neg hLength, hColumn, hNoNull, ne_eq, not_true_eq_false,
    Bool.false_eq_true, or_self, if_false]
  rw [flattenedRows_forEach, List.zipIdx_map, List.map_map, hPlaces, forEach_map]
  show forEach _ (c.rows.zipIdx.map fun p => .ok (value p.1, p.2)) = _
  rw [forEach_map]
  refine forEach_congr fun p hp => ?_
  obtain ⟨q, hq, hSame⟩ := List.mem_map.mp hp
  cases hSame
  have hAt := List.mem_zipIdx_iff_getElem?.mp hq
  obtain ⟨hi, hRowAt⟩ := List.getElem?_eq_some_iff.mp hAt
  have hRow : p.1 ∈ c.rows := List.mem_of_getElem? hAt
  have hOne : slice (E := E) c.compact p.2 1 = .ok (tableOf schema [p.1]) := by
    rw [hSlice, slice_tableOf hSchema hFits hi, hRowAt]
  rw [flattenedRows_expandRow hSchema hWidth hIndices hSource (hFits _ hRow) hOne
    (hValue _ hRow) (hNull _ hRow _ (hValue _ hRow))]

-- ----
-- The executors
-- ----

/-- **Expanding and flattening** the columns of the neighbours is the lateral join with them, where
no vertex is null and the source yields batches without nulls. -/
theorem flatten_expand {cs : List (DataChunk Ty Val)} (hcs : OfSchema schema cs)
    (hVertex : schema[column]? = some arrow.vertexType)
    (hNull : ∀ row ∈ rowsOf cs, ∀ v, row[column]? = some v → arrow.isNull v = false)
    (hWidth : width ≠ 0) (hSource : YieldsBatches arrow source edgeLabels targetLabels width)
    (hIndices : columnIndices.Perm (List.range' schema.length width)) (failure : Option E) :
    rowStream (flatten arrow columnIndices
        (expand arrow source column edgeLabels targetLabels (endingIn cs failure))) =
      lateralJoin arrow source edgeLabels targetLabels column (endingIn cs failure) := by
  have hSome : ¬(columnIndices = [] ∨ ¬columnIndices.Nodup) := by
    rintro (hNil | hTwice)
    · have hLength := hIndices.length_eq
      rw [hNil, List.length_range'] at hLength
      exact hWidth hLength.symm
    · exact hTwice (hIndices.nodup_iff.mpr (List.nodup_range' 1))
  have hFlatten := flattenedRows_forEach arrow columnIndices
    (expandChunk arrow source column edgeLabels targetLabels) (endingIn cs failure)
  have hLateral : lateralJoin arrow source edgeLabels targetLabels column (endingIn cs failure) =
      forEach (fun c => forEach (lateralRow arrow source edgeLabels targetLabels column)
        (c.rows.map .ok)) (endingIn cs failure) := forEach_forEach _
  rw [flatten, if_neg hSome, hLateral]
  refine hFlatten.trans (forEach_congr fun c hc => ?_)
  have hIn : c ∈ cs := by
    rcases List.mem_append.mp hc with hc | hc
    · obtain ⟨d, hd, hSame⟩ := List.mem_map.mp hc
      exact Except.ok.inj hSame ▸ hd
    · cases failure <;> simp at hc
  rw [flattenedRows_expandChunk hWidth hIndices hSource hVertex (hcs.singleton hIn)
    fun row hRow => hNull row (List.mem_flatMap.mpr ⟨c, hIn, hRow⟩)]

-- ----
-- The neighbours in a graph
-- ----

/-- The columns of edge ids and of vertex ids that a graph yields, as arrays of ids. -/
def graphSource {V : Type} (arrow : ListArrays E Ty Val) (idValue : Nat → Val)
    (view : GraphView V) : ExpandSource E Ty Val := fun vertex edgeLabels targetLabels =>
  (view.expandFromVertex vertex edgeLabels targetLabels).map fun expandIter =>
    expandIter.map fun columns => .ok (columns.map fun ids => ⟨arrow.vertexType, ids.map idValue⟩)

omit [DecidableEq Ty] in
theorem graphSource_yieldsBatches {V : Type} {idValue : Nat → Val}
    (hIds : ∀ n, arrow.isNull (idValue n) = false) (view : GraphView V) :
    YieldsBatches arrow (graphSource arrow idValue view) edgeLabels targetLabels 2 := by
  intro vertex expandIter hIter columns hColumns
  obtain ⟨batched, hBatched, rfl⟩ := Option.map_eq_some_iff.mp hIter
  obtain ⟨idColumns, hIdColumns, hSame⟩ := List.mem_map.mp hColumns
  obtain rfl := (Except.ok.inj hSame).symm
  unfold GraphView.expandFromVertex at hBatched
  split at hBatched
  · cases hBatched
  · obtain rfl := (Option.some.inj hBatched).symm
    obtain ⟨batch, hBatch, rfl⟩ := List.mem_map.mp hIdColumns
    have hSize := length_le_of_mem_batches hBatch
    refine ⟨rfl, ?_, ?_, ?_⟩
    · simp [DataChunk.len, DataChunk.new]
    · simp only [DataChunk.len, DataChunk.new, List.map_cons, List.map_nil, List.head?_cons,
        Option.map_some, Option.getD_some, List.length_map]
      omega
    · intro a ha v hv
      obtain ⟨ids, -, rfl⟩ := List.mem_map.mp ha
      obtain ⟨n, -, rfl⟩ := List.mem_map.mp hv
      exact hIds n

-- ----
-- Ids and lists of them
-- ----

inductive NestedType where
  | id
  | list (items : NestedType)
deriving DecidableEq

inductive Nested where
  | null
  | id (n : Nat)
  | list (items : List Nested)

def nestedArrays : ListArrays Unit NestedType Nested where
  vertexType := .id
  vertex
    | .id n => n
    | _ => 0
  isNull
    | .null => true
    | _ => false
  listType := .list
  itemType
    | .list items => some items
    | .id => none
  list := .list
  items
    | .list items => items
    | _ => []
  itemType_listType _ := rfl
  items_list _ := rfl
  list_not_null _ := rfl
  nonNullableField := ()
  nothingToConcat := ()

/-- A chunk of one column. -/
def nestedColumn (vs : List Nested) (filter : Option (List Bool)) : DataChunk NestedType Nested :=
  ⟨[⟨.id, vs⟩], filter, some 0⟩

/-- Every vertex but the first has the vertices before it for neighbours, one in each batch. -/
def countdown : ExpandSource Unit NestedType Nested := fun vertex _ _ =>
  if vertex = 0 then none else some ((List.range vertex).map fun n => .ok [⟨.id, [.id n]⟩])

/-- Vertices 2 and 0 around a null that the filter drops; 0 has no neighbours. -/
theorem countdown_joined :
    rowStream (flatten nestedArrays [1] (expand nestedArrays countdown 0 none none
        (endingIn [nestedColumn [.id 2, .null, .id 0] (some [true, false, true])] (some ())))) =
      lateralJoin nestedArrays countdown none none 0
        (endingIn [nestedColumn [.id 2, .null, .id 0] (some [true, false, true])] (some ())) := by
  have hSchema : OfSchema [NestedType.id]
      [nestedColumn [.id 2, .null, .id 0] (some [true, false, true])] := by
    constructor
    all_goals
      intro c hc
      rw [List.mem_singleton] at hc
      subst hc
    · exact ⟨by simp [nestedColumn], by simp [nestedColumn, DataChunk.len],
        by simp [nestedColumn, DataChunk.len]⟩
    · rfl
  refine flatten_expand hSchema rfl ?_ Nat.one_ne_zero ?_ (List.Perm.refl _) (some ())
  · intro row hRow v hv
    have hRows : rowsOf [nestedColumn [.id 2, .null, .id 0] (some [true, false, true])] =
        [[.id 2], [.id 0]] := rfl
    rw [hRows] at hRow
    simp only [List.mem_cons, List.not_mem_nil, or_false] at hRow
    rcases hRow with rfl | rfl
    all_goals
      cases hv
      rfl
  · intro vertex expandIter hIter columns hColumns
    unfold countdown at hIter
    split at hIter
    · cases hIter
    · cases hIter
      obtain ⟨n, -, hSame⟩ := List.mem_map.mp hColumns
      cases hSame
      refine ⟨rfl, ?_, ?_, ?_⟩
      · simp [DataChunk.len, DataChunk.new]
      · simp [DataChunk.len, DataChunk.new]
      · intro a ha v hv
        rw [List.mem_singleton.mp ha] at hv
        rw [List.mem_singleton.mp hv]
        rfl

/-- One batch of one column, for every vertex. -/
def oneBatch (vs : List Nested) : ExpandSource Unit NestedType Nested := fun _ _ _ =>
  some [.ok [⟨.id, vs⟩]]

theorem expand_long_batch {vs : List Nested} (h : 2 ^ 31 ≤ vs.length) :
    expand nestedArrays (oneBatch vs) 0 none none (endingIn [nestedColumn [.id 1] none] none) =
      [.error .panicked] := by
  have hColumn : listColumn nestedArrays ⟨.id, vs⟩ = .error .panicked := if_pos h
  have hSlice : slice (E := Unit) (nestedColumn [.id 1] none) 0 1 =
      .ok (nestedColumn [.id 1] none) := rfl
  have hRow : expandRow nestedArrays (oneBatch vs) none none (nestedColumn [.id 1] none) 1 0 =
      [.error .panicked] := by
    rw [expandRow, hSlice, forEach_singleton]
    simp only [oneBatch, forEach_singleton, List.mapM_cons, hColumn]
    rfl
  show untilError (untilError (expandRow nestedArrays (oneBatch vs) none none
    (nestedColumn [.id 1] none) 1 0 ++ []) ++ []) = _
  rw [hRow]
  rfl

theorem lateralJoin_oneBatch (vs : List Nested) :
    lateralJoin nestedArrays (oneBatch vs) none none 0
        (endingIn [nestedColumn [.id 1] none] none) =
      ((batchRows [⟨NestedType.id, vs⟩]).map fun neighbour => Nested.id 1 :: neighbour).map .ok := by
  have hNeighbours : neighbours nestedArrays (oneBatch vs) none none (.id 1) =
      forEach (fun columns => (batchRows columns).map .ok) [.ok [⟨NestedType.id, vs⟩]] := rfl
  have hRow : lateralRow nestedArrays (oneBatch vs) none none 0 [.id 1] =
      forEach (fun neighbour => [.ok ([.id 1] ++ neighbour)])
        (neighbours nestedArrays (oneBatch vs) none none (.id 1)) := rfl
  show forEach (lateralRow nestedArrays (oneBatch vs) none none 0) [.ok [Nested.id 1]] = _
  rw [forEach_singleton, hRow, hNeighbours, forEach_singleton, untilError_map_ok, forEach_pure,
    untilError_map_ok]
  rfl

/-- A null vertex, a null neighbour, and more neighbours in a batch than an `i32` counts. -/
theorem nulls_not_joined :
    rowStream (flatten nestedArrays [1] (expand nestedArrays countdown 0 none none
        (endingIn [nestedColumn [.null] none] none))) ≠
      lateralJoin nestedArrays countdown none none 0 (endingIn [nestedColumn [.null] none] none) ∧
    rowStream (flatten nestedArrays [1] (expand nestedArrays (oneBatch [.null]) 0 none none
        (endingIn [nestedColumn [.id 1] none] none))) ≠
      lateralJoin nestedArrays (oneBatch [.null]) none none 0
        (endingIn [nestedColumn [.id 1] none] none) ∧
    rowStream (flatten nestedArrays [1] (expand nestedArrays
        (oneBatch (List.replicate (2 ^ 31) (.id 0))) 0 none none
        (endingIn [nestedColumn [.id 1] none] none))) ≠
      lateralJoin nestedArrays (oneBatch (List.replicate (2 ^ 31) (.id 0))) none none 0
        (endingIn [nestedColumn [.id 1] none] none) := by
  refine ⟨fun h => ?_, fun h => ?_, fun h => ?_⟩
  · cases h
  · cases h
  · rw [expand_long_batch (by rw [List.length_replicate])] at h
    have hSome : batchRows [⟨NestedType.id, List.replicate (2 ^ 31) (Nested.id 0)⟩] ≠ [] := by
      rw [batchRows, DataChunk.rows, ne_eq, List.map_eq_nil_iff]
      simp only [DataChunk.keptRows, DataChunk.new, DataChunk.len, List.head?_cons, Option.map_some,
        Option.getD_some, List.length_replicate, List.range_eq_nil]
      omega
    obtain ⟨first, rest, hRows⟩ := List.exists_cons_of_ne_nil hSome
    rw [lateralJoin_oneBatch, hRows] at h
    cases h

end StreamExecutor

end MiniGU
