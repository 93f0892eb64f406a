import MiniGU.Lib.Collect
import MiniGU.Model.Executor

/-!
# Chunks of ids

`table w rows` is the chunk of `w` columns of ids with the given rows. An expand and the
flatten after it take such chunks to such chunks, two columns wider, as long as the flatten is
given the two columns that the expand appended.

* `expandChunk_table`, `flattenChunk_widened`: what they do to one chunk.
* `flattenChunk_misplaced`: the flatten fails on any other columns.
-/

namespace MiniGU

/-- Column `j` of a list of rows. -/
def columnOf (rows : List (List Nat)) (j : Nat) : Column := idColumn (rows.map fun r => r.getD j 0)

def table (w : Nat) (rows : List (List Nat)) : Chunk :=
  DataChunk.new ((List.range w).map (columnOf rows))

section Columns

theorem asPrimitive_idColumn (ns : List Nat) : asPrimitive (idColumn ns) = some ns := by
  unfold asPrimitive idColumn
  induction ns with
  | nil => rfl
  | cons n ns ih =>
    simp only [List.map_cons, List.mapM_cons] at ih ⊢
    rw [ih]
    rfl

theorem asList_listColumn (lists : List (List Nat)) : asList (listColumn lists) = some lists := by
  unfold asList listColumn
  induction lists with
  | nil => rfl
  | cons ns lists ih =>
    simp only [List.map_cons, List.mapM_cons] at ih ⊢
    rw [ih]
    rfl

end Columns

section Table

variable {w : Nat} {rows : List (List Nat)}

theorem table_getElem {j : Nat} (h : j < w) : (table w rows).columns[j]? = some (columnOf rows j) := by
  unfold table DataChunk.new
  rw [List.getElem?_map, List.getElem?_range h]
  rfl

theorem table_len (h : 0 < w) : (table w rows).len = rows.length := by
  obtain ⟨n, rfl⟩ := Nat.exists_eq_add_of_lt h
  unfold DataChunk.len table DataChunk.new columnOf idColumn
  rw [List.head?_map, List.head?_range]
  simp

theorem table_compact : (table w rows).compact = table w rows := rfl

theorem table_keptRows (h : 0 < w) : (table w rows).keptRows = List.range rows.length := by
  unfold DataChunk.keptRows
  rw [table_len h]
  rfl

theorem idRows_table (h : 0 < w) (hRows : ∀ r ∈ rows, r.length = w) :
    idRows (table w rows) = rows.map (List.map some) := by
  unfold idRows
  rw [table_keptRows h]
  refine List.ext_getElem (by simp) fun i hi hi' => ?_
  have hBound : i < rows.length := by simpa using hi'
  have hLength := hRows _ (List.getElem_mem hBound)
  rw [List.getElem_map, List.getElem_range, List.getElem_map]
  unfold table DataChunk.new
  rw [List.map_map]
  refine List.ext_getElem (by simp [hLength]) fun j hj hj' => ?_
  have hj'' : j < rows[i].length := by simpa using hj'
  simp [columnOf, idColumn, Cell.id?, hBound, hj'']

theorem table_slice1 {i : Nat} {r : List Nat} (h : rows[i]? = some r) :
    (table w rows).slice1 i = table w [r] := by
  unfold DataChunk.slice1 DataChunk.takeRows table DataChunk.new
  rw [List.map_map]
  congr 1
  refine List.map_congr_left fun j _ => ?_
  show ArrayRef.mk _ _ = ArrayRef.mk _ _
  congr 1
  simp [columnOf, idColumn, h]

end Table

/-! ## One row with its neighbours -/

/-- A row with the columns of a batch as lists. -/
def widened (w : Nat) (r : List Nat) (batch : List (List Nat)) : Chunk :=
  DataChunk.new ((table w [r]).columns ++ batch.map fun column => listColumn [column])

theorem widened_len {w : Nat} (h : 0 < w) (r : List Nat) (batch : List (List Nat)) :
    (widened w r batch).len = 1 := by
  obtain ⟨n, rfl⟩ := Nat.exists_eq_add_of_lt h
  unfold widened DataChunk.new DataChunk.len table DataChunk.new columnOf idColumn
  rw [List.head?_append, List.head?_map, List.head?_range]
  simp

theorem appendColumns_table {w : Nat} (h : 0 < w) (r : List Nat) (batch : List (List Nat)) :
    (table w [r]).appendColumns (batch.map fun column => listColumn [column]) =
      .ok (widened w r batch) := by
  have hLen : DataChunk.len ⟨(table w [r]).columns ++ batch.map (fun column => listColumn [column]),
      none, some 0⟩ = 1 := widened_len h r batch
  unfold DataChunk.appendColumns
  rw [if_pos]
  · rfl
  · refine List.all_eq_true.mpr fun a ha => ?_
    rw [beq_iff_eq]
    refine Eq.trans ?_ hLen.symm
    -- one row in the columns of the table, one list in each new one
    rcases List.mem_append.mp ha with ha | ha
    · obtain ⟨j, -, rfl⟩ := List.mem_map.mp ha
      rfl
    · obtain ⟨column, -, rfl⟩ := List.mem_map.mp ha
      rfl

theorem widened_getElem {w : Nat} {r : List Nat} {batch : List (List Nat)} {j : Nat} (h : j < w) :
    (widened w r batch).columns[j]? = some (columnOf [r] j) := by
  have hLength : j < (table w [r]).columns.length := by
    unfold table DataChunk.new
    rw [List.length_map, List.length_range]
    exact h
  unfold widened DataChunk.new
  rw [List.getElem?_append_left hLength, table_getElem h]

theorem widened_getElem_add {w : Nat} {r : List Nat} {batch : List (List Nat)} (k : Nat) :
    (widened w r batch).columns[w + k]? = batch[k]?.map fun column => listColumn [column] := by
  have hLength : (table w [r]).columns.length = w := by
    unfold table DataChunk.new
    rw [List.length_map, List.length_range]
  unfold widened DataChunk.new
  rw [List.getElem?_append_right (by omega), hLength, Nat.add_sub_cancel_left, List.getElem?_map]

namespace Executor

variable {w : Nat} {rows : List (List Nat)} {source : ExpandSource}
  {edgeLabels targetLabels : Option (Cubes Nat)}

theorem expandRow_table (h : 0 < w) {i : Nat} {r : List Nat} (hr : rows[i]? = some r)
    (vertex : Nat) :
    expandRow source edgeLabels targetLabels (table w rows) vertex i =
      .ok (((source vertex edgeLabels targetLabels).getD []).map (widened w r)) := by
  unfold expandRow
  cases source vertex edgeLabels targetLabels with
  | none => rfl
  | some expandIter =>
    refine mapM_eq_ok fun batch _ => ?_
    rw [table_slice1 hr, appendColumns_table h]

theorem expandChunk_table {j : Nat} (hj : j < w) :
    expandChunk source j edgeLabels targetLabels (table w rows) =
      .ok (rows.flatMap fun r => ((source (r.getD j 0) edgeLabels targetLabels).getD []).map
        (widened w r)) := by
  have h : 0 < w := Nat.zero_lt_of_lt hj
  unfold expandChunk
  simp only [table_compact, table_len h, table_getElem hj, Option.bind_some]
  by_cases hRows : rows = []
  · subst hRows
    rfl
  · rw [if_neg (fun hZero => hRows (List.length_eq_zero_iff.mp hZero)), columnOf,
      asPrimitive_idColumn]
    have hStep : ∀ p ∈ (rows.map fun r => r.getD j 0).zipIdx,
        expandRow source edgeLabels targetLabels (table w rows) p.1 p.2 =
          .ok (((source p.1 edgeLabels targetLabels).getD []).map (widened w (rows.getD p.2 []))) := by
      rintro ⟨vertex, i⟩ hp
      have hAt := List.mem_zipIdx_iff_getElem?.mp hp
      rw [List.getElem?_map, Option.map_eq_some_iff] at hAt
      obtain ⟨r, hr, -⟩ := hAt
      rw [expandRow_table h hr, List.getD_eq_getElem?_getD, hr]
      rfl
    simp only [mapM_eq_ok hStep, ok_bind, List.flatMap_def]
    congr 2
    refine List.ext_getElem (by simp) fun i hi hi' => ?_
    have hBound : i < rows.length := by simpa using hi'
    simp [hBound]

/-- The rows that a row and a batch of edges and vertices stand for. -/
def joined (r : List Nat) (es vs : List Nat) : List (List Nat) :=
  (es.zip vs).map fun n => r ++ [n.1, n.2]

/-- The columns of the row are repeated, those of the batch laid out. -/
theorem columnOf_joined {r es vs : List Nat} (hLen : es.length = vs.length) {j : Nat}
    (hj : j < r.length) :
    columnOf (joined r es vs) j = idColumn (List.replicate es.length (r.getD j 0)) := by
  unfold columnOf joined
  rw [List.map_map]
  refine congrArg idColumn (List.eq_replicate_iff.mpr ⟨by simp [hLen], fun n hn => ?_⟩)
  obtain ⟨p, -, rfl⟩ := List.mem_map.mp hn
  simp [List.getElem?_append_left hj, hj]

theorem columnOf_joined_fst {r es vs : List Nat} (hLen : es.length = vs.length) :
    columnOf (joined r es vs) r.length = idColumn es := by
  unfold columnOf joined
  rw [List.map_map]
  refine congrArg idColumn (Eq.trans (List.map_congr_left fun p _ => ?_)
    (List.map_fst_zip (Nat.le_of_eq hLen)))
  simp

theorem columnOf_joined_snd {r es vs : List Nat} (hLen : es.length = vs.length) :
    columnOf (joined r es vs) (r.length + 1) = idColumn vs := by
  unfold columnOf joined
  rw [List.map_map]
  refine congrArg idColumn (Eq.trans (List.map_congr_left fun p _ => ?_)
    (List.map_snd_zip (Nat.le_of_eq hLen.symm)))
  simp

/-- Flattening a row with two lists joins the row to each pair of their elements. -/
theorem flattenChunk_widened (h : 0 < w) {r : List Nat} (hr : r.length = w) {es vs : List Nat}
    (hLen : es.length = vs.length) :
    flattenChunk [w, w + 1] (widened w r [es, vs]) = .ok (table (w + 2) (joined r es vs)) := by
  have hCompact : (widened w r [es, vs]).compact = widened w r [es, vs] := rfl
  have hLists : [w, w + 1].mapM (fun i => (widened w r [es, vs]).columns[i]?.bind asList) =
      some [[es], [vs]] := by
    have hFirst : (widened w r [es, vs]).columns[w + 0]? = _ := widened_getElem_add 0
    have hSecond : (widened w r [es, vs]).columns[w + 1]? = _ := widened_getElem_add 1
    rw [Nat.add_zero] at hFirst
    simp only [List.mapM_cons, List.mapM_nil, hFirst, hSecond]
    rfl
  unfold flattenChunk
  simp only [hCompact, hLists, widened_len h]
  rw [if_pos (by simp [hLen]), if_neg Nat.one_ne_zero]
  refine congrArg (Except.ok ∘ DataChunk.new) ?_
  refine List.ext_getElem? fun j => ?_
  rw [List.getElem?_map, List.getElem?_zipIdx, Option.map_map, List.getElem?_map]
  by_cases hj : j < w
  · have hIdx : List.idxOf? (0 + j) [w, w + 1] = none := by
      rw [List.idxOf?_eq_none_iff]
      simp
      omega
    rw [widened_getElem hj, List.getElem?_range (by omega), Option.map_some, Option.map_some,
      columnOf_joined hLen (by omega)]
    simp only [Function.comp_apply, hIdx]
    simp [columnOf, idColumn]
  · obtain ⟨k, rfl⟩ := Nat.exists_eq_add_of_le (Nat.le_of_not_lt hj)
    rw [widened_getElem_add]
    match k with
    | 0 =>
      have hIdx : List.idxOf? (0 + (w + 0)) [w, w + 1] = some 0 := by
        simp [List.idxOf?, List.findIdx?_cons]
      have hColumn : columnOf (joined r es vs) (w + 0) = idColumn es := hr ▸ columnOf_joined_fst hLen
      rw [List.getElem?_range (by omega), Option.map_some, hColumn]
      simp only [List.getElem?_cons_zero, Option.map_some, Function.comp_apply, hIdx]
      simp
    | 1 =>
      have hIdx : List.idxOf? (0 + (w + 1)) [w, w + 1] = some 1 := by
        simp [List.idxOf?, List.findIdx?_cons]
      have hColumn : columnOf (joined r es vs) (w + 1) = idColumn vs := hr ▸ columnOf_joined_snd hLen
      rw [List.getElem?_range (by omega), Option.map_some, hColumn]
      simp only [List.getElem?_cons_succ, List.getElem?_cons_zero, Option.map_some,
        Function.comp_apply, hIdx]
      simp
    | k + 2 =>
      rw [List.getElem?_eq_none (l := List.range (w + 2)) (by simp)]
      rfl

theorem flattenChunk_misplaced {m : Nat} (h : m < w) (r : List Nat) (batch : List (List Nat)) :
    flattenChunk [m, m + 1] (widened w r batch) = .error .panicked := by
  unfold flattenChunk
  have hCompact : (widened w r batch).compact = widened w r batch := rfl
  have hNone : [m, m + 1].mapM (fun i => (widened w r batch).columns[i]?.bind asList) = none := by
    rw [List.mapM_cons, widened_getElem h]
    rfl
  simp only [hCompact, hNone]

end Executor

/-! ## Streams -/

/-- The chunks are tables of `w` columns with the given rows, in order. -/
def Tabled (w : Nat) (chunks : List Chunk) (rows : List (List Nat)) : Prop :=
  ∃ parts : List (List (List Nat)), chunks = parts.map (table w) ∧ parts.flatten = rows ∧
    ∀ r ∈ rows, r.length = w

theorem Tabled.idRows {w : Nat} {chunks : List Chunk} {rows : List (List Nat)}
    (h : Tabled w chunks rows) (hw : 0 < w) : chunks.flatMap idRows = rows.map (List.map some) := by
  obtain ⟨parts, rfl, rfl, hLength⟩ := h
  rw [List.flatMap_map, List.map_flatten, List.flatMap_def]
  congr 1
  refine List.map_congr_left fun rs hrs => idRows_table hw fun r hr => hLength r ?_
  exact List.mem_flatten.mpr ⟨rs, hrs, hr⟩

namespace Executor

variable {w : Nat} {chunks : List Chunk} {rows : List (List Nat)} {source : ExpandSource}
  {edgeLabels targetLabels : Option (Cubes Nat)}

theorem expand_tabled {j : Nat} (hj : j < w) (h : Tabled w chunks rows) :
    expand source j edgeLabels targetLabels chunks =
      .ok (rows.flatMap fun r => ((source (r.getD j 0) edgeLabels targetLabels).getD []).map
        (widened w r)) := by
  obtain ⟨parts, rfl, rfl, -⟩ := h
  have hParts : (parts.map (table w)).mapM (expandChunk source j edgeLabels targetLabels) =
      .ok (parts.map fun rs => rs.flatMap fun r =>
        ((source (r.getD j 0) edgeLabels targetLabels).getD []).map (widened w r)) := by
    rw [mapM_ok_iff, List.map_map, List.map_map]
    exact List.map_congr_left fun rs _ => expandChunk_table hj
  unfold expand
  rw [hParts, ok_bind, ← List.flatMap_def, ← List.flatMap_id (L := parts), List.flatMap_assoc]
  rfl

/-- The neighbours of a vertex in batches, as columns of edges and of vertices. -/
def Pairs (source : ExpandSource) (edgeLabels targetLabels : Option (Cubes Nat))
    (pairs : Nat → List (List (Nat × Nat))) : Prop :=
  ∀ v, (source v edgeLabels targetLabels).getD [] =
    (pairs v).map fun b => [b.map Prod.fst, b.map Prod.snd]

variable {pairs : Nat → List (List (Nat × Nat))}

/-- Each row with each of the neighbours of its first vertex. -/
def expandRows (pairs : Nat → List (List (Nat × Nat))) (rows : List (List Nat)) : List (List Nat) :=
  rows.flatMap fun r => (pairs (r.getD 0 0)).flatten.map fun n => r ++ [n.1, n.2]

/-- Each row with each of the neighbours of its vertex in column `j`. -/
def expandRowsAt (pairs : Nat → List (List (Nat × Nat))) (j : Nat) (rows : List (List Nat)) :
    List (List Nat) :=
  rows.flatMap fun r => (pairs (r.getD j 0)).flatten.map fun n => r ++ [n.1, n.2]

/-- An expand and a flatten give a table of the rows with their neighbours. -/
theorem expand_flatten_tabled {j : Nat} (hj : j < w) (h : Tabled w chunks rows)
    (hPairs : Pairs source edgeLabels targetLabels pairs) :
    ∃ expanded chunks', expand source j edgeLabels targetLabels chunks = .ok expanded ∧
      flatten [w, w + 1] expanded = .ok chunks' ∧
      Tabled (w + 2) chunks' (expandRowsAt pairs j rows) := by
  have hw : 0 < w := Nat.zero_lt_of_lt hj
  have hJoined : ∀ (r : List Nat) (b : List (Nat × Nat)),
      joined r (b.map Prod.fst) (b.map Prod.snd) = b.map fun n => r ++ [n.1, n.2] := by
    intro r b
    unfold joined
    rw [List.zip_map', List.map_map]
    rfl
  have hLength := h.choose_spec.2.2
  refine ⟨_, (rows.flatMap fun r => (pairs (r.getD j 0)).map fun b =>
    b.map fun n => r ++ [n.1, n.2]).map (table (w + 2)), expand_tabled hj h, ?_, _, rfl, ?_, ?_⟩
  · unfold flatten
    rw [if_neg (by simp), mapM_ok_iff, List.map_map, List.map_flatMap, List.map_flatMap]
    refine List.flatMap_congr fun r hr => ?_
    rw [hPairs, List.map_map, List.map_map, List.map_map]
    refine List.map_congr_left fun b _ => ?_
    show flattenChunk [w, w + 1] (widened w r [b.map Prod.fst, b.map Prod.snd]) = _
    rw [flattenChunk_widened hw (hLength r hr) (by simp), hJoined]
    rfl
  · unfold expandRowsAt
    rw [← List.flatMap_id, List.flatMap_assoc]
    refine List.flatMap_congr fun r _ => ?_
    rw [List.flatMap_id, List.map_flatten]
  · intro r' hr'
    obtain ⟨r, hr, hMem⟩ := List.mem_flatMap.mp hr'
    obtain ⟨n, -, rfl⟩ := List.mem_map.mp hMem
    simp [hLength r hr]

/-- Flatten other columns: nothing comes out of it if a row has a neighbour. -/
theorem expand_flatten_misplaced (hw : 0 < w) (h : Tabled w chunks rows)
    (hPairs : Pairs source edgeLabels targetLabels pairs) {m : Nat} (hm : m < w)
    (hRow : expandRows pairs rows ≠ []) {expanded : List Chunk}
    (hExpand : expand source 0 edgeLabels targetLabels chunks = .ok expanded) :
    flatten [m, m + 1] expanded = .error .panicked := by
  rw [expand_tabled hw h, Except.ok.injEq] at hExpand
  have hNe : expanded ≠ [] := by
    obtain ⟨r', hr'⟩ := List.exists_mem_of_ne_nil _ hRow
    obtain ⟨r, hr, hMem⟩ := List.mem_flatMap.mp hr'
    obtain ⟨n, hn, -⟩ := List.mem_map.mp hMem
    obtain ⟨b, hb, -⟩ := List.mem_flatten.mp hn
    have hBatch : widened w r [b.map Prod.fst, b.map Prod.snd] ∈
        ((source (r.getD 0 0) edgeLabels targetLabels).getD []).map (widened w r) := by
      rw [hPairs, List.map_map]
      exact List.mem_map_of_mem hb
    rw [← hExpand]
    exact List.ne_nil_of_mem (List.mem_flatMap.mpr ⟨r, hr, hBatch⟩)
  obtain ⟨c, rest, hCons⟩ := List.exists_cons_of_ne_nil hNe
  -- the first chunk fails
  obtain ⟨r, -, hMem⟩ : ∃ r ∈ rows, c ∈ ((source (r.getD 0 0) edgeLabels targetLabels).getD []).map
      (widened w r) := List.mem_flatMap.mp (by rw [hExpand, hCons]; exact List.mem_cons_self ..)
  obtain ⟨batch, -, rfl⟩ := List.mem_map.mp hMem
  unfold flatten
  rw [if_neg (by simp), hCons, List.mapM_cons, flattenChunk_misplaced hm]
  rfl

theorem expandChunk_nothing {c : Chunk} {l : List Chunk} {index : Nat}
    (hSource : ∀ v, (source v edgeLabels targetLabels).getD [] = [])
    (hExpand : expandChunk source index edgeLabels targetLabels c = .ok l) : l = [] := by
  have hRow : ∀ chunk vertex i,
      expandRow source edgeLabels targetLabels chunk vertex i = .ok [] := by
    intro chunk vertex i
    have hNone := hSource vertex
    unfold expandRow
    cases hs : source vertex edgeLabels targetLabels with
    | none => rfl
    | some expandIter =>
      rw [hs] at hNone
      obtain rfl : expandIter = [] := hNone
      rfl
  unfold expandChunk at hExpand
  dsimp only at hExpand
  split at hExpand
  · exact (Except.ok.inj hExpand).symm
  · split at hExpand
    · cases hExpand
    · rename_i inputColumn _
      have hAll := mapM_eq_ok (l := inputColumn.zipIdx) fun p _ => hRow c.compact p.1 p.2
      rw [hAll, ok_bind, Except.ok.injEq] at hExpand
      rw [← hExpand]
      simp

theorem expand_nothing {expanded : List Chunk} {index : Nat}
    (hSource : ∀ v, (source v edgeLabels targetLabels).getD [] = [])
    (hExpand : expand source index edgeLabels targetLabels chunks = .ok expanded) :
    expanded = [] := by
  unfold expand at hExpand
  obtain ⟨results, hResults, hFlatten⟩ := bind_ok_iff.mp hExpand
  obtain rfl := Except.ok.inj hFlatten
  refine List.flatten_eq_nil_iff.mpr fun l hl => ?_
  have hMem : Except.ok l ∈ chunks.map (expandChunk source index edgeLabels targetLabels) := by
    rw [mapM_ok_iff.mp hResults]
    exact List.mem_map_of_mem hl
  obtain ⟨c, -, hc⟩ := List.mem_map.mp hMem
  exact expandChunk_nothing hSource hc

end Executor

end MiniGU
