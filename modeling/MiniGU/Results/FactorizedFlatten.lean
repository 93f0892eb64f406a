import MiniGU.Invariant.ResultTuples
import MiniGU.Model.FactorizedExecutor

/-!
# What a flatten keeps

A flatten merges an unflat chunk into the first flat one, which becomes the last chunk, and emits
a result set for each row of the target. Both chunks are taken out by swap-removal, so that other
chunks may change their places, and a column keeps its place only where nothing has moved.
-/

namespace MiniGU

open FactorizedExecutor

variable {Ty Val : Type}

-- ----
-- The merged chunk
-- ----

section Replicated

variable {cur n : Nat} {columns reps : List (ArrayRef Ty Val)}

theorem replicateColumn_ok {a a' : ArrayRef Ty Val} (h : replicateColumn cur n a = .ok a') :
    ∃ v, a.values[cur]? = some v ∧ a' = { a with values := List.replicate n v } := by
  unfold replicateColumn at h
  split at h
  · cases h
  · rename_i v hv
    exact ⟨v, hv, (Except.ok.inj h).symm⟩

theorem length_replicated (h : columns.map (replicateColumn cur n) = reps.map .ok) :
    ∀ a ∈ reps, a.values.length = n := by
  intro a ha
  have hMem : Except.ok a ∈ columns.map (replicateColumn cur n) :=
    h ▸ List.mem_map_of_mem ha
  obtain ⟨column, -, hColumn⟩ := List.mem_map.mp hMem
  obtain ⟨v, -, rfl⟩ := replicateColumn_ok hColumn
  exact List.length_replicate

/-- Each row of the repeated columns is the row at the cursor. -/
theorem row_replicated (h : columns.map (replicateColumn cur n) = reps.map .ok) {r : Nat}
    (hr : r < n) : (reps.filterMap fun a => a.values[r]?) =
      columns.filterMap fun a => a.values[cur]? := by
  induction columns generalizing reps with
  | nil =>
    obtain rfl := List.map_eq_nil_iff.mp h.symm
    rfl
  | cons a columns ih =>
    match reps, h with
    | a' :: reps, h =>
      obtain ⟨hHead, hTail⟩ := List.cons.inj h
      obtain ⟨v, hv, rfl⟩ := replicateColumn_ok hHead
      have hRow : (List.replicate n v)[r]? = some v := by simp [hr]
      rw [List.filterMap_cons, List.filterMap_cons, hv, hRow, ih hTail]

theorem getElem?_replicated (h : columns.map (replicateColumn cur n) = reps.map .ok) {j : Nat}
    {a : ArrayRef Ty Val} (hj : columns[j]? = some a) : ∃ v, a.values[cur]? = some v ∧
      reps[j]? = some { a with values := List.replicate n v } := by
  have hAt := congrArg (fun l => l[j]?) h
  simp only [List.getElem?_map, hj, Option.map_some] at hAt
  obtain ⟨a', ha', hEq⟩ := Option.map_eq_some_iff.mp hAt.symm
  obtain ⟨v, hv, rfl⟩ := replicateColumn_ok hEq.symm
  exact ⟨v, hv, ha'⟩

end Replicated

section Flatten

variable {rs : ResultSet Ty Val} {f target : Nat} {c : DataChunk Ty Val}

theorem flat_of_first (h : rs.getFlatChunks.head? = some f) :
    ∃ flat, rs.getDataChunk f = some flat ∧ flat.isUnflat = false := by
  have hMem := List.mem_of_head? h
  obtain ⟨⟨flat, i⟩, hp, rfl⟩ := List.mem_map.mp hMem
  obtain ⟨hAt, hFlat⟩ := List.mem_filter.mp hp
  exact ⟨flat, List.mem_zipIdx_iff_getElem?.mp hAt, by simpa using hFlat⟩

/-- The first flat chunk is repeated along the target, and put before it. -/
theorem flattenResultSet_eq (hrs : rs.WellFormed) (hFirst : rs.getFlatChunks.head? = some f)
    (hTarget : rs.getDataChunk target = some c) (hUnflat : c.isUnflat = true) :
    ∃ flat cur reps, rs.getDataChunk f = some flat ∧ flat.curIdx = some cur ∧
      flat.columns.map (replicateColumn cur c.len) = reps.map .ok ∧
      flattenResultSet target rs = .ok ((List.range c.len).map fun row =>
        (rs.removeMultipleChunks [f, target]).push
          ((DataChunk.new (reps ++ c.columns)).setCurIdx (some row))) := by
  obtain ⟨flat, hFlatAt, hFlat⟩ := flat_of_first hFirst
  have hFlatWf := hrs flat (List.mem_of_getElem? hFlatAt)
  have hWf := hrs c (List.mem_of_getElem? hTarget)
  cases hCur : flat.curIdx with
  | none =>
    rw [DataChunk.isUnflat, hCur] at hFlat
    cases hFlat
  | some cur =>
    have hBound := hFlatWf.curIdx cur hCur
    obtain ⟨reps, hReps⟩ : ∃ reps : List (ArrayRef Ty Val), flat.columns.map (replicateColumn cur c.len) = reps.map .ok := by
      refine exists_map_ok fun a ha => ?_
      have hRow : cur < a.values.length := (hFlatWf.lengths a ha).symm ▸ hBound
      refine ⟨{ a with values := List.replicate c.len a.values[cur] }, ?_⟩
      rw [replicateColumn, List.getElem?_eq_getElem hRow]
    have hLengths : ∀ a ∈ reps ++ c.columns, a.values.length = c.len := by
      intro a ha
      rcases List.mem_append.mp ha with ha | ha
      · exact length_replicated hReps a ha
      · exact hWf.lengths a ha
    have hNe : reps ++ c.columns ≠ [] := fun h => hWf.columns (List.append_eq_nil_iff.mp h).2
    have hLen : (DataChunk.new (reps ++ c.columns)).len = c.len := by
      unfold DataChunk.len DataChunk.new
      cases hColumns : reps ++ c.columns with
      | nil => exact absurd hColumns hNe
      | cons a as => exact hLengths a (hColumns ▸ List.mem_cons_self)
    have hNew : newChunk (reps ++ c.columns) = .ok (DataChunk.new (reps ++ c.columns)) :=
      if_pos ⟨hNe, fun a ha => (hLengths a ha).trans hLen.symm⟩
    refine ⟨flat, cur, reps, hFlatAt, hCur, hReps, ?_⟩
    unfold flattenResultSet
    simp only [hTarget, hFirst, hFlatAt, Option.map_some, hCur, if_pos hUnflat,
      mapM_ok_iff.mpr hReps, ok_bind, hNew]

end Flatten

-- ----
-- Where the chunks go
-- ----

/-- The places of the chunks after a flatten, the two that are merged last. -/
def flattenOrder (n f target : Nat) : List Nat :=
  swapRemoveAll (List.range n) [f, target] ++ [f, target]

/-- A tuple after a flatten: the rows of the two chunks are laid end to end, and come last. -/
def flattenedRow (f target : Nat) (t : List (List Val)) : List (List Val) :=
  swapRemoveAll t [f, target] ++ [t.getD f [] ++ t.getD target []]

/-- Where a column is found after a flatten; the flat chunk has `width` columns. -/
def flattenedPos (n f target width : Nat) (pos : DataPos) : DataPos :=
  let rest := swapRemoveAll (List.range n) [f, target]
  if pos.dataChunkPos = f then ⟨rest.length, pos.columnPos⟩
  else if pos.dataChunkPos = target then ⟨rest.length, width + pos.columnPos⟩
  else ⟨rest.idxOf pos.dataChunkPos, pos.columnPos⟩

section Order

variable {n f target : Nat}

theorem flattenOrder_perm (hf : f < n) (ht : target < n) (hne : f ≠ target) :
    (flattenOrder n f target).Perm (List.range n) := by
  have hPerm := perm_swapRemoveAll hne (List.getElem?_range hf) (List.getElem?_range ht)
  exact List.perm_append_comm.trans hPerm.symm

theorem map_range_getD {α : Type} (l : List α) (d : α) :
    (List.range l.length).map (fun i => l.getD i d) = l := by
  refine List.ext_getElem (by simp) fun i hi _ => ?_
  rw [List.length_map, List.length_range] at hi
  simp [hi]

/-- Taking out the two chunks is reading the others in their new order. -/
theorem map_flattenOrder {α : Type} (l : List α) (d : α) :
    (flattenOrder l.length f target).map (fun i => l.getD i d) =
      swapRemoveAll l [f, target] ++ [l.getD f d, l.getD target d] := by
  unfold flattenOrder
  rw [List.map_append, map_swapRemoveAll, map_range_getD]
  rfl

/-- The last two rows, laid end to end. -/
def glueLast (t : List (List Val)) : List (List Val) :=
  match t.reverse with
  | y :: x :: front => front.reverse ++ [x ++ y]
  | _ => t

theorem glueLast_append (front : List (List Val)) (x y : List Val) :
    glueLast (front ++ [x, y]) = front ++ [x ++ y] := by
  simp [glueLast]

theorem glueLast_order (t : List (List Val)) :
    glueLast ((flattenOrder t.length f target).map fun i => t.getD i []) =
      flattenedRow f target t := by
  rw [map_flattenOrder, glueLast_append]
  rfl

end Order

-- ----
-- The tuples
-- ----

section Tuples

variable {rs : ResultSet Ty Val} {f target : Nat} {c : DataChunk Ty Val}

theorem picks_concat_singleton {α : Type} (ls : List (List α)) (a : α) :
    picks (ls ++ [[a]]) = (picks ls).map fun p => p ++ [a] := by
  rw [picks_append]
  exact List.flatMap_pure_eq_map ..

/-- What an emitted result set stands for, the merged chunk being at one row. -/
theorem tupleRows_emitted {positions : List Nat} {m : DataChunk Ty Val} {i : Nat}
    (hm : m.curIdx = some i) :
    ((rs.removeMultipleChunks positions).push m).tupleRows =
      (List.replicate rs.factor ()).flatMap fun _ =>
        (picks (swapRemoveAll (rs.dataChunks.map DataChunk.standsFor) positions)).map fun p =>
          p ++ [m.rowAt i] := by
  have hRow : m.standsFor = [m.rowAt i] := by
    unfold DataChunk.standsFor DataChunk.places
    rw [hm]
    rfl
  rw [tupleRows_eq]
  unfold ResultSet.push ResultSet.removeMultipleChunks
  simp only [List.map_append, List.map_singleton, map_swapRemoveAll, hRow,
    picks_concat_singleton]

/-- The products with a flat row and with each row of the target are the tuples, merged. -/
theorem perm_picks_merged {rows : List (List (List Val))} (hf : f < rows.length)
    (ht : target < rows.length) (hne : f ≠ target) {x : List Val} (hx : rows[f]? = some [x])
    {ys : List (List Val)} (hys : rows[target]? = some ys) :
    (ys.flatMap fun y => (picks (swapRemoveAll rows [f, target])).map fun p => p ++ [x ++ y]).Perm
      ((picks rows).map (flattenedRow f target)) := by
  have hReindex := (perm_picks_reindex rows [] (flattenOrder_perm hf ht hne)).map glueLast
  rw [map_flattenOrder, List.getD_eq_getElem?_getD, List.getD_eq_getElem?_getD, hx, hys,
    picks_append, List.map_map] at hReindex
  have hGlue : (picks rows).map (glueLast ∘ fun p => (flattenOrder rows.length f target).map fun i =>
      p.getD i []) = (picks rows).map (flattenedRow f target) := by
    refine List.map_congr_left fun p hp => ?_
    rw [Function.comp_apply, ← length_of_mem_picks hp]
    exact glueLast_order p
  have hSingles : (picks [ys] : List (List (List Val))) = ys.map fun y => [y] := by
    simp [picks, List.map_eq_flatMap]
  have hPairs : picks [[x], ys] = ys.map fun y => [x, y] := by
    rw [picks, hSingles, List.flatMap_singleton, List.map_map]
    rfl
  have hGlued : (((picks (swapRemoveAll rows [f, target])).flatMap fun p =>
      (picks [[x], ys]).map fun q => p ++ q).map glueLast) =
        (picks (swapRemoveAll rows [f, target])).flatMap fun p => ys.map fun y => p ++ [x ++ y] := by
    rw [hPairs, List.map_flatMap]
    simp only [List.map_map, Function.comp_def, glueLast_append]
  have hComm := flatMap_comm_perm ys (picks (swapRemoveAll rows [f, target])) fun y p =>
    [p ++ [x ++ y]]
  simp only [← List.map_eq_flatMap] at hComm
  rw [hGlue] at hReindex
  refine hComm.trans ((List.Perm.of_eq hGlued.symm).trans hReindex.symm)

theorem getElem?_left (rs : ResultSet Ty Val) {n : Nat} (hn : n = rs.dataChunks.length) (positions : List Nat) (k : Nat) :
    (swapRemoveAll rs.dataChunks positions)[k]?.map some =
      (swapRemoveAll (List.range n) positions)[k]?.map fun i => rs.dataChunks[i]? := by
  have hAll : rs.dataChunks.map some = (List.range n).map fun i => rs.dataChunks[i]? := by
    subst hn
    refine List.ext_getElem (by simp) fun i hi _ => ?_
    rw [List.length_map] at hi
    simp [hi]
  have hMap := map_swapRemoveAll some rs.dataChunks positions
  rw [hAll, ← map_swapRemoveAll] at hMap
  simpa using congrArg (fun l => l[k]?) hMap

theorem length_left (rs : ResultSet Ty Val) {n : Nat} (hn : n = rs.dataChunks.length) (positions : List Nat) :
    (swapRemoveAll rs.dataChunks positions).length =
      (swapRemoveAll (List.range n) positions).length := by
  have hSame : rs.dataChunks.map (fun _ => ()) = (List.range n).map fun _ => () := by
    simp [hn]
  have hUnits := map_swapRemoveAll (fun _ => ()) rs.dataChunks positions
  rw [hSame, ← map_swapRemoveAll] at hUnits
  have hLength := congrArg List.length hUnits
  rwa [List.length_map, List.length_map] at hLength

theorem rowAt_merged {flat : DataChunk Ty Val} {cur : Nat} {reps : List (ArrayRef Ty Val)}
    (hReps : flat.columns.map (replicateColumn cur c.len) = reps.map .ok) {row : Nat}
    (hRow : row < c.len) :
    ((DataChunk.new (reps ++ c.columns)).setCurIdx (some row)).rowAt row =
      flat.rowAt cur ++ c.rowAt row := by
  unfold DataChunk.rowAt DataChunk.new DataChunk.setCurIdx
  rw [List.filterMap_append, row_replicated hReps hRow]

/-- Where the columns of the chunks are found in an emitted result set. -/
theorem getColumn_flattened {flat : DataChunk Ty Val} {cur : Nat}
    {reps : List (ArrayRef Ty Val)} (hFlat : rs.getDataChunk f = some flat)
    (hTarget : rs.getDataChunk target = some c) (hne : f ≠ target)
    (hReps : flat.columns.map (replicateColumn cur c.len) = reps.map .ok) (row : Nat)
    {pos : DataPos} {column : ArrayRef Ty Val} (hColumn : rs.getColumn pos = some column) :
    ∃ column', ((rs.removeMultipleChunks [f, target]).push
        ((DataChunk.new (reps ++ c.columns)).setCurIdx (some row))).getColumn
          (flattenedPos rs.dataChunks.length f target flat.columns.length pos) = some column' ∧
      column'.dataType = column.dataType ∧ (pos.dataChunkPos ≠ f → column' = column) ∧
      (pos.dataChunkPos = f → ∃ v, column.values[cur]? = some v ∧
        column'.values = List.replicate c.len v) := by
  have hf : f < rs.dataChunks.length := (List.getElem?_eq_some_iff.mp hFlat).1
  have ht : target < rs.dataChunks.length := (List.getElem?_eq_some_iff.mp hTarget).1
  obtain ⟨chunk, hChunk, hAt⟩ := Option.bind_eq_some_iff.mp hColumn
  have hLeft := length_left rs rfl [f, target]
  have hLast : ((rs.removeMultipleChunks [f, target]).push
      ((DataChunk.new (reps ++ c.columns)).setCurIdx (some row))).getDataChunk
        (swapRemoveAll (List.range rs.dataChunks.length) [f, target]).length =
      some ((DataChunk.new (reps ++ c.columns)).setCurIdx (some row)) := by
    unfold ResultSet.getDataChunk ResultSet.push ResultSet.removeMultipleChunks
    rw [← hLeft]
    exact List.getElem?_concat_length
  have hWidth : reps.length = flat.columns.length := by
    have hLength := congrArg List.length hReps
    rw [List.length_map, List.length_map] at hLength
    exact hLength.symm
  unfold flattenedPos
  by_cases hPosF : pos.dataChunkPos = f
  · obtain rfl : flat = chunk := by
      rw [hPosF, hFlat] at hChunk
      exact Option.some.inj hChunk
    obtain ⟨v, hv, hRep⟩ := getElem?_replicated hReps hAt
    have hBound : pos.columnPos < reps.length := (List.getElem?_eq_some_iff.mp hRep).1
    refine ⟨{ column with values := List.replicate c.len v }, ?_, rfl,
      fun h => absurd hPosF h, fun _ => ⟨v, hv, rfl⟩⟩
    rw [if_pos hPosF, ResultSet.getColumn, hLast, Option.bind_some]
    show (reps ++ c.columns)[pos.columnPos]? = _
    rw [List.getElem?_append_left hBound, hRep]
  · by_cases hPosT : pos.dataChunkPos = target
    · obtain rfl : c = chunk := by
        rw [hPosT, hTarget] at hChunk
        exact Option.some.inj hChunk
      refine ⟨column, ?_, rfl, fun _ => rfl, fun h => absurd h hPosF⟩
      rw [if_neg hPosF, if_pos hPosT, ResultSet.getColumn, hLast, Option.bind_some]
      show (reps ++ c.columns)[flat.columns.length + pos.columnPos]? = _
      rw [← hWidth, List.getElem?_append_right (Nat.le_add_right _ _), Nat.add_sub_cancel_left,
        hAt]
    · refine ⟨column, ?_, rfl, fun _ => rfl, fun h => absurd h hPosF⟩
      have hBound : pos.dataChunkPos < rs.dataChunks.length :=
        (List.getElem?_eq_some_iff.mp hChunk).1
      have hRest : pos.dataChunkPos ∈
          swapRemoveAll (List.range rs.dataChunks.length) [f, target] := by
        have hMem := (flattenOrder_perm hf ht hne).mem_iff.mpr (List.mem_range.mpr hBound)
        rcases List.mem_append.mp hMem with hMem | hMem
        · exact hMem
        · simp [hPosF, hPosT] at hMem
      have hIdx := List.idxOf_lt_length_of_mem hRest
      have hChunkAt := getElem?_left rs rfl [f, target]
        ((swapRemoveAll (List.range rs.dataChunks.length) [f, target]).idxOf pos.dataChunkPos)
      rw [List.getElem?_eq_getElem hIdx, List.getElem_idxOf, Option.map_some,
        show rs.dataChunks[pos.dataChunkPos]? = some chunk from hChunk] at hChunkAt
      obtain ⟨chunk', hAt', hSame⟩ := Option.map_eq_some_iff.mp hChunkAt
      obtain rfl := Option.some.inj hSame
      have hKeptChunk : ((rs.removeMultipleChunks [f, target]).push
          ((DataChunk.new (reps ++ c.columns)).setCurIdx (some row))).getDataChunk
          ((swapRemoveAll (List.range rs.dataChunks.length) [f, target]).idxOf
            pos.dataChunkPos) = some chunk' := by
        unfold ResultSet.getDataChunk ResultSet.push ResultSet.removeMultipleChunks
        rw [List.getElem?_append_left (hLeft ▸ hIdx)]
        exact hAt'
      rw [if_neg hPosF, if_neg hPosT, ResultSet.getColumn, hKeptChunk, Option.bind_some]
      exact hAt

/-- **A flatten keeps the tuples of a target that drops no row**, merged; the columns of the flat
chunk and of the target are found in the last chunk, in this order, and those of the other chunks
where the swap-removal has left these. -/
theorem flatten_keeps_tuples (hrs : rs.WellFormed) (hFirst : rs.getFlatChunks.head? = some f)
    (hTarget : rs.getDataChunk target = some c) (hUnflat : c.isUnflat = true)
    (hKept : c.keptRows = List.range c.len) :
    ∃ flat cur outs, rs.getDataChunk f = some flat ∧ flat.curIdx = some cur ∧
      flattenResultSet target rs = .ok outs ∧
      (outs.flatMap ResultSet.tupleRows).Perm (rs.tupleRows.map (flattenedRow f target)) ∧
      ∀ o ∈ outs, ∀ pos column, rs.getColumn pos = some column → ∃ column',
        o.getColumn (flattenedPos rs.dataChunks.length f target flat.columns.length pos) =
          some column' ∧ column'.dataType = column.dataType ∧
        (pos.dataChunkPos ≠ f → column' = column) ∧
        (pos.dataChunkPos = f → ∃ v, column.values[cur]? = some v ∧
          column'.values = List.replicate c.len v) := by
  obtain ⟨flat, cur, reps, hFlat, hCur, hReps, hRun⟩ :=
    flattenResultSet_eq hrs hFirst hTarget hUnflat
  have hf : f < rs.dataChunks.length := (List.getElem?_eq_some_iff.mp hFlat).1
  have ht : target < rs.dataChunks.length := (List.getElem?_eq_some_iff.mp hTarget).1
  have hne : f ≠ target := by
    rintro rfl
    obtain rfl : flat = c := Option.some.inj (hFlat.symm.trans hTarget)
    rw [DataChunk.isUnflat, hCur] at hUnflat
    cases hUnflat
  refine ⟨flat, cur, _, hFlat, hCur, hRun, ?_, ?_⟩
  · have hFlatRow : (rs.dataChunks.map DataChunk.standsFor)[f]? = some [flat.rowAt cur] := by
      have hPlaces : flat.places = [cur] := by rw [DataChunk.places, hCur]
      rw [List.getElem?_map, show rs.dataChunks[f]? = some flat from hFlat, Option.map_some,
        DataChunk.standsFor, hPlaces]
      rfl
    have hTargetRows : (rs.dataChunks.map DataChunk.standsFor)[target]? =
        some ((List.range c.len).map c.rowAt) := by
      have hPlaces : c.places = List.range c.len := by
        rw [DataChunk.places, Option.isNone_iff_eq_none.mp hUnflat, hKept]
      rw [List.getElem?_map, show rs.dataChunks[target]? = some c from hTarget, Option.map_some,
        DataChunk.standsFor, hPlaces]
    have hEmitted : ((List.range c.len).map fun row => (rs.removeMultipleChunks [f, target]).push
        ((DataChunk.new (reps ++ c.columns)).setCurIdx (some row))).flatMap ResultSet.tupleRows =
        (List.range c.len).flatMap fun row => (List.replicate rs.factor ()).flatMap fun _ =>
          (picks (swapRemoveAll (rs.dataChunks.map DataChunk.standsFor) [f, target])).map fun p =>
            p ++ [flat.rowAt cur ++ c.rowAt row] := by
      rw [List.flatMap_map]
      refine List.flatMap_congr fun row hRow => ?_
      rw [tupleRows_emitted (i := row) rfl, rowAt_merged hReps (List.mem_range.mp hRow)]
    rw [hEmitted, tupleRows_eq, List.map_flatMap]
    refine (flatMap_comm_perm _ _ _).trans (List.Perm.flatMap_left _ fun _ _ => ?_)
    have hMerged := perm_picks_merged (by rwa [List.length_map]) (by rwa [List.length_map]) hne
      hFlatRow hTargetRows
    rwa [List.flatMap_map] at hMerged
  · intro o ho pos column hColumn
    obtain ⟨row, -, rfl⟩ := List.mem_map.mp ho
    exact getColumn_flattened hFlat hTarget hne hReps row hColumn

end Tuples

-- ----
-- Two runs
-- ----

/-- A flat chunk at its second row, and two unflat ones; the filter is that of the first of them. -/
def flatAndTwo (filter : Option (List Bool)) : ResultSet Unit Nat where
  factor := 1
  dataChunks := [
    ⟨[⟨(), [1, 2]⟩], none, some 1⟩,
    ⟨[⟨(), [100, 200]⟩], filter, none⟩,
    ⟨[⟨(), [7]⟩], none, none⟩]

theorem wellFormed_flatAndTwo {filter : Option (List Bool)} (h : ∀ l ∈ filter, l.length = 2) :
    (flatAndTwo filter).WellFormed := by
  intro c hc
  rcases List.mem_cons.mp hc with rfl | hc
  · exact ⟨by decide, by decide, fun l hl => (by cases hl), fun i hi => by cases hi; decide⟩
  · rcases List.mem_cons.mp hc with rfl | hc
    · exact ⟨List.cons_ne_nil _ _, by simp [DataChunk.len], fun l hl => h l hl,
        fun i hi => (by cases hi)⟩
    · obtain rfl := List.mem_singleton.mp hc
      exact ⟨by decide, by decide, fun l hl => (by cases hl), fun i hi => (by cases hi)⟩

theorem flatten_keeps_tuples_flatAndTwo : ∃ flat cur outs,
    (flatAndTwo none).getDataChunk 0 = some flat ∧ flat.curIdx = some cur ∧
    flattenResultSet 1 (flatAndTwo none) = .ok outs ∧
    (outs.flatMap ResultSet.tupleRows).Perm ((flatAndTwo none).tupleRows.map (flattenedRow 0 1)) ∧
    ∀ o ∈ outs, ∀ pos column, (flatAndTwo none).getColumn pos = some column → ∃ column',
      o.getColumn (flattenedPos 3 0 1 flat.columns.length pos) = some column' ∧
      column'.dataType = column.dataType ∧ (pos.dataChunkPos ≠ 0 → column' = column) ∧
      (pos.dataChunkPos = 0 → ∃ v, column.values[cur]? = some v ∧
        column'.values = List.replicate 2 v) := by
  have hWf : (flatAndTwo none).WellFormed := wellFormed_flatAndTwo fun l hl => by cases hl
  have hFirst : (flatAndTwo none).getFlatChunks.head? = some 0 := rfl
  have hTarget : (flatAndTwo none).getDataChunk 1 = some ⟨[⟨(), [100, 200]⟩], none, none⟩ := rfl
  exact flatten_keeps_tuples hWf hFirst hTarget rfl rfl

/-- The second row of the target is dropped, and emitted; the last chunk is no longer where it
was. -/
theorem flatten_moves_columns : (flatAndTwo (some [true, false])).WellFormed ∧
    (flatAndTwo (some [true, false])).tupleRows = [[[2], [100], [7]]] ∧
    (flatAndTwo (some [true, false])).getColumn ⟨2, 0⟩ = some ⟨(), [7]⟩ ∧
    ∃ outs, flattenResultSet 1 (flatAndTwo (some [true, false])) = .ok outs ∧
      outs.flatMap ResultSet.tupleRows = [[[7], [2, 100]], [[7], [2, 200]]] ∧
      ∀ o ∈ outs, o.getColumn ⟨2, 0⟩ = none := by
  refine ⟨wellFormed_flatAndTwo fun l hl => ?_, by decide, rfl, _, rfl, by decide, by decide⟩
  obtain rfl := Option.some.inj hl
  rfl

end MiniGU
