import MiniGU.Invariant.Tables
import MiniGU.Model.FactorizedExecutor

/-!
# What a result set holds

A result set inside a plan is a list of parts, each a chunk of ids with the columns of the flat
rows that it stands for: a flat part stands for the one row at its cursor, an unflat one for all
its rows. An expand adds a part, unless the vertex has no neighbour; a flatten merges two.
-/

namespace MiniGU

/-- Whether a chunk is flat, and which columns of the flat rows it holds. -/
structure Slot where
  flat : Bool
  cols : List Nat
deriving DecidableEq, Repr

/-- The chunk stands for the given rows of as many ids as the slot has columns. -/
inductive Fits : Slot → Chunk → List (List Nat) → Prop
  | flat {cols : List Nat} {all : List (List Nat)} {i : Nat} {r : List Nat} (hCols : cols ≠ [])
      (hAll : ∀ r ∈ all, r.length = cols.length) (hi : all[i]? = some r) :
      Fits ⟨true, cols⟩ ((table cols.length all).setCurIdx (some i)) [r]
  | unflat {cols : List Nat} {all : List (List Nat)} (hCols : cols ≠ [])
      (hAll : ∀ r ∈ all, r.length = cols.length) (hRows : all ≠ []) :
      Fits ⟨false, cols⟩ (table cols.length all).setUnflat all

namespace Fits

variable {s : Slot} {c : Chunk} {rows : List (List Nat)}

theorem rows_ne_nil (h : Fits s c rows) : rows ≠ [] := by
  cases h with
  | flat => simp
  | unflat _ _ hRows => exact hRows

theorem length_of_mem (h : Fits s c rows) {r : List Nat} (hr : r ∈ rows) :
    s.cols.length = r.length := by
  cases h with
  | flat _ hAll hi =>
    rw [List.mem_singleton.mp hr]
    exact (hAll _ (List.mem_of_getElem? hi)).symm
  | unflat _ hAll _ => exact (hAll r hr).symm

theorem isUnflat (h : Fits s c rows) : c.isUnflat = !s.flat := by
  cases h <;> rfl

end Fits

/-- A chunk of a result set with what it stands for. -/
structure Part where
  slot : Slot
  chunk : Chunk
  rows : List (List Nat)
  fits : Fits slot chunk rows

namespace Part

/-- The columns and the rows of a part. -/
def factor (x : Part) : List Nat × List (List Nat) := (x.slot.cols, x.rows)

end Part

/-- The result set of the parts. -/
def ofParts (P : List Part) : IdResultSet := ⟨1, P.map Part.chunk⟩

section OfParts

variable {P : List Part}

theorem getDataChunk_ofParts (pos : Nat) :
    (ofParts P).getDataChunk pos = P[pos]?.map Part.chunk := by
  unfold ResultSet.getDataChunk ofParts
  rw [List.getElem?_map]

theorem head?_filter_zipIdx {α : Type} (p : α → Bool) (l : List α) (k : Nat) :
    (((l.zipIdx k).filter fun x => p x.1).map Prod.snd).head? = (l.findIdx? p).map (· + k) := by
  induction l generalizing k with
  | nil => rfl
  | cons a l ih =>
    rw [List.zipIdx_cons, List.findIdx?_cons]
    cases ha : p a with
    | true => simp [ha]
    | false =>
      rw [List.filter_cons_of_neg (by simp [ha]), ih]
      simp [Nat.add_comm 1]

theorem getFlatChunks_ofParts :
    (ofParts P).getFlatChunks.head? = P.findIdx? fun x => x.slot.flat := by
  unfold ResultSet.getFlatChunks ofParts
  rw [head?_filter_zipIdx (fun c : Chunk => !c.isUnflat), List.findIdx?_map]
  have hFlat : (fun c : Chunk => !c.isUnflat) ∘ Part.chunk = fun x => x.slot.flat := by
    funext x
    simp [x.fits.isUnflat]
  rw [hFlat]
  simp

theorem push_ofParts (x : Part) : (ofParts P).push x.chunk = ofParts (P ++ [x]) := by
  unfold ResultSet.push ofParts
  rw [List.map_append]
  rfl

theorem removeMultipleChunks_ofParts (positions : List Nat) :
    (ofParts P).removeMultipleChunks positions = ofParts (swapRemoveAll P positions) := by
  unfold ResultSet.removeMultipleChunks ofParts
  rw [map_swapRemoveAll]

end OfParts

/-! ## Tuples -/

/-- The rows that a chunk of a result set stands for. -/
def chunkRows (c : Chunk) : List (List (Option Nat)) :=
  match c.curIdx with
  | none => idRows c
  | some i => if i < c.len then [idRow c i] else []

/-- The tuples that a result set stands for, `factor` times each. -/
def tuples (rs : IdResultSet) : List (List (Option Nat)) :=
  (List.replicate rs.factor ((picks (rs.dataChunks.map chunkRows)).map List.flatten)).flatten

theorem idRow_table {w i : Nat} (hw : 0 < w) {all : List (List Nat)} {r : List Nat}
    (hAll : ∀ r ∈ all, r.length = w) (hi : all[i]? = some r) :
    idRow (table w all) i = r.map some := by
  have hRows := congrArg (fun l => l[i]?) (idRows_table hw hAll)
  have hBound := (List.getElem?_eq_some_iff.mp hi).1
  unfold idRows at hRows
  simp only [table_keptRows hw, List.getElem?_map, List.getElem?_range hBound, hi,
    Option.map_some, Option.some.injEq] at hRows
  exact hRows

theorem Fits.chunkRows {s : Slot} {c : Chunk} {rows : List (List Nat)} (h : Fits s c rows) :
    chunkRows c = rows.map (List.map some) := by
  cases h with
  | @flat cols all i r hCols hAll hi =>
    have hWidth : 0 < cols.length := List.length_pos_iff.mpr hCols
    have hBound := (List.getElem?_eq_some_iff.mp hi).1
    have hLen : ((table cols.length all).setCurIdx (some i)).len = all.length := table_len hWidth
    show (if i < ((table cols.length all).setCurIdx (some i)).len then _ else _) = _
    rw [hLen, if_pos hBound]
    exact congrArg (fun row => [row]) (idRow_table hWidth hAll hi)
  | unflat hCols hAll _ => exact idRows_table (List.length_pos_iff.mpr hCols) hAll

namespace Part

def cols (P : List Part) : List Nat := P.flatMap fun x => x.slot.cols

theorem cols_eq (P : List Part) : (P.map factor).flatMap Prod.fst = cols P := by
  rw [List.flatMap_map]
  rfl

theorem pairwise_apart {P : List Part} (h : (cols P).Nodup) : (P.map factor).Pairwise Apart := by
  unfold cols at h
  rw [List.pairwise_map]
  exact (List.nodup_flatMap.mp h).2

theorem nodup_cols {P : List Part} (h : (cols P).Nodup) {x : Part} (hx : x ∈ P) :
    x.slot.cols.Nodup := (List.nodup_flatMap.mp h).1 x hx

/-- The assignments that a result set stands for. -/
def assigned (P : List Part) : List (Nat → Nat) := assignments (fun _ => 0) (P.map factor)

theorem assigned_ne_nil (P : List Part) : assigned P ≠ [] := by
  intro h
  obtain ⟨f, hf, hNil⟩ := assignments_eq_nil.mp h
  obtain ⟨x, -, rfl⟩ := List.mem_map.mp hf
  exact x.fits.rows_ne_nil hNil

end Part

theorem tuples_ofParts {P : List Part} (h : (Part.cols P).Nodup) :
    tuples (ofParts P) = (Part.assigned P).map fun τ => ((Part.cols P).map τ).map some := by
  have hRows : (P.map Part.chunk).map chunkRows = (P.map fun x => x.rows).map (List.map (List.map some)) := by
    rw [List.map_map, List.map_map]
    exact List.map_congr_left fun x _ => x.fits.chunkRows
  have hLengths : ∀ f ∈ P.map Part.factor, ∀ r ∈ f.2, f.1.length = r.length := by
    intro f hf r hr
    obtain ⟨x, -, rfl⟩ := List.mem_map.mp hf
    exact x.fits.length_of_mem hr
  have hFlatten : (picks ((P.map Part.factor).map Prod.snd)).map List.flatten =
      (Part.assigned P).map fun τ => ((P.map Part.factor).flatMap Prod.fst).map τ :=
    map_flatten_picks ((Part.cols_eq P).symm ▸ h) hLengths
  rw [List.map_map, Part.cols_eq] at hFlatten
  show ([(picks ((P.map Part.chunk).map chunkRows)).map List.flatten]).flatten = _
  rw [hRows, picks_map, List.flatten_singleton, List.map_map]
  have hSome := congrArg (List.map (List.map (some (α := Nat)))) hFlatten
  rw [List.map_map, List.map_map] at hSome
  refine Eq.trans (List.map_congr_left fun p _ => ?_) hSome
  exact (List.map_flatten ..).symm

/-! ## Expand -/

section NewChunk

theorem table_columns_lengths {w : Nat} {rows : List (List Nat)} :
    ∀ a ∈ (table w rows).columns, a.values.length = rows.length := by
  intro a ha
  unfold table DataChunk.new at ha
  obtain ⟨j, -, rfl⟩ := List.mem_map.mp ha
  unfold columnOf idColumn
  rw [List.length_map, List.length_map]

theorem newChunk_table {w : Nat} (hw : 0 < w) (rows : List (List Nat)) :
    newChunk (table w rows).columns = .ok (table w rows) := by
  have hNe : (table w rows).columns ≠ [] := by
    unfold table DataChunk.new
    simp
    omega
  exact if_pos ⟨hNe, fun a ha => (table_columns_lengths a ha).trans (table_len hw).symm⟩

end NewChunk

namespace FactorizedExecutor

variable {P : List Part} {source : ExpandSource} {pairs : Nat → List (List (Nat × Nat))}

/-- The two columns of the neighbours of a vertex. -/
def neighborRows (ns : List (Nat × Nat)) : List (List Nat) := ns.map fun n => [n.1, n.2]

theorem length_of_mem_neighborRows {ns : List (Nat × Nat)} {r : List Nat} (hr : r ∈ neighborRows ns) :
    r.length = 2 := by
  obtain ⟨n, -, rfl⟩ := List.mem_map.mp hr
  rfl

theorem table_neighborRows (ns : List (Nat × Nat)) :
    (table 2 (neighborRows ns)).columns = [idColumn (ns.map Prod.fst), idColumn (ns.map Prod.snd)] := by
  unfold table DataChunk.new columnOf neighborRows
  simp [List.range_succ, Function.comp_def]

/-- The part that an expand adds. -/
def neighborPart (w : Nat) (ns : List (Nat × Nat)) (h : ns ≠ []) : Part where
  slot := ⟨false, [w, w + 1]⟩
  chunk := (table 2 (neighborRows ns)).setUnflat
  rows := neighborRows ns
  fits := .unflat (by simp) (fun _ hr => length_of_mem_neighborRows hr) (by simp [neighborRows, h])

theorem concatColumn_pairs (bs : List (List (Nat × Nat))) :
    (List.range 2).mapM (concatColumn (bs.map fun b => [b.map Prod.fst, b.map Prod.snd])) =
      .ok (table 2 (neighborRows bs.flatten)).columns := by
  have hColumn : ∀ (k : Nat) (f : Nat × Nat → Nat),
      (∀ b : List (Nat × Nat), [b.map Prod.fst, b.map Prod.snd][k]? = some (b.map f)) →
      concatColumn (bs.map fun b => [b.map Prod.fst, b.map Prod.snd]) k =
        .ok (idColumn (bs.flatten.map f)) := by
    intro k f hf
    have hAll : (bs.map fun b => [b.map Prod.fst, b.map Prod.snd]).mapM (fun batch => batch[k]?) =
        some ((bs.map fun b => [b.map Prod.fst, b.map Prod.snd]).map fun batch => batch.getD k []) := by
      refine mapM_eq_some fun batch hBatch => ?_
      obtain ⟨b, -, rfl⟩ := List.mem_map.mp hBatch
      rw [List.getD_eq_getElem?_getD, hf]
      rfl
    unfold concatColumn
    rw [hAll, List.map_map, List.map_flatten]
    refine congrArg (fun l : List (List Nat) => Except.ok (idColumn l.flatten)) ?_
    refine List.map_congr_left fun b _ => ?_
    rw [Function.comp_apply, List.getD_eq_getElem?_getD, hf]
    rfl
  rw [table_neighborRows, mapM_ok_iff]
  simp only [List.range_succ, List.range_zero, List.nil_append, List.cons_append, List.map_cons,
    List.map_nil]
  rw [hColumn 0 Prod.fst fun _ => rfl, hColumn 1 Prod.snd fun _ => rfl]

/-- One result set: an expand adds a part with the neighbours of the flat row, if it has any. -/
theorem expandResultSet_parts (hPairs : Executor.Pairs source none none pairs)
    (hBatches : ∀ v, ∀ b ∈ pairs v, b ≠ []) {pos : DataPos} {x : Part}
    (hx : P[pos.dataChunkPos]? = some x) (hFlat : x.slot.flat = true)
    (hCol : pos.columnPos < x.slot.cols.length) {r : List Nat} (hr : r ∈ x.rows) (w : Nat) :
    expandResultSet source pos (ofParts P) =
      .ok (if h : (pairs (r.getD pos.columnPos 0)).flatten = [] then ofParts P
        else ofParts (P ++ [neighborPart w _ h])) := by
  obtain ⟨slot, chunk, rows, fits⟩ := x
  cases fits with
  | unflat => cases hFlat
  | @flat cols all i r' hCols hAll hi =>
    rw [List.mem_singleton] at hr
    subst hr
    have hColumn : ((ofParts P).getColumn pos).bind asPrimitive =
        some (all.map fun r => r.getD pos.columnPos 0) := by
      unfold ResultSet.getColumn
      rw [getDataChunk_ofParts, hx, Option.map_some, Option.bind_some]
      show ((table cols.length all).columns[pos.columnPos]?).bind asPrimitive = _
      rw [table_getElem hCol]
      exact asPrimitive_idColumn _
    have hCursor : ((ofParts P).getDataChunk pos.dataChunkPos).bind DataChunk.curIdx = some i := by
      rw [getDataChunk_ofParts, hx]
      rfl
    have hVertex : (all.map fun r => r.getD pos.columnPos 0)[i]? = some (r.getD pos.columnPos 0) := by
      rw [List.getElem?_map, hi]
      rfl
    unfold expandResultSet
    simp only [hColumn, hCursor, hVertex]
    rw [hPairs]
    have hNe := hBatches (r.getD pos.columnPos 0)
    generalize pairs (r.getD pos.columnPos 0) = bs at hNe
    cases bs with
    | nil => rfl
    | cons b bs =>
      have hFlatten : ¬(b :: bs).flatten = [] := fun h =>
        hNe b (List.mem_cons_self ..) (List.flatten_eq_nil_iff.mp h b (List.mem_cons_self ..))
      have hMerged := concatColumn_pairs (b :: bs)
      rw [dif_neg hFlatten]
      simp only [List.map_cons] at hMerged ⊢
      show (do
        let mergedColumns ← (List.range 2).mapM (concatColumn _)
        let chunk ← newChunk mergedColumns
        Except.ok ((ofParts P).push chunk.setUnflat)) = _
      rw [hMerged, ok_bind, newChunk_table Nat.two_pos, ok_bind]
      exact congrArg Except.ok (push_ofParts (neighborPart w _ hFlatten))

/-- An expand that does not fail starts at a column of a flat part. -/
theorem expandResultSet_ok {pos : DataPos} {rs' : IdResultSet}
    (h : expandResultSet source pos (ofParts P) = .ok rs') :
    ∃ x, P[pos.dataChunkPos]? = some x ∧ x.slot.flat = true ∧
      pos.columnPos < x.slot.cols.length := by
  unfold expandResultSet at h
  split at h
  · rename_i inputColumn curIdx hColumn hCursor
    unfold ResultSet.getColumn at hColumn
    rw [getDataChunk_ofParts] at hColumn hCursor
    obtain ⟨c, hc, hCursor⟩ := Option.bind_eq_some_iff.mp hCursor
    obtain ⟨x, hx, rfl⟩ := Option.map_eq_some_iff.mp hc
    have hFlat : x.slot.flat = true := by
      have hUnflat := x.fits.isUnflat
      unfold DataChunk.isUnflat at hUnflat
      rw [hCursor] at hUnflat
      simpa using hUnflat
    refine ⟨x, hx, hFlat, ?_⟩
    rw [hx] at hColumn
    obtain ⟨column, hc, -⟩ := Option.bind_eq_some_iff.mp hColumn
    have hBound := (List.getElem?_eq_some_iff.mp hc).1
    obtain ⟨slot, chunk, rows, fits⟩ := x
    cases fits <;> simpa [table, DataChunk.new, DataChunk.setCurIdx, DataChunk.setUnflat] using hBound
  · cases h

/-! ## Flatten -/

/-- The part that a flatten makes of a flat part and row `i` of the target. -/
theorem fits_merged {fcols tcols : List Nat} {r : List Nat} {all : List (List Nat)}
    (hCols : fcols ≠ []) (hr : r.length = fcols.length) (hAll : ∀ t ∈ all, t.length = tcols.length)
    {i : Nat} {t : List Nat} (hi : all[i]? = some t) :
    Fits ⟨true, fcols ++ tcols⟩
      ((table (fcols.length + tcols.length) (all.map fun t => r ++ t)).setCurIdx (some i)) [r ++ t] := by
  have hTable : Fits ⟨true, fcols ++ tcols⟩ ((table (fcols ++ tcols).length
      (all.map fun t => r ++ t)).setCurIdx (some i)) [r ++ t] := Fits.flat (by simp [hCols]) ?_ ?_
  · rw [List.length_append] at hTable
    exact hTable
  · intro r' hr'
    obtain ⟨t, ht, rfl⟩ := List.mem_map.mp hr'
    rw [List.length_append, List.length_append, hr, hAll t ht]
  · rw [List.getElem?_map, hi]
    rfl

theorem mapM_replicateColumn {w i : Nat} {all : List (List Nat)} {r : List Nat}
    (hi : all[i]? = some r) (n : Nat) :
    (table w all).columns.mapM (replicateColumn i n) =
      .ok ((List.range w).map fun j => idColumn (List.replicate n (r.getD j 0))) := by
  unfold table DataChunk.new
  rw [mapM_ok_iff, List.map_map, List.map_map]
  refine List.map_congr_left fun j _ => ?_
  show replicateColumn i n (columnOf all j) = _
  unfold replicateColumn columnOf idColumn
  simp [hi]

theorem table_append {w v : Nat} {r : List Nat} (hr : r.length = w) (all : List (List Nat)) :
    (List.range w).map (fun j => idColumn (List.replicate all.length (r.getD j 0))) ++
        (table v all).columns =
      (table (w + v) (all.map fun t => r ++ t)).columns := by
  unfold table DataChunk.new columnOf
  rw [List.range_add, List.map_append, List.map_map]
  congr 1
  · refine List.map_congr_left fun j hj => congrArg idColumn ?_
    rw [List.map_map]
    refine (List.eq_replicate_iff.mpr ⟨by simp, fun n hn => ?_⟩).symm
    obtain ⟨t, -, rfl⟩ := List.mem_map.mp hn
    simp [List.getElem?_append_left (hr ▸ List.mem_range.mp hj)]
  · refine List.map_congr_left fun j _ => congrArg idColumn ?_
    rw [List.map_map]
    refine List.map_congr_left fun t _ => ?_
    simp [List.getElem?_append_right, hr]

/-- A flatten of an unflat part gives one result set for each of its rows. -/
theorem flattenResultSet_parts {target f : Nat} {x y : Part} (hy : P[target]? = some y)
    (hUnflat : y.slot.flat = false) (hFirst : P.findIdx? (fun x => x.slot.flat) = some f)
    (hx : P[f]? = some x) {r : List Nat} (hr : r ∈ x.rows) :
    ∃ merged : List Part, flattenResultSet target (ofParts P) =
        .ok (merged.map fun m => ofParts (swapRemoveAll P [f, target] ++ [m])) ∧
      merged.map (fun m => (m.slot, m.rows)) =
        y.rows.map fun t => (⟨true, x.slot.cols ++ y.slot.cols⟩, [r ++ t]) := by
  have hFlat : x.slot.flat = true := by
    obtain ⟨hBound, hAt, -⟩ := List.findIdx?_eq_some_iff_getElem.mp hFirst
    obtain ⟨_, rfl⟩ := List.getElem?_eq_some_iff.mp hx
    exact hAt
  obtain ⟨xslot, xchunk, xrows, xfits⟩ := x
  obtain ⟨yslot, ychunk, ts, yfits⟩ := y
  cases xfits with
  | unflat => cases hFlat
  | @flat fcols all i r' hCols hAll hi =>
  cases yfits with
  | flat => cases hUnflat
  | @unflat tcols _ hTCols hTs hNe =>
    rw [List.mem_singleton] at hr
    subst hr
    have hrLength : r.length = fcols.length := hAll r (List.mem_of_getElem? hi)
    have hWidth : 0 < fcols.length := List.length_pos_iff.mpr hCols
    have hTWidth : 0 < tcols.length := List.length_pos_iff.mpr hTCols
    have hTarget : (ofParts P).getDataChunk target = some (table tcols.length ts).setUnflat := by
      rw [getDataChunk_ofParts, hy]
      rfl
    have hFlatChunk : (ofParts P).getDataChunk f =
        some ((table fcols.length all).setCurIdx (some i)) := by
      rw [getDataChunk_ofParts, hx]
      rfl
    have hLen : (table tcols.length ts).setUnflat.len = ts.length := table_len hTWidth
    have hMerged : newChunk ((List.range fcols.length).map
        (fun j => idColumn (List.replicate ts.length (r.getD j 0))) ++
          (table tcols.length ts).setUnflat.columns) =
        .ok (table (fcols.length + tcols.length) (ts.map fun t => r ++ t)) := by
      show newChunk (_ ++ (table tcols.length ts).columns) = _
      rw [table_append hrLength, newChunk_table (by omega)]
    let part : Fin ts.length → Part := fun k =>
      ⟨_, _, _, fits_merged hCols hrLength hTs (List.getElem?_eq_getElem k.isLt)⟩
    refine ⟨(List.finRange ts.length).map part, ?_, ?_⟩
    · unfold flattenResultSet
      simp only [hTarget, getFlatChunks_ofParts, hFirst, hFlatChunk, Option.map_some]
      have hColumns : (table fcols.length all).columns.mapM (replicateColumn i ts.length) = _ :=
        mapM_replicateColumn hi ts.length
      simp only [DataChunk.setCurIdx, hLen, hColumns, ok_bind]
      have hIsUnflat : (table tcols.length ts).setUnflat.isUnflat = true := rfl
      rw [if_pos hIsUnflat, hMerged, ok_bind, removeMultipleChunks_ofParts]
      refine congrArg Except.ok ?_
      rw [← List.map_coe_finRange_eq_range, List.map_map, List.map_map]
      exact List.map_congr_left fun k _ => push_ofParts (part k)
    · rw [List.map_map]
      have hRows : (List.finRange ts.length).map (fun k => ts[k.1]) = ts := List.map_getElem_finRange ts
      have hSlots := congrArg (List.map fun t => (Slot.mk true (fcols ++ tcols), [r ++ t])) hRows
      rw [List.map_map] at hSlots
      exact hSlots

/-- A flatten that does not fail merges the first flat part with an unflat one. -/
theorem flattenResultSet_ok {target : Nat} {rss : List IdResultSet}
    (h : flattenResultSet target (ofParts P) = .ok rss) :
    ∃ f x y, P[target]? = some y ∧ y.slot.flat = false ∧
      P.findIdx? (fun x => x.slot.flat) = some f ∧ P[f]? = some x := by
  unfold flattenResultSet at h
  rw [getDataChunk_ofParts, getFlatChunks_ofParts] at h
  split at h
  · rename_i targetChunk f hTarget hFirst
    obtain ⟨y, hy, rfl⟩ := Option.map_eq_some_iff.mp hTarget
    obtain ⟨hBound, -, -⟩ := List.findIdx?_eq_some_iff_getElem.mp hFirst
    split at h
    · split at h
      · rename_i hUnflat
        rw [y.fits.isUnflat] at hUnflat
        exact ⟨f, P[f], y, hy, by simpa using hUnflat, hFirst, List.getElem?_eq_getElem hBound⟩
      · cases h
    · cases h
  · cases h

end FactorizedExecutor

end MiniGU
