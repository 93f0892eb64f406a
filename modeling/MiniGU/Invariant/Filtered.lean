import MiniGU.Invariant.Tables
import MiniGU.Model.FactorizedExecutor

/-!
# Filters before and after a flatten

A predicate on rows filters the chunks that come out of a flatten, or the lists that go into it.

* `filter_rowFilter`: the flat filter keeps the rows that satisfy the predicate.
* `factorizedFilter_widened`: filtering the lists of a row keeps the neighbours whose rows do.
-/

namespace MiniGU

/-- The ids that row `i` of a chunk makes with element `k` of the lists in it. -/
def listRow (c : Chunk) (i k : Nat) : List (Option Nat) :=
  c.columns.map fun a =>
    match a.values[i]? with
    | some (Cell.id n) => some n
    | some (Cell.list ns) => ns[k]?
    | none => none

/-- A predicate on rows, as one on flat chunks. -/
def rowFilter (p : List (Option Nat) → Bool) (c : Chunk) : ExecutionResult (List Bool) :=
  .ok ((List.range c.len).map fun i => p (idRow c i))

/-- The same before the flatten: for each row, what the predicate says of the rows that the lists
from column `w` on make of it. -/
def listFilter (p : List (Option Nat) → Bool) (w : Nat) (c : Chunk) :
    ExecutionResult (List (List Bool)) :=
  match c.columns[w]?.bind asList with
  | none => .error .panicked
  | some lists =>
    .ok (lists.zipIdx.map fun l => (List.range l.1.length).map fun k => p (listRow c l.2 k))

namespace Executor

variable {p : List (Option Nat) → Bool}

/-! ## Rows -/

/-- Filtering a chunk by a predicate on rows leaves the rows that satisfy it. -/
theorem filterChunk_rowFilter {c : Chunk} (hFilter : c.filter = none) :
    ∃ out, filterChunk (rowFilter p) c = .ok out ∧ out.flatMap idRows = (idRows c).filter p := by
  have hIds : idRows c = (List.range c.len).map (idRow c) := by
    unfold idRows DataChunk.keptRows
    rw [hFilter]
    rfl
  have hCount : ((List.range c.len).map fun i => p (idRow c i)).count true =
      ((idRows c).filter p).length := by
    rw [hIds, List.filter_map, List.length_map, List.count, List.countP_map,
      List.countP_eq_length_filter]
    congr 1
    exact List.filter_congr fun i _ => by simp
  have hRun : filterChunk (rowFilter p) c =
      if ((idRows c).filter p).length = 0 then .ok []
      else if ((idRows c).filter p).length = c.len then .ok [{ c with filter := none }]
      else .ok [{ c with filter := some ((List.range c.len).map fun i => p (idRow c i)) }] := by
    unfold filterChunk rowFilter andFilter
    simp only [ok_bind, hFilter, hCount]
    rw [if_pos (show ((List.range c.len).map fun i => p (idRow c i)).length = c.len by simp)]
  rw [hRun]
  by_cases hNone : ((idRows c).filter p).length = 0
  · exact ⟨[], if_pos hNone, (List.length_eq_zero_iff.mp hNone).symm⟩
  · rw [if_neg hNone]
    by_cases hAll : ((idRows c).filter p).length = c.len
    · refine ⟨_, if_pos hAll, ?_⟩
      have hLength : (idRows c).length = c.len := by rw [hIds, List.length_map, List.length_range]
      have hSelf : (idRows c).filter p = idRows c :=
        List.filter_sublist.eq_of_length (hAll.trans hLength.symm)
      rw [List.flatMap_singleton, hSelf, ← hFilter]
    · refine ⟨_, if_neg hAll, ?_⟩
      rw [List.flatMap_singleton, hIds, List.filter_map]
      unfold idRows DataChunk.keptRows
      have hKept : ∀ i ∈ List.range c.len,
          (((List.range c.len).map fun i => p (idRow c i))[i]?.getD false) = (p ∘ idRow c) i := by
        intro i hi
        have hBound := List.mem_range.mp hi
        simp [hBound]
      exact congrArg (List.map (idRow c)) (List.filter_congr hKept)

theorem filter_rowFilter {chunks : List Chunk} (h : ∀ c ∈ chunks, c.filter = none) :
    ∃ out, filter (rowFilter p) chunks = .ok out ∧
      out.flatMap idRows = (chunks.flatMap idRows).filter p := by
  have hEach : ∀ c ∈ chunks, ∃ out, filterChunk (rowFilter p) c = .ok out := fun c hc =>
    (filterChunk_rowFilter (h c hc)).imp fun _ h => h.1
  obtain ⟨outs, hOuts⟩ := exists_map_ok hEach
  refine ⟨outs.flatten, ?_, ?_⟩
  · unfold filter
    rw [mapM_ok_iff.mpr hOuts, ok_bind]
  · clear hEach
    induction chunks generalizing outs with
    | nil =>
      obtain rfl : outs = [] := (List.map_eq_nil_iff.mp hOuts.symm)
      rfl
    | cons c chunks ih =>
      obtain ⟨out, outs, rfl⟩ : ∃ out outs', outs = out :: outs' :=
        List.exists_cons_of_ne_nil fun h => by subst h; simp at hOuts
      obtain ⟨hHead, hTail⟩ := List.cons.inj hOuts
      obtain ⟨out', hRun, hRows⟩ := filterChunk_rowFilter (p := p) (h c (List.mem_cons_self ..))
      obtain rfl : out' = out := Except.ok.inj (hRun.symm.trans hHead)
      rw [List.flatten_cons, List.flatMap_append, List.flatMap_cons, List.filter_append, hRows,
        ih (fun c' hc' => h c' (List.mem_cons_of_mem _ hc')) outs hTail]

/-! ## Lists -/

/-- A row with the columns of a batch of neighbours. -/
def widenedBatch (w : Nat) (r : List Nat) (b : List (Nat × Nat)) : Chunk :=
  widened w r [b.map Prod.fst, b.map Prod.snd]

variable {w : Nat} {r : List Nat} {b : List (Nat × Nat)}

theorem columns_widenedBatch : (widenedBatch w r b).columns =
    (List.range w).map (columnOf [r]) ++ [listColumn [b.map Prod.fst], listColumn [b.map Prod.snd]] := rfl

theorem widenedBatch_fst : (widenedBatch w r b).columns[w]? = some (listColumn [b.map Prod.fst]) := by
  have hColumn : (widenedBatch w r b).columns[w + 0]? = _ := widened_getElem_add 0
  exact hColumn

theorem listRow_widenedBatch (hr : r.length = w) {k : Nat} {n : Nat × Nat} (hk : b[k]? = some n) :
    listRow (widenedBatch w r b) 0 k = (r ++ [n.1, n.2]).map some := by
  unfold listRow
  rw [columns_widenedBatch, List.map_append, List.map_append]
  congr 1
  · rw [List.map_map]
    refine List.ext_getElem (by simp [hr]) fun j hj hj' => ?_
    have hBound : j < r.length := by simpa using hj'
    simp [columnOf, idColumn, hBound]
  · simp [listColumn, hk]

/-- What the predicate says of the neighbours of a row. -/
def keeps (p : List (Option Nat) → Bool) (r : List Nat) (n : Nat × Nat) : Bool :=
  p ((r ++ [n.1, n.2]).map some)

theorem listFilter_widenedBatch (hr : r.length = w) :
    listFilter p w (widenedBatch w r b) = .ok [b.map (keeps p r)] := by
  unfold listFilter
  rw [widenedBatch_fst, Option.bind_some, asList_listColumn]
  show Except.ok [(List.range (b.map Prod.fst).length).map fun k => p (listRow _ 0 k)] = _
  rw [List.length_map]
  refine congrArg (fun l => Except.ok [l]) (List.ext_getElem (by simp) fun k hk hk' => ?_)
  have hBound : k < b.length := by simpa using hk'
  rw [List.getElem_map, List.getElem_range, List.getElem_map,
    listRow_widenedBatch hr (List.getElem?_eq_getElem hBound)]
  rfl

theorem filter_zip_keeps {α β : Type} (f : α → β) (q : α → Bool) (l : List α) :
    (((l.map f).zip (l.map q)).filter Prod.snd).map Prod.fst = (l.filter q).map f := by
  rw [List.zip_map', List.filter_map, List.map_map]
  rfl

theorem factorizedCompact_widenedBatch (hw : 0 < w) (q : Nat × Nat → Bool) :
    (widenedBatch w r b).factorizedCompact [b.map q] [w, w + 1] =
      .ok (widenedBatch w r (b.filter q)) := by
  have hCount : (b.map q).count true = (b.filter q).length := by
    rw [List.count, List.countP_map, List.countP_eq_length_filter]
    congr 1
    exact List.filter_congr fun i _ => by simp
  have hSplit : ∀ f : Nat × Nat → Nat, [(b.map q).count true].splitLengths ((b.filter q).map f) =
      [(b.filter q).map f] := by
    intro f
    rw [hCount, List.splitLengths_cons, List.splitLengths_nil]
    simp
  have hSecond : ∀ c : Column, ((widenedBatch w r b).columns.set w c)[w + 1]? =
      some (listColumn [b.map Prod.snd]) := by
    intro c
    rw [List.getElem?_set_ne (by omega)]
    exact widened_getElem_add 1
  have hLength : ((List.range w).map (columnOf [r])).length = w := by simp
  unfold DataChunk.factorizedCompact
  have hLen : (widenedBatch w r b).len = [b.map q].length := widened_len hw r _
  rw [if_pos hLen]
  simp only [List.foldlM_cons, List.foldlM_nil, widenedBatch_fst, Option.bind_some,
    asList_listColumn, List.flatten_singleton, List.length_map, if_true, filter_zip_keeps,
    List.map_cons, List.map_nil, hSplit, ok_bind, hSecond]
  refine congrArg (fun columns => Except.ok (DataChunk.mk columns none (some 0))) ?_
  show _ = (widenedBatch w r (b.filter q)).columns
  rw [columns_widenedBatch, columns_widenedBatch,
    List.set_append_right _ _ (by omega), List.set_append_right _ _ (by omega), hLength]
  simp

theorem factorizedFilter_widened (hw : 0 < w) {batches : List (List Nat × List (Nat × Nat))}
    (h : ∀ x ∈ batches, x.1.length = w) :
    factorizedFilter (listFilter p w) [w, w + 1] (batches.map fun x => widenedBatch w x.1 x.2) =
      .ok (batches.map fun x => widenedBatch w x.1 (x.2.filter (keeps p x.1))) := by
  unfold factorizedFilter
  rw [mapM_ok_iff, List.map_map, List.map_map]
  refine List.map_congr_left fun x hx => ?_
  show (listFilter p w (widenedBatch w x.1 x.2) >>= _) = _
  rw [listFilter_widenedBatch (h x hx), ok_bind, factorizedCompact_widenedBatch hw]
  rfl

theorem flatten_widened (hw : 0 < w) {batches : List (List Nat × List (Nat × Nat))}
    (h : ∀ x ∈ batches, x.1.length = w) :
    flatten [w, w + 1] (batches.map fun x => widenedBatch w x.1 x.2) =
      .ok (batches.map fun x => table (w + 2) (x.2.map fun n => x.1 ++ [n.1, n.2])) := by
  unfold flatten
  rw [if_neg (by simp), mapM_ok_iff, List.map_map, List.map_map]
  refine List.map_congr_left fun x hx => ?_
  show flattenChunk [w, w + 1] (widened w x.1 [x.2.map Prod.fst, x.2.map Prod.snd]) = _
  rw [flattenChunk_widened hw (h x hx) (by simp)]
  unfold joined
  rw [List.zip_map', List.map_map]
  rfl

end Executor

end MiniGU
