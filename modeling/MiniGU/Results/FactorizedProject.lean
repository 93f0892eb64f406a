import MiniGU.Invariant.ResultTuples
import MiniGU.Model.FactorizedExecutor
import MiniGU.Results.FactorizedEval

/-!
# What a factorized projection keeps

Each expression becomes a chunk of its own, so that two expressions over one unflat chunk are
crossed with each other; the chunks they run over, one after the other, are `crossed`. The factor
is to make up for the chunks that are left out, by a division.
-/

namespace MiniGU

open FactorizedExpr

variable {K : Kernels}

-- ----
-- The projected tuples
-- ----

/-- The expressions on each tuple. -/
def projected (rs : K.Rows) (es : List (FactorizedExpr K.Ty K.Val)) : K.Result (List (List K.Val)) :=
  rs.tuples.mapM fun t => es.mapM fun e => plainValue rs e (rowIn t)

/-- The output stands for the projected tuples, and there is none where an expression fails. -/
def KeepsBag (rs : K.Rows) (es : List (FactorizedExpr K.Ty K.Val)) : Prop :=
  match projected rs es with
  | .ok values => ∃ out, projectResultSet es rs = .ok out ∧
      (out.tupleRows.map List.flatten).Perm values
  | .error _ => ∃ err, projectResultSet es rs = .error err

/-- An expression has no value on some tuple. -/
def FailsOnTuple (rs : K.Rows) (es : List (FactorizedExpr K.Ty K.Val)) : Prop :=
  ∃ t ∈ rs.tuples, ∃ e ∈ es, ∀ a, plainValue rs e (rowIn t) ≠ .ok a

/-- The chunks whose rows the column of an expression runs over, none for a flat one. -/
def span (rs : K.Rows) (e : FactorizedExpr K.Ty K.Val) : List Nat :=
  if isFlat rs e then [] else scope rs e

def crossed (rs : K.Rows) (es : List (FactorizedExpr K.Ty K.Val)) : List Nat := es.flatMap (span rs)

/-- The number of tuples of the output, without its factor. -/
def numCrossed (rs : K.Rows) (es : List (FactorizedExpr K.Ty K.Val)) : Nat :=
  ((crossed rs es).map (rowCount rs)).prod

/-- The counts are those of the output, and the expressions run over whole chunks, over one of
several rows only once. -/
structure Multiplies (rs : K.Rows) (es : List (FactorizedExpr K.Ty K.Val)) : Prop where
  chunks : rs.dataChunks ≠ []
  exprs : es ≠ []
  computes : ∀ e ∈ es, Computes rs e
  counted : numCrossed rs es % 2 ^ 64 ≠ 0
  divides : rs.tuples.length % 2 ^ 64 / (numCrossed rs es % 2 ^ 64) * numCrossed rs es =
    rs.tuples.length
  whole : rs.tuples ≠ [] → ∀ c ∈ crossed rs es, keptOf rs c = List.range (rowCount rs c)
  once : rs.tuples ≠ [] → ∀ c, 2 ≤ (crossed rs es).count c → rowCount rs c = 1

/-- No two rows of a column have the same value. -/
def TellsApart (rs : K.Rows) (es : List (FactorizedExpr K.Ty K.Val)) : Prop :=
  ∀ e ∈ es, ∀ chunk, evaluate rs e = .ok chunk → (represented chunk).Nodup

-- ----
-- The evaluated chunks
-- ----

section Evaluated

variable {rs : K.Rows} {e : FactorizedExpr K.Ty K.Val} {es : List (FactorizedExpr K.Ty K.Val)}
  {chunk : K.Chunk} {chunks : List K.Chunk} {τ : Nat → Nat}

/-- The value of an expression at a pick of its span. -/
def cellIn (rs : K.Rows) (e : FactorizedExpr K.Ty K.Val) (p : List Nat) : K.Result K.Val :=
  if isFlat rs e then cell rs e (current rs e) else cell rs e p

/-- The values of the expressions at a pick of what they cross. -/
def cellsIn (rs : K.Rows) : List (FactorizedExpr K.Ty K.Val) → List Nat → List (K.Result K.Val)
  | [], _ => []
  | e :: es, p =>
    cellIn rs e (p.take (span rs e).length) :: cellsIn rs es (p.drop (span rs e).length)

theorem represented_flat (hList : Listed rs e chunk) (hFlat : isFlat rs e = true) :
    ∃ a, represented chunk = [a] ∧ cell rs e (current rs e) = .ok a := by
  obtain ⟨i, column, a, hIdx, hColumns, ha, -, hCell⟩ := hList.current hFlat
  refine ⟨a, ?_, hCell⟩
  unfold represented
  rw [hColumns, hIdx]
  show column.values[i]?.toList = [a]
  rw [ha]
  rfl

/-- What a chunk stands for has a value for each pick of the span. -/
theorem represented_cells (hList : Listed rs e chunk) :
    (picks ((span rs e).map fun c => List.range (rowCount rs c))).map (cellIn rs e) =
      (represented chunk).map .ok := by
  unfold span cellIn
  cases hFlat : isFlat rs e with
  | true =>
    obtain ⟨a, hRepresented, hCell⟩ := represented_flat hList hFlat
    simp [picks, hRepresented, hCell]
  | false =>
    simp only [Bool.false_eq_true, if_false]
    exact represented_of_unflat hList hFlat

theorem length_represented (hList : Listed rs e chunk) :
    (represented chunk).length = ((span rs e).map (rowCount rs)).prod := by
  have hLength := congrArg List.length (represented_cells hList)
  rw [List.length_map, List.length_map, length_picks, List.map_map] at hLength
  rw [← hLength]
  simp [Function.comp_def]

theorem wellFormed_of_listed (hList : Listed rs e chunk) : chunk.WellFormed := by
  obtain ⟨column, hColumns, -, hCells⟩ := hList.column
  have hLen : chunk.len = column.values.length := by
    unfold DataChunk.len
    rw [hColumns]
    rfl
  refine ⟨by simp [hColumns], fun a ha => ?_, fun f hf => ?_, fun i hi => ?_⟩
  · rw [hColumns, List.mem_singleton] at ha
    rw [ha, hLen]
  · rw [hList.filter] at hf
    cases hf
  · cases hFlat : isFlat rs e with
    | true =>
      obtain ⟨j, hj, hRow⟩ := hList.flat hFlat
      obtain rfl : j = i := Option.some.inj (hj.symm.trans hi)
      have hBound := (List.getElem?_eq_some_iff.mp hRow).1
      have hLength := congrArg List.length hCells
      rw [List.length_map, List.length_map] at hLength
      omega
    | false =>
      rw [hList.unflat hFlat] at hi
      cases hi

theorem standsFor_of_listed (hList : Listed rs e chunk) :
    chunk.standsFor = (represented chunk).map fun a => [a] := by
  obtain ⟨column, hColumns, -, -⟩ := hList.column
  have hRow : ∀ i, chunk.rowAt i = column.values[i]?.toList := by
    intro i
    unfold DataChunk.rowAt
    rw [hColumns]
    cases hi : column.values[i]? <;> simp [hi]
  unfold DataChunk.standsFor DataChunk.places represented
  cases hFlat : isFlat rs e with
  | true =>
    obtain ⟨i, column', a, hIdx, hColumns', ha, -, -⟩ := hList.current hFlat
    obtain rfl : column = column' := by
      rw [hColumns] at hColumns'
      exact (List.cons.inj hColumns').1
    simp [hIdx, hColumns, hRow, ha]
  | false =>
    have hKept : chunk.keptRows = List.range column.values.length := by
      unfold DataChunk.keptRows DataChunk.len
      rw [hList.filter, hColumns]
      rfl
    rw [hList.unflat hFlat, hColumns]
    show chunk.keptRows.map chunk.rowAt = (chunk.keptRows.filterMap fun i => column.values[i]?).map _
    rw [hKept, filterMap_range_getElem?]
    refine List.ext_getElem (by simp) fun i hi hi' => ?_
    rw [List.length_map] at hi'
    simp [hRow, hi']

theorem picks_represented (hAll : List.Forall₂ (Listed rs) es chunks) :
    (picks (chunks.map represented)).map (List.map .ok) =
      (picks ((crossed rs es).map fun c => List.range (rowCount rs c))).map (cellsIn rs es) := by
  induction hAll with
  | nil => rfl
  | cons hList hAll ih =>
    rename_i e chunk es chunks
    have hLeft : (picks ((chunk :: chunks).map represented)).map (List.map .ok) =
        ((represented chunk).map (Except.ok (ε := EvalError K.Error))).flatMap fun x =>
          ((picks (chunks.map represented)).map (List.map .ok)).map fun xs => x :: xs := by
      simp only [List.map_cons, picks, List.map_flatMap, List.map_map, List.flatMap_map]
      rfl
    have hCrossed : crossed rs (e :: es) = span rs e ++ crossed rs es := List.flatMap_cons
    rw [hLeft, ih, ← represented_cells hList, hCrossed, List.map_append, picks_append,
      List.map_flatMap, List.flatMap_map]
    refine List.flatMap_congr fun p hp => ?_
    have hLength : p.length = (span rs e).length := by
      rw [length_of_mem_picks hp, List.length_map]
    rw [List.map_map, List.map_map]
    refine List.map_congr_left fun q _ => ?_
    show cellIn rs e p :: cellsIn rs es q = cellsIn rs (e :: es) (p ++ q)
    rw [cellsIn, List.take_left' hLength, List.drop_left' hLength]

/-- The tuple is at the current row of each flat chunk. -/
def AtCursors (rs : K.Rows) (τ : Nat → Nat) : Prop := ∀ c i, cursor rs c = some i → τ c = i

theorem cellIn_span (hτ : AtCursors rs τ) :
    cellIn rs e ((span rs e).map τ) = cellAt rs τ e := by
  unfold cellIn span
  cases hFlat : isFlat rs e with
  | true =>
    have hCurrent : current rs e = (scope rs e).map τ := by
      refine List.map_congr_left fun c hc => ?_
      obtain ⟨i, hi⟩ := Option.isSome_iff_exists.mp ((scope_of_flat hFlat).2.1 c hc)
      rw [hi, hτ c i hi]
      rfl
    rw [if_pos rfl, hCurrent]
    exact cell_scope hτ
  | false =>
    simp only [Bool.false_eq_true, if_false]
    exact cell_scope hτ

theorem cellsIn_crossed (hτ : AtCursors rs τ) (es : List (FactorizedExpr K.Ty K.Val)) :
    cellsIn rs es ((crossed rs es).map τ) = es.map (cellAt rs τ) := by
  induction es with
  | nil => rfl
  | cons e es ih =>
    have hCrossed : crossed rs (e :: es) = span rs e ++ crossed rs es := List.flatMap_cons
    have hLength : ((span rs e).map τ).length = (span rs e).length := List.length_map ..
    rw [hCrossed, List.map_append, cellsIn, List.take_left' hLength, List.drop_left' hLength, ih,
      cellIn_span hτ, List.map_cons]

theorem value_of_listed (hList : Listed rs e chunk) (hτ : AtCursors rs τ)
    (hRows : ∀ c ∈ span rs e, τ c < rowCount rs c) :
    ∃ a, cellAt rs τ e = .ok a ∧ plainValue rs e τ = .ok a := by
  obtain ⟨column, -, hTy, -⟩ := hList.column
  have hPick : (span rs e).map τ ∈ picks ((span rs e).map fun c => List.range (rowCount rs c)) :=
    mem_picks.mpr (List.forall₂_map_right_iff.mpr (List.forall₂_map_left_iff.mpr
      (List.forall₂_same.mpr fun c hc => List.mem_range.mpr (hRows c hc))))
  obtain ⟨a, ha⟩ := ok_of_map_ok (represented_cells hList) _ hPick
  rw [cellIn_span hτ] at ha
  exact ⟨a, ha, plainValue_eq hTy ha⟩

end Evaluated

-- ----
-- The chunks that are crossed
-- ----

section Crossed

variable {rs : K.Rows} {e : FactorizedExpr K.Ty K.Val} {es : List (FactorizedExpr K.Ty K.Val)}
  {chunks : List K.Chunk} {t : List Nat}

/-- An expression that computes refers to chunks that are there. -/
theorem exists_of_mem_scope (h : Computes rs e) {c : Nat} (hc : c ∈ scope rs e) :
    ∃ chunk, rs.getDataChunk c = some chunk := by
  induction e with
  | dataRef pos =>
    obtain ⟨column, hColumn⟩ := h
    obtain ⟨chunk, hChunk, -⟩ := Option.bind_eq_some_iff.mp hColumn
    obtain rfl := List.mem_singleton.mp hc
    exact ⟨chunk, hChunk⟩
  | constant ty value => cases hc
  | unary op operand ih => exact ih h.1 hc
  | binary op left right ihl ihr =>
    have hMem : c ∈ scope rs left ∨ c ∈ scope rs right := by
      rw [scope] at hc
      split at hc
      · cases hc
      · exact .inr hc
      · exact .inl hc
      · split at hc
        · exact .inl hc
        · exact List.mem_append.mp hc
    exact hMem.elim (ihl h.1) (ihr h.2.1)
  | boxed inner ih => exact ih h hc

theorem unflat_of_mem_crossed (hAll : ∀ e ∈ es, Computes rs e) {c : Nat} (hc : c ∈ crossed rs es) :
    ∃ chunk, rs.getDataChunk c = some chunk ∧ chunk.curIdx = none := by
  obtain ⟨e, he, hSpan⟩ := List.mem_flatMap.mp hc
  unfold span at hSpan
  split at hSpan
  · cases hSpan
  · rename_i hFlat
    obtain ⟨chunk, hChunk⟩ := exists_of_mem_scope (hAll e he) hSpan
    have hCursor := cursor_of_mem_scope (Bool.eq_false_iff.mpr hFlat) hSpan
    unfold cursor at hCursor
    rw [hChunk] at hCursor
    exact ⟨chunk, hChunk, hCursor⟩

theorem places_of_mem_crossed (hAll : ∀ e ∈ es, Computes rs e) {c : Nat} (hc : c ∈ crossed rs es) :
    ((rs.dataChunks.map DataChunk.places).getD c []) = keptOf rs c := by
  obtain ⟨chunk, hChunk, hUnflat⟩ := unflat_of_mem_crossed hAll hc
  unfold keptOf
  rw [List.getD_eq_getElem?_getD, List.getElem?_map, hChunk,
    show rs.dataChunks[c]? = some chunk from hChunk, Option.map_some, Option.getD_some,
    Option.map_some, Option.getD_some, DataChunk.places, hUnflat]

theorem atCursors_of_tuple (ht : t ∈ rs.tuples) : AtCursors rs (rowIn t) := by
  intro c i hi
  obtain ⟨chunk, hChunk, hIdx⟩ := Option.bind_eq_some_iff.mp hi
  have hMem := rowIn_mem ht hChunk
  rwa [DataChunk.places, hIdx, List.mem_singleton] at hMem

theorem rowIn_mem_keptOf (hAll : ∀ e ∈ es, Computes rs e) (ht : t ∈ rs.tuples) {c : Nat}
    (hc : c ∈ crossed rs es) : rowIn t c ∈ keptOf rs c := by
  obtain ⟨chunk, hChunk, hUnflat⟩ := unflat_of_mem_crossed hAll hc
  have hMem := rowIn_mem ht hChunk
  unfold keptOf
  rw [hChunk]
  rwa [DataChunk.places, hUnflat] at hMem

theorem atCursors_assign (hAll : ∀ e ∈ es, Computes rs e) {is : List Nat}
    (hSub : is ⊆ crossed rs es) (p : List Nat) : AtCursors rs (assign (cursors rs) is p) := by
  intro c i hi
  have hNot : c ∉ is := by
    intro hc
    obtain ⟨chunk, hChunk, hUnflat⟩ := unflat_of_mem_crossed hAll (hSub hc)
    unfold cursor at hi
    rw [hChunk] at hi
    cases hi.symm.trans hUnflat
  rw [assign_of_notMem hNot, cursors, hi]
  rfl

/-- Where all expressions are evaluated, they have values on all tuples. -/
theorem projected_eq (hAll : ∀ e ∈ es, Computes rs e)
    (hListed : List.Forall₂ (Listed rs) es chunks) :
    ∃ values, projected rs es = .ok values ∧
      values.map (List.map .ok) = rs.tuples.map fun t => es.map (cellAt rs (rowIn t)) := by
  have hValue : ∀ t ∈ rs.tuples, ∀ e ∈ es,
      ∃ a, cellAt rs (rowIn t) e = .ok a ∧ plainValue rs e (rowIn t) = .ok a := by
    intro t ht e he
    obtain ⟨chunk, hList⟩ : ∃ chunk, Listed rs e chunk := by
      obtain ⟨i, hi, rfl⟩ := List.getElem_of_mem he
      exact ⟨_, (List.forall₂_iff_get.mp hListed).2 i hi (hListed.length_eq ▸ hi)⟩
    refine value_of_listed hList (atCursors_of_tuple ht) fun c hc => ?_
    have hMem := rowIn_mem_keptOf hAll ht (List.mem_flatMap.mpr ⟨e, he, hc⟩)
    exact List.mem_range.mp ((keptOf_sublist c).subset hMem)
  have hRow : ∀ t ∈ rs.tuples, ∃ vs : List K.Val,
      (es.mapM fun e => plainValue rs e (rowIn t)) = .ok vs ∧
        es.map (cellAt rs (rowIn t)) = vs.map .ok := by
    intro t ht
    obtain ⟨vs, hvs⟩ := exists_map_ok fun e he => (hValue t ht e he).imp fun a h => h.1
    refine ⟨vs, mapM_ok_iff.mpr (hvs ▸ List.map_congr_left fun e he => ?_), hvs⟩
    obtain ⟨a, ha, hPlain⟩ := hValue t ht e he
    rw [ha, hPlain]
  obtain ⟨values, hValues⟩ := exists_map_ok fun t ht => (hRow t ht).imp fun vs h => h.1
  refine ⟨values, mapM_ok_iff.mpr hValues, ?_⟩
  have hRows : ∀ {ts : List (List Nat)} {values : List (List K.Val)}, (∀ t ∈ ts, t ∈ rs.tuples) →
      ts.map (fun t => es.mapM fun e => plainValue rs e (rowIn t)) = values.map .ok →
        values.map (List.map .ok) = ts.map fun t => es.map (cellAt rs (rowIn t)) := by
    intro ts
    induction ts with
    | nil =>
      intro values _ h
      obtain rfl := List.map_eq_nil_iff.mp h.symm
      rfl
    | cons t ts ih =>
      intro values hMem h
      match values, h with
      | v :: values, h =>
        obtain ⟨hHead, hTail⟩ := List.cons.inj h
        obtain ⟨vs, hvs, hCells⟩ := hRow t (hMem t List.mem_cons_self)
        obtain rfl : vs = v := Except.ok.inj (hvs.symm.trans hHead)
        rw [List.map_cons, List.map_cons, ih (fun t ht => hMem t (List.mem_cons_of_mem _ ht)) hTail,
          hCells]
  exact hRows (fun _ h => h) hValues

end Crossed

-- ----
-- The output
-- ----

section Output

variable {rs : K.Rows} {es : List (FactorizedExpr K.Ty K.Val)} {chunks : List K.Chunk}

theorem foldl_push {Ty Val : Type} (chunks : List (DataChunk Ty Val)) (rs : ResultSet Ty Val) :
    chunks.foldl ResultSet.push rs = { rs with dataChunks := rs.dataChunks ++ chunks } := by
  induction chunks generalizing rs with
  | nil => rw [List.append_nil, List.foldl_nil]
  | cons c chunks ih =>
    rw [List.foldl_cons, ih]
    simp [ResultSet.push]

theorem listed_of_evaluated (hrs : rs.WellFormed)
    (h : es.map (FactorizedExpr.evaluate rs) = chunks.map .ok) :
    (∀ e ∈ es, Computes rs e) ∧ List.Forall₂ (Listed rs) es chunks := by
  induction es generalizing chunks with
  | nil =>
    obtain rfl := List.map_eq_nil_iff.mp h.symm
    exact ⟨nofun, .nil⟩
  | cons e es ih =>
    match chunks, h with
    | chunk :: chunks, h =>
      obtain ⟨hHead, hTail⟩ := List.cons.inj h
      obtain ⟨hComputes, hList⟩ := (evaluate_spec hrs e).1 chunk hHead
      obtain ⟨hAll, hListed⟩ := ih hTail
      exact ⟨List.forall_mem_cons.mpr ⟨hComputes, hAll⟩, .cons hList hListed⟩

theorem prod_places (hListed : List.Forall₂ (Listed rs) es chunks) :
    (chunks.map fun c => c.places.length).prod = numCrossed rs es := by
  unfold numCrossed crossed
  induction hListed with
  | nil => rfl
  | cons hList hListed ih =>
    have hLength : ∀ c : K.Chunk, c.places.length = c.standsFor.length :=
      fun c => (List.length_map ..).symm
    rw [List.map_cons, List.prod_cons, ih, hLength, standsFor_of_listed hList, List.length_map,
      length_represented hList, List.flatMap_cons, List.map_append, List.prod_append]

theorem wellFormed_output (hListed : List.Forall₂ (Listed rs) es chunks) (f : Nat) :
    (⟨f, chunks⟩ : K.Rows).WellFormed := by
  intro chunk hChunk
  obtain ⟨i, hi, rfl⟩ := List.getElem_of_mem hChunk
  obtain ⟨hLength, hAll⟩ := List.forall₂_iff_get.mp hListed
  exact wellFormed_of_listed (hAll i (hLength ▸ hi) hi)

theorem projectResultSet_eq (hrs : rs.WellFormed) (hNe : rs.dataChunks ≠ []) (hEs : es ≠ [])
    (hEval : es.map (FactorizedExpr.evaluate rs) = chunks.map .ok) :
    projectResultSet es rs = if numCrossed rs es % 2 ^ 64 = 0 then .error .panicked
      else .ok ⟨rs.tuples.length % 2 ^ 64 / (numCrossed rs es % 2 ^ 64), chunks⟩ := by
  obtain ⟨-, hListed⟩ := listed_of_evaluated hrs hEval
  have hChunks : chunks ≠ [] := fun hNil => hEs (by
    rw [hNil] at hListed
    cases hListed
    rfl)
  have hOut := numTuplesWithoutFactorU64_all (wellFormed_output hListed 1) hChunks
  rw [prod_places hListed] at hOut
  unfold projectResultSet
  rw [numTuplesU64_all hrs hNe, orPanic, ok_bind, mapM_ok_iff.mpr hEval, ok_bind, foldl_push]
  show orPanic ((⟨1, chunks⟩ : K.Rows).numTuplesWithoutFactorU64
    (⟨1, chunks⟩ : K.Rows).allChunks) >>= _ = _
  rw [hOut]
  rfl

theorem projectResultSet_ok {out : K.Rows} (hrs : rs.WellFormed)
    (h : projectResultSet es rs = .ok out) :
    rs.dataChunks ≠ [] ∧ es ≠ [] ∧ ∃ chunks,
      es.map (FactorizedExpr.evaluate rs) = chunks.map .ok ∧ numCrossed rs es % 2 ^ 64 ≠ 0 ∧
      out = ⟨rs.tuples.length % 2 ^ 64 / (numCrossed rs es % 2 ^ 64), chunks⟩ := by
  have hNe : rs.dataChunks ≠ [] := by
    intro hNil
    unfold projectResultSet at h
    rw [numTuplesU64_nil hNil] at h
    cases h
  have hRest := h
  unfold projectResultSet at hRest
  rw [numTuplesU64_all hrs hNe, orPanic, ok_bind] at hRest
  obtain ⟨chunks, hEval, -⟩ := bind_ok_iff.mp hRest
  rw [mapM_ok_iff] at hEval
  have hEs : es ≠ [] := by
    rintro rfl
    obtain rfl := List.map_eq_nil_iff.mp hEval.symm
    cases hRest
  rw [projectResultSet_eq hrs hNe hEs hEval] at h
  split at h
  · cases h
  · rename_i hNum
    exact ⟨hNe, hEs, chunks, hEval, hNum, (Except.ok.inj h).symm⟩

theorem outputRows_eq (hListed : List.Forall₂ (Listed rs) es chunks) (f : Nat) :
    (⟨f, chunks⟩ : K.Rows).tupleRows.map List.flatten =
      (List.replicate f ()).flatMap fun _ => picks (chunks.map represented) := by
  have hStands : chunks.map DataChunk.standsFor =
      (chunks.map represented).map (List.map fun a => [a]) := by
    induction hListed with
    | nil => rfl
    | cons hList _ ih =>
      rw [List.map_cons, List.map_cons, List.map_cons, ih, standsFor_of_listed hList]
  rw [tupleRows_eq, List.map_flatMap]
  refine List.flatMap_congr fun _ _ => ?_
  rw [hStands, picks_map, List.map_map]
  have hFlat : ∀ vs : List K.Val, (vs.map fun a => [a]).flatten = vs := by
    intro vs
    induction vs with
    | nil => rfl
    | cons v vs ih => rw [List.map_cons, List.flatten_cons, ih, List.singleton_append]
  exact (List.map_congr_left fun vs _ => hFlat vs).trans (List.map_id _)

theorem length_picks_represented (hListed : List.Forall₂ (Listed rs) es chunks) :
    (picks (chunks.map represented)).length = numCrossed rs es := by
  have hCount := congrArg List.length (picks_represented hListed)
  rw [List.length_map, List.length_map, length_picks ((crossed rs es).map _), List.map_map] at hCount
  rw [hCount]
  simp [numCrossed, Function.comp_def]

/-- The values of the expressions at rows of the chunks that are crossed. -/
def valuesAt (rs : K.Rows) (es : List (FactorizedExpr K.Ty K.Val)) (p : List Nat) :
    List (K.Result K.Val) :=
  es.map (cellAt rs (assign (cursors rs) (crossed rs es).dedup p))

theorem values_of_tuple (hAll : ∀ e ∈ es, Computes rs e) {t : List Nat} (ht : t ∈ rs.tuples) :
    es.map (cellAt rs (rowIn t)) = valuesAt rs es ((crossed rs es).dedup.map (rowIn t)) := by
  have hRead : (crossed rs es).dedup.map (assign (cursors rs) (crossed rs es).dedup
      ((crossed rs es).dedup.map (rowIn t))) = (crossed rs es).dedup.map (rowIn t) :=
    map_assign_of_nodup (List.nodup_dedup _) (List.length_map ..).symm
  have hSame : (crossed rs es).map (assign (cursors rs) (crossed rs es).dedup
      ((crossed rs es).dedup.map (rowIn t))) = (crossed rs es).map (rowIn t) :=
    List.map_congr_left fun c hc => List.map_inj_left.mp hRead c (List.mem_dedup.mpr hc)
  unfold valuesAt
  rw [← cellsIn_crossed (atCursors_of_tuple ht), ← hSame,
    cellsIn_crossed (atCursors_assign hAll (List.dedup_subset _) _)]

/-- Where nothing is crossed with itself, the rows of the output are those of the chunks. -/
theorem picks_of_once (hAll : ∀ e ∈ es, Computes rs e)
    (hListed : List.Forall₂ (Listed rs) es chunks)
    (hOnce : ∀ c, 2 ≤ (crossed rs es).count c → rowCount rs c = 1) :
    (picks (chunks.map represented)).map (List.map .ok) =
      (picks ((crossed rs es).dedup.map fun c => List.range (rowCount rs c))).map
        (valuesAt rs es) := by
  have hSettled : Settled (fun c => List.range (rowCount rs c)) (crossed rs es) :=
    fun c hc => ⟨0, congrArg List.range (hOnce c hc)⟩
  have hCells : (picks ((crossed rs es).map fun c => List.range (rowCount rs c))).map
      (cellsIn rs es) =
      ((picks ((crossed rs es).map fun c => List.range (rowCount rs c))).map
        (assign (cursors rs) (crossed rs es))).map fun τ => es.map (cellAt rs τ) := by
    rw [List.map_map]
    refine List.map_congr_left fun p hp => ?_
    have hRead := cellsIn_crossed (atCursors_assign hAll (List.Subset.refl _) p) es
    rw [map_assign hSettled hp] at hRead
    exact hRead
  rw [picks_represented hListed, hCells, map_assign_dedup hSettled, List.map_map]
  rfl

end Output

-- ----
-- The bag
-- ----

section Bag

variable {rs : K.Rows} {es : List (FactorizedExpr K.Ty K.Val)}

theorem ok_injective {ε α : Type} : Function.Injective (List.map (Except.ok (ε := ε) (α := α))) :=
  List.map_injective_iff.mpr fun _ _ h => Except.ok.inj h

theorem keepsBag_of_fails (hrs : rs.WellFormed) (hFails : FailsOnTuple rs es) : KeepsBag rs es := by
  obtain ⟨t, ht, e, he, hNone⟩ := hFails
  have hError : ∀ {α : Type} {x : K.Result α}, (∀ a, x ≠ .ok a) → ∃ err, x = .error err := by
    intro α x hx
    cases x with
    | error err => exact ⟨err, rfl⟩
    | ok a => exact absurd rfl (hx a)
  obtain ⟨err, hProjected⟩ : ∃ err, projected rs es = .error err :=
    mapM_fails ht (mapM_fails he (hError hNone))
  unfold KeepsBag
  rw [hProjected]
  refine hError fun out hOut => ?_
  obtain ⟨-, -, chunks, hEval, -, -⟩ := projectResultSet_ok hrs hOut
  obtain ⟨hAll, hListed⟩ := listed_of_evaluated hrs hEval
  obtain ⟨values, hValues, -⟩ := projected_eq hAll hListed
  cases hProjected.symm.trans hValues

/-- The output of expressions that cross whole chunks, each of several rows once. -/
theorem keepsBag_of_multiplies (hrs : rs.WellFormed) (h : Multiplies rs es) : KeepsBag rs es := by
  obtain ⟨chunks, hEval⟩ := exists_map_ok fun e he => (evaluate_spec hrs e).2 (h.computes e he)
  obtain ⟨hAll, hListed⟩ := listed_of_evaluated hrs hEval
  obtain ⟨values, hValues, hCells⟩ := projected_eq hAll hListed
  have hOut := projectResultSet_eq hrs h.chunks h.exprs hEval
  rw [if_neg h.counted] at hOut
  unfold KeepsBag
  rw [hValues]
  refine ⟨_, hOut, ?_⟩
  rw [outputRows_eq hListed]
  have hDivides := h.divides
  generalize rs.tuples.length % 2 ^ 64 / (numCrossed rs es % 2 ^ 64) = f at hDivides
  by_cases hNone : rs.tuples = []
  · -- no tuples: the factor is zero
    have hZero : f = 0 := by
      rw [hNone, List.length_nil] at hDivides
      rcases Nat.mul_eq_zero.mp hDivides with hZero | hZero
      · exact hZero
      · exact absurd (by rw [hZero, Nat.zero_mod]) h.counted
    rw [hNone] at hCells
    obtain rfl := List.map_eq_nil_iff.mp hCells
    rw [hZero]
    exact .refl _
  · let is := (crossed rs es).dedup
    have hWhole : is.map (fun c => (rs.dataChunks.map DataChunk.places).getD c []) =
        is.map fun c => List.range (rowCount rs c) := by
      refine List.map_congr_left fun c hc => ?_
      rw [places_of_mem_crossed hAll (List.mem_dedup.mp hc), h.whole hNone c (List.mem_dedup.mp hc)]
    have hBound : ∀ c ∈ is, c < rs.dataChunks.length := by
      intro c hc
      obtain ⟨chunk, hChunk, -⟩ := unflat_of_mem_crossed hAll (List.mem_dedup.mp hc)
      exact (List.getElem?_eq_some_iff.mp hChunk).1
    have hTuples := perm_tuples_of_chunks (List.nodup_dedup _) hBound
    have hPicks := picks_of_once hAll hListed (h.once hNone)
    rw [hWhole] at hTuples
    generalize rs.numOthers is = k at hTuples
    generalize hPs : picks (is.map fun c => List.range (rowCount rs c)) = ps at hTuples hPicks
    -- the factor is what each choice comes up
    have hFactor : f = k := by
      have hLength := hTuples.length_eq
      have hWidth := congrArg List.length hPicks
      rw [List.length_map] at hLength
      rw [List.length_map, List.length_map, length_picks_represented hListed] at hWidth
      have hCopies : (ps.flatMap fun p => List.replicate k p).length = k * ps.length := by
        simp [List.length_flatMap, Nat.mul_comm]
      have hPos : 0 < ps.length := by
        refine Nat.pos_of_ne_zero fun hZero => hNone (List.length_eq_zero_iff.mp ?_)
        rw [hLength, hCopies, hZero, Nat.mul_zero]
      exact Nat.eq_of_mul_eq_mul_right hPos (by rw [← hCopies, ← hLength, ← hDivides, hWidth])
    refine (List.map_perm_map_iff (ok_injective (ε := EvalError K.Error))).mp ?_
    have hLeft : ((List.replicate f ()).flatMap fun _ => picks (chunks.map represented)).map
        (List.map .ok) = (List.replicate f ()).flatMap fun _ => ps.map (valuesAt rs es) := by
      rw [List.map_flatMap, hPicks]
    have hRight : (rs.tuples.map fun t => es.map (cellAt rs (rowIn t))) =
        (rs.tuples.map fun t => is.map (rowIn t)).map (valuesAt rs es) := by
      rw [List.map_map]
      exact List.map_congr_left fun t ht => values_of_tuple hAll ht
    rw [hLeft, hCells, hRight]
    have hOnce := (hTuples.map (valuesAt rs es)).symm
    rw [List.map_flatMap] at hOnce
    simp only [List.map_replicate] at hOnce
    refine List.Perm.trans ?_ hOnce
    have hComm := flatMap_comm_perm (List.replicate f ()) ps fun _ p => [valuesAt rs es p]
    simp only [← List.map_eq_flatMap] at hComm
    refine hComm.trans (List.Perm.of_eq (List.flatMap_congr fun p _ => ?_))
    rw [List.map_replicate, hFactor]

/-- With the columns told apart, the output is that of whole chunks, each of several rows crossed
once. -/
theorem multiplies_of_keepsBag (hrs : rs.WellFormed) (hApart : TellsApart rs es)
    (hKeeps : KeepsBag rs es) : FailsOnTuple rs es ∨ Multiplies rs es := by
  unfold KeepsBag at hKeeps
  cases hProjected : projected rs es with
  | error err =>
    refine .inl ?_
    by_contra hNone
    have hRow : ∀ t ∈ rs.tuples, ∃ vs : List K.Val,
        (es.mapM fun e => plainValue rs e (rowIn t)) = .ok vs := by
      intro t ht
      obtain ⟨vs, hvs⟩ := exists_map_ok fun e he =>
        not_forall_not.mp fun h => hNone ⟨t, ht, e, he, h⟩
      exact ⟨vs, mapM_ok_iff.mpr hvs⟩
    obtain ⟨values, hValues⟩ := exists_map_ok hRow
    cases hProjected.symm.trans (mapM_ok_iff.mpr hValues)
  | ok values =>
    rw [hProjected] at hKeeps
    obtain ⟨out, hOut, hPerm⟩ := hKeeps
    obtain ⟨hNe, hEs, chunks, hEval, hNum, rfl⟩ := projectResultSet_ok hrs hOut
    obtain ⟨hAll, hListed⟩ := listed_of_evaluated hrs hEval
    obtain ⟨values', hValues, hCells⟩ := projected_eq hAll hListed
    obtain rfl : values' = values := Except.ok.inj (hValues.symm.trans hProjected)
    rw [outputRows_eq hListed] at hPerm
    generalize hFactor : rs.tuples.length % 2 ^ 64 / (numCrossed rs es % 2 ^ 64) = f at hPerm
    have hWidth := length_picks_represented hListed
    have hDivides : f * numCrossed rs es = rs.tuples.length := by
      have hLength := hPerm.length_eq
      have hCount := congrArg List.length hCells
      rw [List.length_map, List.length_map] at hCount
      rw [List.length_flatMap, List.map_const', List.length_replicate, List.sum_replicate_nat,
        hWidth] at hLength
      rw [hLength, hCount]
    -- as many choices of rows as rows of the output
    have hWhole : rs.tuples ≠ [] →
        (∀ c ∈ crossed rs es, (keptOf rs c).length = rowCount rs c) ∧
          ∀ c, 2 ≤ (crossed rs es).count c → rowCount rs c = 1 := by
      intro hSome
      obtain ⟨t, ht⟩ := List.exists_mem_of_ne_nil _ hSome
      have hPos : ∀ c ∈ crossed rs es, 0 < rowCount rs c := fun c hc =>
        Nat.lt_of_lt_of_le (List.length_pos_of_mem (rowIn_mem_keptOf hAll ht hc)) (keptOf_le c)
      have hF : 0 < f := by
        refine Nat.pos_of_ne_zero fun hZero => hSome (List.length_eq_zero_iff.mp ?_)
        rw [← hDivides, hZero, Nat.zero_mul]
      have hNodup : ((picks (chunks.map represented)).map
          (List.map (Except.ok (ε := EvalError K.Error)))).Nodup := by
        refine (nodup_picks fun l hl => ?_).map ok_injective
        obtain ⟨chunk, hChunk, rfl⟩ := List.mem_map.mp hl
        have hMem : Except.ok chunk ∈ es.map (FactorizedExpr.evaluate rs) :=
          hEval ▸ List.mem_map_of_mem hChunk
        obtain ⟨e, he, hChunkEq⟩ := List.mem_map.mp hMem
        exact hApart e he chunk hChunkEq
      have hSub : (picks (chunks.map represented)).map (List.map .ok) ⊆
          (picks ((crossed rs es).dedup.map (keptOf rs))).map (valuesAt rs es) := by
        intro row hRow
        obtain ⟨vs, hvs, rfl⟩ := List.mem_map.mp hRow
        have hMem : vs ∈ values' := hPerm.subset (List.mem_flatMap.mpr
          ⟨(), List.mem_replicate.mpr ⟨Nat.ne_of_gt hF, rfl⟩, hvs⟩)
        have hCell : vs.map Except.ok ∈ values'.map (List.map (Except.ok (ε := EvalError K.Error))) :=
          List.mem_map_of_mem hMem
        rw [hCells] at hCell
        obtain ⟨t', ht', hEq⟩ := List.mem_map.mp hCell
        rw [values_of_tuple hAll ht'] at hEq
        refine List.mem_map.mpr ⟨_, ?_, hEq⟩
        exact mem_picks.mpr (List.forall₂_map_right_iff.mpr (List.forall₂_map_left_iff.mpr
          (List.forall₂_same.mpr fun c hc =>
            rowIn_mem_keptOf hAll ht' (List.mem_dedup.mp hc))))
      have hLe := (List.subperm_of_subset hNodup hSub).length_le
      rw [List.length_map, List.length_map, hWidth, length_picks, List.map_map] at hLe
      have hGe : ((crossed rs es).dedup.map fun c => (keptOf rs c).length).prod ≤
          numCrossed rs es := prod_dedup_le keptOf_le hPos
      exact eq_of_prod_eq keptOf_le hPos (Nat.le_antisymm hLe hGe)
    refine .inr ⟨hNe, hEs, hAll, hNum, by rw [hFactor, hDivides], fun hSome c hc => ?_,
      fun hSome => (hWhole hSome).2⟩
    refine (keptOf_sublist c).eq_of_length ?_
    rw [List.length_range]
    exact (hWhole hSome).1 c hc

/-- **When a projection keeps multiplicities.** An expression fails on a tuple, and there is no
output; or the counts are those of the output, and whole chunks are crossed, none of several rows
twice. This is the only way, as long as no column has a value twice. -/
theorem project_keeps_bag (es : List (FactorizedExpr K.Ty K.Val)) (hrs : rs.WellFormed) :
    (FailsOnTuple rs es ∨ Multiplies rs es → KeepsBag rs es) ∧
      (TellsApart rs es → KeepsBag rs es → FailsOnTuple rs es ∨ Multiplies rs es) :=
  ⟨fun h => h.elim (keepsBag_of_fails hrs) (keepsBag_of_multiplies hrs), multiplies_of_keepsBag hrs⟩

end Bag

-- ----
-- Two projections
-- ----

theorem multiplies_unflat :
    Multiplies (K := arrow) flatAndUnflat [.dataRef ⟨1, 0⟩, .dataRef ⟨0, 0⟩] where
  chunks := List.cons_ne_nil _ _
  exprs := List.cons_ne_nil _ _
  computes := by
    intro e he
    rcases List.mem_cons.mp he with rfl | he
    · exact ⟨_, rfl⟩
    · obtain rfl := List.mem_singleton.mp he
      exact ⟨_, rfl⟩
  counted := by decide
  divides := by decide
  whole := fun _ c hc => by
    obtain rfl := List.mem_singleton.mp hc
    decide
  once := fun _ c hc => by
    have hLe : (crossed (K := arrow) flatAndUnflat [.dataRef ⟨1, 0⟩, .dataRef ⟨0, 0⟩]).count c ≤ 1 :=
      List.count_le_length
    omega

theorem tellsApart_unflat :
    TellsApart (K := arrow) flatAndUnflat [.dataRef ⟨1, 0⟩, .dataRef ⟨0, 0⟩] := by
  intro e he chunk hChunk
  rcases List.mem_cons.mp he with rfl | he
  · obtain rfl := Except.ok.inj hChunk
    exact List.nodup_cons.mpr ⟨fun h => (nomatch List.mem_singleton.mp h), List.nodup_singleton _⟩
  · obtain rfl := List.mem_singleton.mp he
    obtain rfl := Except.ok.inj hChunk
    exact List.nodup_singleton _

/-- An unflat column before a flat one. -/
theorem project_keeps_bag_unflat :
    KeepsBag (K := arrow) flatAndUnflat [.dataRef ⟨1, 0⟩, .dataRef ⟨0, 0⟩] ∧
      (FailsOnTuple (K := arrow) flatAndUnflat [.dataRef ⟨1, 0⟩, .dataRef ⟨0, 0⟩] ∨
        Multiplies (K := arrow) flatAndUnflat [.dataRef ⟨1, 0⟩, .dataRef ⟨0, 0⟩]) := by
  obtain ⟨hKeeps, hOnly⟩ := project_keeps_bag (K := arrow)
    [.dataRef ⟨1, 0⟩, .dataRef ⟨0, 0⟩] flatAndUnflat_wellFormed
  have hBag := hKeeps (.inr multiplies_unflat)
  exact ⟨hBag, hOnly tellsApart_unflat hBag⟩

/-- An unflat chunk without rows. -/
def emptyUnflat : arrow.Rows := ⟨1, [⟨[int32Column []], none, none⟩]⟩

theorem emptyUnflat_wellFormed : emptyUnflat.WellFormed := by
  intro c hc
  obtain rfl := List.mem_singleton.mp hc
  exact ⟨by decide, by decide, nofun, nofun⟩

/-- Two columns of one chunk of two rows have two tuples; the output has none, its factor being
2 / 4. A column of an empty chunk has none, and its projection divides by zero. -/
theorem project_loses_pairs :
    threeColumns.WellFormed ∧
      ¬KeepsBag (K := arrow) threeColumns [.dataRef ⟨0, 0⟩, .dataRef ⟨0, 1⟩] ∧
      emptyUnflat.WellFormed ∧ ¬KeepsBag (K := arrow) emptyUnflat [.dataRef ⟨0, 0⟩] := by
  refine ⟨threeColumns_wellFormed, ?_, emptyUnflat_wellFormed, ?_⟩
  · rintro ⟨out, hOut, hPerm⟩
    obtain rfl := Except.ok.inj hOut
    have hLength : 0 = 2 := hPerm.length_eq
    cases hLength
  · rintro ⟨out, hOut, -⟩
    cases hOut

end MiniGU
