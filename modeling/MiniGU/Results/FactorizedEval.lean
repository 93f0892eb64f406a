import Mathlib.Algebra.GroupWithZero.Nat
import MiniGU.Invariant.Evaluated

/-!
# The factorized evaluator and the plain one

A result set stands for the Cartesian product of its chunks. The value of an expression on a
tuple of the product is what the plain evaluator makes of the tuple laid out as one row; it
depends on the chunks that the expression refers to, and `tuples` runs over the rows that
these stand for.

The factorized evaluator knows which chunk an operand runs over only where the operand is a
bare column reference. Anything else it takes for a chunk of its own, so a chunk that comes up
on both sides of a node is crossed with itself; and a result carries no filter.
-/

namespace MiniGU

namespace FactorizedExpr

variable {K : Kernels}

/-! ## Tuples -/

/-- The columns of the chunks side by side, at one row of each. -/
def tupleColumns : List K.Chunk → (Nat → Nat) → List K.Array
  | [], _ => []
  | c :: cs, τ =>
    (c.columns.map fun a => { a with values := a.values[τ 0]?.toList }) ++
      tupleColumns cs fun n => τ (n + 1)

def tuple (rs : K.Rows) (τ : Nat → Nat) : K.Chunk := DataChunk.new (tupleColumns rs.dataChunks τ)

def columnIndex (rs : K.Rows) (pos : DataPos) : Nat :=
  ((rs.dataChunks.take pos.dataChunkPos).map fun c => c.columns.length).sum + pos.columnPos

/-- The expression over the columns of a tuple. -/
def plain (rs : K.Rows) : FactorizedExpr K.Ty K.Val → Expr K.Ty K.Val
  | .dataRef pos => .columnRef (columnIndex rs pos)
  | .constant ty value => .constant ty value
  | .unary op operand => .unary op (plain rs operand)
  | .binary op left right => .binary op (plain rs left) (plain rs right)
  | .boxed inner => plain rs inner

def plainValue (rs : K.Rows) (e : FactorizedExpr K.Ty K.Val) (τ : Nat → Nat) : K.Result K.Val := do
  let datum ← (plain rs e).evaluate (tuple rs τ)
  match datum.array.values with
  | [a] => .ok a
  | _ => .error .panicked

def refs : FactorizedExpr K.Ty K.Val → List Nat
  | .dataRef pos => [pos.dataChunkPos]
  | .constant .. => []
  | .unary _ operand => refs operand
  | .binary _ left right => refs left ++ refs right
  | .boxed inner => refs inner

/-- The unflat chunks that the expression refers to, each once. -/
def unflatRefs (rs : K.Rows) (e : FactorizedExpr K.Ty K.Val) : List Nat :=
  ((refs e).filter fun c => (cursor rs c).isNone).dedup

def keptOf (rs : K.Rows) (c : Nat) : List Nat :=
  ((rs.getDataChunk c).map DataChunk.keptRows).getD []

def cursors (rs : K.Rows) (c : Nat) : Nat := (cursor rs c).getD 0

/-- The tuples of the product, as far as the expression can tell them apart: the rows that the
filters keep of the unflat chunks it refers to, beside the current rows of the flat ones. -/
def tuples (rs : K.Rows) (e : FactorizedExpr K.Ty K.Val) : List (Nat → Nat) :=
  (picks ((unflatRefs rs e).map (keptOf rs))).map (assign (cursors rs) (unflatRefs rs e))

/-- The values that a chunk of one column stands for. -/
def represented (chunk : K.Chunk) : List K.Val :=
  match chunk.columns.head?, chunk.curIdx with
  | none, _ => []
  | some column, some i => column.values[i]?.toList
  | some column, none => chunk.keptRows.filterMap fun i => column.values[i]?

/-- The evaluation stands, tuple for tuple, for the values of the plain evaluator, and fails
where that fails on one. -/
def Agrees (rs : K.Rows) (e : FactorizedExpr K.Ty K.Val) : Prop :=
  match (tuples rs e).mapM (plainValue rs e) with
  | .ok values => ∃ chunk, evaluate rs e = .ok chunk ∧ represented chunk = values
  | .error _ => ∃ err, evaluate rs e = .error err

/-- The plain evaluator has no value for some tuple. -/
def Fails (rs : K.Rows) (e : FactorizedExpr K.Ty K.Val) : Prop :=
  ∃ τ ∈ tuples rs e, ∀ a, plainValue rs e τ ≠ .ok a

/-- The filters keep every row that is run over, and a chunk that is crossed with itself has one
row. -/
def Uncrossed (rs : K.Rows) (e : FactorizedExpr K.Ty K.Val) : Prop :=
  (∀ c ∈ unflatRefs rs e, keptOf rs c = List.range (rowCount rs c)) ∧
    ∀ c, 2 ≤ (scope rs e).count c → rowCount rs c = 1

/-! ## The plain value of a tuple -/

section Plain

variable {rs : K.Rows} {τ : Nat → Nat}

/-- The value at a row of each chunk. -/
def cellAt (rs : K.Rows) (τ : Nat → Nat) : FactorizedExpr K.Ty K.Val → K.Result K.Val
  | .dataRef pos =>
    match (rs.getColumn pos).bind fun column => column.values[τ pos.dataChunkPos]? with
    | none => .error .panicked
    | some a => .ok a
  | .constant _ value => .ok value
  | .unary op operand => do
    let a ← cellAt rs τ operand
    K.lift (K.unary op a)
  | .binary op left right => do
    let a ← cellAt rs τ left
    let b ← cellAt rs τ right
    K.lift (K.binary op a b)
  | .boxed inner => cellAt rs τ inner

theorem getElem_tupleColumns {cs : List K.Chunk} {n j : Nat} {c : K.Chunk} {column : K.Array}
    (hc : cs[n]? = some c) (hj : c.columns[j]? = some column) (τ : Nat → Nat) :
    (tupleColumns cs τ)[((cs.take n).map fun c => c.columns.length).sum + j]? =
      some { column with values := column.values[τ n]?.toList } := by
  induction cs generalizing n τ with
  | nil => cases hc
  | cons c' cs ih =>
    unfold tupleColumns
    cases n with
    | zero =>
      obtain rfl := Option.some.inj hc
      have hBound : j < c'.columns.length := (List.getElem?_eq_some_iff.mp hj).1
      rw [List.take_zero, List.map_nil, List.sum_nil, Nat.zero_add,
        List.getElem?_append_left (by rw [List.length_map]; exact hBound), List.getElem?_map, hj]
      rfl
    | succ n =>
      rw [List.take_succ_cons, List.map_cons, List.sum_cons, Nat.add_assoc,
        List.getElem?_append_right (by rw [List.length_map]; omega), List.length_map,
        Nat.add_sub_cancel_left]
      exact ih hc fun n => τ (n + 1)

/-- The plain evaluation of an expression on one tuple gives its value there. -/
theorem plain_evaluate {e : FactorizedExpr K.Ty K.Val} {ty : K.Ty} {a : K.Val}
    (hTy : dataType rs e = .ok ty) (ha : cellAt rs τ e = .ok a) :
    ∃ isScalar, (plain rs e).evaluate (tuple rs τ) = .ok ⟨⟨ty, [a]⟩, isScalar⟩ := by
  induction e generalizing ty a with
  | dataRef pos =>
    unfold dataType at hTy
    unfold cellAt at ha
    cases hColumn : rs.getColumn pos with
    | none => rw [hColumn] at hTy; cases hTy
    | some column =>
      rw [hColumn] at hTy ha
      obtain rfl := Except.ok.inj hTy
      rw [Option.bind_some] at ha
      cases hRow : column.values[τ pos.dataChunkPos]? with
      | none => rw [hRow] at ha; cases ha
      | some b =>
        rw [hRow] at ha
        obtain rfl := Except.ok.inj ha
        obtain ⟨c, hc, hj⟩ := Option.bind_eq_some_iff.mp hColumn
        have hAt : (tuple rs τ).columns[columnIndex rs pos]? = _ := getElem_tupleColumns hc hj τ
        refine ⟨false, ?_⟩
        unfold plain Expr.evaluate
        rw [hAt, hRow]
        rfl
  | constant ty' value =>
    obtain rfl := Except.ok.inj hTy
    obtain rfl := Except.ok.inj ha
    exact ⟨true, rfl⟩
  | unary op operand ih =>
    obtain ⟨oty, hOty, hTy⟩ := bind_ok_iff.mp hTy
    obtain ⟨b, hb, ha⟩ := bind_ok_iff.mp ha
    obtain ⟨s, hEval⟩ := ih hOty hb
    have hArray : K.applyUnary op ⟨oty, [b]⟩ = .ok ⟨ty, [a]⟩ :=
      Kernels.applyUnary_ok_iff.mpr ⟨hTy, by simp [ha]⟩
    refine ⟨s, ?_⟩
    unfold plain Expr.evaluate
    rw [hEval, ok_bind, hArray, ok_bind]
  | binary op left right ihl ihr =>
    obtain ⟨lty, hLty, hTy⟩ := bind_ok_iff.mp hTy
    obtain ⟨rty, hRty, hTy⟩ := bind_ok_iff.mp hTy
    obtain ⟨x, hx, ha⟩ := bind_ok_iff.mp ha
    obtain ⟨y, hy, ha⟩ := bind_ok_iff.mp ha
    obtain ⟨s, hLeft⟩ := ihl hLty hx
    obtain ⟨t, hRight⟩ := ihr hRty hy
    have hArray : K.applyOp op ⟨⟨lty, [x]⟩, s⟩ ⟨⟨rty, [y]⟩, t⟩ = .ok ⟨ty, [a]⟩ :=
      Kernels.applyOp_single.mpr ⟨hTy, a, ha, rfl⟩
    refine ⟨s && t, ?_⟩
    unfold plain Expr.evaluate
    rw [hLeft, ok_bind, hRight, ok_bind, hArray, ok_bind]
  | boxed inner ih => exact ih hTy ha

theorem plainValue_eq {e : FactorizedExpr K.Ty K.Val} {ty : K.Ty} {a : K.Val}
    (hTy : dataType rs e = .ok ty) (ha : cellAt rs τ e = .ok a) : plainValue rs e τ = .ok a := by
  obtain ⟨s, hEval⟩ := plain_evaluate hTy ha
  unfold plainValue
  rw [hEval, ok_bind]

theorem type_of_computes {e : FactorizedExpr K.Ty K.Val} (h : Computes rs e) :
    ∃ ty, dataType rs e = .ok ty := by
  induction e with
  | dataRef pos =>
    obtain ⟨column, hColumn⟩ := h
    exact ⟨column.dataType, by rw [dataType, hColumn]⟩
  | constant ty value => exact ⟨ty, rfl⟩
  | unary op operand => exact h.2.1
  | binary op left right => exact h.2.2.2.1
  | boxed inner ih => exact ih h

end Plain

/-! ## Which chunks are run over -/

section Scope

variable {rs : K.Rows} {e : FactorizedExpr K.Ty K.Val}

/-- A flat expression refers to no unflat chunk, and stands at one row of at most one chunk. -/
theorem scope_of_flat (h : isFlat rs e = true) :
    (scope rs e).length ≤ 1 ∧ (∀ c ∈ scope rs e, (cursor rs c).isSome = true) ∧
      (refs e).filter (fun c => (cursor rs c).isNone) = [] := by
  induction e with
  | dataRef pos =>
    have hCursor : (cursor rs pos.dataChunkPos).isSome = true := h
    refine ⟨Nat.le_refl 1, fun c hc => ?_, ?_⟩
    · rwa [List.mem_singleton.mp hc]
    · refine List.filter_eq_nil_iff.mpr fun c hc => ?_
      rw [List.mem_singleton.mp hc, Option.isNone_eq_false_iff.mpr hCursor]
      exact Bool.false_ne_true
  | constant ty value => exact ⟨Nat.zero_le 1, fun c hc => (by cases hc), rfl⟩
  | unary op operand ih => exact ih h
  | binary op left right ihl ihr =>
    obtain ⟨hl, hr⟩ := Bool.and_eq_true_iff.mp h
    have hScope : scope rs (.binary op left right) = [] := by
      rw [scope, hl, hr]
    rw [hScope, refs, List.filter_append, (ihl hl).2.2, (ihr hr).2.2]
    exact ⟨Nat.zero_le 1, fun c hc => (by cases hc), rfl⟩
  | boxed inner ih => exact ih h

theorem dedup_union (l m : List Nat) : l.dedup ∪ m = l ∪ m := by
  induction l with
  | nil => rfl
  | cons c l ih =>
    rw [List.cons_union]
    by_cases hc : c ∈ l
    · rw [List.dedup_cons_of_mem hc, ih, List.insert_of_mem (List.mem_union_left hc m)]
    · rw [List.dedup_cons_of_notMem hc, List.cons_union, ih]

theorem dedup_append_congr {l l' m m' : List Nat} (hl : l.dedup = l'.dedup)
    (hm : m.dedup = m'.dedup) : (l ++ m).dedup = (l' ++ m').dedup := by
  rw [List.dedup_append, List.dedup_append, hm, ← dedup_union l, hl, dedup_union]

/-- Without repetitions, the scope is the list of the unflat chunks of the expression. -/
theorem scope_dedup (h : isFlat rs e = false) : (scope rs e).dedup = unflatRefs rs e := by
  induction e with
  | dataRef pos =>
    have hCursor : (cursor rs pos.dataChunkPos).isNone = true := Option.isSome_eq_false_iff.mp h
    unfold unflatRefs refs scope
    rw [List.filter_singleton, hCursor]
    rfl
  | constant ty value => cases h
  | unary op operand ih => exact ih h
  | binary op left right ihl ihr =>
    unfold unflatRefs refs
    rw [List.filter_append]
    cases hl : isFlat rs left with
    | true =>
      have hr : isFlat rs right = false := by
        rw [isFlat, hl, Bool.true_and] at h
        exact h
      rw [scope, hl, hr, (scope_of_flat hl).2.2]
      exact ihr hr
    | false =>
      cases hr : isFlat rs right with
      | true =>
        rw [scope, hl, hr, (scope_of_flat hr).2.2, List.append_nil]
        exact ihl hl
      | false =>
        have hCross : (scope rs left ++ scope rs right).dedup =
            (((refs left).filter fun c => (cursor rs c).isNone) ++
              (refs right).filter fun c => (cursor rs c).isNone).dedup :=
          dedup_append_congr (ihl hl) (ihr hr)
        rw [scope, hl, hr, ← hCross]
        by_cases hSame : checkSameChunk left right = true
        · -- the reference to the chunk that is dropped comes up again
          obtain ⟨l, r, rfl, rfl, hPos⟩ := same_of_checkSameChunk hSame
          simp [scope, hSame, hPos]
        · simp only [hSame, Bool.false_eq_true, if_false]
  | boxed inner ih => exact ih h

/-- Read at the rows of a tuple, the cell of the scope is the value at the tuple. -/
theorem cell_scope {τ : Nat → Nat} (hτ : ∀ c i, cursor rs c = some i → τ c = i) :
    cell rs e ((scope rs e).map τ) = cellAt rs τ e := by
  -- a flat operand stands where the tuple does
  have hCurrent : ∀ e : FactorizedExpr K.Ty K.Val, isFlat rs e = true →
      current rs e = (scope rs e).map τ := by
    refine fun e he => List.map_congr_left fun c hc => ?_
    obtain ⟨i, hi⟩ := Option.isSome_iff_exists.mp ((scope_of_flat he).2.1 c hc)
    rw [hi, hτ c i hi]
    rfl
  induction e with
  | dataRef pos => rfl
  | constant ty value => rfl
  | unary op operand ih =>
    unfold cell cellAt scope
    rw [ih]
  | binary op left right ihl ihr =>
    have hLeft : leftPick rs left ((scope rs (.binary op left right)).map τ) =
        (scope rs left).map τ := by
      unfold leftPick
      cases hl : isFlat rs left with
      | true => exact hCurrent left hl
      | false =>
        cases hr : isFlat rs right <;> by_cases hSame : checkSameChunk left right = true <;>
          simp [scope, hl, hr, hSame, List.take_of_length_le]
    have hRight : rightPick rs left right ((scope rs (.binary op left right)).map τ) =
        (scope rs right).map τ := by
      unfold rightPick
      cases hr : isFlat rs right with
      | true => exact hCurrent right hr
      | false =>
        cases hl : isFlat rs left with
        | true => simp [scope, hl, hr]
        | false =>
          by_cases hSame : checkSameChunk left right = true
          · simp [scope, hl, hr, hSame, scope_same hSame]
          · simp [scope, hl, hr, hSame]
    unfold cell cellAt
    rw [hLeft, hRight, ihl, ihr]
  | boxed inner ih => exact ih

theorem cursor_of_mem_scope (h : isFlat rs e = false) {c : Nat} (hc : c ∈ scope rs e) :
    cursor rs c = none := by
  have hMem : c ∈ unflatRefs rs e := by
    rw [← scope_dedup h]
    exact List.mem_dedup.mpr hc
  exact Option.isNone_iff_eq_none.mp (List.mem_filter.mp (List.mem_dedup.mp hMem)).2

/-- Without filters and self-products, the rows of the column are the tuples. -/
theorem cells_of_uncrossed (h : isFlat rs e = false) (hUncrossed : Uncrossed rs e) :
    (rows rs e).map (cell rs e) = (tuples rs e).map fun τ => cellAt rs τ e := by
  have hKept : ∀ c ∈ scope rs e, keptOf rs c = List.range (rowCount rs c) := fun c hc =>
    hUncrossed.1 c (scope_dedup h ▸ List.mem_dedup.mpr hc)
  have hRows : rows rs e = picks ((scope rs e).map (keptOf rs)) := by
    unfold rows
    rw [List.map_congr_left hKept]
  have hSettled : Settled (keptOf rs) (scope rs e) := by
    intro c hc
    have hMem : c ∈ scope rs e := List.count_pos_iff.mp (by omega)
    exact ⟨0, by rw [hKept c hMem, hUncrossed.2 c hc]; rfl⟩
  unfold tuples
  rw [← scope_dedup h, ← map_assign_dedup hSettled, List.map_map, hRows]
  refine List.map_congr_left fun p hp => ?_
  have hAssign : ∀ c i, cursor rs c = some i →
      assign (cursors rs) (scope rs e) p c = i := by
    intro c i hi
    have hNot : c ∉ scope rs e := fun hc => nomatch (cursor_of_mem_scope h hc).symm.trans hi
    rw [assign_of_notMem hNot, cursors, hi]
    rfl
  have hCell := cell_scope (e := e) hAssign
  rw [map_assign hSettled hp] at hCell
  exact hCell

end Scope

/-! ## The agreement -/

section Agree

variable {rs : K.Rows} {e : FactorizedExpr K.Ty K.Val} {chunk : K.Chunk}

theorem unflatRefs_of_flat (h : isFlat rs e = true) : unflatRefs rs e = [] := by
  unfold unflatRefs
  rw [(scope_of_flat h).2.2]
  rfl

theorem uncrossed_of_flat (h : isFlat rs e = true) : Uncrossed rs e := by
  refine ⟨fun c hc => ?_, fun c hc => ?_⟩
  · rw [unflatRefs_of_flat h] at hc
    cases hc
  · have hCount : (scope rs e).count c ≤ (scope rs e).length := List.count_le_length
    have hLength := (scope_of_flat h).1
    omega

theorem represented_of_flat (hList : Listed rs e chunk) (h : isFlat rs e = true) :
    (tuples rs e).mapM (plainValue rs e) = .ok (represented chunk) := by
  obtain ⟨i, column, a, hIdx, hColumns, ha, hTy, hCell⟩ := hList.current h
  have hTuples : tuples rs e = [cursors rs] := by
    unfold tuples
    rw [unflatRefs_of_flat h]
    rfl
  have hAt : cellAt rs (cursors rs) e = .ok a := by
    rw [← hCell]
    refine (cell_scope fun c i hi => ?_).symm
    rw [cursors, hi]
    rfl
  have hRepresented : represented chunk = [a] := by
    unfold represented
    rw [hColumns, hIdx]
    show column.values[i]?.toList = [a]
    rw [ha]
    rfl
  rw [mapM_ok_iff, hTuples, hRepresented]
  exact congrArg (fun x => [x]) (plainValue_eq hTy hAt)

theorem filterMap_getElem?_range {α : Type} (l : List α) :
    ((List.range l.length).filterMap fun i => l[i]?) = l := by
  induction l with
  | nil => rfl
  | cons a l ih =>
    rw [List.length_cons, List.range_succ_eq_map, List.filterMap_cons_some (List.getElem?_cons_zero ..),
      List.filterMap_map]
    exact congrArg (a :: ·) ih

theorem represented_of_unflat (hList : Listed rs e chunk) (h : isFlat rs e = false) :
    (rows rs e).map (cell rs e) = (represented chunk).map .ok := by
  obtain ⟨column, hColumns, -, hCells⟩ := hList.column
  have hKept : chunk.keptRows = List.range column.values.length := by
    unfold DataChunk.keptRows DataChunk.len
    rw [hList.filter, hColumns]
    rfl
  have hRepresented : represented chunk = column.values := by
    unfold represented
    rw [hColumns, hList.unflat h]
    show chunk.keptRows.filterMap (fun i => column.values[i]?) = column.values
    rw [hKept, filterMap_getElem?_range]
  rw [hRepresented]
  exact hCells

theorem length_tuples (h : isFlat rs e = false) :
    (tuples rs e).length = ((scope rs e).dedup.map fun c => (keptOf rs c).length).prod := by
  unfold tuples
  rw [List.length_map, length_picks, List.map_map, scope_dedup h]
  rfl

theorem keptOf_sublist (c : Nat) : (keptOf rs c).Sublist (List.range (rowCount rs c)) := by
  unfold keptOf rowCount
  cases rs.getDataChunk c with
  | none => exact List.nil_sublist _
  | some source =>
    show source.keptRows.Sublist (List.range source.len)
    unfold DataChunk.keptRows
    cases source.filter with
    | none => exact List.Sublist.refl _
    | some f => exact List.filter_sublist

theorem keptOf_le (c : Nat) : (keptOf rs c).length ≤ rowCount rs c := by
  have hLe : (keptOf rs c).length ≤ (List.range (rowCount rs c)).length :=
    (keptOf_sublist c).length_le
  rwa [List.length_range] at hLe

theorem plain_of_listed (hList : Listed rs e chunk) :
    ∃ values, (tuples rs e).mapM (plainValue rs e) = .ok values := by
  cases h : isFlat rs e with
  | true => exact ⟨_, represented_of_flat hList h⟩
  | false =>
    obtain ⟨column, -, hTy, hCells⟩ := hList.column
    suffices hAll : ∀ τ ∈ tuples rs e, ∃ a, plainValue rs e τ = .ok a by
      obtain ⟨values, hValues⟩ := exists_map_ok hAll
      exact ⟨values, mapM_ok_iff.mpr hValues⟩
    intro τ hτ
    obtain ⟨p, hp, rfl⟩ := List.mem_map.mp hτ
    have hAssign : ∀ c i, cursor rs c = some i →
        assign (cursors rs) (unflatRefs rs e) p c = i := by
      intro c i hi
      have hNot : c ∉ unflatRefs rs e := by
        rw [← scope_dedup h, List.mem_dedup]
        exact fun hc => nomatch (cursor_of_mem_scope h hc).symm.trans hi
      rw [assign_of_notMem hNot, cursors, hi]
      rfl
    have hRow : (scope rs e).map (assign (cursors rs) (unflatRefs rs e) p) ∈ rows rs e := by
      refine mem_picks.mpr (List.forall₂_map_right_iff.mpr (List.forall₂_map_left_iff.mpr
        (List.forall₂_same.mpr fun c hc => ?_)))
      have hMem : c ∈ unflatRefs rs e := scope_dedup h ▸ List.mem_dedup.mpr hc
      have hKept : assign (cursors rs) (unflatRefs rs e) p c ∈ keptOf rs c := assign_mem hp hMem
      exact (keptOf_sublist c).subset hKept
    obtain ⟨a, ha⟩ := ok_of_map_ok hCells _ hRow
    rw [cell_scope hAssign] at ha
    exact ⟨a, plainValue_eq hTy ha⟩

/-- As many rows as tuples: no row is left out and none is crossed twice. -/
theorem uncrossed_of_length (h : isFlat rs e = false)
    (hEmpty : ¬∃ c ∈ unflatRefs rs e, rowCount rs c = 0)
    (hLength : width rs e = (tuples rs e).length) : Uncrossed rs e := by
  have hPos : ∀ c ∈ scope rs e, 0 < rowCount rs c := by
    intro c hc
    refine Nat.pos_of_ne_zero fun hZero => hEmpty ⟨c, ?_, hZero⟩
    rw [← scope_dedup h]
    exact List.mem_dedup.mpr hc
  rw [length_tuples h] at hLength
  obtain ⟨hWhole, hOne⟩ := eq_of_prod_eq keptOf_le hPos hLength
  refine ⟨fun c hc => (keptOf_sublist c).eq_of_length ?_, hOne⟩
  rw [← scope_dedup h] at hc
  rw [List.length_range]
  exact hWhole c (List.mem_dedup.mp hc)

theorem nothing_of_empty (h : isFlat rs e = false) {c : Nat} (hc : c ∈ unflatRefs rs e)
    (hZero : rowCount rs c = 0) : rows rs e = [] ∧ tuples rs e = [] := by
  have hScope : c ∈ scope rs e := by
    rw [← scope_dedup h] at hc
    exact List.mem_dedup.mp hc
  have hKept : keptOf rs c = [] := by
    have hLe : (keptOf rs c).length ≤ rowCount rs c := keptOf_le c
    exact List.length_eq_zero_iff.mp (by omega)
  refine ⟨picks_eq_nil.mpr (List.mem_map.mpr ⟨c, hScope, by rw [hZero]; rfl⟩), ?_⟩
  unfold tuples
  rw [picks_eq_nil.mpr (List.mem_map.mpr ⟨c, hc, hKept⟩)]
  rfl

/-- What a successful evaluation stands for is what the tuples give. -/
theorem plain_eq_represented (hTy : ∃ ty, dataType rs e = .ok ty) (hList : Listed rs e chunk)
    (hRows : (∃ c ∈ unflatRefs rs e, rowCount rs c = 0) ∨ Uncrossed rs e) :
    (tuples rs e).mapM (plainValue rs e) = .ok (represented chunk) := by
  obtain ⟨ty, hTy⟩ := hTy
  cases h : isFlat rs e with
  | true => exact represented_of_flat hList h
  | false =>
    have hCells := represented_of_unflat hList h
    rw [mapM_ok_iff]
    rcases hRows with ⟨c, hc, hZero⟩ | hUncrossed
    · obtain ⟨hNoRow, hNoTuple⟩ := nothing_of_empty h hc hZero
      rw [hNoRow] at hCells
      rw [hNoTuple]
      exact hCells
    · rw [cells_of_uncrossed h hUncrossed] at hCells
      rw [← hCells]
      refine List.map_congr_left fun τ hτ => ?_
      obtain ⟨a, ha⟩ := ok_of_map_ok hCells τ hτ
      rw [ha]
      exact plainValue_eq hTy ha

/-- The two evaluators agree exactly where the plain one fails, or the kernels accept all rows
of all nodes and a chunk is empty, or no chunk is filtered and none of more than one row is
crossed with itself. -/
theorem evaluate_agrees_iff (hrs : rs.WellFormed) :
    Agrees rs e ↔ Fails rs e ∨ (Computes rs e ∧
      ((∃ c ∈ unflatRefs rs e, rowCount rs c = 0) ∨ Uncrossed rs e)) := by
  unfold Agrees
  cases hPlain : (tuples rs e).mapM (plainValue rs e) with
  | error err =>
    have hFails : Fails rs e := by
      by_contra hNone
      have hAll : ∀ τ ∈ tuples rs e, ∃ a, plainValue rs e τ = .ok a := fun τ hτ =>
        not_forall_not.mp fun h => hNone ⟨τ, hτ, h⟩
      obtain ⟨values, hValues⟩ := exists_map_ok hAll
      cases hPlain.symm.trans (mapM_ok_iff.mpr hValues)
    refine ⟨fun _ => .inl hFails, fun _ => ?_⟩
    cases hEval : evaluate rs e with
    | error err' => exact ⟨err', rfl⟩
    | ok chunk =>
      obtain ⟨values, hValues⟩ := plain_of_listed ((evaluate_spec hrs e).1 chunk hEval).2
      cases hPlain.symm.trans hValues
  | ok values =>
    have hNoFail : ¬Fails rs e := fun ⟨τ, hτ, hNone⟩ =>
      (ok_of_map_ok (mapM_ok_iff.mp hPlain) τ hτ).elim hNone
    constructor
    · rintro ⟨chunk, hEval, rfl⟩
      obtain ⟨hComputes, hList⟩ := (evaluate_spec hrs e).1 chunk hEval
      refine .inr ⟨hComputes, ?_⟩
      cases h : isFlat rs e with
      | true => exact .inr (uncrossed_of_flat h)
      | false =>
        by_cases hEmpty : ∃ c ∈ unflatRefs rs e, rowCount rs c = 0
        · exact .inl hEmpty
        · have hCells := congrArg List.length (represented_of_unflat hList h)
          have hTuples := congrArg List.length (mapM_ok_iff.mp hPlain)
          rw [List.length_map, List.length_map, length_rows] at hCells
          rw [List.length_map, List.length_map] at hTuples
          exact .inr (uncrossed_of_length h hEmpty (hCells.trans hTuples.symm))
    · intro h
      obtain ⟨hComputes, hRows⟩ := h.resolve_left hNoFail
      obtain ⟨chunk, hEval⟩ := (evaluate_spec hrs e).2 hComputes
      have hList := ((evaluate_spec hrs e).1 chunk hEval).2
      have hEq := plain_eq_represented (type_of_computes hComputes) hList hRows
      exact ⟨chunk, hEval, Except.ok.inj (hEq.symm.trans hPlain)⟩

end Agree

end FactorizedExpr

/-! ## Kernels of 32-bit integers and booleans -/

inductive ArrowType where
  | int32
  | boolean
deriving DecidableEq, Repr

inductive ArrowValue where
  | int32 (i : Option Int)
  | boolean (b : Option Bool)
deriving DecidableEq, Repr

inductive ArrowError where
  | invalidArgument
  | overflow
  | divideByZero
deriving DecidableEq, Repr

def checkInt32 (i : Int) : Except ArrowError ArrowValue :=
  if -2 ^ 31 ≤ i ∧ i < 2 ^ 31 then .ok (.int32 (some i)) else .error .overflow

def andKleene : Option Bool → Option Bool → Option Bool
  | some false, _ => some false
  | _, some false => some false
  | some true, some true => some true
  | _, _ => none

def orKleene : Option Bool → Option Bool → Option Bool
  | some true, _ => some true
  | _, some true => some true
  | some false, some false => some false
  | _, _ => none

/-- The comparison that an operator makes of the order of two values. -/
def compareOp : BinaryOp → Ordering → Option Bool
  | .eq, o => some (o == .eq)
  | .ne, o => some (o != .eq)
  | .gt, o => some (o == .gt)
  | .ge, o => some (o != .lt)
  | .lt, o => some (o == .lt)
  | .le, o => some (o != .gt)
  | _, _ => none

def numericOp (op : BinaryOp) (a b : Int) : Except ArrowError ArrowValue :=
  match op with
  | .add => checkInt32 (a + b)
  | .sub => checkInt32 (a - b)
  | .mul => checkInt32 (a * b)
  | .div => if b = 0 then .error .divideByZero else checkInt32 (a.tdiv b)
  | .rem => if b = 0 then .error .divideByZero else .ok (.int32 (some (a.tmod b)))
  | _ => .ok (.boolean (compareOp op (compare a b)))

def arrow : Kernels where
  Ty := ArrowType
  Val := ArrowValue
  Error := ArrowError
  unaryType
    | .neg, .int32 => .ok .int32
    | .not, .boolean => .ok .boolean
    | _, _ => .error .invalidArgument
  unary
    | .neg, .int32 none => .ok (.int32 none)
    | .neg, .int32 (some i) => checkInt32 (-i)
    | .not, .boolean b => .ok (.boolean (b.map not))
    | _, _ => .error .invalidArgument
  binaryType
    | .and, .boolean, .boolean => .ok .boolean
    | .or, .boolean, .boolean => .ok .boolean
    | .add, .int32, .int32 => .ok .int32
    | .sub, .int32, .int32 => .ok .int32
    | .mul, .int32, .int32 => .ok .int32
    | .div, .int32, .int32 => .ok .int32
    | .rem, .int32, .int32 => .ok .int32
    | op, s, t => if s = t ∧ (compareOp op .eq).isSome then .ok .boolean else .error .invalidArgument
  binary
    | .and, .boolean a, .boolean b => .ok (.boolean (andKleene a b))
    | .or, .boolean a, .boolean b => .ok (.boolean (orKleene a b))
    | op, .int32 (some a), .int32 (some b) => numericOp op a b
    | op, .int32 _, .int32 _ =>
      .ok (if (compareOp op .eq).isSome then .boolean none else .int32 none)
    | op, .boolean (some a), .boolean (some b) => .ok (.boolean (compareOp op (compare a b)))
    | _, .boolean _, .boolean _ => .ok (.boolean none)
    | _, _, _ => .error .invalidArgument

namespace FactorizedExpr

section Examples

def int32Column (is : List Int) : arrow.Array := ⟨ArrowType.int32, is.map fun i => .int32 (some i)⟩

/-- A flat chunk of two rows at the second, and an unflat one of two. -/
def flatAndUnflat : arrow.Rows :=
  ⟨1, [⟨[int32Column [1, 2]], none, some 1⟩, ⟨[int32Column [10, 20]], none, none⟩]⟩

/-- `c0 + c1 * 3`, each of a chunk of its own. -/
def sumOfChunks : FactorizedExpr ArrowType ArrowValue :=
  .binary .add (.dataRef ⟨0, 0⟩)
    (.binary .mul (.dataRef ⟨1, 0⟩) (.constant .int32 (.int32 (some 3))))

theorem flatAndUnflat_wellFormed : flatAndUnflat.WellFormed := by
  intro c hc
  rcases List.mem_cons.mp hc with rfl | hc
  · exact ⟨by decide, by decide, by decide, fun i hi => by cases hi; decide⟩
  · obtain rfl := List.mem_singleton.mp hc
    exact ⟨by decide, by decide, by decide, fun i hi => nomatch hi⟩

theorem evaluate_agrees_sum :
    Fails (K := arrow) flatAndUnflat sumOfChunks ∨ (Computes (K := arrow) flatAndUnflat sumOfChunks ∧
      ((∃ c ∈ unflatRefs (K := arrow) flatAndUnflat sumOfChunks,
        rowCount flatAndUnflat c = 0) ∨ Uncrossed (K := arrow) flatAndUnflat sumOfChunks)) :=
  (evaluate_agrees_iff flatAndUnflat_wellFormed).mp ⟨_, rfl, rfl⟩

/-- An unflat chunk of two rows and three columns. -/
def threeColumns : arrow.Rows :=
  ⟨1, [⟨[int32Column [1, 2], int32Column [3, 4], int32Column [5, 6]], none, none⟩]⟩

/-- `(c0 + c1) * c2`, all of the one chunk. -/
def productOfSum : FactorizedExpr ArrowType ArrowValue :=
  .binary .mul (.binary .add (.dataRef ⟨0, 0⟩) (.dataRef ⟨0, 1⟩)) (.dataRef ⟨0, 2⟩)

theorem threeColumns_wellFormed : threeColumns.WellFormed := by
  intro c hc
  obtain rfl := List.mem_singleton.mp hc
  exact ⟨by decide, by decide, by decide, fun i hi => nomatch hi⟩

/-- The tuples give 20 and 36, the evaluation 20, 24, 30 and 36. -/
theorem self_product_disagrees :
    threeColumns.WellFormed ∧ ¬Agrees (K := arrow) threeColumns productOfSum := by
  refine ⟨threeColumns_wellFormed, ?_⟩
  rintro ⟨chunk, hEval, hValues⟩
  obtain rfl := Except.ok.inj hEval
  have hLength : 4 = 2 := congrArg List.length hValues
  omega

end Examples

end FactorizedExpr

end MiniGU
