import MiniGU.Invariant.Evaluated
import MiniGU.Model.Aggregate

/-!
# Expressions over whole chunks and over rows

An expression may be evaluated on a whole chunk, or on each row alone. `RowWise` says that the two
agree wherever the first gives a value; it is the case for column references, constants and the
operators over these, whatever the kernels.

* `rowWise_expr`: the expressions of the plain evaluator.
-/

namespace MiniGU

namespace StreamExecutor

variable {E F32 F64 : Type}

/-- An evaluator sees the columns of a chunk only, and gives for a row of a chunk what it gives for
this row alone. -/
structure RowWise (expr : Evaluator E ArrayType (Value F32 F64)) : Prop where
  columns : ∀ c c' : ValueChunk F32 F64, c.columns = c'.columns → expr c = expr c'
  rows : ∀ (c : ValueChunk F32 F64) (d : DatumRef ArrayType (Value F32 F64)) (i : Nat)
    (v : Value F32 F64), c.WellFormed → expr c = .ok d → i < c.len →
      d.array.index (E := E) i = .ok v → evaluateRow expr c i = .ok v

end StreamExecutor

/-! ## Operators over columns -/

section Columns

variable {K : Kernels}

/-- The chunk of one row. -/
def singleRow (c : K.Chunk) (i : Nat) : K.Chunk := DataChunk.new (c.takeRows [i])

/-- A datum of a chunk of `n` rows: a value for each, or one for all. -/
def DatumOf (n : Nat) (d : K.DatumRef) : Prop :=
  d.array.values.length = if d.isScalar then 1 else n

/-- The value of a datum at a row. -/
def datumAt (d : K.DatumRef) (i : Nat) : Option K.Val :=
  if d.isScalar then d.array.values[0]? else d.array.values[i]?

/-- `pairs` has the values of two data at each row. -/
def PairsOfRows (n : Nat) (left right : K.DatumRef) (pairs : List (K.Val × K.Val)) : Prop :=
  pairs.length = (if left.isScalar && right.isScalar then 1 else n) ∧
    ∀ i < n, ∀ a b, datumAt left i = some a → datumAt right i = some b →
      (if left.isScalar && right.isScalar then pairs[0]? else pairs[i]?) = some (a, b)

/-- Arrays of one length are paired entry by entry; a scalar is as long as a column of one row. -/
theorem pairsOfRows_zip {n : Nat} {left right : K.DatumRef} (hl : DatumOf n left)
    (hr : DatumOf n right) (hLength : left.array.values.length = right.array.values.length) :
    PairsOfRows n left right (left.array.values.zip right.array.values) := by
  unfold DatumOf at hl hr
  unfold PairsOfRows datumAt
  rw [List.length_zip, ← hLength, Nat.min_self, hl]
  cases hLeft : left.isScalar <;> cases hRight : right.isScalar
  all_goals
    rw [hLeft] at hl
    rw [hRight] at hr
    simp only [if_true, Bool.false_eq_true, if_false, Bool.and_true, Bool.and_false] at hl hr ⊢
  · refine ⟨trivial, fun i _ a b ha hb => ?_⟩
    exact List.getElem?_zip_eq_some.mpr ⟨ha, hb⟩
  · -- a column of one row beside a scalar
    refine ⟨trivial, fun i hi a b ha hb => ?_⟩
    obtain rfl : i = 0 := by omega
    exact List.getElem?_zip_eq_some.mpr ⟨ha, hb⟩
  · refine ⟨by omega, fun i hi a b ha hb => ?_⟩
    obtain rfl : i = 0 := by omega
    exact List.getElem?_zip_eq_some.mpr ⟨ha, hb⟩
  · refine ⟨trivial, fun i _ a b ha hb => ?_⟩
    exact List.getElem?_zip_eq_some.mpr ⟨ha, hb⟩

/-- The pairs of two operands are those of the rows, a scalar being repeated. -/
theorem pairsOf_rows {op : BinaryOp} {n : Nat} {left right : K.DatumRef}
    {pairs : List (K.Val × K.Val)} (hl : DatumOf n left) (hr : DatumOf n right)
    (h : K.pairsOf op left right = .ok pairs) : PairsOfRows n left right pairs := by
  have hZip : K.pairUp left right = .ok pairs → PairsOfRows n left right pairs := by
    intro hPair
    unfold Kernels.pairUp at hPair
    split at hPair
    · rename_i hLength
      obtain rfl := Except.ok.inj hPair
      exact pairsOfRows_zip hl hr hLength
    · cases hPair
  unfold Kernels.pairsOf at h
  split at h
  · exact hZip h
  · unfold Kernels.broadcast at h
    split at h
    · -- one value against a column
      rename_i hLeft hRight
      split at h
      · cases h
      · rename_i a as hValues
        obtain rfl := Except.ok.inj h
        unfold DatumOf at hr
        rw [hRight] at hr
        unfold PairsOfRows datumAt
        rw [hLeft, hRight, hValues]
        refine ⟨by simpa using hr, fun i _ a' b' ha hb => ?_⟩
        simp only [Bool.false_eq_true, if_false, if_true, List.getElem?_cons_zero,
          Option.some.injEq] at ha hb
        simp [hb, ha]
    · rename_i hLeft hRight
      split at h
      · cases h
      · rename_i b bs hValues
        obtain rfl := Except.ok.inj h
        unfold DatumOf at hl
        rw [hLeft] at hl
        unfold PairsOfRows datumAt
        rw [hLeft, hRight, hValues]
        refine ⟨by simpa using hl, fun i _ a' b' ha hb => ?_⟩
        simp only [Bool.false_eq_true, if_false, if_true, List.getElem?_cons_zero,
          Option.some.injEq] at ha hb
        simp [hb, ha]
    · exact hZip h

/-- A kernel on two columns gives in each row what it gives on the values of that row. -/
theorem applyOp_rows {op : BinaryOp} {n : Nat} {left right : K.DatumRef} {array : K.Array}
    (hl : DatumOf n left) (hr : DatumOf n right) (h : K.applyOp op left right = .ok array) :
    DatumOf n ⟨array, left.isScalar && right.isScalar⟩ ∧
      ∀ i < n, ∀ a b, datumAt left i = some a → datumAt right i = some b →
        ∃ v, datumAt ⟨array, left.isScalar && right.isScalar⟩ i = some v ∧
          K.applyOp op ⟨⟨left.array.dataType, [a]⟩, left.isScalar⟩
            ⟨⟨right.array.dataType, [b]⟩, right.isScalar⟩ = .ok ⟨array.dataType, [v]⟩ := by
  obtain ⟨pairs, hTy, hPairs, hValues⟩ := Kernels.applyOp_ok_iff.mp h
  obtain ⟨hLength, hAt⟩ := pairsOf_rows hl hr hPairs
  have hCount := congrArg List.length hValues
  rw [List.length_map, List.length_map] at hCount
  refine ⟨hCount.symm.trans hLength, fun i hi a b ha hb => ?_⟩
  have hPair := hAt i hi a b ha hb
  -- the value at the place of the pair
  have hValue : ∀ j : Nat, pairs[j]? = some (a, b) →
      ∃ v, array.values[j]? = some v ∧ K.lift (K.binary op a b) = .ok v := by
    intro j hj
    have hEntry := congrArg (fun l => l[j]?) hValues
    simp only [List.getElem?_map, hj, Option.map_some] at hEntry
    obtain ⟨v, hv, hEq⟩ := Option.map_eq_some_iff.mp hEntry.symm
    exact ⟨v, hv, hEq.symm⟩
  unfold datumAt
  cases hScalar : left.isScalar && right.isScalar with
  | true =>
    rw [hScalar] at hPair
    obtain ⟨v, hv, hBinary⟩ := hValue 0 hPair
    exact ⟨v, hv, Kernels.applyOp_single.mpr ⟨hTy, v, hBinary, rfl⟩⟩
  | false =>
    rw [hScalar] at hPair
    obtain ⟨v, hv, hBinary⟩ := hValue i hPair
    exact ⟨v, hv, Kernels.applyOp_single.mpr ⟨hTy, v, hBinary, rfl⟩⟩

theorem applyUnary_rows {op : UnaryOp} {n : Nat} {operand : K.DatumRef} {array : K.Array}
    (ho : DatumOf n operand) (h : K.applyUnary op operand.array = .ok array) :
    DatumOf n ⟨array, operand.isScalar⟩ ∧ ∀ i < n, ∀ a, datumAt operand i = some a →
      ∃ v, datumAt ⟨array, operand.isScalar⟩ i = some v ∧
        K.applyUnary op ⟨operand.array.dataType, [a]⟩ = .ok ⟨array.dataType, [v]⟩ := by
  obtain ⟨hTy, hValues⟩ := Kernels.applyUnary_ok_iff.mp h
  have hCount := congrArg List.length hValues
  rw [List.length_map, List.length_map] at hCount
  refine ⟨hCount.symm.trans ho, fun i hi a ha => ?_⟩
  have hValue : ∀ j : Nat, operand.array.values[j]? = some a →
      ∃ v, array.values[j]? = some v ∧ K.lift (K.unary op a) = .ok v := by
    intro j hj
    have hEntry := congrArg (fun l => l[j]?) hValues
    simp only [List.getElem?_map, hj, Option.map_some] at hEntry
    obtain ⟨v, hv, hEq⟩ := Option.map_eq_some_iff.mp hEntry.symm
    exact ⟨v, hv, hEq.symm⟩
  unfold datumAt at ha ⊢
  cases hScalar : operand.isScalar with
  | true =>
    rw [hScalar] at ha
    obtain ⟨v, hv, hUnary⟩ := hValue 0 ha
    exact ⟨v, hv, Kernels.applyUnary_ok_iff.mpr ⟨hTy, by simp [hUnary]⟩⟩
  | false =>
    rw [hScalar] at ha
    obtain ⟨v, hv, hUnary⟩ := hValue i ha
    exact ⟨v, hv, Kernels.applyUnary_ok_iff.mpr ⟨hTy, by simp [hUnary]⟩⟩

/-- What an expression gives for a chunk is, at each row, what it gives for the row. -/
theorem evaluate_rows {c : K.Chunk} (hc : c.WellFormed) {e : Expr K.Ty K.Val} {d : K.DatumRef}
    (h : e.evaluate c = .ok d) : DatumOf c.len d ∧ ∀ i < c.len, ∃ v, datumAt d i = some v ∧
      e.evaluate (singleRow c i) = .ok ⟨⟨d.array.dataType, [v]⟩, d.isScalar⟩ := by
  induction e generalizing d with
  | columnRef index =>
    unfold Expr.evaluate at h
    split at h
    · cases h
    · rename_i column hColumn
      obtain rfl := Except.ok.inj h
      have hLength := hc.lengths column (List.mem_of_getElem? hColumn)
      refine ⟨hLength, fun i hi => ?_⟩
      have hAt : column.values[i]? = some column.values[i] :=
        List.getElem?_eq_getElem (hLength ▸ hi)
      refine ⟨column.values[i], hAt, ?_⟩
      have hRow : (singleRow c i).columns[index]? =
          some { column with values := [column.values[i]] } := by
        unfold singleRow DataChunk.new DataChunk.takeRows
        rw [List.getElem?_map, hColumn]
        simp [hAt]
      rw [Expr.evaluate, hRow]
  | constant ty value =>
    obtain rfl := Except.ok.inj h
    exact ⟨rfl, fun i _ => ⟨value, rfl, rfl⟩⟩
  | unary op operand ih =>
    obtain ⟨o, hOperand, array, hArray, hDatum⟩ : ∃ o, operand.evaluate c = .ok o ∧
        ∃ array, K.applyUnary op o.array = .ok array ∧ Except.ok ⟨array, o.isScalar⟩ = .ok d := by
      simpa only [Expr.evaluate, bind_ok_iff] using h
    obtain rfl := Except.ok.inj hDatum
    obtain ⟨ho, hRows⟩ := ih hOperand
    obtain ⟨hOut, hAt⟩ := applyUnary_rows ho hArray
    refine ⟨hOut, fun i hi => ?_⟩
    obtain ⟨a, ha, hRow⟩ := hRows i hi
    obtain ⟨v, hv, hUnary⟩ := hAt i hi a ha
    refine ⟨v, hv, ?_⟩
    rw [Expr.evaluate, hRow, ok_bind, hUnary, ok_bind]
  | binary op left right ihl ihr =>
    obtain ⟨l, hLeft, r, hRight, array, hArray, hDatum⟩ : ∃ l, left.evaluate c = .ok l ∧
        ∃ r, right.evaluate c = .ok r ∧ ∃ array, K.applyOp op l r = .ok array ∧
          Except.ok ⟨array, l.isScalar && r.isScalar⟩ = .ok d := by
      simpa only [Expr.evaluate, bind_ok_iff] using h
    obtain rfl := Except.ok.inj hDatum
    obtain ⟨hl, hLeftRows⟩ := ihl hLeft
    obtain ⟨hr, hRightRows⟩ := ihr hRight
    obtain ⟨hOut, hAt⟩ := applyOp_rows hl hr hArray
    refine ⟨hOut, fun i hi => ?_⟩
    obtain ⟨a, ha, hLeftRow⟩ := hLeftRows i hi
    obtain ⟨b, hb, hRightRow⟩ := hRightRows i hi
    obtain ⟨v, hv, hBinary⟩ := hAt i hi a b ha hb
    refine ⟨v, hv, ?_⟩
    rw [Expr.evaluate, hLeftRow, ok_bind, hRightRow, ok_bind, hBinary, ok_bind]

theorem evaluate_columns {c c' : K.Chunk} (h : c.columns = c'.columns) (e : Expr K.Ty K.Val) :
    e.evaluate c = e.evaluate c' := by
  induction e with
  | columnRef index => rw [Expr.evaluate, Expr.evaluate, h]
  | constant ty value => rfl
  | unary op operand ih => rw [Expr.evaluate, Expr.evaluate, ih]
  | binary op left right ihl ihr => rw [Expr.evaluate, Expr.evaluate, ihl, ihr]

end Columns

namespace StreamExecutor

variable {E F32 F64 : Type}

/-- Kernels over the values that are aggregated. -/
structure ValueKernels (E F32 F64 : Type) where
  unaryType : UnaryOp → ArrayType → Except E ArrayType
  unary : UnaryOp → Value F32 F64 → Except E (Value F32 F64)
  binaryType : BinaryOp → ArrayType → ArrayType → Except E ArrayType
  binary : BinaryOp → Value F32 F64 → Value F32 F64 → Except E (Value F32 F64)

abbrev ValueKernels.kernels (V : ValueKernels E F32 F64) : Kernels where
  Ty := ArrayType
  Val := Value F32 F64
  Error := E
  unaryType := V.unaryType
  unary := V.unary
  binaryType := V.binaryType
  binary := V.binary

/-- An expression as an evaluator. -/
def exprEvaluator (V : ValueKernels E F32 F64) (fault : EvalError E → Fault E)
    (e : Expr ArrayType (Value F32 F64)) : Evaluator E ArrayType (Value F32 F64) := fun chunk =>
  match e.evaluate (K := V.kernels) chunk with
  | .ok d => .ok ⟨d.array, d.isScalar⟩
  | .error err => .error (fault err)

/-- An expression computes on a chunk what it computes on each row, by induction on the expression.
-/
theorem rowWise_expr (V : ValueKernels E F32 F64) (fault : EvalError E → Fault E)
    (e : Expr ArrayType (Value F32 F64)) : RowWise (exprEvaluator V fault e) where
  columns := fun c c' h => by
    unfold exprEvaluator
    rw [evaluate_columns (K := V.kernels) h e]
  rows := fun c d i v hc hEval hi hIndex => by
    unfold exprEvaluator at hEval
    split at hEval
    · rename_i datum hDatum
      obtain rfl := Except.ok.inj hEval
      obtain ⟨hLength, hRows⟩ := evaluate_rows (K := V.kernels) hc hDatum
      obtain ⟨w, hw, hRow⟩ := hRows i hi
      -- a scalar is only read at the first row
      have hSame : datum.array.values[i]? = some v ∧ datum.array.dataType ≠ .other := by
        unfold ArrayRef.index at hIndex
        split at hIndex
        · cases hIndex
        all_goals
          rename_i hTy
          split at hIndex
          · rename_i hv
            obtain rfl := Except.ok.inj hIndex
            exact ⟨hv, by rw [hTy]; exact nofun⟩
          · cases hIndex
      obtain ⟨hv, hTy⟩ := hSame
      obtain rfl : w = v := by
        unfold datumAt at hw
        unfold DatumOf at hLength
        cases hScalar : datum.isScalar with
        | true =>
          rw [hScalar] at hw hLength
          have hBound := (List.getElem?_eq_some_iff.mp hv).1
          obtain rfl : i = 0 := by
            simp only [if_true] at hLength
            omega
          exact Option.some.inj (hw.symm.trans hv)
        | false =>
          rw [hScalar] at hw
          exact Option.some.inj (hw.symm.trans hv)
      unfold evaluateRow exprEvaluator
      have hRowEval : e.evaluate (K := V.kernels) (DataChunk.new (c.takeRows [i])) =
          .ok ⟨⟨datum.array.dataType, [w]⟩, datum.isScalar⟩ := hRow
      rw [hRowEval]
      show (⟨datum.array.dataType, [w]⟩ : ValueArray F32 F64).index 0 = .ok w
      unfold ArrayRef.index
      cases hKind : datum.array.dataType with
      | other => exact absurd hKind hTy
      | scalar t => rfl
      | vector n => rfl
    · cases hEval

theorem rowWise_columnRef (index : Nat) :
    RowWise (columnRef index : Evaluator E ArrayType (Value F32 F64)) where
  columns := fun c c' h => by
    unfold columnRef
    rw [h]
  rows := fun c d i v hc hEval hi hIndex => by
    unfold columnRef at hEval
    split at hEval
    · rename_i column hColumn
      obtain rfl := Except.ok.inj hEval
      have hBound : i < column.values.length :=
        (hc.lengths column (List.mem_of_getElem? hColumn)).symm ▸ hi
      have hRow : (DataChunk.new (c.takeRows [i])).columns[index]? =
          some { column with values := [column.values[i]] } := by
        unfold DataChunk.new DataChunk.takeRows
        rw [List.getElem?_map, hColumn]
        simp [hBound]
      unfold evaluateRow columnRef
      rw [hRow]
      unfold ArrayRef.index at hIndex
      rw [List.getElem?_eq_getElem hBound] at hIndex
      exact hIndex
    · cases hEval

end StreamExecutor

end MiniGU
