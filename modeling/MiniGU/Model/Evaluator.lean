import MiniGU.Model.DataChunk

/-!
# The two evaluators (`gql/execution/src/evaluator`)

Expressions over the columns of a data chunk, and the same over a factorized result set. The
kernels are those of the arrow library, a parameter here: what an operator makes of two
types and of two values. Over arrays they go value by value, and one value against a whole
array where the array is marked as a scalar; `and` and `or` do not look at that mark.

`FactorizedExpr.combine` is what `FactorizedBinary::evaluate` does with its operands: which of
them are flat decides whether one row, a column or a Cartesian product is computed.
-/

namespace MiniGU

inductive UnaryOp where
  | neg
  | not
deriving DecidableEq, Repr

inductive BinaryOp where
  | add
  | sub
  | mul
  | div
  | rem
  | and
  | or
  | eq
  | ne
  | gt
  | ge
  | lt
  | le
deriving DecidableEq, Repr

/-- The kernels of `and` and `or` take plain arrays. -/
def BinaryOp.isBoolean : BinaryOp → Bool
  | .and => true
  | .or => true
  | _ => false

/-- The compute kernels of the arrow library. -/
structure Kernels where
  Ty : Type
  Val : Type
  Error : Type
  unaryType : UnaryOp → Ty → Except Error Ty
  unary : UnaryOp → Val → Except Error Val
  binaryType : BinaryOp → Ty → Ty → Except Error Ty
  binary : BinaryOp → Val → Val → Except Error Val

inductive EvalError (E : Type) where
  | kernel (e : E)
  | lengthMismatch
  | nothingToConcat
  | panicked
deriving DecidableEq, Repr

namespace Kernels

variable (K : Kernels)

abbrev Array := ArrayRef K.Ty K.Val
abbrev Chunk := DataChunk K.Ty K.Val
abbrev Rows := ResultSet K.Ty K.Val
abbrev Result (α : Type) := Except (EvalError K.Error) α

/-- An error of a kernel. -/
def lift {α : Type} : Except K.Error α → K.Result α
  | .error e => .error (.kernel e)
  | .ok a => .ok a

structure DatumRef where
  array : K.Array
  isScalar : Bool

/-- The pairs of values that a kernel meets. -/
def broadcast (left right : K.DatumRef) : K.Result (List (K.Val × K.Val)) :=
  match left.isScalar, right.isScalar with
  | true, false =>
    match left.array.values with
    | [] => .error .panicked
    | a :: _ => .ok (right.array.values.map fun b => (a, b))
  | false, true =>
    match right.array.values with
    | [] => .error .panicked
    | b :: _ => .ok (left.array.values.map fun a => (a, b))
  | _, _ =>
    if left.array.values.length = right.array.values.length then
      .ok (left.array.values.zip right.array.values)
    else .error .lengthMismatch

/-- The pairs of values that `and` and `or` meet. -/
def pairUp (left right : K.DatumRef) : K.Result (List (K.Val × K.Val)) :=
  if left.array.values.length = right.array.values.length then
    .ok (left.array.values.zip right.array.values)
  else .error .lengthMismatch

/-- The pairs of values that the kernel of an operator meets. -/
def pairsOf (op : BinaryOp) (left right : K.DatumRef) : K.Result (List (K.Val × K.Val)) :=
  if op.isBoolean then K.pairUp left right else K.broadcast left right

example (op : BinaryOp) (d : K.DatumRef) (h : d.array.values = []) : K.pairsOf op d d = .ok [] := by
  unfold pairsOf pairUp broadcast
  split <;> simp [h]

/-- The dispatch on the operator, in `Binary::evaluate` and in `apply_op`. -/
def applyOp (op : BinaryOp) (left right : K.DatumRef) : K.Result K.Array := do
  let dataType ← K.lift (K.binaryType op left.array.dataType right.array.dataType)
  let pairs ← K.pairsOf op left right
  let values ← pairs.mapM fun p => K.lift (K.binary op p.1 p.2)
  .ok ⟨dataType, values⟩

def applyUnary (op : UnaryOp) (operand : K.Array) : K.Result K.Array := do
  let dataType ← K.lift (K.unaryType op operand.dataType)
  let values ← operand.values.mapM fun a => K.lift (K.unary op a)
  .ok ⟨dataType, values⟩

end Kernels

/-! ## The plain evaluator -/

inductive Expr (Ty Val : Type) where
  | columnRef (index : Nat)
  | constant (dataType : Ty) (value : Val)
  | unary (op : UnaryOp) (operand : Expr Ty Val)
  | binary (op : BinaryOp) (left right : Expr Ty Val)

def Expr.evaluate {K : Kernels} (chunk : K.Chunk) : Expr K.Ty K.Val → K.Result K.DatumRef
  | .columnRef index =>
    match chunk.columns[index]? with
    | none => .error .panicked
    | some column => .ok ⟨column, false⟩
  | .constant dataType value => .ok ⟨⟨dataType, [value]⟩, true⟩
  | .unary op operand => do
    let operand ← operand.evaluate chunk
    let array ← K.applyUnary op operand.array
    .ok ⟨array, operand.isScalar⟩
  | .binary op left right => do
    let left ← left.evaluate chunk
    let right ← right.evaluate chunk
    let array ← K.applyOp op left right
    .ok ⟨array, left.isScalar && right.isScalar⟩

/-! ## The factorized evaluator -/

/-- `boxed` is an evaluator behind a pointer, which does not say what it refers to. -/
inductive FactorizedExpr (Ty Val : Type) where
  | dataRef (pos : DataPos)
  | constant (dataType : Ty) (value : Val)
  | unary (op : UnaryOp) (operand : FactorizedExpr Ty Val)
  | binary (op : BinaryOp) (left right : FactorizedExpr Ty Val)
  | boxed (inner : FactorizedExpr Ty Val)

namespace FactorizedExpr

variable {Ty Val : Type}

def getDataPos : FactorizedExpr Ty Val → Option DataPos
  | .dataRef pos => some pos
  | _ => none

def checkSameChunk (left right : FactorizedExpr Ty Val) : Bool :=
  match left.getDataPos, right.getDataPos with
  | some leftPos, some rightPos => leftPos.dataChunkPos == rightPos.dataChunkPos
  | _, _ => false

/-- `slice(i, 1)`, which panics out of bounds. -/
def slice1 {K : Kernels} (array : K.Array) (i : Nat) : K.Result K.Array :=
  match array.values[i]? with
  | none => .error .panicked
  | some a => .ok { array with values := [a] }

/-- `apply_cartesian_product`: the values of the left array in turn against the right one. -/
def applyCartesianProduct {K : Kernels} (op : BinaryOp) (left right : K.Array) :
    K.Result K.Array := do
  let allResults ← left.values.mapM fun a =>
    K.applyOp op ⟨{ left with values := [a] }, true⟩ ⟨right, false⟩
  match allResults with
  | [] => .error .nothingToConcat
  | first :: _ => .ok { first with values := allResults.flatMap ArrayRef.values }

/-- The only column of an evaluated operand. -/
def column0 {K : Kernels} (chunk : K.Chunk) : K.Result K.Array :=
  match chunk.columns with
  | [] => .error .panicked
  | column :: _ => .ok column

/-- Which operands are flat decides what an operator computes. -/
def combine {K : Kernels} (op : BinaryOp) (sameChunk : Bool) (leftChunk rightChunk : K.Chunk) :
    K.Result K.Chunk := do
  let leftCol ← column0 leftChunk
  let rightCol ← column0 rightChunk
  match leftChunk.curIdx, rightChunk.curIdx with
  | some curIdx, none => do
    let leftScalar ← slice1 leftCol curIdx
    let result ← K.applyOp op ⟨leftScalar, true⟩ ⟨rightCol, false⟩
    .ok (DataChunk.new [result]).setUnflat
  | none, some curIdx => do
    let rightScalar ← slice1 rightCol curIdx
    let result ← K.applyOp op ⟨leftCol, false⟩ ⟨rightScalar, true⟩
    .ok (DataChunk.new [result]).setUnflat
  | some leftIdx, some rightIdx => do
    let leftScalar ← slice1 leftCol leftIdx
    let rightScalar ← slice1 rightCol rightIdx
    let result ← K.applyOp op ⟨leftScalar, false⟩ ⟨rightScalar, false⟩
    .ok ((DataChunk.new [result]).setCurIdx (some 0))
  | none, none =>
    if sameChunk then do
      let result ← K.applyOp op ⟨leftCol, false⟩ ⟨rightCol, false⟩
      .ok (DataChunk.new [result]).setUnflat
    else do
      -- taken for different chunks
      let result ← applyCartesianProduct op leftCol rightCol
      .ok (DataChunk.new [result]).setUnflat

def evaluate {K : Kernels} (rs : K.Rows) : FactorizedExpr K.Ty K.Val → K.Result K.Chunk
  | .dataRef pos =>
    match rs.getColumn pos, rs.getDataChunk pos.dataChunkPos with
    | some column, some source => .ok ((DataChunk.new [column]).setCurIdx source.curIdx)
    | _, _ => .error .panicked
  | .constant dataType value => .ok ((DataChunk.new [⟨dataType, [value]⟩]).setCurIdx (some 0))
  | .unary op operand => do
    let operandChunk ← operand.evaluate rs
    let operandCol ← column0 operandChunk
    let resultArray ← K.applyUnary op operandCol
    .ok ((DataChunk.new [resultArray]).setCurIdx operandChunk.curIdx)
  | .binary op left right => do
    let leftChunk ← left.evaluate rs
    let rightChunk ← right.evaluate rs
    combine op (checkSameChunk left right) leftChunk rightChunk
  | .boxed inner => inner.evaluate rs

end FactorizedExpr

end MiniGU
