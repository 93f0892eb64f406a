import MiniGU.Model.ChunkStream
import MiniGU.Model.ScalarValue

/-!
# Arrays of scalar values (`common/src/value.rs`, `gql/execution/src/evaluator`)

The arrow arrays that the executors look into, as the scalar values that their entries read as
(`index`), and the way back from values to arrays. What an evaluator makes of a chunk is an array,
which stands for every row if it is marked as a scalar.

Floats are the bit patterns. Where they are compared as keys, `OrderedFloat` decides (`FloatOps`).
-/

namespace MiniGU

/-- The data types of arrays: those of scalar values, vectors of floats, and the types that
`index` has no case for. -/
inductive ArrayType where
  | scalar (t : ScalarType)
  | vector (dimension : Nat)
  | other
deriving DecidableEq, Repr

/-- `ScalarValue`, vectors included. Vertices and edges are in no array that is indexed. -/
inductive Value (F32 F64 : Type) where
  | scalar (v : ScalarValue F32 F64)
  | vector (dimension : Nat) (v : Option (List F32))
deriving DecidableEq, Repr

section Values

variable {E F32 F64 : Type}

abbrev ValueArray (F32 F64 : Type) := ArrayRef ArrayType (Value F32 F64)
abbrev ValueChunk (F32 F64 : Type) := DataChunk ArrayType (Value F32 F64)

def ScalarValue.type : ScalarValue F32 F64 → ScalarType
  | .null => .null
  | .boolean _ => .boolean
  | .int t _ => .int t
  | .float32 _ => .float32
  | .float64 _ => .float64
  | .string _ => .string

namespace Value

def type : Value F32 F64 → ArrayType
  | .scalar v => .scalar v.type
  | .vector dimension _ => .vector dimension

abbrev int (t : IntType) (v : Option Int) : Value F32 F64 := .scalar (.int t v)

/-- `is_null_value`, which has no case for a null vector. -/
def isNullValue : Value F32 F64 → Bool
  | .scalar .null => true
  | .scalar (.boolean v) => v.isNone
  | .scalar (.int _ v) => v.isNone
  | .scalar (.float32 v) => v.isNone
  | .scalar (.float64 v) => v.isNone
  | .scalar (.string v) => v.isNone
  | .vector _ _ => false

/-- `to_scalar_array`. -/
def toScalarArray (v : Value F32 F64) : ValueArray F32 F64 := ⟨v.type, [v]⟩

end Value

/-- `index`, which panics out of bounds and on an array of another type. -/
def ArrayRef.index (a : ValueArray F32 F64) (i : Nat) : Except (Fault E) (Value F32 F64) :=
  match a.dataType with
  | .other => .error .panicked
  | .scalar _ | .vector _ =>
    match a.values[i]? with
    | some v => .ok v
    | none => .error .panicked

/-- A value in an array of the type: a value of another type becomes null. -/
def keepType (t : ScalarType) (v : Value F32 F64) : Value F32 F64 :=
  if v.type = .scalar t then v else .scalar (ScalarValue.nullOf t)

/-- `scalar_values_to_array`. The first value that is not null gives the type; where it is a null
or a vector, all entries are null. -/
def scalarValuesToArray : List (Value F32 F64) → ValueArray F32 F64
  | [] => ⟨.scalar (.int .int64), []⟩
  | v :: vs =>
    match ((v :: vs).find? fun w => !w.isNullValue).getD v with
    | .scalar .null | .vector _ _ =>
      ⟨.scalar (.int .int64), (v :: vs).map fun _ => .int .int64 none⟩
    | .scalar s => ⟨.scalar s.type, (v :: vs).map (keepType s.type)⟩

end Values

/-! ## Evaluators -/

/-- An evaluated expression. A scalar is one value for all rows. -/
structure DatumRef (Ty Val : Type) where
  array : ArrayRef Ty Val
  isScalar : Bool
deriving DecidableEq, Repr

/-- `Evaluator::evaluate`. -/
abbrev Evaluator (E Ty Val : Type) := DataChunk Ty Val → Except (Fault E) (DatumRef Ty Val)

/-- `ColumnRef`, which panics where there is no such column. -/
def columnRef {E Ty Val : Type} (columnIndex : Nat) : Evaluator E Ty Val := fun chunk =>
  match chunk.columns[columnIndex]? with
  | some column => .ok ⟨column, false⟩
  | none => .error .panicked

/-- `Constant`. -/
def constant {E F32 F64 : Type} (value : Value F32 F64) : Evaluator E ArrayType (Value F32 F64) :=
  fun _ => .ok ⟨value.toScalarArray, true⟩

end MiniGU
