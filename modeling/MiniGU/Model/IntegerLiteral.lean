import MiniGU.Model.ArrayValue
import MiniGU.Model.ValueExpr
import Mathlib.Computability.Language

/-!
# Integer literals in the binder

The texts of a decimal literal (`gql/parser/src/lexer.rs`) and what becomes of them where an integer
is bound: as a value (`gql/planner/src/binder/value_expr.rs`), in `LIMIT` and `OFFSET`
(`binder/query.rs`) and as the dimension of a vector type (`binder/type_element.rs`).
-/

namespace MiniGU.Parsing

def digitText : Language Char := {cs | ∃ d : Char, d.isDigit ∧ cs = [d]}

/-- `[0-9](_?[0-9])*` -/
def decimalText : Language Char := digitText * KStar.kstar ((1 + {['_']}) * digitText)

inductive IntegerBindError where
  | notImplemented (feature : String)
  | invalidInteger (text : Ident)
deriving DecidableEq, Repr

inductive BoundUnsignedInteger where
  | int8 (value : Int)
  | int16 (value : Int)
  | int32 (value : Int)
  | int64 (value : Int)
deriving DecidableEq, Repr

namespace BoundUnsignedInteger

def type : BoundUnsignedInteger → IntType
  | .int8 _ => .int8
  | .int16 _ => .int16
  | .int32 _ => .int32
  | .int64 _ => .int64

def value : BoundUnsignedInteger → Int
  | .int8 value | .int16 value | .int32 value | .int64 value => value

/-- `as usize`, of 64 bits. -/
def toUsize (n : BoundUnsignedInteger) : Nat := (n.value % 2 ^ 64).toNat

end BoundUnsignedInteger

def bindUnsignedInteger : UnsignedInteger → Except IntegerBindError BoundUnsignedInteger
  | (.binary, _) => .error (.notImplemented "binary integer literal")
  | (.octal, _) => .error (.notImplemented "octal integer literal")
  | (.decimal, integer) =>
    match IntType.int8.parse integer with
    | some value => .ok (.int8 value)
    | none =>
      match IntType.int16.parse integer with
      | some value => .ok (.int16 value)
      | none =>
        match IntType.int32.parse integer with
        | some value => .ok (.int32 value)
        | none =>
          match IntType.int64.parse integer with
          | some value => .ok (.int64 value)
          | none => .error (.invalidInteger integer)
  | (.hex, _) => .error (.notImplemented "hex integer literal")

/-- `BoundExpr::value`. -/
structure BoundValue (F32 F64 : Type) where
  value : ScalarValue F32 F64
  logicalType : ScalarType
  nullable : Bool

/-- `bind_numeric_literal` for integers. -/
def bindIntegerLiteral {F32 F64 : Type} (integer : UnsignedInteger) :
    Except IntegerBindError (BoundValue F32 F64) :=
  (bindUnsignedInteger integer).map fun n =>
    ⟨.int n.type (some n.value), .int n.type, false⟩

def bindNonNegativeInteger : NonNegativeInteger → Except IntegerBindError BoundUnsignedInteger
  | .integer integer => bindUnsignedInteger integer
  | .parameter _ => .error (.notImplemented "parameterized non-negative integer")

def bindOffset (offset : NonNegativeInteger) : Except IntegerBindError Nat :=
  (bindNonNegativeInteger offset).map BoundUnsignedInteger.toUsize

/-- With whether the limit is approximate. -/
def bindLimit (count : NonNegativeInteger) (approximate : Bool) :
    Except IntegerBindError (Nat × Bool) :=
  (bindNonNegativeInteger count).map fun n => (n.toUsize, approximate)

/-- `bind_value_type` for a vector, whatever the kind of the integer. -/
def bindVectorDimension (dimension : UnsignedInteger) : Except IntegerBindError Nat :=
  match IntType.uint64.parse dimension.2 with
  | some dim => .ok dim.toNat
  | none => .error (.invalidInteger dimension.2)

end MiniGU.Parsing
