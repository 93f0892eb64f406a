import MiniGU.Lib.BinaryFloat
import MiniGU.Model.ArrayValue

/-!
# Conversions to the integer types (`common/src/value.rs`)

`toI8` to `toU64` are `toInt` of a row of checks: what each of them compares before it converts an
integer of each type. The bounds are those of the target, converted to the type of the value.
-/

namespace MiniGU

inductive ConversionError where
  | nullValue
  | incompatibleType
  | overflow
  | parseError (text : String)
deriving DecidableEq, Repr

namespace IntType

/-- The types of the integers in a scalar value. -/
def all : List IntType := [int8, int16, int32, int64, uint8, uint16, uint32, uint64]

/-- `as` between integer types. -/
def wrap (t : IntType) (n : Int) : Int :=
  if t.signed then Int.bmod n (2 ^ t.bits) else n % 2 ^ t.bits

/-- `as` from a float, of an integer that may be out of range. -/
def saturate (t : IntType) (n : Int) : Int :=
  if n < t.min then t.min else if t.max < n then t.max else n

/-- The bits of the largest value. -/
def valueBits (t : IntType) : Nat := if t.signed then t.bits - 1 else t.bits

end IntType

/-! ## Integers -/

/-- What a value is compared with before it is converted. -/
inductive BoundCheck where
  | free
  | above
  | below
  | outside
deriving DecidableEq, Repr

namespace BoundCheck

def checksAbove : BoundCheck → Bool
  | .above | .outside => true
  | .free | .below => false

def checksBelow : BoundCheck → Bool
  | .below | .outside => true
  | .free | .above => false

end BoundCheck

/-- The check for each type of the value. -/
structure BoundChecks where
  int8 : BoundCheck
  int16 : BoundCheck
  int32 : BoundCheck
  int64 : BoundCheck
  uint8 : BoundCheck
  uint16 : BoundCheck
  uint32 : BoundCheck
  uint64 : BoundCheck

def BoundChecks.get (checks : BoundChecks) (source : IntType) : BoundCheck :=
  if source = .int8 then checks.int8
  else if source = .int16 then checks.int16
  else if source = .int32 then checks.int32
  else if source = .int64 then checks.int64
  else if source = .uint8 then checks.uint8
  else if source = .uint16 then checks.uint16
  else if source = .uint32 then checks.uint32
  else checks.uint64

def convertInt (target source : IntType) (check : BoundCheck) (v : Int) :
    Except ConversionError Int :=
  if (check.checksAbove ∧ source.wrap target.max < v) ∨
      (check.checksBelow ∧ v < source.wrap target.min) then .error .overflow
  else .ok (target.wrap v)

/-! ## Floats -/

/-- The bounds are rounded to the format of the value. -/
def convertFloat {f : BinaryFormat} (target : IntType) :
    BinaryFloat f → Except ConversionError Int
  | .nan => .error (.parseError "NaN")
  | .infinite negative => .error (.parseError (if negative then "-inf" else "inf"))
  | .finite q _ =>
    if (roundInt f.precision target.max : ℚ) < q ∨ q < (roundInt f.precision target.min : ℚ) then
      .error .overflow
    else .ok (target.saturate (truncate q))

/-! ## The conversions -/

abbrev NumericValue := Value (BinaryFloat .binary32) (BinaryFloat .binary64)

/-- Vertices and edges are incompatible too. -/
def toInt (target : IntType) (checks : BoundChecks) : NumericValue → Except ConversionError Int
  | .scalar (.int source (some v)) => convertInt target source (checks.get source) v
  | .scalar (.float32 (some v)) => convertFloat target v
  | .scalar (.float64 (some v)) => convertFloat target v
  | .scalar (.boolean (some v)) => .ok (if v then 1 else 0)
  | .scalar (.string (some s)) =>
    match target.parse s with
    | some n => .ok n
    | none => .error (.parseError s)
  | .scalar .null | .scalar (.int _ none) | .scalar (.float32 none) | .scalar (.float64 none)
  | .scalar (.boolean none) | .scalar (.string none) => .error .nullValue
  | .vector _ _ => .error .incompatibleType

def toI8 : NumericValue → Except ConversionError Int := toInt .int8 {
  int8 := .free, int16 := .outside, int32 := .outside, int64 := .outside
  uint8 := .above, uint16 := .above, uint32 := .above, uint64 := .above }

def toI16 : NumericValue → Except ConversionError Int := toInt .int16 {
  int8 := .free, int16 := .free, int32 := .outside, int64 := .outside
  uint8 := .free, uint16 := .above, uint32 := .above, uint64 := .above }

def toI32 : NumericValue → Except ConversionError Int := toInt .int32 {
  int8 := .free, int16 := .free, int32 := .free, int64 := .outside
  uint8 := .free, uint16 := .free, uint32 := .above, uint64 := .above }

def toI64 : NumericValue → Except ConversionError Int := toInt .int64 {
  int8 := .free, int16 := .free, int32 := .free, int64 := .free
  uint8 := .free, uint16 := .free, uint32 := .free, uint64 := .above }

def toU8 : NumericValue → Except ConversionError Int := toInt .uint8 {
  int8 := .below, int16 := .outside, int32 := .outside, int64 := .outside
  uint8 := .free, uint16 := .above, uint32 := .above, uint64 := .above }

def toU16 : NumericValue → Except ConversionError Int := toInt .uint16 {
  int8 := .below, int16 := .below, int32 := .outside, int64 := .outside
  uint8 := .free, uint16 := .free, uint32 := .above, uint64 := .above }

def toU32 : NumericValue → Except ConversionError Int := toInt .uint32 {
  int8 := .below, int16 := .below, int32 := .below, int64 := .outside
  uint8 := .free, uint16 := .free, uint32 := .free, uint64 := .above }

def toU64 : NumericValue → Except ConversionError Int := toInt .uint64 {
  int8 := .below, int16 := .below, int32 := .below, int64 := .below
  uint8 := .free, uint16 := .free, uint32 := .free, uint64 := .free }

/-- The conversions, with their targets. -/
def conversions : List (IntType × (NumericValue → Except ConversionError Int)) :=
  [(.int8, toI8), (.int16, toI16), (.int32, toI32), (.int64, toI64),
    (.uint8, toU8), (.uint16, toU16), (.uint32, toU32), (.uint64, toU64)]

end MiniGU
