import Mathlib.Algebra.Ring.Int.Defs
import Mathlib.Data.Nat.Basic

/-!
# Scalar values and their texts (`common/src/value.rs`)

The values a property can have, and the texts of integers that `to_string` and the standard
library's `parse` go between. Float types are parameters.
-/

namespace MiniGU

/-- The integer types, by sign and width. -/
structure IntType where
  signed : Bool
  bits : Nat
deriving DecidableEq, Repr

namespace IntType

def int8 : IntType := ⟨true, 8⟩
def int16 : IntType := ⟨true, 16⟩
def int32 : IntType := ⟨true, 32⟩
def int64 : IntType := ⟨true, 64⟩
def uint8 : IntType := ⟨false, 8⟩
def uint16 : IntType := ⟨false, 16⟩
def uint32 : IntType := ⟨false, 32⟩
def uint64 : IntType := ⟨false, 64⟩

def min (t : IntType) : Int := if t.signed then -2 ^ (t.bits - 1) else 0

def max (t : IntType) : Int := if t.signed then 2 ^ (t.bits - 1) - 1 else 2 ^ t.bits - 1

def InRange (t : IntType) (n : Int) : Prop := t.min ≤ n ∧ n ≤ t.max

instance (t : IntType) (n : Int) : Decidable (t.InRange n) :=
  inferInstanceAs (Decidable (t.min ≤ n ∧ n ≤ t.max))

end IntType

/-! ## Decimal texts -/

/-- The value of a non-empty run of decimal digits. -/
def parseDigits (ds : List Char) : Option Nat :=
  if ds ≠ [] ∧ ds.all Char.isDigit then some (Nat.ofDigitChars 10 ds 0) else none

/-- `str::parse` for an integer type: a sign, which for unsigned types is a plus, and digits. -/
def IntType.parse (t : IntType) (s : String) : Option Int :=
  let n : Option Int := match s.toList with
    | '+' :: ds => (parseDigits ds).map Int.ofNat
    | '-' :: ds => if t.signed then (parseDigits ds).map fun n => -Int.ofNat n else none
    | ds => (parseDigits ds).map Int.ofNat
  n.filter fun n => decide (t.InRange n)

/-- The decimal text of an integer. -/
def intToString (n : Int) : String :=
  if n < 0 then String.ofList ('-' :: Nat.toDigits 10 n.natAbs)
  else String.ofList (Nat.toDigits 10 n.natAbs)

theorem parseDigits_toDigits (n : Nat) : parseDigits (Nat.toDigits 10 n) = some n := by
  have hDigits : (Nat.toDigits 10 n).all Char.isDigit = true :=
    List.all_eq_true.mpr fun c hc => Nat.isDigit_of_mem_toDigits (by decide) (by decide) hc
  unfold parseDigits
  rw [if_pos ⟨Nat.toDigits_ne_nil, hDigits⟩, Nat.ofDigitChars_ten_toDigits]

theorem head_toDigits {n : Nat} {c : Char} {cs : List Char} (h : Nat.toDigits 10 n = c :: cs) :
    c ≠ '+' ∧ c ≠ '-' := by
  have hDigit : c.isDigit = true :=
    Nat.isDigit_of_mem_toDigits (by decide) (by decide) (h ▸ List.mem_cons_self ..)
  constructor
  · rintro rfl
    exact absurd hDigit (by decide)
  · rintro rfl
    exact absurd hDigit (by decide)

/-- **Integers parse back.** -/
theorem IntType.parse_toString {t : IntType} {n : Int} (h : t.InRange n) :
    t.parse (intToString n) = some n := by
  unfold IntType.parse intToString
  by_cases hNeg : n < 0
  · have hSigned : t.signed = true := by
      by_contra hNot
      have hMin := h.1
      unfold IntType.min at hMin
      rw [if_neg hNot] at hMin
      omega
    have hAbs : -Int.ofNat n.natAbs = n := by
      rw [Int.ofNat_eq_natCast]
      omega
    rw [if_pos hNeg]
    simp only [String.toList_ofList, hSigned, if_true, parseDigits_toDigits, Option.map_some, hAbs]
    simp [h]
  · have hAbs : ((n.natAbs : Nat) : Int) = n := by omega
    rw [if_neg hNeg, String.toList_ofList]
    have hParsed : (match Nat.toDigits 10 n.natAbs with
        | '+' :: ds => (parseDigits ds).map Int.ofNat
        | '-' :: ds => if t.signed then (parseDigits ds).map fun n => -Int.ofNat n else none
        | ds => (parseDigits ds).map Int.ofNat) = some n := by
      split
      · rename_i heq
        exact absurd rfl (head_toDigits heq).1
      · rename_i heq
        exact absurd rfl (head_toDigits heq).2
      · rw [parseDigits_toDigits, Option.map_some]
        exact congrArg some hAbs
    rw [hParsed]
    simp [h]

/-! ## Values -/

inductive ScalarType where
  | null
  | boolean
  | int (t : IntType)
  | float32
  | float64
  | string
deriving DecidableEq, Repr

inductive ScalarValue (F32 F64 : Type) where
  | null
  | boolean (v : Option Bool)
  | int (t : IntType) (v : Option Int)
  | float32 (v : Option F32)
  | float64 (v : Option F64)
  | string (v : Option String)
deriving DecidableEq, Repr

namespace ScalarValue

variable {F32 F64 : Type}

def boolToString (b : Bool) : String := if b then "true" else "false"

/-- The null of a type. -/
def nullOf : ScalarType → ScalarValue F32 F64
  | .null => null
  | .boolean => boolean none
  | .int t => int t none
  | .float32 => float32 none
  | .float64 => float64 none
  | .string => string none

end ScalarValue

end MiniGU
