import Mathlib.Data.Rat.Floor
import Mathlib.Data.Nat.Log
import Mathlib.Tactic.Ring
import Mathlib.Tactic.Linarith

/-!
# Binary floating point numbers and integers

A finite number is the rational that it denotes. An integer is rounded to the nearest number of the
precision, to the even one where two are as near (`roundInt`); a number is made an integer by
truncation toward zero (`truncate`).

The integers below `2 ^ precision` are exact, the others of the form `2 ^ k - 1` are rounded up to
`2 ^ k` (`roundInt_two_pow_sub_one`).
-/

namespace MiniGU

/-- The exponents are those of the last bit. -/
structure BinaryFormat where
  precision : Nat
  minExponent : Int
  maxExponent : Int

namespace BinaryFormat

def binary32 : BinaryFormat := ⟨24, -149, 104⟩
def binary64 : BinaryFormat := ⟨53, -1074, 971⟩

def Represents (f : BinaryFormat) (q : ℚ) : Prop :=
  ∃ m e : Int, |m| < 2 ^ f.precision ∧ f.minExponent ≤ e ∧ e ≤ f.maxExponent ∧ q = m * 2 ^ e

end BinaryFormat

/-- The two zeros denote the same. -/
inductive BinaryFloat (f : BinaryFormat) where
  | nan
  | infinite (negative : Bool)
  | finite (value : ℚ) (represented : f.Represents value)

/-! ## Truncation -/

def truncate (q : ℚ) : Int := if 0 ≤ q then ⌊q⌋ else ⌈q⌉

theorem truncate_intCast (n : Int) : truncate n = n := by
  unfold truncate
  rw [Int.floor_intCast, Int.ceil_intCast, ite_self]

/-- Bounds around zero hold after the truncation when they are missed by less than one. -/
theorem truncate_mem_iff {lo hi : Int} (hLo : lo ≤ 0) (hHi : 0 ≤ hi) (q : ℚ) :
    (lo ≤ truncate q ∧ truncate q ≤ hi) ↔ ((lo : ℚ) - 1 < q ∧ q < hi + 1) := by
  unfold truncate
  have hLoQ : (lo : ℚ) ≤ 0 := by exact_mod_cast hLo
  have hHiQ : (0 : ℚ) ≤ hi := by exact_mod_cast hHi
  split
  · rename_i hNonneg
    have hFloor : 0 ≤ ⌊q⌋ := Int.floor_nonneg.mpr hNonneg
    have hUpper : ⌊q⌋ ≤ hi ↔ q < hi + 1 := by
      rw [← Int.lt_add_one_iff, Int.floor_lt]
      push_cast
      exact Iff.rfl
    rw [hUpper]
    constructor
    · intro h
      exact ⟨by linarith, h.2⟩
    · intro h
      exact ⟨by omega, h.2⟩
  · rename_i hNeg
    have hNeg' : q < 0 := not_le.mp hNeg
    have hCeil : ⌈q⌉ ≤ 0 := Int.ceil_le.mpr (by exact_mod_cast hNeg'.le)
    have hLower : lo ≤ ⌈q⌉ ↔ (lo : ℚ) - 1 < q := by
      rw [← Int.sub_one_lt_iff, Int.lt_ceil]
      push_cast
      exact Iff.rfl
    rw [hLower]
    constructor
    · intro h
      exact ⟨h.1, by linarith⟩
    · intro h
      exact ⟨h.1, by omega⟩

/-! ## Rounding -/

/-- To nearest, ties to even, in multiples of a power of two that leaves `precision` bits. -/
def roundNat (precision n : Nat) : Nat :=
  let unit := 2 ^ (n.log2 + 1 - precision)
  let quotient := n / unit
  let rest := n % unit
  if 2 * rest < unit ∨ (2 * rest = unit ∧ quotient % 2 = 0) then quotient * unit
  else (quotient + 1) * unit

def roundInt (precision : Nat) (n : Int) : Int := n.sign * roundNat precision n.natAbs

theorem roundNat_of_lt {precision n : Nat} (h : n < 2 ^ precision) :
    roundNat precision n = n := by
  by_cases hZero : n = 0
  · subst hZero
    unfold roundNat
    simp
  · have hShift : n.log2 + 1 - precision = 0 := by
      have hLog : n.log2 < precision := (Nat.log2_lt hZero).mpr h
      omega
    unfold roundNat
    rw [hShift]
    simp [Nat.mod_one]

theorem roundNat_two_pow {precision : Nat} (hPos : 0 < precision) (k : Nat) :
    roundNat precision (2 ^ k) = 2 ^ k := by
  by_cases hSmall : k < precision
  · exact roundNat_of_lt (Nat.pow_lt_pow_right (by decide) hSmall)
  · have hSplit : 2 ^ k = 2 ^ (precision - 1) * 2 ^ (k + 1 - precision) := by
      rw [← Nat.pow_add]
      congr 1
      omega
    have hUnit : 0 < 2 ^ (k + 1 - precision) := Nat.two_pow_pos _
    unfold roundNat
    rw [Nat.log2_two_pow]
    dsimp only
    rw [hSplit, Nat.mul_mod_left, Nat.mul_div_cancel _ hUnit, if_pos (.inl hUnit)]

/-- One less than a power of two beyond the precision is rounded up to it. -/
theorem roundNat_two_pow_sub_one {precision k : Nat} (hPos : 0 < precision)
    (h : precision < k) : roundNat precision (2 ^ k - 1) = 2 ^ k := by
  have hLog : (2 ^ k - 1).log2 + 1 = k := by
    have hPow : 2 ^ 1 ≤ 2 ^ k := Nat.pow_le_pow_right (by decide) (by omega)
    have hHalf : 2 ^ (k - 1) * 2 = 2 ^ k := by
      rw [← Nat.pow_succ]
      congr 1
      omega
    have hUpper : (2 ^ k - 1).log2 < k := (Nat.log2_lt (by omega)).mpr (by omega)
    have hLower : k - 1 ≤ (2 ^ k - 1).log2 := (Nat.le_log2 (by omega)).mpr (by omega)
    omega
  obtain ⟨d, rfl⟩ : ∃ d, k = precision + (d + 1) := ⟨k - precision - 1, by omega⟩
  have hUnit : 2 ^ (d + 1) = 2 * 2 ^ d := by rw [Nat.pow_succ, Nat.mul_comm]
  have hBase : 0 < 2 ^ d := Nat.two_pow_pos d
  obtain ⟨half, hHalf⟩ : ∃ half, 2 ^ precision = 2 * half := by
    obtain ⟨p, rfl⟩ : ∃ p, precision = p + 1 := ⟨precision - 1, by omega⟩
    exact ⟨2 ^ p, by rw [Nat.pow_succ, Nat.mul_comm]⟩
  have hHalfPos : 0 < half := by
    have := Nat.two_pow_pos precision
    omega
  -- all ones: the quotient is odd and the rest is at least a half
  have hSplit : 2 ^ (precision + (d + 1)) - 1 =
      (2 ^ (d + 1) - 1) + 2 ^ (d + 1) * (2 ^ precision - 1) := by
    rw [Nat.pow_add, Nat.mul_sub, Nat.mul_one, Nat.mul_comm]
    have hLe : 2 ^ (d + 1) * 1 ≤ 2 ^ (d + 1) * 2 ^ precision :=
      Nat.mul_le_mul_left _ (Nat.two_pow_pos _)
    omega
  have hRest : (2 ^ (precision + (d + 1)) - 1) % 2 ^ (d + 1) = 2 ^ (d + 1) - 1 := by
    rw [hSplit, Nat.add_mul_mod_self_left, Nat.mod_eq_of_lt (by omega)]
  have hQuotient : (2 ^ (precision + (d + 1)) - 1) / 2 ^ (d + 1) = 2 ^ precision - 1 := by
    rw [hSplit, Nat.add_mul_div_left _ _ (by omega), Nat.div_eq_of_lt (by omega), Nat.zero_add]
  unfold roundNat
  rw [hLog, Nat.add_sub_cancel_left]
  dsimp only
  rw [hRest, hQuotient, if_neg (by omega), Nat.sub_add_cancel (Nat.two_pow_pos _), ← Nat.pow_add]

theorem roundInt_of_lt {precision : Nat} {n : Int} (h : n.natAbs < 2 ^ precision) :
    roundInt precision n = n := by
  unfold roundInt
  rw [roundNat_of_lt h]
  exact Int.sign_mul_natAbs n

/-- The bounds of the integer types: a power of two is exact. -/
theorem roundInt_neg_two_pow {precision : Nat} (hPos : 0 < precision) (k : Nat) :
    roundInt precision (-2 ^ k) = -2 ^ k := by
  have hAbs : ((-2 ^ k : Int)).natAbs = 2 ^ k := by
    rw [Int.natAbs_neg, Int.natAbs_pow]
    rfl
  unfold roundInt
  rw [hAbs, roundNat_two_pow hPos, ← hAbs]
  exact Int.sign_mul_natAbs _

theorem roundInt_two_pow_sub_one {precision k : Nat} (hPos : 0 < precision)
    (h : precision < k) : roundInt precision (2 ^ k - 1) = 2 ^ k := by
  have hPow : 2 ^ 1 ≤ 2 ^ k := Nat.pow_le_pow_right (by decide) (by omega)
  have hCast : ((2 : Int) ^ k - 1) = ((2 ^ k - 1 : Nat) : Int) := by
    push_cast [Nat.one_le_two_pow]
    rfl
  unfold roundInt
  rw [hCast, Int.natAbs_natCast, roundNat_two_pow_sub_one hPos h,
    Int.sign_eq_one_of_pos (by omega), Int.one_mul]
  push_cast
  rfl

end MiniGU
