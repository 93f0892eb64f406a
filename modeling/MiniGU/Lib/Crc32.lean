import Mathlib.Logic.Function.Basic

/-!
# CRC-32

The checksum that `crc32fast` computes: the reflected polynomial `0xEDB88320`, with all
bits of the register inverted at the start and at the end. Feeding a hasher in pieces is
feeding it their concatenation.

The register moves by injective steps, so data that differ in one byte have different
checksums (`crc32_ne_of_byte`).
-/

namespace MiniGU

/-- One bit of the register. -/
def crcBit (c : UInt32) : UInt32 :=
  if c &&& 1 = 1 then (c >>> 1) ^^^ 0xEDB88320 else c >>> 1

/-- One byte. -/
def crcByte (c : UInt32) (b : UInt8) : UInt32 :=
  crcBit (crcBit (crcBit (crcBit (crcBit (crcBit (crcBit (crcBit (c ^^^ b.toUInt32))))))))

def crc32 (bytes : List UInt8) : UInt32 := bytes.foldl crcByte 0xFFFFFFFF ^^^ 0xFFFFFFFF

-- the check value of the algorithm: the digits 1 to 9 in ASCII
example : crc32 [0x31, 0x32, 0x33, 0x34, 0x35, 0x36, 0x37, 0x38, 0x39] = 0xCBF43926 := by
  decide +kernel

/-! ## The register moves injectively -/

theorem and_one_eq_one_iff (c : UInt32) : c &&& 1 = 1 ↔ c.toBitVec.getLsbD 0 = true := by
  rw [← UInt32.toBitVec_inj]
  constructor
  · intro h
    have hBit := congrArg (fun v => BitVec.getLsbD v 0) h
    simpa using hBit
  · intro h
    ext j hj
    simp only [UInt32.toBitVec_and, UInt32.toBitVec_one, BitVec.getElem_and, BitVec.getElem_one]
    by_cases hZero : j = 0
    · subst hZero
      simpa using h
    · simp [hZero]

/-- One step of the register, bit by bit. -/
theorem getLsbD_crcBit (c : UInt32) (i : Nat) :
    (crcBit c).toBitVec.getLsbD i =
      (c.toBitVec.getLsbD (i + 1) ^^ (c.toBitVec.getLsbD 0 && (0xEDB88320#32).getLsbD i)) := by
  unfold crcBit
  split
  · rename_i hLow
    rw [(and_one_eq_one_iff c).mp hLow]
    simp [Nat.add_comm 1 i]
  · rename_i hLow
    rw [and_one_eq_one_iff, Bool.not_eq_true] at hLow
    rw [hLow]
    simp [Nat.add_comm 1 i]

/-- The polynomial has its top bit set, so the top bit tells which branch was taken. -/
theorem crcBit_injective : Function.Injective crcBit := by
  intro a b h
  have hBits : ∀ i, (crcBit a).toBitVec.getLsbD i = (crcBit b).toBitVec.getLsbD i :=
    fun i => by rw [h]
  have hLow : a.toBitVec.getLsbD 0 = b.toBitVec.getLsbD 0 := by
    have hTop := hBits 31
    rw [getLsbD_crcBit, getLsbD_crcBit] at hTop
    simpa using hTop
  rw [← UInt32.toBitVec_inj]
  refine BitVec.eq_of_getLsbD_eq fun i hi => ?_
  cases i with
  | zero => exact hLow
  | succ i =>
    have hBit := hBits i
    rw [getLsbD_crcBit, getLsbD_crcBit, hLow] at hBit
    exact Bool.xor_left_inj.mp hBit

theorem crcByte_injective (b : UInt8) : Function.Injective fun c => crcByte c b := by
  intro x y h
  have hXor : x ^^^ b.toUInt32 = y ^^^ b.toUInt32 :=
    crcBit_injective (crcBit_injective (crcBit_injective (crcBit_injective
      (crcBit_injective (crcBit_injective (crcBit_injective (crcBit_injective h)))))))
  exact (UInt32.xor_left_inj _).mp hXor

theorem crcByte_right_injective (c : UInt32) : Function.Injective (crcByte c) := by
  intro x y h
  have hXor : c ^^^ x.toUInt32 = c ^^^ y.toUInt32 :=
    crcBit_injective (crcBit_injective (crcBit_injective (crcBit_injective
      (crcBit_injective (crcBit_injective (crcBit_injective (crcBit_injective h)))))))
  exact UInt8.toUInt32_inj.mp ((UInt32.xor_right_inj _).mp hXor)

theorem foldl_crcByte_injective (bytes : List UInt8) :
    Function.Injective fun c => bytes.foldl crcByte c := by
  induction bytes with
  | nil => exact fun _ _ h => h
  | cons b bytes ih => exact fun _ _ h => crcByte_injective b (ih h)

/-- **Data that differ in one byte have different checksums.** -/
theorem crc32_ne_of_byte (front back : List UInt8) {b b' : UInt8} (hne : b ≠ b') :
    crc32 (front ++ b :: back) ≠ crc32 (front ++ b' :: back) := by
  intro h
  unfold crc32 at h
  rw [UInt32.xor_left_inj, List.foldl_append, List.foldl_append, List.foldl_cons,
    List.foldl_cons] at h
  exact hne (crcByte_right_injective _ (foldl_crcByte_injective back h))

end MiniGU
