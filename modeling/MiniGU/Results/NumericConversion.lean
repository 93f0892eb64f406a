import MiniGU.Model.NumericConversion

/-!
# The conversions to integers keep the value

* `conversions_exact_iff`: each conversion gives the value truncated toward zero, or reports that
  this does not fit, except for a float that is one more than the largest value of the target
  where the format has fewer bits than that.
-/

namespace MiniGU

namespace IntType

theorem min_nonpos (t : IntType) : t.min ≤ 0 := by
  unfold min
  split
  · have hPow : (0 : Int) < 2 ^ (t.bits - 1) := by positivity
    omega
  · exact le_refl 0

theorem max_eq (t : IntType) : t.max = 2 ^ t.valueBits - 1 := by
  unfold max valueBits
  split
  · rfl
  · rfl

theorem max_nonneg (t : IntType) : 0 ≤ t.max := by
  rw [max_eq]
  have hPow : (0 : Int) < 2 ^ t.valueBits := by positivity
  omega

/-- A value of the type stays what it is. -/
theorem wrap_of_inRange {t : IntType} (hBits : 0 < t.bits) {n : Int} (h : t.InRange n) :
    t.wrap n = n := by
  obtain ⟨hMin, hMax⟩ := h
  unfold min at hMin
  unfold max at hMax
  unfold wrap
  have hHalf : (2 : Int) ^ t.bits = 2 ^ (t.bits - 1) * 2 := by
    rw [← pow_succ]
    congr 1
    omega
  split
  · rename_i hSigned
    rw [if_pos hSigned] at hMin hMax
    have hCast : ((2 ^ t.bits : Nat) : Int) = 2 ^ (t.bits - 1) * 2 := by
      push_cast
      exact hHalf
    apply Int.bmod_eq_of_le
    · rw [hCast]
      omega
    · rw [hCast]
      omega
  · rename_i hUnsigned
    rw [if_neg hUnsigned] at hMin hMax
    exact Int.emod_eq_of_lt hMin (by omega)

theorem saturate_of_inRange {t : IntType} {n : Int} (h : t.InRange n) : t.saturate n = n := by
  unfold saturate
  rw [if_neg (not_lt.mpr h.1), if_neg (not_lt.mpr h.2)]

end IntType

-- ----
-- What a conversion promises
-- ----

/-- The integer, or the finite float, in a value. -/
inductive Denotes : NumericValue → ℚ → Prop where
  | int {source : IntType} {n : Int} (hSource : source ∈ IntType.all) (hRange : source.InRange n) :
      Denotes (.scalar (.int source (some n))) n
  | float32 {q : ℚ} (h : BinaryFormat.binary32.Represents q) :
      Denotes (.scalar (.float32 (some (.finite q h)))) q
  | float64 {q : ℚ} (h : BinaryFormat.binary64.Represents q) :
      Denotes (.scalar (.float64 (some (.finite q h)))) q

/-- The value truncated toward zero, or that it does not fit. -/
structure Truncates (target : IntType) (q : ℚ) (result : Except ConversionError Int) : Prop where
  ok : ∀ n, result = .ok n → n = truncate q
  overflow : ¬ target.InRange (truncate q) → result = .error .overflow

/-- One more than the largest value, in a format that has fewer bits than that value. -/
def AtRoundedLimit (target : IntType) : NumericValue → Prop
  | .scalar (.float32 (some (.finite q _))) =>
    BinaryFormat.binary32.precision < target.valueBits ∧ q = 2 ^ target.valueBits
  | .scalar (.float64 (some (.finite q _))) =>
    BinaryFormat.binary64.precision < target.valueBits ∧ q = 2 ^ target.valueBits
  | _ => False

-- ----
-- Integers
-- ----

/-- A bound that is not checked holds of every value, and one that is keeps its value in the type
of the source. -/
def BoundCheck.Sound (target source : IntType) (check : BoundCheck) : Prop :=
  (if check.checksAbove then source.wrap target.max = target.max else source.max ≤ target.max) ∧
  (if check.checksBelow then source.wrap target.min = target.min else target.min ≤ source.min)

instance (target source : IntType) (check : BoundCheck) :
    Decidable (check.Sound target source) :=
  inferInstanceAs (Decidable (_ ∧ _))

theorem BoundCheck.Sound.refuses_iff {target source : IntType} {check : BoundCheck}
    (h : check.Sound target source) {n : Int} (hRange : source.InRange n) :
    ((check.checksAbove ∧ source.wrap target.max < n) ∨
      (check.checksBelow ∧ n < source.wrap target.min)) ↔ ¬ target.InRange n := by
  obtain ⟨hAbove, hBelow⟩ := h
  obtain ⟨hMin, hMax⟩ := hRange
  have hUpper : (check.checksAbove ∧ source.wrap target.max < n) ↔ target.max < n := by
    cases hCheck : check.checksAbove with
    | true =>
      rw [hCheck, if_pos rfl] at hAbove
      rw [hAbove]
      exact ⟨fun h => h.2, fun h => ⟨rfl, h⟩⟩
    | false =>
      rw [hCheck, if_neg Bool.false_ne_true] at hAbove
      exact ⟨fun h => absurd h.1 Bool.false_ne_true, fun h => by omega⟩
  have hLower : (check.checksBelow ∧ n < source.wrap target.min) ↔ n < target.min := by
    cases hCheck : check.checksBelow with
    | true =>
      rw [hCheck, if_pos rfl] at hBelow
      rw [hBelow]
      exact ⟨fun h => h.2, fun h => ⟨rfl, h⟩⟩
    | false =>
      rw [hCheck, if_neg Bool.false_ne_true] at hBelow
      exact ⟨fun h => absurd h.1 Bool.false_ne_true, fun h => by omega⟩
  rw [hUpper, hLower]
  unfold IntType.InRange
  omega

theorem convertInt_truncates {target source : IntType} {check : BoundCheck}
    (hBits : 0 < target.bits) (hSound : check.Sound target source) {n : Int}
    (hRange : source.InRange n) : Truncates target n (convertInt target source check n) := by
  have hRefuses := hSound.refuses_iff hRange
  unfold convertInt
  by_cases hFits : target.InRange n
  · rw [if_neg fun h => hRefuses.mp h hFits, IntType.wrap_of_inRange hBits hFits]
    constructor
    · intro m h
      cases h
      rw [truncate_intCast]
    · intro h
      rw [truncate_intCast] at h
      exact absurd hFits h
  · rw [if_pos (hRefuses.mpr hFits)]
    exact ⟨fun _ h => (nomatch h), fun _ => rfl⟩

-- ----
-- Floats
-- ----

/-- The lower bound is exact. -/
theorem roundInt_min {f : BinaryFormat} (hPos : 0 < f.precision) (target : IntType) :
    roundInt f.precision target.min = target.min := by
  unfold IntType.min
  split
  · exact roundInt_neg_two_pow hPos _
  · exact roundInt_of_lt (Nat.two_pow_pos _)

/-- The upper bound is exact, or one too large. -/
theorem roundInt_max {f : BinaryFormat} (hPos : 0 < f.precision) (target : IntType) :
    roundInt f.precision target.max =
      if f.precision < target.valueBits then target.max + 1 else target.max := by
  rw [target.max_eq]
  split
  · rename_i hFew
    rw [roundInt_two_pow_sub_one hPos hFew]
    omega
  · rename_i hEnough
    apply roundInt_of_lt
    have hPow : (1 : Nat) ≤ 2 ^ target.valueBits := Nat.one_le_two_pow
    have hCast : ((2 : Int) ^ target.valueBits - 1) = ((2 ^ target.valueBits - 1 : Nat) : Int) := by
      push_cast [hPow]
      rfl
    have hLe : 2 ^ target.valueBits ≤ 2 ^ f.precision :=
      Nat.pow_le_pow_right (by decide) (not_lt.mp hEnough)
    rw [hCast, Int.natAbs_natCast]
    omega

/-- A float is converted rightly unless it is the rounded bound. -/
theorem convertFloat_truncates_iff {f : BinaryFormat} (hPos : 0 < f.precision) (target : IntType)
    {q : ℚ} (hq : f.Represents q) :
    Truncates target q (convertFloat target (.finite q hq)) ↔
      ¬ (f.precision < target.valueBits ∧ q = 2 ^ target.valueBits) := by
  have hFits := truncate_mem_iff target.min_nonpos target.max_nonneg q
  have hMaxQ : (target.max : ℚ) + 1 = 2 ^ target.valueBits := by
    rw [target.max_eq]
    push_cast
    ring
  unfold convertFloat
  dsimp only
  rw [roundInt_min hPos, roundInt_max hPos]
  by_cases hRefused :
      ((if f.precision < target.valueBits then target.max + 1 else target.max : Int) : ℚ) < q ∨
        q < (target.min : ℚ)
  · -- what is refused is not the rounded bound
    rw [if_pos hRefused]
    refine ⟨fun _ hLimit => ?_, fun _ => ⟨fun _ h => (nomatch h), fun _ => rfl⟩⟩
    rw [if_pos hLimit.1, Int.cast_add, Int.cast_one, hMaxQ, hLimit.2] at hRefused
    have hMin : (target.min : ℚ) ≤ 0 := by exact_mod_cast target.min_nonpos
    have hPow : (0 : ℚ) < 2 ^ target.valueBits := by positivity
    rcases hRefused with h | h
    · exact lt_irrefl _ h
    · linarith
  · rw [if_neg hRefused]
    push Not at hRefused
    obtain ⟨hUpper, hLower⟩ := hRefused
    have hBelow : (target.min : ℚ) - 1 < q := by linarith
    by_cases hLimit : q < target.max + 1
    · -- the truncation fits
      have hRange : target.InRange (truncate q) := hFits.mpr ⟨hBelow, hLimit⟩
      rw [IntType.saturate_of_inRange hRange]
      refine ⟨fun _ hAt => ?_, fun _ => ⟨fun n h => (Except.ok.inj h).symm,
        fun h => absurd hRange h⟩⟩
      rw [hAt.2, hMaxQ] at hLimit
      exact lt_irrefl _ hLimit
    · -- the bound itself, one more than the largest value
      have hFew : f.precision < target.valueBits := by
        by_contra hEnough
        rw [if_neg hEnough] at hUpper
        linarith
      rw [if_pos hFew] at hUpper
      push_cast at hUpper
      have hEq : q = 2 ^ target.valueBits := by linarith
      have hOutside : ¬ target.InRange (truncate q) := fun h => hLimit (hFits.mp h).2
      refine ⟨fun h => ?_, fun h => absurd ⟨hFew, hEq⟩ h⟩
      cases h.overflow hOutside

-- ----
-- The eight conversions
-- ----

/-- Every check of a row is sound. -/
def BoundChecks.Sound (target : IntType) (checks : BoundChecks) : Prop :=
  0 < target.bits ∧ ∀ source ∈ IntType.all, (checks.get source).Sound target source

instance (target : IntType) (checks : BoundChecks) : Decidable (checks.Sound target) :=
  inferInstanceAs (Decidable (_ ∧ _))

theorem toInt_truncates_iff {target : IntType} {checks : BoundChecks}
    (hSound : checks.Sound target) {v : NumericValue} {q : ℚ} (h : Denotes v q) :
    Truncates target q (toInt target checks v) ↔ ¬ AtRoundedLimit target v := by
  cases h with
  | int hSource hRange =>
    exact ⟨fun _ h => h, fun _ =>
      convertInt_truncates hSound.1 (hSound.2 _ hSource) hRange⟩
  | float32 hq => exact convertFloat_truncates_iff (by decide) target hq
  | float64 hq => exact convertFloat_truncates_iff (by decide) target hq

theorem conversions_sound : ∀ c ∈ conversions, ∃ checks, checks.Sound c.1 ∧
    c.2 = toInt c.1 checks := by
  intro c hc
  simp only [conversions, List.mem_cons, List.not_mem_nil, or_false] at hc
  rcases hc with rfl | rfl | rfl | rfl | rfl | rfl | rfl | rfl
  · exact ⟨_, by decide +kernel, rfl⟩
  · exact ⟨_, by decide +kernel, rfl⟩
  · exact ⟨_, by decide +kernel, rfl⟩
  · exact ⟨_, by decide +kernel, rfl⟩
  · exact ⟨_, by decide +kernel, rfl⟩
  · exact ⟨_, by decide +kernel, rfl⟩
  · exact ⟨_, by decide +kernel, rfl⟩
  · exact ⟨_, by decide +kernel, rfl⟩

/-- **Each conversion truncates**, except at the limit that its bounds round to. -/
theorem conversions_exact_iff {c : IntType × (NumericValue → Except ConversionError Int)}
    (hc : c ∈ conversions) {v : NumericValue} {q : ℚ} (h : Denotes v q) :
    Truncates c.1 q (c.2 v) ↔ ¬ AtRoundedLimit c.1 v := by
  obtain ⟨checks, hSound, hRow⟩ := conversions_sound c hc
  rw [hRow]
  exact toInt_truncates_iff hSound h

theorem represents_two_pow_62 : BinaryFormat.binary64.Represents (2 ^ 62) :=
  ⟨1, 62, by decide, by decide, by decide, by norm_num⟩

theorem conversions_exact_below :
    Truncates .int64 (2 ^ 62)
      (toI64 (.scalar (.float64 (some (.finite (2 ^ 62) represents_two_pow_62))))) := by
  have hMem : (IntType.int64, toI64) ∈ conversions := by simp [conversions]
  refine (conversions_exact_iff hMem (Denotes.float64 represents_two_pow_62)).mpr ?_
  rintro ⟨_, hLimit⟩
  norm_num [IntType.valueBits, IntType.int64] at hLimit

def atLimit : BinaryFloat .binary64 :=
  .finite (2 ^ 63) ⟨1, 63, by decide, by decide, by decide, by norm_num⟩

/-- The bound of the comparison is rounded to 2^63 itself. -/
theorem conversion_at_limit :
    toI64 (.scalar (.float64 (some atLimit))) = .ok (2 ^ 63 - 1) ∧
      truncate (2 ^ 63) = 2 ^ 63 ∧ ¬ IntType.int64.InRange (2 ^ 63) ∧
      ¬ Truncates .int64 (2 ^ 63) (toI64 (.scalar (.float64 (some atLimit)))) := by
  have hOk : toI64 (.scalar (.float64 (some atLimit))) = .ok (2 ^ 63 - 1) := by decide +kernel
  have hTruncate : truncate (2 ^ 63) = 2 ^ 63 := by decide +kernel
  have hOutside : ¬ IntType.int64.InRange (2 ^ 63) := by decide +kernel
  refine ⟨hOk, hTruncate, hOutside, fun h => ?_⟩
  have hOverflow := h.overflow (hTruncate ▸ hOutside)
  rw [hOk] at hOverflow
  cases hOverflow

end MiniGU
