import MiniGU.Model.IntegerLiteral

/-!
# Integer literals from the lexer to the binder

The lexer takes underscores between digits, and `str::parse` does not.

* `integers_kept_iff`: where a value, a limit or an offset is bound, the literal keeps its value, or
  is refused, as it should, unless it has an underscore and would fit; a dimension moreover may be
  as large as 64 bits without a sign allow.
-/

namespace MiniGU.Parsing

variable {F32 F64 : Type} {text : Ident}

/-- The integer that the text denotes. -/
def literalValue (text : Ident) : Nat :=
  Nat.ofDigitChars 10 (text.toList.filter fun c => c ≠ '_') 0

/-- The narrowest of the types that holds the value. -/
def narrowest (n : Nat) : Option IntType :=
  [IntType.int8, .int16, .int32, .int64].find? fun t => decide ((n : Int) ≤ t.max)

def maxInt64 : Nat := 2 ^ 63 - 1

-- ----
-- The texts
-- ----

theorem chars_of_decimalText {cs : List Char} (h : cs ∈ decimalText) :
    ∃ d rest, cs = d :: rest ∧ d.isDigit ∧ ∀ c ∈ rest, c.isDigit ∨ c = '_' := by
  obtain ⟨_, ⟨d, hd, rfl⟩, rest, ⟨parts, rfl, hParts⟩, rfl⟩ := h
  refine ⟨d, parts.flatten, rfl, hd, fun c hc => ?_⟩
  obtain ⟨part, hPart, hMem⟩ := List.mem_flatten.mp hc
  obtain ⟨_, rfl | rfl, _, ⟨e, he, rfl⟩, rfl⟩ := hParts part hPart
  · rw [List.mem_singleton.mp hMem]
    exact .inl he
  · rcases List.mem_cons.mp hMem with rfl | hMem
    · exact .inr rfl
    · rw [List.mem_singleton.mp hMem]
      exact .inl he

/-- A literal begins with a digit. -/
theorem parse_literal (h : text.toList ∈ decimalText) (t : IntType) :
    t.parse text = ((parseDigits text.toList).map Int.ofNat).filter
      fun n => decide (t.InRange n) := by
  obtain ⟨d, rest, hText, hDigit, _⟩ := chars_of_decimalText h
  unfold IntType.parse
  rw [hText]
  dsimp only
  split
  · rename_i heq
    cases heq
    exact absurd hDigit (by decide)
  · rename_i heq
    cases heq
    exact absurd hDigit (by decide)
  · rfl

theorem parse_of_underscore (h : text.toList ∈ decimalText) (hMem : '_' ∈ text.toList)
    (t : IntType) : t.parse text = none := by
  have hDigits : parseDigits text.toList = none := by
    unfold parseDigits
    refine if_neg fun hAll => ?_
    have hUnderscore := List.all_eq_true.mp hAll.2 '_' hMem
    revert hUnderscore
    decide
  rw [parse_literal h, hDigits]
  rfl

theorem IntType.inRange_natCast (t : IntType) (n : Nat) :
    t.InRange (n : Int) ↔ (n : Int) ≤ t.max := by
  have hMin : t.min ≤ 0 := by
    unfold IntType.min
    split
    · have hPow : (0 : Int) < 2 ^ (t.bits - 1) := Int.pow_pos (by decide)
      omega
    · exact Int.le_refl 0
  constructor
  · intro h
    exact h.2
  · intro h
    exact ⟨by omega, h⟩

theorem parse_of_plain (h : text.toList ∈ decimalText) (hPlain : '_' ∉ text.toList)
    (t : IntType) :
    t.parse text =
      if (literalValue text : Int) ≤ t.max then some (literalValue text : Int) else none := by
  obtain ⟨d, rest, hText, hDigit, hRest⟩ := chars_of_decimalText h
  have hAll : text.toList.all Char.isDigit = true := by
    rw [List.all_eq_true, hText]
    intro c hc
    rcases List.mem_cons.mp hc with rfl | hc
    · exact hDigit
    · rcases hRest c hc with hd | rfl
      · exact hd
      · exact absurd (hText ▸ List.mem_cons_of_mem _ hc) hPlain
  have hFilter : (text.toList.filter fun c => c ≠ '_') = text.toList :=
    List.filter_eq_self.mpr fun c hc => decide_eq_true fun hEq => hPlain (hEq ▸ hc)
  have hDigits : parseDigits text.toList = some (literalValue text) := by
    unfold parseDigits literalValue
    rw [hFilter, if_pos ⟨by rw [hText]; exact List.cons_ne_nil _ _, hAll⟩]
  rw [parse_literal h, hDigits, Option.map_some, Option.filter_some]
  simp only [Int.ofNat_eq_natCast, IntType.inRange_natCast, decide_eq_true_eq]

-- ----
-- The binder
-- ----

theorem bind_of_underscore (h : text.toList ∈ decimalText) (hMem : '_' ∈ text.toList) :
    bindUnsignedInteger (.decimal, text) = .error (.invalidInteger text) := by
  unfold bindUnsignedInteger
  simp only [parse_of_underscore h hMem]

theorem bind_of_plain (h : text.toList ∈ decimalText) (hPlain : '_' ∉ text.toList) :
    match narrowest (literalValue text) with
    | some t => ∃ n, bindUnsignedInteger (.decimal, text) = .ok n ∧ n.type = t ∧
        n.value = literalValue text
    | none => bindUnsignedInteger (.decimal, text) = .error (.invalidInteger text) := by
  unfold bindUnsignedInteger narrowest
  simp only [parse_of_plain h hPlain, List.find?_cons, List.find?_nil]
  by_cases h8 : (literalValue text : Int) ≤ IntType.int8.max
  · simp only [h8, decide_true, if_true]
    exact ⟨_, rfl, rfl, rfl⟩
  · by_cases h16 : (literalValue text : Int) ≤ IntType.int16.max
    · simp only [h8, h16, decide_true, decide_false, if_true, if_false]
      exact ⟨_, rfl, rfl, rfl⟩
    · by_cases h32 : (literalValue text : Int) ≤ IntType.int32.max
      · simp only [h8, h16, h32, decide_true, decide_false, if_true, if_false]
        exact ⟨_, rfl, rfl, rfl⟩
      · by_cases h64 : (literalValue text : Int) ≤ IntType.int64.max
        · simp only [h8, h16, h32, h64, decide_true, decide_false, if_true, if_false]
          exact ⟨_, rfl, rfl, rfl⟩
        · simp only [h8, h16, h32, h64, decide_false, if_false]

theorem narrowest_eq_none_iff (n : Nat) : narrowest n = none ↔ maxInt64 < n := by
  unfold narrowest
  rw [List.find?_eq_none]
  simp only [List.mem_cons, List.not_mem_nil, or_false, decide_eq_true_eq, forall_eq_or_imp,
    forall_eq, not_le]
  have h8 : IntType.int8.max = 127 := by decide
  have h16 : IntType.int16.max = 32767 := by decide
  have h32 : IntType.int32.max = 2147483647 := by decide
  have h64 : IntType.int64.max = 9223372036854775807 := by decide
  unfold maxInt64
  rw [h8, h16, h32, h64]
  omega

-- ----
-- What a literal should be bound to
-- ----

/-- The value in the narrowest type, or an error where it is too large. -/
def ValueKept (F32 F64 : Type) (text : Ident) : Prop :=
  match narrowest (literalValue text) with
  | some t => bindIntegerLiteral (.decimal, text) =
      .ok (⟨.int t (some (literalValue text)), .int t, false⟩ : BoundValue F32 F64)
  | none => ∃ e, (bindIntegerLiteral (.decimal, text) : Except _ (BoundValue F32 F64)) = .error e

/-- The value itself, or an error where it is too large. -/
def CountKept {α : Type} (text : Ident) (bound : Except IntegerBindError α) (expected : Nat → α) :
    Prop :=
  if literalValue text ≤ maxInt64 then bound = .ok (expected (literalValue text))
  else ∃ e, bound = .error e

theorem valueKept_iff (h : text.toList ∈ decimalText) :
    ValueKept F32 F64 text ↔ ('_' ∉ text.toList ∨ maxInt64 < literalValue text) := by
  unfold ValueKept bindIntegerLiteral
  rw [← narrowest_eq_none_iff]
  by_cases hMem : '_' ∈ text.toList
  · rw [bind_of_underscore h hMem]
    cases hType : narrowest (literalValue text) with
    | some t => exact ⟨fun hOk => (nomatch hOk), fun hOr => hOr.elim (absurd hMem) fun h => nomatch h⟩
    | none => exact ⟨fun _ => .inr rfl, fun _ => ⟨_, rfl⟩⟩
  · have hBound := bind_of_plain h hMem
    refine ⟨fun _ => .inl hMem, fun _ => ?_⟩
    cases hType : narrowest (literalValue text) with
    | some t =>
      rw [hType] at hBound
      obtain ⟨n, hn, rfl, hValue⟩ := hBound
      rw [hn, ← hValue]
      rfl
    | none =>
      rw [hType] at hBound
      exact ⟨_, by rw [hBound]; rfl⟩

/-- A count is kept exactly where no underscore stands in it, or it is refused for its size anyway.
-/
theorem countKept_iff {α : Type} (h : text.toList ∈ decimalText) (expected : Nat → α) :
    CountKept text ((bindUnsignedInteger (.decimal, text)).map fun n => expected n.toUsize)
      expected ↔ ('_' ∉ text.toList ∨ maxInt64 < literalValue text) := by
  unfold CountKept
  by_cases hMem : '_' ∈ text.toList
  · rw [bind_of_underscore h hMem]
    split
    · rename_i hFits
      exact ⟨fun hOk => (nomatch hOk), fun hOr => hOr.elim (absurd hMem) fun h => by omega⟩
    · exact ⟨fun _ => .inr (by omega), fun _ => ⟨_, rfl⟩⟩
  · have hBound := bind_of_plain h hMem
    refine ⟨fun _ => .inl hMem, fun _ => ?_⟩
    cases hType : narrowest (literalValue text) with
    | some t =>
      rw [hType] at hBound
      obtain ⟨n, hn, -, hValue⟩ := hBound
      have hFits : literalValue text ≤ maxInt64 := by
        by_contra hLarge
        rw [(narrowest_eq_none_iff _).mpr (by omega)] at hType
        cases hType
      have hUsize : n.toUsize = literalValue text := by
        unfold BoundUnsignedInteger.toUsize
        unfold maxInt64 at hFits
        rw [hValue]
        omega
      rw [if_pos hFits, hn, ← hUsize]
      rfl
    | none =>
      rw [hType] at hBound
      rw [if_neg (not_le.mpr ((narrowest_eq_none_iff _).mp hType)), hBound]
      exact ⟨_, rfl⟩

theorem dimensionKept_iff (h : text.toList ∈ decimalText) :
    CountKept text (bindVectorDimension (.decimal, text)) id ↔
      if '_' ∈ text.toList then maxInt64 < literalValue text
      else literalValue text ≤ maxInt64 ∨ 2 ^ 64 ≤ literalValue text := by
  have hMax : IntType.uint64.max = 2 ^ 64 - 1 := by decide
  unfold CountKept bindVectorDimension
  dsimp only
  by_cases hMem : '_' ∈ text.toList
  · rw [if_pos hMem, parse_of_underscore h hMem]
    split
    · exact ⟨fun hOk => (nomatch hOk), fun hLarge => by omega⟩
    · exact ⟨fun _ => by omega, fun _ => ⟨_, rfl⟩⟩
  · rw [if_neg hMem, parse_of_plain h hMem, hMax]
    by_cases hFits : literalValue text ≤ maxInt64
    · have hFits64 : (literalValue text : Int) ≤ 2 ^ 64 - 1 := by
        unfold maxInt64 at hFits
        omega
      rw [if_pos hFits, if_pos hFits64]
      exact ⟨fun _ => .inl hFits, fun _ => rfl⟩
    · rw [if_neg hFits]
      by_cases hFits64 : (literalValue text : Int) ≤ 2 ^ 64 - 1
      · rw [if_pos hFits64]
        exact ⟨fun ⟨_, hError⟩ => (nomatch hError), fun hOr => by omega⟩
      · rw [if_neg hFits64]
        exact ⟨fun _ => .inr (by omega), fun _ => ⟨_, rfl⟩⟩

/-- **The four positions of an integer**, each with its own condition on the text. -/
theorem integers_kept_iff (F32 F64 : Type) (h : text.toList ∈ decimalText) (approximate : Bool) :
    (ValueKept F32 F64 text ↔ ('_' ∉ text.toList ∨ maxInt64 < literalValue text)) ∧
    (CountKept text (bindLimit (.integer (.decimal, text)) approximate) (fun n => (n, approximate)) ↔
      ('_' ∉ text.toList ∨ maxInt64 < literalValue text)) ∧
    (CountKept text (bindOffset (.integer (.decimal, text))) id ↔
      ('_' ∉ text.toList ∨ maxInt64 < literalValue text)) ∧
    (CountKept text (bindVectorDimension (.decimal, text)) id ↔
      if '_' ∈ text.toList then maxInt64 < literalValue text
      else literalValue text ≤ maxInt64 ∨ 2 ^ 64 ≤ literalValue text) :=
  ⟨valueKept_iff h, countKept_iff h fun n => (n, approximate), countKept_iff h id,
    dimensionKept_iff h⟩

theorem integers_kept_thousand :
    ValueKept Unit Unit "1000" ∧ CountKept "1000" (bindVectorDimension (.decimal, "1000")) id :=
  have h : "1000".toList ∈ decimalText := by
    refine ⟨['1'], ⟨'1', by decide, rfl⟩, ['0', '0', '0'], ⟨[['0'], ['0'], ['0']], rfl, ?_⟩, rfl⟩
    intro part hPart
    have hZero : part = ['0'] := by simpa using hPart
    exact ⟨[], .inl rfl, ['0'], ⟨'0', by decide, rfl⟩, hZero.symm⟩
  have hKept := integers_kept_iff Unit Unit h false
  ⟨hKept.1.mpr (.inl (by decide)), hKept.2.2.2.mpr (by decide)⟩

/-- The lexer takes `1_000`, and no position does. -/
theorem underscore_refused :
    "1_000".toList ∈ decimalText ∧ literalValue "1_000" = 1000 ∧
    bindUnsignedInteger (.decimal, "1_000") = .error (.invalidInteger "1_000") ∧
    bindOffset (.integer (.decimal, "1_000")) = .error (.invalidInteger "1_000") ∧
    bindVectorDimension (.decimal, "1_000") = .error (.invalidInteger "1_000") ∧
    ¬ ValueKept Unit Unit "1_000" := by
  have hBind : bindUnsignedInteger (.decimal, "1_000") = .error (.invalidInteger "1_000") := by
    decide +kernel
  have hNarrowest : narrowest (literalValue "1_000") = some .int16 := by decide +kernel
  refine ⟨?_, by decide +kernel, hBind, by decide +kernel, by decide +kernel, fun hKept => ?_⟩
  · refine ⟨['1'], ⟨'1', by decide, rfl⟩, ['_', '0', '0', '0'],
      ⟨[['_', '0'], ['0'], ['0']], rfl, ?_⟩, rfl⟩
    intro part hPart
    have hCases : part = ['_', '0'] ∨ part = ['0'] := by simpa using hPart
    rcases hCases with rfl | rfl
    · exact ⟨['_'], .inr rfl, ['0'], ⟨'0', by decide, rfl⟩, rfl⟩
    · exact ⟨[], .inl rfl, ['0'], ⟨'0', by decide, rfl⟩, rfl⟩
  · unfold ValueKept bindIntegerLiteral at hKept
    rw [hNarrowest, hBind] at hKept
    cases hKept

end MiniGU.Parsing
