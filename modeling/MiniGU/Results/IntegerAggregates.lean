import MiniGU.Invariant.AggregateRows

/-!
# Integer aggregates

Every integer goes through `as i64`: what `SUM` gives is the sum wrapped to 64 bits, and what
`MIN` and `MAX` give are the extrema of the wrapped values. So they are exact as long as the sum,
and each value, fit `i64`.
-/

namespace MiniGU

namespace StreamExecutor

variable {E F32 F64 : Type} {ops : FloatOps F32 F64}

/-- The integer types of `ScalarValue`. -/
def intTypes : List IntType :=
  [.int8, .int16, .int32, .int64, .uint8, .uint16, .uint32, .uint64]

/-- `as i64`, as a number. -/
def asI64 (n : Int) : Int := (Int64.ofInt n).toInt

abbrev int64Value (n : Int) : Value F32 F64 := .int .int64 (some n)

-- ----
-- The accumulators
-- ----

open StreamExecutor.AggregateState

theorem runStates_min (t : IntType) (vs : List (Option Int)) (i : Option Int64) :
    runStates (E := E) ops (.min i none none) (intValues t vs) =
      .ok (.min ((vs.reduceOption.map Int64.ofInt).foldl
        (accumulate fun c v => if v < c then v else c) i) none none) := by
  induction vs generalizing i with
  | nil => rfl
  | cons v vs ih =>
    rw [intValues, List.map_cons, runStates, List.foldlM_cons]
    cases v with
    | none => exact ih i
    | some n => exact ih (accumulate _ i (Int64.ofInt n))

theorem runStates_max (t : IntType) (vs : List (Option Int)) (i : Option Int64) :
    runStates (E := E) ops (.max i none none) (intValues t vs) =
      .ok (.max ((vs.reduceOption.map Int64.ofInt).foldl
        (accumulate fun c v => if c < v then v else c) i) none none) := by
  induction vs generalizing i with
  | nil => rfl
  | cons v vs ih =>
    rw [intValues, List.map_cons, runStates, List.foldlM_cons]
    cases v with
    | none => exact ih i
    | some n => exact ih (accumulate _ i (Int64.ofInt n))

-- ----
-- The accumulators as numbers
-- ----

theorem toInt_foldl_min (x : Int64) (ys : List Int64) :
    (ys.foldl (fun c v => if v < c then v else c) x).toInt = (ys.map Int64.toInt).foldl min x.toInt := by
  induction ys generalizing x with
  | nil => rfl
  | cons y ys ih =>
    rw [List.foldl_cons, ih, List.map_cons, List.foldl_cons]
    congr 1
    split
    all_goals
      rename_i h
      rw [Int64.lt_iff_toInt_lt] at h
      omega

theorem toInt_foldl_max (x : Int64) (ys : List Int64) :
    (ys.foldl (fun c v => if c < v then v else c) x).toInt = (ys.map Int64.toInt).foldl max x.toInt := by
  induction ys generalizing x with
  | nil => rfl
  | cons y ys ih =>
    rw [List.foldl_cons, ih, List.map_cons, List.foldl_cons]
    congr 1
    split
    all_goals
      rename_i h
      rw [Int64.lt_iff_toInt_lt] at h
      omega

/-- The sum of some numbers; there is none of no numbers. -/
def sum? (ns : List Int) : Option Int := if ns = [] then none else some ns.sum

theorem map_toInt_sum (ns : List Int) :
    ((ns.map Int64.ofInt).foldl (accumulate (· + ·)) none).map Int64.toInt = (sum? ns).map asI64 := by
  cases ns with
  | nil => rfl
  | cons n ns =>
    have hFold := foldl_add_ofInt n ns
    simp only [List.map_cons, List.foldl_cons, accumulate, foldl_accumulate, hFold]
    rfl

theorem map_toInt_min (ns : List Int) :
    ((ns.map Int64.ofInt).foldl (accumulate fun c v => if v < c then v else c) none).map Int64.toInt =
      (ns.map asI64).min? := by
  cases ns with
  | nil => rfl
  | cons n ns =>
    simp only [List.map_cons, List.foldl_cons, accumulate, foldl_accumulate, Option.map_some,
      toInt_foldl_min, List.map_map]
    rfl

theorem map_toInt_max (ns : List Int) :
    ((ns.map Int64.ofInt).foldl (accumulate fun c v => if c < v then v else c) none).map Int64.toInt =
      (ns.map asI64).max? := by
  cases ns with
  | nil => rfl
  | cons n ns =>
    simp only [List.map_cons, List.foldl_cons, accumulate, foldl_accumulate, Option.map_some,
      toInt_foldl_max, List.map_map]
    rfl

theorem known_firstOf (i : Option Int64) :
    (firstOf i none none : Value F32 F64).known = (i.map Int64.toInt).map int64Value := by
  cases i <;> rfl

-- ----
-- What the aggregates give
-- ----

variable {t : IntType} {vs : List (Option Int)} {cs : List (ValueChunk F32 F64)}
  {expr : Evaluator E ArrayType (Value F32 F64)}

theorem sum_yields (ops : FloatOps F32 F64) (hColumn : Column expr cs (intValues t vs)) (x : Option Int) :
    Yields ops (.sum expr false) cs (x.map int64Value) ↔ (sum? vs.reduceOption).map asI64 = x := by
  rw [AggregateSpec.sum, aggregateAll_single ops hColumn (runStates_sum t vs none none), finalize,
    known_firstOf, map_toInt_sum]
  exact (Option.map_injective fun a b h => by simpa using h).eq_iff

/-- `MIN` gives the minimum of the values taken as 64-bit integers. -/
theorem min_yields (ops : FloatOps F32 F64) (hColumn : Column expr cs (intValues t vs)) (x : Option Int) :
    Yields ops (.min expr) cs (x.map int64Value) ↔ (vs.reduceOption.map asI64).min? = x := by
  rw [AggregateSpec.min, aggregateAll_single ops hColumn (runStates_min t vs none), finalize,
    known_firstOf, map_toInt_min]
  exact (Option.map_injective fun a b h => by simpa using h).eq_iff

/-- `MAX` gives the maximum of the values taken as 64-bit integers. -/
theorem max_yields (ops : FloatOps F32 F64) (hColumn : Column expr cs (intValues t vs)) (x : Option Int) :
    Yields ops (.max expr) cs (x.map int64Value) ↔ (vs.reduceOption.map asI64).max? = x := by
  rw [AggregateSpec.max, aggregateAll_single ops hColumn (runStates_max t vs none), finalize,
    known_firstOf, map_toInt_max]
  exact (Option.map_injective fun a b h => by simpa using h).eq_iff

-- ----
-- When they are exact
-- ----

theorem asI64_eq_self_iff {n : Int} : asI64 n = n ↔ IntType.int64.InRange n := by
  have hMin : IntType.int64.min = -2 ^ 63 := rfl
  have hMax : IntType.int64.max = 2 ^ 63 - 1 := rfl
  unfold asI64 IntType.InRange
  rw [hMin, hMax]
  constructor
  · intro h
    have hLow := Int64.le_toInt (Int64.ofInt n)
    have hHigh := Int64.toInt_lt (Int64.ofInt n)
    omega
  · intro h
    exact Int64.toInt_ofInt_of_le h.1 (by omega)

/-- A value of one of the types that is too large is one of `UInt64`, and turns negative. -/
theorem too_large {n : Int} (ht : t ∈ intTypes) (hn : t.InRange n) (hLarge : IntType.int64.max < n) :
    t.min = 0 ∧ asI64 n < 0 := by
  have hMax : IntType.int64.max = 2 ^ 63 - 1 := rfl
  have hType : t = .uint64 := by
    simp only [intTypes, List.mem_cons, List.not_mem_nil, or_false] at ht
    have hHigh := hn.2
    rcases ht with rfl | rfl | rfl | rfl | rfl | rfl | rfl | rfl
    all_goals first
      | rfl
      | simp [IntType.max, IntType.int8, IntType.int16, IntType.int32, IntType.int64,
          IntType.uint8, IntType.uint16, IntType.uint32] at hHigh hLarge
        omega
  subst hType
  have hHigh : n ≤ 2 ^ 64 - 1 := hn.2
  refine ⟨rfl, ?_⟩
  rw [asI64, Int64.toInt_ofInt, Int64.size, Int.bmod_def]
  omega

theorem at_least {n : Int} (ht : t ∈ intTypes) (hn : t.InRange n) : IntType.int64.min ≤ n := by
  have hLow := hn.1
  simp only [intTypes, List.mem_cons, List.not_mem_nil, or_false] at ht
  rcases ht with rfl | rfl | rfl | rfl | rfl | rfl | rfl | rfl
  all_goals
    simp [IntType.min, IntType.int8, IntType.int16, IntType.int32, IntType.int64, IntType.uint8,
      IntType.uint16, IntType.uint32, IntType.uint64] at hLow ⊢
    omega

section Exact

variable {ns : List Int} (ht : t ∈ intTypes) (hns : ∀ n ∈ ns, t.InRange n)

include ht hns

theorem map_asI64_of_fit (hFit : ∀ n ∈ ns, n ≤ IntType.int64.max) : ns.map asI64 = ns := by
  have hSelf : ∀ n ∈ ns, asI64 n = n := fun n hn =>
    asI64_eq_self_iff.mpr ⟨at_least ht (hns n hn), hFit n hn⟩
  simpa using List.map_congr_left (g := id) hSelf

theorem min_exact_iff : (ns.map asI64).min? = ns.min? ↔ ∀ n ∈ ns, n ≤ IntType.int64.max := by
  constructor
  · intro h n hn
    by_contra hLarge
    obtain ⟨hUnsigned, hNegative⟩ := too_large ht (hns n hn) (by omega)
    cases hMin : ns.min? with
    | none =>
      rw [List.min?_eq_none_iff] at hMin
      rw [hMin] at hn
      cases hn
    | some m =>
      -- the minimum is not negative, that of the casts is
      rw [hMin] at h
      have hLe := (List.min?_eq_some_iff.mp h).2 _ (List.mem_map_of_mem hn)
      have hMem := (hns m (List.min?_eq_some_iff.mp hMin).1).1
      omega
  · intro hFit
    rw [map_asI64_of_fit ht hns hFit]

theorem max_exact_iff : (ns.map asI64).max? = ns.max? ↔ ∀ n ∈ ns, n ≤ IntType.int64.max := by
  constructor
  · intro h n hn
    by_contra hLarge
    cases hMax : ns.max? with
    | none =>
      rw [List.max?_eq_none_iff] at hMax
      rw [hMax] at hn
      cases hn
    | some m =>
      rw [hMax] at h
      have hLe := (List.max?_eq_some_iff.mp hMax).2 n hn
      obtain ⟨k, -, hk⟩ := List.mem_map.mp (List.max?_eq_some_iff.mp h).1
      have hBound := Int64.toInt_lt (Int64.ofInt k)
      have hMaxValue : IntType.int64.max = 2 ^ 63 - 1 := rfl
      unfold asI64 at hk
      omega
  · intro hFit
    rw [map_asI64_of_fit ht hns hFit]

end Exact

/-- **Integer aggregates are exact** where the sum fits `i64`, and each value does. Each aggregate
gives the mathematical result, an `Int64` value or null where there is no value that is not null,
just under its condition. -/
theorem integer_aggregates_exact_iff (ops : FloatOps F32 F64) (ht : t ∈ intTypes)
    (hvs : ∀ n, some n ∈ vs → t.InRange n) (hColumn : Column expr cs (intValues t vs)) :
    (Yields ops (.sum expr false) cs ((sum? vs.reduceOption).map int64Value) ↔
      IntType.int64.InRange vs.reduceOption.sum) ∧
    (Yields ops (.min expr) cs (vs.reduceOption.min?.map int64Value) ↔
      ∀ n, some n ∈ vs → n ≤ IntType.int64.max) ∧
    (Yields ops (.max expr) cs (vs.reduceOption.max?.map int64Value) ↔
      ∀ n, some n ∈ vs → n ≤ IntType.int64.max) := by
  have hns : ∀ n ∈ vs.reduceOption, t.InRange n := fun n hn =>
    hvs n (List.reduceOption_mem_iff.mp hn)
  have hFit : (∀ n ∈ vs.reduceOption, n ≤ IntType.int64.max) ↔
      ∀ n, some n ∈ vs → n ≤ IntType.int64.max := by
    simp only [List.reduceOption_mem_iff]
  refine ⟨?_, ?_, ?_⟩
  · rw [sum_yields ops hColumn]
    unfold sum?
    split
    · rename_i hNil
      simp only [Option.map_none, hNil, List.sum_nil, true_iff]
      decide
    · rw [Option.map_some, Option.some.injEq, asI64_eq_self_iff]
  · rw [min_yields ops hColumn, min_exact_iff ht hns, hFit]
  · rw [max_yields ops hColumn, max_exact_iff ht hns, hFit]

/-- A chunk of one integer column. -/
def intChunk (t : IntType) (vs : List (Option Int)) : ValueChunk Int Int :=
  DataChunk.new [⟨.scalar (.int t), intValues t vs⟩]

/-- Unsigned bytes 3 and 4, with a null, in two chunks. -/
theorem small_integers_exact :
    Yields (E := Unit) FloatOps.whole (.sum (columnRef 0) false)
      [intChunk .uint8 [some 3, none], intChunk .uint8 [some 4]] (some (int64Value 7)) ∧
    Yields (E := Unit) FloatOps.whole (.min (columnRef 0))
      [intChunk .uint8 [some 3, none], intChunk .uint8 [some 4]] (some (int64Value 3)) ∧
    Yields (E := Unit) FloatOps.whole (.max (columnRef 0))
      [intChunk .uint8 [some 3, none], intChunk .uint8 [some 4]] (some (int64Value 4)) := by
  have hColumn : Column (E := Unit) (columnRef 0)
      [intChunk .uint8 [some 3, none], intChunk .uint8 [some 4]]
      (intValues .uint8 [some 3, none, some 4]) := rfl
  have hRange : ∀ n, some n ∈ [some 3, none, some (4 : Int)] → IntType.uint8.InRange n := by
    intro n hn
    simp only [List.mem_cons, Option.some.injEq, reduceCtorEq, List.not_mem_nil, or_false,
      false_or] at hn
    rcases hn with rfl | rfl <;> decide
  have hFit : ∀ n, some n ∈ [some 3, none, some (4 : Int)] → n ≤ IntType.int64.max := by
    intro n hn
    exact (hRange n hn).2.trans (by decide)
  have hExact := integer_aggregates_exact_iff FloatOps.whole (by decide) hRange hColumn
  exact ⟨hExact.1.mpr (by decide), hExact.2.1.mpr hFit, hExact.2.2.mpr hFit⟩

/-- `2 ^ 63`, a value of `UInt64`, comes back as its negative. -/
theorem large_uint64_reinterpreted :
    ¬Yields (E := Unit) FloatOps.whole (.sum (columnRef 0) false)
      [intChunk .uint64 [some (2 ^ 63)]] (some (int64Value (2 ^ 63))) ∧
    Yields (E := Unit) FloatOps.whole (.sum (columnRef 0) false)
      [intChunk .uint64 [some (2 ^ 63)]] (some (int64Value (-2 ^ 63))) ∧
    Yields (E := Unit) FloatOps.whole (.min (columnRef 0))
      [intChunk .uint64 [some (2 ^ 63)]] (some (int64Value (-2 ^ 63))) ∧
    Yields (E := Unit) FloatOps.whole (.max (columnRef 0))
      [intChunk .uint64 [some (2 ^ 63)]] (some (int64Value (-2 ^ 63))) := by
  have hColumn : Column (E := Unit) (columnRef 0) [intChunk .uint64 [some (2 ^ 63)]]
      (intValues .uint64 [some (2 ^ 63)]) := rfl
  refine ⟨fun h => ?_, (sum_yields FloatOps.whole hColumn (some (-2 ^ 63))).mpr (by decide),
    (min_yields FloatOps.whole hColumn (some (-2 ^ 63))).mpr (by decide),
    (max_yields FloatOps.whole hColumn (some (-2 ^ 63))).mpr (by decide)⟩
  have hWrapped := (sum_yields FloatOps.whole hColumn (some (2 ^ 63))).mp h
  revert hWrapped
  decide

end StreamExecutor

end MiniGU
