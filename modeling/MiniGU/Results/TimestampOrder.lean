import MiniGU.Model.AtomicTimestamp

/-!
# Timestamps are ordered and apart

A value is returned by the exchange that leaves the counter above it, and no step takes the counter
back. The commit timestamps end below the bit that marks a transaction id, whatever the counter
starts with; transaction ids begin where theirs starts.

* `perform_next`, `perform_updateIfGreater`: a step that returns is a whole call.
-/

namespace MiniGU

/-- The values returned, in the order of the steps that returned them. -/
def returnedValues (answers : List AtomicAnswer) : List Nat :=
  answers.filterMap fun
    | .returned ts => some ts
    | _ => none

/-- The values rise, no two are the same, and those returned after an update are above it. -/
structure Ordered (answers : List AtomicAnswer) : Prop where
  rising : (returnedValues answers).Pairwise (· < ·)
  nodup : (returnedValues answers).Nodup
  updates : ∀ before x after, answers = before ++ .updated x :: after →
    ∀ v ∈ returnedValues after, x < v

namespace AtomicCounter

variable {domain : TimestampDomain} {s : AtomicCounter}

-- ----
-- One step
-- ----

/-- What a step does to the counter. -/
inductive Moves (domain : TimestampDomain) (s s' : AtomicCounter) : AtomicAnswer → Prop where
  | running : s'.counter = s.counter → Moves domain s s' .running
  | failed {e : TimestampError} : s'.counter = s.counter → Moves domain s s' (.failed e)
  | returned : domain.overflows s.counter = false → s'.counter = s.counter + 1 →
      Moves domain s s' (.returned s.counter)
  | updated {ts : UInt64} : domain.inDomain ts.toNat = true → domain.overflows ts.toNat = false →
      s'.counter = max s.counter (ts.toNat + 1) → Moves domain s s' (.updated ts.toNat)

/-- What one access does to the counter, by what it returns. -/
theorem moves (domain : TimestampDomain) (s : AtomicCounter) (a : AtomicAction) :
    Moves domain s (s.perform domain a).1 (s.perform domain a).2 := by
  cases a with
  | load call => exact .running rfl
  | exchange call spurious =>
    unfold perform
    dsimp only
    cases s.cur call with
    | none => exact .running rfl
    | some cur =>
      dsimp only
      by_cases hOverflow : domain.overflows cur = true
      · rw [if_pos hOverflow]
        exact .failed rfl
      · rw [if_neg hOverflow]
        by_cases hSame : s.counter = cur ∧ spurious = false
        · rw [if_pos hSame]
          obtain ⟨rfl, -⟩ := hSame
          exact .returned (Bool.not_eq_true _ ▸ hOverflow) rfl
        · rw [if_neg hSame]
          exact .running rfl
  | updateIfGreater ts =>
    unfold perform
    dsimp only
    cases hDomain : domain.inDomain ts.toNat with
    | false => exact .failed rfl
    | true =>
      cases hOverflow : domain.overflows ts.toNat with
      | true => exact .failed rfl
      | false => exact .updated hDomain hOverflow rfl

theorem Moves.counter_le {s s' : AtomicCounter} {answer : AtomicAnswer}
    (h : Moves domain s s' answer) : s.counter ≤ s'.counter := by
  cases h <;> omega

-- ----
-- Runs
-- ----

/-- The answers of a run. -/
def answers (domain : TimestampDomain) (s : AtomicCounter) (as : List AtomicAction) :
    List AtomicAnswer :=
  (runCalls (perform domain) s as).2

section Answer

variable {s' : AtomicCounter} {answer : AtomicAnswer} {rest : List AtomicAnswer}

theorem Moves.le_returned (h : Moves domain s s' answer)
    (hRest : ∀ v ∈ returnedValues rest, s'.counter ≤ v) :
    ∀ v ∈ returnedValues (answer :: rest), s.counter ≤ v := by
  have hLe := h.counter_le
  intro v hv
  cases h with
  | returned _ _ =>
    rcases List.mem_cons.mp hv with rfl | hv
    · exact Nat.le_refl _
    · exact Nat.le_trans hLe (hRest v hv)
  | _ => exact Nat.le_trans hLe (hRest v hv)

theorem Moves.ordered (h : Moves domain s s' answer)
    (hRest : ∀ v ∈ returnedValues rest, s'.counter ≤ v) (hOrdered : Ordered rest) :
    Ordered (answer :: rest) := by
  have hRising : (returnedValues (answer :: rest)).Pairwise (· < ·) := by
    cases h with
    | returned _ hCounter =>
      refine List.pairwise_cons.mpr ⟨fun v hv => ?_, hOrdered.rising⟩
      have hLe := hRest v hv
      omega
    | _ => exact hOrdered.rising
  refine ⟨hRising, hRising.imp fun hLess => Nat.ne_of_lt hLess, fun before x after hSplit => ?_⟩
  cases before with
  | nil =>
    obtain ⟨hAnswer, rfl⟩ := List.cons.inj hSplit
    intro v hv
    have hLe := hRest v hv
    cases h with
    | updated _ _ hCounter =>
      cases hAnswer
      omega
    | _ => cases hAnswer
  | cons b before => exact hOrdered.updates before x after (List.cons.inj hSplit).2

end Answer

theorem le_returned (domain : TimestampDomain) (as : List AtomicAction) :
    ∀ s : AtomicCounter, ∀ v ∈ returnedValues (answers domain s as), s.counter ≤ v := by
  induction as with
  | nil => exact fun s v hv => (nomatch hv)
  | cons a as ih => exact fun s => (moves domain s a).le_returned (ih _)

/-- **The values of one generator rise**, also above those it was updated with. -/
theorem ordered (domain : TimestampDomain) (as : List AtomicAction) :
    ∀ s : AtomicCounter, Ordered (answers domain s as) := by
  induction as with
  | nil =>
    refine fun s => ⟨List.Pairwise.nil, List.nodup_nil, fun before x after hSplit => ?_⟩
    cases before <;> cases hSplit
  | cons a as ih =>
    exact fun s => (moves domain s a).ordered (le_returned domain as _) (ih _)

theorem returned_not_overflows (domain : TimestampDomain) (as : List AtomicAction) :
    ∀ s : AtomicCounter, ∀ v ∈ returnedValues (answers domain s as),
      domain.overflows v = false := by
  induction as with
  | nil => exact fun s v hv => (nomatch hv)
  | cons a as ih =>
    intro s v hv
    have hMoves := moves domain s a
    have hRest := ih (s.perform domain a).1
    change v ∈ returnedValues ((s.perform domain a).2 :: answers domain (s.perform domain a).1 as)
      at hv
    generalize (s.perform domain a).1 = s', (s.perform domain a).2 = answer at hMoves hRest hv
    cases hMoves with
    | returned hOverflow _ =>
      rcases List.mem_cons.mp hv with rfl | hv
      · exact hOverflow
      · exact hRest v hv
    | _ => exact hRest v hv

/-- The counter stays a 64-bit word if the generator overflows at the largest one. -/
theorem counter_le_u64Max (hTop : domain.overflows Timestamp.u64Max = true)
    (as : List AtomicAction) : ∀ s : AtomicCounter, s.counter ≤ Timestamp.u64Max →
      (runCalls (perform domain) s as).1.counter ≤ Timestamp.u64Max := by
  induction as with
  | nil => exact fun s h => h
  | cons a as ih =>
    intro s h
    refine ih _ ?_
    have hMoves := moves domain s a
    generalize (s.perform domain a).1 = s', (s.perform domain a).2 = answer at hMoves ⊢
    cases hMoves with
    | running hCounter => exact hCounter ▸ h
    | failed hCounter => exact hCounter ▸ h
    | returned hOverflow hCounter =>
      have hNe : s.counter ≠ Timestamp.u64Max := fun hEq => by
        rw [hEq, hTop] at hOverflow
        cases hOverflow
      omega
    | @updated ts _ hOverflow hCounter =>
      have hNe : ts.toNat ≠ Timestamp.u64Max := fun hEq => by
        rw [hEq, hTop] at hOverflow
        cases hOverflow
      have hWord := ts.toNat_lt
      unfold Timestamp.u64Max at *
      omega

/-- Two calls race for the last id. -/
theorem counter_le_u64Max_two :
    (runCalls (perform TransactionIdGenerator.domain) ⟨Timestamp.u64Max - 1, fun _ => none⟩
      [.load 0, .load 1, .exchange 0 false, .exchange 1 false]).1.counter ≤ Timestamp.u64Max :=
  counter_le_u64Max (by decide) _ _ (by decide)

end AtomicCounter

-- ----
-- Steps and calls
-- ----

section Calls

variable {s s' : AtomicCounter} {a : AtomicAction} {v : Nat}

/-- The step in which a call of `next` returns a value is the whole call. -/
theorem GlobalTimestampGenerator.perform_next
    (h : s.perform domain a = (s', .returned v)) :
    next ⟨s.counter⟩ = .ok (v, ⟨s'.counter⟩) := by
  have hMoves := AtomicCounter.moves domain s a
  rw [h] at hMoves
  cases hMoves with
  | returned hOverflow hCounter =>
    rw [next, if_neg (of_decide_eq_false hOverflow), hCounter]

theorem TransactionIdGenerator.perform_next
    (h : s.perform domain a = (s', .returned v)) :
    next ⟨s.counter⟩ = .ok (v, ⟨s'.counter⟩) := by
  have hMoves := AtomicCounter.moves domain s a
  rw [h] at hMoves
  cases hMoves with
  | returned hOverflow hCounter =>
    rw [next, if_neg (of_decide_eq_false hOverflow), hCounter]

theorem GlobalTimestampGenerator.perform_updateIfGreater
    (h : s.perform domain a = (s', .updated v)) :
    updateIfGreater ⟨s.counter⟩ v = .ok ⟨s'.counter⟩ := by
  have hMoves := AtomicCounter.moves domain s a
  rw [h] at hMoves
  cases hMoves with
  | updated hDomain hOverflow hCounter =>
    rw [updateIfGreater, show Timestamp.isCommitTs _ = true from hDomain,
      if_neg (of_decide_eq_false hOverflow), hCounter]
    rfl

theorem TransactionIdGenerator.perform_updateIfGreater
    (h : s.perform domain a = (s', .updated v)) :
    updateIfGreater ⟨s.counter⟩ v = .ok ⟨s'.counter⟩ := by
  have hMoves := AtomicCounter.moves domain s a
  rw [h] at hMoves
  cases hMoves with
  | updated hDomain hOverflow hCounter =>
    rw [updateIfGreater, show Timestamp.isTxnId _ = true from hDomain,
      if_neg (of_decide_eq_false hOverflow), hCounter]
    rfl

end Calls

-- ----
-- Both generators
-- ----

namespace Generators

/-- The answers of the commit timestamp generator, and of the transaction id generator. -/
def timestampAnswers (answers : List (AtomicAnswer ⊕ AtomicAnswer)) : List AtomicAnswer :=
  answers.filterMap Sum.getLeft?

def txnIdAnswers (answers : List (AtomicAnswer ⊕ AtomicAnswer)) : List AtomicAnswer :=
  answers.filterMap Sum.getRight?

def answers (s : Generators) (as : List GeneratorAction) : List (AtomicAnswer ⊕ AtomicAnswer) :=
  (runCalls perform s as).2

def timestampActions (as : List GeneratorAction) : List AtomicAction :=
  as.filterMap fun
    | .timestamp a => some a
    | .txnId _ => none

def txnIdActions (as : List GeneratorAction) : List AtomicAction :=
  as.filterMap fun
    | .timestamp _ => none
    | .txnId a => some a

/-- Each generator answers as it would alone. -/
theorem answers_apart (as : List GeneratorAction) : ∀ s : Generators,
    timestampAnswers (answers s as) =
        s.timestamps.answers GlobalTimestampGenerator.domain (timestampActions as) ∧
      txnIdAnswers (answers s as) =
        s.txnIds.answers TransactionIdGenerator.domain (txnIdActions as) := by
  induction as with
  | nil => exact fun s => ⟨rfl, rfl⟩
  | cons a as ih =>
    intro s
    obtain ⟨hTimestamps, hTxnIds⟩ := ih (s.perform a).1
    cases a with
    | timestamp a => exact ⟨congrArg (_ :: ·) hTimestamps, hTxnIds⟩
    | txnId a => exact ⟨hTimestamps, congrArg (_ :: ·) hTxnIds⟩

/-- **Whatever the interleaving**, the values of each generator rise, also above those it was
updated with; no commit timestamp has the bit of a transaction id, and no transaction id is without
it or the largest word, if the first is not. -/
theorem generators_ordered_apart (start txnIdStart : UInt64) (as : List GeneratorAction) :
    Ordered (timestampAnswers (answers (withStart start txnIdStart) as)) ∧
      Ordered (txnIdAnswers (answers (withStart start txnIdStart) as)) ∧
      (∀ ts ∈ returnedValues (timestampAnswers (answers (withStart start txnIdStart) as)),
        Timestamp.isCommitTs ts = true) ∧
      (∀ txnId ∈ returnedValues (txnIdAnswers (answers (withStart start txnIdStart) as)),
        txnIdStart.toNat ≤ txnId ∧ txnId ≠ Timestamp.u64Max ∧
          (Timestamp.isTxnId txnIdStart.toNat = true → Timestamp.isTxnId txnId = true)) := by
  obtain ⟨hTimestamps, hTxnIds⟩ := answers_apart as (withStart start txnIdStart)
  rw [hTimestamps, hTxnIds]
  refine ⟨AtomicCounter.ordered _ _ _, AtomicCounter.ordered _ _ _, fun ts hTs => ?_,
    fun txnId hTxnId => ?_⟩
  · have hBelow := AtomicCounter.returned_not_overflows _ _ _ ts hTs
    have hLess : ¬Timestamp.maxCommitTs ≤ ts := of_decide_eq_false hBelow
    rw [Timestamp.isCommitTs_iff]
    unfold Timestamp.maxCommitTs Timestamp.txnIdStart at *
    omega
  · have hBelow := AtomicCounter.returned_not_overflows _ _ _ txnId hTxnId
    have hLe : txnIdStart.toNat ≤ txnId := AtomicCounter.le_returned _ _ _ txnId hTxnId
    refine ⟨hLe, of_decide_eq_false hBelow, fun hStart => ?_⟩
    rw [Timestamp.isTxnId_iff] at hStart ⊢
    exact Nat.le_trans hStart hLe

/-- The process starts its transaction ids in their range. -/
example : Timestamp.isTxnId new.txnIds.counter = true := by decide +kernel

end Generators

end MiniGU
