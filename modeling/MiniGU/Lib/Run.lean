import Mathlib.Data.List.Basic

/-!
# Runs of a labelled transition system

`Run step P s₀ trace s`: from `s₀` a sequence of steps, each taken under the side
condition `P`, ends in `s`. The trace lists each step's state and label, so that a
history (the commits of a run, the reads of one party) is a function of the trace and
not a part of the state.

## Runs of calls that return results

`runCalls call s as` makes the calls `as` one after the other and keeps what each returned. A
relation that every call keeps, and under which two systems return the same, holds at the end of
every run, and the runs return the same (`runCalls_simulates`). What every call keeps that is made
under a condition holds at the end of every run `Along` which the condition holds
(`invariant_of_along`).
-/

namespace MiniGU

section Transitions

variable {S A : Type} {step : S → A → S → Prop} {P Q : S → A → Prop} {s₀ s : S}

inductive Run (step : S → A → S → Prop) (P : S → A → Prop) (s₀ : S) :
    List (S × A) → S → Prop where
  | nil : Run step P s₀ [] s₀
  | snoc {trace : List (S × A)} {s s' : S} {a : A} :
      Run step P s₀ trace s → P s a → step s a s' → Run step P s₀ (trace ++ [(s, a)]) s'

namespace Run

variable {trace : List (S × A)}

/-- **The invariant rule**: what holds at the start and is kept by every step holds at
the end of every run. -/
theorem invariant {I : List (S × A) → S → Prop} (hInit : I [] s₀)
    (hStep : ∀ trace s a s', Run step P s₀ trace s → I trace s → P s a → step s a s' →
      I (trace ++ [(s, a)]) s')
    (h : Run step P s₀ trace s) : I trace s := by
  induction h with
  | nil => exact hInit
  | snoc hRun hP hs ih => exact hStep _ _ _ _ hRun ih hP hs

/-- The rule for an invariant of the state alone. -/
theorem stateInvariant {I : S → Prop} (hInit : I s₀)
    (hStep : ∀ s a s', I s → P s a → step s a s' → I s')
    (h : Run step P s₀ trace s) : I s :=
  invariant (I := fun _ s => I s) hInit (fun _ s a s' _ hI hP hs => hStep s a s' hI hP hs) h

end Run

/-! ## Runs by evaluation -/

/-- Run a list of labels through a partial step function. -/
def runList (next : S → A → Option S) : S → List A → Option (List (S × A) × S)
  | s, [] => some ([], s)
  | s, a :: as =>
    match next s a with
    | none => none
    | some s' => (runList next s' as).map fun r => ((s, a) :: r.1, r.2)

/-- A run by evaluation, with what is computed of its trace and its last state. -/
theorem exists_of_runList {β : Type} {next : S → A → Option S} {as : List A} {b : β}
    {f : List (S × A) × S → β} (h : (runList next s as).map f = some b) :
    ∃ trace s', runList next s as = some (trace, s') ∧ f (trace, s') = b := by
  obtain ⟨⟨trace, s'⟩, hList, hFacts⟩ := Option.map_eq_some_iff.mp h
  exact ⟨trace, s', hList, hFacts⟩

theorem Run.cons_of {s₁ s' : S} {a : A} {trace : List (S × A)} (hP : P s a)
    (hs : step s a s₁) (h : Run step P s₁ trace s') : Run step P s ((s, a) :: trace) s' := by
  induction h with
  | nil => exact Run.snoc Run.nil hP hs
  | snoc _ hP' hs' ih => exact Run.snoc ih hP' hs'

/-- What a partial step function computes is a run. -/
theorem Run.of_runList {next : S → A → Option S}
    (hNext : ∀ s a s', next s a = some s' → P s a ∧ step s a s') {as : List A}
    {trace : List (S × A)} {s' : S} (h : runList next s as = some (trace, s')) :
    Run step P s trace s' := by
  induction as generalizing s trace with
  | nil =>
    simp only [runList, Option.some.injEq, Prod.mk.injEq] at h
    obtain ⟨rfl, rfl⟩ := h
    exact Run.nil
  | cons a as ih =>
    unfold runList at h
    split at h
    · cases h
    · rename_i s₁ hs₁
      simp only [Option.map_eq_some_iff, Prod.mk.injEq] at h
      obtain ⟨⟨trace', s₂⟩, hr, rfl, rfl⟩ := h
      obtain ⟨hP, hs⟩ := hNext s a s₁ hs₁
      exact Run.cons_of hP hs (ih hr)

end Transitions

/-! ## Calls that return results -/

section Calls

variable {S T A R Q : Type} {s : S} {t : T}

/-- The state after the calls, and what each of them returned. -/
def runCalls (call : S → A → S × R) : S → List A → S × List R
  | s, [] => (s, [])
  | s, a :: as =>
    let r := call s a
    let rest := runCalls call r.1 as
    (rest.1, r.2 :: rest.2)

/-- **The simulation rule**: what a call of one system returns is `f` of what the other returns. -/
theorem runCalls_simulates {call : S → A → S × R} {call' : T → A → T × Q} {Rel : S → T → Prop}
    {f : Q → R}
    (hCall : ∀ s t a, Rel s t →
      Rel (call s a).1 (call' t a).1 ∧ (call s a).2 = f (call' t a).2)
    (h : Rel s t) (as : List A) :
    Rel (runCalls call s as).1 (runCalls call' t as).1 ∧
      (runCalls call s as).2 = (runCalls call' t as).2.map f := by
  induction as generalizing s t with
  | nil => exact ⟨h, rfl⟩
  | cons a as ih =>
    obtain ⟨hRel, hResult⟩ := hCall s t a h
    obtain ⟨hEnd, hResults⟩ := ih hRel
    refine ⟨hEnd, ?_⟩
    show (call s a).2 :: _ = f (call' t a).2 :: _
    rw [hResult, hResults]

/-- Each call of the run is made in a state where it meets the condition. -/
def Along (call : S → A → S × R) (P : S → A → Prop) : S → List A → Prop
  | _, [] => True
  | s, a :: as => P s a ∧ Along call P (call s a).1 as

/-- **The invariant rule** for runs under a condition. -/
theorem invariant_of_along {call : S → A → S × R} {P : S → A → Prop} {I : S → Prop}
    (hCall : ∀ s a, I s → P s a → I (call s a).1) (h : I s) {as : List A}
    (hAlong : Along call P s as) : I (runCalls call s as).1 := by
  induction as generalizing s with
  | nil => exact h
  | cons a as ih =>
    obtain ⟨hHere, hRest⟩ := hAlong
    have hNext : I (call s a).1 := hCall s a h hHere
    exact ih hNext hRest

theorem Along.mono {call : S → A → S × R} {P Q : S → A → Prop} (hPQ : ∀ s a, P s a → Q s a)
    {as : List A} (h : Along call P s as) : Along call Q s as := by
  induction as generalizing s with
  | nil => trivial
  | cons a as ih => exact ⟨hPQ _ _ h.1, ih h.2⟩

end Calls

end MiniGU
