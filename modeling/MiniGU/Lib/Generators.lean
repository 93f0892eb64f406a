import Mathlib.Data.List.Basic

/-!
# Generators that end at an error

What a generator yields is a list of results, of which an error is the last. A loop over a
generator may itself yield in each round (`forEach`); it ends where an error comes out of either.
-/

namespace MiniGU

variable {ε α β γ : Type}

/-- Nothing comes after an error. -/
def untilError : List (Except ε α) → List (Except ε α)
  | [] => []
  | .error e :: _ => [.error e]
  | .ok a :: rest => .ok a :: untilError rest

/-- A round of a loop; an error is passed on. -/
def runBody (body : α → List (Except ε β)) : Except ε α → List (Except ε β)
  | .ok a => body a
  | .error e => [.error e]

/-- A loop over what a generator yields. -/
def forEach (body : α → List (Except ε β)) (items : List (Except ε α)) : List (Except ε β) :=
  untilError (items.flatMap (runBody body))

@[simp] theorem untilError_untilError (l : List (Except ε α)) :
    untilError (untilError l) = untilError l := by
  induction l with
  | nil => rfl
  | cons x l ih =>
    cases x with
    | error e => rfl
    | ok a => exact congrArg (Except.ok a :: ·) ih

@[simp] theorem untilError_map_ok (l : List α) :
    untilError (l.map (Except.ok (ε := ε))) = l.map .ok := by
  induction l with
  | nil => rfl
  | cons a l ih => exact congrArg (Except.ok a :: ·) ih

theorem untilError_append_congr (l : List (Except ε α)) {m m' : List (Except ε α)}
    (h : untilError m = untilError m') : untilError (l ++ m) = untilError (l ++ m') := by
  induction l with
  | nil => exact h
  | cons x l ih =>
    cases x with
    | error e => rfl
    | ok a => exact congrArg (Except.ok a :: ·) ih

theorem untilError_untilError_append (l m : List (Except ε α)) :
    untilError (untilError l ++ m) = untilError (l ++ m) := by
  induction l with
  | nil => rfl
  | cons x l ih =>
    cases x with
    | error e => rfl
    | ok a => exact congrArg (Except.ok a :: ·) ih

/-- Rounds count up to their first error. -/
theorem untilError_flatMap_congr {l : List α} {f g : α → List (Except ε β)}
    (h : ∀ a ∈ l, untilError (f a) = untilError (g a)) :
    untilError (l.flatMap f) = untilError (l.flatMap g) := by
  induction l with
  | nil => rfl
  | cons a l ih =>
    have hTail := ih fun b hb => h b (List.mem_cons_of_mem a hb)
    rw [List.flatMap_cons, List.flatMap_cons, untilError_append_congr (f a) hTail,
      ← untilError_untilError_append, h a List.mem_cons_self, untilError_untilError_append]

/-- What comes after an error makes no rounds. -/
theorem untilError_flatMap_untilError (body : α → List (Except ε β)) (l : List (Except ε α)) :
    untilError ((untilError l).flatMap (runBody body)) = untilError (l.flatMap (runBody body)) := by
  induction l with
  | nil => rfl
  | cons x l ih =>
    cases x with
    | error e => rfl
    | ok a => exact untilError_append_congr (body a) ih

section Loops

variable {body body' : α → List (Except ε β)} {items : List (Except ε α)}

@[simp] theorem untilError_forEach : untilError (forEach body items) = forEach body items :=
  untilError_untilError _

theorem forEach_congr (h : ∀ a, .ok a ∈ items → untilError (body a) = untilError (body' a)) :
    forEach body items = forEach body' items := by
  refine untilError_flatMap_congr fun x hx => ?_
  cases x with
  | error e => rfl
  | ok a => exact h a hx

/-- **A loop over a loop** is one loop. -/
theorem forEach_forEach (next : β → List (Except ε γ)) :
    forEach next (forEach body items) = forEach (fun a => forEach next (body a)) items := by
  rw [forEach, forEach, untilError_flatMap_untilError, List.flatMap_assoc]
  refine untilError_flatMap_congr fun x hx => ?_
  cases x with
  | error e => rfl
  | ok a => exact (untilError_untilError _).symm

end Loops

theorem forEach_singleton (body : α → List (Except ε β)) (a : α) :
    forEach body [.ok a] = untilError (body a) := by
  rw [forEach, List.flatMap_singleton]
  rfl

theorem forEach_map (body : β → List (Except ε γ)) (f : α → β) (l : List α) :
    forEach body (l.map fun a => .ok (f a)) = forEach (fun a => body (f a)) (l.map .ok) := by
  rw [forEach, forEach, List.flatMap_map, List.flatMap_map]
  rfl

/-- A loop that yields one value in each round. -/
theorem forEach_pure (f : α → β) (l : List α) :
    forEach (fun a => [Except.ok (f a)]) (l.map (Except.ok (ε := ε))) = (l.map f).map .ok := by
  rw [forEach, List.flatMap_map, ← untilError_map_ok, List.map_map]
  exact congrArg untilError (List.map_eq_flatMap).symm

end MiniGU
