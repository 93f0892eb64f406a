import Mathlib.Data.List.Basic

/-!
# Loops that may fail

`mapM` over `Except` or `Option` succeeds when every element does, with the results in order.
A computation that panics has not returned an error, and `Fault` tells the two apart.
-/

namespace MiniGU

/-- What ends a computation before its time. -/
inductive Fault (E : Type) where
  | error (e : E)
  | panicked
deriving DecidableEq, Repr

variable {ε α β : Type}

theorem mapM_ok_iff {f : α → Except ε β} {l : List α} {vs : List β} :
    l.mapM f = .ok vs ↔ l.map f = vs.map .ok := by
  induction l generalizing vs with
  | nil =>
    rw [List.mapM_nil]
    show Except.ok [] = Except.ok vs ↔ [] = vs.map Except.ok
    rw [Except.ok.injEq, eq_comm, eq_comm (a := []), List.map_eq_nil_iff]
  | cons a l ih =>
    rw [List.mapM_cons, List.map_cons]
    cases hf : f a with
    | error e =>
      cases vs with
      | nil => exact ⟨fun h => (nomatch h), fun h => (nomatch h)⟩
      | cons v vs => exact ⟨fun h => (nomatch h), fun h => by simp at h⟩
    | ok b =>
      cases hl : l.mapM f with
      | error e =>
        refine ⟨fun h => (nomatch h), fun h => ?_⟩
        cases vs with
        | nil => cases h
        | cons v vs =>
          have hTail := ih.mpr (List.cons.inj h).2
          rw [hl] at hTail
          cases hTail
      | ok bs =>
        have hBs := ih.mp hl
        show Except.ok (b :: bs) = Except.ok vs ↔ _
        rw [hBs, Except.ok.injEq]
        constructor
        · rintro rfl
          rfl
        · intro h
          have hMap : (b :: bs).map (Except.ok (ε := ε)) = vs.map .ok := h
          exact List.map_injective_iff.mpr (fun _ _ h => Except.ok.inj h) hMap

theorem exists_map_ok {f : α → Except ε β} {l : List α} (h : ∀ a ∈ l, ∃ b, f a = .ok b) :
    ∃ vs : List β, l.map f = vs.map .ok := by
  induction l with
  | nil => exact ⟨[], rfl⟩
  | cons a l ih =>
    obtain ⟨b, hb⟩ := h a (List.mem_cons_self ..)
    obtain ⟨vs, hvs⟩ := ih fun a' ha' => h a' (List.mem_cons_of_mem _ ha')
    exact ⟨b :: vs, by rw [List.map_cons, List.map_cons, hb, hvs]⟩

theorem ok_of_map_ok {f : α → Except ε β} {l : List α} {vs : List β} (h : l.map f = vs.map .ok) :
    ∀ a ∈ l, ∃ b, f a = .ok b := by
  intro a ha
  have hMem : f a ∈ vs.map .ok := h ▸ List.mem_map_of_mem ha
  obtain ⟨b, -, hb⟩ := List.mem_map.mp hMem
  exact ⟨b, hb.symm⟩

theorem ok_bind {a : α} {f : α → Except ε β} : (Except.ok a >>= f) = f a := rfl

theorem bind_ok_iff {x : Except ε α} {f : α → Except ε β} {b : β} :
    (x >>= f) = .ok b ↔ ∃ a, x = .ok a ∧ f a = .ok b := by
  cases x with
  | error e => exact ⟨fun h => (nomatch h), fun ⟨_, h, _⟩ => (nomatch h)⟩
  | ok a =>
    constructor
    · exact fun h => ⟨a, rfl, h⟩
    · rintro ⟨_, ⟨⟩, h⟩
      exact h

theorem map_bind_ok {γ : Type} {f : α → Except ε β} {g : β → Except ε γ} {l : List α}
    {vs : List β} (h : l.map f = vs.map .ok) : (l.map fun a => f a >>= g) = vs.map g := by
  have hMap := congrArg (List.map fun x : Except ε β => x >>= g) h
  rw [List.map_map, List.map_map] at hMap
  exact hMap

/-- Two loops that succeed at the same steps, with the same results. -/
theorem map_ok_congr {f g : α → Except ε β} {l : List α} {vs : List β}
    (h : ∀ a ∈ l, ∀ b, f a = .ok b ↔ g a = .ok b) : l.map f = vs.map .ok ↔ l.map g = vs.map .ok := by
  induction l generalizing vs with
  | nil => exact Iff.rfl
  | cons a l ih =>
    cases vs with
    | nil => exact ⟨nofun, nofun⟩
    | cons v vs =>
      have hTail := @ih vs fun b hb => h b (List.mem_cons_of_mem a hb)
      rw [List.map_cons, List.map_cons, List.map_cons, List.cons.injEq, List.cons.injEq,
        h a List.mem_cons_self v, hTail]

/-- A loop in which every step succeeds. -/
theorem mapM_eq_ok {f : α → Except ε β} {g : α → β} {l : List α} (h : ∀ a ∈ l, f a = .ok (g a)) :
    l.mapM f = .ok (l.map g) := by
  rw [mapM_ok_iff, List.map_map]
  exact List.map_congr_left h

/-- Two loops with the same steps. -/
theorem foldlM_congr {σ : Type} {f g : σ → α → Except ε σ} {l : List α}
    (h : ∀ a ∈ l, ∀ s, f s a = g s a) {s : σ} : l.foldlM f s = l.foldlM g s := by
  induction l generalizing s with
  | nil => rfl
  | cons a l ih =>
    rw [List.foldlM_cons, List.foldlM_cons, h a List.mem_cons_self]
    congr 1
    funext s'
    exact ih fun b hb => h b (List.mem_cons_of_mem a hb)

/-- A loop with a state in which every step succeeds. -/
theorem foldlM_eq_ok {σ : Type} {f : σ → α → Except ε σ} {g : σ → α → σ} {l : List α}
    (h : ∀ a ∈ l, ∀ s, f s a = .ok (g s a)) (s : σ) : l.foldlM f s = .ok (l.foldl g s) := by
  induction l generalizing s with
  | nil => rfl
  | cons a l ih =>
    rw [List.foldlM_cons, h a List.mem_cons_self, ok_bind, List.foldl_cons]
    exact ih (fun b hb => h b (List.mem_cons_of_mem a hb)) (g s a)

/-- A loop fails where a step always does. -/
theorem foldlM_fails {σ : Type} {f : σ → α → Except ε σ} {l : List α} {a : α} (ha : a ∈ l)
    (h : ∀ s, ∃ e, f s a = .error e) (s : σ) : ∃ e, l.foldlM f s = .error e := by
  induction l generalizing s with
  | nil => cases ha
  | cons b l ih =>
    rw [List.foldlM_cons]
    cases hStep : f s b with
    | error e => exact ⟨e, rfl⟩
    | ok s' =>
      rcases List.mem_cons.mp ha with rfl | ha
      · obtain ⟨e, he⟩ := h s
        rw [he] at hStep
        cases hStep
      · exact ih ha s'

theorem mapM_fails {f : α → Except ε β} {l : List α} {a : α} (ha : a ∈ l)
    (h : ∃ e, f a = .error e) : ∃ e, l.mapM f = .error e := by
  cases hMap : l.mapM f with
  | error e => exact ⟨e, rfl⟩
  | ok bs =>
    obtain ⟨b, hb⟩ := ok_of_map_ok (mapM_ok_iff.mp hMap) a ha
    obtain ⟨e, he⟩ := h
    rw [hb] at he
    cases he

/-- A loop over several states that do not meet is a loop for each. -/
theorem foldlM_mapM_ok {f : α → β → Except ε β} {l : List α} {bs bs' : List β} :
    l.foldlM (fun bs a => bs.mapM (f a)) bs = .ok bs' ↔
      (bs.map fun b => l.foldlM (fun b a => f a b) b) = bs'.map .ok := by
  induction l generalizing bs with
  | nil =>
    show Except.ok bs = .ok bs' ↔ bs.map (Except.ok (ε := ε)) = bs'.map .ok
    rw [Except.ok.injEq]
    exact (List.map_injective_iff.mpr fun _ _ h => Except.ok.inj h).eq_iff.symm
  | cons a l ih =>
    simp only [List.foldlM_cons]
    rw [bind_ok_iff]
    constructor
    · rintro ⟨bs₁, hStep, hRest⟩
      rw [map_bind_ok (mapM_ok_iff.mp hStep)]
      exact ih.mp hRest
    · intro h
      obtain ⟨bs₁, hStep⟩ : ∃ bs₁ : List β, bs.map (f a) = bs₁.map .ok := by
        refine exists_map_ok fun b hb => ?_
        obtain ⟨b', hb'⟩ := ok_of_map_ok h b hb
        obtain ⟨b₁, hFirst, -⟩ := bind_ok_iff.mp hb'
        exact ⟨b₁, hFirst⟩
      rw [map_bind_ok hStep] at h
      exact ⟨bs₁, mapM_ok_iff.mpr hStep, ih.mpr h⟩

/-- The same for lookups. -/
theorem mapM_eq_some {f : α → Option β} {g : α → β} {l : List α} (h : ∀ a ∈ l, f a = some (g a)) :
    l.mapM f = some (l.map g) := by
  induction l with
  | nil => rfl
  | cons a l ih =>
    rw [List.mapM_cons, h a (List.mem_cons_self ..), ih fun b hb => h b (List.mem_cons_of_mem _ hb)]
    rfl

section Partial

variable {α β : Type} {f : α → Option β} {l : List α} {bs : List β}

theorem exists_mapM_iff :
    (∃ bs, l.mapM f = some bs) ↔ ∀ a ∈ l, (f a).isSome = true := by
  induction l with
  | nil => exact ⟨fun _ a ha => (nomatch ha), fun _ => ⟨[], rfl⟩⟩
  | cons a l ih =>
    rw [List.forall_mem_cons, ← ih, List.mapM_cons]
    cases f a with
    | none => simp
    | some b => cases l.mapM f <;> simp

theorem map_of_mapM (h : l.mapM f = some bs) : l.map f = bs.map some := by
  induction l generalizing bs with
  | nil =>
    cases h
    rfl
  | cons a l ih =>
    rw [List.mapM_cons] at h
    obtain ⟨b, hb, h⟩ := Option.bind_eq_some_iff.mp h
    obtain ⟨bs', hbs, h⟩ := Option.bind_eq_some_iff.mp h
    obtain rfl : b :: bs' = bs := Option.some.inj h
    rw [List.map_cons, List.map_cons, hb, ih hbs]

theorem eq_map_of_mapM (h : l.mapM f = some bs) (d : β) : bs = l.map fun a => (f a).getD d := by
  have hMap := congrArg (List.map fun x : Option β => x.getD d) (map_of_mapM h)
  rw [List.map_map, List.map_map] at hMap
  exact (List.map_id bs).symm.trans hMap.symm

end Partial

end MiniGU
