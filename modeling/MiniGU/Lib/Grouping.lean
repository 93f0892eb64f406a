import MiniGU.Lib.Collect

/-!
# Grouping by a key

A loop over elements that keeps one state for each key: each element goes into the state of its
key, from a new state where the key has none yet. Keys are compared by an equivalence, and every
step may fail.
-/

namespace MiniGU

section Grouping

variable {ε ρ κ σ : Type}

/-- The state of a key is updated, a new one if there is none. -/
def upsert (same : κ → κ → Bool) (f : σ → Except ε σ) (new : σ) (k : κ) :
    List (κ × σ) → Except ε (List (κ × σ))
  | [] => do
    let s ← f new
    .ok [(k, s)]
  | (k', s) :: g =>
    if same k' k then do
      let s' ← f s
      .ok ((k', s') :: g)
    else do
      let g' ← upsert same f new k g
      .ok ((k', s) :: g')

variable {same : κ → κ → Bool} {f : σ → Except ε σ} {new : σ} {k : κ}

/-- The first state of the key is updated where there is one. -/
theorem upsert_of_mem {l r : List (κ × σ)} {p : κ × σ} (hl : ∀ q ∈ l, same q.1 k = false)
    (hp : same p.1 k = true) :
    upsert same f new k (l ++ p :: r) = (f p.2).map fun s => l ++ (p.1, s) :: r := by
  induction l with
  | nil =>
    simp only [List.nil_append, upsert, hp, if_true]
    cases f p.2 <;> rfl
  | cons q l ih =>
    have hq := hl q List.mem_cons_self
    rw [List.cons_append, upsert, hq, if_neg Bool.false_ne_true,
      ih fun q' hq' => hl q' (List.mem_cons_of_mem q hq')]
    cases f p.2 <;> rfl

/-- A key without a state gets one at the end. -/
theorem upsert_of_notMem {g : List (κ × σ)} (h : ∀ q ∈ g, same q.1 k = false) :
    upsert same f new k g = (f new).map fun s => g ++ [(k, s)] := by
  induction g with
  | nil =>
    simp only [upsert]
    cases f new <;> rfl
  | cons q g ih =>
    have hq := h q List.mem_cons_self
    rw [upsert, hq, if_neg Bool.false_ne_true, ih fun q' hq' => h q' (List.mem_cons_of_mem q hq')]
    cases f new <;> rfl

/-- Either some state is that of the key, or none is. -/
theorem exists_split_or (same : κ → κ → Bool) (k : κ) (g : List (κ × σ)) :
    (∃ l p r, g = l ++ p :: r ∧ (∀ q ∈ l, same q.1 k = false) ∧ same p.1 k = true) ∨
      ∀ q ∈ g, same q.1 k = false := by
  induction g with
  | nil => exact .inr fun q hq => by cases hq
  | cons p g ih =>
    cases hp : same p.1 k with
    | true => exact .inl ⟨[], p, g, rfl, (by simp), hp⟩
    | false =>
      rcases ih with ⟨l, q, r, rfl, hl, hq⟩ | h
      · exact .inl ⟨p :: l, q, r, rfl, List.forall_mem_cons.mpr ⟨hp, hl⟩, hq⟩
      · exact .inr (List.forall_mem_cons.mpr ⟨hp, h⟩)

/-! ## The loop -/

variable (same : κ → κ → Bool) (key : ρ → Except ε κ) (step : ρ → σ → Except ε σ) (new : σ)

/-- One element goes into the state of its key. -/
def groupStep (g : List (κ × σ)) (r : ρ) : Except ε (List (κ × σ)) := do
  let k ← key r
  upsert same (step r) new k g

/-- Whether the element has the key. -/
def hasKey (k : κ) (r : ρ) : Bool :=
  match key r with
  | .ok k' => same k' k
  | .error _ => false

/-- What the elements of a key alone lead to. -/
def runAlone (k : κ) (rs : List ρ) : Except ε σ :=
  (rs.filter (hasKey same key k)).foldlM (fun s r => step r s) new

/-- The states `g` of the elements `rs`: the keys are different, each is that of an element, each
element has one, and each state is that of the elements of its key alone. -/
structure Grouped (rs : List ρ) (g : List (κ × σ)) : Prop where
  apart : g.Pairwise fun p q => same p.1 q.1 = false
  first : ∀ p ∈ g, ∃ r ∈ rs, key r = .ok p.1
  keyed : ∀ r ∈ rs, ∃ k, key r = .ok k ∧ ∃ p ∈ g, same p.1 k = true
  states : ∀ p ∈ g, runAlone same key step new p.1 rs = .ok p.2

variable {key step new}

theorem grouped_nil : Grouped same key step new [] [] where
  apart := List.Pairwise.nil
  first := fun p hp => by cases hp
  keyed := fun r hr => by cases hr
  states := fun p hp => by cases hp

/-- One more element of the key. -/
theorem runAlone_append {same : κ → κ → Bool} {k k' : κ} {r : ρ} (hr : key r = .ok k') (h : same k' k = true)
    {rs : List ρ} {s : σ} (hs : runAlone same key step new k rs = .ok s) (rest : List ρ) :
    runAlone same key step new k (rs ++ r :: rest) =
      (do let s' ← step r s
          (rest.filter (hasKey same key k)).foldlM (fun s r => step r s) s') := by
  have hKey : hasKey same key k r = true := by simp only [hasKey, hr, h]
  unfold runAlone at hs ⊢
  rw [List.filter_append, List.filter_cons_of_pos hKey, List.foldlM_append, hs, ok_bind,
    List.foldlM_cons]

section Equivalent

variable {same} (hSame : Equivalence fun k k' => same k k' = true)

include hSame

/-- Keys that are the same have the same elements. -/
theorem hasKey_congr {k k' : κ} (h : same k k' = true) (r : ρ) :
    hasKey same key k r = hasKey same key k' r := by
  unfold hasKey
  cases key r with
  | error e => rfl
  | ok j =>
    rw [Bool.eq_iff_iff]
    exact ⟨fun hj => hSame.trans hj h, fun hj => hSame.trans hj (hSame.symm h)⟩

theorem runAlone_congr {k k' : κ} (h : same k k' = true) (rs : List ρ) :
    runAlone same key step new k rs = runAlone same key step new k' rs := by
  unfold runAlone
  rw [List.filter_congr fun r _ => hasKey_congr hSame h r]

/-- The elements so far of a key that has no state. -/
theorem runAlone_of_new {k : κ} {rs : List ρ} {g : List (κ × σ)}
    (h : Grouped same key step new rs g) (hNew : ∀ q ∈ g, same q.1 k = false) :
    runAlone same key step new k rs = .ok new := by
  have hNone : rs.filter (hasKey same key k) = [] := by
    rw [List.filter_eq_nil_iff]
    intro r hr hKey
    obtain ⟨k', hk', p, hp, hpk⟩ := h.keyed r hr
    simp only [hasKey, hk'] at hKey
    have hBoth := hSame.trans hpk hKey
    rw [hNew p hp] at hBoth
    cases hBoth
  rw [runAlone, hNone]
  rfl

/-- Other elements leave the state of a key as it is. -/
theorem runAlone_other {k k' : κ} {r : ρ} (hr : key r = .ok k') (h : same k k' = false)
    (rs : List ρ) : runAlone same key step new k (rs ++ [r]) = runAlone same key step new k rs := by
  have hKey : ¬hasKey same key k r = true := by
    simp only [hasKey, hr]
    intro hBack
    rw [hSame.symm hBack] at h
    cases h
  unfold runAlone
  rw [List.filter_append, List.filter_cons_of_neg hKey, List.filter_nil, List.append_nil]

/-- The state that the key of the next element has, or starts with. -/
theorem exists_current {rs : List ρ} {g : List (κ × σ)} (h : Grouped same key step new rs g) (k : κ) :
    ∃ s, runAlone same key step new k rs = .ok s ∧
      ((∃ l p r, g = l ++ p :: r ∧ same p.1 k = true ∧ p.2 = s ∧
        (∀ q ∈ l ++ r, same q.1 k = false) ∧
        ∀ f : σ → Except ε σ, upsert same f new k g = (f s).map fun s => l ++ (p.1, s) :: r) ∨
      ((∀ q ∈ g, same q.1 k = false) ∧
        ∀ f : σ → Except ε σ, upsert same f new k g = (f s).map fun s => g ++ [(k, s)])) := by
  rcases exists_split_or same k g with ⟨l, p, r, rfl, hl, hp⟩ | hNew
  · have hState := h.states p (by simp)
    rw [runAlone_congr hSame hp] at hState
    refine ⟨p.2, hState, .inl ⟨l, p, r, rfl, hp, rfl, ?_, fun f => upsert_of_mem hl hp⟩⟩
    intro q hq
    rcases List.mem_append.mp hq with hq | hq
    · exact hl q hq
    · -- two states of one key would not be apart
      have hApart := (List.pairwise_cons.mp (List.pairwise_append.mp h.apart).2.1).1 q hq
      rw [Bool.eq_false_iff]
      intro hqk
      rw [hSame.trans hp (hSame.symm hqk)] at hApart
      cases hApart
  · exact ⟨new, runAlone_of_new hSame h hNew, .inr ⟨hNew, fun f => upsert_of_notMem hNew⟩⟩

/-- One step keeps the states grouped. -/
theorem grouped_step {rs : List ρ} {g g' : List (κ × σ)} (h : Grouped same key step new rs g)
    {r : ρ} (hStep : groupStep same key step new g r = .ok g') :
    Grouped same key step new (rs ++ [r]) g' := by
  obtain ⟨k, hk, hUpsert⟩ := bind_ok_iff.mp hStep
  obtain ⟨s, hs, hCases⟩ := exists_current hSame h k
  have hRest : ∀ q ∈ g, same q.1 k = false → runAlone same key step new q.1 (rs ++ [r]) = .ok q.2 :=
    fun q hq hqk => (runAlone_other hSame hk hqk rs).trans (h.states q hq)
  rcases hCases with ⟨l, p, t, rfl, hp, rfl, hOthers, hResult⟩ | ⟨hNew, hResult⟩
  -- the group of the key is there, and its state moves on
  · rw [hResult] at hUpsert
    cases hs' : step r p.2 with
    | error e =>
      rw [hs'] at hUpsert
      cases hUpsert
    | ok s' =>
      rw [hs'] at hUpsert
      cases hUpsert
      refine ⟨?_, ?_, ?_, ?_⟩
      · -- the keys are those of before
        have hApart := h.apart
        simp only [List.pairwise_append, List.pairwise_cons, List.forall_mem_cons] at hApart ⊢
        exact hApart
      · intro q hq
        have hMem : ∃ q' ∈ l ++ p :: t, q'.1 = q.1 := by
          rcases List.mem_append.mp hq with hq | hq
          · exact ⟨q, by simp [hq], rfl⟩
          · rcases List.mem_cons.mp hq with rfl | hq
            · exact ⟨p, by simp, rfl⟩
            · exact ⟨q, by simp [hq], rfl⟩
        obtain ⟨q', hq', hEq⟩ := hMem
        obtain ⟨r', hr', hKey⟩ := h.first q' hq'
        exact ⟨r', List.mem_append_left _ hr', hEq ▸ hKey⟩
      · intro r' hr'
        rcases List.mem_append.mp hr' with hr' | hr'
        · obtain ⟨k', hk', q, hq, hqk⟩ := h.keyed r' hr'
          refine ⟨k', hk', ?_⟩
          rcases List.mem_append.mp hq with hq | hq
          · exact ⟨q, by simp [hq], hqk⟩
          · rcases List.mem_cons.mp hq with rfl | hq
            · exact ⟨(q.1, s'), by simp, hqk⟩
            · exact ⟨q, by simp [hq], hqk⟩
        · rw [List.mem_singleton] at hr'
          subst hr'
          exact ⟨k, hk, (p.1, s'), by simp, hp⟩
      · intro q hq
        have hq' : q = (p.1, s') ∨ q ∈ l ++ t := by
          simp only [List.mem_append, List.mem_cons] at hq ⊢
          tauto
        rcases hq' with rfl | hq
        · have hState : runAlone same key step new p.1 rs = .ok p.2 := h.states p (by simp)
          rw [runAlone_append hk (hSame.symm hp) hState, hs']
          rfl
        · refine hRest q ?_ (hOthers q hq)
          simp only [List.mem_append, List.mem_cons] at hq ⊢
          tauto
  -- the key is new, and its group goes to the end
  · rw [hResult] at hUpsert
    cases hs' : step r s with
    | error e =>
      rw [hs'] at hUpsert
      cases hUpsert
    | ok s' =>
      rw [hs'] at hUpsert
      cases hUpsert
      refine ⟨?_, ?_, ?_, ?_⟩
      · rw [List.pairwise_append]
        refine ⟨h.apart, List.pairwise_singleton _ _, fun q hq p hp => ?_⟩
        rw [List.mem_singleton] at hp
        subst hp
        exact hNew q hq
      · intro q hq
        rcases List.mem_append.mp hq with hq | hq
        · obtain ⟨r', hr', hKey⟩ := h.first q hq
          exact ⟨r', List.mem_append_left _ hr', hKey⟩
        · rw [List.mem_singleton] at hq
          subst hq
          exact ⟨r, by simp, hk⟩
      · intro r' hr'
        rcases List.mem_append.mp hr' with hr' | hr'
        · obtain ⟨k', hk', q, hq, hqk⟩ := h.keyed r' hr'
          exact ⟨k', hk', q, List.mem_append_left _ hq, hqk⟩
        · rw [List.mem_singleton] at hr'
          subst hr'
          exact ⟨k, hk, (k, s'), by simp, hSame.refl k⟩
      · intro q hq
        rcases List.mem_append.mp hq with hq | hq
        · exact hRest q hq (hNew q hq)
        · rw [List.mem_singleton] at hq
          subst hq
          rw [runAlone_append hk (hSame.refl k) hs, hs']
          rfl

/-- **After the loop** the states are grouped. -/
theorem grouped_foldlM {rs : List ρ} {g : List (κ × σ)}
    (h : rs.foldlM (groupStep same key step new) [] = .ok g) : Grouped same key step new rs g := by
  have hRun : ∀ (rest done : List ρ) (g₀ : List (κ × σ)), Grouped same key step new done g₀ →
      rest.foldlM (groupStep same key step new) g₀ = .ok g →
      Grouped same key step new (done ++ rest) g := by
    intro rest
    induction rest with
    | nil =>
      intro done g₀ hDone hRest
      cases hRest
      rwa [List.append_nil]
    | cons r rest ih =>
      intro done g₀ hDone hRest
      rw [List.foldlM_cons] at hRest
      obtain ⟨g₁, hStep, hRest⟩ := bind_ok_iff.mp hRest
      have hNext := ih (done ++ [r]) g₁ (grouped_step hSame hDone hStep) hRest
      rwa [List.append_assoc] at hNext
  exact hRun rs [] [] (grouped_nil same) h

/-- **Where the loop fails**, the key of an element fails, or the elements of its key alone do. -/
theorem failed_foldlM {rs : List ρ} {e : ε}
    (h : rs.foldlM (groupStep same key step new) [] = .error e) :
    (∃ r ∈ rs, key r = .error e) ∨
      ∃ r ∈ rs, ∃ k, key r = .ok k ∧ runAlone same key step new k rs = .error e := by
  have hRun : ∀ (rest done : List ρ) (g₀ : List (κ × σ)), Grouped same key step new done g₀ →
      rest.foldlM (groupStep same key step new) g₀ = .error e →
      (∃ r ∈ rest, key r = .error e) ∨
        ∃ r ∈ rest, ∃ k, key r = .ok k ∧ runAlone same key step new k (done ++ rest) = .error e := by
    intro rest
    induction rest with
    | nil =>
      intro done g₀ hDone hRest
      cases hRest
    | cons r rest ih =>
      intro done g₀ hDone hRest
      rw [List.foldlM_cons] at hRest
      cases hStep : groupStep same key step new g₀ r with
      | ok g₁ =>
        rw [hStep] at hRest
        have hNext := ih (done ++ [r]) g₁ (grouped_step hSame hDone hStep) hRest
        rw [List.append_assoc] at hNext
        rcases hNext with ⟨r', hr', hKey⟩ | ⟨r', hr', hKey⟩
        · exact .inl ⟨r', List.mem_cons_of_mem r hr', hKey⟩
        · exact .inr ⟨r', List.mem_cons_of_mem r hr', hKey⟩
      | error e' =>
        rw [hStep] at hRest
        cases hRest
        cases hk : key r with
        | error e' =>
          rw [groupStep, hk] at hStep
          cases hStep
          exact .inl ⟨r, List.mem_cons_self, hk⟩
        | ok k =>
          obtain ⟨s, hs, hCases⟩ := exists_current hSame hDone k
          have hFail : step r s = .error e := by
            rw [groupStep, hk, ok_bind] at hStep
            rcases hCases with ⟨l, p, t, -, -, -, -, hResult⟩ | ⟨-, hResult⟩
            all_goals
              rw [hResult] at hStep
              cases hs' : step r s with
              | ok s' =>
                rw [hs'] at hStep
                cases hStep
              | error e' =>
                rw [hs'] at hStep
                cases hStep
                rfl
          refine .inr ⟨r, List.mem_cons_self, k, hk, ?_⟩
          rw [runAlone_append hk (hSame.refl k) hs, hFail]
          rfl
  exact hRun rs [] [] (grouped_nil same) h

end Equivalent

end Grouping

end MiniGU
