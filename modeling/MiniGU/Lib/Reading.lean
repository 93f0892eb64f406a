import MiniGU.Lib.Parser

/-!
# Reading what is written

How a parser answers on tokens that write a known value: it returns the value, or it stops
short, at a failure or before a token of a given set. Loops and sequences carry such answers
on.
-/

namespace MiniGU.Parsing

variable {τ α β : Type}

/-- The next token, if there is one, is in a set. -/
def HeadIn (P : τ → Prop) (ts : List τ) : Prop := ∀ t ∈ ts.head?, P t

theorem headIn_nil (P : τ → Prop) : HeadIn P ([] : List τ) := by
  intro t ht
  cases ht

theorem headIn_cons {P : τ → Prop} {t : τ} {ts : List τ} : HeadIn P (t :: ts) ↔ P t := by
  constructor
  · intro h
    exact h t rfl
  · intro h u hu
    cases hu
    exact h

theorem HeadIn.append {P : τ → Prop} {ts us : List τ} (h : HeadIn P ts) (h' : HeadIn P us) :
    HeadIn P (ts ++ us) := by
  cases ts with
  | nil => exact h'
  | cons t ts => exact headIn_cons.mpr (headIn_cons.mp h)

theorem HeadIn.of_append {P : τ → Prop} {ts us : List τ} (h : HeadIn P (ts ++ us)) :
    HeadIn P ts := by
  cases ts with
  | nil => exact headIn_nil P
  | cons t ts => exact headIn_cons.mpr (headIn_cons.mp h)

theorem HeadIn.mono {P Q : τ → Prop} {ts : List τ} (h : HeadIn P ts) (hPQ : ∀ t, P t → Q t) :
    HeadIn Q ts :=
  fun t ht => hPQ t (h t ht)

/-- A parser that reads one token fails where it does not want the next one. -/
theorem verifyMap_of_head {f : τ → Option α} {ts : List τ} (h : HeadIn (fun t => f t = none) ts) :
    verifyMap f ts = .backtrack := by
  cases ts with
  | nil => rfl
  | cons t ts => exact verifyMap_cons_none (h t rfl)

theorem satisfy_of_head {f : τ → Bool} {ts : List τ} (h : HeadIn (fun t => f t = false) ts) :
    satisfy f ts = .backtrack :=
  verifyMap_of_head (h.mono fun t ht => by rw [ht]; rfl)

/-! ## Optional parts -/

/-- The tokens of a part that may be left out. -/
inductive Optionally (R : α → List τ → Prop) : Option α → List τ → Prop where
  | absent : Optionally R none []
  | present {a : α} {ts : List τ} : R a ts → Optionally R (some a) ts

theorem Optionally.headIn {R : α → List τ → Prop} {P : τ → Prop} {o : Option α} {ts : List τ}
    (h : Optionally R o ts) (hHead : ∀ a us, R a us → HeadIn P us) : HeadIn P ts := by
  cases h with
  | absent => exact headIn_nil P
  | present hR => exact hHead _ _ hR

theorem opt_reads {p : Parser τ α} {R : α → List τ → Prop} {o : Option α} {ts rest : List τ}
    (h : Optionally R o ts) (hPresent : ∀ a us, R a us → p (us ++ rest) = .ok a rest)
    (hAbsent : p rest = .backtrack) : opt p (ts ++ rest) = .ok o rest := by
  cases h with
  | absent => exact opt_of_backtrack hAbsent
  | present hR => exact opt_of_ok (hPresent _ _ hR)

theorem Optionally.mono {R Q : α → List τ → Prop} {o : Option α} {ts : List τ}
    (h : Optionally R o ts) (hRQ : ∀ a us, R a us → Q a us) : Optionally Q o ts := by
  cases h with
  | absent => exact .absent
  | present hR => exact .present (hRQ _ _ hR)

theorem takes_optionally {p : Parser τ α} {R : α → List τ → Prop} (h : Takes p R) :
    Takes (opt p) (Optionally R) :=
  takes_opt h .absent fun _ _ hR => .present hR

/-! ## Answers -/

/-- A failure, or some value before a token of `S`. -/
def StopsShort (p : Parser τ α) (S : τ → Prop) (ts : List τ) : Prop :=
  p ts = .backtrack ∨ ∃ a k us, p ts = .ok a (k :: us) ∧ us.length < ts.length ∧ S k

/-- On `ts` the parser returns `a` before `rest` if it should, and stops short otherwise. -/
structure ReadsOrStops (p : Parser τ α) (good : Bool) (S : τ → Prop) (a : α)
    (ts rest : List τ) : Prop where
  reads : good = true → p ts = .ok a rest
  stops : good = false → StopsShort p S ts

/-- No token: a parser that stops short before one of these fails. -/
def NoToken (_ : τ) : Prop := False

theorem StopsShort.fails {p : Parser τ α} {ts : List τ} (h : StopsShort p NoToken ts) :
    p ts = .backtrack := by
  obtain h | ⟨_, _, _, _, _, hNone⟩ := h
  · exact h
  · exact hNone.elim

/-- In a sequence the second parser answers for the value the first one stopped short with. -/
theorem StopsShort.bind {p : Parser τ α} {f : α → Parser τ β} {S S' : τ → Prop} {ts : List τ}
    (h : StopsShort p S ts)
    (hf : ∀ a k us, S k → StopsShort (f a) S' (k :: us)) : StopsShort (p >>= f) S' ts := by
  obtain h | ⟨a, k, us, hOk, hLe, hk⟩ := h
  · exact .inl (by rw [bind_apply, h]; rfl)
  · have hRun : (p >>= f) ts = f a (k :: us) := by rw [bind_apply, hOk]; rfl
    obtain hFail | ⟨b, k', vs, hOk', hLe', hk'⟩ := hf a k us hk
    · exact .inl (by rw [hRun, hFail])
    · refine .inr ⟨b, k', vs, by rw [hRun, hOk'], ?_, hk'⟩
      rw [List.length_cons] at hLe'
      omega

/-- A sequence stops short where either of its parsers does. -/
theorem ReadsOrStops.bind {p : Parser τ α} {f : α → Parser τ β} {g g' : Bool} {S S' : τ → Prop}
    {a : α} {b : β} {ts mid rest : List τ} (h : ReadsOrStops p g S a ts mid)
    (hShorter : mid.length ≤ ts.length) (hNext : ReadsOrStops (f a) g' S' b mid rest)
    (hStop : ∀ c k us, S k → StopsShort (f c) S' (k :: us)) :
    ReadsOrStops (p >>= f) (g && g') S' b ts rest where
  reads hGood := by
    obtain ⟨hg, hg'⟩ := Bool.and_eq_true_iff.mp hGood
    rw [bind_apply, h.reads hg]
    exact hNext.reads hg'
  stops hBad := by
    cases hg : g with
    | true =>
      rw [hg, Bool.true_and] at hBad
      have hRun : (p >>= f) ts = f a mid := by rw [bind_apply, h.reads hg]; rfl
      obtain hFail | ⟨c, k, us, hOk, hLe, hk⟩ := hNext.stops hBad
      · exact .inl (hRun.trans hFail)
      · exact .inr ⟨c, k, us, hRun.trans hOk, by omega, hk⟩
    | false => exact (h.stops hg).bind hStop

/-- `p.map(f)`. -/
theorem ReadsOrStops.map {p : Parser τ α} {g : Bool} {S : τ → Prop} {a : α} {ts rest : List τ}
    (h : ReadsOrStops p g S a ts rest) (f : α → β) :
    ReadsOrStops (do let x ← p; pure (f x)) g S (f a) ts rest where
  reads hGood := by
    rw [bind_apply, h.reads hGood]
    rfl
  stops hBad := (h.stops hBad).bind fun c k us hk =>
    .inr ⟨f c, k, us, rfl, Nat.lt_succ_self _, hk⟩

/-! ## Loops -/

/-- The loop over `as` reads all of them if it should, and stops before a token of `S`
otherwise. -/
structure LoopsOrStops (p : Parser τ α) (good : Bool) (S : τ → Prop) (as : List α)
    (ts rest : List τ) : Prop where
  reads : good = true → Items p as ts rest
  stops : good = false → ∃ bs k us, Items p bs ts (k :: us) ∧ S k

theorem LoopsOrStops.done {p : Parser τ α} {S : τ → Prop} {ts : List τ}
    (h : p ts = .backtrack) : LoopsOrStops p true S [] ts ts where
  reads _ := .done h
  stops hBad := by cases hBad

/-- One round of a loop whose items are read or fail: a failure ends it before the first token
of the item. -/
theorem LoopsOrStops.cons {p : Parser τ α} {g g' : Bool} {S : τ → Prop} {a : α} {as : List α}
    {k : τ} {us mid rest : List τ} (hItem : ReadsOrStops p g NoToken a (k :: us) mid)
    (hShorter : mid.length ≤ us.length) (hk : S k) (hRest : LoopsOrStops p g' S as mid rest) :
    LoopsOrStops p (g && g') S (a :: as) (k :: us) rest where
  reads hGood := by
    obtain ⟨hg, hg'⟩ := Bool.and_eq_true_iff.mp hGood
    exact .item (hItem.reads hg) (Nat.lt_succ_of_le hShorter) (hRest.reads hg')
  stops hBad := by
    cases hg : g with
    | true =>
      rw [hg, Bool.true_and] at hBad
      obtain ⟨bs, k', vs, hItems, hk'⟩ := hRest.stops hBad
      exact ⟨a :: bs, k', vs, .item (hItem.reads hg) (Nat.lt_succ_of_le hShorter) hItems, hk'⟩
    | false => exact ⟨[], k, us, .done (hItem.stops hg).fails, hk⟩

/-- One round of a loop over a separator and an item. The item that stops short ends the loop,
before the token it stopped at or, where it failed, before the separator. -/
theorem LoopsOrStops.sepCons {p : Parser τ α} {sep : Parser τ Unit} {g g' : Bool}
    {S S' : τ → Prop} {a : α} {as : List α} {k : τ} {us mid rest : List τ}
    (hSep : sep (k :: us) = .ok () us) (hItem : ReadsOrStops p g S a us mid)
    (hShorter : mid.length ≤ us.length) (hk : S' k)
    (hStop : ∀ k' vs, S k' → sep (k' :: vs) = .backtrack ∧ S' k')
    (hRest : LoopsOrStops (do sep; p) g' S' as mid rest) :
    LoopsOrStops (do sep; p) (g && g') S' (a :: as) (k :: us) rest := by
  have hRun : (do sep; p : Parser τ α) (k :: us) = p us := by
    rw [bind_apply, hSep]
    rfl
  refine ⟨fun hGood => ?_, fun hBad => ?_⟩
  · obtain ⟨hg, hg'⟩ := Bool.and_eq_true_iff.mp hGood
    exact .item (hRun.trans (hItem.reads hg)) (Nat.lt_succ_of_le hShorter) (hRest.reads hg')
  · cases hg : g with
    | true =>
      rw [hg, Bool.true_and] at hBad
      obtain ⟨bs, k', vs, hItems, hk'⟩ := hRest.stops hBad
      exact ⟨a :: bs, k', vs,
        .item (hRun.trans (hItem.reads hg)) (Nat.lt_succ_of_le hShorter) hItems, hk'⟩
    | false =>
      obtain hFail | ⟨b, k', vs, hOk, hLe, hS⟩ := hItem.stops hg
      · exact ⟨[], k, us, .done (hRun.trans hFail), hk⟩
      · obtain ⟨hEnd, hk'⟩ := hStop k' vs hS
        refine ⟨[b], k', vs, .item (hRun.trans hOk) ?_ (.done ?_), hk'⟩
        · simp only [List.length_cons]
          omega
        · rw [bind_apply, hEnd]
          rfl

/-- `repeat(1..)` over written items. -/
theorem LoopsOrStops.repeat1 {p : Parser τ α} {g : Bool} {S : τ → Prop} {a : α} {as : List α}
    {ts rest : List τ} (h : LoopsOrStops p g S (a :: as) ts rest) :
    ReadsOrStops (Parsing.repeat1 p) g S (a :: as) ts rest where
  reads hGood := repeat1_reads (h.reads hGood)
  stops hBad := by
    obtain ⟨bs, k, us, hItems, hk⟩ := h.stops hBad
    cases bs with
    | nil =>
      cases hItems with
      | done hFail => exact .inl (repeat1_of_backtrack hFail)
    | cons b bs =>
      have hLe := hItems.length_le
      rw [List.length_cons] at hLe
      exact .inr ⟨b :: bs, k, us, repeat1_reads hItems, hLe, hk⟩

/-- `separated(1..)`: its first item, then the loop over a separator and an item. -/
theorem ReadsOrStops.separated1 {p : Parser τ α} {sep : Parser τ Unit} {g g' : Bool}
    {S S' : τ → Prop} {a : α} {as : List α} {ts mid rest : List τ}
    (hFirst : ReadsOrStops p g S a ts mid) (hShorter : mid.length ≤ ts.length)
    (hStop : ∀ k us, S k → sep (k :: us) = .backtrack ∧ S' k)
    (hRest : LoopsOrStops (do sep; p) g' S' as mid rest) :
    ReadsOrStops (Parsing.separated1 p sep) (g && g') S' (a :: as) ts rest where
  reads hGood := by
    obtain ⟨hg, hg'⟩ := Bool.and_eq_true_iff.mp hGood
    exact separated1_reads (hFirst.reads hg) (hRest.reads hg')
  stops hBad := by
    cases hg : g with
    | true =>
      rw [hg, Bool.true_and] at hBad
      obtain ⟨bs, k, us, hItems, hk⟩ := hRest.stops hBad
      have hLe := hItems.length_le
      rw [List.length_cons] at hLe
      exact .inr ⟨a :: bs, k, us, separated1_reads (hFirst.reads hg) hItems, by omega, hk⟩
    | false =>
      obtain hFail | ⟨b, k, us, hOk, hLe, hS⟩ := hFirst.stops hg
      · exact .inl (separated1_of_backtrack hFail)
      · obtain ⟨hEnd, hk⟩ := hStop k us hS
        have hDone : (do sep; p : Parser τ α) (k :: us) = .backtrack := by
          rw [bind_apply, hEnd]
          rfl
        exact .inr ⟨[b], k, us, separated1_reads hOk (.done hDone), hLe, hk⟩

/-- `separated(0..)`: where its first item fails, there is none. -/
theorem ReadsOrStops.separated0 {p : Parser τ α} {sep : Parser τ Unit} {g g' : Bool}
    {S : τ → Prop} {a : α} {as : List α} {k : τ} {us mid rest : List τ}
    (hFirst : ReadsOrStops p g NoToken a (k :: us) mid) (hShorter : mid.length ≤ us.length)
    (hk : S k) (hRest : LoopsOrStops (do sep; p) g' S as mid rest) :
    ReadsOrStops (Parsing.separated0 p sep) (g && g') S (a :: as) (k :: us) rest where
  reads hGood := by
    obtain ⟨hg, hg'⟩ := Bool.and_eq_true_iff.mp hGood
    exact separated0_reads (hFirst.reads hg) (hRest.reads hg')
  stops hBad := by
    cases hg : g with
    | true =>
      rw [hg, Bool.true_and] at hBad
      obtain ⟨bs, k', vs, hItems, hk'⟩ := hRest.stops hBad
      have hLe := hItems.length_le
      rw [List.length_cons] at hLe
      refine .inr ⟨a :: bs, k', vs, separated0_reads (hFirst.reads hg) hItems, ?_, hk'⟩
      rw [List.length_cons]
      omega
    | false =>
      exact .inr ⟨[], k, us, separated0_of_backtrack (hFirst.stops hg).fails, Nat.lt_succ_self _,
        hk⟩

end MiniGU.Parsing
