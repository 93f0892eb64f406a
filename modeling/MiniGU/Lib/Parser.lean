import Mathlib.Data.List.Basic

/-!
# Parser combinators

Parsers over a list of tokens that try alternatives in order. An answer is a value with the
tokens left over, a failure another alternative may follow (`backtrack`), a failure that ends
the parse (`cut`), or `stuck` where a recursion reached its bound.
-/

namespace MiniGU.Parsing

/-- The answer of a parser. -/
inductive Reply (τ α : Type) where
  | ok (value : α) (rest : List τ)
  | backtrack
  | cut
  | stuck
deriving DecidableEq, Repr

/-- Goes on where an answer left off. -/
def Reply.andThen {τ α β : Type} : Reply τ α → (α → List τ → Reply τ β) → Reply τ β
  | .ok a rest, f => f a rest
  | .backtrack, _ => .backtrack
  | .cut, _ => .cut
  | .stuck, _ => .stuck

abbrev Parser (τ α : Type) : Type := List τ → Reply τ α

variable {τ α β : Type}

instance : Monad (Parser τ) where
  pure a := fun ts => .ok a ts
  bind p f := fun ts => (p ts).andThen f

/-! ## The combinators -/

def fail : Parser τ α := fun _ => .backtrack

/-- Takes the next token, whatever it is. -/
def any : Parser τ τ
  | [] => .backtrack
  | t :: ts => .ok t ts

/-- `any.verify_map(f)`. -/
def verifyMap (f : τ → Option α) : Parser τ α
  | [] => .backtrack
  | t :: ts =>
    match f t with
    | some a => .ok a ts
    | none => .backtrack

/-- `any.verify(p)`, its token dropped. -/
def satisfy (p : τ → Bool) : Parser τ Unit := verifyMap fun t => if p t then some () else none

/-- `cut_err(empty.verify_map(|_| o))`: no alternative is tried when there is no value. -/
def cutNone : Option α → Parser τ α
  | some a => fun ts => .ok a ts
  | none => fun _ => .cut

/-- A parser that may be absent. -/
def opt (p : Parser τ α) : Parser τ (Option α) := fun ts =>
  match p ts with
  | .ok a rest => .ok (some a) rest
  | .backtrack => .ok none ts
  | .cut => .cut
  | .stuck => .stuck

/-- The second parser, from the same place, where the first one fails. -/
def orElse (p q : Parser τ α) : Parser τ α := fun ts =>
  match p ts with
  | .backtrack => q ts
  | r => r

/-- Dispatches on the next token without taking it. -/
def peekAny (f : τ → Parser τ α) : Parser τ α
  | [] => .backtrack
  | t :: ts => f t (t :: ts)

/-- Dispatches on the next token and on the one after it, if there is one. -/
def peekAnyOpt (f : τ → Option τ → Parser τ α) : Parser τ α
  | [] => .backtrack
  | t :: ts => f t ts.head? (t :: ts)

/-- Dispatches on the next two tokens; both have to be there. -/
def peekTwo (f : τ → τ → Parser τ α) : Parser τ α
  | t :: u :: ts => f t u (t :: u :: ts)
  | _ => .backtrack

/-- Dispatches on the next three tokens; all of them have to be there. -/
def peekThree (f : τ → τ → τ → Parser τ α) : Parser τ α
  | t :: u :: v :: ts => f t u v (t :: u :: v :: ts)
  | _ => .backtrack

/-- `opt(peek(any))`, and a dispatch on what it saw. -/
def peekOpt (f : Option τ → Parser τ α) : Parser τ α := fun ts => f ts.head? ts

/-- `peek(p)`: what the parser reads, with nothing taken. -/
def peek (p : Parser τ α) : Parser τ α := fun ts => (p ts).andThen fun a _ => .ok a ts

/-- `terminated(p, q)`. -/
def terminated (p : Parser τ α) (q : Parser τ β) : Parser τ α := do
  let a ← p
  let _ ← q
  pure a

/-- `repeat(0..)`, within a bound on the number of items. -/
def repeatN (p : Parser τ α) : Nat → List τ → Reply τ (List α)
  | 0, _ => .stuck
  | n + 1, ts =>
    match p ts with
    | .ok a rest => (repeatN p n rest).andThen fun as rest' => .ok (a :: as) rest'
    | .backtrack => .ok [] ts
    | .cut => .cut
    | .stuck => .stuck

/-- `repeat(0..)`: every item takes a token. -/
def repeat0 (p : Parser τ α) : Parser τ (List α) := fun ts => repeatN p (ts.length + 1) ts

/-- `repeat(1..)`. -/
def repeat1 (p : Parser τ α) : Parser τ (List α) := do
  let a ← p
  let as ← repeat0 p
  pure (a :: as)

/-- What follows the first item of `separated`: a separator is taken with the item after it. -/
def separatedTail (p : Parser τ α) (sep : Parser τ Unit) : Parser τ (List α) :=
  repeat0 do
    sep
    p

/-- `separated(1..)`. -/
def separated1 (p : Parser τ α) (sep : Parser τ Unit) : Parser τ (List α) := do
  let a ← p
  let as ← separatedTail p sep
  pure (a :: as)

/-- `separated(0..)`. -/
def separated0 (p : Parser τ α) (sep : Parser τ Unit) : Parser τ (List α) := fun ts =>
  match p ts with
  | .ok a rest => (separatedTail p sep rest).andThen fun as rest' => .ok (a :: as) rest'
  | .backtrack => .ok [] ts
  | .cut => .cut
  | .stuck => .stuck

/-! ## Running a sequence -/

@[simp] theorem andThen_ok (a : α) (rest : List τ) (f : α → List τ → Reply τ β) :
    (Reply.ok a rest).andThen f = f a rest := rfl

@[simp] theorem bind_apply (p : Parser τ α) (f : α → Parser τ β) (ts : List τ) :
    (p >>= f) ts = (p ts).andThen fun a => f a := rfl

@[simp] theorem pure_apply (a : α) (ts : List τ) : (pure a : Parser τ α) ts = .ok a ts := rfl

@[simp] theorem any_cons (t : τ) (ts : List τ) : any (t :: ts) = .ok t ts := rfl

@[simp] theorem peekAny_cons (f : τ → Parser τ α) (t : τ) (ts : List τ) :
    peekAny f (t :: ts) = f t (t :: ts) := rfl

@[simp] theorem peekAnyOpt_cons (f : τ → Option τ → Parser τ α) (t : τ) (ts : List τ) :
    peekAnyOpt f (t :: ts) = f t ts.head? (t :: ts) := rfl

theorem andThen_ok_iff {r : Reply τ α} {f : α → List τ → Reply τ β} {b : β} {rest : List τ} :
    r.andThen f = .ok b rest ↔ ∃ a mid, r = .ok a mid ∧ f a mid = .ok b rest := by
  cases r with
  | ok a mid =>
    constructor
    · intro h
      exact ⟨a, mid, rfl, h⟩
    · rintro ⟨a', mid', hr, h⟩
      cases hr
      exact h
  | backtrack => exact ⟨fun h => (nomatch h), fun ⟨_, _, hr, _⟩ => (nomatch hr)⟩
  | cut => exact ⟨fun h => (nomatch h), fun ⟨_, _, hr, _⟩ => (nomatch hr)⟩
  | stuck => exact ⟨fun h => (nomatch h), fun ⟨_, _, hr, _⟩ => (nomatch hr)⟩

/-- A sequence is accepted when its first parser accepts and the second goes on from there. -/
theorem bind_ok_iff {p : Parser τ α} {f : α → Parser τ β} {ts rest : List τ} {b : β} :
    (p >>= f) ts = .ok b rest ↔ ∃ a mid, p ts = .ok a mid ∧ f a mid = .ok b rest :=
  andThen_ok_iff

theorem opt_of_ok {p : Parser τ α} {ts rest : List τ} {a : α} (h : p ts = .ok a rest) :
    opt p ts = .ok (some a) rest := by
  rw [opt, h]

theorem opt_of_backtrack {p : Parser τ α} {ts : List τ} (h : p ts = .backtrack) :
    opt p ts = .ok none ts := by
  rw [opt, h]

theorem orElse_of_ok {p q : Parser τ α} {ts rest : List τ} {a : α} (h : p ts = .ok a rest) :
    orElse p q ts = .ok a rest := by
  rw [orElse, h]

theorem orElse_of_backtrack {p q : Parser τ α} {ts : List τ} (h : p ts = .backtrack) :
    orElse p q ts = q ts := by
  rw [orElse, h]

theorem opt_ok {p : Parser τ α} {ts rest : List τ} {o : Option α}
    (h : opt p ts = .ok o rest) :
    (∃ a, o = some a ∧ p ts = .ok a rest) ∨ (o = none ∧ rest = ts ∧ p ts = .backtrack) := by
  rw [opt] at h
  cases hp : p ts with
  | ok a mid =>
    rw [hp] at h
    cases h
    exact .inl ⟨a, rfl, rfl⟩
  | backtrack =>
    rw [hp] at h
    cases h
    exact .inr ⟨rfl, rfl, rfl⟩
  | cut => rw [hp] at h; cases h
  | stuck => rw [hp] at h; cases h

theorem orElse_ok {p q : Parser τ α} {ts rest : List τ} {a : α}
    (h : orElse p q ts = .ok a rest) :
    p ts = .ok a rest ∨ (p ts = .backtrack ∧ q ts = .ok a rest) := by
  rw [orElse] at h
  cases hp : p ts with
  | ok b mid => rw [hp] at h; exact .inl h
  | backtrack => rw [hp] at h; exact .inr ⟨rfl, h⟩
  | cut => rw [hp] at h; cases h
  | stuck => rw [hp] at h; cases h

theorem verifyMap_ok {f : τ → Option α} {ts rest : List τ} {a : α}
    (h : verifyMap f ts = .ok a rest) : ∃ t, ts = t :: rest ∧ f t = some a := by
  cases ts with
  | nil => cases h
  | cons t ts =>
    rw [verifyMap] at h
    cases hf : f t with
    | none => rw [hf] at h; cases h
    | some b =>
      rw [hf] at h
      cases h
      exact ⟨t, rfl, hf⟩

theorem verifyMap_cons_some {f : τ → Option α} {t : τ} {ts : List τ} {a : α}
    (h : f t = some a) : verifyMap f (t :: ts) = .ok a ts := by
  rw [verifyMap, h]

theorem verifyMap_cons_none {f : τ → Option α} {t : τ} {ts : List τ} (h : f t = none) :
    verifyMap f (t :: ts) = .backtrack := by
  rw [verifyMap, h]

theorem satisfy_ok {p : τ → Bool} {ts rest : List τ} (h : satisfy p ts = .ok () rest) :
    ∃ t, ts = t :: rest ∧ p t = true := by
  obtain ⟨t, hts, ht⟩ := verifyMap_ok h
  refine ⟨t, hts, ?_⟩
  by_cases hp : p t
  · exact hp
  · rw [if_neg hp] at ht
    cases ht

@[simp] theorem satisfy_cons (p : τ → Bool) (t : τ) (ts : List τ) :
    satisfy p (t :: ts) = if p t then .ok () ts else .backtrack := by
  cases hp : p t with
  | true => exact verifyMap_cons_some (by rw [if_pos hp])
  | false => exact verifyMap_cons_none (by rw [hp]; rfl)

theorem any_ok {ts rest : List τ} {t : τ} (h : any ts = .ok t rest) : ts = t :: rest := by
  cases ts with
  | nil => cases h
  | cons u us => cases h; rfl

theorem peekAny_ok {f : τ → Parser τ α} {ts rest : List τ} {a : α}
    (h : peekAny f ts = .ok a rest) : ∃ t us, ts = t :: us ∧ f t ts = .ok a rest := by
  cases ts with
  | nil => cases h
  | cons t us => exact ⟨t, us, rfl, h⟩

theorem peekAnyOpt_ok {f : τ → Option τ → Parser τ α} {ts rest : List τ} {a : α}
    (h : peekAnyOpt f ts = .ok a rest) :
    ∃ t us, ts = t :: us ∧ f t us.head? ts = .ok a rest := by
  cases ts with
  | nil => cases h
  | cons t us => exact ⟨t, us, rfl, h⟩

theorem peekTwo_ok {f : τ → τ → Parser τ α} {ts rest : List τ} {a : α}
    (h : peekTwo f ts = .ok a rest) :
    ∃ t u us, ts = t :: u :: us ∧ f t u ts = .ok a rest := by
  match ts, h with
  | t :: u :: us, h => exact ⟨t, u, us, rfl, h⟩

/-! ## Loops -/

/-- `ts` is `as` read by `p` one after the other, whatever follows each of them. -/
inductive Items (p : Parser τ α) : List α → List τ → List τ → Prop where
  | done {ts : List τ} : p ts = .backtrack → Items p [] ts ts
  | item {a : α} {as : List α} {ts mid rest : List τ} :
      p ts = .ok a mid → mid.length < ts.length → Items p as mid rest → Items p (a :: as) ts rest

theorem Items.length_le {p : Parser τ α} {as : List α} {ts rest : List τ}
    (h : Items p as ts rest) : rest.length ≤ ts.length := by
  induction h with
  | done _ => exact Nat.le_refl _
  | item _ hShorter _ ih => omega

theorem repeatN_reads {p : Parser τ α} {as : List α} {ts rest : List τ}
    (h : Items p as ts rest) : ∀ n, ts.length < n → repeatN p n ts = .ok as rest := by
  induction h with
  | done hStop =>
    intro n hn
    cases n with
    | zero => omega
    | succ n => rw [repeatN, hStop]
  | item hItem hShorter _ ih =>
    intro n hn
    cases n with
    | zero => omega
    | succ n =>
      rw [repeatN, hItem]
      show (repeatN p n _).andThen _ = _
      rw [ih n (by omega)]
      rfl

theorem repeat0_reads {p : Parser τ α} {as : List α} {ts rest : List τ}
    (h : Items p as ts rest) : repeat0 p ts = .ok as rest :=
  repeatN_reads h _ (Nat.lt_succ_self _)

theorem repeat1_reads {p : Parser τ α} {a : α} {as : List α} {ts rest : List τ}
    (h : Items p (a :: as) ts rest) : repeat1 p ts = .ok (a :: as) rest := by
  cases h with
  | item hItem _ hItems =>
    rw [repeat1, bind_apply, hItem, andThen_ok, bind_apply, repeat0_reads hItems]
    rfl

theorem repeat1_of_backtrack {p : Parser τ α} {ts : List τ} (h : p ts = .backtrack) :
    repeat1 p ts = .backtrack := by
  rw [repeat1, bind_apply, h]
  rfl

theorem separated1_reads {p : Parser τ α} {sep : Parser τ Unit} {a : α} {as : List α}
    {ts mid rest : List τ} (hFirst : p ts = .ok a mid)
    (hTail : Items (do sep; p) as mid rest) : separated1 p sep ts = .ok (a :: as) rest := by
  rw [separated1, bind_apply, hFirst, andThen_ok, bind_apply, separatedTail,
    repeat0_reads hTail]
  rfl

theorem separated0_reads {p : Parser τ α} {sep : Parser τ Unit} {a : α} {as : List α}
    {ts mid rest : List τ} (hFirst : p ts = .ok a mid)
    (hTail : Items (do sep; p) as mid rest) : separated0 p sep ts = .ok (a :: as) rest := by
  rw [separated0, hFirst]
  show (separatedTail p sep mid).andThen _ = _
  rw [separatedTail, repeat0_reads hTail]
  rfl

theorem separated0_of_backtrack {p : Parser τ α} {sep : Parser τ Unit} {ts : List τ}
    (h : p ts = .backtrack) : separated0 p sep ts = .ok [] ts := by
  rw [separated0, h]

theorem separated1_of_backtrack {p : Parser τ α} {sep : Parser τ Unit} {ts : List τ}
    (h : p ts = .backtrack) : separated1 p sep ts = .backtrack := by
  rw [separated1, bind_apply, h]
  rfl

/-! ## What a parser takes -/

/-- Whatever `p` accepts, the tokens it took write the value it returned, as `R` says. -/
def Takes (p : Parser τ α) (R : α → List τ → Prop) : Prop :=
  ∀ ts a rest, p ts = .ok a rest → ∃ us, ts = us ++ rest ∧ R a us

section Takes

variable {p q : Parser τ α} {R Q : α → List τ → Prop}

theorem Takes.mono (h : Takes p R) (hRQ : ∀ a us, R a us → Q a us) : Takes p Q := by
  intro ts a rest hOk
  obtain ⟨us, hUs, hR⟩ := h ts a rest hOk
  exact ⟨us, hUs, hRQ a us hR⟩

theorem takes_pure {a : α} (h : R a []) : Takes (pure a : Parser τ α) R := by
  intro ts b rest hOk
  cases hOk
  exact ⟨[], rfl, h⟩

theorem takes_fail : Takes (fail : Parser τ α) R := fun _ _ _ h => (nomatch h)

/-- In a sequence the second parser goes on where the first one stopped. -/
theorem takes_bind {f : α → Parser τ β} {Q : β → List τ → Prop} (hp : Takes p R)
    (hf : ∀ a us, R a us → Takes (f a) fun b vs => Q b (us ++ vs)) : Takes (p >>= f) Q := by
  intro ts b rest hOk
  obtain ⟨a, mid, hA, hB⟩ := bind_ok_iff.mp hOk
  obtain ⟨us, hUs, hR⟩ := hp ts a mid hA
  obtain ⟨vs, hVs, hQ⟩ := hf a us hR mid b rest hB
  exact ⟨us ++ vs, by rw [hUs, hVs, List.append_assoc], hQ⟩

theorem takes_opt {Q : Option α → List τ → Prop} (hp : Takes p R) (hNone : Q none [])
    (hSome : ∀ a us, R a us → Q (some a) us) : Takes (opt p) Q := by
  intro ts o rest hOk
  obtain ⟨a, rfl, hA⟩ | ⟨rfl, rfl, -⟩ := opt_ok hOk
  · obtain ⟨us, hUs, hR⟩ := hp ts a rest hA
    exact ⟨us, hUs, hSome a us hR⟩
  · exact ⟨[], rfl, hNone⟩

theorem takes_orElse (hp : Takes p R) (hq : Takes q R) : Takes (orElse p q) R := by
  intro ts a rest hOk
  obtain h | ⟨-, h⟩ := orElse_ok hOk
  · exact hp ts a rest h
  · exact hq ts a rest h

/-- Where the optional part is absent, its parser has failed on the tokens that come. -/
theorem takes_opt_bind {f : Option α → Parser τ β} {Q W : β → List τ → Prop} (hp : Takes p R)
    (hSome : ∀ a us, R a us → Takes (f (some a)) fun b vs => Q b (us ++ vs))
    (hNone : Takes (f none) W)
    (hLook : ∀ b us rest, p (us ++ rest) = .backtrack → W b us → Q b us) :
    Takes (opt p >>= f) Q := by
  intro ts b rest hOk
  obtain ⟨o, mid, hO, hB⟩ := bind_ok_iff.mp hOk
  obtain ⟨a, rfl, hA⟩ | ⟨rfl, rfl, hFail⟩ := opt_ok hO
  · obtain ⟨us, hUs, hR⟩ := hp ts a mid hA
    obtain ⟨vs, hVs, hQ⟩ := hSome a us hR mid b rest hB
    exact ⟨us ++ vs, by rw [hUs, hVs, List.append_assoc], hQ⟩
  · obtain ⟨us, rfl, hQ⟩ := hNone _ _ _ hB
    exact ⟨us, rfl, hLook b us rest hFail hQ⟩

theorem takes_orElse_look {Q : α → List τ → Prop} (hp : Takes p R) (hq : Takes q Q)
    (hLook : ∀ a us rest, p (us ++ rest) = .backtrack → Q a us → R a us) :
    Takes (orElse p q) R := by
  intro ts a rest hOk
  obtain h | ⟨hFail, h⟩ := orElse_ok hOk
  · exact hp ts a rest h
  · obtain ⟨us, rfl, hQ⟩ := hq ts a rest h
    exact ⟨us, rfl, hLook a us rest hFail hQ⟩

theorem takes_verifyMap (f : τ → Option α) :
    Takes (verifyMap f) fun a us => ∃ t, us = [t] ∧ f t = some a := by
  intro ts a rest hOk
  obtain ⟨t, rfl, ht⟩ := verifyMap_ok hOk
  exact ⟨[t], rfl, t, rfl, ht⟩

theorem takes_satisfy (f : τ → Bool) :
    Takes (satisfy f) fun _ us => ∃ t, us = [t] ∧ f t = true := by
  intro ts _ rest hOk
  obtain ⟨t, rfl, ht⟩ := satisfy_ok hOk
  exact ⟨[t], rfl, t, rfl, ht⟩

theorem takes_any : Takes (any : Parser τ τ) fun t us => us = [t] := by
  intro ts t rest hOk
  exact ⟨[t], any_ok hOk, rfl⟩

theorem takes_cutNone {o : Option α} (h : ∀ a, o = some a → R a []) :
    Takes (cutNone o : Parser τ α) R := by
  cases o with
  | none => exact fun _ _ _ h => (nomatch h)
  | some a => exact takes_pure (h a rfl)

theorem takes_peekAny {f : τ → Parser τ α} (h : ∀ t, Takes (f t) R) : Takes (peekAny f) R := by
  intro ts a rest hOk
  obtain ⟨t, us, -, h'⟩ := peekAny_ok hOk
  exact h t ts a rest h'

theorem takes_peekAnyOpt {f : τ → Option τ → Parser τ α} (h : ∀ t o, Takes (f t o) R) :
    Takes (peekAnyOpt f) R := by
  intro ts a rest hOk
  obtain ⟨t, us, -, h'⟩ := peekAnyOpt_ok hOk
  exact h t _ ts a rest h'

theorem takes_peekTwo {f : τ → τ → Parser τ α} (h : ∀ t u, Takes (f t u) R) :
    Takes (peekTwo f) R := by
  intro ts a rest hOk
  obtain ⟨t, u, us, -, h'⟩ := peekTwo_ok hOk
  exact h t u ts a rest h'

/-- A run of items: each one a piece of the tokens that `R` allows. -/
inductive Pieces (R : α → List τ → Prop) : List α → List τ → Prop where
  | nil : Pieces R [] []
  | cons {a : α} {as : List α} {us vs : List τ} :
      R a us → Pieces R as vs → Pieces R (a :: as) (us ++ vs)

theorem takes_repeatN (hp : Takes p R) (n : Nat) : Takes (repeatN p n) (Pieces R) := by
  induction n with
  | zero => exact fun _ _ _ h => (nomatch h)
  | succ n ih =>
    intro ts as rest h
    rw [repeatN] at h
    cases hItem : p ts with
    | ok a mid =>
      rw [hItem] at h
      obtain ⟨as', rest', hRest, hEnd⟩ := andThen_ok_iff.mp h
      cases hEnd
      obtain ⟨us, hUs, hR⟩ := hp _ _ _ hItem
      obtain ⟨vs, hVs, hPieces⟩ := ih _ _ _ hRest
      exact ⟨us ++ vs, by rw [hUs, hVs, List.append_assoc], .cons hR hPieces⟩
    | backtrack =>
      rw [hItem] at h
      cases h
      exact ⟨[], rfl, .nil⟩
    | cut => rw [hItem] at h; cases h
    | stuck => rw [hItem] at h; cases h

theorem takes_repeat0 (hp : Takes p R) : Takes (repeat0 p) (Pieces R) :=
  fun ts => takes_repeatN hp _ ts

/-- Items with a separator: the first one, then pieces that begin with a separator. -/
theorem takes_separated1 {sep : Parser τ Unit} {Q : α → List τ → Prop} (hp : Takes p R)
    (hSep : Takes (do sep; p) Q) :
    Takes (separated1 p sep) fun as us => ∃ a as' vs ws, as = a :: as' ∧ us = vs ++ ws ∧
      R a vs ∧ Pieces Q as' ws :=
  takes_bind hp fun a vs hR => takes_bind (takes_repeat0 hSep) fun as' ws hPieces =>
    takes_pure ⟨a, as', vs, ws, rfl, by rw [List.append_nil], hR, hPieces⟩

theorem takes_separated0 {sep : Parser τ Unit} {Q : α → List τ → Prop} (hp : Takes p R)
    (hSep : Takes (do sep; p) Q) :
    Takes (separated0 p sep) fun as us => (as = [] ∧ us = []) ∨ ∃ a as' vs ws, as = a :: as' ∧
      us = vs ++ ws ∧ R a vs ∧ Pieces Q as' ws := by
  intro ts as rest h
  rw [separated0] at h
  cases hFirst : p ts with
  | ok a mid =>
    rw [hFirst] at h
    obtain ⟨as', rest', hRest, hEnd⟩ := andThen_ok_iff.mp h
    cases hEnd
    obtain ⟨vs, hVs, hR⟩ := hp _ _ _ hFirst
    obtain ⟨ws, hWs, hPieces⟩ := takes_repeat0 hSep _ _ _ hRest
    exact ⟨vs ++ ws, by rw [hVs, hWs, List.append_assoc], .inr ⟨a, as', vs, ws, rfl, rfl, hR,
      hPieces⟩⟩
  | backtrack =>
    rw [hFirst] at h
    cases h
    exact ⟨[], rfl, .inl ⟨rfl, rfl⟩⟩
  | cut => rw [hFirst] at h; cases h
  | stuck => rw [hFirst] at h; cases h

end Takes

end MiniGU.Parsing
