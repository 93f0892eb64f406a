import Mathlib.Algebra.GroupWithZero.Nat
import Mathlib.Algebra.Ring.Int.Defs
import MiniGU.Lib.Parser

/-!
# Operator precedence parsing

A parser for expressions with prefix, suffix and infix operators, driven by binding powers:
an operand is read, then operators are taken as long as they bind at least as tightly as the
caller asks for.
-/

namespace MiniGU.Parsing

/-- The associativity of an infix operator. -/
inductive Assoc where
  | left
  | right
  | neither
deriving DecidableEq, Repr

/-- The operand and operator parsers of a table, and how the operators build a value. -/
structure PrattConfig (τ α P S I : Type) where
  parseOperand : Parser τ α
  parsePrefix : Parser τ (Int × P)
  parseSuffix : Parser τ (Int × S)
  parseInfix : Parser τ (Assoc × Int × I)
  foldPrefix : P → α → α
  foldSuffix : α → S → α
  foldInfix : α → I → α → α

/-- A power after it was shifted: a signed word of 64 bits, which wraps around. -/
def wrapPower (power : Int) : Int := power.bmod (2 ^ 64)

/-- The powers an infix operator asks of its left and right sides. -/
def Assoc.powers : Assoc → Int → Int × Int
  | .left, power => (power, wrapPower (power + 1))
  | .right, power => (power, wrapPower (power - 1))
  | .neither, power => (power, wrapPower (power + 1))

/-- The power that must not come twice in a row. -/
def Assoc.single : Assoc → Int → Option Int
  | .neither, power => some power
  | _, _ => none

variable {τ α P S I : Type}

mutual

/-- Reads an operand and the operators after it of at least `minPower`. The bound falls with
every token taken. -/
def precedenceImpl (config : PrattConfig τ α P S I) : Nat → Int → List τ → Reply τ α
  | 0, _, _ => .stuck
  | n + 1, minPower, ts =>
    match opt config.parseOperand ts with
    | .ok (some operand) rest => precedenceLoop config n minPower none operand rest
    | .ok none _ =>
      match config.parsePrefix ts with
      | .ok (power, prefixOp) rest =>
        -- a prefix parser that takes nothing is an error of the table
        if rest.length = ts.length then .cut
        else
          match precedenceImpl config n power rest with
          | .ok operand rest' =>
            precedenceLoop config n minPower none (config.foldPrefix prefixOp operand) rest'
          | .backtrack => .backtrack
          | .cut => .cut
          | .stuck => .stuck
      | .backtrack => .backtrack
      | .cut => .cut
      | .stuck => .stuck
    | .backtrack => .backtrack
    | .cut => .cut
    | .stuck => .stuck

/-- The loop over the operators that follow an operand. -/
def precedenceLoop (config : PrattConfig τ α P S I) :
    Nat → Int → Option Int → α → List τ → Reply τ α
  | _, _, _, operand, [] => .ok operand []
  | 0, _, _, _, _ :: _ => .stuck
  | n + 1, minPower, prevNeither, operand, t :: ts =>
    match opt config.parseSuffix (t :: ts) with
    | .ok (some (power, suffixOp)) rest =>
      if power < minPower then .ok operand (t :: ts)
      else precedenceLoop config n minPower prevNeither (config.foldSuffix operand suffixOp) rest
    | .ok none _ =>
      match opt config.parseInfix (t :: ts) with
      | .ok (some (assoc, power, infixOp)) rest =>
        if (assoc.powers power).1 < minPower ∨ prevNeither = some (assoc.powers power).1 then
          .ok operand (t :: ts)
        else
          match precedenceImpl config n (assoc.powers power).2 rest with
          | .ok rhs rest' =>
            precedenceLoop config n minPower (assoc.single power)
              (config.foldInfix operand infixOp rhs) rest'
          | .backtrack => .backtrack
          | .cut => .cut
          | .stuck => .stuck
      | .ok none _ => .ok operand (t :: ts)
      | .backtrack => .backtrack
      | .cut => .cut
      | .stuck => .stuck
    | .backtrack => .backtrack
    | .cut => .cut
    | .stuck => .stuck

end

/-- `precedence`: the whole parser, with a bound that the tokens cannot use up. -/
def precedence (config : PrattConfig τ α P S I) (init : Int) : Parser τ α := fun ts =>
  precedenceImpl config (ts.length + 1) init ts

example (config : PrattConfig τ α P S I) (m : Int) (a : α) (ts : List τ) :
    precedenceImpl config 0 m ts = .stuck ∧ precedenceLoop config 0 m none a [] = .ok a [] := by
  simp [precedenceImpl, precedenceLoop]

/-! ## One round -/

section Steps

variable {config : PrattConfig τ α P S I} {n : Nat} {m : Int} {prev : Option Int}
  {ts rest rest' : List τ} {a b : α}

theorem precedenceImpl_operand (h : config.parseOperand ts = .ok a rest) :
    precedenceImpl config (n + 1) m ts = precedenceLoop config n m none a rest := by
  rw [precedenceImpl, opt_of_ok h]

theorem precedenceImpl_prefix {q : Int} {op : P} (hNone : config.parseOperand ts = .backtrack)
    (hOp : config.parsePrefix ts = .ok (q, op) rest) (hShorter : rest.length ≠ ts.length)
    (hOperand : precedenceImpl config n q rest = .ok a rest') :
    precedenceImpl config (n + 1) m ts =
      precedenceLoop config n m none (config.foldPrefix op a) rest' := by
  rw [precedenceImpl, opt_of_backtrack hNone]
  dsimp only
  rw [hOp]
  dsimp only
  rw [if_neg hShorter, hOperand]

theorem precedenceImpl_prefix_backtrack {q : Int} {op : P}
    (hNone : config.parseOperand ts = .backtrack)
    (hOp : config.parsePrefix ts = .ok (q, op) rest) (hShorter : rest.length ≠ ts.length)
    (hOperand : precedenceImpl config n q rest = .backtrack) :
    precedenceImpl config (n + 1) m ts = .backtrack := by
  rw [precedenceImpl, opt_of_backtrack hNone]
  dsimp only
  rw [hOp]
  dsimp only
  rw [if_neg hShorter, hOperand]

theorem precedenceImpl_backtrack (hNone : config.parseOperand ts = .backtrack)
    (hOp : config.parsePrefix ts = .backtrack) :
    precedenceImpl config (n + 1) m ts = .backtrack := by
  rw [precedenceImpl, opt_of_backtrack hNone]
  dsimp only
  rw [hOp]

theorem precedenceLoop_suffix {q : Int} {op : S} {t : τ}
    (hOp : config.parseSuffix (t :: ts) = .ok (q, op) rest) (hPower : m ≤ q) :
    precedenceLoop config (n + 1) m prev a (t :: ts) =
      precedenceLoop config n m prev (config.foldSuffix a op) rest := by
  rw [precedenceLoop, opt_of_ok hOp]
  dsimp only
  rw [if_neg (by omega)]

/-- A left-associative operator that binds tightly enough is taken. -/
theorem not_stops_left {q : Int} (hPower : m ≤ q) :
    ¬((Assoc.left.powers q).1 < m ∨ (none : Option Int) = some (Assoc.left.powers q).1) := by
  rintro (hLess | hNone)
  · exact absurd hLess (Int.not_lt.mpr hPower)
  · cases hNone

theorem precedenceLoop_infix {q : Int} {op : I} {t : τ} {assoc : Assoc}
    (hNone : config.parseSuffix (t :: ts) = .backtrack)
    (hOp : config.parseInfix (t :: ts) = .ok (assoc, q, op) rest)
    (hPower : ¬((assoc.powers q).1 < m ∨ prev = some (assoc.powers q).1))
    (hOperand : precedenceImpl config n (assoc.powers q).2 rest = .ok b rest') :
    precedenceLoop config (n + 1) m prev a (t :: ts) =
      precedenceLoop config n m (assoc.single q) (config.foldInfix a op b) rest' := by
  rw [precedenceLoop, opt_of_backtrack hNone]
  dsimp only
  rw [opt_of_ok hOp]
  dsimp only
  rw [if_neg hPower, hOperand]

theorem precedenceLoop_infix_backtrack {q : Int} {op : I} {t : τ}
    (hNone : config.parseSuffix (t :: ts) = .backtrack)
    (hOp : config.parseInfix (t :: ts) = .ok (.left, q, op) rest) (hPower : m ≤ q)
    (hOperand : precedenceImpl config n (Assoc.left.powers q).2 rest = .backtrack) :
    precedenceLoop config (n + 1) m none a (t :: ts) = .backtrack := by
  rw [precedenceLoop, opt_of_backtrack hNone]
  dsimp only
  rw [opt_of_ok hOp]
  dsimp only
  rw [if_neg (not_stops_left hPower), hOperand]

/-- The tokens hold no operator that binds as tightly as `m`: there are none, their first one
is no operator, or it binds less. -/
inductive StopsAt (config : PrattConfig τ α P S I) (m : Int) : List τ → Prop where
  | done : StopsAt config m []
  | none {t : τ} {ts : List τ} : config.parseSuffix (t :: ts) = .backtrack →
      config.parseInfix (t :: ts) = .backtrack → StopsAt config m (t :: ts)
  | suffixOp {t : τ} {ts rest : List τ} {q : Int} {op : S} :
      config.parseSuffix (t :: ts) = .ok (q, op) rest → q < m → StopsAt config m (t :: ts)
  | infixOp {t : τ} {ts rest : List τ} {q : Int} {op : I} :
      config.parseSuffix (t :: ts) = .backtrack →
      config.parseInfix (t :: ts) = .ok (.left, q, op) rest → q < m →
      StopsAt config m (t :: ts)

theorem precedenceLoop_stop (h : StopsAt config m ts) (hBound : ts.length < n) :
    precedenceLoop config n m prev a ts = .ok a ts := by
  cases h with
  | done => rw [precedenceLoop]
  | none hSuffix hInfix =>
    obtain ⟨n, rfl⟩ : ∃ k, n = k + 1 := ⟨n - 1, by omega⟩
    rw [precedenceLoop, opt_of_backtrack hSuffix]
    dsimp only
    rw [opt_of_backtrack hInfix]
  | suffixOp hSuffix hPower =>
    obtain ⟨n, rfl⟩ : ∃ k, n = k + 1 := ⟨n - 1, by omega⟩
    rw [precedenceLoop, opt_of_ok hSuffix]
    dsimp only
    rw [if_pos hPower]
  | infixOp hSuffix hInfix hPower =>
    obtain ⟨n, rfl⟩ : ∃ k, n = k + 1 := ⟨n - 1, by omega⟩
    rw [precedenceLoop, opt_of_backtrack hSuffix]
    dsimp only
    rw [opt_of_ok hInfix]
    dsimp only
    rw [if_pos (.inl hPower)]

/-! ## Up to the loop -/

/-- From `ts` the parser comes to its loop with `a` read and `rest` to go on with, and the bound
still exceeds the tokens left. -/
def LoopsTo (config : PrattConfig τ α P S I) (k : Nat) (m : Int) (ts : List τ) (a : α)
    (rest : List τ) : Prop :=
  ∃ k', rest.length < k' ∧ precedenceImpl config k m ts = precedenceLoop config k' m none a rest

theorem LoopsTo.operand {k : Nat} (h : config.parseOperand ts = .ok a rest)
    (hShorter : rest.length < ts.length) (hBound : ts.length < k) :
    LoopsTo config k m ts a rest := by
  obtain ⟨k, rfl⟩ : ∃ b, k = b + 1 := ⟨k - 1, by omega⟩
  exact ⟨k, by omega, precedenceImpl_operand h⟩

theorem LoopsTo.finish {k : Nat} (h : LoopsTo config k m ts a rest)
    (hStop : StopsAt config m rest) : precedenceImpl config k m ts = .ok a rest := by
  obtain ⟨k', hk', hImpl⟩ := h
  rw [hImpl]
  exact precedenceLoop_stop hStop hk'

theorem LoopsTo.prefixOp {k : Nat} {q : Int} {op : P} {us : List τ}
    (hNone : config.parseOperand ts = .backtrack) (hOp : config.parsePrefix ts = .ok (q, op) us)
    (hShorter : us.length < ts.length) (hRest : rest.length ≤ us.length)
    (hBound : ts.length < k)
    (hOperand : ∀ k', us.length < k' → LoopsTo config k' q us a rest)
    (hStop : StopsAt config q rest) : LoopsTo config k m ts (config.foldPrefix op a) rest := by
  obtain ⟨k, rfl⟩ : ∃ b, k = b + 1 := ⟨k - 1, by omega⟩
  exact ⟨k, by omega, precedenceImpl_prefix hNone hOp (by omega)
    ((hOperand k (by omega)).finish hStop)⟩

theorem LoopsTo.suffixOp {k : Nat} {q : Int} {op : S} {us : List τ}
    (h : LoopsTo config k m ts a us) (hOp : config.parseSuffix us = .ok (q, op) rest)
    (hShorter : rest.length < us.length) (hPower : m ≤ q) :
    LoopsTo config k m ts (config.foldSuffix a op) rest := by
  obtain ⟨k', hk', hImpl⟩ := h
  obtain ⟨k', rfl⟩ : ∃ b, k' = b + 1 := ⟨k' - 1, by omega⟩
  cases us with
  | nil => cases hShorter
  | cons t us =>
    refine ⟨k', by omega, ?_⟩
    rw [hImpl]
    exact precedenceLoop_suffix hOp hPower

theorem LoopsTo.infixOp {k : Nat} {q : Int} {op : I} {us vs : List τ}
    (h : LoopsTo config k m ts a us) (hNone : config.parseSuffix us = .backtrack)
    (hOp : config.parseInfix us = .ok (.left, q, op) vs) (hShorter : vs.length < us.length)
    (hRest : rest.length ≤ vs.length) (hPower : m ≤ q)
    (hOperand : ∀ k', vs.length < k' → LoopsTo config k' (Assoc.left.powers q).2 vs b rest)
    (hStop : StopsAt config (Assoc.left.powers q).2 rest) :
    LoopsTo config k m ts (config.foldInfix a op b) rest := by
  obtain ⟨k', hk', hImpl⟩ := h
  obtain ⟨k', rfl⟩ : ∃ b, k' = b + 1 := ⟨k' - 1, by omega⟩
  cases us with
  | nil => cases hShorter
  | cons t us =>
    refine ⟨k', by omega, ?_⟩
    rw [hImpl]
    exact precedenceLoop_infix hNone hOp (not_stops_left hPower)
      ((hOperand k' (by omega)).finish hStop)

/-- A right side that fails makes the expression fail. -/
theorem LoopsTo.infixOp_backtrack {k : Nat} {q : Int} {op : I} {us vs : List τ}
    (h : LoopsTo config k m ts a us) (hNone : config.parseSuffix us = .backtrack)
    (hOp : config.parseInfix us = .ok (.left, q, op) vs) (hShorter : vs.length < us.length)
    (hPower : m ≤ q)
    (hOperand : ∀ k', vs.length < k' →
      precedenceImpl config k' (Assoc.left.powers q).2 vs = .backtrack) :
    precedenceImpl config k m ts = .backtrack := by
  obtain ⟨k', hk', hImpl⟩ := h
  obtain ⟨k', rfl⟩ : ∃ b, k' = b + 1 := ⟨k' - 1, by omega⟩
  cases us with
  | nil => cases hShorter
  | cons t us =>
    rw [hImpl]
    exact precedenceLoop_infix_backtrack hNone hOp hPower (hOperand k' (by omega))

end Steps

/-! ## What is accepted is read in order -/

/-- A way to say which tokens write a value that operands, prefix, suffix and infix operators
respect. -/
structure ReadsInOrder (config : PrattConfig τ α P S I) (R : α → List τ → Prop) : Prop where
  operand : Takes config.parseOperand R
  prefixOp : Takes config.parsePrefix fun op us =>
    ∀ a vs, R a vs → R (config.foldPrefix op.2 a) (us ++ vs)
  suffixOp : Takes config.parseSuffix fun op us =>
    ∀ a vs, R a vs → R (config.foldSuffix a op.2) (vs ++ us)
  infixOp : Takes config.parseInfix fun op us =>
    ∀ a b vs ws, R a vs → R b ws → R (config.foldInfix a op.2.2 b) (vs ++ us ++ ws)

variable {config : PrattConfig τ α P S I} {R : α → List τ → Prop}

/-- One bound at a time: the parser and its loop, which goes on from `a` written by `vs`. -/
theorem precedenceImpl_loop_reads (hR : ReadsInOrder config R) (n : Nat) :
    (∀ m, Takes (precedenceImpl config n m) R) ∧
    (∀ m prev a vs ts b rest, precedenceLoop config n m prev a ts = .ok b rest → R a vs →
      ∃ us, ts = us ++ rest ∧ R b (vs ++ us)) := by
  induction n with
  | zero =>
    constructor
    · intro m ts a rest h
      cases h
    · intro m prev a vs ts b rest h hA
      cases ts with
      | nil =>
        rw [precedenceLoop] at h
        cases h
        exact ⟨[], rfl, by rwa [List.append_nil]⟩
      | cons t ts => cases h
  | succ n ih =>
    obtain ⟨ihImpl, ihLoop⟩ := ih
    constructor
    · intro m ts a rest h
      rw [precedenceImpl] at h
      split at h
      · -- an operand, then the loop
        rename_i operand mid hOpt
        rcases opt_ok hOpt with ⟨_, hSome, hOperand⟩ | ⟨hNone, -, -⟩
        · cases hSome
          obtain ⟨us, hUs, hRead⟩ := hR.operand _ _ _ hOperand
          obtain ⟨vs, hVs, hLoop⟩ := ihLoop _ _ _ _ _ _ _ h hRead
          exact ⟨us ++ vs, by rw [hUs, hVs, List.append_assoc], hLoop⟩
        · cases hNone
      · -- no operand: a prefix operator and what it stands before
        split at h
        · rename_i power op mid hPrefix
          split at h
          · cases h
          · split at h
            · rename_i b mid' hOperand
              obtain ⟨us, hUs, hClosed⟩ := hR.prefixOp _ _ _ hPrefix
              obtain ⟨vs, hVs, hRead⟩ := ihImpl _ _ _ _ hOperand
              obtain ⟨ws, hWs, hLoop⟩ := ihLoop _ _ _ _ _ _ _ h (hClosed _ _ hRead)
              exact ⟨us ++ vs ++ ws, by rw [hUs, hVs, hWs]; simp, hLoop⟩
            all_goals cases h
        all_goals cases h
      all_goals cases h
    · intro m prev a vs ts b rest h hA
      cases ts with
      | nil =>
        rw [precedenceLoop] at h
        cases h
        exact ⟨[], rfl, by rwa [List.append_nil]⟩
      | cons t ts =>
        have hStop : ∀ {r : List τ}, Reply.ok a (t :: ts) = Reply.ok b r →
            ∃ us, t :: ts = us ++ r ∧ R b (vs ++ us) := by
          intro r hEq
          cases hEq
          exact ⟨[], rfl, by rwa [List.append_nil]⟩
        rw [precedenceLoop] at h
        split at h
        · -- a suffix operator
          rename_i power op mid hOpt
          rcases opt_ok hOpt with ⟨_, hSome, hSuffix⟩ | ⟨hNone, -, -⟩
          · cases hSome
            split at h
            · exact hStop h
            · obtain ⟨us, hUs, hClosed⟩ := hR.suffixOp _ _ _ hSuffix
              obtain ⟨ws, hWs, hLoop⟩ := ihLoop _ _ _ _ _ _ _ h (hClosed _ _ hA)
              exact ⟨us ++ ws, by rw [hUs, hWs, List.append_assoc],
                by rwa [← List.append_assoc]⟩
          · cases hNone
        · split at h
          · -- an infix operator and its right side
            rename_i assoc power op mid hOpt
            rcases opt_ok hOpt with ⟨_, hSome, hInfix⟩ | ⟨hNone, -, -⟩
            · cases hSome
              split at h
              · exact hStop h
              · split at h
                · rename_i rhs mid' hRhs
                  obtain ⟨us, hUs, hClosed⟩ := hR.infixOp _ _ _ hInfix
                  obtain ⟨ws, hWs, hRead⟩ := ihImpl _ _ _ _ hRhs
                  obtain ⟨xs, hXs, hLoop⟩ := ihLoop _ _ _ _ _ _ _ h (hClosed _ _ _ _ hA hRead)
                  exact ⟨us ++ ws ++ xs, by rw [hUs, hWs, hXs]; simp,
                    by simpa using hLoop⟩
                all_goals cases h
            · cases hNone
          · exact hStop h
          all_goals cases h
        all_goals cases h

/-- Whatever is accepted is read in order: the tokens taken write the value returned. -/
theorem precedenceImpl_reads (hR : ReadsInOrder config R) (n : Nat) (m : Int) :
    Takes (precedenceImpl config n m) R :=
  (precedenceImpl_loop_reads hR n).1 m

theorem takes_precedence (hR : ReadsInOrder config R) (init : Int) :
    Takes (precedence config init) R :=
  fun ts => precedenceImpl_reads hR _ _ ts

/-! ## Operator trees -/

/-- An expression tree over operands and operators. -/
inductive OpTree (α P S I : Type) where
  | operand (a : α)
  | prefixOp (op : P) (t : OpTree α P S I)
  | suffixOp (t : OpTree α P S I) (op : S)
  | infixOp (l : OpTree α P S I) (op : I) (r : OpTree α P S I)

/-- A precedence table: the power and the tokens of each operator. Infix operators associate to
the left. -/
structure OpTable (τ α P S I : Type) where
  operandTokens : α → List τ
  prefixPower : P → Int
  prefixTokens : P → List τ
  suffixPower : S → Int
  suffixTokens : S → List τ
  infixPower : I → Int
  infixTokens : I → List τ
  opening : τ
  closing : τ

/-- Parentheses around an expression of power `q` where power `p` is asked for. -/
def OpTable.enclose (table : OpTable τ α P S I) (p q : Int) (ts : List τ) : List τ :=
  if q < p then table.opening :: ts ++ [table.closing] else ts

/-- The tokens of a tree where power `p` is asked for, with parentheses exactly where the table
requires them. -/
def OpTree.write (table : OpTable τ α P S I) (p : Int) : OpTree α P S I → List τ
  | .operand a => table.operandTokens a
  | .prefixOp op t =>
    table.enclose p (table.prefixPower op)
      (table.prefixTokens op ++ t.write table (table.prefixPower op))
  | .suffixOp t op =>
    table.enclose p (table.suffixPower op)
      (t.write table (table.suffixPower op) ++ table.suffixTokens op)
  | .infixOp l op r =>
    table.enclose p (table.infixPower op)
      (l.write table (table.infixPower op) ++ table.infixTokens op ++
        r.write table (table.infixPower op + 1))

/-- A tree can be written wherever its operator can, if parentheses make a tree of power 0 one
of any power. -/
theorem OpTable.enclose_of {table : OpTable τ α P S I} {R : Int → List τ → Prop} {p q : Int}
    {ts : List τ} (hOpen : ∀ r, r ≤ q → R r ts) (hq : 0 ≤ q)
    (hParen : R 0 ts → R p (table.opening :: ts ++ [table.closing])) :
    R p (table.enclose p q ts) := by
  unfold OpTable.enclose
  split
  · exact hParen (hOpen 0 hq)
  · exact hOpen p (by omega)

end MiniGU.Parsing
