import MiniGU.Lib.Pratt

/-!
# Operator tables and the trees they prescribe

A table gives each token a role at the start of an expression and a role after one. A tree is
prescribed where no operand holds, at the edge it shows to its operator, one that binds less, and
where an operator that does not associate is not chained.
-/

namespace MiniGU.Parsing

variable {τ : Type}

/-- What a token is where an expression begins. -/
inductive StartRole where
  | operand
  | prefixOp (power : Int)
deriving DecidableEq, Repr

/-- What a token is after an operand. -/
inductive NextRole where
  | suffixOp (power : Int)
  | infixOp (assoc : Assoc) (power : Int)
deriving DecidableEq, Repr

def NextRole.power : NextRole → Int
  | .suffixOp power => power
  | .infixOp _ power => power

/-- The powers that a signed word of 64 bits holds. -/
def IsPrecedence (power : Int) : Prop := -2 ^ 63 ≤ power ∧ power < 2 ^ 63

instance (power : Int) : Decidable (IsPrecedence power) := inferInstanceAs (Decidable (_ ∧ _))

structure OperatorTable (τ : Type) where
  start : τ → Option StartRole
  next : τ → Option NextRole
  start_range : ∀ t p, start t = some (.prefixOp p) → IsPrecedence p
  next_range : ∀ t role, next t = some role → IsPrecedence role.power

/-- A tree whose leaves are tokens; each operator has its token, its associativity and power. -/
abbrev TokenTree (τ : Type) : Type := OpTree τ (τ × Int) (τ × Int) (τ × Assoc × Int)

/-- The parsers of a table: each reads one token and looks up its role. -/
def OperatorTable.config (table : OperatorTable τ) :
    PrattConfig τ (TokenTree τ) (τ × Int) (τ × Int) (τ × Assoc × Int) where
  parseOperand := verifyMap fun t =>
    match table.start t with
    | some .operand => some (.operand t)
    | _ => none
  parsePrefix := verifyMap fun t =>
    match table.start t with
    | some (.prefixOp power) => some (power, t, power)
    | _ => none
  parseSuffix := verifyMap fun t =>
    match table.next t with
    | some (.suffixOp power) => some (power, t, power)
    | _ => none
  parseInfix := verifyMap fun t =>
    match table.next t with
    | some (.infixOp assoc power) => some (assoc, power, t, assoc, power)
    | _ => none
  foldPrefix := .prefixOp
  foldSuffix := .suffixOp
  foldInfix := .infixOp

/-! ## Prescribed trees -/

/-- The least power that may stand in an infix operator's right operand: its own if it associates
to the right, and more than its own otherwise. -/
def Assoc.bound : Assoc → Int → Int
  | .right, power => power
  | _, power => power + 1

/-- The power whose shift leaves the range of powers. -/
def Assoc.edge : Assoc → Int
  | .right => -2 ^ 63
  | _ => 2 ^ 63 - 1

/-- The power shifted for the right side, where no range bounds it. -/
def Assoc.shifted : Assoc → Int → Int
  | .right, power => power - 1
  | _, power => power + 1

theorem wrapPower_of_isPrecedence {power : Int} (h : IsPrecedence power) :
    wrapPower power = power := by
  obtain ⟨hLow, hHigh⟩ := h
  unfold wrapPower
  apply Int.bmod_eq_of_le <;> omega

theorem Assoc.powers_snd {assoc : Assoc} {power : Int} (h : IsPrecedence power)
    (hEdge : power ≠ assoc.edge) : (assoc.powers power).2 = assoc.shifted power := by
  obtain ⟨hLow, hHigh⟩ := h
  cases assoc with
  | left =>
    have hNe : power ≠ 2 ^ 63 - 1 := hEdge
    exact wrapPower_of_isPrecedence ⟨by omega, by omega⟩
  | right =>
    have hNe : power ≠ -2 ^ 63 := hEdge
    exact wrapPower_of_isPrecedence ⟨by omega, by omega⟩
  | neither =>
    have hNe : power ≠ 2 ^ 63 - 1 := hEdge
    exact wrapPower_of_isPrecedence ⟨by omega, by omega⟩

namespace OpTree

def tokens : TokenTree τ → List τ
  | .operand t => [t]
  | .prefixOp op x => op.1 :: x.tokens
  | .suffixOp x op => x.tokens ++ [op.1]
  | .infixOp x op y => x.tokens ++ op.1 :: y.tokens

/-- The powers that an operator on the left of the tree competes with. -/
def leftPowers : TokenTree τ → List Int
  | .operand _ => []
  | .prefixOp _ _ => []
  | .suffixOp x op => op.2 :: x.leftPowers
  | .infixOp x op _ => op.2.2 :: x.leftPowers

/-- What an operator on the right of the tree has to stay below: from such a power on it belongs
to an operand in the tree. -/
def rightBounds : TokenTree τ → List Int
  | .operand _ => []
  | .prefixOp op x => op.2 :: x.rightBounds
  | .suffixOp _ _ => []
  | .infixOp _ op y => op.2.1.bound op.2.2 :: y.rightBounds

/-- The power of an operator that does not associate and may not be chained at the tree. -/
def blocks : TokenTree τ → Option Int
  | .operand _ => none
  | .prefixOp _ _ => none
  | .suffixOp x _ => x.blocks
  | .infixOp _ op _ => op.2.1.single op.2.2

end OpTree

namespace OperatorTable

variable (table : OperatorTable τ)

/-- Every token has its role, and every operand binds tightly enough for its operator. -/
def Fits : TokenTree τ → Prop
  | .operand t => table.start t = some .operand
  | .prefixOp op x =>
    table.start op.1 = some (.prefixOp op.2) ∧ Fits x ∧ ∀ l ∈ x.leftPowers, op.2 ≤ l
  | .suffixOp x op =>
    table.next op.1 = some (.suffixOp op.2) ∧ Fits x ∧ ∀ r ∈ x.rightBounds, op.2 < r
  | .infixOp x op y =>
    table.next op.1 = some (.infixOp op.2.1 op.2.2) ∧ Fits x ∧ Fits y ∧
      (∀ r ∈ x.rightBounds, op.2.2 < r) ∧ x.blocks ≠ some op.2.2 ∧
      ∀ l ∈ y.leftPowers, op.2.1.bound op.2.2 ≤ l

/-- The trees of the table where operators of power `m` and more are asked for. -/
def Prescribes (m : Int) (x : TokenTree τ) : Prop :=
  table.Fits x ∧ ∀ l ∈ x.leftPowers, m ≤ l

/-- The operator that the tokens begin with. -/
def upcoming (ts : List τ) : Option NextRole := ts.head?.bind table.next

/-- The operator that comes next belongs to no operand in the tree. -/
def Clear (x : TokenTree τ) (ts : List τ) : Prop :=
  ∀ role, table.upcoming ts = some role → ∀ r ∈ x.rightBounds, role.power < r

/-- The operator that comes next is not taken. -/
def Stops (m : Int) (prev : Option Int) (ts : List τ) : Prop :=
  ∀ role, table.upcoming ts = some role →
    role.power < m ∨ ∃ assoc q, role = .infixOp assoc q ∧ prev = some q

/-- No infix operator has the one power that its shift takes out of the range, no operator has the
power one below that of an operator that associates to the right, and none that does not associate
can stand in the right operand of another operator. -/
structure Apart : Prop where
  edge : ∀ t assoc p, table.next t = some (.infixOp assoc p) → p ≠ assoc.edge
  right : ∀ t p, table.next t = some (.infixOp .right p) → ∀ u role, table.next u = some role →
    role.power ≠ p - 1
  infixOp : ∀ e q, table.next e = some (.infixOp .neither q) → ∀ w assoc p,
    table.next w = some (.infixOp assoc p) → q < assoc.bound p
  prefixOp : ∀ e q, table.next e = some (.infixOp .neither q) → ∀ w p,
    table.start w = some (.prefixOp p) → q < p

variable {table} {n : Nat} {m p q : Int} {prev : Option Int} {t : τ} {ts us rest mid : List τ}
  {x y : TokenTree τ} {assoc : Assoc}

/-! ## One round -/

theorem impl_operand (h : table.start t = some .operand) :
    precedenceImpl table.config (n + 1) m (t :: ts) =
      precedenceLoop table.config n m none (.operand t) ts :=
  precedenceImpl_operand (by simp [config, verifyMap, h])

theorem impl_prefixOp (h : table.start t = some (.prefixOp p))
    (hOperand : precedenceImpl table.config n p ts = .ok x rest) :
    precedenceImpl table.config (n + 1) m (t :: ts) =
      precedenceLoop table.config n m none (.prefixOp (t, p) x) rest := by
  have hNone : table.config.parseOperand (t :: ts) = .backtrack := by simp [config, verifyMap, h]
  have hOp : table.config.parsePrefix (t :: ts) = .ok (p, t, p) ts := by
    simp [config, verifyMap, h]
  have hShorter : ts.length ≠ (t :: ts).length := by
    rw [List.length_cons]
    omega
  exact precedenceImpl_prefix hNone hOp hShorter hOperand

theorem loop_suffixOp (h : table.next t = some (.suffixOp p)) (hPower : m ≤ p) :
    precedenceLoop table.config (n + 1) m prev x (t :: ts) =
      precedenceLoop table.config n m prev (.suffixOp x (t, p)) ts := by
  have hOp : table.config.parseSuffix (t :: ts) = .ok (p, t, p) ts := by
    simp [config, verifyMap, h]
  exact precedenceLoop_suffix hOp hPower

theorem powers_fst : (assoc.powers p).1 = p := by
  cases assoc <;> rfl

theorem loop_infixOp (h : table.next t = some (.infixOp assoc p)) (hPower : m ≤ p)
    (hPrev : prev ≠ some p)
    (hOperand : precedenceImpl table.config n (assoc.powers p).2 ts = .ok y rest) :
    precedenceLoop table.config (n + 1) m prev x (t :: ts) =
      precedenceLoop table.config n m (assoc.single p) (.infixOp x (t, assoc, p) y) rest := by
  have hNone : table.config.parseSuffix (t :: ts) = .backtrack := by simp [config, verifyMap, h]
  have hOp : table.config.parseInfix (t :: ts) = .ok (assoc, p, t, assoc, p) ts := by
    simp [config, verifyMap, h]
  refine precedenceLoop_infix hNone hOp ?_ hOperand
  rw [powers_fst]
  rintro (hLess | hEq)
  · omega
  · exact hPrev hEq

/-- What the loop does, read backwards: it stops, or takes a suffix operator, or an infix operator
with its right operand. -/
theorem loop_ok (h : precedenceLoop table.config n m prev x ts = .ok y rest) :
    (y = x ∧ rest = ts ∧ table.Stops m prev ts) ∨ ∃ k t us, n = k + 1 ∧ ts = t :: us ∧
      ((∃ p, table.next t = some (.suffixOp p) ∧ m ≤ p ∧
        precedenceLoop table.config k m prev (.suffixOp x (t, p)) us = .ok y rest) ∨
      ∃ assoc p z mid, table.next t = some (.infixOp assoc p) ∧ m ≤ p ∧ prev ≠ some p ∧
        precedenceImpl table.config k (assoc.powers p).2 us = .ok z mid ∧
        precedenceLoop table.config k m (assoc.single p) (.infixOp x (t, assoc, p) z) mid =
          .ok y rest) := by
  cases ts with
  | nil =>
    rw [precedenceLoop] at h
    cases h
    exact .inl ⟨rfl, rfl, fun role hRole => by cases hRole⟩
  | cons t us =>
    cases n with
    | zero => cases h
    | succ k =>
      cases hRole : table.next t with
      | none =>
        simp [precedenceLoop, opt, config, verifyMap, hRole] at h
        obtain ⟨rfl, rfl⟩ := h
        refine .inl ⟨rfl, rfl, fun role hNext => ?_⟩
        rw [upcoming, List.head?_cons, Option.bind_some, hRole] at hNext
        cases hNext
      | some role =>
        have hNext : table.upcoming (t :: us) = some role := hRole
        cases role with
        | suffixOp p =>
          simp [precedenceLoop, opt, config, verifyMap, hRole] at h
          split at h
          · rename_i hLess
            cases h
            refine .inl ⟨rfl, rfl, fun role hNext' => .inl ?_⟩
            cases hNext.symm.trans hNext'
            exact hLess
          · exact .inr ⟨k, t, us, rfl, rfl,
            .inl ⟨p, hRole, by omega, h⟩⟩
        | infixOp assoc p =>
          simp [precedenceLoop, opt, config, verifyMap, hRole, powers_fst] at h
          split at h
          · rename_i hStop
            cases h
            refine .inl ⟨rfl, rfl, fun role hNext' => ?_⟩
            cases hNext.symm.trans hNext'
            rcases hStop with hLess | hPrev
            · exact .inl hLess
            · exact .inr ⟨assoc, p, rfl, hPrev⟩
          · rename_i hTake
            split at h
            · rename_i z mid hOperand
              exact .inr ⟨k, t, us, rfl, rfl, .inr ⟨assoc, p, z, mid, hRole, by omega,
                fun hEq => hTake (.inr hEq), hOperand, h⟩⟩
            all_goals cases h

/-- How an expression begins, read backwards. -/
theorem impl_ok (h : precedenceImpl table.config (n + 1) m ts = .ok y rest) :
    ∃ t us, ts = t :: us ∧ ((table.start t = some .operand ∧
        precedenceLoop table.config n m none (.operand t) us = .ok y rest) ∨
      ∃ p z mid, table.start t = some (.prefixOp p) ∧
        precedenceImpl table.config n p us = .ok z mid ∧
        precedenceLoop table.config n m none (.prefixOp (t, p) z) mid = .ok y rest) := by
  cases ts with
  | nil =>
    simp [precedenceImpl, opt, config, verifyMap] at h
  | cons t us =>
    refine ⟨t, us, rfl, ?_⟩
    cases hRole : table.start t with
    | none => simp [precedenceImpl, opt, config, verifyMap, hRole] at h
    | some role =>
      cases role with
      | operand =>
        rw [impl_operand hRole] at h
        exact .inl ⟨rfl, h⟩
      | prefixOp p =>
        simp [precedenceImpl, opt, config, verifyMap, hRole] at h
        split at h
        · rename_i z mid hOperand
          exact .inr ⟨p, z, mid, rfl, hOperand, h⟩
        all_goals cases h

theorem loop_stops (h : table.Stops m prev ts) (hBound : ts.length < n) :
    precedenceLoop table.config n m prev x ts = .ok x ts := by
  cases ts with
  | nil => rw [precedenceLoop]
  | cons t ts =>
    obtain ⟨n, rfl⟩ : ∃ k, n = k + 1 := ⟨n - 1, by omega⟩
    cases hRole : table.next t with
    | none => simp [precedenceLoop, opt, config, verifyMap, hRole]
    | some role =>
      have hStop := h role hRole
      cases role with
      | suffixOp p =>
        have hLess : p < m := by
          rcases hStop with hLess | ⟨_, _, hInfix, _⟩
          · exact hLess
          · cases hInfix
        simp [precedenceLoop, opt, config, verifyMap, hRole, hLess]
      | infixOp assoc p =>
        have hTest : p < m ∨ prev = some p := by
          rcases hStop with hLess | ⟨_, _, hInfix, hPrev⟩
          · exact .inl hLess
          · cases hInfix
            exact .inr hPrev
        simp [precedenceLoop, opt, config, verifyMap, hRole, powers_fst, hTest]

/-! ## What is returned is prescribed -/

/-- What holds of a tree that is returned with `rest` left over. -/
structure Returned (table : OperatorTable τ) (m : Int) (x : TokenTree τ) (rest : List τ) :
    Prop where
  prescribed : table.Prescribes m x
  clear : table.Clear x rest
  stops : table.Stops m x.blocks rest

/-- A power in a prescribed tree is one of the table's. -/
theorem next_of_mem_leftPowers {l : Int} : ∀ {x : TokenTree τ}, table.Fits x →
    l ∈ x.leftPowers → ∃ u role, table.next u = some role ∧ role.power = l
  | .suffixOp x op, h, hl => by
    rcases List.mem_cons.mp hl with rfl | hl
    · exact ⟨op.1, _, h.1, rfl⟩
    · exact next_of_mem_leftPowers h.2.1 hl
  | .infixOp x op y, h, hl => by
    rcases List.mem_cons.mp hl with rfl | hl
    · exact ⟨op.1, _, h.1, rfl⟩
    · exact next_of_mem_leftPowers h.2.1 hl

/-- Only an operator that does not associate blocks. -/
theorem next_of_blocks : ∀ {x : TokenTree τ}, table.Fits x → x.blocks = some q →
    ∃ e, table.next e = some (.infixOp .neither q)
  | .suffixOp x op, h, hq => next_of_blocks (x := x) h.2.1 hq
  | .infixOp x (t, .neither, p) y, h, hq => by
    cases hq
    exact ⟨t, h.1⟩

theorem Apart.powers_snd (hApart : table.Apart) (h : table.next t = some (.infixOp assoc p)) :
    (assoc.powers p).2 = assoc.shifted p :=
  Assoc.powers_snd (table.next_range t _ h) (hApart.edge t assoc p h)

/-- What the right operand of an infix operator is read with asks for what the operator needs. -/
theorem Apart.bound_le (hApart : table.Apart) (h : table.next t = some (.infixOp assoc p))
    (hy : table.Prescribes (assoc.powers p).2 y) : ∀ l ∈ y.leftPowers, assoc.bound p ≤ l := by
  intro l hl
  have hLe := hy.2 l hl
  rw [hApart.powers_snd h] at hLe
  cases assoc with
  | left => exact hLe
  | neither => exact hLe
  | right =>
    obtain ⟨u, role, hu, rfl⟩ := next_of_mem_leftPowers hy.1 hl
    have hNe := hApart.right t p h u role hu
    change p - 1 ≤ role.power at hLe
    show p ≤ role.power
    omega

/-- What follows an operand stays below the bound of the operator before it, if that is above every
operator that does not associate. -/
theorem Returned.below (h : table.Returned m y rest) (hLe : m ≤ p)
    (hSingle : ∀ e q, table.next e = some (.infixOp .neither q) → q < p) :
    ∀ role, table.upcoming rest = some role → role.power < p := by
  intro role hRole
  rcases h.stops role hRole with hLess | ⟨a, q, rfl, hBlocks⟩
  · omega
  · obtain ⟨e, he⟩ := next_of_blocks h.prescribed.1 hBlocks
    exact hSingle e q he

/-- What the parser and its loop return, they return for the tokens they have taken, as prescribed.
-/
theorem impl_loop_sound (hApart : table.Apart) (n : Nat) :
    (∀ m ts y rest, precedenceImpl table.config n m ts = .ok y rest →
      ts = y.tokens ++ rest ∧ table.Returned m y rest) ∧
    (∀ m x ts y rest, precedenceLoop table.config n m x.blocks x ts = .ok y rest →
      table.Prescribes m x → table.Clear x ts →
      x.tokens ++ ts = y.tokens ++ rest ∧ table.Returned m y rest) := by
  induction n with
  | zero =>
    refine ⟨fun m ts y rest h => (nomatch h), fun m x ts y rest h hx hClear => ?_⟩
    rcases loop_ok h with ⟨rfl, rfl, hStops⟩ | ⟨k, _, _, hk, _⟩
    · exact ⟨rfl, hx, hClear, hStops⟩
    · cases hk
  | succ n ih =>
    obtain ⟨ihImpl, ihLoop⟩ := ih
    constructor
    · intro m ts y rest h
      obtain ⟨t, us, rfl, ⟨hOperand, hLoop⟩ | ⟨p, z, mid, hPrefix, hInner, hLoop⟩⟩ := impl_ok h
      · have hx : table.Prescribes m (.operand t) := ⟨hOperand, fun l hl => (nomatch hl)⟩
        exact ihLoop m (.operand t) us y rest hLoop hx fun _ _ r hr => (nomatch hr)
      · obtain ⟨rfl, hz⟩ := ihImpl p us z mid hInner
        have hx : table.Prescribes m (.prefixOp (t, p) z) :=
          ⟨⟨hPrefix, hz.prescribed.1, hz.prescribed.2⟩, fun l hl => (nomatch hl)⟩
        have hBelow := hz.below (Int.le_refl p) fun e q he => hApart.prefixOp e q he t p hPrefix
        refine ihLoop m (.prefixOp (t, p) z) mid y rest hLoop hx fun role hRole r hr => ?_
        rcases List.mem_cons.mp hr with rfl | hr
        · exact hBelow role hRole
        · exact hz.clear role hRole r hr
    · intro m x ts y rest h hx hClear
      rcases loop_ok h with ⟨rfl, rfl, hStops⟩ | ⟨k, t, us, hk, rfl, hTaken⟩
      · exact ⟨rfl, hx, hClear, hStops⟩
      · cases hk
        rcases hTaken with ⟨p, hNext, hPower, hLoop⟩ |
          ⟨assoc, p, z, mid, hNext, hPower, hPrev, hInner, hLoop⟩
        · have hx' : table.Prescribes m (.suffixOp x (t, p)) := by
            refine ⟨⟨hNext, hx.1, hClear _ hNext⟩, fun l hl => ?_⟩
            rcases List.mem_cons.mp hl with rfl | hl
            · exact hPower
            · exact hx.2 l hl
          obtain ⟨hTokens, hy⟩ := ihLoop m (.suffixOp x (t, p)) us y rest hLoop hx'
            fun _ _ r hr => (nomatch hr)
          refine ⟨?_, hy⟩
          rw [← hTokens, OpTree.tokens, List.append_assoc]
          rfl
        · obtain ⟨rfl, hz⟩ := ihImpl _ us z mid hInner
          have hx' : table.Prescribes m (.infixOp x (t, assoc, p) z) := by
            refine ⟨⟨hNext, hx.1, hz.prescribed.1, hClear _ hNext, hPrev,
              hApart.bound_le hNext hz.prescribed⟩, fun l hl => ?_⟩
            rcases List.mem_cons.mp hl with rfl | hl
            · exact hPower
            · exact hx.2 l hl
          have hLe : (assoc.powers p).2 ≤ assoc.bound p := by
            rw [hApart.powers_snd hNext]
            cases assoc with
            | left => exact Int.le_refl _
            | neither => exact Int.le_refl _
            | right =>
              show p - 1 ≤ p
              omega
          have hBelow := hz.below hLe fun e q he => hApart.infixOp e q he t assoc p hNext
          have hClear' : table.Clear (.infixOp x (t, assoc, p) z) mid := by
            intro role hRole r hr
            rcases List.mem_cons.mp hr with rfl | hr
            · exact hBelow role hRole
            · exact hz.clear role hRole r hr
          obtain ⟨hTokens, hy⟩ := ihLoop m (.infixOp x (t, assoc, p) z) mid y rest hLoop hx' hClear'
          refine ⟨?_, hy⟩
          rw [← hTokens, OpTree.tokens, List.append_assoc]
          rfl

theorem precedence_sound (hApart : table.Apart)
    (h : precedence table.config m ts = .ok y rest) :
    ts = y.tokens ++ rest ∧ table.Returned m y rest :=
  (impl_loop_sound hApart _).1 m ts y rest h

/-! ## What is prescribed is returned -/

/-- What comes after an infix operator's right operand does not reach it. -/
theorem Apart.stops_of_clear (hApart : table.Apart)
    (h : table.next t = some (.infixOp assoc p))
    (hClear : table.Clear (.infixOp x (t, assoc, p) y) rest) :
    table.Stops (assoc.powers p).2 y.blocks rest := by
  intro role hRole
  rw [hApart.powers_snd h]
  have hBelow : role.power < assoc.bound p := hClear role hRole _ (List.mem_cons_self ..)
  cases assoc with
  | left => exact .inl hBelow
  | neither => exact .inl hBelow
  | right =>
    cases hHead : rest.head? with
    | none =>
      rw [upcoming, hHead] at hRole
      cases hRole
    | some u =>
      rw [upcoming, hHead] at hRole
      have hNe := hApart.right t p h u role hRole
      change role.power < p at hBelow
      left
      show role.power < p - 1
      omega

/-- The parser comes to its loop with the tree read. -/
theorem reaches (hApart : table.Apart) : ∀ (x : TokenTree τ) (m : Int) (rest : List τ) (k : Nat),
    table.Prescribes m x → table.Clear x rest → (x.tokens ++ rest).length < k →
    ∃ k', rest.length < k' ∧ precedenceImpl table.config k m (x.tokens ++ rest) =
      precedenceLoop table.config k' m x.blocks x rest
  | .operand t, m, rest, k, hx, _, hk => by
    rw [OpTree.tokens, List.singleton_append, List.length_cons] at hk
    obtain ⟨k, rfl⟩ : ∃ b, k = b + 1 := ⟨k - 1, by omega⟩
    exact ⟨k, by omega, impl_operand hx.1⟩
  | .prefixOp (t, p) x, m, rest, k, hx, hClear, hk => by
    rw [OpTree.tokens, List.cons_append, List.length_cons] at hk
    obtain ⟨k, rfl⟩ : ∃ b, k = b + 1 := ⟨k - 1, by omega⟩
    obtain ⟨⟨hPrefix, hFits, hPowers⟩, -⟩ := hx
    obtain ⟨k', hk', hInner⟩ := reaches hApart x p rest k
      ⟨hFits, hPowers⟩ (fun role hRole r hr => hClear role hRole r (List.mem_cons_of_mem _ hr))
      (by omega)
    have hStops : table.Stops p x.blocks rest := fun role hRole =>
      .inl (hClear role hRole p (List.mem_cons_self ..))
    rw [loop_stops hStops hk'] at hInner
    rw [List.length_append] at hk
    exact ⟨k, by omega, impl_prefixOp hPrefix hInner⟩
  | .suffixOp x (t, p), m, rest, k, hx, _, hk => by
    obtain ⟨⟨hNext, hFits, hBounds⟩, hPowers⟩ := hx
    rw [OpTree.tokens, List.append_assoc, List.singleton_append] at hk ⊢
    have hUpcoming : table.Clear x (t :: rest) := by
      intro role hRole r hr
      cases hNext.symm.trans hRole
      exact hBounds r hr
    obtain ⟨k', hk', hLoop⟩ := reaches hApart x m (t :: rest) k
      ⟨hFits, fun l hl => hPowers l (List.mem_cons_of_mem _ hl)⟩ hUpcoming hk
    rw [List.length_cons] at hk'
    obtain ⟨k', rfl⟩ : ∃ b, k' = b + 1 := ⟨k' - 1, by omega⟩
    refine ⟨k', by omega, hLoop.trans ?_⟩
    exact loop_suffixOp hNext (hPowers p (List.mem_cons_self ..))
  | .infixOp x (t, assoc, p) y, m, rest, k, hx, hClear, hk => by
    obtain ⟨⟨hNext, hFits, hFits', hBounds, hBlocks, hLeft⟩, hPowers⟩ := hx
    rw [OpTree.tokens, List.append_assoc, List.cons_append] at hk ⊢
    have hUpcoming : table.Clear x (t :: (y.tokens ++ rest)) := by
      intro role hRole r hr
      cases hNext.symm.trans hRole
      exact hBounds r hr
    obtain ⟨k', hk', hLoop⟩ := reaches hApart x m (t :: (y.tokens ++ rest)) k
      ⟨hFits, fun l hl => hPowers l (List.mem_cons_of_mem _ hl)⟩ hUpcoming hk
    rw [List.length_cons] at hk'
    obtain ⟨k', rfl⟩ : ∃ b, k' = b + 1 := ⟨k' - 1, by omega⟩
    have hRight : table.Prescribes (assoc.powers p).2 y := by
      refine ⟨hFits', fun l hl => ?_⟩
      have hLe := hLeft l hl
      rw [hApart.powers_snd hNext]
      cases assoc with
      | left => exact hLe
      | neither => exact hLe
      | right =>
        change p ≤ l at hLe
        show p - 1 ≤ l
        omega
    obtain ⟨j, hj, hInner⟩ := reaches hApart y (assoc.powers p).2 rest k' hRight
      (fun role hRole r hr => hClear role hRole r (List.mem_cons_of_mem _ hr)) (by omega)
    rw [loop_stops (hApart.stops_of_clear hNext hClear) hj] at hInner
    rw [List.length_append] at hk'
    refine ⟨k', by omega, hLoop.trans ?_⟩
    exact loop_infixOp hNext (hPowers p (List.mem_cons_self ..)) hBlocks hInner

theorem precedence_complete (hApart : table.Apart) (h : table.Returned m x rest) :
    precedence table.config m (x.tokens ++ rest) = .ok x rest := by
  obtain ⟨k, hk, hLoop⟩ := reaches hApart x m rest _ h.prescribed h.clear (Nat.lt_succ_self _)
  rw [precedence, hLoop]
  exact loop_stops h.stops hk

theorem upcoming_append {role : NextRole} (h : table.upcoming us = some role) :
    table.upcoming (us ++ rest) = some role := by
  cases us with
  | nil => cases h
  | cons u us => exact h

/-- Where the input ends sooner the same is returned. -/
theorem Returned.shorten (h : table.Returned m x (us ++ rest)) : table.Returned m x us where
  prescribed := h.prescribed
  clear role hRole := h.clear role (upcoming_append hRole)
  stops role hRole := h.stops role (upcoming_append hRole)

theorem Returned.whole (h : table.Prescribes m x) : table.Returned m x [] where
  prescribed := h
  clear _ hRole := (nomatch hRole)
  stops _ hRole := (nomatch hRole)

/-- **The tree returned is the one of the longest prefix that has one.** -/
theorem precedence_longest (hApart : table.Apart)
    (h : precedence table.config m ts = .ok x rest) (hy : table.Prescribes m y)
    (hPrefix : y.tokens <+: ts) : y = x ∨ y.tokens.length < x.tokens.length := by
  obtain ⟨rfl, hx⟩ := precedence_sound hApart h
  by_cases hLess : y.tokens.length < x.tokens.length
  · exact .inr hLess
  · left
    obtain ⟨us, hUs⟩ : x.tokens <+: y.tokens :=
      List.prefix_of_prefix_length_le (List.prefix_append ..) hPrefix (by omega)
    obtain ⟨rest', hRest⟩ := hPrefix
    have hSplit : rest = us ++ rest' := by
      rw [← hUs, List.append_assoc] at hRest
      exact (List.append_cancel_left hRest).symm
    subst hSplit
    have hFirst := precedence_complete hApart hx.shorten
    have hSecond := precedence_complete hApart (Returned.whole hy)
    rw [List.append_nil, ← hUs] at hSecond
    cases hFirst.symm.trans hSecond
    rfl

end OperatorTable

end MiniGU.Parsing
