import MiniGU.Model.ValueGrammar

/-!
# What the parser does with a written expression

What the parsers look ahead to are the token a written phrase begins with (`head_of_derives`), and
the tokens after it that do not go on with it (`Follows`, `Ends`).

On the tokens that the GQL grammar assigns to an expression the parser returns that expression
when it holds supported constructs only, and fails otherwise. The proof follows the derivation;
`Reads` says for each kind of phrase what its parser does, whatever follows.
-/

namespace MiniGU.Parsing

/-! ## Fixed tokens -/

@[simp] theorem expect_self (k : TokenKind) (ts : List TokenKind) :
    expect k (k :: ts) = .ok () ts := by
  rw [expect, satisfy_cons, beq_self_eq_true, if_pos rfl]

theorem expect_ne {k t : TokenKind} {ts : List TokenKind} (h : t ≠ k) :
    expect k (t :: ts) = .backtrack := by
  rw [expect, satisfy_cons, if_neg (by simpa using h)]

theorem expect_ok {k : TokenKind} {ts rest : List TokenKind} (h : expect k ts = .ok () rest) :
    ts = k :: rest := by
  obtain ⟨t, rfl, ht⟩ := satisfy_ok h
  rw [beq_iff_eq] at ht
  rw [ht]

/-- A fixed token fails where the next token is another one, or there is none. -/
theorem expect_of_head {k : TokenKind} {ts : List TokenKind} (h : ∀ t ∈ ts.head?, t ≠ k) :
    expect k ts = .backtrack := by
  cases ts with
  | nil => rfl
  | cons t ts => exact expect_ne (h t rfl)

theorem commaSeparated_cons (us : List TokenKind) (tss : List (List TokenKind)) :
    commaSeparated (us :: tss) = us ++ tss.flatMap fun vs => .comma :: vs := by
  induction tss generalizing us with
  | nil => rw [commaSeparated, List.flatMap_nil, List.append_nil]
  | cons vs tss ih =>
    rw [commaSeparated, ih, List.flatMap_cons, List.cons_append]
    exact nofun

/-! ## First tokens -/

/-- Not a closing delimiter, a comma, a quantifier or an asterisk. -/
def startsExpr : TokenKind → Bool
  | .rightParen | .rightBracket | .comma | .distinct | .all | .asterisk => false
  | _ => true

/-- Nor a prefix operator. -/
def startsPrimary : TokenKind → Bool
  | .not | .plus | .minus => false
  | k => startsExpr k

theorem startsExpr_of_startsPrimary {k : TokenKind} (h : startsPrimary k = true) :
    startsExpr k = true := by
  unfold startsPrimary at h
  split at h <;> first | exact h | cases h

/-- How the tokens of a phrase begin. A primary that begins with the name of a function is that
name alone, or the name and a property of it. -/
def BeginsWell : Phrase → List TokenKind → Prop
  | .expr _ _, ts => ∃ k us, ts = k :: us ∧ startsExpr k = true
  | .primary _, ts | .base _, ts =>
    ∃ k us, ts = k :: us ∧ startsPrimary k = true ∧
      (k.isPrefixOfValueFunction = true → us = [] ∨ ∃ vs, us = .period :: vs)
  | .args _, ts => ∃ k us, ts = k :: us ∧ startsExpr k = true
  | .steps _, ts => ts = [] ∨ ∃ us, ts = .comma :: us
  | .fields _, _ => True

theorem isPrefixOfRegularIdentifier_of_name {k : TokenKind} {name : Ident}
    (h : regularName k = some name) : k.isPrefixOfRegularIdentifier = true := by
  unfold regularName at h
  split at h <;> first | rfl | cases h

theorem startsPrimary_of_name {k : TokenKind} {name : Ident} (h : regularName k = some name) :
    startsPrimary k = true := by
  unfold regularName at h
  split at h <;> first | rfl | cases h

theorem stringText_some {k : TokenKind} {s : Ident} (h : stringText k = some s) :
    (∃ q, k = .singleQuoted q ∧ q.unescape = some s) ∨
      ∃ q, k = .doubleQuoted q ∧ q.unescape = some s := by
  unfold stringText at h
  split at h
  · exact .inl ⟨_, rfl, h⟩
  · exact .inr ⟨_, rfl, h⟩
  · cases h

/-- A phrase that begins with a token other than a name or a prefix operator. -/
theorem begins_with {k : TokenKind} {us : List TokenKind} (hStart : startsPrimary k = true)
    (hName : k.isPrefixOfValueFunction = false) :
    ∃ k' us', k :: us = k' :: us' ∧ startsPrimary k' = true ∧
      (k'.isPrefixOfValueFunction = true → us' = [] ∨ ∃ vs, us' = .period :: vs) :=
  ⟨k, us, rfl, hStart, fun h => by rw [hName] at h; cases h⟩

/-- The tokens of a phrase begin as its kind says, by induction on the derivation. -/
theorem head_of_derives {d : Dialect} {ph : Phrase} {ts : List TokenKind}
    (h : Derives d ph ts) : BeginsWell ph ts := by
  induction h with
  | infixOp _ _ _ ihl _ =>
    obtain ⟨k, us, rfl, hk⟩ := ihl
    exact ⟨k, _, rfl, hk⟩
  | @prefixOp _ op => exact ⟨_, _, rfl, by cases op <;> rfl⟩
  | is _ _ ih | isNot _ _ ih =>
    obtain ⟨k, us, rfl, hk⟩ := ih
    exact ⟨k, _, rfl, hk⟩
  | primary _ ih =>
    obtain ⟨k, us, rfl, hk, -⟩ := ih
    exact ⟨k, us, rfl, startsExpr_of_startsPrimary hk⟩
  | genericNoArgs hName =>
    exact ⟨_, _, rfl, startsExpr_of_startsPrimary (startsPrimary_of_name hName)⟩
  | generic hName _ _ =>
    exact ⟨_, _, rfl, startsExpr_of_startsPrimary (startsPrimary_of_name hName)⟩
  | @numeric _ k kind _ _ hWord =>
    refine ⟨k, _, rfl, ?_⟩
    cases kind <;> simp only [NumericFunctionKind.tokens, List.mem_cons, List.not_mem_nil] at hWord
    · obtain rfl | rfl | h := hWord
      all_goals first | rfl | cases h
    · obtain rfl | rfl | h := hWord
      all_goals first | rfl | cases h
    · obtain rfl | h := hWord
      all_goals first | rfl | cases h
    · obtain rfl | h := hWord
      all_goals first | rfl | cases h
  | vectorDistance => exact ⟨_, _, rfl, rfl⟩
  | vectorDistanceMetric => exact ⟨_, _, rfl, rfl⟩
  | base _ ih => exact ih
  | @property e ts ks names _ hNames hKs ih =>
    obtain ⟨k, us, rfl, hk, hAfter⟩ := ih
    refine ⟨k, _, rfl, hk, fun hName => ?_⟩
    obtain rfl | ⟨vs, rfl⟩ := hAfter hName
    · -- a property name follows at once
      cases ks with
      | nil => exact absurd (List.map_eq_nil_iff.mp hKs.symm) hNames
      | cons k' ks => exact .inr ⟨_, rfl⟩
    · exact .inr ⟨_, rfl⟩
  | variableRef hName => exact ⟨_, _, rfl, startsPrimary_of_name hName, fun _ => .inl rfl⟩
  | @numericLit literal =>
    refine begins_with ?_ ?_ <;> cases literal with
    | integer kind digits => cases kind <;> rfl
    | float digits => rfl
  | @booleanLit literal => exact begins_with (by cases literal <;> rfl) (by cases literal <;> rfl)
  | stringLit hText =>
    obtain ⟨q, rfl, -⟩ | ⟨q, rfl, -⟩ := stringText_some hText
    · exact begins_with rfl rfl
    · exact begins_with rfl rfl
  | @temporal kind k t s _ hToken _ =>
    cases kind <;> cases hToken <;> exact begins_with rfl rfl
  | @listEmpty typeName => cases typeName with
    | none => exact begins_with rfl rfl
    | some name => cases name <;> exact begins_with rfl rfl
  | @list typeName => cases typeName with
    | none => exact begins_with rfl rfl
    | some name => cases name <;> exact begins_with rfl rfl
  | recordEmpty _ hWord =>
    obtain rfl | rfl := hWord
    · exact begins_with rfl rfl
    · exact begins_with rfl rfl
  | record _ hWord =>
    obtain rfl | rfl := hWord
    · exact begins_with rfl rfl
    · exact begins_with rfl rfl
  | @general kind => cases kind <;> exact begins_with rfl rfl
  | @binarySet kind => cases kind <;> exact begins_with rfl rfl
  | argsOne _ ih => exact ih
  | argsMore _ _ ih _ =>
    obtain ⟨k, us, rfl, hk⟩ := ih
    exact ⟨k, _, rfl, hk⟩
  | stepsNil => exact .inl rfl
  | stepsMore => exact .inr ⟨_, rfl⟩
  | fieldsOne => exact trivial
  | fieldsMore => exact trivial
  | _ => exact begins_with rfl rfl

/-! ## What may follow -/

/-- The binding power of a token that may stand after an operand. -/
def operatorPower : TokenKind → Option Int
  | .is => some PREC_IS
  | .or | .xor => some PREC_OR_XOR
  | .and => some PREC_AND
  | .leftAngleBracket | .lessThanOrEquals | .rightAngleBracket | .greaterThanOrEquals
  | .equals | .notEquals => some PREC_CMP
  | .concatenation => some PREC_CONCAT
  | .plus | .minus => some PREC_ADD_SUB
  | .asterisk | .solidus => some PREC_MUL_DIV
  | _ => none

/-- The tokens go on with no operator that binds more tightly than `p`, and with neither a
property name nor arguments. -/
def Follows (p : Int) (ts : List TokenKind) : Prop :=
  ∀ t ∈ ts.head?, t ≠ .period ∧ t ≠ .leftParen ∧ ∀ q ∈ operatorPower t, q ≤ p

/-- The tokens do not go on with a value expression. -/
def Ends (ts : List TokenKind) : Prop :=
  ∀ t ∈ ts.head?, t ≠ .period ∧ t ≠ .leftParen ∧ operatorPower t = none

theorem Ends.follows {ts : List TokenKind} (h : Ends ts) (p : Int) : Follows p ts := by
  intro t ht
  obtain ⟨hPeriod, hParen, hNone⟩ := h t ht
  exact ⟨hPeriod, hParen, fun q hq => by rw [hNone] at hq; cases hq⟩

theorem Follows.mono {p q : Int} {ts : List TokenKind} (h : Follows p ts) (hpq : p ≤ q) :
    Follows q ts := by
  intro t ht
  obtain ⟨hPeriod, hParen, hPower⟩ := h t ht
  exact ⟨hPeriod, hParen, fun r hr => Int.le_trans (hPower r hr) hpq⟩

theorem ends_nil : Ends [] := by
  intro t ht
  cases ht

theorem ends_cons {k : TokenKind} {ts : List TokenKind}
    (h : k ≠ .period ∧ k ≠ .leftParen ∧ operatorPower k = none) : Ends (k :: ts) := by
  intro t ht
  cases ht
  exact h

theorem follows_binaryOp (op : BinaryOp) (ts : List TokenKind) :
    Follows op.power (op.token :: ts) := by
  intro t ht
  cases ht
  refine ⟨by cases op <;> exact nofun, by cases op <;> exact nofun, fun q hq => ?_⟩
  cases op <;> cases hq <;> exact Int.le_refl _

theorem follows_is (ts : List TokenKind) : Follows PREC_IS (.is :: ts) := by
  intro t ht
  cases ht
  exact ⟨nofun, nofun, fun q hq => by cases hq; exact Int.le_refl _⟩

/-- A boolean literal is read or it is not; it is never a hard failure. -/
theorem booleanLiteral_cases (ts : List TokenKind) :
    (∃ b us, ts = b.token :: us ∧ booleanLiteral ts = .ok b us) ∨
      booleanLiteral ts = .backtrack := by
  cases ts with
  | nil => exact .inr rfl
  | cons t ts =>
    rw [booleanLiteral, bind_apply, any_cons, andThen_ok]
    split
    · exact .inl ⟨.true, ts, rfl, rfl⟩
    · exact .inl ⟨.false, ts, rfl, rfl⟩
    · exact .inl ⟨.unknown, ts, rfl, rfl⟩
    · exact .inr rfl

/-- The suffix parser only takes `IS`. -/
theorem suffix_cases (t : TokenKind) (ts : List TokenKind) :
    (∃ op rest, t = .is ∧ valueExpressionSuffix (t :: ts) = .ok (PREC_IS, op) rest) ∨
      valueExpressionSuffix (t :: ts) = .backtrack := by
  cases ts with
  | nil => exact .inr rfl
  | cons u us =>
    rw [valueExpressionSuffix, peekTwo]
    split
    · rw [bind_apply, expect_self, andThen_ok, bind_apply, expect_self, andThen_ok, bind_apply]
      obtain ⟨b, vs, -, hb⟩ | hb := booleanLiteral_cases us
      · exact .inl ⟨.isNot b, vs, rfl, by rw [hb]; rfl⟩
      · exact .inr (by rw [hb]; rfl)
    · rw [bind_apply, expect_self, andThen_ok, bind_apply]
      obtain ⟨b, vs, -, hb⟩ | hb := booleanLiteral_cases (u :: us)
      · exact .inl ⟨.is b, vs, rfl, by rw [hb]; rfl⟩
      · exact .inr (by rw [hb]; rfl)
    · exact .inr rfl

/-- The infix parser takes the operators of its table, all of them left-associative. -/
theorem infix_cases (t : TokenKind) (ts : List TokenKind) :
    (∃ q op, operatorPower t = some q ∧
      valueExpressionInfix (t :: ts) = .ok (.left, q, op) ts) ∨
      valueExpressionInfix (t :: ts) = .backtrack := by
  rw [valueExpressionInfix, bind_apply, any_cons, andThen_ok]
  split <;> first | exact .inl ⟨_, _, rfl, rfl⟩ | exact .inr rfl

/-- The operator loop stops where the next operator binds less. -/
theorem stopsAt_of_lt {operand : TokenParser Expr} {m : Int} {ts : List TokenKind}
    (h : ∀ t ∈ ts.head?, ∀ q ∈ operatorPower t, q < m) :
    StopsAt (valueExpressionTable operand) m ts := by
  cases ts with
  | nil => exact .done
  | cons t ts =>
    have hHead := h t rfl
    obtain ⟨op, rest, rfl, hSuffix⟩ | hSuffix := suffix_cases t ts
    · exact .suffixOp hSuffix (hHead _ rfl)
    · obtain ⟨q, op, hPower, hInfix⟩ | hInfix := infix_cases t ts
      · exact .infixOp hSuffix hInfix (hHead q hPower)
      · exact .none hSuffix hInfix

/-- No operator stands both before and after an operand with one binding power. -/
theorem operatorPower_ne_prefix {t : TokenKind} {q : Int} (h : operatorPower t = some q)
    (op : UnaryOp) : q ≠ op.power := by
  unfold operatorPower at h
  split at h <;> cases h <;> cases op <;> decide

end MiniGU.Parsing

namespace MiniGU.Parsing

/-! ## The parsers at a bound -/

/-- The operands of a value expression of depth `n + 1`. -/
def operandAt (n : Nat) : TokenParser Expr :=
  valueExpressionOperand (valueExpressionN n) (valueExpressionPrimaryN n)

/-- The operator table of a value expression of depth `n + 1`. -/
def tableAt (n : Nat) : PrattConfig TokenKind Expr UnaryOp SuffixOp BinaryOp :=
  valueExpressionTable (operandAt n)

theorem tableAt_parseOperand (n : Nat) : (tableAt n).parseOperand = operandAt n := rfl

/-- What a primary of depth `n + 1` begins with. -/
def baseAt (n : Nat) : TokenParser Expr :=
  valueExpressionPrimaryBase (valueExpressionN n) (valueExpressionPrimaryN n)

theorem valueExpressionN_succ (n : Nat) (ts : List TokenKind) :
    valueExpressionN (n + 1) ts = precedenceImpl (tableAt n) (ts.length + 1) PREC_INIT ts := rfl

theorem valueExpressionPrimaryN_succ (n : Nat) :
    valueExpressionPrimaryN (n + 1) =
      valueExpressionPrimaryOf (valueExpressionN n) (valueExpressionPrimaryN n) := rfl

/-- The answer on a written phrase: its value if it is supported, a failure if not. -/
def outcome {α : Type} (good : Bool) (a : α) (rest : List TokenKind) : Reply TokenKind α :=
  if good then .ok a rest else .backtrack

@[simp] theorem outcome_true {α : Type} (a : α) (rest : List TokenKind) :
    outcome true a rest = .ok a rest := rfl

@[simp] theorem outcome_false {α : Type} (a : α) (rest : List TokenKind) :
    outcome false a rest = .backtrack := rfl

/-- One item of a comma-separated list after the first. -/
def nextArg (n : Nat) : TokenParser Expr := do
  expect .comma
  valueExpressionN n

/-- What the loop over comma-separated arguments meets. -/
structure ReadsArgs (n : Nat) (es : List Expr) (ts rest : List TokenKind) : Prop where
  good : supportedAll es = true → ∃ e es' mid, es = e :: es' ∧
    valueExpressionN n ts = .ok e mid ∧ mid.length < ts.length ∧
    Items (nextArg n) es' mid rest
  /-- The list is cut short at the argument that fails. -/
  bad : supportedAll es = false → valueExpressionN n ts = .backtrack ∨
    ∃ e es' mid us, valueExpressionN n ts = .ok e mid ∧ mid.length < ts.length ∧
      Items (nextArg n) es' mid (.comma :: us)

/-- What the loop over the steps of a path meets. -/
structure ReadsSteps (n : Nat) (ss : List (Expr × Expr)) (ts rest : List TokenKind) : Prop where
  good : supportedSteps ss = true →
    Items (pathElementListStep (valueExpressionPrimaryN n)) ss ts rest
  bad : supportedSteps ss = false → ∃ ss' us,
    Items (pathElementListStep (valueExpressionPrimaryN n)) ss' ts (.comma :: us)

/-- What the parser of a phrase does on its tokens. An expression is read up to the loop over
the operators after it, at any power that the phrase allows. -/
def Reads : Phrase → List TokenKind → Prop
  | .expr p e, ts => ∀ n k m rest, (ts ++ rest).length ≤ n → (ts ++ rest).length < k → m ≤ p →
    Follows p rest →
      if e.supported then LoopsTo (tableAt n) k m (ts ++ rest) e rest
      else precedenceImpl (tableAt n) k m (ts ++ rest) = .backtrack
  | .primary e, ts => ∀ n rest, (ts ++ rest).length ≤ n → (∀ t ∈ rest.head?, t ≠ .period) →
      valueExpressionPrimaryN (n + 1) (ts ++ rest) = outcome e.supported e rest
  | .base e, ts => ∀ n rest, (ts ++ rest).length ≤ n →
      baseAt n (ts ++ rest) = outcome e.supported e rest
  | .args es, ts => ∀ n rest, (ts ++ rest).length < n → Ends rest →
      (∀ t ∈ rest.head?, t ≠ .comma) → ReadsArgs n es (ts ++ rest) rest
  | .steps ss, ts => ∀ n rest, (ts ++ rest).length < n →
      (∀ t ∈ rest.head?, t ≠ .period ∧ t ≠ .comma) → ReadsSteps n ss (ts ++ rest) rest
  | .fields _, _ => True

/-! ## Expressions -/

/-- A whole value expression, followed by something that does not go on with it. -/
theorem valueExpressionN_of_reads {p : Int} {e : Expr} {ts rest : List TokenKind} {n : Nat}
    (h : Reads (.expr p e) ts) (hp : 0 ≤ p) (hBound : (ts ++ rest).length < n)
    (hEnds : Ends rest) : valueExpressionN n (ts ++ rest) = outcome e.supported e rest := by
  obtain ⟨n, rfl⟩ : ∃ n', n = n' + 1 := ⟨n - 1, by omega⟩
  have hRun := h n ((ts ++ rest).length + 1) PREC_INIT rest (by omega) (Nat.lt_succ_self _) hp
    (hEnds.follows p)
  rw [valueExpressionN_succ]
  cases hGood : e.supported with
  | true =>
    rw [hGood, if_pos rfl] at hRun
    refine hRun.finish (stopsAt_of_lt fun t ht q hq => ?_)
    rw [(hEnds t ht).2.2] at hq
    cases hq
  | false =>
    rw [hGood, if_neg (by decide)] at hRun
    rw [hRun, outcome_false]

/-- No prefix operator begins a primary. -/
theorem prefix_backtrack {t : TokenKind} {ts : List TokenKind} (h : startsPrimary t = true) :
    valueExpressionPrefix (t :: ts) = .backtrack := by
  rw [valueExpressionPrefix, bind_apply, any_cons, andThen_ok]
  split <;> first | rfl | cases h

/-- An operand is an expression of any power. -/
theorem reads_of_operand {p : Int} {e : Expr} {ts : List TokenKind}
    (hStart : ∃ k us, ts = k :: us ∧ startsPrimary k = true)
    (h : ∀ n rest, (ts ++ rest).length ≤ n →
      (∀ t ∈ rest.head?, t ≠ .period ∧ t ≠ .leftParen) →
      operandAt n (ts ++ rest) = outcome e.supported e rest) :
    Reads (.expr p e) ts := by
  intro n b m rest hn hb _ hFollows
  obtain ⟨k, us, rfl, hStart⟩ := hStart
  have hRun := h n rest hn fun t ht => ⟨(hFollows t ht).1, (hFollows t ht).2.1⟩
  cases hGood : e.supported with
  | true =>
    rw [hGood] at hRun
    rw [if_pos rfl]
    refine .operand hRun ?_ hb
    rw [List.cons_append, List.length_cons, List.length_append]
    omega
  | false =>
    rw [hGood] at hRun
    rw [if_neg (by decide)]
    obtain ⟨b, rfl⟩ : ∃ b', b = b' + 1 := ⟨b - 1, by omega⟩
    exact precedenceImpl_backtrack hRun (prefix_backtrack hStart)

/-- The operand parser reads a primary as such, unless it looks like a call. -/
theorem operandAt_primary {n : Nat} {k : TokenKind} {us : List TokenKind}
    (h : k.isPrefixOfValueFunction = true → ∀ t ∈ us.head?, t ≠ .leftParen) :
    operandAt n (k :: us) = valueExpressionPrimaryN (n + 1) (k :: us) := by
  rw [operandAt, valueExpressionOperand, peekAnyOpt_cons, valueExpressionPrimaryN_succ]
  cases us with
  | nil => rfl
  | cons t us =>
    rw [List.head?_cons]
    by_cases hParen : t = .leftParen
    · subst hParen
      have hNot : k.isPrefixOfValueFunction = false := by
        cases hk : k.isPrefixOfValueFunction with
        | true => exact absurd rfl (h hk _ rfl)
        | false => rfl
      show (if k.isPrefixOfValueFunction = true then _ else _ : TokenParser Expr) _ = _
      rw [hNot, if_neg (by decide)]
    · cases t <;> first | rfl | exact absurd rfl hParen

theorem reads_primary {p : Int} {e : Expr} {ts : List TokenKind}
    (hBegins : BeginsWell (.primary e) ts) (h : Reads (.primary e) ts) :
    Reads (.expr p e) ts := by
  obtain ⟨k, us, rfl, hStart, hAfter⟩ := hBegins
  refine reads_of_operand ⟨k, us, rfl, hStart⟩ fun n rest hn hRest => ?_
  rw [← h n rest hn fun t ht => (hRest t ht).1]
  rw [List.cons_append]
  refine operandAt_primary fun hName t ht => ?_
  obtain rfl | ⟨vs, rfl⟩ := hAfter hName
  · exact (hRest t ht).2
  · cases ht
    exact nofun

/-- An infix operator is read where its power allows it, with the right operand bound tighter. -/
theorem reads_infix {p : Int} {op : BinaryOp} {l r : Expr} {tl tr : List TokenKind}
    (hp : p ≤ op.power) (hl : Reads (.expr op.power l) tl)
    (hr : Reads (.expr (op.power + 1) r) tr) :
    Reads (.expr p (.binary op l r)) (tl ++ op.token :: tr) := by
  intro n k m rest hn hk hm hFollows
  have hLeft := hl n k m (op.token :: (tr ++ rest)) (by simpa using hn) (by simpa using hk)
    (Int.le_trans hm hp) (follows_binaryOp op _)
  rw [List.append_assoc, List.cons_append, Expr.supported]
  simp only [List.length_append, List.length_cons] at hn hk
  cases hGoodL : l.supported with
  | false =>
    rw [hGoodL, if_neg (by decide)] at hLeft
    exact hLeft
  | true =>
    rw [hGoodL, if_pos rfl] at hLeft
    -- the operator, then its right side one power higher
    have hSuffix : (tableAt n).parseSuffix (op.token :: (tr ++ rest)) = .backtrack := by
      show valueExpressionSuffix _ = _
      obtain ⟨_, _, hIs, -⟩ | h := suffix_cases op.token (tr ++ rest)
      · cases op <;> cases hIs
      · exact h
    have hInfix : (tableAt n).parseInfix (op.token :: (tr ++ rest)) =
        .ok (.left, op.power, op) (tr ++ rest) := by
      cases op <;> rfl
    have hShorter : (tr ++ rest).length < (op.token :: (tr ++ rest)).length := by
      rw [List.length_cons]
      omega
    have hPowers : op.power + 1 = (Assoc.left.powers op.power).2 := by cases op <;> rfl
    have hRight := fun k' (hk' : (tr ++ rest).length < k') => hr n k' (op.power + 1) rest
      (by rw [List.length_append]; omega) hk' (Int.le_refl _) (hFollows.mono (by omega))
    rw [hPowers] at hRight
    cases hGoodR : r.supported with
    | false =>
      rw [hGoodR] at hRight
      rw [if_neg (by decide)]
      exact hLeft.infixOp_backtrack hSuffix hInfix hShorter (Int.le_trans hm hp) hRight
    | true =>
      rw [hGoodR] at hRight
      have hStop : StopsAt (tableAt n) (Assoc.left.powers op.power).2 rest := by
        rw [← hPowers]
        refine stopsAt_of_lt fun t ht q hq => ?_
        have hLe := (hFollows t ht).2.2 q hq
        omega
      have hRest : rest.length ≤ (tr ++ rest).length := by
        rw [List.length_append]
        omega
      rw [Bool.and_true, if_pos rfl]
      exact hLeft.infixOp hSuffix hInfix hShorter hRest (Int.le_trans hm hp) hRight hStop

/-- A prefix operator is read where its power allows it. -/
theorem reads_prefix {p : Int} {op : UnaryOp} {e : Expr} {ts : List TokenKind}
    (hp : p ≤ op.power) (h : Reads (.expr op.power e) ts) :
    Reads (.expr p (.unary op e)) (op.token :: ts) := by
  intro n k m rest hn hk hm hFollows
  have hNone : (tableAt n).parseOperand (op.token :: (ts ++ rest)) = .backtrack := by
    rw [tableAt_parseOperand]
    have hEq : operandAt n (op.token :: (ts ++ rest)) =
        valueExpressionPrimaryN (n + 1) (op.token :: (ts ++ rest)) :=
      operandAt_primary fun hName => by cases op <;> cases hName
    rw [hEq]
    cases op <;> rfl
  have hOp : (tableAt n).parsePrefix (op.token :: (ts ++ rest)) =
      .ok (op.power, op) (ts ++ rest) := by
    cases op <;> rfl
  have hShorter : (ts ++ rest).length < (op.token :: (ts ++ rest)).length := by
    rw [List.length_cons]
    omega
  have hChild := fun k' (hk' : (ts ++ rest).length < k') => h n k' op.power rest
    (Nat.le_trans (Nat.le_of_lt hShorter) hn) hk' (Int.le_refl _) (hFollows.mono hp)
  rw [Expr.supported]
  cases hGood : e.supported with
  | false =>
    rw [hGood] at hChild
    rw [if_neg (by decide)]
    rw [List.cons_append, List.length_cons] at hk
    obtain ⟨k, rfl⟩ : ∃ b, k = b + 1 := ⟨k - 1, by omega⟩
    exact precedenceImpl_prefix_backtrack hNone hOp (Nat.ne_of_lt hShorter)
      (hChild k (by omega))
  | true =>
    rw [hGood] at hChild
    -- the loop under the operator stops: what follows binds less, and not equally
    have hStop : StopsAt (tableAt n) op.power rest := by
      refine stopsAt_of_lt fun t ht q hq => ?_
      have hLe := (hFollows t ht).2.2 q hq
      have hNe := operatorPower_ne_prefix hq op
      omega
    have hRest : rest.length ≤ (ts ++ rest).length := by
      rw [List.length_append]
      omega
    rw [if_pos rfl]
    exact .prefixOp hNone hOp hShorter hRest hk hChild hStop

theorem reads_suffix {p : Int} {e e' : Expr} {ts us : List TokenKind} (op : SuffixOp)
    (h : Reads (.expr PREC_IS e) ts) (hp : p ≤ PREC_IS) (hSupported : e'.supported = e.supported)
    (hFold : ∀ n, (tableAt n).foldSuffix e op = e') (hHead : ∃ vs, us = .is :: vs)
    (hSuffix : ∀ rest, valueExpressionSuffix (us ++ rest) = .ok (PREC_IS, op) rest) :
    Reads (.expr p e') (ts ++ us) := by
  intro n k m rest hn hk hm hFollows
  obtain ⟨vs, rfl⟩ := hHead
  rw [List.append_assoc] at hn hk ⊢
  have hLeft := h n k m _ hn hk (Int.le_trans hm hp) (follows_is _)
  rw [hSupported]
  cases hGood : e.supported with
  | false =>
    rw [hGood, if_neg (by decide)] at hLeft
    exact hLeft
  | true =>
    rw [hGood, if_pos rfl] at hLeft
    rw [if_pos rfl, ← hFold n]
    refine hLeft.suffixOp (hSuffix rest) ?_ (Int.le_trans hm hp)
    rw [List.cons_append, List.length_cons, List.length_append]
    omega

end MiniGU.Parsing
