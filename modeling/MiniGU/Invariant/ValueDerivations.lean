import MiniGU.Invariant.ValuePhrases

/-!
# Reading a derivation

One lemma for each construct that is not an operator, then the induction over derivations of
the GQL grammar.
-/

namespace MiniGU.Parsing

variable {n : Nat} {p : Int} {e a b : Expr} {ts ta tb rest : List TokenKind}

/-! ## Dispatch -/

/-- No expression begins with a delimiter, a quantifier or an asterisk. -/
theorem valueExpressionN_backtrack {k : TokenKind} (hn : 0 < n) (hk : startsExpr k = false) :
    valueExpressionN n (k :: ts) = .backtrack := by
  obtain ⟨n, rfl⟩ : ∃ n', n = n' + 1 := ⟨n - 1, by omega⟩
  rw [valueExpressionN_succ]
  unfold startsExpr at hk
  split at hk
  case h_7 => cases hk
  all_goals
    refine precedenceImpl_backtrack ?_ rfl
    rw [tableAt_parseOperand, operandAt_primary fun h => by cases h]
    rfl

theorem operandAt_function {k : TokenKind} (hk : k.isPrefixOfValueFunction = true) :
    operandAt n (k :: .leftParen :: ts) =
      valueFunction (valueExpressionN n) (k :: .leftParen :: ts) := by
  rw [operandAt, valueExpressionOperand, peekAnyOpt_cons, List.head?_cons]
  show (if k.isPrefixOfValueFunction = true then _ else _ : TokenParser Expr) _ = _
  rw [hk, if_pos rfl]

theorem valueFunction_name {k : TokenKind} {name : Ident} (h : regularName k = some name) :
    valueFunction (valueExpressionN n) (k :: ts) =
      genericValueFunction (valueExpressionN n) (k :: ts) := by
  rw [valueFunction, peekAny_cons, isPrefixOfRegularIdentifier_of_name h, if_pos rfl]

theorem isPrefixOfValueFunction_of_name {k : TokenKind} {name : Ident}
    (h : regularName k = some name) : k.isPrefixOfValueFunction = true := by
  rw [TokenKind.isPrefixOfValueFunction, isPrefixOfRegularIdentifier_of_name h]
  rfl

theorem ends_rightParen : Ends (.rightParen :: ts) := ends_cons ⟨nofun, nofun, rfl⟩

theorem ends_comma : Ends (.comma :: ts) := ends_cons ⟨nofun, nofun, rfl⟩

theorem head_cons_ne {k t : TokenKind} (h : k ≠ t) : ∀ u ∈ (k :: ts).head?, u ≠ t := by
  intro u hu
  cases hu
  exact h

/-- The first token of an expression or of arguments is no delimiter. -/
theorem head_ne_of_starts {k : TokenKind} {us : List TokenKind}
    (h : ∃ t vs, us = t :: vs ∧ startsExpr t = true) (hk : startsExpr k = false) :
    ∀ t ∈ (us ++ ts).head?, t ≠ k := by
  obtain ⟨t, vs, rfl, ht⟩ := h
  refine head_cons_ne fun hEq => ?_
  rw [hEq, hk] at ht
  cases ht

theorem ne_nil_of_starts {us : List TokenKind}
    (h : ∃ t vs, us = t :: vs ∧ startsExpr t = true) : us ≠ [] := by
  obtain ⟨t, vs, rfl, -⟩ := h
  exact nofun

/-! ## Functions -/

theorem operandAt_genericNoArgs {k : TokenKind} {name : Ident} (h : regularName k = some name)
    (hn : 0 < n) :
    operandAt n (k :: .leftParen :: .rightParen :: rest) = .ok (.generic name []) rest := by
  rw [operandAt_function (isPrefixOfValueFunction_of_name h), valueFunction_name h,
    genericValueFunction, bind_apply, regularIdentifier_reads h, andThen_ok, bind_apply,
    expect_self, andThen_ok, bind_apply,
    separated0_of_backtrack (valueExpressionN_backtrack hn rfl), andThen_ok, bind_apply,
    expect_self]
  rfl

theorem operandAt_generic {k : TokenKind} {name : Ident} {es : List Expr}
    (h : regularName k = some name) (hStart : ∃ t vs, ts = t :: vs ∧ startsExpr t = true)
    (hArgs : ReadsArgs n es (ts ++ .rightParen :: rest) (.rightParen :: rest)) :
    operandAt n (k :: .leftParen :: (ts ++ .rightParen :: rest)) =
      outcome (supportedAll es) (.generic name es) rest := by
  rw [operandAt_function (isPrefixOfValueFunction_of_name h), valueFunction_name h,
    genericValueFunction, bind_apply, regularIdentifier_reads h, andThen_ok, bind_apply,
    expect_self, andThen_ok]
  exact separated0_close nofun (head_ne_of_starts hStart rfl) hArgs

theorem predefinedValueFunction_reads {name : TokenKind → Bool} {kind : NumericFunctionKind}
    {k : TokenKind} (hk : name k = true)
    (hArg : valueExpressionN n (ts ++ .rightParen :: rest) =
      outcome e.supported e (.rightParen :: rest)) :
    predefinedValueFunction (valueExpressionN n) name kind
      (k :: .leftParen :: (ts ++ .rightParen :: rest)) =
      outcome e.supported (.numeric kind e) rest := by
  rw [predefinedValueFunction, bind_apply, satisfy_cons, if_pos hk, andThen_ok, bind_apply,
    expect_self, andThen_ok, bind_apply, hArg]
  cases e.supported with
  | false => rfl
  | true =>
    rw [outcome_true, andThen_ok, bind_apply, expect_self]
    rfl

theorem operandAt_numeric {k : TokenKind} {kind : NumericFunctionKind} (hk : k ∈ kind.tokens)
    (hArg : valueExpressionN n (ts ++ .rightParen :: rest) =
      outcome e.supported e (.rightParen :: rest)) :
    operandAt n (k :: .leftParen :: (ts ++ .rightParen :: rest)) =
      outcome e.supported (.numeric kind e) rest := by
  cases kind <;> simp only [NumericFunctionKind.tokens, List.mem_cons, List.not_mem_nil,
    or_false] at hk
  · obtain rfl | rfl := hk
    · rw [operandAt_function rfl]
      exact predefinedValueFunction_reads rfl hArg
    · rw [operandAt_function rfl]
      exact predefinedValueFunction_reads rfl hArg
  · obtain rfl | rfl := hk
    · rw [operandAt_function rfl]
      exact predefinedValueFunction_reads rfl hArg
    · rw [operandAt_function rfl]
      exact predefinedValueFunction_reads rfl hArg
  · subst hk
    rw [operandAt_function rfl]
    exact predefinedValueFunction_reads rfl hArg
  · subst hk
    rw [operandAt_function rfl]
    exact predefinedValueFunction_reads rfl hArg

theorem operandAt_vectorDistance {us : List TokenKind}
    (ha : valueExpressionN n (ta ++ .comma :: (tb ++ us)) =
      outcome a.supported a (.comma :: (tb ++ us)))
    (hb : valueExpressionN n (tb ++ us) = outcome b.supported b us) {metric : Option Ident}
    (hMetric : (opt (do expect .comma; regularIdentifier) : TokenParser (Option Ident)) us =
      .ok metric (.rightParen :: rest)) :
    operandAt n (.vectorDistance :: .leftParen :: (ta ++ .comma :: (tb ++ us))) =
      outcome (a.supported && b.supported) (.vectorDistance a b metric) rest := by
  rw [operandAt_function rfl]
  show vectorDistanceFunction (valueExpressionN n) _ = _
  rw [vectorDistanceFunction, bind_apply, expect_self, andThen_ok, bind_apply, expect_self,
    andThen_ok, bind_apply, ha]
  cases a.supported with
  | false => rfl
  | true =>
    rw [outcome_true, andThen_ok, bind_apply, expect_self, andThen_ok, bind_apply, hb]
    cases b.supported with
    | false => rfl
    | true =>
      rw [outcome_true, andThen_ok, bind_apply, hMetric, andThen_ok, bind_apply, expect_self]
      rfl

/-! ## Primaries -/

theorem valueExpressionPrimaryN_of_reads (h : Reads (.primary e) ts)
    (hBound : (ts ++ rest).length < n) (hRest : ∀ t ∈ rest.head?, t ≠ .period) :
    valueExpressionPrimaryN n (ts ++ rest) = outcome e.supported e rest := by
  obtain ⟨n, rfl⟩ : ∃ n', n = n' + 1 := ⟨n - 1, by omega⟩
  exact h n rest (by omega) hRest

theorem primaryN_of_base {names : List Ident} {us : List TokenKind}
    (hBase : baseAt n ts = outcome e.supported e us)
    (hNames : Items (do expect .period; propertyName) names us rest) :
    valueExpressionPrimaryN (n + 1) ts = outcome e.supported
      (if names.isEmpty then e else .property e names) rest := by
  rw [valueExpressionPrimaryN_succ, valueExpressionPrimaryOf, bind_apply]
  show (baseAt n ts).andThen _ = _
  rw [hBase]
  cases e.supported with
  | false => rfl
  | true =>
    rw [outcome_true, andThen_ok, bind_apply, repeat0_reads hNames, andThen_ok]
    cases names <;> rfl

theorem names_done (hRest : ∀ t ∈ rest.head?, t ≠ .period) :
    Items (do expect .period; propertyName) [] rest rest := by
  refine .done ?_
  rw [bind_apply, expect_of_head hRest]
  rfl

theorem baseAt_paren (h : valueExpressionN n (ts ++ .rightParen :: rest) =
    outcome e.supported e (.rightParen :: rest)) :
    baseAt n (.leftParen :: (ts ++ .rightParen :: rest)) = outcome e.supported e rest := by
  show parenthesizedValueExpression (valueExpressionN n) _ = _
  rw [parenthesizedValueExpression, bind_apply, expect_self, andThen_ok, bind_apply, h]
  cases e.supported with
  | false => rfl
  | true =>
    rw [outcome_true, andThen_ok, bind_apply, expect_self]
    rfl

theorem baseAt_variable {k : TokenKind} {name : Ident} (h : regularName k = some name) :
    baseAt n (k :: rest) = .ok (.variable name) rest := by
  unfold regularName at h
  split at h <;> cases h <;> rfl

theorem baseAt_parameter {q : ParameterName} {name : Ident} (h : q.unescape = some name) :
    baseAt n (.generalParameterReference q :: rest) = .ok (.parameter name) rest := by
  show (cutNone q.unescape rest : Reply TokenKind Ident).andThen _ = _
  rw [h]
  rfl

theorem baseAt_numericLit (literal : UnsignedNumericLiteral) :
    baseAt n (literal.token :: rest) = .ok (.numericLit literal) rest := by
  cases literal with
  | integer kind digits => cases kind <;> rfl
  | float digits => rfl

theorem baseAt_booleanLit (literal : BooleanLiteral) :
    baseAt n (literal.token :: rest) = .ok (.booleanLit literal) rest := by
  cases literal <;> rfl

theorem baseAt_stringLit {k : TokenKind} {s : Ident} (h : stringText k = some s) :
    baseAt n (k :: rest) = .ok (.stringLit .char s) rest := by
  obtain ⟨q, rfl, hq⟩ | ⟨q, rfl, hq⟩ := stringText_some h
  · show cutNone (q.unescape.map (Expr.stringLit .char)) rest = _
    rw [hq]
    rfl
  · show cutNone (q.unescape.map (Expr.stringLit .char)) rest = _
    rw [hq]
    rfl

theorem baseAt_vector {es : List Expr} {tss : List (List TokenKind)}
    (h : es.map signedTokens = tss.map some) :
    baseAt n (.vector :: .leftBracket :: (commaSeparated tss ++ .rightBracket :: rest)) =
      .ok (.vector es) rest := by
  show vectorLiteral _ = _
  rw [vectorLiteral, bind_apply, expect_self, andThen_ok, bind_apply, expect_self, andThen_ok,
    bind_apply, signedNumerics_read h, andThen_ok, bind_apply, expect_self]
  rfl

theorem baseAt_path {ss : List (Expr × Expr)}
    (hStart : valueExpressionPrimaryN n (ta ++ (ts ++ .rightBracket :: rest)) =
      outcome a.supported a (ts ++ .rightBracket :: rest))
    (hSteps : ReadsSteps n ss (ts ++ .rightBracket :: rest) (.rightBracket :: rest)) :
    baseAt n (.path :: .leftBracket :: (ta ++ (ts ++ .rightBracket :: rest))) =
      outcome (a.supported && supportedSteps ss) (.path a ss) rest := by
  show pathValueConstructor (valueExpressionPrimaryN n) _ = _
  rw [pathValueConstructor, bind_apply, expect_self, andThen_ok, bind_apply, expect_self,
    andThen_ok, bind_apply, pathElementList, bind_apply, hStart]
  cases a.supported with
  | false => rfl
  | true =>
    rw [outcome_true, andThen_ok, bind_apply]
    cases hGood : supportedSteps ss with
    | true =>
      rw [repeat0_reads (hSteps.good hGood), andThen_ok, pure_apply, andThen_ok, bind_apply,
        expect_self]
      rfl
    | false =>
      -- the steps stop before the one that fails, where no bracket stands
      obtain ⟨ss', us, hItems⟩ := hSteps.bad hGood
      rw [repeat0_reads hItems]
      rfl

theorem baseAt_nullIf
    (ha : valueExpressionN n (ta ++ .comma :: ts) = outcome a.supported a (.comma :: ts))
    (hn : 0 < n) : baseAt n (.nullif :: .leftParen :: (ta ++ .comma :: ts)) = .backtrack := by
  have hDispatch : ∀ us, baseAt n (.nullif :: us) =
      caseAbbreviation (valueExpressionN n) (.nullif :: us) := fun _ => rfl
  rw [hDispatch, caseAbbreviation, peekAny_cons]
  dsimp only
  rw [bind_apply, expect_self, andThen_ok, bind_apply, expect_self, andThen_ok, bind_apply, ha]
  cases a.supported with
  | false => rfl
  | true =>
    rw [outcome_true, andThen_ok, bind_apply, valueExpressionN_backtrack hn rfl]
    rfl

theorem baseAt_coalesce {es : List Expr}
    (hArgs : ReadsArgs n es (ts ++ .rightParen :: rest) (.rightParen :: rest)) :
    baseAt n (.coalesce :: .leftParen :: (ts ++ .rightParen :: rest)) =
      outcome (supportedAll es) (.coalesce es) rest := by
  have hDispatch : ∀ us, baseAt n (.coalesce :: us) =
      caseAbbreviation (valueExpressionN n) (.coalesce :: us) := fun _ => rfl
  rw [hDispatch, caseAbbreviation, peekAny_cons]
  dsimp only
  rw [bind_apply, expect_self, andThen_ok, bind_apply, expect_self, andThen_ok]
  exact separated1_close nofun hArgs

theorem setQuantifier_reads (quantifier : Option SetQuantifier)
    (hStart : ∃ t vs, ts = t :: vs ∧ startsExpr t = true) :
    opt setQuantifier (quantifierTokens quantifier ++ ts) = .ok quantifier ts := by
  cases quantifier with
  | some q => cases q <;> rfl
  | none =>
    obtain ⟨t, vs, rfl, ht⟩ := hStart
    refine opt_of_backtrack ?_
    show setQuantifier (t :: vs) = .backtrack
    rw [setQuantifier, bind_apply, any_cons, andThen_ok]
    split <;> first | rfl | cases ht

/-- What follows the parenthesis of a set function is no asterisk. -/
theorem quantified_ne_asterisk (quantifier : Option SetQuantifier)
    (hStart : ∃ t vs, ts = t :: vs ∧ startsExpr t = true) :
    expect .asterisk (quantifierTokens quantifier ++ ts) = .backtrack := by
  cases quantifier with
  | some q => cases q <;> rfl
  | none =>
    obtain ⟨t, vs, rfl, ht⟩ := hStart
    refine expect_ne fun hEq => ?_
    rw [hEq] at ht
    cases ht

theorem aggregateFunction_general (kind : GeneralSetFunctionKind)
    (h : expect .asterisk ts = .backtrack) :
    baseAt n (kind.token :: .leftParen :: ts) =
      generalSetFunction (valueExpressionN n) (kind.token :: .leftParen :: ts) := by
  have hDispatch : baseAt n (kind.token :: .leftParen :: ts) =
      aggregateFunction (valueExpressionN n) (kind.token :: .leftParen :: ts) := by
    cases kind <;> rfl
  rw [hDispatch, aggregateFunction, peekAny_cons,
    show kind.token.isPrefixOfGeneralSetFunction = true by cases kind <;> rfl, if_pos rfl]
  refine orElse_of_backtrack ?_
  cases kind with
  | count =>
    rw [bind_apply]
    show (expect .count (.count :: .leftParen :: ts)).andThen _ = _
    rw [expect_self, andThen_ok, bind_apply, expect_self, andThen_ok, bind_apply, h]
    rfl
  | _ => rfl

theorem baseAt_general (kind : GeneralSetFunctionKind) (quantifier : Option SetQuantifier)
    (hStart : ∃ t vs, ts = t :: vs ∧ startsExpr t = true)
    (hArg : valueExpressionN n (ts ++ .rightParen :: rest) =
      outcome e.supported e (.rightParen :: rest)) :
    baseAt n (kind.token :: .leftParen ::
      (quantifierTokens quantifier ++ (ts ++ .rightParen :: rest))) =
      outcome e.supported (.general kind quantifier e) rest := by
  have hStart' : ∃ t vs, ts ++ .rightParen :: rest = t :: vs ∧ startsExpr t = true := by
    obtain ⟨t, vs, rfl, ht⟩ := hStart
    exact ⟨t, _, rfl, ht⟩
  have hKind : ∀ us, generalSetFunctionType (kind.token :: us) = .ok kind us := by
    intro us
    cases kind <;> rfl
  rw [aggregateFunction_general kind (quantified_ne_asterisk quantifier hStart'),
    generalSetFunction, bind_apply, hKind, andThen_ok, bind_apply, expect_self, andThen_ok,
    bind_apply, setQuantifier_reads quantifier hStart', andThen_ok, bind_apply, hArg]
  cases e.supported with
  | false => rfl
  | true =>
    rw [outcome_true, andThen_ok, bind_apply, expect_self]
    rfl

/-- A percentile fails: its arguments stand between parentheses, and the parenthesis is taken
for the beginning of the first argument. -/
theorem baseAt_binarySet (kind : BinarySetFunctionKind) (quantifier : Option SetQuantifier)
    (hInner : ∀ m, (quantifierTokens quantifier ++ (ta ++ .comma :: ts)).length < m →
      valueExpressionN m (ta ++ .comma :: ts) = outcome a.supported a (.comma :: ts))
    (hBound : (quantifierTokens quantifier ++ (ta ++ .comma :: ts)).length + 1 < n) :
    baseAt n (kind.token :: .leftParen ::
      (quantifierTokens quantifier ++ (ta ++ .comma :: ts))) = .backtrack := by
  have hDispatch : ∀ us, baseAt n (kind.token :: us) =
      (opt setQuantifier us).andThen fun q r => (valueExpressionN n r).andThen fun x r' =>
        (expect .comma r').andThen fun _ r'' => (valueExpressionN n r'').andThen fun y r''' =>
          .ok (.binarySet kind q x y) r''' := by
    intro us
    cases kind <;> rfl
  obtain ⟨n, rfl⟩ : ∃ n', n = n' + 1 := ⟨n - 1, by omega⟩
  have hParen : valueExpressionN (n + 1) (.leftParen ::
      (quantifierTokens quantifier ++ (ta ++ .comma :: ts))) = .backtrack := by
    rw [valueExpressionN_succ]
    refine precedenceImpl_backtrack ?_ rfl
    have hOperand : operandAt n (.leftParen ::
        (quantifierTokens quantifier ++ (ta ++ .comma :: ts))) = valueExpressionPrimaryN (n + 1)
          (.leftParen :: (quantifierTokens quantifier ++ (ta ++ .comma :: ts))) :=
      operandAt_primary fun h => (nomatch h)
    rw [tableAt_parseOperand, hOperand, valueExpressionPrimaryN_succ, valueExpressionPrimaryOf,
      bind_apply]
    show (parenthesizedValueExpression (valueExpressionN n) _).andThen _ = _
    rw [parenthesizedValueExpression, bind_apply, expect_self, andThen_ok, bind_apply]
    cases quantifier with
    | some q =>
      have hQuantifier : startsExpr q.token = false := by cases q <;> rfl
      show ((valueExpressionN n (q.token :: _)).andThen _).andThen _ = _
      rw [valueExpressionN_backtrack (by omega) hQuantifier]
      rfl
    | none =>
      show ((valueExpressionN n (ta ++ .comma :: ts)).andThen _).andThen _ = _
      rw [hInner n (by omega)]
      cases a.supported with
      | false => rfl
      | true =>
        rw [outcome_true, andThen_ok]
        rfl
  rw [hDispatch]
  show ((valueExpressionN (n + 1) _).andThen _) = _
  rw [hParen]
  rfl

/-! ## The induction -/

theorem reads_base (h : Reads (.base e) ts) : Reads (.primary e) ts := by
  intro n rest hn hRest
  rw [primaryN_of_base (h n rest hn) (names_done hRest)]
  rfl

theorem reads_property {ks : List TokenKind} {names : List Ident} (h : Reads (.base e) ts)
    (hNames : names ≠ []) (hKs : ks.map identifierName = names.map some) :
    Reads (.primary (.property e names)) (ts ++ ks.flatMap fun k => [.period, k]) := by
  intro n rest hn hRest
  rw [List.append_assoc] at hn ⊢
  rw [primaryN_of_base (h n _ hn) (propertyNames_items hKs hRest), Expr.supported]
  cases names with
  | nil => exact absurd rfl hNames
  | cons name names => rfl

/-- Neither the steps of a path nor what follows them is a property name. -/
theorem steps_head {ss : List (Expr × Expr)} (h : BeginsWell (.steps ss) ts)
    (hRest : ∀ t ∈ rest.head?, t ≠ .period) : ∀ t ∈ (ts ++ rest).head?, t ≠ .period := by
  obtain rfl | ⟨us, rfl⟩ := h
  · exact hRest
  · exact head_cons_ne nofun

/-- A construct that no parser reads, told by its first token. -/
theorem reads_unread {k : TokenKind} {us : List TokenKind} (hSupported : e.supported = false)
    (h : ∀ n vs, baseAt n (k :: vs) = .backtrack) : Reads (.base e) (k :: us) := by
  intro n rest _
  rw [hSupported]
  exact h n _

/-- **Every derivation of the GQL grammar is read as its phrase says**: what it writes is
returned if it is supported, whatever follows, and is refused if not. -/
theorem reads_of_derives {ph : Phrase} (h : Derives .gql ph ts) : Reads ph ts := by
  induction h with
  | infixOp hp _ _ ihl ihr => exact reads_infix (hp trivial) ihl ihr
  | prefixOp hp _ ih => exact reads_prefix (hp trivial) ih
  | @is _ _ truth _ hp _ ih =>
    refine reads_suffix (.is truth) ih (hp trivial) rfl (fun _ => rfl) ⟨_, rfl⟩ fun rest => ?_
    cases truth <;> rfl
  | @isNot _ _ truth _ hp _ ih =>
    refine reads_suffix (.isNot truth) ih (hp trivial) rfl (fun _ => rfl) ⟨_, rfl⟩
      fun rest => ?_
    cases truth <;> rfl
  | primary hPrimary ih => exact reads_primary (head_of_derives hPrimary) ih
  | genericNoArgs hName =>
    refine reads_of_operand ⟨_, _, rfl, startsPrimary_of_name hName⟩ fun n rest hn _ => ?_
    simp only [List.cons_append, List.length_cons] at hn
    exact operandAt_genericNoArgs hName (by omega)
  | @generic _ k name es us hName hArgs ih =>
    refine reads_of_operand ⟨_, _, rfl, startsPrimary_of_name hName⟩ fun n rest hn _ => ?_
    simp only [List.cons_append, List.append_assoc, List.nil_append, List.length_cons] at hn ⊢
    exact operandAt_generic hName (head_of_derives hArgs)
      (ih n _ (by omega) ends_rightParen (head_cons_ne (by decide)))
  | @numeric _ k kind e us hWord _ ih =>
    have hStart : startsPrimary k = true := by
      cases kind <;> simp only [NumericFunctionKind.tokens, List.mem_cons, List.not_mem_nil,
        or_false] at hWord
      · obtain rfl | rfl := hWord <;> rfl
      · obtain rfl | rfl := hWord <;> rfl
      · subst hWord; rfl
      · subst hWord; rfl
    refine reads_of_operand ⟨_, _, rfl, hStart⟩ fun n rest hn _ => ?_
    simp only [List.cons_append, List.append_assoc, List.nil_append, List.length_cons] at hn ⊢
    exact operandAt_numeric hWord
      (valueExpressionN_of_reads ih (Int.le_refl 0) (by omega) ends_rightParen)
  | @vectorDistance _ a b ta tb _ _ iha ihb =>
    refine reads_of_operand ⟨_, _, rfl, rfl⟩ fun n rest hn _ => ?_
    simp only [List.cons_append, List.append_assoc, List.nil_append, List.length_cons] at hn ⊢
    rw [List.length_append, List.length_cons] at hn
    refine operandAt_vectorDistance
      (valueExpressionN_of_reads iha (Int.le_refl 0) ?_ ends_comma)
      (valueExpressionN_of_reads ihb (Int.le_refl 0) (by omega) ends_rightParen) rfl
    rw [List.length_append, List.length_cons]
    omega
  | @vectorDistanceMetric _ a b k metric ta tb _ _ hMetric iha ihb =>
    refine reads_of_operand ⟨_, _, rfl, rfl⟩ fun n rest hn _ => ?_
    simp only [List.cons_append, List.append_assoc, List.nil_append, List.length_cons] at hn ⊢
    rw [List.length_append, List.length_cons] at hn
    refine operandAt_vectorDistance
      (valueExpressionN_of_reads iha (Int.le_refl 0) ?_ ends_comma)
      (valueExpressionN_of_reads ihb (Int.le_refl 0) (by omega) ends_comma) ?_
    · rw [List.length_append, List.length_cons]
      omega
    · refine opt_of_ok ?_
      rw [bind_apply, expect_self, andThen_ok]
      exact regularIdentifier_reads hMetric
  | base _ ih => exact reads_base ih
  | property _ hNames hKs ih => exact reads_property ih hNames hKs
  | paren _ ih =>
    intro n rest hn
    simp only [List.cons_append, List.append_assoc, List.nil_append, List.length_cons] at hn ⊢
    exact baseAt_paren (valueExpressionN_of_reads ih (Int.le_refl 0) (by omega) ends_rightParen)
  | variableRef hName => exact fun n rest _ => baseAt_variable hName
  | sessionUser => exact fun n rest _ => rfl
  | parameter hName => exact fun n rest _ => baseAt_parameter hName
  | @numericLit literal => exact fun n rest _ => baseAt_numericLit literal
  | @booleanLit literal => exact fun n rest _ => baseAt_booleanLit literal
  | stringLit hText => exact fun n rest _ => baseAt_stringLit hText
  | null => exact fun n rest _ => rfl
  | @vector es tss hElems =>
    intro n rest _
    simp only [List.cons_append, List.append_assoc, List.nil_append]
    exact baseAt_vector hElems
  | @temporal kind k t s _ hToken _ =>
    refine reads_unread rfl fun n vs => ?_
    cases kind <;> cases hToken <;> rfl
  | duration => exact reads_unread rfl fun n vs => rfl
  | @listEmpty typeName =>
    cases typeName with
    | none => exact reads_unread rfl fun n vs => rfl
    | some name => exact reads_unread rfl fun n vs => by cases name <;> rfl
  | @list typeName =>
    cases typeName with
    | none => exact reads_unread rfl fun n vs => rfl
    | some name => exact reads_unread rfl fun n vs => by cases name <;> rfl
  | recordEmpty _ hWord =>
    obtain rfl | rfl := hWord
    · exact reads_unread rfl fun n vs => rfl
    · exact reads_unread rfl fun n vs => rfl
  | record _ hWord =>
    obtain rfl | rfl := hWord
    · exact reads_unread rfl fun n vs => rfl
    · exact reads_unread rfl fun n vs => rfl
  | @path e ss te us _ hSteps ihe ihs =>
    intro n rest hn
    simp only [List.cons_append, List.append_assoc, List.nil_append, List.length_cons] at hn ⊢
    rw [List.length_append] at hn
    refine baseAt_path (valueExpressionPrimaryN_of_reads ihe ?_ ?_)
      (ihs n _ (by omega) fun t ht => ?_)
    · rw [List.length_append]
      omega
    · exact steps_head (head_of_derives hSteps) (head_cons_ne (by decide))
    · cases ht
      exact ⟨by decide, by decide⟩
  | @nullIf a b ta tb _ _ iha _ =>
    intro n rest hn
    simp only [Dialect.gql, List.cons_append, List.append_assoc, List.nil_append,
      List.length_cons] at hn ⊢
    exact baseAt_nullIf (valueExpressionN_of_reads iha (Int.le_refl 0) (by omega) ends_comma)
      (by omega)
  | @coalesce es us _ ih =>
    intro n rest hn
    simp only [List.cons_append, List.append_assoc, List.nil_append, List.length_cons] at hn ⊢
    exact baseAt_coalesce (ih n _ (by omega) ends_rightParen (head_cons_ne (by decide)))
  | count => exact fun n rest _ => rfl
  | @general kind quantifier e us hArg ih =>
    intro n rest hn
    simp only [List.cons_append, List.append_assoc, List.nil_append, List.length_cons] at hn ⊢
    rw [List.length_append] at hn
    exact baseAt_general kind quantifier (head_of_derives hArg)
      (valueExpressionN_of_reads ih (Int.le_refl 0) (by omega) ends_rightParen)
  | @binarySet kind quantifier a b ta tb _ _ iha _ =>
    intro n rest hn
    simp only [Dialect.gql, List.cons_append, List.append_assoc, List.nil_append,
      List.length_cons] at hn ⊢
    have hInner : ∀ m, (quantifierTokens quantifier ++
        (ta ++ .comma :: (tb ++ .rightParen :: rest))).length < m →
        valueExpressionN m (ta ++ .comma :: (tb ++ .rightParen :: rest)) =
          outcome a.supported a (.comma :: (tb ++ .rightParen :: rest)) := by
      intro m hm
      rw [List.length_append] at hm
      exact valueExpressionN_of_reads iha (Int.le_refl 0) (by omega) ends_comma
    exact baseAt_binarySet kind quantifier hInner (by omega)
  | argsOne hArg ih =>
    intro n rest hn hEnds hComma
    exact readsArgs_one (ne_nil_of_starts (head_of_derives hArg))
      (valueExpressionN_of_reads ih (Int.le_refl 0) hn hEnds) hComma
  | @argsMore e es te us hArg _ ihe ihs =>
    intro n rest hn hEnds hComma
    rw [List.append_assoc, List.cons_append] at hn ⊢
    refine readsArgs_more (ne_nil_of_starts (head_of_derives hArg))
      (valueExpressionN_of_reads ihe (Int.le_refl 0) hn ends_comma)
      (ihs n rest ?_ hEnds hComma)
    rw [List.length_append, List.length_cons] at hn
    omega
  | stepsNil => exact fun n rest _ hRest => readsSteps_nil fun t ht => (hRest t ht).2
  | @stepsMore edge node ss te tn us _ _ hSteps ihe ihn ihs =>
    intro n rest hn hRest
    simp only [List.cons_append, List.append_assoc, List.length_cons] at hn ⊢
    rw [List.length_append, List.length_cons, List.length_append] at hn
    refine readsSteps_more (valueExpressionPrimaryN_of_reads ihe ?_ (head_cons_ne (by decide)))
      (valueExpressionPrimaryN_of_reads ihn ?_ ?_) (ihs n rest (by omega) hRest)
    · simp only [List.length_append, List.length_cons] at hn ⊢
      omega
    · rw [List.length_append]
      omega
    · exact steps_head (head_of_derives hSteps) fun t ht => (hRest t ht).1
  | fieldsOne => exact trivial
  | fieldsMore => exact trivial

/-- A written value expression, followed by something that does not go on with it. -/
theorem valueExpressionN_of_derives (h : Derives .gql (.expr p e) ts) (hp : 0 ≤ p)
    (hBound : (ts ++ rest).length < n) (hEnds : Ends rest) :
    valueExpressionN n (ts ++ rest) = outcome e.supported e rest :=
  valueExpressionN_of_reads (reads_of_derives h) hp hBound hEnds

theorem valueExpression_of_derives (h : Derives .gql (.expr p e) ts) (hp : 0 ≤ p)
    (hEnds : Ends rest) : valueExpression (ts ++ rest) = outcome e.supported e rest :=
  valueExpressionN_of_derives h hp (Nat.lt_succ_self _) hEnds

end MiniGU.Parsing
