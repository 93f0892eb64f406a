import MiniGU.Invariant.ValueReads

/-!
# The tokens a value expression was read from

Whatever the parser of value expressions accepts, the tokens it took are the in-order tokens of
the tree it returns, with the parentheses and delimiters it read between them: a derivation in
the dialect `Dialect.taken`. Each parser is shown to take such tokens when the parsers nested
in it do.
-/

namespace MiniGU.Parsing

/-! ## Names and literals -/

theorem takes_expect (k : TokenKind) : Takes (expect k) fun _ us => us = [k] := by
  intro ts _ rest h
  exact ⟨[k], expect_ok h, rfl⟩

/-- A token is taken first. -/
theorem takes_expectThen {α : Type} {k : TokenKind} {p : TokenParser α}
    {R : α → List TokenKind → Prop} (h : Takes p fun a us => R a (k :: us)) :
    Takes (do expect k; p) R := by
  refine takes_bind (takes_expect k) fun _ us hUs => ?_
  subst hUs
  exact h

theorem takes_regularIdentifier :
    Takes regularIdentifier fun name us => ∃ k, us = [k] ∧ regularName k = some name :=
  takes_verifyMap regularName

theorem takes_identifier :
    Takes identifier fun name us => ∃ k, us = [k] ∧ identifierName k = some name := by
  have hRegular : Takes regularIdentifier fun name us =>
      ∃ k, us = [k] ∧ identifierName k = some name := by
    refine takes_regularIdentifier.mono ?_
    rintro name us ⟨k, rfl, hk⟩
    refine ⟨k, rfl, ?_⟩
    unfold regularName at hk
    split at hk <;> first | exact hk | cases hk
  have hDelimited : Takes delimitedIdentifier fun name us =>
      ∃ k, us = [k] ∧ identifierName k = some name := by
    refine takes_bind takes_any fun t us hUs => ?_
    subst hUs
    split
    · exact takes_cutNone fun name hName => ⟨_, rfl, hName⟩
    · exact takes_cutNone fun name hName => ⟨_, rfl, hName⟩
    · exact takes_fail
  refine takes_peekAny fun t => ?_
  split <;> first | exact hRegular | exact hDelimited | exact takes_fail

theorem takes_booleanLiteral : Takes booleanLiteral fun b us => us = [b.token] := by
  refine takes_bind takes_any fun t us hUs => ?_
  subst hUs
  split <;> first | exact takes_fail | exact takes_pure rfl

theorem takes_generalParameterReference : Takes generalParameterReference fun name us =>
    ∃ q, us = [.generalParameterReference q] ∧ q.unescape = some name := by
  refine takes_bind takes_any fun t us hUs => ?_
  subst hUs
  split
  · exact takes_cutNone fun name hName => ⟨_, rfl, hName⟩
  · exact takes_fail

theorem takes_unsignedInteger :
    Takes unsignedInteger fun i us => us = [unsignedIntegerToken i] := by
  refine takes_bind takes_any fun t us hUs => ?_
  subst hUs
  split <;> first | exact takes_fail | exact takes_pure rfl

theorem takes_unsignedFloat :
    Takes unsignedFloat fun float us => us = [.unsignedFloatLiteral float] := by
  refine takes_bind takes_any fun t us hUs => ?_
  subst hUs
  split <;> first | exact takes_fail | exact takes_pure rfl

theorem takes_unsignedNumericLiteral :
    Takes unsignedNumericLiteral fun literal us => us = [literal.token] := by
  refine takes_peekAny fun t => ?_
  split
  · refine takes_bind takes_unsignedInteger fun i us hUs => ?_
    subst hUs
    exact takes_pure rfl
  · split
    · refine takes_bind takes_unsignedFloat fun float us hUs => ?_
      subst hUs
      exact takes_pure rfl
    · exact takes_fail

theorem takes_characterStringLiteral : Takes characterStringLiteral fun e us =>
    Derives .taken (.base e) us := by
  have hString : ∀ {k : TokenKind} {q : Quoted}, stringText k = q.unescape →
      ∀ e, q.unescape.map (Expr.stringLit .char) = some e → Derives .taken (.base e) [k] := by
    intro k q hText e hMap
    obtain ⟨s, hs, rfl⟩ := Option.map_eq_some_iff.mp hMap
    exact .stringLit (hText.trans hs)
  refine takes_bind takes_any fun t us hUs => ?_
  subst hUs
  split
  · exact takes_cutNone (hString rfl)
  · exact takes_cutNone (hString rfl)
  · exact takes_fail

theorem takes_signedNumericLiteral : Takes signedNumericLiteralExpression fun e us =>
    signedTokens e = some us := by
  refine takes_bind (R := fun sign us => us = (sign.map UnaryOp.token).toList ∧
    sign ≠ some .not) ?_ fun sign us hSign => ?_
  · refine takes_opt (R := fun op us => us = [op.token] ∧ op ≠ .not) ?_ ⟨rfl, nofun⟩ ?_
    · refine takes_bind takes_any fun t us hUs => ?_
      subst hUs
      split <;> first | exact takes_fail | exact takes_pure ⟨rfl, nofun⟩
    · rintro op us ⟨rfl, hOp⟩
      exact ⟨rfl, fun h => hOp (Option.some.inj h)⟩
  · obtain ⟨rfl, hSign⟩ := hSign
    refine takes_bind takes_unsignedNumericLiteral fun literal us hUs => ?_
    subst hUs
    cases sign with
    | none => exact takes_pure rfl
    | some op =>
      cases op with
      | plus => exact takes_pure rfl
      | minus => exact takes_pure rfl
      | not => exact absurd rfl hSign

theorem pieces_signed {es : List Expr} {us : List TokenKind}
    (h : Pieces (fun e vs => ∃ ws, vs = .comma :: ws ∧ signedTokens e = some ws) es us) :
    ∃ tss : List (List TokenKind), es.map signedTokens = tss.map some ∧ us = tss.flatMap fun vs => .comma :: vs := by
  induction h with
  | nil => exact ⟨[], rfl, rfl⟩
  | cons hE _ ih =>
    obtain ⟨ws, rfl, hWs⟩ := hE
    obtain ⟨tss, hTss, rfl⟩ := ih
    exact ⟨ws :: tss, by rw [List.map_cons, List.map_cons, hWs, hTss], rfl⟩

theorem takes_vectorLiteral : Takes vectorLiteral fun e us => Derives .taken (.base e) us := by
  have hNext : Takes (do expect .comma; signedNumericLiteralExpression) fun e vs =>
      ∃ ws, vs = .comma :: ws ∧ signedTokens e = some ws := by
    refine takes_expectThen ?_
    exact takes_signedNumericLiteral.mono fun e ws hWs => ⟨ws, rfl, hWs⟩
  refine takes_expectThen ?_
  refine takes_expectThen ?_
  refine takes_bind (takes_separated0 takes_signedNumericLiteral hNext) fun es us hUs => ?_
  refine takes_expectThen ?_
  refine takes_pure ?_
  obtain ⟨rfl, rfl⟩ | ⟨e, es', vs, ws, rfl, rfl, hE, hPieces⟩ := hUs
  · exact @Derives.vector _ [] [] rfl
  · obtain ⟨tss, hTss, rfl⟩ := pieces_signed hPieces
    have hAll : (e :: es').map signedTokens = (vs :: tss).map some := by
      rw [List.map_cons, List.map_cons, hE, hTss]
    rw [← commaSeparated_cons]
    exact .vector hAll

theorem takes_unsignedLiteral : Takes unsignedLiteral fun e us =>
    Derives .taken (.base e) us := by
  refine takes_peekAny fun t => ?_
  split
  · exact takes_bind takes_booleanLiteral fun b us hUs => by subst hUs; exact takes_pure .booleanLit
  · exact takes_bind takes_booleanLiteral fun b us hUs => by subst hUs; exact takes_pure .booleanLit
  · exact takes_bind takes_booleanLiteral fun b us hUs => by subst hUs; exact takes_pure .booleanLit
  · exact takes_bind (takes_expect _) fun _ us hUs => by subst hUs; exact takes_pure .null
  · exact takes_characterStringLiteral
  · exact takes_characterStringLiteral
  · split
    · exact takes_bind takes_unsignedNumericLiteral fun literal us hUs => by
        subst hUs
        exact takes_pure .numericLit
    · split
      · exact takes_vectorLiteral
      · exact takes_fail

theorem takes_unsignedValueSpecification : Takes unsignedValueSpecification fun e us =>
    Derives .taken (.base e) us := by
  refine takes_peekAny fun t => ?_
  split
  · exact takes_bind (takes_expect _) fun _ us hUs => by subst hUs; exact takes_pure .sessionUser
  · refine takes_bind takes_generalParameterReference fun name us hUs => ?_
    obtain ⟨q, rfl, hq⟩ := hUs
    exact takes_pure (.parameter hq)
  · exact takes_unsignedLiteral

/-! ## Functions and constructors -/

/-- An expression is written at every power: no level is asked for. -/
def WrittenExpr (e : Expr) (us : List TokenKind) : Prop :=
  ∀ p, Derives .taken (.expr p e) us

def WrittenPrimary (e : Expr) (us : List TokenKind) : Prop := Derives .taken (.primary e) us

def WrittenBase (e : Expr) (us : List TokenKind) : Prop := Derives .taken (.base e) us

section Parts

variable {expr primary : TokenParser Expr} (hExpr : Takes expr WrittenExpr)
  (hPrimary : Takes primary WrittenPrimary)

include hExpr

theorem takes_parenthesized : Takes (parenthesizedValueExpression expr) WrittenBase := by
  refine takes_expectThen ?_
  refine takes_bind hExpr fun e us hE => ?_
  refine takes_expectThen ?_
  exact takes_pure (.paren (hE 0))

omit hExpr in
/-- Pieces that each begin with a comma, after a first expression. -/
theorem args_of_pieces {e : Expr} {es : List Expr} {us vs : List TokenKind}
    (hE : WrittenExpr e us)
    (h : Pieces (fun e vs => ∃ ws, vs = .comma :: ws ∧ WrittenExpr e ws) es vs) :
    Derives .taken (.args (e :: es)) (us ++ vs) := by
  induction h generalizing e us with
  | nil =>
    rw [List.append_nil]
    exact .argsOne (hE 0)
  | cons hNext _ ih =>
    obtain ⟨ws, rfl, hWs⟩ := hNext
    exact .argsMore (hE 0) (ih hWs)

theorem takes_nextArg : Takes (do expect .comma; expr) fun e vs =>
    ∃ ws, vs = .comma :: ws ∧ WrittenExpr e ws := by
  refine takes_expectThen ?_
  exact hExpr.mono fun e ws hE => ⟨ws, rfl, hE⟩

theorem takes_args1 : Takes (separated1 expr (expect .comma)) fun es us =>
    Derives .taken (.args es) us := by
  refine (takes_separated1 hExpr (takes_nextArg hExpr)).mono ?_
  rintro es us ⟨e, es', vs, ws, rfl, rfl, hE, hPieces⟩
  exact args_of_pieces hE hPieces

theorem takes_args0 : Takes (separated0 expr (expect .comma)) fun es us =>
    (es = [] ∧ us = []) ∨ Derives .taken (.args es) us := by
  refine (takes_separated0 hExpr (takes_nextArg hExpr)).mono ?_
  rintro es us (hNil | ⟨e, es', vs, ws, rfl, rfl, hE, hPieces⟩)
  · exact .inl hNil
  · exact .inr (args_of_pieces hE hPieces)

theorem takes_caseAbbreviation : Takes (caseAbbreviation expr) WrittenBase := by
  refine takes_peekAny fun t => ?_
  split
  · refine takes_expectThen ?_
    refine takes_expectThen ?_
    refine takes_bind hExpr fun a ta hA => ?_
    refine takes_bind hExpr fun b tb hB => ?_
    refine takes_expectThen ?_
    refine takes_pure ?_
    have hNullIf := Derives.nullIf (hA 0) (hB 0)
    simpa [WrittenBase, Dialect.taken] using hNullIf
  · refine takes_expectThen ?_
    refine takes_expectThen ?_
    refine takes_bind (takes_args1 hExpr) fun es us hArgs => ?_
    refine takes_expectThen ?_
    exact takes_pure (.coalesce hArgs)
  · exact takes_fail

theorem takes_caseExpression : Takes (caseExpression expr) WrittenBase := by
  refine takes_peekAny fun t => ?_
  split
  · exact takes_caseAbbreviation hExpr
  · exact takes_caseAbbreviation hExpr
  · exact takes_fail

omit hExpr in
theorem takes_setQuantifier :
    Takes (opt setQuantifier) fun q us => us = quantifierTokens q := by
  refine takes_opt (R := fun (q : SetQuantifier) us => us = [q.token]) ?_ rfl fun q us hUs => hUs
  refine takes_bind takes_any fun t us hUs => ?_
  subst hUs
  split <;> first | exact takes_fail | exact takes_pure rfl

omit hExpr in
theorem takes_generalSetFunctionType :
    Takes generalSetFunctionType fun kind us => us = [kind.token] := by
  refine takes_bind takes_any fun t us hUs => ?_
  subst hUs
  split <;> first | exact takes_fail | exact takes_pure rfl

omit hExpr in
theorem takes_binarySetFunctionKind :
    Takes binarySetFunctionKind fun kind us => us = [kind.token] := by
  refine takes_bind takes_any fun t us hUs => ?_
  subst hUs
  split <;> first | exact takes_fail | exact takes_pure rfl

theorem takes_generalSetFunction : Takes (generalSetFunction expr) WrittenBase := by
  refine takes_bind takes_generalSetFunctionType fun kind us hUs => ?_
  subst hUs
  refine takes_expectThen ?_
  refine takes_bind takes_setQuantifier fun q us hUs => ?_
  subst hUs
  refine takes_bind hExpr fun e us hE => ?_
  refine takes_expectThen ?_
  refine takes_pure ?_
  have hGeneral := @Derives.general _ kind q _ _ (hE 0)
  simpa [WrittenBase] using hGeneral

theorem takes_binarySetFunction : Takes (binarySetFunction expr) WrittenBase := by
  refine takes_bind takes_binarySetFunctionKind fun kind us hUs => ?_
  subst hUs
  refine takes_bind takes_setQuantifier fun q us hUs => ?_
  subst hUs
  refine takes_bind hExpr fun a ta hA => ?_
  refine takes_expectThen ?_
  refine takes_bind hExpr fun b tb hB => ?_
  refine takes_pure ?_
  have hBinary := @Derives.binarySet _ kind q _ _ _ _ (hA 0) (hB 0)
  simpa [WrittenBase, Dialect.taken] using hBinary

theorem takes_aggregateFunction : Takes (aggregateFunction expr) WrittenBase := by
  refine takes_peekAny fun t => ?_
  split
  · refine takes_orElse ?_ (takes_generalSetFunction hExpr)
    refine takes_expectThen ?_
    refine takes_expectThen ?_
    refine takes_expectThen ?_
    refine takes_expectThen ?_
    exact takes_pure .count
  · split
    · exact takes_binarySetFunction hExpr
    · exact takes_binarySetFunction hExpr
    · exact takes_fail

theorem takes_genericValueFunction : Takes (genericValueFunction expr) WrittenExpr := by
  refine takes_bind takes_regularIdentifier fun name us hName => ?_
  obtain ⟨k, rfl, hk⟩ := hName
  refine takes_expectThen ?_
  refine takes_bind (takes_args0 hExpr) fun es us hArgs => ?_
  refine takes_expectThen ?_
  refine takes_pure fun p => ?_
  obtain ⟨rfl, rfl⟩ | hArgs := hArgs
  · exact .genericNoArgs hk
  · exact .generic hk hArgs

theorem takes_predefined {name : TokenKind → Bool} {kind : NumericFunctionKind}
    (hName : ∀ k, name k = true → k ∈ kind.tokens) :
    Takes (predefinedValueFunction expr name kind) WrittenExpr := by
  refine takes_bind (takes_satisfy _) fun _ us hUs => ?_
  obtain ⟨k, rfl, hk⟩ := hUs
  refine takes_expectThen ?_
  refine takes_bind hExpr fun e us hE => ?_
  refine takes_expectThen ?_
  exact takes_pure fun p => .numeric (hName k hk) (hE 0)

theorem takes_numericValueFunction : Takes (numericValueFunction expr) WrittenExpr := by
  refine takes_peekAny fun t => ?_
  split
  · exact takes_predefined hExpr fun k hk => by
      simpa [NumericFunctionKind.tokens] using hk
  · exact takes_predefined hExpr fun k hk => by
      simpa [NumericFunctionKind.tokens] using hk
  · exact takes_predefined hExpr fun k hk => by
      simpa [NumericFunctionKind.tokens] using hk
  · exact takes_predefined hExpr fun k hk => by
      simpa [NumericFunctionKind.tokens] using hk
  · exact takes_predefined hExpr fun k hk => by
      simpa [NumericFunctionKind.tokens] using hk
  · exact takes_predefined hExpr fun k hk => by
      simpa [NumericFunctionKind.tokens] using hk
  · exact takes_fail

theorem takes_vectorDistanceFunction : Takes (vectorDistanceFunction expr) WrittenExpr := by
  refine takes_expectThen ?_
  refine takes_expectThen ?_
  refine takes_bind hExpr fun a ta hA => ?_
  refine takes_expectThen ?_
  refine takes_bind hExpr fun b tb hB => ?_
  have hMetric : Takes (opt (do expect .comma; regularIdentifier)) fun metric us =>
      (metric = none ∧ us = []) ∨
        ∃ k name, metric = some name ∧ us = [.comma, k] ∧ regularName k = some name := by
    refine takes_opt (R := fun name us => ∃ k, us = [.comma, k] ∧ regularName k = some name)
      ?_ (.inl ⟨rfl, rfl⟩) ?_
    · refine takes_expectThen ?_
      refine takes_regularIdentifier.mono ?_
      rintro name us ⟨k, rfl, hk⟩
      exact ⟨k, rfl, hk⟩
    · rintro name us ⟨k, rfl, hk⟩
      exact .inr ⟨k, name, rfl, rfl, hk⟩
  refine takes_bind hMetric fun metric us hUs => ?_
  refine takes_expectThen ?_
  refine takes_pure fun p => ?_
  obtain ⟨rfl, rfl⟩ | ⟨k, name, rfl, rfl, hk⟩ := hUs
  · have hDistance := @Derives.vectorDistance _ p _ _ _ _ (hA 0) (hB 0)
    simpa using hDistance
  · have hDistance := @Derives.vectorDistanceMetric _ p _ _ _ _ _ _ (hA 0) (hB 0) hk
    simpa using hDistance

theorem takes_valueFunction : Takes (valueFunction expr) WrittenExpr := by
  refine takes_peekAny fun t => ?_
  split
  · exact takes_genericValueFunction hExpr
  · split
    · exact takes_numericValueFunction hExpr
    · split
      · exact takes_vectorDistanceFunction hExpr
      · exact takes_fail

include hPrimary

omit hExpr in
theorem takes_pathElementListStep : Takes (pathElementListStep primary) fun step us =>
    ∃ te tn, us = .comma :: te ++ .comma :: tn ∧ WrittenPrimary step.1 te ∧
      WrittenPrimary step.2 tn := by
  refine takes_expectThen ?_
  refine takes_bind hPrimary fun edge te hEdge => ?_
  refine takes_expectThen ?_
  refine takes_bind hPrimary fun node tn hNode => ?_
  exact takes_pure ⟨te, tn, by simp, hEdge, hNode⟩

omit hExpr hPrimary in
theorem steps_of_pieces {ss : List (Expr × Expr)} {us : List TokenKind}
    (h : Pieces (fun step us => ∃ te tn, us = .comma :: te ++ .comma :: tn ∧
      WrittenPrimary step.1 te ∧ WrittenPrimary step.2 tn) ss us) :
    Derives .taken (.steps ss) us := by
  induction h with
  | nil => exact .stepsNil
  | cons hStep _ ih =>
    obtain ⟨te, tn, rfl, hEdge, hNode⟩ := hStep
    have hSteps := Derives.stepsMore hEdge hNode ih
    simpa using hSteps

omit hExpr in
theorem takes_pathValueConstructor : Takes (pathValueConstructor primary) WrittenBase := by
  refine takes_expectThen ?_
  refine takes_expectThen ?_
  have hList : Takes (pathElementList primary) fun e us => ∃ start ss te ts,
      e = .path start ss ∧ us = te ++ ts ∧ WrittenPrimary start te ∧
        Derives .taken (.steps ss) ts := by
    refine takes_bind hPrimary fun start te hStart => ?_
    refine takes_bind (takes_repeat0 (takes_pathElementListStep hPrimary)) fun ss ts hSteps => ?_
    exact takes_pure ⟨start, ss, te, ts, rfl, by rw [List.append_nil], hStart,
      steps_of_pieces hSteps⟩
  refine takes_bind hList fun e us hE => ?_
  obtain ⟨start, ss, te, ts, rfl, rfl, hStart, hSteps⟩ := hE
  refine takes_expectThen ?_
  refine takes_pure ?_
  have hPath := Derives.path hStart hSteps
  simpa [WrittenBase] using hPath

theorem takes_primaryInner : Takes (valueExpressionPrimaryInner expr primary) WrittenBase := by
  refine takes_peekAny fun t => ?_
  split
  · exact takes_pathValueConstructor hPrimary
  · exact takes_caseExpression hExpr
  · exact takes_caseExpression hExpr
  · exact takes_caseExpression hExpr
  · split
    · exact takes_aggregateFunction hExpr
    · exact takes_unsignedValueSpecification

theorem takes_primaryBase : Takes (valueExpressionPrimaryBase expr primary) WrittenBase := by
  refine takes_peekAny fun t => ?_
  split
  · exact takes_parenthesized hExpr
  · split
    · refine takes_bind takes_regularIdentifier fun name us hName => ?_
      obtain ⟨k, rfl, hk⟩ := hName
      exact takes_pure (.variableRef hk)
    · exact takes_primaryInner hExpr hPrimary

omit hExpr hPrimary in
theorem names_of_pieces {names : List Ident} {us : List TokenKind}
    (h : Pieces (fun name us => ∃ k, us = [.period, k] ∧ identifierName k = some name) names us) :
    ∃ ks : List TokenKind, ks.map identifierName = names.map some ∧
      us = ks.flatMap fun k => [.period, k] := by
  induction h with
  | nil => exact ⟨[], rfl, rfl⟩
  | cons hName _ ih =>
    obtain ⟨k, rfl, hk⟩ := hName
    obtain ⟨ks, hKs, rfl⟩ := ih
    exact ⟨k :: ks, by rw [List.map_cons, List.map_cons, hk, hKs], rfl⟩

theorem takes_primaryOf : Takes (valueExpressionPrimaryOf expr primary) WrittenPrimary := by
  have hName : Takes (do expect .period; propertyName) fun name us =>
      ∃ k, us = [.period, k] ∧ identifierName k = some name := by
    refine takes_expectThen ?_
    refine takes_identifier.mono ?_
    rintro name us ⟨k, rfl, hk⟩
    exact ⟨k, rfl, hk⟩
  refine takes_bind (takes_primaryBase hExpr hPrimary) fun source ts hSource => ?_
  refine takes_bind (takes_repeat0 hName) fun names us hNames => ?_
  obtain ⟨ks, hKs, rfl⟩ := names_of_pieces hNames
  split
  · rename_i hEmpty
    rw [List.isEmpty_iff] at hEmpty
    subst hEmpty
    rw [List.map_nil, List.map_eq_nil_iff] at hKs
    subst hKs
    refine takes_pure ?_
    rw [List.flatMap_nil, List.append_nil, List.append_nil]
    exact .base hSource
  · rename_i hSome
    refine takes_pure ?_
    rw [List.append_nil]
    exact .property hSource (fun hNil => hSome (List.isEmpty_iff.mpr hNil)) hKs

theorem takes_operand : Takes (valueExpressionOperand expr primary) WrittenExpr := by
  have hOf : Takes (valueExpressionPrimaryOf expr primary) WrittenExpr :=
    (takes_primaryOf hExpr hPrimary).mono fun e us h p => .primary h
  refine takes_peekAnyOpt fun t o => ?_
  split
  · split
    · exact takes_valueFunction hExpr
    · exact hOf
  · exact hOf

end Parts

/-! ## The operator table -/

/-- The operator table of value expressions reads its operands and operators from left to right. -/
theorem valueTable_readsInOrder {operand : TokenParser Expr} (h : Takes operand WrittenExpr) :
    ReadsInOrder (valueExpressionTable operand) WrittenExpr where
  operand := h
  prefixOp := by
    refine takes_bind takes_any fun t us hUs => ?_
    subst hUs
    split
    · exact takes_pure fun a vs hA p => @Derives.prefixOp _ p .not _ _ nofun (hA _)
    · exact takes_pure fun a vs hA p => @Derives.prefixOp _ p .plus _ _ nofun (hA _)
    · exact takes_pure fun a vs hA p => @Derives.prefixOp _ p .minus _ _ nofun (hA _)
    · exact takes_fail
  suffixOp := by
    refine takes_peekTwo fun t u => ?_
    split
    · refine takes_expectThen ?_
      refine takes_expectThen ?_
      refine takes_bind takes_booleanLiteral fun b us hUs => ?_
      subst hUs
      exact takes_pure fun a vs hA p => .isNot nofun (hA _)
    · refine takes_expectThen ?_
      refine takes_bind takes_booleanLiteral fun b us hUs => ?_
      subst hUs
      exact takes_pure fun a vs hA p => .is nofun (hA _)
    · exact takes_fail
  infixOp := by
    have hOp : ∀ (op : BinaryOp) a b vs ws, WrittenExpr a vs → WrittenExpr b ws →
        WrittenExpr (.binary op a b) (vs ++ [op.token] ++ ws) := by
      intro op a b vs ws hA hB p
      rw [List.append_assoc]
      exact .infixOp nofun (hA _) (hB _)
    refine takes_bind takes_any fun t us hUs => ?_
    subst hUs
    split <;> first
      | exact takes_fail
      | exact takes_pure (hOp .or) | exact takes_pure (hOp .xor) | exact takes_pure (hOp .and)
      | exact takes_pure (hOp .lt) | exact takes_pure (hOp .le) | exact takes_pure (hOp .gt)
      | exact takes_pure (hOp .ge) | exact takes_pure (hOp .eq) | exact takes_pure (hOp .ne)
      | exact takes_pure (hOp .concat) | exact takes_pure (hOp .add)
      | exact takes_pure (hOp .sub) | exact takes_pure (hOp .mul) | exact takes_pure (hOp .div)

theorem takes_valueExpressionN (n : Nat) :
    Takes (valueExpressionN n) WrittenExpr ∧ Takes (valueExpressionPrimaryN n) WrittenPrimary := by
  induction n with
  | zero => exact ⟨fun _ _ _ h => (nomatch h), fun _ _ _ h => (nomatch h)⟩
  | succ n ih =>
    exact ⟨takes_precedence (valueTable_readsInOrder (takes_operand ih.1 ih.2)) _,
      takes_primaryOf ih.1 ih.2⟩

theorem takes_valueExpression : Takes valueExpression WrittenExpr :=
  fun ts => (takes_valueExpressionN _).1 ts

end MiniGU.Parsing
