import MiniGU.Invariant.ValueReads

/-!
# Names, literals and delimited phrases

What the parsers below the operator table do with the tokens the grammar assigns: identifiers,
literals and the comma-separated lists of arguments, signed numbers and path steps.
-/

namespace MiniGU.Parsing

/-! ## Names and literals -/

theorem regularIdentifier_reads {k : TokenKind} {name : Ident} {ts : List TokenKind}
    (h : regularName k = some name) : regularIdentifier (k :: ts) = .ok name ts :=
  verifyMap_cons_some h

theorem identifier_reads {k : TokenKind} {name : Ident} {ts : List TokenKind}
    (h : identifierName k = some name) : identifier (k :: ts) = .ok name ts := by
  cases k with
  | regularIdentifier n => cases h; rfl
  | nonReserved w s => cases h; rfl
  | accentQuoted q | doubleQuoted q =>
    show cutNone q.unescape ts = _
    rw [show q.unescape = some name from h]
    rfl
  | _ => cases h

theorem unsignedNumericLiteral_reads (literal : UnsignedNumericLiteral) (ts : List TokenKind) :
    unsignedNumericLiteral (literal.token :: ts) = .ok literal ts := by
  cases literal with
  | integer kind digits => cases kind <;> rfl
  | float digits => rfl

theorem signedNumeric_reads {e : Expr} {us : List TokenKind} (h : signedTokens e = some us)
    (ts : List TokenKind) : signedNumericLiteralExpression (us ++ ts) = .ok e ts := by
  unfold signedTokens at h
  split at h
  · rename_i literal
    cases h
    cases literal with
    | integer kind digits => cases kind <;> rfl
    | float digits => rfl
  · rename_i literal
    cases h
    show (unsignedNumericLiteral (literal.token :: ts)).andThen _ = _
    rw [unsignedNumericLiteral_reads]
    rfl
  · rename_i literal
    cases h
    show (unsignedNumericLiteral (literal.token :: ts)).andThen _ = _
    rw [unsignedNumericLiteral_reads]
    rfl
  · cases h

theorem signedNumerics_items {es : List Expr} {tss : List (List TokenKind)}
    (h : es.map signedTokens = tss.map some) {rest : List TokenKind}
    (hRest : ∀ t ∈ rest.head?, t ≠ .comma) :
    Items (do expect .comma; signedNumericLiteralExpression) es
      ((tss.flatMap fun us => .comma :: us) ++ rest) rest := by
  induction es generalizing tss with
  | nil =>
    cases tss with
    | nil =>
      refine .done ?_
      rw [bind_apply, List.flatMap_nil, List.nil_append, expect_of_head hRest]
      rfl
    | cons us tss => cases h
  | cons e es ih =>
    cases tss with
    | nil => cases h
    | cons us tss =>
      rw [List.map_cons, List.map_cons, List.cons.injEq] at h
      rw [List.flatMap_cons, List.cons_append, List.cons_append, List.append_assoc]
      refine .item ?_ ?_ (ih h.2)
      · rw [bind_apply, expect_self, andThen_ok]
        exact signedNumeric_reads h.1 _
      · simp only [List.length_cons, List.length_append]
        omega

theorem signedNumerics_read {es : List Expr} {tss : List (List TokenKind)}
    (h : es.map signedTokens = tss.map some) (rest : List TokenKind) :
    separated0 signedNumericLiteralExpression (expect .comma)
      (commaSeparated tss ++ .rightBracket :: rest) = .ok es (.rightBracket :: rest) := by
  have hRest : ∀ t ∈ (TokenKind.rightBracket :: rest).head?, t ≠ .comma := by
    intro t ht
    cases ht
    exact nofun
  cases es with
  | nil =>
    cases tss with
    | nil => exact separated0_of_backtrack rfl
    | cons us tss => cases h
  | cons e es =>
    cases tss with
    | nil => cases h
    | cons us tss =>
      rw [List.map_cons, List.map_cons, List.cons.injEq] at h
      rw [commaSeparated_cons, List.append_assoc]
      exact separated0_reads (signedNumeric_reads h.1 _) (signedNumerics_items h.2 hRest)

theorem propertyNames_items {ks : List TokenKind} {names : List Ident}
    (h : ks.map identifierName = names.map some) {rest : List TokenKind}
    (hRest : ∀ t ∈ rest.head?, t ≠ .period) :
    Items (do expect .period; propertyName) names
      ((ks.flatMap fun k => [.period, k]) ++ rest) rest := by
  induction ks generalizing names with
  | nil =>
    cases names with
    | nil =>
      refine .done ?_
      rw [bind_apply, List.flatMap_nil, List.nil_append, expect_of_head hRest]
      rfl
    | cons name names => cases h
  | cons k ks ih =>
    cases names with
    | nil => cases h
    | cons name names =>
      rw [List.map_cons, List.map_cons, List.cons.injEq] at h
      rw [List.flatMap_cons, List.append_assoc]
      refine .item ?_ ?_ (ih h.2)
      · show (expect .period (.period :: k :: _)).andThen _ = _
        rw [expect_self, andThen_ok]
        exact identifier_reads h.1
      · simp only [List.length_append, List.length_cons, List.length_nil]
        omega

/-! ## Arguments -/

variable {n : Nat} {es : List Expr} {ts rest : List TokenKind}

theorem nextArg_stop (hRest : ∀ t ∈ rest.head?, t ≠ .comma) :
    nextArg n rest = .backtrack := by
  rw [nextArg, bind_apply, expect_of_head hRest]
  rfl

theorem nextArg_cons : nextArg n (.comma :: ts) = valueExpressionN n ts := by
  rw [nextArg, bind_apply, expect_self]
  rfl

theorem readsArgs_one {e : Expr} (hne : ts ≠ [])
    (h : valueExpressionN n (ts ++ rest) = outcome e.supported e rest)
    (hRest : ∀ t ∈ rest.head?, t ≠ .comma) : ReadsArgs n [e] (ts ++ rest) rest where
  good hGood := by
    rw [supportedAll, supportedAll, Bool.and_true] at hGood
    rw [hGood] at h
    refine ⟨e, [], rest, rfl, h, ?_, .done (nextArg_stop hRest)⟩
    have := List.length_pos_iff.mpr hne
    rw [List.length_append]
    omega
  bad hBad := by
    rw [supportedAll, supportedAll, Bool.and_true] at hBad
    rw [hBad] at h
    exact .inl h

/-- One more argument before a comma. -/
theorem readsArgs_more {e : Expr} {te : List TokenKind} (hne : te ≠ [])
    (h : valueExpressionN n (te ++ .comma :: (ts ++ rest)) =
      outcome e.supported e (.comma :: (ts ++ rest)))
    (hArgs : ReadsArgs n es (ts ++ rest) rest) :
    ReadsArgs n (e :: es) (te ++ .comma :: (ts ++ rest)) rest := by
  have hShorter : (TokenKind.comma :: (ts ++ rest)).length <
      (te ++ .comma :: (ts ++ rest)).length := by
    have := List.length_pos_iff.mpr hne
    simp only [List.length_append, List.length_cons]
    omega
  constructor
  · intro hGood
    rw [supportedAll, Bool.and_eq_true] at hGood
    rw [hGood.1] at h
    obtain ⟨e', es', mid, rfl, hFirst, hLess, hItems⟩ := hArgs.good hGood.2
    refine ⟨e, e' :: es', _, rfl, h, hShorter, .item (nextArg_cons.trans hFirst) ?_ hItems⟩
    rw [List.length_cons]
    omega
  · intro hBad
    cases hGood : e.supported with
    | false =>
      rw [hGood] at h
      exact .inl h
    | true =>
      rw [hGood] at h
      rw [supportedAll, hGood, Bool.true_and] at hBad
      refine .inr ?_
      obtain hFirst | ⟨e', es', mid, us, hFirst, hLess, hItems⟩ := hArgs.bad hBad
      · exact ⟨e, [], _, ts ++ rest, h, hShorter, .done (nextArg_cons.trans hFirst)⟩
      · refine ⟨e, e' :: es', _, us, h, hShorter, .item (nextArg_cons.trans hFirst) ?_ hItems⟩
        rw [List.length_cons]
        omega

/-- A parser of arguments that goes on to a closing delimiter. -/
def closed {α : Type} (p : TokenParser (List Expr)) (close : TokenKind) (f : List Expr → α) :
    TokenParser α := do
  let args ← p
  expect close
  pure (f args)

theorem closed_of_ok {α : Type} {p : TokenParser (List Expr)} {close : TokenKind}
    {f : List Expr → α} {as : List Expr} {us : List TokenKind} (h : p ts = .ok as us) :
    closed p close f ts = (expect close us).andThen fun _ r => .ok (f as) r := by
  rw [closed, bind_apply, h]
  rfl

theorem separated1_close {α : Type} {close : TokenKind} {f : List Expr → α}
    (hClose : close ≠ .comma) (h : ReadsArgs n es ts (close :: rest)) :
    closed (separated1 (valueExpressionN n) (expect .comma)) close f ts =
      outcome (supportedAll es) (f es) rest := by
  cases hGood : supportedAll es with
  | true =>
    obtain ⟨e, es', mid, rfl, hFirst, -, hItems⟩ := h.good hGood
    rw [closed_of_ok (separated1_reads hFirst hItems), expect_self]
    rfl
  | false =>
    obtain hFirst | ⟨e, es', mid, us, hFirst, -, hItems⟩ := h.bad hGood
    · rw [closed, bind_apply, separated1_of_backtrack hFirst]
      rfl
    · rw [closed_of_ok (separated1_reads hFirst hItems), expect_ne hClose.symm]
      rfl

theorem separated0_close {α : Type} {close : TokenKind} {f : List Expr → α}
    (hClose : close ≠ .comma) (hStart : ∀ t ∈ ts.head?, t ≠ close)
    (h : ReadsArgs n es ts (close :: rest)) :
    closed (separated0 (valueExpressionN n) (expect .comma)) close f ts =
      outcome (supportedAll es) (f es) rest := by
  cases hGood : supportedAll es with
  | true =>
    obtain ⟨e, es', mid, rfl, hFirst, -, hItems⟩ := h.good hGood
    rw [closed_of_ok (separated0_reads hFirst hItems), expect_self]
    rfl
  | false =>
    obtain hFirst | ⟨e, es', mid, us, hFirst, -, hItems⟩ := h.bad hGood
    · rw [closed_of_ok (separated0_of_backtrack hFirst), expect_of_head hStart]
      rfl
    · rw [closed_of_ok (separated0_reads hFirst hItems), expect_ne hClose.symm]
      rfl

/-! ## Path steps -/

theorem step_stop {p : TokenParser Expr} (hRest : ∀ t ∈ rest.head?, t ≠ .comma) :
    pathElementListStep p rest = .backtrack := by
  rw [pathElementListStep, bind_apply, expect_of_head hRest]
  rfl

theorem readsSteps_nil (hRest : ∀ t ∈ rest.head?, t ≠ .comma) :
    ReadsSteps n [] rest rest where
  good _ := .done (step_stop hRest)
  bad h := by cases h

/-- One more step of a path, an edge and a node, before those that are read already. -/
theorem readsSteps_more {edge node : Expr} {ss : List (Expr × Expr)}
    {te tn : List TokenKind}
    (hEdge : valueExpressionPrimaryN n (te ++ .comma :: (tn ++ (ts ++ rest))) =
      outcome edge.supported edge (.comma :: (tn ++ (ts ++ rest))))
    (hNode : valueExpressionPrimaryN n (tn ++ (ts ++ rest)) =
      outcome node.supported node (ts ++ rest))
    (hSteps : ReadsSteps n ss (ts ++ rest) rest) :
    ReadsSteps n ((edge, node) :: ss)
      (.comma :: (te ++ .comma :: (tn ++ (ts ++ rest)))) rest := by
  have hRun : pathElementListStep (valueExpressionPrimaryN n)
      (.comma :: (te ++ .comma :: (tn ++ (ts ++ rest)))) =
      outcome (edge.supported && node.supported) (edge, node) (ts ++ rest) := by
    rw [pathElementListStep, bind_apply, expect_self, andThen_ok, bind_apply, hEdge]
    cases hGood : edge.supported with
    | false => rfl
    | true =>
      rw [outcome_true, andThen_ok, bind_apply, expect_self, andThen_ok, bind_apply, hNode]
      cases node.supported <;> rfl
  have hShorter : (ts ++ rest).length <
      (TokenKind.comma :: (te ++ .comma :: (tn ++ (ts ++ rest)))).length := by
    simp only [List.length_append, List.length_cons]
    omega
  constructor
  · intro hGood
    rw [supportedSteps, Bool.and_eq_true] at hGood
    rw [hGood.1] at hRun
    exact .item hRun hShorter (hSteps.good hGood.2)
  · intro hBad
    rw [supportedSteps, Bool.and_eq_false_iff] at hBad
    cases hGood : edge.supported && node.supported with
    | false =>
      rw [hGood] at hRun
      exact ⟨[], _, .done hRun⟩
    | true =>
      rw [hGood] at hRun
      rw [hGood] at hBad
      obtain hFalse | hBad := hBad
      · cases hFalse
      · obtain ⟨ss', us, hItems⟩ := hSteps.bad hBad
        exact ⟨(edge, node) :: ss', us, .item hRun hShorter hItems⟩

end MiniGU.Parsing
