import MiniGU.Invariant.PatternReads

/-!
# The round trip of graph patterns

A graph pattern written by the GQL grammar is parsed back, whatever its prefixes, quantifiers,
directions and groups, with three exceptions. The parser of an `ANY` search takes no word, so
nothing that follows it is read. A value expression the parser of values refuses is refused
here. And `BINDINGS` after `ELEMENT`, `EDGE` or `RELATIONSHIP` is taken for the word of the
match mode even where it is the path variable.
-/

namespace MiniGU.Parsing

variable {ts rest : List TokenKind}

-- ----
-- The match mode
-- ----

/-- Where the word after a match mode is taken for a part of it, a path pattern is looked for at
an equals sign. -/
theorem graphPattern_of_bindings (h : bindingsIsVariable ts = true) :
    graphPattern ts = .backtrack := by
  unfold bindingsIsVariable at h
  split at h
  · rfl
  · rfl
  · rfl
  · cases h

/-- No path pattern begins with a match mode. -/
theorem matchMode_stops {p : PathPattern} (h : PathPatternDerives p ts) :
    matchMode (ts ++ rest) = .backtrack := by
  obtain ⟨k, name, us, hName, rfl⟩ | ⟨k, us, rfl, hk⟩ := pathPattern_head h
  · rw [List.cons_append, matchMode, bind_apply, any_cons, andThen_ok]
    split <;> rfl
  · rw [List.cons_append, matchMode, bind_apply, any_cons, andThen_ok]
    split <;> first | rfl | (simp [startsUnnamed, pathLevel, prefixStage] at hk)

/-- A path pattern begins with `BINDINGS` only where that is its variable. -/
theorem bindings_stops {p : PathPattern} (h : PathPatternDerives p ts)
    (hFree : ∀ s us, ts ≠ .nonReserved .bindings s :: .equals :: us) :
    expectWord .bindings (ts ++ rest) = .backtrack := by
  obtain ⟨k, name, us, hName, rfl⟩ | ⟨k, us, rfl, hk⟩ := pathPattern_head h
  · refine expectWord_stops (headIn_cons.mpr ?_)
    rintro slice rfl
    exact hFree slice us rfl
  · refine expectWord_stops (headIn_cons.mpr ?_)
    rintro slice rfl
    simp [startsUnnamed, pathLevel, prefixStage] at hk

theorem matchMode_one {mode : MatchMode} {word : NonReservedWord} {s s' : Ident}
    {o : Option Unit} {us vs : List TokenKind} (hWord : word ∈ mode.words.2.1)
    (h : opt (expectWord .bindings) us = .ok o vs) :
    matchMode (.nonReserved mode.words.1 s :: .nonReserved word s' :: us) = .ok mode vs := by
  have hTail : (do let _ ← opt (expectWord .bindings); pure () : TokenParser Unit) us =
      .ok () vs := by
    rw [bind_apply, h]
    rfl
  cases mode with
  | repeatable =>
    obtain rfl := List.mem_singleton.mp hWord
    have hRead : elementBindingsOrElements (.nonReserved .element s' :: us) = .ok () vs :=
      orElse_of_ok hTail
    show (elementBindingsOrElements (.nonReserved .element s' :: us)).andThen _ = _
    rw [hRead]
    rfl
  | different =>
    have hRead : edgeBindingsOrEdges (.nonReserved word s' :: us) = .ok () vs := by
      refine orElse_of_ok ?_
      obtain rfl | hOther := List.mem_cons.mp hWord
      · exact hTail
      · obtain rfl := List.mem_singleton.mp hOther
        exact hTail
    show (edgeBindingsOrEdges (.nonReserved word s' :: us)).andThen _ = _
    rw [hRead]
    rfl

/-- A match mode is read, where its second word is not the variable of the path. -/
theorem matchMode_reads {mode : MatchMode} {tm : List TokenKind} (h : MatchModeDerives mode tm)
    {p : PathPattern} (hPath : PathPatternDerives p ts)
    (hFree : bindingsIsVariable (tm ++ (ts ++ rest)) = false) :
    matchMode (tm ++ (ts ++ rest)) = .ok mode (ts ++ rest) := by
  cases h with
  | @one word s s' tb hWord hBindings =>
    cases hBindings with
    | @present slice =>
      have hRead : opt (expectWord .bindings) (.nonReserved .bindings slice :: (ts ++ rest)) =
          .ok (some ()) (ts ++ rest) := rfl
      exact matchMode_one hWord hRead
    | absent =>
      simp only [List.cons_append, List.nil_append] at hFree ⊢
      refine matchMode_one hWord (opt_of_backtrack (bindings_stops hPath ?_))
      rintro s'' us rfl
      cases mode with
      | repeatable =>
        obtain rfl := List.mem_singleton.mp hWord
        cases hFree
      | different =>
        obtain rfl | hOther := List.mem_cons.mp hWord
        · cases hFree
        · obtain rfl := List.mem_singleton.mp hOther
          cases hFree
  | @many word s s' hWord =>
    cases mode with
    | repeatable =>
      obtain rfl := List.mem_singleton.mp hWord
      rfl
    | different =>
      obtain rfl | hOther := List.mem_cons.mp hWord
      · rfl
      · obtain rfl := List.mem_singleton.mp hOther
        rfl

-- ----
-- The list of path patterns
-- ----

/-- Where a list of path patterns that is not read may stop. -/
def listGoesOn (k : TokenKind) : Prop := goesOn k ∨ k = .comma

theorem morePatterns_read {ps : List PathPattern} (h : MorePatternsDerive ps ts)
    (hRest : FollowsPath 0 rest) (hComma : HeadIn (fun k => k ≠ .comma) rest) :
    LoopsOrStops (do expect .comma; pathPattern) (ps.all PathPattern.supported) listGoesOn ps
      (ts ++ rest) rest := by
  induction h with
  | nil =>
    refine .done ?_
    rw [List.nil_append, bind_apply, expect_of_head hComma]
    rfl
  | @cons p ps tp ts hPattern hMore ih =>
    have hFollows : FollowsPath 0 (ts ++ rest) := by
      refine HeadIn.append ?_ hRest
      cases hMore with
      | nil => exact headIn_nil _
      | cons => exact headIn_cons.mpr (Nat.le_refl 0)
    simp only [List.cons_append, List.append_assoc, List.all_cons]
    refine .sepCons (expect_self _ _) (pathPattern_reads hPattern hFollows) ?_ (.inr rfl)
      (fun k us hk => ⟨expect_ne ?_, .inl hk⟩) ih
    · simp only [List.length_append]
      omega
    · rintro rfl
      obtain hk | hk := hk <;> cases hk

theorem patternList_reads {p : PathPattern} {ps : List PathPattern} {tp : List TokenKind}
    (h : PathPatternDerives p tp) (hMore : MorePatternsDerive ps ts)
    (hRest : FollowsPath 0 rest) (hComma : HeadIn (fun k => k ≠ .comma) rest) :
    ReadsOrStops (separated1 pathPattern (expect .comma)) ((p :: ps).all PathPattern.supported)
      listGoesOn (p :: ps) (tp ++ (ts ++ rest)) rest := by
  have hFollows : FollowsPath 0 (ts ++ rest) := by
    refine HeadIn.append ?_ hRest
    cases hMore with
    | nil => exact headIn_nil _
    | cons => exact headIn_cons.mpr (Nat.le_refl 0)
  refine (pathPattern_reads h hFollows).separated1 ?_
    (fun k us hk => ⟨expect_ne ?_, .inl hk⟩) (morePatterns_read hMore hRest hComma)
  · simp only [List.length_append]
    omega
  · rintro rfl
    obtain hk | hk := hk <;> cases hk

-- ----
-- What follows the path patterns
-- ----

/-- What a graph pattern makes of its mode and its path patterns. -/
def graphTail (mode : Option MatchMode) (ps : List PathPattern) : TokenParser GraphPattern := do
  let keep ← opt keepClause
  let whereClause ← opt graphPatternWhereClause
  pure ⟨mode, ps, keep, whereClause⟩

theorem graphTail_stops {mode : Option MatchMode} {ps : List PathPattern} {k : TokenKind}
    {us : List TokenKind} (hk : listGoesOn k ∨ k = .any) :
    ∃ g, graphTail mode ps (k :: us) = .ok g (k :: us) := by
  refine ⟨⟨mode, ps, none, none⟩, ?_⟩
  have hKeep : keepClause (k :: us) = .backtrack := by
    rw [keepClause, bind_apply, expectWord_stops (headIn_cons.mpr ?_)]
    · rfl
    · rintro s rfl
      simp [listGoesOn, goesOn, pathLevel] at hk
  have hWhere : graphPatternWhereClause (k :: us) = .backtrack := by
    rw [graphPatternWhereClause, bind_apply, expect_ne ?_]
    · rfl
    · rintro rfl
      simp [listGoesOn, goesOn, pathLevel] at hk
  rw [graphTail, bind_apply, opt_of_backtrack hKeep, andThen_ok, bind_apply,
    opt_of_backtrack hWhere]
  rfl

theorem whereTail_head {condition : Option Expr} {tw : List TokenKind}
    (h : Optionally WhereDerives condition tw) {P : TokenKind → Prop} (hP : P .where) :
    HeadIn P tw :=
  h.headIn fun c us hc => by
    cases hc
    exact headIn_cons.mpr hP

/-- The condition at the end: it is read, or its `WHERE` is left over. -/
theorem whereTail_reads {condition : Option Expr} {tw : List TokenKind}
    (h : Optionally WhereDerives condition tw) :
    if condition.all Expr.supported then opt graphPatternWhereClause tw = .ok condition []
    else opt graphPatternWhereClause tw = .ok none tw ∧ tw ≠ [] := by
  cases h with
  | absent => rfl
  | @present c _ hWhere =>
    have hRead := where_reads hWhere ends_nil
    rw [List.append_nil] at hRead
    rw [Option.all_some]
    cases hGood : c.supported with
    | true =>
      rw [hGood, outcome_true] at hRead
      exact opt_of_ok hRead
    | false =>
      rw [hGood, outcome_false] at hRead
      refine ⟨opt_of_backtrack hRead, ?_⟩
      cases hWhere
      exact nofun

/-- The prefix to keep and the condition are read, or something is left over. -/
theorem graphTail_reads {mode : Option MatchMode} {ps : List PathPattern}
    {keep : Option PathPatternPrefix} {condition : Option Expr} {tk tw : List TokenKind}
    (hKeep : Optionally KeepDerives keep tk) (hWhere : Optionally WhereDerives condition tw) :
    if keep.all PathPatternPrefix.supported && condition.all Expr.supported then
      graphTail mode ps (tk ++ tw) = .ok ⟨mode, ps, keep, condition⟩ []
    else ∃ g k us, graphTail mode ps (tk ++ tw) = .ok g (k :: us) := by
  have hStage : HeadIn (fun k => 5 ≤ prefixStage k) tw := whereTail_head hWhere (Nat.le_refl 5)
  have hTail := whereTail_reads hWhere
  cases hGood : keep.all PathPatternPrefix.supported with
  | true =>
    have hReadKeep : opt keepClause (tk ++ tw) = .ok keep tw := by
      cases hKeep with
      | absent =>
        cases hWhere with
        | absent => rfl
        | present hWhere => cases hWhere; rfl
      | @present s _ hKeep =>
        cases hKeep with
        | @mk slice ts hPrefix =>
          have hRead : keepClause (.nonReserved .keep slice :: (ts ++ tw)) = .ok s tw :=
            pathPatternPrefix_reads hPrefix hGood hStage
          exact opt_of_ok hRead
    rw [Bool.true_and, graphTail, bind_apply, hReadKeep, andThen_ok, bind_apply]
    cases hCondition : condition.all Expr.supported with
    | true =>
      rw [hCondition, if_pos rfl] at hTail
      rw [if_pos rfl, hTail]
      rfl
    | false =>
      rw [hCondition, if_neg (by decide)] at hTail
      obtain ⟨k, us, rfl⟩ := List.exists_cons_of_ne_nil hTail.2
      rw [if_neg (by decide), hTail.1]
      exact ⟨_, k, us, rfl⟩
  | false =>
    rw [Bool.false_and, if_neg (by decide)]
    cases hKeep with
    | absent => cases hGood
    | @present s _ hKeep =>
      cases hKeep with
      | @mk slice ts hPrefix =>
        obtain ⟨us, hTokens, hAny⟩ := pathPatternPrefix_any hPrefix hGood hStage
        have hRead : keepClause (.nonReserved .keep slice :: (ts ++ tw)) =
            .ok (.pathSearch (.any none none)) (.any :: us) := hAny
        refine ⟨⟨mode, ps, some (.pathSearch (.any none none)), none⟩, .any, us, ?_⟩
        rw [List.cons_append, graphTail, bind_apply, opt_of_ok hRead]
        rfl

-- ----
-- The whole pattern
-- ----

theorem graphPattern_of_mode {o : Option MatchMode} {us : List TokenKind}
    (h : opt matchMode ts = .ok o us) :
    graphPattern ts = (separated1 pathPattern (expect .comma) us).andThen (graphTail o) := by
  rw [graphPattern, bind_apply, h]
  rfl

/-- **The graph patterns that come back**: from the tokens the grammar assigns to it, a pattern
is returned with nothing left over exactly when no path search in it is `ANY`, every value
expression in it is supported, and its match mode is not followed by a path variable written
`BINDINGS`. -/
theorem graphPattern_roundTrips_iff {g : GraphPattern} (h : GraphDerives g ts) :
    graphPattern ts = .ok g [] ↔ g.supported = true ∧ bindingsIsVariable ts = false := by
  cases hFree : bindingsIsVariable ts with
  | true =>
    rw [graphPattern_of_bindings hFree]
    exact ⟨fun hOk => (nomatch hOk), fun hAnd => (nomatch hAnd.2)⟩
  | false =>
    cases h with
    | @mk mode p ps keep condition tm tp ts tk tw hMode hPattern hMore hKeep hWhere =>
      simp only [List.append_assoc] at hFree ⊢
      have hReadMode : opt matchMode (tm ++ (tp ++ (ts ++ (tk ++ tw)))) =
          .ok mode (tp ++ (ts ++ (tk ++ tw))) := by
        cases hMode with
        | absent =>
          rw [List.nil_append]
          exact opt_of_backtrack (matchMode_stops hPattern)
        | present hMode => exact opt_of_ok (matchMode_reads hMode hPattern hFree)
      have hHead : ∀ {P : TokenKind → Prop}, (∀ s, P (.nonReserved .keep s)) → P .where →
          HeadIn P (tk ++ tw) := fun hK hW =>
        (hKeep.headIn fun s us hs => by cases hs; exact headIn_cons.mpr (hK _)).append
          (whereTail_head hWhere hW)
      have hList := patternList_reads hPattern hMore
        (hHead (fun _ => Nat.le_refl 0) (Nat.le_refl 0)) (hHead (fun _ => nofun) nofun)
      rw [graphPattern_of_mode hReadMode, GraphPattern.supported, Bool.and_assoc]
      cases hPatterns : (p :: ps).all PathPattern.supported with
      | true =>
        have hTail := @graphTail_reads mode (p :: ps) keep condition tk tw hKeep hWhere
        rw [hList.reads hPatterns, andThen_ok, Bool.true_and]
        cases hGood : keep.all PathPatternPrefix.supported && condition.all Expr.supported with
        | true =>
          rw [hGood, if_pos rfl] at hTail
          exact ⟨fun _ => ⟨rfl, trivial⟩, fun _ => hTail⟩
        | false =>
          rw [hGood, if_neg (by decide)] at hTail
          obtain ⟨g, k, us, hg⟩ := hTail
          rw [hg]
          exact ⟨fun hOk => (nomatch hOk), fun hAnd => (nomatch hAnd.1)⟩
      | false =>
        rw [Bool.false_and]
        refine ⟨fun hOk => ?_, fun hAnd => nomatch hAnd.1⟩
        obtain hFail | ⟨qs, k, us, hOk', -, hk⟩ := hList.stops hPatterns
        · rw [hFail] at hOk
          cases hOk
        · obtain ⟨g, hg⟩ := graphTail_stops (.inl hk)
          rw [hOk', andThen_ok, hg] at hOk
          cases hOk

/-- `p = SHORTEST 3 TRAIL PATHS GROUP (WALK (a:L)->){1,} | -[e]-` comes back. -/
theorem shortest_comes_back :
    graphPattern [.regularIdentifier "p", .equals, .nonReserved .shortest "SHORTEST",
      .unsignedDecimalInteger "3", .nonReserved .trail "TRAIL", .paths, .group,
      .leftParen, .nonReserved .walk "WALK", .leftParen, .regularIdentifier "a", .colon,
      .regularIdentifier "L", .rightParen, .rightArrow, .rightParen, .leftBrace,
      .unsignedDecimalInteger "1", .comma, .rightBrace, .verticalBar, .minusLeftBracket,
      .regularIdentifier "e", .rightBracketMinus] =
      .ok ⟨none, [⟨some "p", some (.pathSearch (.countedShortestGroup
          (some (.integer (.decimal, "3"))) (some .trail))),
        .union [.concat [.quantified (.grouped none (some .walk)
            (.concat [.pattern (.node ⟨some "a", some (.label "L"), none⟩),
              .pattern (.edge .right ⟨none, none, none⟩)]) none)
            (.general (some (.decimal, "1")) none)],
          .concat [.pattern (.edge .any ⟨some "e", none, none⟩)]]⟩], none, none⟩ [] := by
  have hNode : PathDerives (.factor (.pattern (.node ⟨some "a", some (.label "L"), none⟩))) _ :=
    .primary (.pattern (.node (.mk (.present (@VariableDerives.mk _ (.regularIdentifier "a") rfl))
      (.present (.colon (@LabelDerives.label _ _ (.regularIdentifier "L") _ rfl))) .absent)))
  have hArrow : PathDerives (.factor (.pattern (.edge .right ⟨none, none, none⟩))) _ :=
    .primary (.pattern .abbreviatedEdge)
  have hGroup := PathDerives.grouped .absent
    (.present (.mk (@ModeDerives.mk .walk "WALK") .none))
    (.term (.concat hNode (.factorsMore hArrow .factorsNil))) .absent
  have hFirst : PathDerives (.term _) _ := .concat
    (@PathDerives.quantified _ (.general (some (.decimal, "1")) none) _ hGroup) .factorsNil
  have hEdge := @ElementDerives.fullEdge .any _ _
    (.mk (.present (@VariableDerives.mk _ (.regularIdentifier "e") rfl)) .absent .absent)
  have hSecond := PathDerives.concat (.primary (.pattern hEdge)) .factorsNil
  have hPath := PathPatternDerives.mk
    (.present (@DeclarationDerives.mk _ (.regularIdentifier "p") rfl))
    (.present (.pathSearch (@SearchDerives.countedShortestGroup _ _ "SHORTEST" _ _ _ _
      (.present (@NumberDerives.integer (.decimal, "3"))) (.present (@ModeDerives.mk .trail "TRAIL"))
      .paths .group)))
    (.union hFirst (List.cons_ne_nil _ []) (.termsMore hSecond .termsNil))
  exact (graphPattern_roundTrips_iff (.mk .absent hPath .nil .absent .absent)).mpr ⟨rfl, rfl⟩

/-- `ANY 2 PATHS ()` is a graph pattern of the grammar that the parser refuses, `ALL PATHS ()`
one that it reads. -/
theorem any_is_refused :
    GraphDerives ⟨none, [⟨none, some (.pathSearch (.any (some (.integer (.decimal, "2"))) none)),
        .concat [.pattern (.node ⟨none, none, none⟩)]⟩], none, none⟩
      [.any, .unsignedDecimalInteger "2", .paths, .leftParen, .rightParen] ∧
    graphPattern [.any, .unsignedDecimalInteger "2", .paths, .leftParen, .rightParen] ≠
      .ok ⟨none, [⟨none, some (.pathSearch (.any (some (.integer (.decimal, "2"))) none)),
        .concat [.pattern (.node ⟨none, none, none⟩)]⟩], none, none⟩ [] ∧
    graphPattern [.all, .paths, .leftParen, .rightParen] =
      .ok ⟨none, [⟨none, some (.pathSearch (.all none)),
        .concat [.pattern (.node ⟨none, none, none⟩)]⟩], none, none⟩ [] := by
  refine ⟨?_, nofun, rfl⟩
  have hPath := PathPatternDerives.mk .absent
    (.present (.pathSearch (.any (.present (@NumberDerives.integer (.decimal, "2"))) .absent
      .paths)))
    (.term (.concat (.primary (.pattern (.node (.mk .absent .absent .absent)))) .factorsNil))
  exact .mk .absent hPath .nil .absent .absent

end MiniGU.Parsing
