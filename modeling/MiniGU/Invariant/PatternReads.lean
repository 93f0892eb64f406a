import MiniGU.Invariant.ElementReads
import MiniGU.Invariant.PrefixReads

/-!
# What the parser does with a written path pattern

A path pattern expression is read back when every value expression in it is supported. When one
is not, the parser fails or stops before a token that would go on with the pattern; inside
parentheses it fails. The proof follows the derivation; `PathReads` says for each kind of phrase
what its parser does, whatever follows that does not go on with it.
-/

namespace MiniGU.Parsing

variable {ts rest : List TokenKind}

/-! ## First tokens -/

/-- How tightly a token binds to the path pattern before it: a quantifier most, then the next
factor, then the next term. -/
def pathLevel : TokenKind → Nat
  | .questionMark | .asterisk | .plus | .leftBrace => 3
  | .leftParen | .leftArrow | .tilde | .rightArrow | .leftArrowTilde | .tildeRightArrow
  | .leftMinusRight | .minus | .leftArrowBracket | .tildeLeftBracket | .minusLeftBracket
  | .leftArrowTildeBracket => 2
  | .alternation | .verticalBar => 1
  | _ => 0

/-- The tokens go on with nothing that binds more tightly than `n`. -/
def FollowsPath (n : Nat) (ts : List TokenKind) : Prop := HeadIn (fun k => pathLevel k ≤ n) ts

theorem FollowsPath.mono {m n : Nat} (h : FollowsPath m ts) (hmn : m ≤ n) : FollowsPath n ts :=
  HeadIn.mono h fun _ hk => Nat.le_trans hk hmn

theorem pathLevel_two {k : TokenKind} :
    pathLevel k = 2 ↔ k = .leftParen ∨ k.isPrefixOfEdgePattern = true := by
  constructor
  · intro h
    unfold pathLevel at h
    split at h <;> first | exact .inl rfl | exact .inr rfl | cases h
  · rintro (rfl | h)
    · rfl
    · obtain h | h := Bool.or_eq_true_iff.mp h
      · unfold TokenKind.isPrefixOfAbbreviatedEdgePattern at h
        split at h <;> first | rfl | cases h
      · unfold TokenKind.isPrefixOfFullEdgePattern at h
        split at h <;> first | rfl | cases h

/-- A token that may follow the variable of a filler. -/
def followsName (k : TokenKind) : Prop :=
  fillerStage k = 2 ∨ fillerStage k = 3 ∨ closesFiller k = true

theorem facts_of_followsName {k : TokenKind} (h : followsName k) :
    regularName k = none ∧ k ≠ .equals ∧ prefixStage k = 5 ∧ pathLevel k ≠ 2 := by
  obtain hStage | hStage | hClose := h
  · unfold fillerStage at hStage
    split at hStage <;> first | exact ⟨rfl, nofun, rfl, nofun⟩ | cases hStage
  · unfold fillerStage at hStage
    split at hStage <;> first | exact ⟨rfl, nofun, rfl, nofun⟩ | cases hStage
  · unfold closesFiller at hClose
    split at hClose <;> first | exact ⟨rfl, nofun, rfl, nofun⟩ | cases hClose

theorem facts_of_level {k : TokenKind} (h : pathLevel k = 2) :
    regularName k = none ∧ k ≠ .equals ∧ prefixStage k = 5 ∧ fillerStage k = 4 ∧
      k ≠ .rightParen := by
  unfold pathLevel at h
  split at h <;> first | exact ⟨rfl, nofun, rfl, rfl, nofun⟩ | cases h

/-- How the tokens of a path phrase begin. -/
def BeginsPath : PathPhrase → List TokenKind → Prop
  | .expr _, ts | .term _, ts | .factor _, ts | .primary _, ts =>
    ∃ k us, ts = k :: us ∧ pathLevel k = 2
  | .terms sep _, ts => ts = [] ∨ ∃ us, ts = sep :: us
  | .factors _, ts => HeadIn (fun k => pathLevel k = 2) ts

theorem element_head {element : ElementPattern} (h : ElementDerives element ts) :
    ∃ k us, ts = k :: us ∧ pathLevel k = 2 := by
  cases h with
  | node _ => exact ⟨_, _, rfl, rfl⟩
  | @fullEdge kind => exact ⟨_, _, rfl, by cases kind <;> rfl⟩
  | @abbreviatedEdge kind => exact ⟨_, _, rfl, by cases kind <;> rfl⟩

theorem pathHead_of_derives {ph : PathPhrase} (h : PathDerives ph ts) : BeginsPath ph ts := by
  induction h with
  | term _ ih => exact ih
  | alternation _ _ _ ih _ | union _ _ _ ih _ | concat _ _ ih _ =>
    obtain ⟨k, us, rfl, hk⟩ := ih
    exact ⟨k, _, rfl, hk⟩
  | termsNil => exact .inl rfl
  | termsMore => exact .inr ⟨_, rfl⟩
  | factorsNil => exact headIn_nil _
  | factorsMore _ _ ih _ =>
    obtain ⟨k, us, rfl, hk⟩ := ih
    exact headIn_cons.mpr hk
  | primary _ ih => exact ih
  | quantified _ ih | optional _ ih =>
    obtain ⟨k, us, rfl, hk⟩ := ih
    exact ⟨k, _, rfl, hk⟩
  | pattern hElement => exact element_head hElement
  | grouped => exact ⟨_, _, rfl, rfl⟩

/-! ## Where the parsers do not start -/

section Stops

variable {p : TokenParser PathPatternExpr}

theorem pathPrimary_stops (h : HeadIn (fun k => pathLevel k ≠ 2) ts) :
    pathPrimary p ts = .backtrack := by
  cases ts with
  | nil => rfl
  | cons k ts =>
    have hk : pathLevel k ≠ 2 := h k rfl
    rw [pathPrimary, peekAny_cons]
    split
    · exact absurd rfl hk
    · rename_i hParen
      have hEdge : k.isPrefixOfEdgePattern = false := by
        rw [← Bool.not_eq_true]
        exact fun h => hk (pathLevel_two.mpr (.inr h))
      rw [hEdge, if_neg Bool.false_ne_true]
      rfl

theorem pathFactor_stops (h : HeadIn (fun k => pathLevel k ≠ 2) ts) :
    pathFactor p ts = .backtrack := by
  rw [pathFactor, bind_apply, pathPrimary_stops h]
  rfl

theorem pathTerm_stops (h : HeadIn (fun k => pathLevel k ≠ 2) ts) :
    pathTerm p ts = .backtrack := by
  rw [pathTerm, bind_apply, repeat1_of_backtrack (pathFactor_stops h)]
  rfl

theorem pathPatternExpressionN_stops {n : Nat} (hn : 0 < n)
    (h : HeadIn (fun k => pathLevel k ≠ 2) ts) : pathPatternExpressionN n ts = .backtrack := by
  obtain ⟨n, rfl⟩ : ∃ m, n = m + 1 := ⟨n - 1, by omega⟩
  rw [pathPatternExpressionN, pathPatternExpressionInner, bind_apply, pathTerm_stops h]
  rfl

theorem declaration_stops (h : HeadIn (fun k => regularName k = none) ts) :
    subpathVariableDeclaration ts = .backtrack := by
  have hName : subpathVariable ts = .backtrack := verifyMap_of_head h
  rw [subpathVariableDeclaration, bind_apply, hName]
  rfl

theorem declaration_stops_name {k : TokenKind} {us : List TokenKind}
    (h : HeadIn (fun k => k ≠ .equals) us) :
    subpathVariableDeclaration (k :: us) = .backtrack := by
  cases hName : regularName k with
  | none => exact declaration_stops (headIn_cons.mpr hName)
  | some name =>
    have hRead : subpathVariable (k :: us) = .ok name us := regularIdentifier_reads hName
    rw [subpathVariableDeclaration, bind_apply, hRead, andThen_ok, bind_apply, expect_of_head h]
    rfl

theorem declaration_reads {name : Ident} (h : DeclarationDerives name ts) :
    subpathVariableDeclaration (ts ++ rest) = .ok name rest := by
  cases h with
  | mk hName =>
    have hRead : ∀ us, subpathVariable (_ :: us) = .ok name us :=
      fun _ => regularIdentifier_reads hName
    rw [subpathVariableDeclaration, List.cons_append, bind_apply, hRead, andThen_ok,
      List.cons_append, bind_apply, expect_self]
    rfl

end Stops

/-! ## Parentheses -/

section Parentheses

variable {p : TokenParser PathPatternExpr}

/-- The tokens of a filler with its closing parenthesis: a name or none, then what may follow
one. -/
theorem filler_splits {filler : ElementPatternFiller} (h : FillerDerives filler ts)
    (rest : List TokenKind) :
    ∃ us, (ts ++ .rightParen :: rest = us ∨
        ∃ k name, regularName k = some name ∧ ts ++ .rightParen :: rest = k :: us) ∧
      HeadIn followsName us := by
  cases h with
  | @mk name label predicate tn tl tp hName hLabel hPredicate =>
    have hHead : HeadIn followsName (tl ++ (tp ++ .rightParen :: rest)) := by
      refine (hLabel.headIn fun e us he => ?_).append
        ((hPredicate.headIn fun e us he => ?_).append (headIn_cons.mpr (.inr (.inr rfl))))
      · cases he <;> exact headIn_cons.mpr (.inl rfl)
      · obtain ⟨k, vs, rfl, hk⟩ := predicate_head he
        exact headIn_cons.mpr (.inr (.inl hk))
    refine ⟨tl ++ (tp ++ .rightParen :: rest), ?_, hHead⟩
    cases hName with
    | absent => exact .inl (by simp only [List.nil_append, List.append_assoc])
    | present hVariable =>
      cases hVariable with
      | mk hk => exact .inr ⟨_, _, hk, by simp only [List.cons_append, List.nil_append,
          List.append_assoc]⟩

/-- **A node pattern is no parenthesized path pattern**: after a variable and a word that might
be a mode, no path pattern begins. -/
theorem parenthesized_of_node {filler : ElementPatternFiller} (h : FillerDerives filler ts)
    (hStop : ∀ us, HeadIn (fun k => pathLevel k ≠ 2) us → p us = .backtrack) :
    parenthesizedPathPatternExpression p (.leftParen :: (ts ++ .rightParen :: rest)) =
      .backtrack := by
  obtain ⟨us, hSplit, hHead⟩ := filler_splits h rest
  have hPath : p us = .backtrack :=
    hStop us (hHead.mono fun _ hk => (facts_of_followsName hk).2.2.2)
  rw [parenthesizedPathPatternExpression, bind_apply, expect_self, andThen_ok, bind_apply]
  obtain hTs | ⟨k, name, hk, hTs⟩ := hSplit
  · rw [hTs, opt_of_backtrack (declaration_stops (hHead.mono fun _ hk =>
      (facts_of_followsName hk).1)), andThen_ok, bind_apply, opt_of_backtrack
      (pathModePrefix_stops (hHead.mono fun k hk => by
        rw [(facts_of_followsName hk).2.2.1]; decide)), andThen_ok, bind_apply, hPath]
    rfl
  · rw [hTs, opt_of_backtrack (declaration_stops_name (hHead.mono fun _ hk =>
      (facts_of_followsName hk).2.1)), andThen_ok, bind_apply]
    obtain ⟨mode, hMode⟩ | hMode := pathModePrefix_cases k (hHead.mono fun k hk => by
      rw [(facts_of_followsName hk).2.2.1]; decide)
    · rw [opt_of_ok hMode, andThen_ok, bind_apply, hPath]
      rfl
    · have hNone : p (k :: us) = .backtrack := by
        refine hStop _ (headIn_cons.mpr fun hLevel => ?_)
        rw [(facts_of_level hLevel).1] at hk
        cases hk
      rw [opt_of_backtrack hMode, andThen_ok, bind_apply, hNone]
      rfl

/-- Without a part before it, a token that begins none ends the filler. -/
theorem elementPatternFiller_none {us : List TokenKind}
    (h : HeadIn (fun k => 4 ≤ fillerStage k) us) :
    elementPatternFiller us = .ok ⟨none, none, none⟩ us := by
  have hName : elementVariableDeclaration us = .backtrack :=
    regularIdentifier_stops (h.mono fun k (hk : 4 ≤ fillerStage k) => by omega)
  rw [elementPatternFiller, bind_apply, opt_of_backtrack hName, andThen_ok, bind_apply,
    opt_of_backtrack (isLabelExpression_stops (h.mono fun _ hk => Nat.le_of_succ_le hk)),
    andThen_ok, bind_apply, opt_of_backtrack (elementPatternPredicate_stops h)]
  rfl

theorem elementPatternFiller_name {k : TokenKind} {name : Ident} {us : List TokenKind}
    (hName : regularName k = some name) (h : HeadIn (fun k => 4 ≤ fillerStage k) us) :
    elementPatternFiller (k :: us) = .ok ⟨some name, none, none⟩ us := by
  have hRead : elementVariableDeclaration (k :: us) = .ok name us :=
    regularIdentifier_reads hName
  rw [elementPatternFiller, bind_apply, opt_of_ok hRead, andThen_ok, bind_apply,
    opt_of_backtrack (isLabelExpression_stops (h.mono fun _ hk => Nat.le_of_succ_le hk)),
    andThen_ok, bind_apply, opt_of_backtrack (elementPatternPredicate_stops h)]
  rfl

theorem pathElement_reads {element : ElementPattern} (h : ElementDerives element ts) :
    pathElement (ts ++ rest) = outcome element.supported (.pattern element) rest := by
  rw [pathElement, bind_apply, elementPattern_reads h]
  cases element.supported <;> rfl

theorem pathElement_paren (us : List TokenKind) : pathElement (.leftParen :: us) =
    (elementPatternFiller us).andThen fun f r => (expect .rightParen r).andThen fun _ r' =>
      .ok (.pattern (.node f)) r' := by
  have hNode : elementPattern (.leftParen :: us) = nodePattern (.leftParen :: us) := rfl
  rw [pathElement, bind_apply, hNode, nodePattern, bind_apply, expect_self, andThen_ok,
    bind_apply]
  cases elementPatternFiller us with
  | ok f r =>
    rw [andThen_ok, andThen_ok, bind_apply]
    cases expect .rightParen r <;> rfl
  | backtrack => rfl
  | cut => rfl
  | stuck => rfl

/-- A parenthesized path pattern is no node pattern: no closing parenthesis follows its first
word. -/
theorem pathElement_of_grouped {name : Option Ident} {mode : Option PathMode}
    {tn tm us : List TokenKind} (hName : Optionally DeclarationDerives name tn)
    (hMode : Optionally ModePrefixDerives mode tm) (hHead : ∃ k vs, us = k :: vs ∧
      pathLevel k = 2) :
    pathElement (.leftParen :: (tn ++ (tm ++ us))) = .backtrack := by
  obtain ⟨k, vs, rfl, hk⟩ := hHead
  obtain ⟨-, -, -, hStage, hParen⟩ := facts_of_level hk
  rw [pathElement_paren]
  cases hName with
  | present hDeclaration =>
    cases hDeclaration with
    | mk hVariable =>
      have hEquals : 4 ≤ fillerStage .equals := Nat.le_refl 4
      rw [List.cons_append, List.singleton_append,
        elementPatternFiller_name hVariable (headIn_cons.mpr hEquals), andThen_ok]
      rfl
  | absent =>
    rw [List.nil_append]
    cases hMode with
    | absent =>
      rw [List.nil_append, elementPatternFiller_none (headIn_cons.mpr (Nat.le_of_eq hStage.symm)),
        andThen_ok, expect_ne hParen]
      rfl
    | present hPrefix =>
      cases hPrefix with
      | @mk tm tw hWord hWords =>
        cases hWord
        have hNext : ∃ k' vs', tw ++ k :: vs = k' :: vs' ∧ 4 ≤ fillerStage k' ∧
            k' ≠ .rightParen := by
          cases hWords with
          | none => exact ⟨k, vs, rfl, Nat.le_of_eq hStage.symm, hParen⟩
          | path => exact ⟨_, _, rfl, Nat.le_refl 4, nofun⟩
          | paths => exact ⟨_, _, rfl, Nat.le_refl 4, nofun⟩
        obtain ⟨k', vs', hTail, hStage', hParen'⟩ := hNext
        rw [List.append_assoc, List.singleton_append, hTail,
          elementPatternFiller_name rfl (headIn_cons.mpr hStage'), andThen_ok,
          expect_ne hParen']
        rfl

end Parentheses

/-! ## The phrases of a path pattern -/

/-- Where an expression that is not read may stop: before a term or a factor. -/
def goesOn (k : TokenKind) : Prop := pathLevel k = 1 ∨ pathLevel k = 2

/-- What the parser of a phrase does on its tokens. -/
def PathReads : PathPhrase → List TokenKind → Prop
  | .expr e, ts => ∀ n rest, ts.length < n → FollowsPath 0 rest →
      ReadsOrStops (pathPatternExpressionN n) e.supported goesOn e (ts ++ rest) rest
  | .terms sep es, ts => ∀ n rest, ts.length ≤ n → pathLevel sep = 1 → FollowsPath 0 rest →
      LoopsOrStops (nextTerm (pathPatternExpressionN n) sep) (allPathsSupported es) goesOn es
        (ts ++ rest) rest
  | .term e, ts => ∀ n rest, ts.length ≤ n → FollowsPath 1 rest →
      ReadsOrStops (pathTerm (pathPatternExpressionN n)) e.supported (fun k => pathLevel k = 2) e
        (ts ++ rest) rest
  | .factors es, ts => ∀ n rest, ts.length ≤ n → FollowsPath 1 rest →
      LoopsOrStops (pathFactor (pathPatternExpressionN n)) (allPathsSupported es)
        (fun k => pathLevel k = 2) es (ts ++ rest) rest
  | .factor e, ts => ∀ n rest, ts.length ≤ n → FollowsPath 2 rest →
      pathFactor (pathPatternExpressionN n) (ts ++ rest) = outcome e.supported e rest
  | .primary e, ts => ∀ n rest, ts.length ≤ n →
      pathPrimary (pathPatternExpressionN n) (ts ++ rest) = outcome e.supported e rest

section Primary

variable {n : Nat}

theorem pathPrimary_edge {p : TokenParser PathPatternExpr} {k : TokenKind}
    {us : List TokenKind} (h : k.isPrefixOfEdgePattern = true) :
    pathPrimary p (k :: us) = pathElement (k :: us) := by
  rw [pathPrimary, peekAny_cons]
  split
  · cases h
  · rw [h, if_pos rfl]

theorem pathPrimary_paren {p : TokenParser PathPatternExpr} {us : List TokenKind} :
    pathPrimary p (.leftParen :: us) =
      orElse (parenthesizedPathPatternExpression p) pathElement (.leftParen :: us) := rfl

theorem pathPrimary_element {element : ElementPattern} (h : ElementDerives element ts)
    (hn : ts.length ≤ n) : pathPrimary (pathPatternExpressionN n) (ts ++ rest) =
      outcome element.supported (.pattern element) rest := by
  have hRead : pathElement (ts ++ rest) = outcome element.supported (.pattern element) rest :=
    pathElement_reads h
  cases h with
  | @node filler us hFiller =>
    have hBound : 0 < n := by
      simp only [List.cons_append, List.length_cons] at hn
      omega
    rw [← hRead, List.append_assoc, List.cons_append, List.singleton_append, pathPrimary_paren,
      orElse_of_backtrack (parenthesized_of_node hFiller fun _ =>
        pathPatternExpressionN_stops hBound)]
  | @fullEdge kind =>
    rw [← hRead, List.append_assoc, List.cons_append,
      pathPrimary_edge (by cases kind <;> rfl)]
  | @abbreviatedEdge kind =>
    rw [← hRead, List.cons_append, pathPrimary_edge (by cases kind <;> rfl)]

theorem modePrefix_facts {mode : PathMode} (h : ModePrefixDerives mode ts)
    (hHead : HeadIn (fun k => pathLevel k = 2) rest) :
    subpathVariableDeclaration (ts ++ rest) = .backtrack := by
  cases h with
  | @mk tm tw hWord hWords =>
    cases hWord
    rw [List.append_assoc, List.singleton_append]
    refine declaration_stops_name (HeadIn.append ?_ (hHead.mono fun _ hk =>
      (facts_of_level hk).2.1))
    cases hWords with
    | none => exact headIn_nil _
    | path => exact headIn_cons.mpr nofun
    | paths => exact headIn_cons.mpr nofun

/-- What follows the expression between parentheses: the condition, and the parenthesis. -/
theorem groupedTail_reads {name : Option Ident} {mode : Option PathMode} {e : PathPatternExpr}
    {condition : Option Expr} {tw : List TokenKind} (h : Optionally WhereDerives condition tw) :
    (do
      let w ← opt parenthesizedPathPatternWhereClause
      expect .rightParen
      pure (.grouped name mode e w) : TokenParser PathPatternExpr) (tw ++ .rightParen :: rest) =
      outcome (condition.all Expr.supported) (.grouped name mode e condition) rest := by
  cases h with
  | absent => rfl
  | @present c _ hWhere =>
    have hRead : parenthesizedPathPatternWhereClause (tw ++ .rightParen :: rest) =
        outcome c.supported c (.rightParen :: rest) := where_reads hWhere ends_rightParen
    rw [Option.all_some, bind_apply]
    cases hGood : c.supported with
    | true =>
      rw [hGood, outcome_true] at hRead
      rw [opt_of_ok hRead, andThen_ok, bind_apply, expect_self]
      rfl
    | false =>
      rw [hGood, outcome_false] at hRead
      rw [opt_of_backtrack hRead, andThen_ok]
      cases hWhere
      rfl

theorem groupedTail_stops {name : Option Ident} {mode : Option PathMode} {e : PathPatternExpr}
    {k : TokenKind} {us : List TokenKind} (hk : goesOn k) :
    (do
      let w ← opt parenthesizedPathPatternWhereClause
      expect .rightParen
      pure (.grouped name mode e w) : TokenParser PathPatternExpr) (k :: us) = .backtrack := by
  have hWhere : k ≠ .where := by
    rintro rfl
    obtain h | h := hk <;> cases h
  have hParen : k ≠ .rightParen := by
    rintro rfl
    obtain h | h := hk <;> cases h
  have hStop : parenthesizedPathPatternWhereClause (k :: us) = .backtrack := by
    rw [parenthesizedPathPatternWhereClause, graphPatternWhereClause, bind_apply, expect_ne hWhere]
    rfl
  rw [bind_apply, opt_of_backtrack hStop, andThen_ok, bind_apply, expect_ne hParen]
  rfl

theorem followsPath_where {condition : Option Expr} {tw : List TokenKind}
    (h : Optionally WhereDerives condition tw) :
    FollowsPath 0 (tw ++ .rightParen :: rest) := by
  refine (h.headIn fun c us hc => ?_).append (headIn_cons.mpr (Nat.le_refl 0))
  cases hc
  exact headIn_cons.mpr (Nat.le_refl 0)

/-- A parenthesized path pattern: whatever keeps it from being read, the closing parenthesis is
missed, and it is no node pattern either. -/
theorem pathPrimary_grouped {name : Option Ident} {mode : Option PathMode} {e : PathPatternExpr}
    {condition : Option Expr} {tn tm te tw : List TokenKind}
    (hName : Optionally DeclarationDerives name tn)
    (hMode : Optionally ModePrefixDerives mode tm) (hHead : ∃ k us, te = k :: us ∧
      pathLevel k = 2)
    (hExpr : PathReads (.expr e) te) (hWhere : Optionally WhereDerives condition tw)
    (hn : te.length < n) :
    pathPrimary (pathPatternExpressionN n)
        (.leftParen :: (tn ++ (tm ++ (te ++ (tw ++ .rightParen :: rest))))) =
      outcome (e.supported && condition.all Expr.supported) (.grouped name mode e condition)
        rest := by
  have hTail : HeadIn (fun k => pathLevel k = 2) (te ++ (tw ++ .rightParen :: rest)) := by
    obtain ⟨k, us, rfl, hk⟩ := hHead
    exact headIn_cons.mpr hk
  have hReadName : opt subpathVariableDeclaration
      (tn ++ (tm ++ (te ++ (tw ++ .rightParen :: rest)))) =
        .ok name (tm ++ (te ++ (tw ++ .rightParen :: rest))) := by
    refine opt_reads hName (fun _ _ => declaration_reads) ?_
    cases hMode with
    | absent => exact declaration_stops (hTail.mono fun _ hk => (facts_of_level hk).1)
    | present hPrefix => exact modePrefix_facts hPrefix hTail
  have hStage : HeadIn (fun k => 4 ≤ prefixStage k) (te ++ (tw ++ .rightParen :: rest)) :=
    hTail.mono fun k hk => by rw [(facts_of_level hk).2.2.1]; decide
  have hReadMode : opt pathModePrefix (tm ++ (te ++ (tw ++ .rightParen :: rest))) =
      .ok mode (te ++ (tw ++ .rightParen :: rest)) :=
    opt_reads hMode (fun _ _ h => pathModePrefix_reads h hStage)
      (pathModePrefix_stops (hStage.mono fun _ hk => Nat.le_of_succ_le hk))
  have hParen : parenthesizedPathPatternExpression (pathPatternExpressionN n)
      (.leftParen :: (tn ++ (tm ++ (te ++ (tw ++ .rightParen :: rest))))) =
        outcome (e.supported && condition.all Expr.supported) (.grouped name mode e condition)
          rest := by
    rw [parenthesizedPathPatternExpression, bind_apply, expect_self, andThen_ok, bind_apply,
      hReadName, andThen_ok, bind_apply, hReadMode, andThen_ok]
    refine outcome_of_reads (ReadsOrStops.bind (hExpr n _ hn (followsPath_where hWhere)) ?_
      (reads_of_outcome (groupedTail_reads hWhere)) fun c k us hk => .inl (groupedTail_stops hk))
    simp only [List.length_append]
    omega
  rw [pathPrimary_paren]
  cases hGood : e.supported && condition.all Expr.supported with
  | true =>
    rw [hGood, outcome_true] at hParen
    rw [orElse_of_ok hParen, outcome_true]
  | false =>
    rw [hGood, outcome_false] at hParen
    obtain ⟨k, us, rfl, hk⟩ := hHead
    rw [orElse_of_backtrack hParen, outcome_false]
    exact pathElement_of_grouped hName hMode ⟨k, _, rfl, hk⟩

end Primary

/-! ## Factors, terms and expressions -/

section Phrases

variable {n : Nat} {e : PathPatternExpr}

theorem pathFactor_plain (h : pathPrimary (pathPatternExpressionN n) ts =
    outcome e.supported e rest) (hRest : FollowsPath 2 rest) :
    pathFactor (pathPatternExpressionN n) ts = outcome e.supported e rest := by
  rw [pathFactor, bind_apply, h]
  cases e.supported with
  | false => rfl
  | true =>
    rw [outcome_true, andThen_ok, peekOpt]
    generalize hHead : rest.head? = next
    split <;> first | rfl | exact absurd (hRest _ hHead) (by decide)

theorem pathFactor_quantified {quantifier : PatternQuantifier}
    (h : pathPrimary (pathPatternExpressionN n) ts =
      outcome e.supported e (quantifier.tokens ++ rest)) :
    pathFactor (pathPatternExpressionN n) ts =
      outcome e.supported (.quantified e quantifier) rest := by
  cases hGood : e.supported with
  | false =>
    rw [pathFactor, bind_apply, h, hGood]
    rfl
  | true =>
    -- each quantifier begins with a token of its own
    have hRun : pathFactor (pathPatternExpressionN n) ts =
        (graphPatternQuantifier (quantifier.tokens ++ rest)).andThen
          fun q r => .ok (.quantified e q) r := by
      rw [pathFactor, bind_apply, h, hGood]
      cases quantifier <;> rfl
    rw [hRun, graphPatternQuantifier_reads]
    rfl

theorem pathFactor_optional (h : pathPrimary (pathPatternExpressionN n) ts =
    outcome e.supported e (.questionMark :: rest)) :
    pathFactor (pathPatternExpressionN n) ts = outcome e.supported (.optional e) rest := by
  rw [pathFactor, bind_apply, h]
  cases e.supported <;> rfl

theorem pathTerm_reads {es : List PathPatternExpr} {g : Bool}
    (h : LoopsOrStops (pathFactor (pathPatternExpressionN n)) g (fun k => pathLevel k = 2)
      (e :: es) ts rest) :
    ReadsOrStops (pathTerm (pathPatternExpressionN n)) g (fun k => pathLevel k = 2)
      (.concat (e :: es)) ts rest :=
  h.repeat1.map PathPatternExpr.concat

/-- What an expression makes of its first term. -/
def expressionTail (n : Nat) (path : PathPatternExpr) : TokenParser PathPatternExpr :=
  peekOpt fun
    | some .alternation => do
      let paths ← repeat1 (nextTerm (pathPatternExpressionN n) .alternation)
      pure (.alternation (path :: paths))
    | some .verticalBar => do
      let paths ← repeat1 (nextTerm (pathPatternExpressionN n) .verticalBar)
      pure (.union (path :: paths))
    | _ => pure path

theorem pathPatternExpressionN_succ :
    pathPatternExpressionN (n + 1) = (do
      let path ← pathTerm (pathPatternExpressionN n)
      expressionTail n path) := rfl

theorem expressionTail_stops (h : HeadIn (fun k => pathLevel k ≠ 1) ts) :
    expressionTail n e ts = .ok e ts := by
  rw [expressionTail, peekOpt]
  generalize hHead : ts.head? = next
  split
  · exact absurd rfl (h _ hHead)
  · exact absurd rfl (h _ hHead)
  · rfl

theorem expressionTail_short {k : TokenKind} {us : List TokenKind} (hk : pathLevel k = 2) :
    StopsShort (expressionTail n e) goesOn (k :: us) :=
  .inr ⟨e, k, us, expressionTail_stops (headIn_cons.mpr fun h => by rw [hk] at h; cases h),
    Nat.lt_succ_self _, .inr hk⟩

theorem expression_single {g : Bool}
    (h : ReadsOrStops (pathTerm (pathPatternExpressionN n)) g (fun k => pathLevel k = 2) e ts
      rest) (hShorter : rest.length ≤ ts.length) (hRest : FollowsPath 0 rest) :
    ReadsOrStops (pathPatternExpressionN (n + 1)) g goesOn e ts rest := by
  have hEnd : HeadIn (fun k => pathLevel k ≠ 1) rest :=
    HeadIn.mono hRest fun k (hk : pathLevel k ≤ 0) => by omega
  rw [pathPatternExpressionN_succ, ← Bool.and_true g]
  exact h.bind hShorter ⟨fun _ => expressionTail_stops hEnd, fun hBad => by cases hBad⟩
    fun _ _ _ hk => expressionTail_short hk

/-- An expression of several terms: the first, then a separator and a term over and over. -/
theorem expression_several {g g' : Bool} {sep : TokenKind} {us : List TokenKind}
    {es : List PathPatternExpr} {f : List PathPatternExpr → PathPatternExpr}
    (h : ReadsOrStops (pathTerm (pathPatternExpressionN n)) g (fun k => pathLevel k = 2) e ts us)
    (hShorter : us.length ≤ ts.length) (hne : es ≠ [])
    (hTerms : LoopsOrStops (nextTerm (pathPatternExpressionN n) sep) g' goesOn es us rest)
    (hTail : expressionTail n e us = (do
      let paths ← repeat1 (nextTerm (pathPatternExpressionN n) sep)
      pure (f paths) : TokenParser PathPatternExpr) us) :
    ReadsOrStops (pathPatternExpressionN (n + 1)) (g && g') goesOn (f es) ts rest := by
  obtain ⟨e', es, rfl⟩ := List.exists_cons_of_ne_nil hne
  have hMore := hTerms.repeat1.map f
  rw [pathPatternExpressionN_succ]
  refine h.bind hShorter ⟨fun hGood => hTail.trans (hMore.reads hGood), fun hBad => ?_⟩
    fun _ _ _ hk => expressionTail_short hk
  obtain hFail | ⟨c, k, vs, hOk, hLe, hk⟩ := hMore.stops hBad
  · exact .inl (hTail.trans hFail)
  · exact .inr ⟨c, k, vs, hTail.trans hOk, hLe, hk⟩

theorem terms_cons {sep : TokenKind} {es : List PathPatternExpr}
    (h : PathDerives (.terms sep es) ts) (hne : es ≠ []) : ∃ us, ts = sep :: us := by
  cases h with
  | termsNil => exact absurd rfl hne
  | termsMore => exact ⟨_, rfl⟩

theorem followsPath_terms {sep : TokenKind} {es : List PathPatternExpr}
    (h : PathDerives (.terms sep es) ts) (hSep : pathLevel sep = 1) (hRest : FollowsPath 0 rest) :
    FollowsPath 1 (ts ++ rest) := by
  refine HeadIn.append ?_ (hRest.mono (by decide))
  obtain rfl | ⟨us, rfl⟩ := pathHead_of_derives h
  · exact headIn_nil _
  · exact headIn_cons.mpr (Nat.le_of_eq hSep)

theorem factors_cons {g : Bool} {te : List TokenKind} {es : List PathPatternExpr}
    (hFactor : PathDerives (.factor e) te) (hReads : PathReads (.factor e) te)
    (hFactors : PathDerives (.factors es) ts) (hn : te.length ≤ n) (hRest : FollowsPath 1 rest)
    (hLoop : LoopsOrStops (pathFactor (pathPatternExpressionN n)) g (fun k => pathLevel k = 2) es
      (ts ++ rest) rest) :
    LoopsOrStops (pathFactor (pathPatternExpressionN n)) (e.supported && g)
      (fun k => pathLevel k = 2) (e :: es) (te ++ (ts ++ rest)) rest := by
  have hFollows : FollowsPath 2 (ts ++ rest) :=
    HeadIn.append (HeadIn.mono (pathHead_of_derives hFactors) fun _ hk => Nat.le_of_eq hk)
      (hRest.mono (by decide))
  have hItem := hReads n (ts ++ rest) hn hFollows
  obtain ⟨k, us, rfl, hk⟩ := pathHead_of_derives hFactor
  refine .cons (reads_of_outcome hItem) ?_ hk hLoop
  simp only [List.append_eq, List.length_append]
  omega

end Phrases

/-- **Every derivation of a path pattern is read as `PathReads` says.** -/
theorem pathReads_of_derives {ph : PathPhrase} (h : PathDerives ph ts) : PathReads ph ts := by
  induction h with
  | @term e ts _ ih =>
    intro n rest hn hRest
    obtain ⟨n, rfl⟩ : ∃ m, n = m + 1 := ⟨n - 1, by omega⟩
    refine expression_single (ih n rest (by omega) (hRest.mono (by decide))) ?_ hRest
    rw [List.length_append]
    omega
  | @alternation e es te ts _ hne hTerms ihe ihs =>
    intro n rest hn hRest
    obtain ⟨n, rfl⟩ : ∃ m, n = m + 1 := ⟨n - 1, by omega⟩
    rw [List.length_append] at hn
    rw [List.append_assoc, PathPatternExpr.supported, allPathsSupported]
    refine expression_several (f := fun paths => .alternation (e :: paths))
      (ihe n (ts ++ rest) (by omega) (followsPath_terms hTerms rfl hRest)) ?_ hne
      (ihs n rest (by omega) rfl hRest) ?_
    · simp only [List.length_append]
      omega
    · obtain ⟨us, rfl⟩ := terms_cons hTerms hne
      rfl
  | @union e es te ts _ hne hTerms ihe ihs =>
    intro n rest hn hRest
    obtain ⟨n, rfl⟩ : ∃ m, n = m + 1 := ⟨n - 1, by omega⟩
    rw [List.length_append] at hn
    rw [List.append_assoc, PathPatternExpr.supported, allPathsSupported]
    refine expression_several (f := fun paths => .union (e :: paths))
      (ihe n (ts ++ rest) (by omega) (followsPath_terms hTerms rfl hRest)) ?_ hne
      (ihs n rest (by omega) rfl hRest) ?_
    · simp only [List.length_append]
      omega
    · obtain ⟨us, rfl⟩ := terms_cons hTerms hne
      rfl
  | @termsNil sep =>
    intro n rest _ hSep hRest
    rw [allPathsSupported]
    refine .done ?_
    have hNone : ∀ k ∈ rest.head?, k ≠ sep := by
      rintro k hk rfl
      have hLevel : pathLevel k ≤ 0 := hRest k hk
      omega
    rw [List.nil_append, nextTerm, bind_apply, expect_of_head hNone]
    rfl
  | @termsMore sep e es te ts _ hTerms ihe ihs =>
    intro n rest hn hSep hRest
    simp only [List.cons_append, List.append_assoc, List.length_cons, List.length_append] at hn ⊢
    rw [allPathsSupported]
    refine .sepCons (expect_self sep _)
      (ihe n (ts ++ rest) (by omega) (followsPath_terms hTerms hSep hRest)) ?_ (.inl hSep)
      (fun k us hk => ⟨expect_ne ?_, .inr hk⟩) (ihs n rest (by omega) hSep hRest)
    · simp only [List.length_append]
      omega
    · rintro rfl
      omega
  | @concat e es te ts hFactor hFactors ihe ihs =>
    intro n rest hn hRest
    rw [List.length_append] at hn
    rw [List.append_assoc, PathPatternExpr.supported, allPathsSupported]
    exact pathTerm_reads (factors_cons hFactor ihe hFactors (by omega) hRest
      (ihs n rest (by omega) hRest))
  | factorsNil =>
    intro n rest _ hRest
    rw [allPathsSupported]
    exact .done (pathFactor_stops (HeadIn.mono hRest fun k (hk : pathLevel k ≤ 1) => by omega))
  | @factorsMore e es te ts hFactor hFactors ihe ihs =>
    intro n rest hn hRest
    rw [List.length_append] at hn
    rw [List.append_assoc, allPathsSupported]
    exact factors_cons hFactor ihe hFactors (by omega) hRest (ihs n rest (by omega) hRest)
  | @primary e ts _ ih =>
    intro n rest hn hRest
    exact pathFactor_plain (ih n rest hn) hRest
  | @quantified e quantifier ts _ ih =>
    intro n rest hn hRest
    rw [List.length_append] at hn
    rw [List.append_assoc, PathPatternExpr.supported]
    exact pathFactor_quantified (ih n _ (by omega))
  | @optional e ts _ ih =>
    intro n rest hn hRest
    rw [List.length_append] at hn
    rw [List.append_assoc, List.singleton_append, PathPatternExpr.supported]
    exact pathFactor_optional (ih n _ (by omega))
  | @pattern element ts hElement =>
    intro n rest hn
    rw [PathPatternExpr.supported]
    exact pathPrimary_element hElement hn
  | @grouped name mode e condition tn tm te tw hName hMode hExpr hWhere ih =>
    intro n rest hn
    simp only [List.cons_append, List.append_assoc, List.nil_append, List.length_cons,
      List.length_append] at hn ⊢
    rw [PathPatternExpr.supported]
    exact pathPrimary_grouped hName hMode (pathHead_of_derives hExpr) ih hWhere (by omega)

/-! ## Path patterns -/

/-- A token that begins a path pattern without a variable. -/
def startsUnnamed (k : TokenKind) : Prop :=
  pathLevel k = 2 ∨ k = .all ∨ k = .any ∨ prefixStage k = 0 ∨ prefixStage k = 2

theorem prefix_head {searchPrefix : PathPatternPrefix} (h : PrefixDerives searchPrefix ts) :
    ∃ k us, ts = k :: us ∧ startsUnnamed k := by
  cases h with
  | @pathMode mode _ hMode =>
    cases hMode with
    | @mk tm tw hWord _ =>
      cases hWord
      refine ⟨_, tw, rfl, .inr (.inr (.inr (.inr ?_)))⟩
      cases mode <;> rfl
  | pathSearch hSearch =>
    cases hSearch with
    | all | allShortest => exact ⟨_, _, rfl, .inr (.inl rfl)⟩
    | any | anyShortest => exact ⟨_, _, rfl, .inr (.inr (.inl rfl))⟩
    | countedShortest | countedShortestGroup =>
      exact ⟨_, _, rfl, .inr (.inr (.inr (.inl rfl)))⟩

/-- A path pattern begins with a variable and an equals sign, or with none of them. -/
theorem pathPattern_head {p : PathPattern} (h : PathPatternDerives p ts) :
    (∃ k name us, regularName k = some name ∧ ts = k :: .equals :: us) ∨
      ∃ k us, ts = k :: us ∧ startsUnnamed k := by
  cases h with
  | @mk name searchPrefix e tn tp te hName hPrefix hExpr =>
    cases hName with
    | present hDeclaration =>
      cases hDeclaration with
      | mk hk => exact .inl ⟨_, _, _, hk, rfl⟩
    | absent =>
      cases hPrefix with
      | present hPrefix =>
        obtain ⟨k, us, rfl, hk⟩ := prefix_head hPrefix
        exact .inr ⟨k, _, rfl, hk⟩
      | absent =>
        obtain ⟨k, us, rfl, hk⟩ := pathHead_of_derives hExpr
        exact .inr ⟨k, us, rfl, .inl hk⟩

/-- The words of a counted search are followed by no equals sign. -/
theorem countedTail_head {number : Option NonNegativeInteger} {mode : Option PathMode}
    {tn tm tw : List TokenKind} (hNumber : Optionally NumberDerives number tn)
    (hMode : Optionally ModeDerives mode tm) (hWords : PathWords tw)
    (hRest : HeadIn (fun k => k ≠ .equals) rest) :
    HeadIn (fun k => k ≠ .equals) (tn ++ (tm ++ (tw ++ rest))) := by
  refine (hNumber.headIn fun n us hn => ?_).append ((hMode.headIn fun m us hm => ?_).append
    (HeadIn.append ?_ hRest))
  · cases hn with
    | @integer n =>
      obtain ⟨kind, digits⟩ := n
      cases kind <;> exact headIn_cons.mpr nofun
    | parameter _ => exact headIn_cons.mpr nofun
  · cases hm
    exact headIn_cons.mpr nofun
  · cases hWords with
    | none => exact headIn_nil _
    | path => exact headIn_cons.mpr nofun
    | paths => exact headIn_cons.mpr nofun

theorem declaration_of_prefix {searchPrefix : PathPatternPrefix}
    (h : PrefixDerives searchPrefix ts) (hHead : HeadIn (fun k => pathLevel k = 2) rest) :
    pathVariableDeclaration (ts ++ rest) = .backtrack := by
  have hEquals : HeadIn (fun k => k ≠ .equals) rest :=
    hHead.mono fun _ hk => (facts_of_level hk).2.1
  cases h with
  | pathMode hMode => exact modePrefix_facts hMode hHead
  | pathSearch hSearch =>
    cases hSearch with
    | all | allShortest | any | anyShortest => rfl
    | countedShortest hNumber hMode hWords =>
      simp only [List.cons_append, List.append_assoc]
      exact declaration_stops_name (countedTail_head (.present hNumber) hMode hWords hEquals)
    | countedShortestGroup hNumber hMode hWords hGroup =>
      simp only [List.cons_append, List.append_assoc, List.nil_append]
      refine declaration_stops_name (countedTail_head hNumber hMode hWords ?_)
      cases hGroup <;> exact headIn_cons.mpr nofun

theorem pathPatternExpression_reads {e : PathPatternExpr} (h : PathDerives (.expr e) ts)
    (hRest : FollowsPath 0 rest) :
    ReadsOrStops pathPatternExpression e.supported goesOn e (ts ++ rest) rest := by
  have hBound : ts.length < (ts ++ rest).length + 1 := by
    rw [List.length_append]
    omega
  have hRun := pathReads_of_derives h ((ts ++ rest).length + 1) rest hBound hRest
  have hEq : pathPatternExpression (ts ++ rest) =
      pathPatternExpressionN ((ts ++ rest).length + 1) (ts ++ rest) := by
    rw [pathPatternExpression]
  refine ⟨fun hOk => ?_, fun hOk => ?_⟩
  · rw [hEq]
    exact hRun.reads hOk
  · unfold StopsShort
    rw [hEq]
    exact hRun.stops hOk

/-- **A written path pattern is read back** unless a value expression in it is not supported or
its prefix is `ANY`. -/
theorem pathPattern_reads {p : PathPattern} (h : PathPatternDerives p ts)
    (hRest : FollowsPath 0 rest) :
    ReadsOrStops pathPattern p.supported goesOn p (ts ++ rest) rest := by
  cases h with
  | @mk name searchPrefix e tn tp te hName hPrefix hExpr =>
    have hHead : HeadIn (fun k => pathLevel k = 2) (te ++ rest) := by
      obtain ⟨k, us, rfl, hk⟩ := pathHead_of_derives hExpr
      exact headIn_cons.mpr hk
    have hReadName : opt pathVariableDeclaration (tn ++ (tp ++ (te ++ rest))) =
        .ok name (tp ++ (te ++ rest)) := by
      refine opt_reads hName (fun _ _ => declaration_reads) ?_
      cases hPrefix with
      | absent => exact declaration_stops (hHead.mono fun _ hk => (facts_of_level hk).1)
      | present hPrefix => exact declaration_of_prefix hPrefix hHead
    have hStage : HeadIn (fun k => 5 ≤ prefixStage k) (te ++ rest) :=
      hHead.mono fun k hk => by rw [(facts_of_level hk).2.2.1]
    have hRun : pathPattern (tn ++ tp ++ te ++ rest) =
        (do
          let s ← opt pathPatternPrefix
          let e ← pathPatternExpression
          pure ⟨name, s, e⟩ : TokenParser PathPattern) (tp ++ (te ++ rest)) := by
      rw [List.append_assoc, List.append_assoc, pathPattern, bind_apply, hReadName]
      rfl
    cases hGood : searchPrefix.all PathPatternPrefix.supported with
    | true =>
      have hReadPrefix : opt pathPatternPrefix (tp ++ (te ++ rest)) =
          .ok searchPrefix (te ++ rest) := by
        cases hPrefix with
        | absent =>
          obtain ⟨k, us, rfl, hk⟩ := pathHead_of_derives hExpr
          exact opt_of_backtrack (pathPatternPrefix_stops (pathLevel_two.mp hk))
        | present hPrefix => exact opt_of_ok (pathPatternPrefix_reads hPrefix hGood hStage)
      have hExprRead := (pathPatternExpression_reads hExpr hRest).map
        fun e => (⟨name, searchPrefix, e⟩ : PathPattern)
      have hTail : pathPattern (tn ++ tp ++ te ++ rest) =
          (do
            let e ← pathPatternExpression
            pure ⟨name, searchPrefix, e⟩ : TokenParser PathPattern) (te ++ rest) := by
        rw [hRun, bind_apply, hReadPrefix]
        rfl
      rw [PathPattern.supported, hGood, Bool.true_and]
      refine ⟨fun h => hTail.trans (hExprRead.reads h), fun h => ?_⟩
      obtain hFail | ⟨c, k, us, hOk, hLe, hk⟩ := hExprRead.stops h
      · exact .inl (hTail.trans hFail)
      · refine .inr ⟨c, k, us, hTail.trans hOk, ?_, hk⟩
        simp only [List.length_append] at hLe ⊢
        omega
    | false =>
      -- the prefix is `ANY`, and the expression is looked for at that word
      rw [PathPattern.supported, hGood, Bool.false_and]
      refine ⟨fun h => Bool.noConfusion h, fun _ => .inl ?_⟩
      cases hPrefix with
      | absent => cases hGood
      | present hPrefix =>
        obtain ⟨us, hTokens, hAny⟩ := pathPatternPrefix_any hPrefix hGood hStage
        rw [hRun, bind_apply, opt_of_ok hAny]
        rfl

end MiniGU.Parsing
