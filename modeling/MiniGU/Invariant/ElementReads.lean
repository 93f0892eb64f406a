import MiniGU.Invariant.LabelReads
import MiniGU.Invariant.ValueDerivations
import MiniGU.Model.PatternGrammar

/-!
# What the parser does with a written element pattern

A node or edge pattern is read back when every value expression in it is supported, and fails
otherwise, whatever follows. A filler whose predicate fails is read without it, and the closing
bracket is then missed.
-/

namespace MiniGU.Parsing

variable {α β : Type} {ts rest : List TokenKind}

theorem outcome_of_reads {p : TokenParser α} {good : Bool} {a : α}
    (h : ReadsOrStops p good NoToken a ts rest) : p ts = outcome good a rest := by
  cases hGood : good with
  | true => exact h.reads hGood
  | false => exact (h.stops hGood).fails

theorem reads_of_outcome {p : TokenParser α} {good : Bool} {S : TokenKind → Prop} {a : α}
    (h : p ts = outcome good a rest) : ReadsOrStops p good S a ts rest where
  reads hGood := by rw [h, hGood, outcome_true]
  stops hBad := .inl (by rw [h, hBad, outcome_false])

/-- What a closing token makes of a reading that stops at other tokens. -/
theorem closed_reads {p : TokenParser α} {f : α → β} {close : TokenKind} {good : Bool}
    {S : TokenKind → Prop} {a : α} (h : ReadsOrStops p good S a ts (close :: rest))
    (hClose : ¬ S close) :
    (do let a ← p; expect close; pure (f a) : TokenParser β) ts = outcome good (f a) rest := by
  cases hGood : good with
  | true =>
    rw [bind_apply, h.reads hGood, andThen_ok, bind_apply, expect_self]
    rfl
  | false =>
    refine (StopsShort.bind (h.stops hGood) fun b k us hk => .inl ?_).fails
    have hne : k ≠ close := fun hEq => hClose (hEq ▸ hk)
    rw [bind_apply, expect_ne hne]
    rfl

theorem expectWord_stops {word : NonReservedWord}
    (h : HeadIn (fun k => ∀ s, k ≠ .nonReserved word s) ts) : expectWord word ts = .backtrack := by
  refine satisfy_of_head (h.mono fun k hk => ?_)
  split
  · rename_i w s
    exact beq_eq_false_iff_ne.mpr fun hEq => hk s (hEq ▸ rfl)
  · rfl

/-! ## The parts of a filler -/

/-- Which part of a filler a token begins: the variable, the label, the predicate, or what
comes after them. -/
def fillerStage : TokenKind → Nat
  | .regularIdentifier _ | .nonReserved _ _ => 1
  | .is | .colon => 2
  | .where | .leftBrace => 3
  | _ => 4

theorem regularName_of_stage {k : TokenKind} (h : 2 ≤ fillerStage k) : regularName k = none := by
  unfold regularName
  split
  · exact absurd h (show ¬ 2 ≤ 1 by decide)
  · exact absurd h (show ¬ 2 ≤ 1 by decide)
  · rfl

theorem regularIdentifier_stops (h : HeadIn (fun k => 2 ≤ fillerStage k) ts) :
    regularIdentifier ts = .backtrack :=
  verifyMap_of_head (h.mono fun _ hk => regularName_of_stage hk)

theorem isLabelExpression_stops (h : HeadIn (fun k => 3 ≤ fillerStage k) ts) :
    isLabelExpression ts = .backtrack := by
  have hStop : isOrColon ts = .backtrack := satisfy_of_head <| h.mono fun k hk => by
    split
    · exact absurd hk (by decide)
    · exact absurd hk (by decide)
    · rfl
  rw [isLabelExpression, bind_apply, hStop]
  rfl

theorem elementPatternPredicate_stops (h : HeadIn (fun k => 4 ≤ fillerStage k) ts) :
    elementPatternPredicate ts = .backtrack := by
  cases ts with
  | nil => rfl
  | cons k ts =>
    have hk : 4 ≤ fillerStage k := h k rfl
    rw [elementPatternPredicate, peekAny_cons]
    split
    · exact absurd hk (by decide)
    · exact absurd hk (by decide)
    · rfl

theorem isLabel_head {e : LabelExpr} (h : IsLabelDerives e ts) :
    HeadIn (fun k => 2 ≤ fillerStage k) ts := by
  cases h <;> exact headIn_cons.mpr (Nat.le_refl 2)

theorem predicate_head {p : ElementPatternPredicate} (h : PredicateDerives p ts) :
    ∃ k us, ts = k :: us ∧ fillerStage k = 3 := by
  cases h with
  | «where» hWhere => cases hWhere; exact ⟨_, _, rfl, rfl⟩
  | property _ => exact ⟨_, _, rfl, rfl⟩

theorem isLabelExpression_reads {e : LabelExpr} (h : IsLabelDerives e ts)
    (hEnds : HeadIn (fun k => labelPower k = none) rest) :
    isLabelExpression (ts ++ rest) = .ok e rest := by
  cases h with
  | is hLabel => exact labelExpression_of_derives hLabel (Int.le_refl 0) hEnds
  | colon hLabel => exact labelExpression_of_derives hLabel (Int.le_refl 0) hEnds

/-! ## Predicates -/

theorem where_reads {e : Expr} (h : WhereDerives e ts) (hEnds : Ends rest) :
    graphPatternWhereClause (ts ++ rest) = outcome e.supported e rest := by
  cases h with
  | mk hValue =>
    rw [graphPatternWhereClause, List.cons_append, bind_apply, expect_self, andThen_ok]
    exact valueExpression_of_derives hValue (Int.le_refl 0) hEnds

theorem propertyKeyValuePair_reads {k : TokenKind} {name : Ident} {e : Expr}
    (hName : identifierName k = some name) (h : Derives .gql (.expr 0 e) ts)
    (hEnds : Ends rest) :
    propertyKeyValuePair (k :: .colon :: ts ++ rest) = outcome e.supported (name, e) rest := by
  have hValue := valueExpression_of_derives h (Int.le_refl 0) hEnds
  have hKey : propertyName (k :: .colon :: (ts ++ rest)) = .ok name (.colon :: (ts ++ rest)) :=
    identifier_reads hName
  rw [propertyKeyValuePair, List.cons_append, List.cons_append, bind_apply, hKey, andThen_ok,
    bind_apply, expect_self, andThen_ok, bind_apply, hValue]
  cases e.supported <;> rfl

theorem ends_rightBrace (us : List TokenKind) : Ends (.rightBrace :: us) :=
  ends_cons ⟨nofun, nofun, rfl⟩

/-- The loop over the properties after the first stops before the comma of the one that
fails. -/
theorem morePairs_read {fs : List (Ident × Expr)} {us : List TokenKind} :
    ∀ {ts : List TokenKind}, Derives .gql (.fields fs) ts →
      LoopsOrStops (do expect .comma; propertyKeyValuePair)
        (fs.all fun f => f.2.supported) (· = .comma) fs
        (.comma :: ts ++ .rightBrace :: us) (.rightBrace :: us) := by
  induction fs with
  | nil => intro ts h; cases h
  | cons f fs ih =>
    intro ts h
    rw [List.all_cons]
    cases h with
    | @fieldsOne k name e ts hName hValue =>
      refine .sepCons (S := NoToken) (expect_self _ _) (reads_of_outcome
        (propertyKeyValuePair_reads hName hValue (ends_rightBrace us))) ?_ rfl
        (fun _ _ h => h.elim) (.done rfl)
      simp only [List.append_eq, List.cons_append, List.length_cons, List.length_append]
      omega
    | @fieldsMore k name e _ te ts hName hValue hMore =>
      rw [show TokenKind.comma :: (k :: .colon :: te ++ .comma :: ts) ++ .rightBrace :: us =
        .comma :: (k :: .colon :: te ++ (.comma :: ts ++ .rightBrace :: us)) by
          simp only [List.cons_append, List.append_assoc]]
      refine .sepCons (S := NoToken) (expect_self _ _) (reads_of_outcome
        (propertyKeyValuePair_reads hName hValue ends_comma)) ?_ rfl
        (fun _ _ h => h.elim) (ih hMore)
      simp only [List.cons_append, List.length_cons, List.length_append]
      omega

theorem elementProperty_reads {fs : List (Ident × Expr)} (h : Derives .gql (.fields fs) ts) :
    elementPropertySpecification (.leftBrace :: ts ++ .rightBrace :: rest) =
      outcome (fs.all fun f => f.2.supported) fs rest := by
  have hPairs : ReadsOrStops (separated1 propertyKeyValuePair (expect .comma))
      (fs.all fun f => f.2.supported) (· = .comma) fs (ts ++ .rightBrace :: rest)
      (.rightBrace :: rest) := by
    cases h with
    | @fieldsOne k name e ts hName hValue =>
      refine .separated1 (S := NoToken) (reads_of_outcome
        (propertyKeyValuePair_reads hName hValue (ends_rightBrace rest))) ?_
        (fun _ _ h => h.elim) (.done rfl)
      simp only [List.cons_append, List.length_cons, List.length_append]
      omega
    | @fieldsMore k name e fs te ts hName hValue hMore =>
      rw [show k :: TokenKind.colon :: te ++ .comma :: ts ++ .rightBrace :: rest =
        k :: .colon :: te ++ (.comma :: ts ++ .rightBrace :: rest) by
          simp only [List.cons_append, List.append_assoc]]
      refine .separated1 (S := NoToken) (reads_of_outcome
        (propertyKeyValuePair_reads hName hValue ends_comma)) ?_
        (fun _ _ h => h.elim) (morePairs_read hMore)
      simp only [List.cons_append, List.length_cons, List.length_append]
      omega
  rw [elementPropertySpecification, List.cons_append, bind_apply, expect_self, andThen_ok]
  exact closed_reads hPairs nofun

theorem elementPatternPredicate_reads {p : ElementPatternPredicate} (h : PredicateDerives p ts)
    (hEnds : Ends rest) :
    elementPatternPredicate (ts ++ rest) = outcome p.supported p rest := by
  cases h with
  | @«where» e _ hWhere =>
    have hRun : elementPatternPredicate (ts ++ rest) =
        (graphPatternWhereClause (ts ++ rest)).andThen fun e r => .ok (.where e) r := by
      cases hWhere with
      | mk =>
        rw [graphPatternWhereClause, List.cons_append, bind_apply, expect_self]
        rfl
    rw [hRun, where_reads hWhere hEnds, ElementPatternPredicate.supported]
    cases e.supported <;> rfl
  | @property fs us hFields =>
    have hRun : elementPatternPredicate (.leftBrace :: us ++ .rightBrace :: rest) =
        (elementPropertySpecification (.leftBrace :: us ++ .rightBrace :: rest)).andThen
          fun fs r => .ok (.property fs) r := rfl
    rw [List.append_assoc, List.singleton_append, hRun, elementProperty_reads hFields,
      ElementPatternPredicate.supported]
    cases fs.all fun f => f.2.supported <;> rfl

/-! ## Fillers and elements -/

/-- A token that may close a filler. -/
def closesFiller : TokenKind → Bool
  | .rightParen | .rightBracketMinus | .rightBracketTilde | .bracketRightArrow
  | .bracketTildeRightArrow => true
  | _ => false

theorem closesFiller_stage {k : TokenKind} (h : closesFiller k = true) : fillerStage k = 4 := by
  unfold closesFiller at h
  split at h <;> first | rfl | cases h

theorem closesFiller_ends {k : TokenKind} (h : closesFiller k = true) (us : List TokenKind) :
    Ends (k :: us) := by
  unfold closesFiller at h
  split at h <;> first | exact ends_cons ⟨nofun, nofun, rfl⟩ | cases h

/-- What begins with a label, a predicate or a closing token goes on with no label operator. -/
theorem labelPower_of_stage {k : TokenKind} (h : fillerStage k = 3 ∨ closesFiller k = true) :
    labelPower k = none := by
  unfold labelPower
  split
  · exact absurd h (by decide)
  · exact absurd h (by decide)
  · rfl

/-- **A filler is told apart by first tokens**: the variable, the label and the predicate are
found when they are there; a predicate that fails is left unread. -/
theorem elementPatternFiller_reads {filler : ElementPatternFiller} {close : TokenKind}
    (h : FillerDerives filler ts) (hClose : closesFiller close = true) :
    ReadsOrStops elementPatternFiller filler.supported (fun k => fillerStage k = 3) filler
      (ts ++ close :: rest) (close :: rest) := by
  cases h with
  | @mk name label predicate tn tl tp hName hLabel hPredicate =>
    have hStage := closesFiller_stage hClose
    -- what follows each part begins a later one
    have hAfterLabel : HeadIn (fun k => fillerStage k = 3 ∨ closesFiller k = true)
        (tp ++ close :: rest) := by
      refine (hPredicate.headIn fun p us hp => ?_).append (headIn_cons.mpr (.inr hClose))
      obtain ⟨k, vs, rfl, hk⟩ := predicate_head hp
      exact headIn_cons.mpr (.inl hk)
    have hPredicateStage : HeadIn (fun k => 3 ≤ fillerStage k) (tp ++ close :: rest) :=
      hAfterLabel.mono fun k hk => by
        obtain hk | hk := hk
        · omega
        · rw [closesFiller_stage hk]; decide
    have hLabelStage : HeadIn (fun k => 2 ≤ fillerStage k) (tl ++ (tp ++ close :: rest)) :=
      (hLabel.headIn fun _ _ => isLabel_head).append
        (hPredicateStage.mono fun _ hk => Nat.le_of_succ_le hk)
    have hReadName : opt elementVariableDeclaration (tn ++ (tl ++ (tp ++ close :: rest))) =
        .ok name (tl ++ (tp ++ close :: rest)) := by
      refine opt_reads hName (fun a us ha => ?_) (regularIdentifier_stops hLabelStage)
      cases ha with
      | mk hk => exact regularIdentifier_reads hk
    have hReadLabel : opt isLabelExpression (tl ++ (tp ++ close :: rest)) =
        .ok label (tp ++ close :: rest) :=
      opt_reads hLabel
        (fun e us he => isLabelExpression_reads he (hAfterLabel.mono fun _ => labelPower_of_stage))
        (isLabelExpression_stops hPredicateStage)
    have hRun : elementPatternFiller (tn ++ tl ++ tp ++ close :: rest) =
        (opt elementPatternPredicate (tp ++ close :: rest)).andThen
          fun p r => .ok ⟨name, label, p⟩ r := by
      rw [List.append_assoc, List.append_assoc, elementPatternFiller, bind_apply, hReadName,
        andThen_ok, bind_apply, hReadLabel]
      rfl
    cases hPredicate with
    | absent =>
      have hNone : opt elementPatternPredicate (close :: rest) = .ok none (close :: rest) :=
        opt_of_backtrack (elementPatternPredicate_stops (headIn_cons.mpr (Nat.le_of_eq hStage.symm)))
      refine ⟨fun _ => ?_, fun hBad => Bool.noConfusion (show true = false from hBad)⟩
      rw [hRun, List.nil_append, hNone]
      rfl
    | @present p _ hp =>
      have hValue := elementPatternPredicate_reads hp (closesFiller_ends hClose rest)
      constructor
      · intro (hGood : p.supported = true)
        rw [hGood, outcome_true] at hValue
        rw [hRun, opt_of_ok hValue]
        rfl
      · intro (hBad : p.supported = false)
        rw [hBad, outcome_false] at hValue
        obtain ⟨k, us, rfl, hk⟩ := predicate_head hp
        refine .inr ⟨⟨name, label, none⟩, k, us ++ close :: rest, ?_, ?_, hk⟩
        · rw [hRun, opt_of_backtrack hValue]
          rfl
        · simp only [List.length_append, List.length_cons]
          omega

theorem closesFiller_bracket (kind : EdgePatternKind) :
    closesFiller (edgeBrackets kind).2 = true := by
  cases kind <;> rfl

theorem fullEdgeKind_brackets (kind : EdgePatternKind) :
    fullEdgeKind (edgeBrackets kind).1 (edgeBrackets kind).2 = some kind := by
  cases kind <;> rfl

theorem fullEdgeKind_none (left : TokenKind) {right : TokenKind}
    (h : fillerStage right = 3) : fullEdgeKind left right = none := by
  cases right <;> first | (simp [fillerStage] at h; done) | (cases left <;> rfl)

theorem fullEdgePattern_reads {kind : EdgePatternKind} {filler : ElementPatternFiller}
    (h : FillerDerives filler ts) :
    fullEdgePattern ((edgeBrackets kind).1 :: ts ++ (edgeBrackets kind).2 :: rest) =
      outcome filler.supported (.edge kind filler) rest := by
  have hFiller : ReadsOrStops elementPatternFiller filler.supported (fun k => fillerStage k = 3)
      filler (ts ++ (edgeBrackets kind).2 :: rest) ((edgeBrackets kind).2 :: rest) :=
    elementPatternFiller_reads h (closesFiller_bracket kind)
  rw [fullEdgePattern, List.cons_append, bind_apply, any_cons, andThen_ok]
  cases hGood : filler.supported with
  | true =>
    rw [bind_apply, hFiller.reads hGood, andThen_ok, bind_apply, any_cons, andThen_ok,
      fullEdgeKind_brackets]
    rfl
  | false =>
    refine (StopsShort.bind (hFiller.stops hGood) fun f k us hk => .inl ?_).fails
    rw [bind_apply, any_cons, andThen_ok, fullEdgeKind_none _ hk]
    rfl

/-- **A written element pattern is read back**, or fails when a value expression in it is not
supported. -/
theorem elementPattern_reads {element : ElementPattern} (h : ElementDerives element ts) :
    elementPattern (ts ++ rest) = outcome element.supported element rest := by
  cases h with
  | @node filler us hFiller =>
    have hRun : ∀ vs, elementPattern (.leftParen :: vs) =
        (do let f ← elementPatternFiller; expect .rightParen; pure (ElementPattern.node f) :
          TokenParser ElementPattern) vs := by
      intro vs
      show nodePattern (.leftParen :: vs) = _
      rw [nodePattern, bind_apply, expect_self]
      rfl
    rw [List.append_assoc, List.cons_append, List.singleton_append, hRun]
    exact closed_reads (elementPatternFiller_reads hFiller rfl) (by decide)
  | @fullEdge kind filler us hFiller =>
    have hRun : ∀ vs, elementPattern ((edgeBrackets kind).1 :: vs) =
        fullEdgePattern ((edgeBrackets kind).1 :: vs) := by
      intro vs
      cases kind <;> rfl
    rw [List.append_assoc, List.cons_append, hRun]
    exact fullEdgePattern_reads hFiller
  | @abbreviatedEdge kind => cases kind <;> rfl

end MiniGU.Parsing
