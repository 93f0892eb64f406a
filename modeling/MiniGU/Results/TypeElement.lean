import MiniGU.Invariant.TypeTaken

/-!
# Graph element types that come back

The parser of element types accepts exactly the token sequences of the grammar in which no property
has a float type and no name, alias or `TYPE` is left out before a token that could be one. For
every form the parser is shown to read what the grammar writes (`WrittenElement`); that it takes
nothing else is `takes_elementType`.
-/

namespace MiniGU.Parsing

variable {ts us rest : List TokenKind}

-- ----
-- Words and names
-- ----

theorem nodeSynonym_reads {k : TokenKind} (h : NodeWord k) : nodeSynonym (k :: ts) = .ok () ts := by
  cases h <;> rfl

theorem edgeSynonym_reads {k : TokenKind} (h : EdgeWord k) : edgeSynonym (k :: ts) = .ok () ts := by
  cases h <;> rfl

theorem typeKeyword_reads {tw : List TokenKind} (h : TypeKeyword True us tw) (hSome : us ≠ []) :
    ∃ o, opt (expectWord .type) (tw ++ rest) = .ok o (us ++ rest) := by
  cases h with
  | present => exact ⟨some (), rfl⟩
  | absent hLook =>
    refine ⟨none, opt_of_backtrack ?_⟩
    cases us with
    | nil => exact absurd rfl hSome
    | cons k us =>
      exact expectWord_stops (headIn_cons.mpr (headIn_cons.mp (hLook trivial)))

/-- A token that begins a filler. -/
def startsFiller (k : TokenKind) : Prop :=
  startsLabels k = true ∨ ImpliesWord k ∨ k = .leftBrace

theorem filler_head {filler : NodeOrEdgeTypeFiller} (h : TypeFillerDerives filler ts) :
    ∃ k us, ts = k :: us ∧ startsFiller k := by
  cases h with
  | @keyed key labelSet ps k tk tl tp hKey hk =>
    cases hKey with
    | absent => exact ⟨k, _, rfl, .inr (.inl hk)⟩
    | present hKey =>
      obtain ⟨k', us, rfl, hk'⟩ := labelPhrase_head hKey
      exact ⟨k', _, rfl, .inl hk'⟩
  | labeled hLabels =>
    obtain ⟨k', us, rfl, hk'⟩ := labelPhrase_head hLabels
    exact ⟨k', _, rfl, .inl hk'⟩
  | propertied hProps =>
    obtain ⟨us, rfl⟩ := propertyTypes_head hProps
    exact ⟨_, _, rfl, .inr (.inr rfl)⟩

theorem startsFiller_ne {k : TokenKind} (h : startsFiller k) : k ≠ .leftParen ∧ k ≠ .rightParen := by
  obtain h | h | rfl := h
  · constructor <;> rintro rfl <;> cases h
  · constructor <;> rintro rfl <;> cases h
  · exact ⟨nofun, nofun⟩

theorem identifier_of_unnamed {filler : NodeOrEdgeTypeFiller} (h : TypeFillerDerives filler ts)
    (hNone : Unnamed ts) : identifier (ts ++ rest) = .backtrack := by
  obtain ⟨k, us, rfl, hk⟩ := filler_head h
  have hName : regularName k = none := hNone k rfl
  obtain hk | hk | rfl := hk
  · unfold startsLabels at hk
    split at hk <;> first | rfl | cases hName | cases hk
  · cases hk <;> rfl
  · rfl

theorem regularIdentifier_of_unnamed {filler : NodeOrEdgeTypeFiller}
    (h : TypeFillerDerives filler ts) (hNone : Unnamed ts) :
    regularIdentifier (ts ++ rest) = .backtrack := by
  obtain ⟨k, us, rfl, -⟩ := filler_head h
  exact verifyMap_cons_none (hNone k rfl)

theorem optFiller_reads {filler : Option NodeOrEdgeTypeFiller}
    (h : Optionally TypeFillerDerives filler ts)
    (hGood : filler.all NodeOrEdgeTypeFiller.supported = true) (hRest : FollowsFiller rest) :
    opt nodeTypeFiller (ts ++ rest) = .ok filler rest := by
  cases h with
  | absent => exact opt_of_backtrack (nodeTypeFiller_stops hRest)
  | present h => exact opt_of_ok ((nodeTypeFiller_reads h hRest).reads hGood)

theorem optFiller_head {filler : Option NodeOrEdgeTypeFiller}
    (h : Optionally TypeFillerDerives filler ts)
    (hRest : HeadIn (fun k => k ≠ .leftParen) rest) :
    HeadIn (fun k => k ≠ .leftParen) (ts ++ rest) := by
  refine (h.headIn fun f us hf => ?_).append hRest
  obtain ⟨k, vs, rfl, hk⟩ := filler_head hf
  exact headIn_cons.mpr (startsFiller_ne hk).1

-- ----
-- References and phrase fillers
-- ----

theorem ref_reads {ref : NodeTypeRef} (h : WrittenRef ref ts) :
    nodeTypeReference (ts ++ rest) = .ok ref rest := by
  obtain ⟨hRef, hGood⟩ := h
  cases hRef with
  | @byAlias k name hk =>
    have hAlias : (do let ident ← nodeTypeAlias; pure (.byAlias ident) : TokenParser NodeTypeRef)
        (k :: .rightParen :: rest) = .ok (.byAlias name) (.rightParen :: rest) := by
      rw [bind_apply, nodeTypeAlias, regularIdentifier_reads hk]
      rfl
    show (orElse _ _ (k :: .rightParen :: rest)).andThen _ = _
    rw [orElse_of_ok hAlias]
    rfl
  | @filler f tf hFiller hNone =>
    have hAlias : (do let ident ← nodeTypeAlias; pure (.byAlias ident) : TokenParser NodeTypeRef)
        (tf ++ .rightParen :: rest) = .backtrack := by
      rw [bind_apply, nodeTypeAlias, regularIdentifier_of_unnamed hFiller (hNone trivial)]
      rfl
    have hRead : opt nodeTypeFiller (tf ++ .rightParen :: rest) = .ok (some f) (.rightParen :: rest) :=
      optFiller_reads (.present hFiller) hGood (headIn_cons.mpr rfl)
    rw [List.cons_append, List.append_assoc, List.singleton_append]
    show (orElse _ _ (tf ++ .rightParen :: rest)).andThen _ = _
    rw [orElse_of_backtrack hAlias, bind_apply, hRead]
    rfl
  | empty => rfl

theorem phraseFiller_reads {c : Option Ident × Option NodeOrEdgeTypeFiller}
    (h : WrittenPhrase c ts) (hRest : FollowsFiller rest) :
    nodeTypePhraseFiller (ts ++ rest) = .ok c rest := by
  obtain ⟨name, filler⟩ := c
  obtain ⟨hPhrase, hGood⟩ := h
  cases hPhrase with
  | @named k name filler tf hk hFiller =>
    have hName : opt nodeTypeName (k :: (tf ++ rest)) = .ok (some name) (tf ++ rest) :=
      opt_of_ok (identifier_reads hk)
    rw [nodeTypePhraseFiller, List.cons_append, bind_apply, hName]
    show (opt nodeTypeFiller (tf ++ rest)).andThen _ = _
    rw [optFiller_reads hFiller hGood hRest]
    rfl
  | unnamed hFiller hNone =>
    have hName : opt nodeTypeName (ts ++ rest) = .ok none (ts ++ rest) :=
      opt_of_backtrack (identifier_of_unnamed hFiller (hNone trivial))
    rw [nodeTypePhraseFiller, bind_apply, hName]
    show (nodeTypeFiller (ts ++ rest)).andThen _ = _
    rw [(nodeTypeFiller_reads hFiller hRest).reads hGood]
    rfl

theorem phrase_ne_nil {greedy : Prop} {name : Option Ident} {filler : Option NodeOrEdgeTypeFiller}
    (h : PhraseFillerDerives greedy name filler ts) : ts ≠ [] := by
  cases h with
  | named => exact List.cons_ne_nil _ _
  | unnamed hFiller =>
    obtain ⟨k, us, rfl, -⟩ := filler_head hFiller
    exact List.cons_ne_nil _ _

/-- What a phrase filler begins with is a name before no parenthesis, or no name. -/
theorem phrase_identifier {name : Option Ident} {filler : Option NodeOrEdgeTypeFiller}
    (h : PhraseFillerDerives True name filler ts) (hRest : HeadIn (fun k => k ≠ .leftParen) rest) :
    identifier (ts ++ rest) = .backtrack ∨ ∃ n us, identifier (ts ++ rest) = .ok n us ∧
      HeadIn (fun k => k ≠ .leftParen) us := by
  cases h with
  | named hk hFiller => exact .inr ⟨_, _, identifier_reads hk, optFiller_head hFiller hRest⟩
  | unnamed hFiller hNone => exact .inl (identifier_of_unnamed hFiller (hNone trivial))

-- ----
-- Node types
-- ----

/-- The name before the pattern of a node type. -/
def nodeNamePrefix : TokenParser Ident := do
  nodeSynonym
  let _ ← opt (expectWord .type)
  nodeTypeName

/-- The pattern of a node type after its name. -/
def nodeTypeBody (name : Option Ident) : TokenParser NodeType := do
  expect .leftParen
  let localAlias ← opt localNodeTypeAlias
  let filler ← opt nodeTypeFiller
  expect .rightParen
  pure ⟨name, localAlias, filler⟩

theorem nodeTypePattern_apply (ts : List TokenKind) :
    nodeTypePattern ts = (opt nodeNamePrefix ts).andThen nodeTypeBody := rfl

theorem nodeName_reads {name : Option Ident} {tn : List TokenKind}
    (h : Optionally (NodeNameDerives True) name tn) :
    opt nodeNamePrefix (tn ++ .leftParen :: us) = .ok name (.leftParen :: us) := by
  cases h with
  | absent => rfl
  | present h =>
    cases h with
    | @mk k n name tn hk hn hType =>
      obtain ⟨o, hKeyword⟩ : ∃ o, opt (expectWord .type) (tn ++ .leftParen :: us) =
          .ok o (n :: .leftParen :: us) := typeKeyword_reads hType (List.cons_ne_nil _ _)
      refine opt_of_ok ?_
      rw [nodeNamePrefix, List.cons_append, bind_apply, nodeSynonym_reads hk, andThen_ok,
        bind_apply, hKeyword]
      exact identifier_reads hn

theorem nodeTypePattern_reads {name localAlias : Option Ident}
    {filler : Option NodeOrEdgeTypeFiller} {tn ta tf : List TokenKind}
    (hName : Optionally (NodeNameDerives True) name tn)
    (hAlias : Optionally VariableDerives localAlias ta)
    (hFiller : Optionally TypeFillerDerives filler tf)
    (hNone : localAlias = none → Unnamed tf)
    (hGood : filler.all NodeOrEdgeTypeFiller.supported = true) :
    nodeTypePattern (tn ++ (.leftParen :: (ta ++ (tf ++ [.rightParen])))) =
      .ok ⟨name, localAlias, filler⟩ [] := by
  have hReadFiller : opt nodeTypeFiller (tf ++ [.rightParen]) = .ok filler [.rightParen] :=
    optFiller_reads hFiller hGood (headIn_cons.mpr rfl)
  have hReadAlias : opt localNodeTypeAlias (ta ++ (tf ++ [.rightParen])) =
      .ok localAlias (tf ++ [.rightParen]) := by
    cases hAlias with
    | present hAlias =>
      cases hAlias with
      | mk hk => exact opt_of_ok (regularIdentifier_reads hk)
    | absent =>
      refine opt_of_backtrack ?_
      cases hFiller with
      | absent => rfl
      | present hFiller =>
        have hStop : regularIdentifier (tf ++ [.rightParen]) = .backtrack :=
          regularIdentifier_of_unnamed hFiller (hNone rfl)
        exact hStop
  rw [nodeTypePattern_apply, nodeName_reads hName, andThen_ok, nodeTypeBody, bind_apply,
    expect_self, andThen_ok, bind_apply, hReadAlias, andThen_ok, bind_apply, hReadFiller]
  rfl

theorem asAlias_head {localAlias : Option Ident} (h : Optionally AsAliasDerives localAlias ts) :
    FollowsFiller ts ∧ HeadIn (fun k => k ≠ .leftParen) ts := by
  cases h with
  | absent => exact ⟨headIn_nil _, headIn_nil _⟩
  | present h =>
    cases h
    exact ⟨headIn_cons.mpr rfl, headIn_cons.mpr nofun⟩

/-- A node type phrase is no pattern: no parenthesis follows the name. -/
theorem nodeTypePattern_of_phrase {name localAlias : Option Ident}
    {filler : Option NodeOrEdgeTypeFiller} {k : TokenKind} {tf tw ta : List TokenKind}
    (hk : NodeWord k) (hPhrase : PhraseFillerDerives True name filler tf)
    (hType : TypeKeyword True tf tw) (hAlias : Optionally AsAliasDerives localAlias ta) :
    nodeTypePattern (k :: (tw ++ ta)) = .backtrack := by
  obtain ⟨o, hKeyword⟩ : ∃ o, opt (expectWord .type) (tw ++ ta) = .ok o (tf ++ ta) :=
    typeKeyword_reads hType (phrase_ne_nil hPhrase)
  have hRun : nodeNamePrefix (k :: (tw ++ ta)) = identifier (tf ++ ta) := by
    rw [nodeNamePrefix, bind_apply, nodeSynonym_reads hk, andThen_ok, bind_apply, hKeyword]
    rfl
  have hBody : ∀ {name : Option Ident} {us : List TokenKind}, HeadIn (fun k => k ≠ .leftParen) us →
      nodeTypeBody name us = .backtrack := by
    intro name us hus
    rw [nodeTypeBody, bind_apply, expect_of_head hus]
    rfl
  rw [nodeTypePattern_apply]
  obtain hFail | ⟨n, us, hOk, hHead⟩ := phrase_identifier hPhrase (asAlias_head hAlias).2
  · rw [opt_of_backtrack (hRun.trans hFail), andThen_ok]
    refine hBody (headIn_cons.mpr ?_)
    cases hk <;> exact nofun
  · rw [opt_of_ok (hRun.trans hOk), andThen_ok]
    exact hBody hHead

theorem nodeTypePhrase_reads {name localAlias : Option Ident}
    {filler : Option NodeOrEdgeTypeFiller} {k : TokenKind} {tf tw ta : List TokenKind}
    (hk : NodeWord k) (hPhrase : PhraseFillerDerives True name filler tf)
    (hType : TypeKeyword True tf tw) (hAlias : Optionally AsAliasDerives localAlias ta)
    (hGood : filler.all NodeOrEdgeTypeFiller.supported = true) :
    nodeTypePhrase (k :: (tw ++ ta)) = .ok ⟨name, localAlias, filler⟩ [] := by
  obtain ⟨o, hKeyword⟩ : ∃ o, opt (expectWord .type) (tw ++ ta) = .ok o (tf ++ ta) :=
    typeKeyword_reads hType (phrase_ne_nil hPhrase)
  have hFiller : nodeTypePhraseFiller (tf ++ ta) = .ok (name, filler) ta :=
    phraseFiller_reads ⟨hPhrase, hGood⟩ (asAlias_head hAlias).1
  have hReadAlias : opt (do expect (.typeWord .as); localNodeTypeAlias) ta = .ok localAlias [] := by
    cases hAlias with
    | absent => rfl
    | present hAlias =>
      cases hAlias with
      | mk hn =>
        refine opt_of_ok ?_
        rw [bind_apply, expect_self]
        exact regularIdentifier_reads hn
  rw [nodeTypePhrase, bind_apply, nodeSynonym_reads hk, andThen_ok, bind_apply, hKeyword, andThen_ok,
    bind_apply, hFiller, andThen_ok]
  show (opt _ ta).andThen _ = _
  rw [hReadAlias]
  rfl

theorem nodeTypeSpecification_word {k : TokenKind} (h : NodeWord k) (ts : List TokenKind) :
    nodeTypeSpecification (k :: ts) = orElse nodeTypePattern nodeTypePhrase (k :: ts) := by
  cases h <;> rfl

theorem nodeType_reads {n : NodeType} (h : WrittenNode n ts) :
    nodeTypeSpecification ts = .ok n [] := by
  obtain ⟨hNode, hGood⟩ := h
  cases hNode with
  | @pattern name localAlias filler tn ta tf hName hAlias hFiller hNone =>
    have hRead := nodeTypePattern_reads hName hAlias hFiller (hNone trivial) hGood
    cases hName with
    | absent => exact hRead
    | present hName =>
      cases hName with
      | mk hk => exact (nodeTypeSpecification_word hk _).trans (orElse_of_ok hRead)
  | phrase hk hPhrase hType hAlias =>
    rw [nodeTypeSpecification_word hk,
      orElse_of_backtrack (nodeTypePattern_of_phrase hk hPhrase hType hAlias)]
    exact nodeTypePhrase_reads hk hPhrase hType hAlias hGood

-- ----
-- Arcs
-- ----

theorem ref_stops (h : HeadIn (fun k => k ≠ .leftParen) ts) : nodeTypeReference ts = .backtrack := by
  rw [nodeTypeReference, bind_apply, expect_of_head h]
  rfl

theorem arc_stops (h : HeadIn (fun k => k ≠ .leftParen) ts) :
    orElse edgeTypePatternDirected edgeTypePatternUndirected ts = .backtrack ∧
      edgeTypePatternDirected ts = .backtrack ∧ edgeTypePatternUndirected ts = .backtrack := by
  have hDirected : edgeTypePatternDirected ts = .backtrack := by
    rw [edgeTypePatternDirected, bind_apply, ref_stops h]
    rfl
  have hUndirected : edgeTypePatternUndirected ts = .backtrack := by
    rw [edgeTypePatternUndirected, bind_apply, ref_stops h]
    rfl
  exact ⟨by rw [orElse_of_backtrack hDirected, hUndirected], hDirected, hUndirected⟩

theorem closingBracket_follows (direction : EdgeDirection) (ts : List TokenKind) :
    FollowsFiller (direction.brackets.2 :: ts) := by
  cases direction <;> exact headIn_cons.mpr rfl

theorem arcType_reads (direction : EdgeDirection) {filler : NodeOrEdgeTypeFiller}
    {tf : List TokenKind} (h : WrittenFiller filler tf) :
    arcType direction.brackets.1 direction.brackets.2
      (direction.brackets.1 :: (tf ++ (direction.brackets.2 :: rest))) = .ok filler rest := by
  have hFiller : edgeTypeFiller (tf ++ (direction.brackets.2 :: rest)) =
      .ok filler (direction.brackets.2 :: rest) :=
    (nodeTypeFiller_reads h.1 (closingBracket_follows direction rest)).reads h.2
  rw [arcType, bind_apply, expect_self, andThen_ok, bind_apply, hFiller, andThen_ok, bind_apply,
    expect_self]
  rfl

/-- A parser of an arc that gives the direction with it. -/
theorem directedArc_reads (direction : EdgeDirection) {filler : NodeOrEdgeTypeFiller}
    {tf : List TokenKind} (h : WrittenFiller filler tf) :
    (do let filler ← arcType direction.brackets.1 direction.brackets.2; pure (direction, filler) :
        TokenParser (EdgeDirection × NodeOrEdgeTypeFiller))
      (direction.brackets.1 :: (tf ++ (direction.brackets.2 :: rest))) =
        .ok (direction, filler) rest := by
  rw [bind_apply, arcType_reads direction h]
  rfl

theorem lastRef_reads {ref : NodeTypeRef} (h : WrittenRef ref ts) :
    nodeTypeReference ts = .ok ref [] := by
  have hRead : nodeTypeReference (ts ++ []) = .ok ref [] := ref_reads h
  rwa [List.append_nil] at hRead

/-- A directed arc without a name is read back. -/
theorem patternDirected_reads {p : EdgeTypePattern} (h : WrittenArc p ts)
    (hName : p.name = none) (hKind : p.direction.kind = .directed) :
    edgeTypePatternDirected ts = .ok p [] := by
  obtain ⟨name, direction, left, filler, right⟩ := p
  obtain ⟨tl, tf, tr, rfl, hLeft, hFiller, hRight⟩ := h
  obtain rfl : name = none := hName
  have hReadRight : nodeTypeReference tr = .ok right [] := lastRef_reads hRight
  rw [edgeTypePatternDirected, bind_apply, ref_reads hLeft, andThen_ok]
  dsimp only at hFiller hKind ⊢
  cases direction with
  | leftToRight =>
    refine (congrArg (fun r => Reply.andThen r _) (directedArc_reads .leftToRight hFiller)).trans ?_
    show (nodeTypeReference tr).andThen _ = _
    rw [hReadRight]
    rfl
  | rightToLeft =>
    refine (congrArg (fun r => Reply.andThen r _) (directedArc_reads .rightToLeft hFiller)).trans ?_
    show (nodeTypeReference tr).andThen _ = _
    rw [hReadRight]
    rfl
  | undirected => cases hKind

theorem patternUndirected_reads {p : EdgeTypePattern} (h : WrittenArc p ts)
    (hName : p.name = none) (hKind : p.direction.kind = .undirected) :
    edgeTypePatternDirected ts = .backtrack ∧ edgeTypePatternUndirected ts = .ok p [] := by
  obtain ⟨name, direction, left, filler, right⟩ := p
  obtain ⟨tl, tf, tr, rfl, hLeft, hFiller, hRight⟩ := h
  obtain rfl : name = none := hName
  obtain rfl : direction = .undirected := by
    cases direction <;> first | rfl | cases hKind
  have hArc : arcTypeUndirected
      (.tildeLeftBracket :: (tf ++ (.rightBracketTilde :: tr))) = .ok filler tr :=
    arcType_reads .undirected hFiller
  constructor
  · rw [edgeTypePatternDirected, bind_apply, ref_reads hLeft]
    rfl
  · rw [edgeTypePatternUndirected, bind_apply, ref_reads hLeft, andThen_ok, bind_apply]
    refine (congrArg (fun r => Reply.andThen r _) hArc).trans ?_
    show (nodeTypeReference tr).andThen _ = _
    rw [lastRef_reads hRight]
    rfl

-- ----
-- Edge types
-- ----

/-- The name before the pattern of an edge type. -/
def edgeNamePrefix : TokenParser (Option EdgeKind × Ident) := do
  let kind ← opt edgeKind
  edgeSynonym
  let _ ← opt (expectWord .type)
  let name ← edgeTypeName
  pure (kind, name)

/-- The pattern of an edge type after its name. -/
def edgeTypeBody : Option (Option EdgeKind × Ident) → TokenParser EdgeTypePattern
  | some (some .directed, name) => do
    let pattern ← edgeTypePatternDirected
    pure { pattern with name := some name }
  | some (some .undirected, name) => do
    let pattern ← edgeTypePatternUndirected
    pure { pattern with name := some name }
  | some (none, name) => do
    let pattern ← orElse edgeTypePatternDirected edgeTypePatternUndirected
    pure { pattern with name := some name }
  | none => orElse edgeTypePatternDirected edgeTypePatternUndirected

theorem edgeTypePattern_apply (ts : List TokenKind) :
    edgeTypePattern ts = (opt edgeNamePrefix ts).andThen edgeTypeBody := rfl

theorem edgeKind_reads (direction : EdgeDirection) (slice : Ident) (ts : List TokenKind) :
    edgeKind (.nonReserved direction.kindWord slice :: ts) = .ok direction.kind ts := by
  cases direction <;> rfl

theorem edgeKind_stops {k : TokenKind} (h : EdgeWord k) : edgeKind (k :: ts) = .backtrack := by
  cases h <;> rfl

/-- The word for the kind of an edge is read where it is given. -/
theorem optEdgeKind_reads {direction : EdgeDirection} {tk : List TokenKind} {k : TokenKind}
    (h : KindWords direction tk) (hk : EdgeWord k) : ∃ kind : Option EdgeKind,
      (∀ x ∈ kind, x = direction.kind) ∧ opt edgeKind (tk ++ (k :: ts)) = .ok kind (k :: ts) := by
  cases h with
  | absent => exact ⟨none, nofun, opt_of_backtrack (edgeKind_stops hk)⟩
  | present =>
    exact ⟨some direction.kind, fun x hx => (Option.some.inj hx).symm,
      opt_of_ok (edgeKind_reads direction _ _)⟩

theorem edgeName_reads {direction : EdgeDirection} {name : Ident} {tn : List TokenKind}
    (h : EdgeNameDerives True direction name tn) : ∃ kind : Option EdgeKind,
      (∀ x ∈ kind, x = direction.kind) ∧
      opt edgeNamePrefix (tn ++ us) = .ok (some (kind, name)) us := by
  cases h with
  | @mk k n _ tk tn hKind hk hn hType =>
    rw [List.append_assoc, List.cons_append]
    obtain ⟨kind, hSame, hReadKind⟩ : ∃ kind : Option EdgeKind, (∀ x ∈ kind, x = direction.kind) ∧
        opt edgeKind (tk ++ (k :: (tn ++ us))) = .ok kind (k :: (tn ++ us)) :=
      optEdgeKind_reads hKind hk
    obtain ⟨o, hKeyword⟩ : ∃ o, opt (expectWord .type) (tn ++ us) = .ok o (n :: us) :=
      typeKeyword_reads hType (List.cons_ne_nil _ _)
    refine ⟨kind, hSame, opt_of_ok ?_⟩
    rw [edgeNamePrefix, bind_apply, hReadKind, andThen_ok, bind_apply, edgeSynonym_reads hk,
      andThen_ok, bind_apply, hKeyword, andThen_ok, bind_apply, edgeTypeName, identifier_reads hn]
    rfl

/-- An arc is found with the word for its kind before it or without. -/
theorem arc_reads {p : EdgeTypePattern} (h : WrittenArc p ts) (hName : p.name = none) :
    (∀ kind : Option EdgeKind, (∀ x ∈ kind, x = p.direction.kind) → ∀ name,
      edgeTypeBody (some (kind, name)) ts = .ok { p with name := some name } []) ∧
    edgeTypeBody none ts = .ok p [] := by
  have hEither : orElse edgeTypePatternDirected edgeTypePatternUndirected ts = .ok p [] := by
    cases hKind : p.direction.kind with
    | directed => exact orElse_of_ok (patternDirected_reads h hName hKind)
    | undirected =>
      obtain ⟨hDirected, hUndirected⟩ := patternUndirected_reads h hName hKind
      rw [orElse_of_backtrack hDirected, hUndirected]
  refine ⟨fun kind hSame name => ?_, hEither⟩
  match kind with
  | none =>
    rw [edgeTypeBody, bind_apply, hEither]
    rfl
  | some .directed =>
    rw [edgeTypeBody, bind_apply, patternDirected_reads h hName (hSame _ rfl).symm]
    rfl
  | some .undirected =>
    rw [edgeTypeBody, bind_apply, (patternUndirected_reads h hName (hSame _ rfl).symm).2]
    rfl

theorem WrittenEdge.arc {name : Option Ident} {direction : EdgeDirection} {left right : NodeTypeRef}
    {filler : NodeOrEdgeTypeFiller} {tl tf tr : List TokenKind}
    (hGood : (EdgeType.pattern ⟨name, direction, left, filler, right⟩).supported = true)
    (hLeft : TypeRefDerives True left tl) (hFiller : TypeFillerDerives filler tf)
    (hRight : TypeRefDerives True right tr) :
    WrittenArc ⟨none, direction, left, filler, right⟩
      (tl ++ (direction.brackets.1 :: (tf ++ (direction.brackets.2 :: tr)))) := by
  obtain ⟨hL, hF, hR⟩ : left.supported = true ∧ filler.supported = true ∧ right.supported = true := by
    simpa [EdgeType.supported] using hGood
  exact ⟨tl, tf, tr, rfl, ⟨hLeft, hL⟩, ⟨hFiller, hF⟩, hRight, hR⟩

theorem arc_head {p : EdgeTypePattern} (h : WrittenArc p ts) : ∃ us, ts = .leftParen :: us := by
  obtain ⟨name, direction, left, filler, right⟩ := p
  obtain ⟨tl, tf, tr, rfl, ⟨hLeft, -⟩, -⟩ := h
  dsimp only at hLeft
  cases hLeft <;> exact ⟨_, rfl⟩

theorem edgeTypePattern_reads {p : EdgeTypePattern} {name : Option Ident} {tn : List TokenKind}
    (hArc : WrittenArc p us) (hNone : p.name = none)
    (hName : Optionally (EdgeNameDerives True p.direction) name tn) :
    edgeTypePattern (tn ++ us) = .ok { p with name := name } [] := by
  obtain ⟨hNamed, hUnnamed⟩ := arc_reads hArc hNone
  rw [edgeTypePattern_apply]
  cases hName with
  | absent =>
    obtain ⟨vs, rfl⟩ := arc_head hArc
    have hPrefix : opt edgeNamePrefix (.leftParen :: vs) = .ok none (.leftParen :: vs) := rfl
    rw [List.nil_append, hPrefix, andThen_ok, hUnnamed, ← hNone]
  | present hName =>
    obtain ⟨kind, hSame, hPrefix⟩ : ∃ kind : Option EdgeKind, (∀ x ∈ kind, x = p.direction.kind) ∧
        opt edgeNamePrefix (tn ++ us) = .ok (some (kind, _)) us := edgeName_reads hName
    rw [hPrefix, andThen_ok]
    exact hNamed kind hSame _

/-- An edge type phrase is no pattern: no parenthesis follows the name. -/
theorem edgeTypePattern_of_phrase {name : Option Ident} {filler : Option NodeOrEdgeTypeFiller}
    {direction : EdgeDirection} {slice : Ident} {k : TokenKind} {tf tw : List TokenKind}
    (hk : EdgeWord k) (hPhrase : PhraseFillerDerives True name filler tf)
    (hType : TypeKeyword True tf tw) (hRest : HeadIn (fun k => k ≠ .leftParen) rest) :
    edgeTypePattern (.nonReserved direction.kindWord slice :: k :: (tw ++ rest)) = .backtrack := by
  obtain ⟨o, hKeyword⟩ : ∃ o, opt (expectWord .type) (tw ++ rest) = .ok o (tf ++ rest) :=
    typeKeyword_reads hType (phrase_ne_nil hPhrase)
  have hRun : edgeNamePrefix (.nonReserved direction.kindWord slice :: k :: (tw ++ rest)) =
      (identifier (tf ++ rest)).andThen fun name us => .ok (some direction.kind, name) us := by
    rw [edgeNamePrefix, bind_apply, opt_of_ok (edgeKind_reads direction slice _), andThen_ok,
      bind_apply, edgeSynonym_reads hk, andThen_ok, bind_apply, hKeyword]
    rfl
  rw [edgeTypePattern_apply]
  obtain hFail | ⟨n, us, hOk, hHead⟩ := phrase_identifier hPhrase hRest
  · rw [hFail] at hRun
    have hHead : HeadIn (fun k => k ≠ .leftParen)
        (.nonReserved direction.kindWord slice :: k :: (tw ++ rest)) := headIn_cons.mpr nofun
    rw [opt_of_backtrack hRun, andThen_ok]
    exact (arc_stops hHead).1
  · rw [hOk] at hRun
    obtain ⟨-, hDirected, hUndirected⟩ := arc_stops hHead
    rw [opt_of_ok hRun, andThen_ok]
    cases direction.kind with
    | directed =>
      rw [edgeTypeBody, bind_apply, hDirected]
      rfl
    | undirected =>
      rw [edgeTypeBody, bind_apply, hUndirected]
      rfl

theorem ends_read {direction : EdgeDirection} {left right : Ident} {l c r : TokenKind}
    (hl : regularName l = some left) (hc : ConnectorDerives direction c)
    (hr : regularName r = some right) :
    (direction.kind = .directed → endpointPairDirected [.leftParen, l, c, r, .rightParen] =
      .ok (left, direction, right) []) ∧
    (direction.kind = .undirected → endpointPairUndirected [.leftParen, l, c, r, .rightParen] =
      .ok (left, right) []) := by
  have hLeft : nodeTypeAlias [l, c, r, .rightParen] = .ok left [c, r, .rightParen] :=
    regularIdentifier_reads hl
  have hRight : nodeTypeAlias [r, .rightParen] = .ok right [.rightParen] :=
    regularIdentifier_reads hr
  constructor
  · intro hKind
    have hConnector : connectorDirected [c, r, .rightParen] = .ok direction [r, .rightParen] := by
      cases hc <;> first | rfl | cases hKind
    rw [endpointPairDirected, bind_apply, expect_self, andThen_ok, bind_apply, hLeft, andThen_ok,
      bind_apply, hConnector, andThen_ok, bind_apply, hRight]
    rfl
  · intro hKind
    rw [endpointPairUndirected, bind_apply, expect_self, andThen_ok, bind_apply, hLeft]
    cases hc with
    | rightTo | rightArrow | leftArrow => cases hKind
    | undirectedTo | tilde =>
      show (nodeTypeAlias [r, .rightParen]).andThen _ = _
      rw [hRight]
      rfl

/-- An edge type phrase of any direction is read to its end. -/
theorem edgeTypePhrase_reads {name : Option Ident} {direction : EdgeDirection} {left right : Ident}
    {filler : Option NodeOrEdgeTypeFiller} {slice slice' : Ident} {k l c r : TokenKind}
    {tf tw : List TokenKind} (hk : EdgeWord k) (hPhrase : PhraseFillerDerives True name filler tf)
    (hType : TypeKeyword True tf tw) (hl : regularName l = some left)
    (hc : ConnectorDerives direction c) (hr : regularName r = some right)
    (hGood : filler.all NodeOrEdgeTypeFiller.supported = true) :
    edgeTypePhrase (.nonReserved direction.kindWord slice :: k ::
      (tw ++ [.nonReserved .connecting slice', .leftParen, l, c, r, .rightParen])) =
      .ok ⟨name, direction, left, filler, right⟩ [] := by
  obtain ⟨hDirected, hUndirected⟩ := ends_read hl hc hr
  generalize hEnds : [.leftParen, l, c, r, .rightParen] = te at hDirected hUndirected ⊢
  obtain ⟨o, hKeyword⟩ : ∃ o, opt (expectWord .type) (tw ++ (.nonReserved .connecting slice' :: te)) =
      .ok o (tf ++ (.nonReserved .connecting slice' :: te)) :=
    typeKeyword_reads hType (phrase_ne_nil hPhrase)
  have hFiller : edgeTypePhraseFiller (tf ++ (.nonReserved .connecting slice' :: te)) =
      .ok (name, filler) (.nonReserved .connecting slice' :: te) :=
    phraseFiller_reads ⟨hPhrase, hGood⟩ (headIn_cons.mpr rfl)
  rw [edgeTypePhrase, bind_apply, edgeKind_reads, andThen_ok, bind_apply, edgeSynonym_reads hk,
    andThen_ok, bind_apply, hKeyword, andThen_ok, bind_apply, hFiller]
  cases hKind : direction.kind with
  | directed =>
    show (endpointPairDirected te).andThen _ = _
    rw [hDirected hKind]
    rfl
  | undirected =>
    show (endpointPairUndirected te).andThen _ = _
    rw [hUndirected hKind]
    cases direction with
    | leftToRight | rightToLeft => cases hKind
    | undirected => rfl

theorem edgeTypeSpecification_word {k : TokenKind} (h : EdgeWord k) (ts : List TokenKind) :
    edgeTypeSpecification (k :: ts) =
      (edgeTypePattern (k :: ts)).andThen fun p us => .ok (.pattern p) us := by
  cases h <;> rfl

/-- Every edge type that is written in an accepted form is read back. -/
theorem edgeType_reads {e : EdgeType} (h : WrittenEdge e ts) :
    edgeTypeSpecification ts = .ok e [] := by
  obtain ⟨hEdge, hGood⟩ := h
  cases hEdge with
  | @pattern name direction left right filler tn tl tf tr hName hLeft hFiller hRight =>
    have hArc := WrittenEdge.arc hGood hLeft hFiller hRight
    have hRead := edgeTypePattern_reads hArc rfl hName
    have hPattern : (do let p ← edgeTypePattern; pure (.pattern p) : TokenParser EdgeType)
        (tn ++ (tl ++ (direction.brackets.1 :: (tf ++ (direction.brackets.2 :: tr))))) =
        .ok (.pattern ⟨name, direction, left, filler, right⟩) [] := by
      rw [bind_apply, hRead]
      rfl
    cases hName with
    | absent =>
      obtain ⟨us, hHead⟩ := arc_head hArc
      rw [List.nil_append, hHead] at hPattern ⊢
      exact hPattern
    | present hName =>
      cases hName with
      | mk hKind hk =>
        cases hKind with
        | absent => exact (edgeTypeSpecification_word hk _).trans hPattern
        | present => cases direction <;> exact orElse_of_ok hPattern
  | @phrase name direction left right filler slice slice' k l c r tf tw hk hPhrase hType hl hc hr =>
    have hPattern : (do let p ← edgeTypePattern; pure (.pattern p) : TokenParser EdgeType)
        (.nonReserved direction.kindWord slice :: k ::
          (tw ++ [.nonReserved .connecting slice', .leftParen, l, c, r, .rightParen])) =
        .backtrack := by
      have hHead : HeadIn (fun k => k ≠ .leftParen)
          [.nonReserved .connecting slice', .leftParen, l, c, r, .rightParen] :=
        headIn_cons.mpr nofun
      rw [bind_apply, edgeTypePattern_of_phrase hk hPhrase hType hHead]
      rfl
    have hRead : (do let p ← edgeTypePhrase; pure (.phrase p) : TokenParser EdgeType)
        (.nonReserved direction.kindWord slice :: k ::
          (tw ++ [.nonReserved .connecting slice', .leftParen, l, c, r, .rightParen])) =
        .ok (.phrase ⟨name, direction, left, filler, right⟩) [] := by
      rw [bind_apply, edgeTypePhrase_reads hk hPhrase hType hl hc hr hGood]
      rfl
    cases direction <;> exact (orElse_of_backtrack hPattern).trans hRead

-- ----
-- Element types
-- ----

/-- The pattern of a node type ends where the end of an edge type would, or is none. -/
theorem nodePattern_ref {localAlias : Option Ident} {filler : Option NodeOrEdgeTypeFiller}
    {ta tf : List TokenKind} (hAlias : Optionally VariableDerives localAlias ta)
    (hFiller : Optionally TypeFillerDerives filler tf)
    (hNone : localAlias = none → Unnamed tf)
    (hGood : filler.all NodeOrEdgeTypeFiller.supported = true) :
    nodeTypeReference (.leftParen :: (ta ++ (tf ++ [.rightParen]))) = .backtrack ∨
      ∃ ref, nodeTypeReference (.leftParen :: (ta ++ (tf ++ [.rightParen]))) = .ok ref [] := by
  cases hAlias with
  | absent =>
    cases hFiller with
    | absent => exact .inr ⟨.empty, rfl⟩
    | @present f _ hFiller =>
      have hRef : WrittenRef (.filler f) (.leftParen :: (tf ++ [.rightParen])) :=
        ⟨.filler hFiller fun _ => hNone rfl, hGood⟩
      exact .inr ⟨_, lastRef_reads hRef⟩
  | @present name _ hAlias =>
    cases hAlias with
    | @mk k hk =>
      cases hFiller with
      | absent =>
        have hRef : WrittenRef (.byAlias name) [.leftParen, k, .rightParen] := ⟨.byAlias hk, rfl⟩
        exact .inr ⟨_, lastRef_reads hRef⟩
      | present hFiller =>
        -- the alias alone is the reference, and the filler is not the parenthesis after it
        obtain ⟨k', us, rfl, hk'⟩ := filler_head hFiller
        have hHead : HeadIn (fun k => k ≠ .rightParen) (k' :: us ++ [.rightParen]) :=
          headIn_cons.mpr (startsFiller_ne hk').2
        have hRead : (do let ident ← nodeTypeAlias; pure (.byAlias ident) : TokenParser NodeTypeRef)
            (k :: (k' :: us ++ [.rightParen])) = .ok (.byAlias name) (k' :: us ++ [.rightParen]) := by
          rw [bind_apply, nodeTypeAlias, regularIdentifier_reads hk]
          rfl
        left
        show (orElse _ _ (k :: (k' :: us ++ [.rightParen]))).andThen _ = _
        rw [orElse_of_ok hRead, andThen_ok, bind_apply, expect_of_head hHead]
        rfl

/-- A node type in parentheses is no edge type: no arc comes after it. -/
theorem edgeElement_of_nodePattern {localAlias : Option Ident}
    {filler : Option NodeOrEdgeTypeFiller} {ta tf : List TokenKind}
    (hAlias : Optionally VariableDerives localAlias ta)
    (hFiller : Optionally TypeFillerDerives filler tf)
    (hNone : localAlias = none → Unnamed tf)
    (hGood : filler.all NodeOrEdgeTypeFiller.supported = true) :
    edgeElement (.leftParen :: (ta ++ (tf ++ [.rightParen]))) = .backtrack := by
  have hRef := nodePattern_ref hAlias hFiller hNone hGood
  generalize ta ++ (tf ++ [.rightParen]) = us at hRef ⊢
  have hDirected : edgeTypePatternDirected (.leftParen :: us) = .backtrack := by
    rw [edgeTypePatternDirected, bind_apply]
    obtain hRef | ⟨ref, hRef⟩ := hRef <;> rw [hRef] <;> rfl
  have hUndirected : edgeTypePatternUndirected (.leftParen :: us) = .backtrack := by
    rw [edgeTypePatternUndirected, bind_apply]
    obtain hRef | ⟨ref, hRef⟩ := hRef <;> rw [hRef] <;> rfl
  have hPattern : edgeTypePattern (.leftParen :: us) = .backtrack := by
    have hPrefix : opt edgeNamePrefix (.leftParen :: us) = .ok none (.leftParen :: us) := rfl
    rw [edgeTypePattern_apply, hPrefix, andThen_ok]
    exact (orElse_of_backtrack hDirected).trans hUndirected
  show ((edgeTypePattern (.leftParen :: us)).andThen _).andThen _ = _
  rw [hPattern]
  rfl

theorem nodeElement_reads {n : NodeType} (h : WrittenNode n ts) :
    nodeElement ts = .ok (.node n) [] := by
  rw [nodeElement, bind_apply, nodeType_reads h]
  rfl

theorem edgeElement_reads {e : EdgeType} (h : WrittenEdge e ts) :
    edgeElement ts = .ok (.edge e) [] := by
  rw [edgeElement, bind_apply, edgeType_reads h]
  rfl

theorem nodeElement_word {k : TokenKind} (h : NodeWord k) (ts : List TokenKind) :
    elementTypeSpecification (k :: ts) = nodeElement (k :: ts) := by
  cases h <;> rfl

theorem edgeElement_word {k : TokenKind} (h : EdgeWord k) (ts : List TokenKind) :
    elementTypeSpecification (k :: ts) = edgeElement (k :: ts) := by
  cases h <;> rfl

/-- **What writes an element type is read as it.** -/
theorem elementType_reads {el : GraphElementType} (h : WrittenElement el ts) :
    elementTypeSpecification ts = .ok el [] := by
  obtain ⟨hElement, hGood⟩ := h
  cases hElement with
  | node hNode =>
    have hRead := nodeElement_reads ⟨hNode, hGood⟩
    cases hNode with
    | pattern hName hAlias hFiller hNone =>
      cases hName with
      | absent =>
        have hEdge := edgeElement_of_nodePattern hAlias hFiller (hNone trivial) hGood
        exact (orElse_of_backtrack hEdge).trans (orElse_of_ok hRead)
      | present hName =>
        cases hName with
        | mk hk => exact (nodeElement_word hk _).trans hRead
    | phrase hk => exact (nodeElement_word hk _).trans hRead
  | edge hEdge =>
    have hRead := edgeElement_reads ⟨hEdge, hGood⟩
    cases hEdge with
    | @pattern name direction left right filler tn tl tf tr hName hLeft hFiller hRight =>
      cases hName with
      | absent =>
        obtain ⟨us, hHead⟩ := arc_head (WrittenEdge.arc hGood hLeft hFiller hRight)
        rw [List.nil_append, hHead] at hRead ⊢
        exact orElse_of_ok hRead
      | present hName =>
        cases hName with
        | mk hKind hk =>
          cases hKind with
          | absent => exact (edgeElement_word hk _).trans hRead
          | present => cases direction <;> exact hRead
    | @phrase name direction => cases direction <;> exact hRead

-- ----
-- Which element types come back
-- ----

section Relaxed

theorem TypeKeyword.relaxed {tw : List TokenKind} (h : TypeKeyword True ts tw) :
    TypeKeyword False ts tw := by
  cases h with
  | present => exact .present
  | absent _ => exact .absent nofun

theorem PhraseFillerDerives.relaxed {name : Option Ident} {filler : Option NodeOrEdgeTypeFiller}
    (h : PhraseFillerDerives True name filler ts) : PhraseFillerDerives False name filler ts := by
  cases h with
  | named hk hFiller => exact .named hk hFiller
  | unnamed hFiller _ => exact .unnamed hFiller nofun

theorem TypeRefDerives.relaxed {ref : NodeTypeRef} (h : TypeRefDerives True ref ts) :
    TypeRefDerives False ref ts := by
  cases h with
  | byAlias hk => exact .byAlias hk
  | filler hFiller _ => exact .filler hFiller nofun
  | empty => exact .empty

theorem NodeNameDerives.relaxed {name : Ident} (h : NodeNameDerives True name ts) :
    NodeNameDerives False name ts := by
  cases h with
  | mk hk hn hType => exact .mk hk hn hType.relaxed

theorem EdgeNameDerives.relaxed {direction : EdgeDirection} {name : Ident}
    (h : EdgeNameDerives True direction name ts) : EdgeNameDerives False direction name ts := by
  cases h with
  | mk hKind hk hn hType => exact .mk hKind hk hn hType.relaxed

theorem ElementTypeDerives.relaxed {el : GraphElementType} (h : ElementTypeDerives True el ts) :
    ElementTypeDerives False el ts := by
  cases h with
  | node h =>
    cases h with
    | pattern hName hAlias hFiller _ =>
      exact .node (.pattern (hName.mono fun _ _ h => h.relaxed) hAlias hFiller nofun)
    | phrase hk hPhrase hType hAlias =>
      exact .node (.phrase hk hPhrase.relaxed hType.relaxed hAlias)
  | edge h =>
    cases h with
    | pattern hName hLeft hFiller hRight =>
      have hName' := hName.mono fun _ _ h => h.relaxed
      exact .edge (.pattern hName' hLeft.relaxed hFiller hRight.relaxed)
    | phrase hk hPhrase hType hl hc hr =>
      exact .edge (.phrase hk hPhrase.relaxed hType.relaxed hl hc hr)

end Relaxed

/-- **Element types come back.** Tokens that the grammar gives to an element type parse back to it
exactly where no property has a float type and nothing is left out before a token that could be
it. -/
theorem elementType_roundTrips_iff (el : GraphElementType) (ts : List TokenKind) :
    (ElementTypeDerives False el ts ∧ elementTypeSpecification ts = .ok el []) ↔
      (ElementTypeDerives True el ts ∧ el.supported = true) := by
  constructor
  · rintro ⟨-, hRead⟩
    obtain ⟨us, hTokens, hWritten⟩ := takes_elementType _ _ _ hRead
    rw [List.append_nil] at hTokens
    exact hTokens ▸ hWritten
  · intro hWritten
    exact ⟨hWritten.1.relaxed, elementType_reads hWritten⟩

/-- `(p {w FLOAT})` -/
theorem elementType_float_refused :
    let float : ValueType := .float (.float none none) false
    let el : GraphElementType :=
      .node ⟨none, some "p", some ⟨none, none, some [("w", float)]⟩⟩
    let ts : List TokenKind := [.leftParen, .regularIdentifier "p", .leftBrace,
      .regularIdentifier "w", .typeWord .float, .rightBrace, .rightParen]
    bindValueType float.toBinder = some (.scalar .float64) ∧ ElementTypeDerives False el ts ∧
      elementTypeSpecification ts = .backtrack := by
  refine ⟨rfl, .node ?_, rfl⟩
  have hFloat : ValueTypeDerives (.float (.float none none) false) [.typeWord .float] :=
    .float (@FloatDerives.float none)
  have hProps : PropertyTypesDerive [("w", .float (.float none none) false)]
      [.leftBrace, .regularIdentifier "w", .typeWord .float, .rightBrace] :=
    .some (.mk rfl .absent hFloat) .nil
  exact .pattern .absent (.present (.mk rfl)) (.present (.propertied hProps)) nofun

theorem written_of_bound {v : ValueType} (hBound : (bindValueType v.toBinder).isSome = true)
    (hTidy : v.tidy = true) : ∃ ts, ValueTypeDerives v ts := by
  cases v with
  | string min max b =>
    match min, max with
    | none, none => exact ⟨_, @ValueTypeDerives.string none b⟩
    | none, some n => exact ⟨_, @ValueTypeDerives.string (some (none, n)) b⟩
    | some m, some n => exact ⟨_, @ValueTypeDerives.string (some (some m, n)) b⟩
    | some _, none => cases hTidy
  | signedNumeric kind b => exact ⟨_, .signed .short⟩
  | unsignedNumeric kind b => exact ⟨_, .unsigned .short⟩
  | float kind b =>
    cases kind with
    | float precision scale =>
      match precision, scale with
      | none, none => exact ⟨_, .float (@FloatDerives.float none)⟩
      | some n, m => exact ⟨_, .float (@FloatDerives.float (some (n, m)))⟩
      | none, some _ => cases hTidy
    | float16 => exact ⟨_, .float .float16⟩
    | float32 => exact ⟨_, .float .float32⟩
    | float64 => exact ⟨_, .float .float64⟩
    | real => exact ⟨_, .float .real⟩
    | double => exact ⟨_, .float .double⟩
    | float128 | float256 => cases hBound
  | temporal kind b =>
    cases kind with
    | date => exact ⟨_, .date⟩
    | _ => cases hBound
  | vector dimension b => exact ⟨_, .vector⟩
  | bool b => exact ⟨_, .bool⟩
  | _ => cases hBound

/-- **Every value type of the binder can be written**, and what writes it parses back unless it is
a float type. -/
theorem bound_comes_back {v : ValueType} (hBound : (bindValueType v.toBinder).isSome = true)
    (hTidy : v.tidy = true) :
    (∃ ts, ValueTypeDerives v ts) ∧
      ∀ ts, ValueTypeDerives v ts → (valueType ts = .ok v [] ↔ v.supported = true) := by
  refine ⟨written_of_bound hBound hTidy, fun ts h => ?_⟩
  have hRead : valueType (ts ++ []) = outcome v.supported v [] :=
    valueType_reads h (headIn_nil _)
  rw [List.append_nil] at hRead
  rw [hRead]
  cases v.supported with
  | true => exact ⟨fun _ => rfl, fun _ => rfl⟩
  | false => exact ⟨nofun, nofun⟩

theorem bool_comes_back : ∃ ts, ValueTypeDerives (.bool true) ts ∧
    valueType ts = .ok (.bool true) [] := by
  obtain ⟨⟨ts, hts⟩, hBack⟩ := bound_comes_back (v := .bool true) (by decide) (by decide)
  exact ⟨ts, hts, (hBack ts hts).mpr (by decide)⟩

end MiniGU.Parsing
