import MiniGU.Invariant.ElementReads
import MiniGU.Model.TypeGrammar

/-!
# What the parsers do with written value types and fillers

A value type is read back unless it is a float type, for which no parser has a branch. The fillers
of node and edge types are read back when none of their properties has one, and end before the
braces otherwise.
-/

namespace MiniGU.Parsing

variable {ts rest : List TokenKind}

/-! ## Lengths and NOT NULL -/

/-- What may follow a value type. -/
def FollowsType (ts : List TokenKind) : Prop := HeadIn (fun k => k ≠ .leftParen ∧ k ≠ .not) ts

theorem FollowsType.notNull (h : FollowsType rest) (b : Bool) :
    HeadIn (fun k => k ≠ .leftParen) (notNullTokens b ++ rest) := by
  cases b with
  | false => exact h.mono fun k hk => hk.1
  | true => exact headIn_cons.mpr nofun

theorem withNotNull_reads {make : Bool → ValueType} {b : Bool} (h : FollowsType rest) :
    withNotNull make (notNullTokens b ++ rest) = .ok (make b) rest := by
  cases b with
  | false =>
    have hStop : notNull rest = .backtrack := by
      rw [notNull, bind_apply, expect_of_head fun t ht => (h t ht).2]
      rfl
    show (opt notNull rest).andThen _ = _
    rw [opt_of_backtrack hStop]
    rfl
  | true => rfl

theorem unsignedInteger_token (n : UnsignedInteger) (ts : List TokenKind) :
    unsignedInteger (unsignedIntegerToken n :: ts) = .ok n ts := by
  obtain ⟨kind, integer⟩ := n
  cases kind <;> rfl

section InParens

variable {α : Type} {p : TokenParser α}

theorem optInParens_absent (h : HeadIn (fun k => k ≠ .leftParen) rest) :
    optInParens p rest = .ok none rest := by
  refine opt_of_backtrack ?_
  rw [bind_apply, expect_of_head h]
  rfl

theorem optInParens_present {a : α} (h : p ts = .ok a (.rightParen :: rest)) :
    optInParens p (.leftParen :: ts) = .ok (some a) rest := by
  refine opt_of_ok ?_
  rw [bind_apply, expect_self, andThen_ok, bind_apply, h]
  rfl

theorem arg_reads {n : Option UnsignedInteger} (h : HeadIn (fun k => k ≠ .leftParen) rest) :
    optInParens unsignedInteger (argTokens n ++ rest) = .ok n rest := by
  cases n with
  | none => exact optInParens_absent h
  | some n => exact optInParens_present (unsignedInteger_token n _)

theorem lengthRange_reads {range : Option (Option UnsignedInteger × UnsignedInteger)}
    (h : HeadIn (fun k => k ≠ .leftParen) rest) :
    optInParens lengthRange (lengthRangeTokens range ++ rest) = .ok range rest := by
  match range with
  | none => exact optInParens_absent h
  | some (none, n) =>
    refine optInParens_present ?_
    -- one number is no minimum: there is no comma after it
    have hMin : (do let n ← minLength; expect .comma; pure n : TokenParser UnsignedInteger)
        (unsignedIntegerToken n :: .rightParen :: rest) = .backtrack := by
      rw [bind_apply, minLength, unsignedInteger_token]
      rfl
    show lengthRange (unsignedIntegerToken n :: .rightParen :: rest) = _
    rw [lengthRange, bind_apply, opt_of_backtrack hMin, andThen_ok, bind_apply, maxLength,
      unsignedInteger_token]
    rfl
  | some (some m, n) =>
    refine optInParens_present ?_
    have hMin : (do let n ← minLength; expect .comma; pure n : TokenParser UnsignedInteger)
        (unsignedIntegerToken m :: .comma :: unsignedIntegerToken n :: .rightParen :: rest) =
          .ok m (unsignedIntegerToken n :: .rightParen :: rest) := by
      rw [bind_apply, minLength, unsignedInteger_token]
      rfl
    show lengthRange (unsignedIntegerToken m :: .comma :: unsignedIntegerToken n ::
      .rightParen :: rest) = _
    rw [lengthRange, bind_apply, opt_of_ok hMin, andThen_ok, bind_apply, maxLength,
      unsignedInteger_token]
    rfl

end InParens

/-- The arguments of a decimal type. -/
def precisionScale : TokenParser (UnsignedInteger × Option UnsignedInteger) := do
  let precision ← precisionArg
  let scale ← opt do
    expect .comma
    scaleArg
  pure (precision, scale)

theorem precisionScale_reads {args : Option (UnsignedInteger × Option UnsignedInteger)}
    (h : HeadIn (fun k => k ≠ .leftParen) rest) :
    optInParens precisionScale (precisionScaleTokens args ++ rest) = .ok args rest := by
  match args with
  | none => exact optInParens_absent h
  | some (n, none) =>
    refine optInParens_present ?_
    show precisionScale (unsignedIntegerToken n :: .rightParen :: rest) = _
    rw [precisionScale, bind_apply, precisionArg, unsignedInteger_token]
    rfl
  | some (n, some m) =>
    refine optInParens_present ?_
    show precisionScale (unsignedIntegerToken n :: .comma :: unsignedIntegerToken m ::
      .rightParen :: rest) = _
    have hScale : (do expect .comma; scaleArg : TokenParser UnsignedInteger)
        (.comma :: unsignedIntegerToken m :: .rightParen :: rest) = .ok m (.rightParen :: rest) := by
      rw [bind_apply, expect_self]
      exact unsignedInteger_token m _
    rw [precisionScale, bind_apply, precisionArg, unsignedInteger_token, andThen_ok, bind_apply,
      opt_of_ok hScale]
    rfl

/-! ## Numbers -/

theorem verbose_reads {kind : NumericTypeKind} (h : HeadIn (fun k => k ≠ .leftParen) rest) :
    verboseNumericTypeKind (kind.verboseTokens ++ rest) = .ok kind rest := by
  cases kind with
  | int n =>
    show (optInParens precisionArg (argTokens n ++ rest)).andThen _ = _
    rw [precisionArg, arg_reads h]
    rfl
  | _ => rfl

theorem signedKind_reads {kind : NumericTypeKind} (hKind : SignedDerives kind ts)
    (h : HeadIn (fun k => k ≠ .leftParen) rest) :
    signedNumericTypeKind (ts ++ rest) = .ok kind rest := by
  cases hKind with
  | short =>
    cases kind with
    | int n =>
      show (optInParens precisionArg (argTokens n ++ rest)).andThen _ = _
      rw [precisionArg, arg_reads h]
      rfl
    | _ => rfl
  | verbose =>
    have hDispatch : signedNumericTypeKind (kind.verboseTokens ++ rest) =
        verboseNumericTypeKind (kind.verboseTokens ++ rest) := by
      cases kind <;> rfl
    rw [hDispatch, verbose_reads h]
  | signed => exact verbose_reads h

theorem unsignedKind_reads {kind : NumericTypeKind} (hKind : UnsignedDerives kind ts)
    (h : HeadIn (fun k => k ≠ .leftParen) rest) :
    unsignedNumericTypeKind (ts ++ rest) = .ok kind rest := by
  cases hKind with
  | short =>
    cases kind with
    | int n =>
      show (optInParens precisionArg (argTokens n ++ rest)).andThen _ = _
      rw [precisionArg, arg_reads h]
      rfl
    | _ => rfl
  | unsigned => exact verbose_reads h

theorem valueType_signed {kind : NumericTypeKind} (h : SignedDerives kind ts) :
    valueType (ts ++ rest) = signedBinaryExactNumericType (ts ++ rest) := by
  cases h <;> cases kind <;> rfl

theorem valueType_unsigned {kind : NumericTypeKind} (h : UnsignedDerives kind ts) :
    valueType (ts ++ rest) = unsignedBinaryExactNumericType (ts ++ rest) := by
  cases h <;> cases kind <;> rfl

/-! ## Value types -/

theorem valueType_float {kind : FloatTypeKind} (h : FloatDerives kind ts) :
    valueType (ts ++ rest) = .backtrack := by
  cases h <;> rfl

theorem withLength_reads {make : Option UnsignedInteger → Bool → ValueType}
    {n : Option UnsignedInteger} {b : Bool} (h : FollowsType rest) :
    withLength unsignedInteger make (argTokens n ++ (notNullTokens b ++ rest)) =
      .ok (make n b) rest := by
  rw [withLength, bind_apply, arg_reads (h.notNull b)]
  exact withNotNull_reads h

theorem withLengthRange_reads
    {make : Option UnsignedInteger → Option UnsignedInteger → Bool → ValueType}
    {range : Option (Option UnsignedInteger × UnsignedInteger)} {b : Bool} (h : FollowsType rest) :
    withLengthRange make (lengthRangeTokens range ++ (notNullTokens b ++ rest)) =
      .ok (make (range.bind Prod.fst) (range.map Prod.snd) b) rest := by
  rw [withLengthRange, bind_apply, lengthRange_reads (h.notNull b)]
  exact withNotNull_reads h

theorem decimal_reads {args : Option (UnsignedInteger × Option UnsignedInteger)} {b : Bool}
    (h : FollowsType rest) :
    (do
      let args ← optInParens precisionScale
      withNotNull (.decimal (args.map Prod.fst) (args.bind Prod.snd)) : TokenParser ValueType)
        (precisionScaleTokens args ++ (notNullTokens b ++ rest)) =
      .ok (.decimal (args.map Prod.fst) (args.bind Prod.snd) b) rest := by
  rw [bind_apply, precisionScale_reads (h.notNull b)]
  exact withNotNull_reads h

/-- **A value type is read back unless it is a float type.** -/
theorem valueType_reads {v : ValueType} (hType : ValueTypeDerives v ts) (h : FollowsType rest) :
    valueType (ts ++ rest) = outcome v.supported v rest := by
  cases hType with
  | bool => exact withNotNull_reads h
  | boolean => exact withNotNull_reads h
  | string =>
    rw [List.cons_append, List.append_assoc]
    exact withLengthRange_reads h
  | bytes =>
    rw [List.cons_append, List.append_assoc]
    exact withLengthRange_reads h
  | char =>
    rw [List.cons_append, List.append_assoc]
    exact withLength_reads h
  | varchar =>
    rw [List.cons_append, List.append_assoc]
    exact withLength_reads h
  | binary =>
    rw [List.cons_append, List.append_assoc]
    exact withLength_reads h
  | varbinary =>
    rw [List.cons_append, List.append_assoc]
    exact withLength_reads h
  | @signed kind ts b hKind =>
    rw [List.append_assoc, valueType_signed hKind, signedBinaryExactNumericType, bind_apply,
      signedKind_reads hKind (h.notNull b)]
    exact withNotNull_reads h
  | @unsigned kind ts b hKind =>
    rw [List.append_assoc, valueType_unsigned hKind, unsignedBinaryExactNumericType, bind_apply,
      unsignedKind_reads hKind (h.notNull b)]
    exact withNotNull_reads h
  | decimal =>
    rw [List.cons_append, List.append_assoc]
    exact decimal_reads h
  | dec =>
    rw [List.cons_append, List.append_assoc]
    exact decimal_reads h
  | float hKind =>
    rw [List.append_assoc]
    exact valueType_float hKind
  | date => exact withNotNull_reads h
  | @vector dimension b =>
    show (unsignedInteger (unsignedIntegerToken dimension :: .rightParen ::
      (notNullTokens b ++ rest))).andThen _ = _
    rw [unsignedInteger_token]
    exact withNotNull_reads h
  | path => exact withNotNull_reads h
  | null =>
    have hEmpty : emptyType (.null :: rest) = .backtrack := by
      show ((expect .not rest).andThen _).andThen _ = _
      rw [expect_of_head fun t ht => (h t ht).2]
      rfl
    show orElse emptyType nullType (.null :: rest) = _
    rw [orElse_of_backtrack hEmpty]
    rfl
  | nullNotNull => rfl
  | nothing => rfl

/-! ## Labels -/

/-- A token that goes on with a filler, or with the labels in it. -/
def goesOnFiller : TokenKind → Bool
  | .nonReserved .label _ | .nonReserved .labels _ | .is | .colon | .typeWord .implies
  | .rightDoubleArrow | .leftBrace | .ampersand => true
  | _ => false

/-- What may follow a filler. -/
def FollowsFiller (ts : List TokenKind) : Prop := HeadIn (fun k => goesOnFiller k = false) ts

theorem moreLabels_read {names : List Ident} (h : MoreLabelsDerive names ts)
    (hRest : HeadIn (fun k => k ≠ .ampersand) rest) :
    Items (do expect .ampersand; labelName) names (ts ++ rest) rest := by
  induction h with
  | nil =>
    refine .done ?_
    rw [List.nil_append, bind_apply, expect_of_head hRest]
    rfl
  | @cons k name names ts hName _ ih =>
    have hItem : (do expect .ampersand; labelName : TokenParser Ident)
        (.ampersand :: k :: ts ++ rest) = .ok name (ts ++ rest) := by
      rw [List.cons_append, bind_apply, expect_self]
      exact identifier_reads hName
    refine .item hItem ?_ ih
    simp only [List.cons_append, List.length_cons]
    omega

theorem labelSet_reads {names : List Ident} (h : LabelSetDerives names ts)
    (hRest : HeadIn (fun k => k ≠ .ampersand) rest) :
    labelSetSpecification (ts ++ rest) = .ok names rest := by
  cases h with
  | mk hName hMore => exact separated1_reads (identifier_reads hName) (moreLabels_read hMore hRest)

theorem labelPhrase_reads {names : List Ident} (h : LabelPhraseDerives names ts)
    (hRest : HeadIn (fun k => k ≠ .ampersand) rest) :
    labelSetPhrase (ts ++ rest) = .ok names rest := by
  cases h with
  | @label slice k name hName =>
    show (labelName (k :: rest)).andThen _ = _
    rw [labelName, identifier_reads hName]
    rfl
  | labels hSet => exact labelSet_reads hSet hRest
  | is hSet => exact labelSet_reads hSet hRest
  | colon hSet => exact labelSet_reads hSet hRest

/-- A token that begins a label phrase. -/
def startsLabels : TokenKind → Bool
  | .nonReserved .label _ | .nonReserved .labels _ | .is | .colon => true
  | _ => false

theorem labelPhrase_stops (h : HeadIn (fun k => startsLabels k = false) ts) :
    labelSetPhrase ts = .backtrack := by
  cases ts with
  | nil => rfl
  | cons k ts =>
    have hk : startsLabels k = false := h k rfl
    rw [labelSetPhrase, peekAny_cons]
    split <;> first | rfl | cases hk

theorem labelPhrase_head {names : List Ident} (h : LabelPhraseDerives names ts) :
    ∃ k us, ts = k :: us ∧ startsLabels k = true := by
  cases h <;> exact ⟨_, _, rfl, rfl⟩

theorem implies_stops (h : HeadIn (fun k => k ≠ .typeWord .implies ∧ k ≠ .rightDoubleArrow) ts) :
    implies ts = .backtrack := by
  refine satisfy_of_head (h.mono fun k hk => ?_)
  split
  · exact absurd rfl hk.1
  · exact absurd rfl hk.2
  · rfl

theorem implies_reads {k : TokenKind} (h : ImpliesWord k) : implies (k :: ts) = .ok () ts := by
  cases h <;> rfl

/-! ## Property types -/

theorem typed_stops {v : ValueType} (h : ValueTypeDerives v ts) :
    typed (ts ++ rest) = .backtrack := by
  cases h with
  | @signed kind _ b hKind => cases hKind <;> cases kind <;> rfl
  | @unsigned kind _ b hKind => cases hKind <;> cases kind <;> rfl
  | float hKind => cases hKind <;> rfl
  | _ => rfl

theorem propertyType_reads {p : FieldOrPropertyType} (h : PropertyTypeDerives p ts)
    (hRest : FollowsType rest) : propertyType (ts ++ rest) = outcome p.2.supported p rest := by
  cases h with
  | @mk k name v tt tv hName hTyped hType =>
    have hStop : typed (tv ++ rest) = .backtrack := typed_stops hType
    have hReadTyped : ∃ o, opt typed (tt ++ (tv ++ rest)) = .ok o (tv ++ rest) := by
      cases hTyped with
      | absent => exact ⟨none, opt_of_backtrack hStop⟩
      | doubleColon => exact ⟨some (), rfl⟩
      | typed => exact ⟨some (), rfl⟩
    obtain ⟨o, hReadTyped⟩ := hReadTyped
    rw [List.cons_append, List.append_assoc, propertyType, bind_apply, propertyName,
      identifier_reads hName, andThen_ok, bind_apply, hReadTyped, andThen_ok, bind_apply,
      valueType_reads hType hRest]
    cases v.supported <;> rfl

theorem propertyType_head {p : FieldOrPropertyType} (h : PropertyTypeDerives p ts) :
    ∃ k us, ts = k :: us ∧ k ≠ .rightBrace := by
  cases h with
  | mk hName =>
    refine ⟨_, _, rfl, ?_⟩
    rintro rfl
    cases hName

theorem moreProperties_read {ps : List FieldOrPropertyType} (h : MorePropertiesDerive ps ts) :
    LoopsOrStops (do expect .comma; propertyType) (ps.all fun p => p.2.supported)
      (fun k => k ≠ .rightBrace) ps (ts ++ .rightBrace :: rest) (.rightBrace :: rest) := by
  induction h with
  | nil => exact .done rfl
  | @cons p ps tp ts hType hMore ih =>
    have hFollows : FollowsType (ts ++ .rightBrace :: rest) := by
      cases hMore <;> exact headIn_cons.mpr ⟨nofun, nofun⟩
    rw [List.cons_append, List.append_assoc, List.all_cons]
    refine .sepCons (S := NoToken) (expect_self _ _)
      (reads_of_outcome (propertyType_reads hType hFollows)) ?_ nofun
      (fun _ _ hNone => hNone.elim) ih
    simp only [List.length_append]
    omega

/-- **Property types are read back unless one of them is a float type.** -/
theorem propertyTypes_read {ps : List FieldOrPropertyType} (h : PropertyTypesDerive ps ts) :
    propertyTypesSpecification (ts ++ rest) =
      outcome (ps.all fun p => p.2.supported) ps rest := by
  cases h with
  | none => rfl
  | @some p ps tp ts hType hMore =>
    have hFollows : FollowsType (ts ++ .rightBrace :: rest) := by
      cases hMore <;> exact headIn_cons.mpr ⟨nofun, nofun⟩
    have hFirst := reads_of_outcome (S := NoToken) (propertyType_reads hType hFollows)
    obtain ⟨k, us, rfl, hk⟩ := propertyType_head hType
    have hShorter : (ts ++ .rightBrace :: rest).length ≤
        (us ++ (ts ++ .rightBrace :: rest)).length := by
      simp only [List.length_append]
      omega
    have hList := ReadsOrStops.separated0 hFirst hShorter hk (moreProperties_read hMore)
    simp only [List.cons_append, List.append_assoc, List.nil_append]
    rw [propertyTypesSpecification, bind_apply, expect_self, andThen_ok]
    exact closed_reads hList fun hNe => hNe rfl

theorem propertyTypes_stop (h : HeadIn (fun k => k ≠ .leftBrace) ts) :
    propertyTypesSpecification ts = .backtrack := by
  rw [propertyTypesSpecification, bind_apply, expect_of_head h]
  rfl

theorem propertyTypes_head {ps : List FieldOrPropertyType} (h : PropertyTypesDerive ps ts) :
    ∃ us, ts = .leftBrace :: us := by
  cases h <;> exact ⟨_, rfl⟩

/-! ## Fillers -/

/-- A token that goes on with no labels and no key. -/
def endsLabels (k : TokenKind) : Prop :=
  k ≠ .ampersand ∧ (k ≠ .typeWord .implies ∧ k ≠ .rightDoubleArrow) ∧ startsLabels k = false

theorem endsLabels_of_follows {k : TokenKind} (h : goesOnFiller k = false) :
    endsLabels k ∧ k ≠ .leftBrace := by
  have hNe : ∀ {t : TokenKind}, goesOnFiller t = true → k ≠ t := by
    rintro t ht rfl
    rw [h] at ht
    cases ht
  refine ⟨⟨hNe rfl, ⟨hNe rfl, hNe rfl⟩, ?_⟩, hNe rfl⟩
  unfold startsLabels
  split <;> first | rfl | cases h

/-- No property of an optional list has a float type. -/
def propertiesSupported (ps : Option (List FieldOrPropertyType)) : Bool :=
  ps.all fun ps => ps.all fun p => p.2.supported

section Filler

variable {ps : Option (List FieldOrPropertyType)} {tp : List TokenKind}

theorem properties_head (h : Optionally PropertyTypesDerive ps tp) (hRest : FollowsFiller rest) :
    HeadIn endsLabels (tp ++ rest) := by
  refine (h.headIn fun ps us hp => ?_).append (hRest.mono fun k hk => (endsLabels_of_follows hk).1)
  obtain ⟨vs, rfl⟩ := propertyTypes_head hp
  exact headIn_cons.mpr ⟨nofun, ⟨nofun, nofun⟩, rfl⟩

theorem optPropertyTypes_reads (h : Optionally PropertyTypesDerive ps tp)
    (hRest : FollowsFiller rest) : opt propertyTypesSpecification (tp ++ rest) =
      if propertiesSupported ps then .ok ps rest else .ok none (tp ++ rest) := by
  cases h with
  | absent =>
    exact opt_of_backtrack (propertyTypes_stop (hRest.mono fun k hk => (endsLabels_of_follows hk).2))
  | @present ps _ hp =>
    have hRead : propertyTypesSpecification (_ ++ rest) = _ := propertyTypes_read hp
    show _ = if (ps.all fun p => p.2.supported) = true then _ else _
    cases hGood : ps.all fun p => p.2.supported with
    | true =>
      rw [hGood, outcome_true] at hRead
      exact opt_of_ok hRead
    | false =>
      rw [hGood, outcome_false] at hRead
      exact opt_of_backtrack hRead

theorem optLabels_reads {labelSet : List Ident} {tl us : List TokenKind}
    (h : LabelPhraseDerives labelSet tl) (hUs : HeadIn endsLabels us) :
    opt labelSetPhrase (tl ++ us) = .ok (some labelSet) us :=
  opt_of_ok (labelPhrase_reads h (hUs.mono fun _ hk => hk.1))

theorem optLabels_stop {us : List TokenKind} (hUs : HeadIn endsLabels us) :
    opt labelSetPhrase us = .ok none us :=
  opt_of_backtrack (labelPhrase_stops (hUs.mono fun _ hk => hk.2.2))

theorem impliedContent_labeled {labelSet : List Ident} {tl us : List TokenKind}
    (h : LabelPhraseDerives labelSet tl) (hUs : HeadIn endsLabels us) :
    nodeTypeImpliedContent (tl ++ us) =
      (opt propertyTypesSpecification us).andThen fun ps vs => .ok (some labelSet, ps) vs := by
  rw [nodeTypeImpliedContent, bind_apply, optLabels_reads h hUs]
  rfl

theorem impliedContent_unlabeled {us : List TokenKind} (hUs : HeadIn endsLabels us) :
    nodeTypeImpliedContent us =
      (propertyTypesSpecification us).andThen fun ps vs => .ok (none, some ps) vs := by
  rw [nodeTypeImpliedContent, bind_apply, optLabels_stop hUs]
  rfl

theorem keyLabelSet_stops {labelSet : Option (List Ident)} {tl us : List TokenKind}
    (h : Optionally LabelPhraseDerives labelSet tl) (hUs : HeadIn endsLabels us) :
    opt nodeTypeKeyLabelSet (tl ++ us) = .ok none (tl ++ us) := by
  have hLabels : opt labelSetPhrase (tl ++ us) = .ok labelSet us := by
    cases h with
    | absent => exact optLabels_stop hUs
    | present h => exact optLabels_reads h hUs
  refine opt_of_backtrack ?_
  rw [nodeTypeKeyLabelSet, bind_apply, hLabels, andThen_ok, bind_apply,
    implies_stops (hUs.mono fun k hk => hk.2.1)]
  rfl

theorem keyLabelSet_reads {key : Option (List Ident)} {tk us : List TokenKind} {k : TokenKind}
    (h : Optionally LabelPhraseDerives key tk) (hk : ImpliesWord k) :
    opt nodeTypeKeyLabelSet (tk ++ (k :: us)) = .ok (some key) us := by
  have hLabels : opt labelSetPhrase (tk ++ (k :: us)) = .ok key (k :: us) := by
    have hStart : startsLabels k = false := by cases hk <;> rfl
    have hNe : k ≠ .ampersand := by cases hk <;> exact nofun
    cases h with
    | absent => exact opt_of_backtrack (labelPhrase_stops (headIn_cons.mpr hStart))
    | present h => exact opt_of_ok (labelPhrase_reads h (headIn_cons.mpr hNe))
  refine opt_of_ok ?_
  rw [nodeTypeKeyLabelSet, bind_apply, hLabels, andThen_ok, bind_apply, implies_reads hk]
  rfl

theorem nodeTypeFiller_labeled {labelSet : List Ident} {tl us : List TokenKind}
    (h : LabelPhraseDerives labelSet tl) (hUs : HeadIn endsLabels us) :
    nodeTypeFiller (tl ++ us) = (opt propertyTypesSpecification us).andThen fun ps vs =>
      .ok ⟨none, some labelSet, ps⟩ vs := by
  rw [nodeTypeFiller, bind_apply, keyLabelSet_stops (.present h) hUs, andThen_ok]
  show (nodeTypeImpliedContent (tl ++ us)).andThen _ = _
  rw [impliedContent_labeled h hUs]
  cases opt propertyTypesSpecification us <;> rfl

theorem nodeTypeFiller_unlabeled {us : List TokenKind} (hUs : HeadIn endsLabels us) :
    nodeTypeFiller us = (propertyTypesSpecification us).andThen fun ps vs =>
      .ok ⟨none, none, some ps⟩ vs := by
  have hKey : opt nodeTypeKeyLabelSet us = .ok none us := keyLabelSet_stops .absent hUs
  rw [nodeTypeFiller, bind_apply, hKey, andThen_ok]
  show (nodeTypeImpliedContent us).andThen _ = _
  rw [impliedContent_unlabeled hUs]
  cases propertyTypesSpecification us <;> rfl

/-- A filler that begins with a key label set is read. -/
theorem nodeTypeFiller_keyed {key labelSet : Option (List Ident)} {tk tl : List TokenKind}
    {k : TokenKind} (hKey : Optionally LabelPhraseDerives key tk) (hk : ImpliesWord k)
    (hLabels : Optionally LabelPhraseDerives labelSet tl)
    (hProps : Optionally PropertyTypesDerive ps tp) (hRest : FollowsFiller rest) :
    nodeTypeFiller (tk ++ (k :: (tl ++ (tp ++ rest)))) =
      (opt propertyTypesSpecification (tp ++ rest)).andThen fun ps vs =>
        .ok ⟨key, labelSet, ps⟩ vs := by
  have hUs := properties_head hProps hRest
  rw [nodeTypeFiller, bind_apply, keyLabelSet_reads hKey hk, andThen_ok]
  show (opt nodeTypeImpliedContent (tl ++ (tp ++ rest))).andThen _ = _
  obtain ⟨o, vs, hRead⟩ : ∃ o vs, opt propertyTypesSpecification (tp ++ rest) = .ok o vs := by
    rw [optPropertyTypes_reads hProps hRest]
    split <;> exact ⟨_, _, rfl⟩
  cases hLabels with
  | present hLabels =>
    have hImplied := impliedContent_labeled hLabels hUs
    rw [hRead] at hImplied ⊢
    rw [opt_of_ok hImplied]
    rfl
  | absent =>
    have hImplied := impliedContent_unlabeled hUs
    show (opt nodeTypeImpliedContent (tp ++ rest)).andThen _ = _
    rw [hRead]
    obtain ⟨ps', rfl, hProp⟩ | ⟨rfl, rfl, hProp⟩ := opt_ok hRead
    · rw [hProp] at hImplied
      rw [opt_of_ok hImplied]
      rfl
    · rw [hProp] at hImplied
      rw [opt_of_backtrack hImplied]
      rfl

/-- **A filler is read back unless one of its properties has a float type**: it ends before the
braces then. -/
theorem nodeTypeFiller_reads {filler : NodeOrEdgeTypeFiller} (h : TypeFillerDerives filler ts)
    (hRest : FollowsFiller rest) :
    ReadsOrStops nodeTypeFiller filler.supported (· = .leftBrace) filler (ts ++ rest) rest := by
  have hStops : ∀ {ps : Option (List FieldOrPropertyType)} {tp us : List TokenKind}
      (make : Option (List FieldOrPropertyType) → NodeOrEdgeTypeFiller),
      Optionally PropertyTypesDerive ps tp → (tp ++ rest).length ≤ us.length →
      nodeTypeFiller us = (opt propertyTypesSpecification (tp ++ rest)).andThen
        (fun ps vs => .ok (make ps) vs) →
      ReadsOrStops nodeTypeFiller (propertiesSupported ps) (· = .leftBrace) (make ps) us rest := by
    intro ps tp us make hProps hLength hRun
    rw [optPropertyTypes_reads hProps hRest] at hRun
    refine ⟨fun hGood => by rw [hRun, if_pos hGood]; rfl, fun hBad => .inr ?_⟩
    cases hProps with
    | absent => cases hBad
    | present hProps =>
      obtain ⟨vs, rfl⟩ := propertyTypes_head hProps
      refine ⟨make none, .leftBrace, vs ++ rest, ?_, Nat.lt_of_succ_le hLength, rfl⟩
      rw [hRun, hBad]
      rfl
  cases h with
  | @keyed key labelSet ps k tk tl tp hKey hk hLabels hProps =>
    simp only [List.append_assoc, List.cons_append]
    refine hStops (fun ps => ⟨key, labelSet, ps⟩) hProps ?_
      (nodeTypeFiller_keyed hKey hk hLabels hProps hRest)
    simp only [List.length_append, List.length_cons]
    omega
  | @labeled labelSet ps tl tp hLabels hProps =>
    rw [List.append_assoc]
    refine hStops (fun ps => ⟨none, some labelSet, ps⟩) hProps ?_
      (nodeTypeFiller_labeled hLabels (properties_head hProps hRest))
    simp only [List.length_append]
    omega
  | @propertied ps _ hProps =>
    have hRun := nodeTypeFiller_unlabeled (properties_head (.present hProps) hRest)
    rw [propertyTypes_read hProps] at hRun
    refine reads_of_outcome (hRun.trans ?_)
    show _ = outcome (ps.all fun p => p.2.supported) _ rest
    cases ps.all fun p => p.2.supported <;> rfl

theorem nodeTypeFiller_stops (hRest : FollowsFiller rest) : nodeTypeFiller rest = .backtrack := by
  have hUs : HeadIn endsLabels rest := hRest.mono fun k hk => (endsLabels_of_follows hk).1
  rw [nodeTypeFiller_unlabeled hUs,
    propertyTypes_stop (hRest.mono fun k hk => (endsLabels_of_follows hk).2)]
  rfl

end Filler

end MiniGU.Parsing
