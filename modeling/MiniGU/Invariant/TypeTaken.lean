import MiniGU.Invariant.TypeReads

/-!
# What the parsers take for graph element types

Whatever a parser accepts, the tokens it took write the value it returned, no property in it has a
float type, and nothing is left out where the next token could have been it.
-/

namespace MiniGU.Parsing

/-! ## Lengths and NOT NULL -/

theorem takes_notNull : Takes notNull fun _ us => us = [.not, .null] := by
  refine takes_expectThen ?_
  exact (takes_expect _).mono fun _ us hUs => by rw [hUs]

theorem takes_withNotNull {make : Bool → ValueType} {R : ValueType → List TokenKind → Prop}
    (h : ∀ b, R (make b) (notNullTokens b)) : Takes (withNotNull make) R := by
  refine takes_bind (takes_opt (Q := fun o us => us = notNullTokens o.isSome) takes_notNull rfl
    fun _ us hUs => hUs) fun o us hUs => ?_
  subst hUs
  refine takes_pure ?_
  rw [List.append_nil]
  exact h o.isSome

theorem takes_optInParens {α : Type} {p : TokenParser α} {tokens : Option α → List TokenKind}
    (hp : Takes p fun a us => tokens (some a) = .leftParen :: (us ++ [.rightParen]))
    (hNone : tokens none = []) : Takes (optInParens p) fun o us => us = tokens o := by
  refine takes_opt (R := fun a us => us = tokens (some a)) ?_ hNone.symm fun a us hUs => hUs
  refine takes_expectThen ?_
  refine takes_bind hp fun a us hTokens => ?_
  refine takes_expectThen ?_
  exact takes_pure hTokens.symm

theorem takes_arg : Takes (optInParens unsignedInteger) fun n us => us = argTokens n := by
  refine takes_optInParens (takes_unsignedInteger.mono fun n us hUs => ?_) rfl
  rw [hUs]
  rfl

theorem takes_lengthRange :
    Takes (optInParens lengthRange) fun range us => us = lengthRangeTokens range := by
  refine takes_optInParens ?_ rfl
  have hMin : Takes (do let n ← minLength; expect .comma; pure n : TokenParser UnsignedInteger)
      fun n us => us = [unsignedIntegerToken n, .comma] := by
    refine takes_bind takes_unsignedInteger fun n us hUs => ?_
    subst hUs
    refine takes_expectThen ?_
    exact takes_pure rfl
  refine takes_bind (takes_opt (Q := fun o us => (o = none ∧ us = []) ∨
    ∃ n, o = some n ∧ us = [unsignedIntegerToken n, .comma]) hMin (.inl ⟨rfl, rfl⟩)
      fun n us hUs => .inr ⟨n, rfl, hUs⟩) fun o us hO => ?_
  refine takes_bind takes_unsignedInteger fun m vs hVs => ?_
  subst hVs
  obtain ⟨rfl, rfl⟩ | ⟨n, rfl, rfl⟩ := hO
  · exact takes_pure rfl
  · exact takes_pure rfl

theorem takes_precisionScale :
    Takes (optInParens precisionScale) fun args us => us = precisionScaleTokens args := by
  refine takes_optInParens ?_ rfl
  have hScale : Takes (do expect .comma; scaleArg : TokenParser UnsignedInteger)
      fun n us => us = [.comma, unsignedIntegerToken n] := by
    refine takes_expectThen ?_
    exact takes_unsignedInteger.mono fun n vs hVs => by rw [hVs]
  refine takes_bind takes_unsignedInteger fun n us hUs => ?_
  subst hUs
  refine takes_bind (takes_opt (Q := fun o us => (o = none ∧ us = []) ∨
    ∃ m, o = some m ∧ us = [.comma, unsignedIntegerToken m]) hScale (.inl ⟨rfl, rfl⟩)
      fun m us hUs => .inr ⟨m, rfl, hUs⟩) fun o us hO => ?_
  obtain ⟨rfl, rfl⟩ | ⟨m, rfl, rfl⟩ := hO
  · exact takes_pure rfl
  · exact takes_pure rfl

/-! ## Numbers -/

theorem takes_intKind (tokens : NumericTypeKind → List TokenKind) {w : TokenKind}
    (h : ∀ n, tokens (.int n) = w :: argTokens n) :
    Takes (do let n ← optInParens precisionArg; pure (.int n) : TokenParser NumericTypeKind)
      fun kind us => [w] ++ us = tokens kind := by
  refine takes_bind takes_arg fun n us hUs => ?_
  subst hUs
  refine takes_pure ?_
  rw [h, List.append_nil]
  rfl

theorem takes_verbose :
    Takes verboseNumericTypeKind fun kind us => us = kind.verboseTokens := by
  refine takes_bind takes_any fun t us hUs => ?_
  subst hUs
  cases t with
  | typeWord word =>
    cases word with
    | integer8 | integer16 | integer32 | integer64 | integer128 | integer256 =>
      exact takes_pure rfl
    | small | big =>
      refine takes_expectThen ?_
      exact takes_pure rfl
    | integer => exact takes_intKind _ fun _ => rfl
    | _ => exact takes_fail
  | _ => exact takes_fail

theorem takes_kindWord {word : TypeWord} {kind : NumericTypeKind}
    (h : kind.signedTokens = [.typeWord word]) :
    Takes (kindWord word kind) SignedDerives := by
  refine takes_expectThen (takes_pure ?_)
  rw [← h]
  exact .short

theorem takes_signedKind : Takes signedNumericTypeKind SignedDerives := by
  have hVerbose : Takes verboseNumericTypeKind SignedDerives :=
    takes_verbose.mono fun kind us hUs => by
      rw [hUs]
      exact .verbose
  refine takes_peekAny fun t => ?_
  split
  case h_8 =>
    refine takes_expectThen ?_
    refine (takes_intKind NumericTypeKind.signedTokens fun _ => rfl).mono
      fun kind us hUs => ?_
    rw [show TokenKind.typeWord .int :: us = _ from hUs]
    exact .short
  case h_10 =>
    refine takes_expectThen ?_
    refine takes_verbose.mono fun kind us hUs => ?_
    rw [hUs]
    exact .signed
  case h_11 =>
    split
    · exact hVerbose
    · exact takes_fail
  all_goals exact takes_kindWord rfl

theorem takes_unsignedKind : Takes unsignedNumericTypeKind UnsignedDerives := by
  refine takes_bind takes_any fun t us hUs => ?_
  subst hUs
  cases t with
  | typeWord word =>
    cases word with
    | uint8 | uint16 | uint32 | uint64 | uint128 | uint256 | usmallint | ubigint =>
      exact takes_pure .short
    | uint =>
      refine (takes_intKind NumericTypeKind.unsignedTokens fun _ => rfl).mono
        fun kind us hUs => ?_
      rw [hUs]
      exact .short
    | unsigned =>
      refine takes_verbose.mono fun kind us hUs => ?_
      rw [hUs]
      exact .unsigned
    | _ => exact takes_fail
  | _ => exact takes_fail

/-! ## Value types -/

/-- A value type other than a float type, and its tokens. -/
def WrittenType (v : ValueType) (us : List TokenKind) : Prop :=
  ValueTypeDerives v us ∧ v.supported = true

theorem takes_withLength {make : Option UnsignedInteger → Bool → ValueType} {w : TokenKind}
    (h : ∀ n b, WrittenType (make n b) (w :: (argTokens n ++ notNullTokens b))) :
    Takes (withLength unsignedInteger make) fun v us => WrittenType v ([w] ++ us) := by
  refine takes_bind takes_arg fun n us hUs => ?_
  subst hUs
  exact takes_withNotNull fun b => h n b

theorem takes_withLengthRange
    {make : Option UnsignedInteger → Option UnsignedInteger → Bool → ValueType} {w : TokenKind}
    (h : ∀ range b, WrittenType (make (range.bind Prod.fst) (range.map Prod.snd) b)
      (w :: (lengthRangeTokens range ++ notNullTokens b))) :
    Takes (withLengthRange make) fun v us => WrittenType v ([w] ++ us) := by
  refine takes_bind takes_lengthRange fun range us hUs => ?_
  subst hUs
  exact takes_withNotNull fun b => h range b

theorem takes_characterString : Takes characterStringType WrittenType := by
  refine takes_bind takes_any fun t us hUs => ?_
  subst hUs
  cases t with
  | typeWord word =>
    cases word with
    | string => exact takes_withLengthRange fun _ _ => ⟨.string, rfl⟩
    | char => exact takes_withLength fun _ _ => ⟨.char, rfl⟩
    | varchar => exact takes_withLength fun _ _ => ⟨.varchar, rfl⟩
    | _ => exact takes_fail
  | _ => exact takes_fail

theorem takes_byteString : Takes byteStringType WrittenType := by
  refine takes_bind takes_any fun t us hUs => ?_
  subst hUs
  cases t with
  | typeWord word =>
    cases word with
    | bytes => exact takes_withLengthRange fun _ _ => ⟨.bytes, rfl⟩
    | binary => exact takes_withLength fun _ _ => ⟨.binary, rfl⟩
    | varbinary => exact takes_withLength fun _ _ => ⟨.varbinary, rfl⟩
    | _ => exact takes_fail
  | _ => exact takes_fail

theorem takes_boolean : Takes booleanType WrittenType := by
  refine takes_bind (takes_satisfy _) fun _ us hUs => ?_
  obtain ⟨t, rfl, ht⟩ := hUs
  split at ht
  · exact takes_withNotNull fun b => ⟨.bool, rfl⟩
  · exact takes_withNotNull fun b => ⟨.boolean, rfl⟩
  · cases ht

theorem takes_decimal : Takes decimalNumericType WrittenType := by
  refine takes_bind (takes_satisfy _) fun _ us hUs => ?_
  obtain ⟨t, rfl, ht⟩ := hUs
  refine takes_bind takes_precisionScale fun args us hUs => ?_
  subst hUs
  split at ht
  · exact takes_withNotNull fun b => ⟨.decimal, rfl⟩
  · exact takes_withNotNull fun b => ⟨.dec, rfl⟩
  · cases ht

theorem takes_immaterial : Takes immaterialType WrittenType := by
  refine takes_orElse ?_ ?_
  · refine takes_bind takes_any fun t us hUs => ?_
    subst hUs
    cases t with
    | null =>
      refine takes_bind takes_notNull fun _ us hUs => ?_
      subst hUs
      exact takes_pure ⟨.nullNotNull, rfl⟩
    | typeWord word =>
      cases word with
      | nothing => exact takes_pure ⟨.nothing, rfl⟩
      | _ => exact takes_fail
    | _ => exact takes_fail
  · refine takes_expectThen ?_
    exact takes_pure ⟨.null, rfl⟩

theorem takes_vectorType : Takes vectorType WrittenType := by
  refine takes_expectThen ?_
  refine takes_expectThen ?_
  refine takes_bind takes_unsignedInteger fun n us hUs => ?_
  subst hUs
  refine takes_expectThen ?_
  exact takes_withNotNull fun b => ⟨.vector, rfl⟩

theorem takes_temporal : Takes temporalType WrittenType := by
  have hKind : Takes temporalTypeKind fun kind us => kind = .date ∧ us = [.date] := by
    refine takes_bind takes_any fun t us hUs => ?_
    subst hUs
    cases t with
    | date => exact takes_pure ⟨rfl, rfl⟩
    | _ => exact takes_fail
  refine takes_bind hKind fun kind us hDate => ?_
  obtain ⟨rfl, rfl⟩ := hDate
  exact takes_withNotNull fun b => ⟨.date, rfl⟩

theorem takes_signed : Takes signedBinaryExactNumericType WrittenType :=
  takes_bind takes_signedKind fun _ _ hKind => takes_withNotNull fun _ => ⟨.signed hKind, rfl⟩

theorem takes_unsigned : Takes unsignedBinaryExactNumericType WrittenType :=
  takes_bind takes_unsignedKind fun _ _ hKind => takes_withNotNull fun _ => ⟨.unsigned hKind, rfl⟩

theorem takes_predefinedType : Takes predefinedType WrittenType := by
  refine takes_peekAny fun t => ?_
  split
  case h_1 | h_2 => exact takes_boolean
  case h_3 | h_4 | h_5 => exact takes_characterString
  case h_6 | h_7 | h_8 => exact takes_byteString
  case h_9 | h_10 => exact takes_decimal
  case h_11 | h_12 => exact takes_immaterial
  case h_13 => exact takes_vectorType
  case h_14 =>
    split
    · exact takes_signed
    · split
      · exact takes_unsigned
      · split
        · exact takes_temporal
        · exact takes_fail

/-- **What is accepted as a value type writes it**, and is no float type. -/
theorem takes_valueType : Takes valueType WrittenType := by
  refine takes_peekAny fun t => ?_
  split
  · refine takes_expectThen ?_
    exact takes_withNotNull fun b => ⟨.path, rfl⟩
  · split
    · exact takes_predefinedType
    · exact takes_fail

/-! ## Labels and properties -/

theorem moreLabels_of_pieces {names : List Ident} {us : List TokenKind}
    (h : Pieces (fun name vs => ∃ k, vs = [.ampersand, k] ∧ identifierName k = some name)
      names us) : MoreLabelsDerive names us := by
  induction h with
  | nil => exact .nil
  | cons hName _ ih =>
    obtain ⟨k, rfl, hk⟩ := hName
    exact .cons hk ih

theorem takes_labelSet : Takes labelSetSpecification LabelSetDerives := by
  have hNext : Takes (do expect .ampersand; labelName : TokenParser Ident) fun name vs =>
      ∃ k, vs = [.ampersand, k] ∧ identifierName k = some name := by
    refine takes_expectThen ?_
    refine takes_identifier.mono fun name vs hName => ?_
    obtain ⟨k, rfl, hk⟩ := hName
    exact ⟨k, rfl, hk⟩
  refine (takes_separated1 takes_identifier hNext).mono ?_
  rintro _ _ ⟨name, names, vs, ws, rfl, rfl, ⟨k, rfl, hk⟩, hPieces⟩
  exact .mk hk (moreLabels_of_pieces hPieces)

theorem takes_expectWord (word : NonReservedWord) :
    Takes (expectWord word) fun _ us => ∃ slice, us = [.nonReserved word slice] := by
  refine (takes_satisfy _).mono fun _ us hUs => ?_
  obtain ⟨t, rfl, ht⟩ := hUs
  split at ht
  · rename_i w slice
    rw [beq_iff_eq] at ht
    exact ⟨slice, by rw [ht]⟩
  · cases ht

theorem takes_isOrColon : Takes isOrColon fun _ us => us = [.is] ∨ us = [.colon] := by
  refine (takes_satisfy _).mono fun _ us hUs => ?_
  obtain ⟨t, rfl, ht⟩ := hUs
  split at ht
  · exact .inl rfl
  · exact .inr rfl
  · cases ht

theorem takes_labelPhrase : Takes labelSetPhrase LabelPhraseDerives := by
  have hSet : Takes (do isOrColon; labelSetSpecification) LabelPhraseDerives := by
    refine takes_bind takes_isOrColon fun _ us hUs => takes_labelSet.mono fun names vs hNames => ?_
    obtain rfl | rfl := hUs
    · exact .is hNames
    · exact .colon hNames
  refine takes_peekAny fun t => ?_
  split
  · refine takes_bind (takes_expectWord _) fun _ us hUs => ?_
    obtain ⟨slice, rfl⟩ := hUs
    refine takes_bind takes_identifier fun name vs hName => ?_
    obtain ⟨k, rfl, hk⟩ := hName
    exact takes_pure (.label hk)
  · refine takes_bind (takes_expectWord _) fun _ us hUs => ?_
    obtain ⟨slice, rfl⟩ := hUs
    exact takes_labelSet.mono fun names vs hNames => .labels hNames
  · exact hSet
  · exact hSet
  · exact takes_fail

/-- A property type other than a float type, and its tokens. -/
def WrittenProperty (p : FieldOrPropertyType) (us : List TokenKind) : Prop :=
  PropertyTypeDerives p us ∧ p.2.supported = true

theorem takes_propertyType : Takes propertyType WrittenProperty := by
  have hTyped : Takes typed fun _ us => us = [.typeWord .typed] ∨ us = [.doubleColon] := by
    refine (takes_satisfy _).mono fun _ us hUs => ?_
    obtain ⟨t, rfl, ht⟩ := hUs
    split at ht
    · exact .inl rfl
    · exact .inr rfl
    · cases ht
  refine takes_bind takes_identifier fun name us hName => ?_
  obtain ⟨k, rfl, hk⟩ := hName
  refine takes_bind (takes_opt (Q := fun _ us => TypedWord us) hTyped .absent fun _ us hUs => ?_)
    fun _ us hWord => ?_
  · obtain rfl | rfl := hUs
    · exact .typed
    · exact .doubleColon
  · refine takes_bind takes_valueType fun v vs hType => ?_
    have hTokens : PropertyTypeDerives (name, v) (k :: (us ++ vs)) := .mk hk hWord hType.1
    refine takes_pure ⟨?_, hType.2⟩
    rw [List.append_nil]
    exact hTokens

/-- Property types other than float types, and their tokens. -/
def WrittenProperties (ps : List FieldOrPropertyType) (us : List TokenKind) : Prop :=
  PropertyTypesDerive ps us ∧ (ps.all fun p => p.2.supported) = true

theorem moreProperties_of_pieces {ps : List FieldOrPropertyType} {us : List TokenKind}
    (h : Pieces (fun p vs => ∃ ws, vs = .comma :: ws ∧ WrittenProperty p ws) ps us) :
    MorePropertiesDerive ps us ∧ (ps.all fun p => p.2.supported) = true := by
  induction h with
  | nil => exact ⟨.nil, rfl⟩
  | cons hNext _ ih =>
    obtain ⟨ws, rfl, hType, hGood⟩ := hNext
    refine ⟨.cons hType ih.1, ?_⟩
    rw [List.all_cons, hGood, ih.2]
    rfl

/-- **What is accepted as property types writes them**, and none of them is a float type. -/
theorem takes_propertyTypes : Takes propertyTypesSpecification WrittenProperties := by
  have hNext : Takes (do expect .comma; propertyType : TokenParser FieldOrPropertyType)
      fun p vs => ∃ ws, vs = .comma :: ws ∧ WrittenProperty p ws := by
    refine takes_expectThen ?_
    exact takes_propertyType.mono fun p ws hType => ⟨ws, rfl, hType⟩
  refine takes_expectThen ?_
  refine takes_bind (takes_separated0 takes_propertyType hNext) fun ps us hList => ?_
  refine takes_expectThen ?_
  obtain ⟨rfl, rfl⟩ | ⟨p, ps, vs, ws, rfl, rfl, ⟨hType, hGood⟩, hPieces⟩ := hList
  · exact takes_pure ⟨.none, rfl⟩
  · obtain ⟨hMore, hAll⟩ := moreProperties_of_pieces hPieces
    refine takes_pure ⟨?_, by rw [List.all_cons, hGood, hAll]; rfl⟩
    have hTokens := PropertyTypesDerive.some hType hMore
    simpa using hTokens

/-! ## Fillers -/

theorem takes_implies : Takes implies fun _ us => ∃ k, us = [k] ∧ ImpliesWord k := by
  refine (takes_satisfy _).mono fun _ us hUs => ?_
  obtain ⟨t, rfl, ht⟩ := hUs
  split at ht
  · exact ⟨_, rfl, .implies⟩
  · exact ⟨_, rfl, .arrow⟩
  · cases ht

theorem takes_keyLabelSet : Takes nodeTypeKeyLabelSet fun key us =>
    ∃ tk k, us = tk ++ [k] ∧ Optionally LabelPhraseDerives key tk ∧ ImpliesWord k := by
  refine takes_bind (takes_optionally takes_labelPhrase) fun key tk hKey => ?_
  refine takes_bind takes_implies fun _ us hUs => ?_
  obtain ⟨k, rfl, hk⟩ := hUs
  exact takes_pure ⟨tk, k, by rw [List.append_nil], hKey, hk⟩

/-- What the implied content of a filler is, and its tokens. -/
inductive WrittenContent :
    Option (List Ident) × Option (List FieldOrPropertyType) → List TokenKind → Prop where
  | labeled {labelSet : List Ident} {ps : Option (List FieldOrPropertyType)}
      {tl tp : List TokenKind} :
      LabelPhraseDerives labelSet tl → Optionally WrittenProperties ps tp →
      WrittenContent (some labelSet, ps) (tl ++ tp)
  | propertied {ps : List FieldOrPropertyType} {tp : List TokenKind} :
      WrittenProperties ps tp → WrittenContent (none, some ps) tp

theorem takes_impliedContent : Takes nodeTypeImpliedContent WrittenContent := by
  refine takes_bind (takes_optionally takes_labelPhrase) fun o tl hLabels => ?_
  cases hLabels with
  | present hLabels =>
    refine takes_bind (takes_optionally takes_propertyTypes) fun ps tp hProps => ?_
    refine takes_pure ?_
    rw [List.append_nil]
    exact .labeled hLabels hProps
  | absent =>
    refine takes_bind takes_propertyTypes fun ps tp hProps => ?_
    refine takes_pure ?_
    rw [List.append_nil]
    exact .propertied hProps

/-- A filler without float types, and its tokens. -/
def WrittenFiller (filler : NodeOrEdgeTypeFiller) (us : List TokenKind) : Prop :=
  TypeFillerDerives filler us ∧ filler.supported = true

theorem written_optProperties {ps : Option (List FieldOrPropertyType)} {tp : List TokenKind}
    (h : Optionally WrittenProperties ps tp) :
    Optionally PropertyTypesDerive ps tp ∧ propertiesSupported ps = true := by
  cases h with
  | absent => exact ⟨.absent, rfl⟩
  | present h => exact ⟨.present h.1, h.2⟩

/-- **What is accepted as a filler writes it**, and none of its properties has a float type. -/
theorem takes_nodeTypeFiller : Takes nodeTypeFiller WrittenFiller := by
  refine takes_bind (takes_optionally takes_keyLabelSet) fun o us hKey => ?_
  cases hKey with
  | present hKey =>
    obtain ⟨tk, k, rfl, hKey, hk⟩ := hKey
    refine takes_bind (takes_optionally takes_impliedContent) fun o vs hContent => ?_
    refine takes_pure ?_
    rw [List.append_nil, List.append_assoc]
    cases hContent with
    | absent => exact ⟨.keyed hKey hk .absent .absent, rfl⟩
    | present hContent =>
      cases hContent with
      | labeled hLabels hProps =>
        obtain ⟨hProps, hGood⟩ := written_optProperties hProps
        have hTokens := TypeFillerDerives.keyed hKey hk (.present hLabels) hProps
        exact ⟨hTokens, hGood⟩
      | propertied hProps => exact ⟨.keyed hKey hk .absent (.present hProps.1), hProps.2⟩
  | absent =>
    refine takes_bind takes_impliedContent fun c vs hContent => ?_
    refine takes_pure ?_
    rw [List.append_nil, List.nil_append]
    cases hContent with
    | labeled hLabels hProps =>
      obtain ⟨hProps, hGood⟩ := written_optProperties hProps
      exact ⟨.labeled hLabels hProps, hGood⟩
    | propertied hProps => exact ⟨.propertied hProps.1, hProps.2⟩

/-! ## Names -/

theorem unnamed_of_identifier {ts : List TokenKind} (h : identifier ts = .backtrack) :
    Unnamed ts := by
  cases ts with
  | nil => exact headIn_nil _
  | cons k ts =>
    refine headIn_cons.mpr ?_
    cases k <;> first | rfl | cases h

theorem unnamed_of_regular {ts : List TokenKind} (h : regularIdentifier ts = .backtrack) :
    Unnamed ts := by
  cases ts with
  | nil => exact headIn_nil _
  | cons k ts =>
    refine headIn_cons.mpr ?_
    cases k <;> first | rfl | cases h

theorem takes_afterType {α : Type} {p : TokenParser α} {R : α → List TokenKind → Prop}
    (hp : Takes p R) : Takes (do let _ ← opt (expectWord .type); p) fun a tw =>
      ∃ us, R a us ∧ TypeKeyword True us tw := by
  refine takes_opt_bind (takes_expectWord .type) (fun _ us hUs => ?_) hp fun a us rest hFail hR => ?_
  · obtain ⟨slice, rfl⟩ := hUs
    exact hp.mono fun a vs hR => ⟨vs, hR, .present⟩
  · refine ⟨us, hR, .absent fun _ => ?_⟩
    cases us with
    | nil => exact headIn_nil _
    | cons k us =>
      refine headIn_cons.mpr fun slice hk => ?_
      subst hk
      cases hFail

theorem TypeKeyword.of_append {greedy : Prop} {ts us tw : List TokenKind}
    (h : TypeKeyword greedy (ts ++ us) tw) : ∃ tv, tw = tv ++ us ∧ TypeKeyword greedy ts tv := by
  cases h with
  | present => exact ⟨_, rfl, .present⟩
  | absent hLook => exact ⟨_, rfl, .absent fun hGreedy => (hLook hGreedy).of_append⟩

theorem takes_nodeSynonym : Takes nodeSynonym fun _ us => ∃ k, us = [k] ∧ NodeWord k := by
  refine (takes_satisfy _).mono fun _ us hUs => ?_
  obtain ⟨t, rfl, ht⟩ := hUs
  split at ht
  · exact ⟨_, rfl, .node⟩
  · exact ⟨_, rfl, .vertex⟩
  · cases ht

theorem takes_edgeSynonym : Takes edgeSynonym fun _ us => ∃ k, us = [k] ∧ EdgeWord k := by
  refine (takes_satisfy _).mono fun _ us hUs => ?_
  obtain ⟨t, rfl, ht⟩ := hUs
  split at ht
  · exact ⟨_, rfl, .edge⟩
  · exact ⟨_, rfl, .relationship⟩
  · cases ht

/-- What a phrase filler is, and its tokens. -/
def WrittenPhrase (c : Option Ident × Option NodeOrEdgeTypeFiller) (us : List TokenKind) : Prop :=
  PhraseFillerDerives True c.1 c.2 us ∧ c.2.all NodeOrEdgeTypeFiller.supported = true

theorem written_optFiller {filler : Option NodeOrEdgeTypeFiller} {us : List TokenKind}
    (h : Optionally WrittenFiller filler us) :
    Optionally TypeFillerDerives filler us ∧
      filler.all NodeOrEdgeTypeFiller.supported = true := by
  cases h with
  | absent => exact ⟨.absent, rfl⟩
  | present h => exact ⟨.present h.1, h.2⟩

theorem takes_phraseFiller : Takes nodeTypePhraseFiller WrittenPhrase := by
  refine takes_opt_bind takes_identifier (fun name us hName => ?_)
    (W := fun c us => ∃ filler, c = (none, some filler) ∧ WrittenFiller filler us) ?_ ?_
  · obtain ⟨k, rfl, hk⟩ := hName
    refine takes_bind (takes_optionally takes_nodeTypeFiller) fun filler us hFiller => ?_
    obtain ⟨hFiller, hGood⟩ := written_optFiller hFiller
    have hTokens : PhraseFillerDerives True (some name) filler (k :: us) := .named hk hFiller
    refine takes_pure ⟨?_, hGood⟩
    rw [List.append_nil]
    exact hTokens
  · refine takes_bind takes_nodeTypeFiller fun filler us hFiller => ?_
    refine takes_pure ?_
    rw [List.append_nil]
    exact ⟨filler, rfl, hFiller⟩
  · rintro _ us rest hFail ⟨filler, rfl, hFiller, hGood⟩
    exact ⟨.unnamed hFiller fun _ => (unnamed_of_identifier hFail).of_append, hGood⟩

/-! ## Node types -/

/-- A node type without float types, and its tokens. -/
def WrittenNode (n : NodeType) (us : List TokenKind) : Prop :=
  NodeTypeDerives True n us ∧ n.filler.all NodeOrEdgeTypeFiller.supported = true

theorem takes_nodeName : Takes (do nodeSynonym; let _ ← opt (expectWord .type); nodeTypeName)
    (NodeNameDerives True) := by
  refine takes_bind takes_nodeSynonym fun _ us hUs => ?_
  obtain ⟨k, rfl, hk⟩ := hUs
  refine (takes_afterType takes_identifier).mono fun name tw hName => ?_
  obtain ⟨_, ⟨n, rfl, hn⟩, hType⟩ := hName
  exact .mk hk hn hType

theorem takes_nodeTypePattern : Takes nodeTypePattern WrittenNode := by
  refine takes_bind (takes_optionally takes_nodeName) fun name tn hName => ?_
  refine takes_expectThen ?_
  refine takes_opt_bind takes_regularIdentifier (fun localAlias us hAlias => ?_)
    (W := fun n us => ∃ filler tf, n = ⟨name, none, filler⟩ ∧ us = tf ++ [.rightParen] ∧
      Optionally WrittenFiller filler tf) ?_ ?_
  · obtain ⟨k, rfl, hk⟩ := hAlias
    refine takes_bind (takes_optionally takes_nodeTypeFiller) fun filler tf hFiller => ?_
    refine takes_expectThen ?_
    obtain ⟨hFiller, hGood⟩ := written_optFiller hFiller
    have hTokens : NodeTypeDerives True ⟨name, some localAlias, filler⟩ _ :=
      .pattern hName (.present (.mk hk)) hFiller nofun
    exact takes_pure ⟨by simpa using hTokens, hGood⟩
  · refine takes_bind (takes_optionally takes_nodeTypeFiller) fun filler tf hFiller => ?_
    exact takes_expectThen (takes_pure ⟨filler, tf, rfl, rfl, hFiller⟩)
  · rintro _ _ rest hFail ⟨filler, tf, rfl, rfl, hFiller⟩
    obtain ⟨hFiller, hGood⟩ := written_optFiller hFiller
    have hTokens : NodeTypeDerives True ⟨name, none, filler⟩ _ :=
      .pattern hName .absent hFiller fun _ _ => (unnamed_of_regular hFail).of_append.of_append
    exact ⟨by simpa using hTokens, hGood⟩

theorem takes_nodeTypePhrase : Takes nodeTypePhrase WrittenNode := by
  refine takes_bind takes_nodeSynonym fun _ us hUs => ?_
  obtain ⟨k, rfl, hk⟩ := hUs
  have hAlias : Takes (do expect (.typeWord .as); localNodeTypeAlias) AsAliasDerives := by
    refine takes_expectThen ?_
    refine takes_regularIdentifier.mono fun name us hName => ?_
    obtain ⟨n, rfl, hn⟩ := hName
    exact .mk hn
  have hRest : Takes
      (do
        let c ← nodeTypePhraseFiller
        let localAlias ← opt do
          expect (.typeWord .as)
          localNodeTypeAlias
        pure ⟨c.1, localAlias, c.2⟩ : TokenParser NodeType)
      fun n us => ∃ tf ta, us = tf ++ ta ∧ WrittenPhrase (n.name, n.filler) tf ∧
        Optionally AsAliasDerives n.localAlias ta := by
    refine takes_bind takes_phraseFiller fun c tf hFiller => ?_
    refine takes_bind (takes_optionally hAlias) fun localAlias ta hAlias => ?_
    exact takes_pure ⟨tf, ta, by rw [List.append_nil], hFiller, hAlias⟩
  refine (takes_afterType hRest).mono fun n tw hTaken => ?_
  obtain ⟨_, ⟨tf, ta, rfl, ⟨hFiller, hGood⟩, hAlias⟩, hType⟩ := hTaken
  obtain ⟨tv, rfl, hKeyword⟩ := hType.of_append
  have hTokens : NodeTypeDerives True n (k :: (tv ++ ta)) := .phrase hk hFiller hKeyword hAlias
  exact ⟨hTokens, hGood⟩

theorem takes_nodeTypeSpecification : Takes nodeTypeSpecification WrittenNode := by
  refine takes_peekAny fun t => ?_
  split
  · exact takes_nodeTypePattern
  · exact takes_orElse takes_nodeTypePattern takes_nodeTypePhrase
  · exact takes_orElse takes_nodeTypePattern takes_nodeTypePhrase
  · exact takes_fail

/-- A reference without float types, and its tokens. -/
def WrittenRef (ref : NodeTypeRef) (us : List TokenKind) : Prop :=
  TypeRefDerives True ref us ∧ ref.supported = true

theorem takes_nodeTypeReference : Takes nodeTypeReference WrittenRef := by
  refine takes_expectThen ?_
  refine takes_bind (takes_orElse_look
    (R := fun ref us => WrittenRef ref (.leftParen :: (us ++ [.rightParen])))
    (Q := fun ref us => (ref = .empty ∧ us = []) ∨
      ∃ filler, ref = .filler filler ∧ WrittenFiller filler us) ?_ ?_ ?_) fun ref us hRef => ?_
  · refine takes_bind takes_regularIdentifier fun name us hName => ?_
    obtain ⟨k, rfl, hk⟩ := hName
    exact takes_pure ⟨.byAlias hk, rfl⟩
  · refine takes_bind (takes_optionally takes_nodeTypeFiller) fun filler us hFiller => ?_
    cases hFiller with
    | absent => exact takes_pure (.inl ⟨rfl, rfl⟩)
    | present hFiller =>
      refine takes_pure (.inr ⟨_, rfl, ?_⟩)
      rw [List.append_nil]
      exact hFiller
  · rintro ref us rest hFail (⟨rfl, rfl⟩ | ⟨filler, rfl, hFiller, hGood⟩)
    · exact ⟨.empty, rfl⟩
    · have hAlias : regularIdentifier (us ++ rest) = .backtrack := by
        cases hName : regularIdentifier (us ++ rest) with
        | backtrack => rfl
        | _ =>
          rw [bind_apply, nodeTypeAlias, hName] at hFail
          cases hFail
      exact ⟨.filler hFiller fun _ => (unnamed_of_regular hAlias).of_append, hGood⟩
  · exact takes_expectThen (takes_pure hRef)

/-! ## Edge types -/

/-- The kind of the edges of a direction. -/
def EdgeDirection.kind : EdgeDirection → EdgeKind
  | .leftToRight | .rightToLeft => .directed
  | .undirected => .undirected

/-- The pattern of an edge type without name and float types, and its tokens. -/
def WrittenArc (p : EdgeTypePattern) (us : List TokenKind) : Prop :=
  ∃ tl tf tr, us = tl ++ (p.direction.brackets.1 :: (tf ++ (p.direction.brackets.2 :: tr))) ∧
    WrittenRef p.left tl ∧ WrittenFiller p.filler tf ∧ WrittenRef p.right tr

theorem takes_arcType (direction : EdgeDirection) :
    Takes (arcType direction.brackets.1 direction.brackets.2) fun filler us =>
      ∃ tf, us = direction.brackets.1 :: (tf ++ [direction.brackets.2]) ∧
        WrittenFiller filler tf := by
  refine takes_expectThen ?_
  refine takes_bind takes_nodeTypeFiller fun filler tf hFiller => ?_
  refine takes_expectThen ?_
  exact takes_pure ⟨tf, rfl, hFiller⟩

theorem takes_patternDirected : Takes edgeTypePatternDirected fun p us =>
    (p.name = none ∧ p.direction.kind = .directed) ∧ WrittenArc p us := by
  refine takes_bind takes_nodeTypeReference fun left tl hLeft => ?_
  refine takes_bind (R := fun (c : EdgeDirection × NodeOrEdgeTypeFiller) us =>
    c.1.kind = .directed ∧ ∃ tf, us = c.1.brackets.1 :: (tf ++ [c.1.brackets.2]) ∧
      WrittenFiller c.2 tf) ?_ fun c us hArc => ?_
  · refine takes_peekAny fun t => ?_
    split
    · refine takes_bind (takes_arcType .leftToRight) fun filler us hArc => ?_
      refine takes_pure ⟨rfl, ?_⟩
      rw [List.append_nil]
      exact hArc
    · refine takes_bind (takes_arcType .rightToLeft) fun filler us hArc => ?_
      refine takes_pure ⟨rfl, ?_⟩
      rw [List.append_nil]
      exact hArc
    · exact takes_fail
  · obtain ⟨direction, filler⟩ := c
    obtain ⟨hKind, tf, rfl, hFiller⟩ := hArc
    refine takes_bind takes_nodeTypeReference fun right tr hRight => ?_
    exact takes_pure ⟨⟨rfl, hKind⟩, tl, tf, tr, by simp, hLeft, hFiller, hRight⟩

theorem takes_patternUndirected : Takes edgeTypePatternUndirected fun p us =>
    (p.name = none ∧ p.direction.kind = .undirected) ∧ WrittenArc p us := by
  refine takes_bind takes_nodeTypeReference fun left tl hLeft => ?_
  refine takes_bind (takes_arcType .undirected) fun filler us hArc => ?_
  obtain ⟨tf, rfl, hFiller⟩ := hArc
  refine takes_bind takes_nodeTypeReference fun right tr hRight => ?_
  exact takes_pure ⟨⟨rfl, rfl⟩, tl, tf, tr, by simp, hLeft, hFiller, hRight⟩

/-- An edge type without float types, and its tokens. -/
def WrittenEdge (e : EdgeType) (us : List TokenKind) : Prop :=
  EdgeTypeDerives True e us ∧ e.supported = true

theorem WrittenArc.edge {p : EdgeTypePattern} {us tn : List TokenKind} (h : WrittenArc p us)
    {name : Option Ident} (hName : Optionally (EdgeNameDerives True p.direction) name tn) :
    WrittenEdge (.pattern { p with name := name }) (tn ++ us) := by
  obtain ⟨tl, tf, tr, rfl, ⟨hLeft, hL⟩, ⟨hFiller, hF⟩, hRight, hR⟩ := h
  refine ⟨.pattern hName hLeft hFiller hRight, ?_⟩
  rw [EdgeType.supported, hL, hF, hR]
  rfl

theorem takes_edgeKind : Takes edgeKind fun kind us =>
    ∀ direction : EdgeDirection, direction.kind = kind →
      ∃ slice, us = [.nonReserved direction.kindWord slice] := by
  refine takes_bind takes_any fun t us hUs => ?_
  subst hUs
  split
  · rename_i slice
    refine takes_pure fun direction hKind => ⟨slice, ?_⟩
    cases direction <;> first | rfl | cases hKind
  · rename_i slice
    refine takes_pure fun direction hKind => ⟨slice, ?_⟩
    cases direction <;> first | rfl | cases hKind
  · exact takes_fail

theorem takes_edgeName : Takes
    (do
      let kind ← opt edgeKind
      edgeSynonym
      let _ ← opt (expectWord .type)
      let name ← edgeTypeName
      pure (kind, name))
    fun c us => ∀ direction : EdgeDirection, (∀ kind ∈ c.1, direction.kind = kind) →
      EdgeNameDerives True direction c.2 us := by
  refine takes_bind (takes_optionally takes_edgeKind) fun kind tk hKind => ?_
  refine takes_bind takes_edgeSynonym fun _ us hUs => ?_
  obtain ⟨k, rfl, hk⟩ := hUs
  have hName : Takes (do let name ← edgeTypeName; pure (kind, name)) fun c us =>
      c.1 = kind ∧ ∃ n, us = [n] ∧ identifierName n = some c.2 := by
    refine takes_bind takes_identifier fun name us hName => ?_
    refine takes_pure ⟨rfl, ?_⟩
    rw [List.append_nil]
    exact hName
  refine (takes_afterType hName).mono fun c tw hTaken => ?_
  obtain ⟨kind', name⟩ := c
  obtain ⟨_, ⟨hSame, n, rfl, hn⟩, hType⟩ := hTaken
  obtain rfl : kind' = kind := hSame
  intro direction hDirection
  refine .mk ?_ hk hn hType
  cases hKind with
  | absent => exact .absent
  | present hKind =>
    obtain ⟨slice, rfl⟩ := hKind direction (hDirection _ rfl)
    exact .present

theorem takes_edgeTypePattern :
    Takes edgeTypePattern fun p us => WrittenEdge (.pattern p) us := by
  have hAny : Takes (orElse edgeTypePatternDirected edgeTypePatternUndirected) fun p us =>
      p.name = none ∧ WrittenArc p us :=
    takes_orElse (takes_patternDirected.mono fun p us h => ⟨h.1.1, h.2⟩)
      (takes_patternUndirected.mono fun p us h => ⟨h.1.1, h.2⟩)
  refine takes_bind (takes_optionally takes_edgeName) fun c tn hName => ?_
  cases hName with
  | absent =>
    refine hAny.mono fun p us h => ?_
    obtain ⟨name, direction, left, filler, right⟩ := p
    obtain rfl : name = none := h.1
    exact h.2.edge .absent
  | @present c _ hName =>
    obtain ⟨kind, name⟩ := c
    match kind with
    | some .directed =>
      refine takes_bind takes_patternDirected fun p us h => takes_pure ?_
      rw [List.append_nil]
      exact h.2.edge (.present (hName _ fun kind hk => h.1.2.trans (Option.some.inj hk)))
    | some .undirected =>
      refine takes_bind takes_patternUndirected fun p us h => takes_pure ?_
      rw [List.append_nil]
      exact h.2.edge (.present (hName _ fun kind hk => h.1.2.trans (Option.some.inj hk)))
    | none =>
      refine takes_bind hAny fun p us h => takes_pure ?_
      rw [List.append_nil]
      exact h.2.edge (.present (hName _ nofun))

/-- The ends of an edge type of a direction, and their tokens. -/
def WrittenEnds (direction : EdgeDirection) (left right : Ident) (us : List TokenKind) : Prop :=
  ∃ l c r, us = [.leftParen, l, c, r, .rightParen] ∧ regularName l = some left ∧
    ConnectorDerives direction c ∧ regularName r = some right

theorem takes_endsDirected : Takes endpointPairDirected fun c us =>
    c.2.1.kind = .directed ∧ WrittenEnds c.2.1 c.1 c.2.2 us := by
  refine takes_expectThen ?_
  refine takes_bind takes_regularIdentifier fun left us hLeft => ?_
  obtain ⟨l, rfl, hl⟩ := hLeft
  refine takes_bind (R := fun (direction : EdgeDirection) us => direction.kind = .directed ∧
    ∃ c, us = [c] ∧ ConnectorDerives direction c) ?_ fun direction us hConnector => ?_
  · refine takes_bind takes_any fun t us hUs => ?_
    subst hUs
    split
    · exact takes_pure ⟨rfl, _, rfl, .rightTo⟩
    · exact takes_pure ⟨rfl, _, rfl, .rightArrow⟩
    · exact takes_pure ⟨rfl, _, rfl, .leftArrow⟩
    · exact takes_fail
  · obtain ⟨hKind, c, rfl, hc⟩ := hConnector
    refine takes_bind takes_regularIdentifier fun right us hRight => ?_
    obtain ⟨r, rfl, hr⟩ := hRight
    refine takes_expectThen ?_
    exact takes_pure ⟨hKind, l, c, r, rfl, hl, hc, hr⟩

theorem takes_endsUndirected : Takes endpointPairUndirected fun c us =>
    WrittenEnds .undirected c.1 c.2 us := by
  refine takes_expectThen ?_
  refine takes_bind takes_regularIdentifier fun left us hLeft => ?_
  obtain ⟨l, rfl, hl⟩ := hLeft
  refine takes_bind (takes_satisfy _) fun _ us hUs => ?_
  obtain ⟨c, rfl, hc⟩ := hUs
  have hConnector : ConnectorDerives .undirected c := by
    split at hc
    · exact .undirectedTo
    · exact .tilde
    · cases hc
  refine takes_bind takes_regularIdentifier fun right us hRight => ?_
  obtain ⟨r, rfl, hr⟩ := hRight
  refine takes_expectThen ?_
  exact takes_pure ⟨l, c, r, rfl, hl, hConnector, hr⟩

/-- What comes after the words for the kind of an edge, and its tokens. -/
def WrittenEdgePhrase (kind : EdgeKind) (p : EdgeTypePhrase) (us : List TokenKind) : Prop :=
  ∃ tf slice te, us = tf ++ (.nonReserved .connecting slice :: te) ∧
    WrittenPhrase (p.name, p.filler) tf ∧ p.direction.kind = kind ∧
    WrittenEnds p.direction p.left p.right te

theorem takes_edgeTypePhrase :
    Takes edgeTypePhrase fun p us => WrittenEdge (.phrase p) us := by
  refine takes_bind takes_edgeKind fun kind tk hKind => ?_
  refine takes_bind takes_edgeSynonym fun _ us hUs => ?_
  obtain ⟨k, rfl, hk⟩ := hUs
  refine (takes_afterType (R := WrittenEdgePhrase kind) ?_).mono fun p tw hTaken => ?_
  · refine takes_bind takes_phraseFiller fun c tf hFiller => ?_
    obtain ⟨name, filler⟩ := c
    refine takes_bind (takes_expectWord _) fun _ us hUs => ?_
    obtain ⟨slice, rfl⟩ := hUs
    cases kind with
    | directed =>
      refine takes_bind takes_endsDirected fun c te hEnds => takes_pure ?_
      exact ⟨tf, slice, te, by simp, hFiller, hEnds.1, hEnds.2⟩
    | undirected =>
      refine takes_bind takes_endsUndirected fun c te hEnds => takes_pure ?_
      exact ⟨tf, slice, te, by simp, hFiller, rfl, hEnds⟩
  · obtain ⟨_, ⟨tf, slice, _, rfl, ⟨hFiller, hGood⟩, rfl, l, c, r, rfl, hl, hc, hr⟩, hType⟩ :=
      hTaken
    obtain ⟨slice', rfl⟩ := hKind p.direction rfl
    obtain ⟨tv, rfl, hKeyword⟩ := hType.of_append
    have hTokens : EdgeTypeDerives True (.phrase p) (.nonReserved p.direction.kindWord slice' ::
        k :: (tv ++ [.nonReserved .connecting slice, .leftParen, l, c, r, .rightParen])) :=
      .phrase hk hFiller hKeyword hl hc hr
    exact ⟨hTokens, hGood⟩

/-! ## Element types -/

/-- An element type without float types, and its tokens. -/
def WrittenElement (el : GraphElementType) (us : List TokenKind) : Prop :=
  ElementTypeDerives True el us ∧ el.supported = true

/-- **What is accepted as an element type writes it.** -/
theorem takes_elementType : Takes elementTypeSpecification WrittenElement := by
  have hPattern : Takes (do let p ← edgeTypePattern; pure (.pattern p)) WrittenEdge := by
    refine takes_bind takes_edgeTypePattern fun p us h => takes_pure ?_
    rw [List.append_nil]
    exact h
  have hPhrase : Takes (do let p ← edgeTypePhrase; pure (.phrase p)) WrittenEdge := by
    refine takes_bind takes_edgeTypePhrase fun p us h => takes_pure ?_
    rw [List.append_nil]
    exact h
  have hEdge : Takes edgeElement WrittenElement := by
    refine takes_bind (R := WrittenEdge) ?_ fun e us h => takes_pure ?_
    · refine takes_peekAny fun t => ?_
      split
      · exact hPattern
      · exact hPattern
      · exact hPattern
      · exact takes_orElse hPattern hPhrase
      · exact takes_orElse hPattern hPhrase
      · exact takes_fail
    · rw [List.append_nil]
      exact ⟨.edge h.1, h.2⟩
  have hNode : Takes nodeElement WrittenElement := by
    refine takes_bind takes_nodeTypeSpecification fun n us h => takes_pure ?_
    rw [List.append_nil]
    exact ⟨.node h.1, h.2⟩
  refine takes_peekAny fun t => ?_
  split
  · exact hNode
  · exact hNode
  · exact hEdge
  · exact hEdge
  · exact hEdge
  · exact hEdge
  · exact takes_orElse hEdge (takes_orElse hNode takes_fail)

end MiniGU.Parsing
