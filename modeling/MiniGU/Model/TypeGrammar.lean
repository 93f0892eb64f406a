import MiniGU.Model.CreateGraph
import MiniGU.Model.PatternGrammar
import MiniGU.Model.TypeElement

/-!
# The grammar of graph element types

Which token sequences write a graph element type, by the rules of the GQL grammar
(`minigu-test/benches/antlr4/src/GQL.g4`, `elementTypeSpecification` and below), over the value
types that the binder supports or a parser reads. Vectors, which GQL does not have, are written as
the tests of the parser write them, and a precision is any unsigned integer, as in the AST. The
word for the kind of an edge is the one for its direction.

With `greedy`, a name, an alias or the word `TYPE` is left out only where the next token could not
be one.
-/

namespace MiniGU.Parsing

/-! ## Value types -/

def notNullTokens : Bool → List TokenKind
  | false => []
  | true => [.not, .null]

/-- A length or a precision in parentheses, where it is given. -/
def argTokens : Option UnsignedInteger → List TokenKind
  | none => []
  | some n => [.leftParen, unsignedIntegerToken n, .rightParen]

/-- A maximal length, with a minimal one before it or not. -/
def lengthRangeTokens : Option (Option UnsignedInteger × UnsignedInteger) → List TokenKind
  | none => []
  | some (none, n) => [.leftParen, unsignedIntegerToken n, .rightParen]
  | some (some m, n) =>
    [.leftParen, unsignedIntegerToken m, .comma, unsignedIntegerToken n, .rightParen]

/-- A precision, with a scale after it or not. -/
def precisionScaleTokens : Option (UnsignedInteger × Option UnsignedInteger) → List TokenKind
  | none => []
  | some (n, none) => [.leftParen, unsignedIntegerToken n, .rightParen]
  | some (n, some m) =>
    [.leftParen, unsignedIntegerToken n, .comma, unsignedIntegerToken m, .rightParen]

/-- `verboseBinaryExactNumericType`. -/
def NumericTypeKind.verboseTokens : NumericTypeKind → List TokenKind
  | .int8 => [.typeWord .integer8]
  | .int16 => [.typeWord .integer16]
  | .int32 => [.typeWord .integer32]
  | .int64 => [.typeWord .integer64]
  | .int128 => [.typeWord .integer128]
  | .int256 => [.typeWord .integer256]
  | .small => [.typeWord .small, .typeWord .integer]
  | .int precision => .typeWord .integer :: argTokens precision
  | .big => [.typeWord .big, .typeWord .integer]

def NumericTypeKind.signedTokens : NumericTypeKind → List TokenKind
  | .int8 => [.typeWord .int8]
  | .int16 => [.typeWord .int16]
  | .int32 => [.typeWord .int32]
  | .int64 => [.typeWord .int64]
  | .int128 => [.typeWord .int128]
  | .int256 => [.typeWord .int256]
  | .small => [.typeWord .smallint]
  | .int precision => .typeWord .int :: argTokens precision
  | .big => [.typeWord .bigint]

def NumericTypeKind.unsignedTokens : NumericTypeKind → List TokenKind
  | .int8 => [.typeWord .uint8]
  | .int16 => [.typeWord .uint16]
  | .int32 => [.typeWord .uint32]
  | .int64 => [.typeWord .uint64]
  | .int128 => [.typeWord .uint128]
  | .int256 => [.typeWord .uint256]
  | .small => [.typeWord .usmallint]
  | .int precision => .typeWord .uint :: argTokens precision
  | .big => [.typeWord .ubigint]

/-- `signedBinaryExactNumericType`. -/
inductive SignedDerives : NumericTypeKind → List TokenKind → Prop where
  | short {kind : NumericTypeKind} : SignedDerives kind kind.signedTokens
  | verbose {kind : NumericTypeKind} : SignedDerives kind kind.verboseTokens
  | signed {kind : NumericTypeKind} : SignedDerives kind (.typeWord .signed :: kind.verboseTokens)

/-- `unsignedBinaryExactNumericType`. -/
inductive UnsignedDerives : NumericTypeKind → List TokenKind → Prop where
  | short {kind : NumericTypeKind} : UnsignedDerives kind kind.unsignedTokens
  | unsigned {kind : NumericTypeKind} :
      UnsignedDerives kind (.typeWord .unsigned :: kind.verboseTokens)

/-- `approximateNumericType`. -/
inductive FloatDerives : FloatTypeKind → List TokenKind → Prop where
  | float16 : FloatDerives .float16 [.typeWord .float16]
  | float32 : FloatDerives .float32 [.typeWord .float32]
  | float64 : FloatDerives .float64 [.typeWord .float64]
  | float128 : FloatDerives .float128 [.typeWord .float128]
  | float256 : FloatDerives .float256 [.typeWord .float256]
  | real : FloatDerives .real [.typeWord .real]
  | double : FloatDerives .double [.typeWord .double]
  | doublePrecision : FloatDerives .double [.typeWord .double, .typeWord .precision]
  | float {args : Option (UnsignedInteger × Option UnsignedInteger)} :
      FloatDerives (.float (args.map Prod.fst) (args.bind Prod.snd))
        (.typeWord .float :: precisionScaleTokens args)

inductive ValueTypeDerives : ValueType → List TokenKind → Prop where
  | bool {b : Bool} : ValueTypeDerives (.bool b) (.typeWord .bool :: notNullTokens b)
  | boolean {b : Bool} : ValueTypeDerives (.bool b) (.typeWord .boolean :: notNullTokens b)
  | string {range : Option (Option UnsignedInteger × UnsignedInteger)} {b : Bool} :
      ValueTypeDerives (.string (range.bind Prod.fst) (range.map Prod.snd) b)
        (.typeWord .string :: (lengthRangeTokens range ++ notNullTokens b))
  | char {length : Option UnsignedInteger} {b : Bool} :
      ValueTypeDerives (.char length b) (.typeWord .char :: (argTokens length ++ notNullTokens b))
  | varchar {length : Option UnsignedInteger} {b : Bool} :
      ValueTypeDerives (.varchar length b)
        (.typeWord .varchar :: (argTokens length ++ notNullTokens b))
  | bytes {range : Option (Option UnsignedInteger × UnsignedInteger)} {b : Bool} :
      ValueTypeDerives (.bytes (range.bind Prod.fst) (range.map Prod.snd) b)
        (.typeWord .bytes :: (lengthRangeTokens range ++ notNullTokens b))
  | binary {length : Option UnsignedInteger} {b : Bool} :
      ValueTypeDerives (.binary length b)
        (.typeWord .binary :: (argTokens length ++ notNullTokens b))
  | varbinary {length : Option UnsignedInteger} {b : Bool} :
      ValueTypeDerives (.varbinary length b)
        (.typeWord .varbinary :: (argTokens length ++ notNullTokens b))
  | signed {kind : NumericTypeKind} {ts : List TokenKind} {b : Bool} :
      SignedDerives kind ts → ValueTypeDerives (.signedNumeric kind b) (ts ++ notNullTokens b)
  | unsigned {kind : NumericTypeKind} {ts : List TokenKind} {b : Bool} :
      UnsignedDerives kind ts → ValueTypeDerives (.unsignedNumeric kind b) (ts ++ notNullTokens b)
  | decimal {args : Option (UnsignedInteger × Option UnsignedInteger)} {b : Bool} :
      ValueTypeDerives (.decimal (args.map Prod.fst) (args.bind Prod.snd) b)
        (.typeWord .decimal :: (precisionScaleTokens args ++ notNullTokens b))
  | dec {args : Option (UnsignedInteger × Option UnsignedInteger)} {b : Bool} :
      ValueTypeDerives (.decimal (args.map Prod.fst) (args.bind Prod.snd) b)
        (.typeWord .dec :: (precisionScaleTokens args ++ notNullTokens b))
  | float {kind : FloatTypeKind} {ts : List TokenKind} {b : Bool} :
      FloatDerives kind ts → ValueTypeDerives (.float kind b) (ts ++ notNullTokens b)
  | date {b : Bool} : ValueTypeDerives (.temporal .date b) (.date :: notNullTokens b)
  | vector {dimension : UnsignedInteger} {b : Bool} :
      ValueTypeDerives (.vector dimension b)
        (.vector :: .leftParen :: unsignedIntegerToken dimension :: .rightParen :: notNullTokens b)
  | path {b : Bool} : ValueTypeDerives (.path b) (.path :: notNullTokens b)
  | null : ValueTypeDerives .null [.null]
  | nullNotNull : ValueTypeDerives .empty [.null, .not, .null]
  | nothing : ValueTypeDerives .empty [.typeWord .nothing]

/-! ## Labels and properties -/

/-- Labels after the first, each with the ampersand before it. -/
inductive MoreLabelsDerive : List Ident → List TokenKind → Prop where
  | nil : MoreLabelsDerive [] []
  | cons {k : TokenKind} {name : Ident} {names : List Ident} {ts : List TokenKind} :
      identifierName k = some name → MoreLabelsDerive names ts →
      MoreLabelsDerive (name :: names) (.ampersand :: k :: ts)

/-- `labelSetSpecification`. -/
inductive LabelSetDerives : List Ident → List TokenKind → Prop where
  | mk {k : TokenKind} {name : Ident} {names : List Ident} {ts : List TokenKind} :
      identifierName k = some name → MoreLabelsDerive names ts →
      LabelSetDerives (name :: names) (k :: ts)

inductive LabelPhraseDerives : List Ident → List TokenKind → Prop where
  | label {slice : Ident} {k : TokenKind} {name : Ident} :
      identifierName k = some name → LabelPhraseDerives [name] [.nonReserved .label slice, k]
  | labels {slice : Ident} {names : List Ident} {ts : List TokenKind} :
      LabelSetDerives names ts → LabelPhraseDerives names (.nonReserved .labels slice :: ts)
  | is {names : List Ident} {ts : List TokenKind} :
      LabelSetDerives names ts → LabelPhraseDerives names (.is :: ts)
  | colon {names : List Ident} {ts : List TokenKind} :
      LabelSetDerives names ts → LabelPhraseDerives names (.colon :: ts)

/-- `typed`, where it may be left out. -/
inductive TypedWord : List TokenKind → Prop where
  | absent : TypedWord []
  | doubleColon : TypedWord [.doubleColon]
  | typed : TypedWord [.typeWord .typed]

inductive PropertyTypeDerives : FieldOrPropertyType → List TokenKind → Prop where
  | mk {k : TokenKind} {name : Ident} {v : ValueType} {tt tv : List TokenKind} :
      identifierName k = some name → TypedWord tt → ValueTypeDerives v tv →
      PropertyTypeDerives (name, v) (k :: (tt ++ tv))

/-- Property types after the first, each with the comma before it. -/
inductive MorePropertiesDerive : List FieldOrPropertyType → List TokenKind → Prop where
  | nil : MorePropertiesDerive [] []
  | cons {p : FieldOrPropertyType} {ps : List FieldOrPropertyType} {tp ts : List TokenKind} :
      PropertyTypeDerives p tp → MorePropertiesDerive ps ts →
      MorePropertiesDerive (p :: ps) (.comma :: (tp ++ ts))

/-- `propertyTypesSpecification`. -/
inductive PropertyTypesDerive : List FieldOrPropertyType → List TokenKind → Prop where
  | none : PropertyTypesDerive [] [.leftBrace, .rightBrace]
  | some {p : FieldOrPropertyType} {ps : List FieldOrPropertyType} {tp ts : List TokenKind} :
      PropertyTypeDerives p tp → MorePropertiesDerive ps ts →
      PropertyTypesDerive (p :: ps) (.leftBrace :: (tp ++ (ts ++ [.rightBrace])))

inductive ImpliesWord : TokenKind → Prop where
  | implies : ImpliesWord (.typeWord .implies)
  | arrow : ImpliesWord .rightDoubleArrow

/-- `nodeTypeFiller` and `edgeTypeFiller`. -/
inductive TypeFillerDerives : NodeOrEdgeTypeFiller → List TokenKind → Prop where
  | keyed {key labelSet : Option (List Ident)} {ps : Option (List FieldOrPropertyType)}
      {k : TokenKind} {tk tl tp : List TokenKind} :
      Optionally LabelPhraseDerives key tk → ImpliesWord k →
      Optionally LabelPhraseDerives labelSet tl → Optionally PropertyTypesDerive ps tp →
      TypeFillerDerives ⟨key, labelSet, ps⟩ (tk ++ (k :: (tl ++ tp)))
  | labeled {labelSet : List Ident} {ps : Option (List FieldOrPropertyType)}
      {tl tp : List TokenKind} :
      LabelPhraseDerives labelSet tl → Optionally PropertyTypesDerive ps tp →
      TypeFillerDerives ⟨none, some labelSet, ps⟩ (tl ++ tp)
  | propertied {ps : List FieldOrPropertyType} {tp : List TokenKind} :
      PropertyTypesDerive ps tp → TypeFillerDerives ⟨none, none, some ps⟩ tp

/-! ## Names -/

/-- No name can be read here. -/
def Unnamed (ts : List TokenKind) : Prop := HeadIn (fun k => regularName k = none) ts

/-- The second list is the first with `TYPE` before it, or not. -/
inductive TypeKeyword (greedy : Prop) : List TokenKind → List TokenKind → Prop where
  | present {slice : Ident} {ts : List TokenKind} :
      TypeKeyword greedy ts (.nonReserved .type slice :: ts)
  | absent {ts : List TokenKind} :
      (greedy → HeadIn (fun k => ∀ slice, k ≠ .nonReserved .type slice) ts) →
      TypeKeyword greedy ts ts

inductive NodeWord : TokenKind → Prop where
  | node {slice : Ident} : NodeWord (.nonReserved .node slice)
  | vertex {slice : Ident} : NodeWord (.nonReserved .vertex slice)

inductive EdgeWord : TokenKind → Prop where
  | edge {slice : Ident} : EdgeWord (.nonReserved .edge slice)
  | relationship {slice : Ident} : EdgeWord (.nonReserved .relationship slice)

/-- The name before the pattern of a node type. -/
inductive NodeNameDerives (greedy : Prop) : Ident → List TokenKind → Prop where
  | mk {k n : TokenKind} {name : Ident} {tn : List TokenKind} :
      NodeWord k → identifierName n = some name → TypeKeyword greedy [n] tn →
      NodeNameDerives greedy name (k :: tn)

/-- `nodeTypePhraseFiller` and `edgeTypePhraseFiller`. -/
inductive PhraseFillerDerives (greedy : Prop) :
    Option Ident → Option NodeOrEdgeTypeFiller → List TokenKind → Prop where
  | named {k : TokenKind} {name : Ident} {filler : Option NodeOrEdgeTypeFiller}
      {tf : List TokenKind} :
      identifierName k = some name → Optionally TypeFillerDerives filler tf →
      PhraseFillerDerives greedy (some name) filler (k :: tf)
  | unnamed {filler : NodeOrEdgeTypeFiller} {tf : List TokenKind} :
      TypeFillerDerives filler tf → (greedy → Unnamed tf) →
      PhraseFillerDerives greedy none (some filler) tf

/-! ## Node types -/

inductive AsAliasDerives : Ident → List TokenKind → Prop where
  | mk {k : TokenKind} {name : Ident} :
      regularName k = some name → AsAliasDerives name [.typeWord .as, k]

inductive NodeTypeDerives (greedy : Prop) : NodeType → List TokenKind → Prop where
  | pattern {name localAlias : Option Ident} {filler : Option NodeOrEdgeTypeFiller}
      {tn ta tf : List TokenKind} :
      Optionally (NodeNameDerives greedy) name tn → Optionally VariableDerives localAlias ta →
      Optionally TypeFillerDerives filler tf → (greedy → localAlias = none → Unnamed tf) →
      NodeTypeDerives greedy ⟨name, localAlias, filler⟩
        (tn ++ (.leftParen :: (ta ++ (tf ++ [.rightParen]))))
  | phrase {name localAlias : Option Ident} {filler : Option NodeOrEdgeTypeFiller}
      {k : TokenKind} {tf tw ta : List TokenKind} :
      NodeWord k → PhraseFillerDerives greedy name filler tf → TypeKeyword greedy tf tw →
      Optionally AsAliasDerives localAlias ta →
      NodeTypeDerives greedy ⟨name, localAlias, filler⟩ (k :: (tw ++ ta))

/-- The reference to a node type at one end of an edge type. -/
inductive TypeRefDerives (greedy : Prop) : NodeTypeRef → List TokenKind → Prop where
  | byAlias {k : TokenKind} {name : Ident} :
      regularName k = some name →
      TypeRefDerives greedy (.byAlias name) [.leftParen, k, .rightParen]
  | filler {filler : NodeOrEdgeTypeFiller} {tf : List TokenKind} :
      TypeFillerDerives filler tf → (greedy → Unnamed tf) →
      TypeRefDerives greedy (.filler filler) (.leftParen :: (tf ++ [.rightParen]))
  | empty : TypeRefDerives greedy .empty [.leftParen, .rightParen]

/-! ## Edge types -/

/-- The brackets of an arc. -/
def EdgeDirection.brackets : EdgeDirection → TokenKind × TokenKind
  | .leftToRight => (.minusLeftBracket, .bracketRightArrow)
  | .rightToLeft => (.leftArrowBracket, .rightBracketMinus)
  | .undirected => (.tildeLeftBracket, .rightBracketTilde)

/-- The word for the kind of an edge. -/
def EdgeDirection.kindWord : EdgeDirection → NonReservedWord
  | .leftToRight | .rightToLeft => .directed
  | .undirected => .undirected

/-- `edgeKind`, where it may be left out. -/
inductive KindWords (direction : EdgeDirection) : List TokenKind → Prop where
  | absent : KindWords direction []
  | present {slice : Ident} : KindWords direction [.nonReserved direction.kindWord slice]

/-- The name before the pattern of an edge type. -/
inductive EdgeNameDerives (greedy : Prop) (direction : EdgeDirection) :
    Ident → List TokenKind → Prop where
  | mk {k n : TokenKind} {name : Ident} {tk tn : List TokenKind} :
      KindWords direction tk → EdgeWord k → identifierName n = some name →
      TypeKeyword greedy [n] tn → EdgeNameDerives greedy direction name (tk ++ (k :: tn))

inductive ConnectorDerives : EdgeDirection → TokenKind → Prop where
  | rightTo {slice : Ident} : ConnectorDerives .leftToRight (.nonReserved .to slice)
  | rightArrow : ConnectorDerives .leftToRight .rightArrow
  | leftArrow : ConnectorDerives .rightToLeft .leftArrow
  | undirectedTo {slice : Ident} : ConnectorDerives .undirected (.nonReserved .to slice)
  | tilde : ConnectorDerives .undirected .tilde

inductive EdgeTypeDerives (greedy : Prop) : EdgeType → List TokenKind → Prop where
  | pattern {name : Option Ident} {direction : EdgeDirection} {left right : NodeTypeRef}
      {filler : NodeOrEdgeTypeFiller} {tn tl tf tr : List TokenKind} :
      Optionally (EdgeNameDerives greedy direction) name tn → TypeRefDerives greedy left tl →
      TypeFillerDerives filler tf → TypeRefDerives greedy right tr →
      EdgeTypeDerives greedy (.pattern ⟨name, direction, left, filler, right⟩)
        (tn ++ (tl ++ (direction.brackets.1 :: (tf ++ (direction.brackets.2 :: tr)))))
  | phrase {name : Option Ident} {direction : EdgeDirection} {left right : Ident}
      {filler : Option NodeOrEdgeTypeFiller} {slice slice' : Ident} {k l c r : TokenKind}
      {tf tw : List TokenKind} :
      EdgeWord k → PhraseFillerDerives greedy name filler tf → TypeKeyword greedy tf tw →
      regularName l = some left → ConnectorDerives direction c → regularName r = some right →
      EdgeTypeDerives greedy (.phrase ⟨name, direction, left, filler, right⟩)
        (.nonReserved direction.kindWord slice :: k ::
          (tw ++ [.nonReserved .connecting slice', .leftParen, l, c, r, .rightParen]))

/-- The token sequences that write a graph element type. -/
inductive ElementTypeDerives (greedy : Prop) : GraphElementType → List TokenKind → Prop where
  | node {node : NodeType} {ts : List TokenKind} :
      NodeTypeDerives greedy node ts → ElementTypeDerives greedy (.node node) ts
  | edge {edge : EdgeType} {ts : List TokenKind} :
      EdgeTypeDerives greedy edge ts → ElementTypeDerives greedy (.edge edge) ts

/-! ## The value types the parsers read -/

/-- Not a float type. -/
def ValueType.supported : ValueType → Bool
  | .float _ _ => false
  | _ => true

def NodeOrEdgeTypeFiller.supported (filler : NodeOrEdgeTypeFiller) : Bool :=
  filler.propertyTypes.all fun ps => ps.all fun p => p.2.supported

def NodeTypeRef.supported : NodeTypeRef → Bool
  | .filler f => f.supported
  | _ => true

def EdgeType.supported : EdgeType → Bool
  | .pattern p => p.left.supported && (p.filler.supported && p.right.supported)
  | .phrase p => p.filler.all NodeOrEdgeTypeFiller.supported

/-- No property has a float type. -/
def GraphElementType.supported : GraphElementType → Bool
  | .node n => n.filler.all NodeOrEdgeTypeFiller.supported
  | .edge e => e.supported

/-! ## The value types of the binder -/

def NumericTypeKind.toBinder : NumericTypeKind → Ast.NumericTypeKind
  | .int8 => .int8
  | .int16 => .int16
  | .int32 => .int32
  | .int64 => .int64
  | .int128 => .int128
  | .int256 => .int256
  | .small => .small
  | .int precision => .int (precision.map Prod.snd)
  | .big => .big

def FloatTypeKind.toBinder : FloatTypeKind → Ast.FloatTypeKind
  | .float16 => .float16
  | .float32 => .float32
  | .float64 => .float64
  | .float128 => .float128
  | .float256 => .float256
  | .real => .real
  | .double => .double
  | .float _ _ => .float

def TemporalTypeKind.toBinder : TemporalTypeKind → Ast.TemporalTypeKind
  | .zonedDateTime => .zonedDateTime
  | .timestampWithTimeZone => .timestampWithTimeZone
  | .localDateTime => .localDateTime
  | .timestamp => .timestamp
  | .date => .date
  | .zonedTime => .zonedTime
  | .timeWithTimeZone => .timeWithTimeZone
  | .duration _ => .duration

/-- What the binder reads of a value type. -/
def ValueType.toBinder : ValueType → Ast.ValueType
  | .string _ _ notNull => .string notNull
  | .signedNumeric kind notNull => .signedNumeric kind.toBinder notNull
  | .unsignedNumeric kind notNull => .unsignedNumeric kind.toBinder notNull
  | .float kind notNull => .float kind.toBinder notNull
  | .temporal kind notNull => .temporal kind.toBinder notNull
  | .vector dimension notNull => .vector dimension.2 notNull
  | .bool notNull => .bool notNull
  | _ => .other

/-- A minimum comes with a maximum, and a scale with a precision: there is no way to write one
without the other. -/
def ValueType.tidy : ValueType → Bool
  | .string (some _) none _ => false
  | .float (.float none (some _)) _ => false
  | _ => true

end MiniGU.Parsing
