import MiniGU.Model.GraphPattern

/-!
# Graph element types

The AST of graph element types (`gql/parser/src/ast/type_element.rs`) and the parsers that make it
(`gql/parser/src/parser/impls/type_element.rs`). Spans are left out. What `opt(not_null)` and the
optional lengths do after each type is one definition, with the member's own values.
-/

namespace MiniGU.Parsing

/-! ## The AST -/

inductive NumericTypeKind where
  | int8 | int16 | int32 | int64 | int128 | int256 | small
  | int (precision : Option UnsignedInteger)
  | big
deriving DecidableEq, Repr

inductive FloatTypeKind where
  | float16 | float32 | float64 | float128 | float256 | real | double
  | float (precision scale : Option UnsignedInteger)
deriving DecidableEq, Repr

inductive DurationQualifier where
  | yearToMonth | dayToSecond
deriving DecidableEq, Repr

inductive TemporalTypeKind where
  | zonedDateTime | timestampWithTimeZone | localDateTime | timestamp | date | zonedTime
  | timeWithTimeZone
  | duration (qualifier : DurationQualifier)
deriving DecidableEq, Repr

inductive ValueType where
  | char (length : Option UnsignedInteger) (notNull : Bool)
  | varchar (maxLength : Option UnsignedInteger) (notNull : Bool)
  | string (minLength maxLength : Option UnsignedInteger) (notNull : Bool)
  | binary (length : Option UnsignedInteger) (notNull : Bool)
  | varbinary (maxLength : Option UnsignedInteger) (notNull : Bool)
  | bytes (minLength maxLength : Option UnsignedInteger) (notNull : Bool)
  | signedNumeric (kind : NumericTypeKind) (notNull : Bool)
  | unsignedNumeric (kind : NumericTypeKind) (notNull : Bool)
  | decimal (precision scale : Option UnsignedInteger) (notNull : Bool)
  | float (kind : FloatTypeKind) (notNull : Bool)
  | temporal (kind : TemporalTypeKind) (notNull : Bool)
  | list (typeName : ListTypeName) (valueType : Option ValueType)
      (maxLength : Option UnsignedInteger) (notNull : Bool)
  | vector (dimension : UnsignedInteger) (notNull : Bool)
  | anyRecord (notNull : Bool)
  | record (fieldTypes : List (Ident × ValueType)) (notNull : Bool)
  | bool (notNull : Bool)
  | path (notNull : Bool)
  | null
  | empty

/-- `FieldOrPropertyType`: its name and its type. -/
abbrev FieldOrPropertyType := Ident × ValueType

structure NodeOrEdgeTypeFiller where
  key : Option (List Ident)
  labelSet : Option (List Ident)
  propertyTypes : Option (List FieldOrPropertyType)

structure NodeType where
  name : Option Ident
  localAlias : Option Ident
  filler : Option NodeOrEdgeTypeFiller

inductive NodeTypeRef where
  | byAlias (ident : Ident)
  | filler (filler : NodeOrEdgeTypeFiller)
  | empty

inductive EdgeDirection where
  | leftToRight | rightToLeft | undirected
deriving DecidableEq, Repr

structure EdgeTypePattern where
  name : Option Ident
  direction : EdgeDirection
  left : NodeTypeRef
  filler : NodeOrEdgeTypeFiller
  right : NodeTypeRef

structure EdgeTypePhrase where
  name : Option Ident
  direction : EdgeDirection
  left : Ident
  filler : Option NodeOrEdgeTypeFiller
  right : Ident

inductive EdgeType where
  | pattern (pattern : EdgeTypePattern)
  | phrase (phrase : EdgeTypePhrase)

inductive GraphElementType where
  | node (node : NodeType)
  | edge (edge : EdgeType)

/-! ## Words and names -/

def typed : TokenParser Unit :=
  satisfy fun
    | .typeWord .typed | .doubleColon => true
    | _ => false

def nodeSynonym : TokenParser Unit :=
  satisfy fun
    | .nonReserved .node _ | .nonReserved .vertex _ => true
    | _ => false

def implies : TokenParser Unit :=
  satisfy fun
    | .typeWord .implies | .rightDoubleArrow => true
    | _ => false

def nodeTypeName : TokenParser Ident := identifier
def edgeTypeName : TokenParser Ident := identifier
def localNodeTypeAlias : TokenParser Ident := regularIdentifier
def nodeTypeAlias : TokenParser Ident := regularIdentifier

/-! ## Value types -/

def minLength : TokenParser UnsignedInteger := unsignedInteger
def maxLength : TokenParser UnsignedInteger := unsignedInteger
def fixedLength : TokenParser UnsignedInteger := unsignedInteger
def precisionArg : TokenParser UnsignedInteger := unsignedInteger
def scaleArg : TokenParser UnsignedInteger := unsignedInteger

def notNull : TokenParser Unit := do
  expect .not
  expect .null

/-- `opt(not_null)` at the end of a type, and whether it was there. -/
def withNotNull (make : Bool → ValueType) : TokenParser ValueType := do
  let notNull ← opt notNull
  pure (make notNull.isSome)

/-- `opt(delimited(LeftParen, p, RightParen))`. -/
def optInParens {α : Type} (p : TokenParser α) : TokenParser (Option α) :=
  opt do
    expect .leftParen
    let a ← p
    expect .rightParen
    pure a

def pathValueType : TokenParser ValueType := do
  expect .path
  withNotNull .path

def vectorType : TokenParser ValueType := do
  expect .vector
  expect .leftParen
  let dimension ← unsignedInteger
  expect .rightParen
  withNotNull (.vector dimension)

def temporalTypeKind : TokenParser TemporalTypeKind := do
  match ← any with
  | .date => pure .date
  | _ => fail

def temporalType : TokenParser ValueType := do
  let kind ← temporalTypeKind
  withNotNull (.temporal kind)

def nullType : TokenParser ValueType := do
  expect .null
  pure .null

def emptyType : TokenParser ValueType := do
  match ← any with
  | .null => do
    notNull
    pure .empty
  | .typeWord .nothing => pure .empty
  | _ => fail

def immaterialType : TokenParser ValueType := orElse emptyType nullType

def booleanType : TokenParser ValueType := do
  satisfy fun
    | .typeWord .bool | .typeWord .boolean => true
    | _ => false
  withNotNull .bool

/-- `opt(terminated(min_length, Comma))` and the maximum. -/
def lengthRange : TokenParser (Option UnsignedInteger × UnsignedInteger) := do
  let minLength ← opt do
    let n ← minLength
    expect .comma
    pure n
  let maxLength ← maxLength
  pure (minLength, maxLength)

/-- `parse_string` and `parse_bytes`. -/
def withLengthRange (make : Option UnsignedInteger → Option UnsignedInteger → Bool → ValueType) :
    TokenParser ValueType := do
  let length ← optInParens lengthRange
  withNotNull (make (length.bind Prod.fst) (length.map Prod.snd))

/-- `parse_char` and `parse_binary`, `parse_varchar` and `parse_varbinary`. -/
def withLength (length : TokenParser UnsignedInteger)
    (make : Option UnsignedInteger → Bool → ValueType) : TokenParser ValueType := do
  let length ← optInParens length
  withNotNull (make length)

def characterStringType : TokenParser ValueType := do
  match ← any with
  | .typeWord .string => withLengthRange .string
  | .typeWord .char => withLength fixedLength .char
  | .typeWord .varchar => withLength maxLength .varchar
  | _ => fail

def byteStringType : TokenParser ValueType := do
  match ← any with
  | .typeWord .bytes => withLengthRange .bytes
  | .typeWord .binary => withLength fixedLength .binary
  | .typeWord .varbinary => withLength maxLength .varbinary
  | _ => fail

def verboseNumericTypeKind : TokenParser NumericTypeKind := do
  match ← any with
  | .typeWord .integer8 => pure .int8
  | .typeWord .integer16 => pure .int16
  | .typeWord .integer32 => pure .int32
  | .typeWord .integer64 => pure .int64
  | .typeWord .integer128 => pure .int128
  | .typeWord .integer256 => pure .int256
  | .typeWord .small => do
    expect (.typeWord .integer)
    pure .small
  | .typeWord .integer => do
    let precision ← optInParens precisionArg
    pure (.int precision)
  | .typeWord .big => do
    expect (.typeWord .integer)
    pure .big
  | _ => fail

/-- A word that stands for a kind alone. -/
def kindWord (word : TypeWord) (kind : NumericTypeKind) : TokenParser NumericTypeKind := do
  expect (.typeWord word)
  pure kind

def signedNumericTypeKind : TokenParser NumericTypeKind :=
  peekAny fun kind =>
    match kind with
    | .typeWord .int8 => kindWord .int8 .int8
    | .typeWord .int16 => kindWord .int16 .int16
    | .typeWord .int32 => kindWord .int32 .int32
    | .typeWord .int64 => kindWord .int64 .int64
    | .typeWord .int128 => kindWord .int128 .int128
    | .typeWord .int256 => kindWord .int256 .int256
    | .typeWord .smallint => kindWord .smallint .small
    | .typeWord .int => do
      expect (.typeWord .int)
      let precision ← optInParens precisionArg
      pure (.int precision)
    | .typeWord .bigint => kindWord .bigint .big
    | .typeWord .signed => do
      expect (.typeWord .signed)
      verboseNumericTypeKind
    | kind => if kind.isPrefixOfVerboseExactNumericType then verboseNumericTypeKind else fail

def unsignedNumericTypeKind : TokenParser NumericTypeKind := do
  match ← any with
  | .typeWord .uint8 => pure .int8
  | .typeWord .uint16 => pure .int16
  | .typeWord .uint32 => pure .int32
  | .typeWord .uint64 => pure .int64
  | .typeWord .uint128 => pure .int128
  | .typeWord .uint256 => pure .int256
  | .typeWord .usmallint => pure .small
  | .typeWord .uint => do
    let precision ← optInParens precisionArg
    pure (.int precision)
  | .typeWord .ubigint => pure .big
  | .typeWord .unsigned => verboseNumericTypeKind
  | _ => fail

def signedBinaryExactNumericType : TokenParser ValueType := do
  let kind ← signedNumericTypeKind
  withNotNull (.signedNumeric kind)

def unsignedBinaryExactNumericType : TokenParser ValueType := do
  let kind ← unsignedNumericTypeKind
  withNotNull (.unsignedNumeric kind)

def decimalNumericType : TokenParser ValueType := do
  satisfy fun
    | .typeWord .decimal | .typeWord .dec => true
    | _ => false
  let args ← optInParens do
    let precision ← precisionArg
    let scale ← opt do
      expect .comma
      scaleArg
    pure (precision, scale)
  withNotNull (.decimal (args.map Prod.fst) (args.bind Prod.snd))

def predefinedType : TokenParser ValueType :=
  peekAny fun kind =>
    match kind with
    | .typeWord .bool | .typeWord .boolean => booleanType
    | .typeWord .string | .typeWord .char | .typeWord .varchar => characterStringType
    | .typeWord .bytes | .typeWord .binary | .typeWord .varbinary => byteStringType
    | .typeWord .decimal | .typeWord .dec => decimalNumericType
    | .null | .typeWord .nothing => immaterialType
    | .vector => vectorType
    | kind =>
      if kind.isPrefixOfSignedExactNumericType then signedBinaryExactNumericType
      else if kind.isPrefixOfUnsignedExactNumericType then unsignedBinaryExactNumericType
      else if kind.isPrefixOfTemporalType then temporalType
      else fail

def valueType : TokenParser ValueType :=
  peekAny fun kind =>
    match kind with
    | .path => pathValueType
    | kind => if kind.isPrefixOfPredefinedType then predefinedType else fail

/-! ## Labels and properties -/

def labelSetSpecification : TokenParser (List Ident) := separated1 labelName (expect .ampersand)

def labelSetPhrase : TokenParser (List Ident) :=
  peekAny fun
    | .nonReserved .label _ => do
      expectWord .label
      let label ← labelName
      pure [label]
    | .nonReserved .labels _ => do
      expectWord .labels
      labelSetSpecification
    | .is | .colon => do
      isOrColon
      labelSetSpecification
    | _ => fail

def propertyType : TokenParser FieldOrPropertyType := do
  let name ← propertyName
  let _ ← opt typed
  let valueType ← valueType
  pure (name, valueType)

def propertyTypesSpecification : TokenParser (List FieldOrPropertyType) := do
  expect .leftBrace
  let propertyTypes ← separated0 propertyType (expect .comma)
  expect .rightBrace
  pure propertyTypes

/-! ## Fillers -/

def nodeTypeKeyLabelSet : TokenParser (Option (List Ident)) := do
  let labelSet ← opt labelSetPhrase
  implies
  pure labelSet

def nodeTypeImpliedContent :
    TokenParser (Option (List Ident) × Option (List FieldOrPropertyType)) := do
  match ← opt labelSetPhrase with
  | some labelSet => do
    let propertyTypes ← opt propertyTypesSpecification
    pure (some labelSet, propertyTypes)
  | none => do
    let propertyTypes ← propertyTypesSpecification
    pure (none, some propertyTypes)

def nodeTypeFiller : TokenParser NodeOrEdgeTypeFiller := do
  match ← opt nodeTypeKeyLabelSet with
  | some key => do
    let implied ← opt nodeTypeImpliedContent
    pure ⟨key, implied.bind Prod.fst, implied.bind Prod.snd⟩
  | none => do
    let (labelSet, propertyTypes) ← nodeTypeImpliedContent
    pure ⟨none, labelSet, propertyTypes⟩

def edgeTypeFiller : TokenParser NodeOrEdgeTypeFiller := nodeTypeFiller

def nodeTypePhraseFiller : TokenParser (Option Ident × Option NodeOrEdgeTypeFiller) := do
  match ← opt nodeTypeName with
  | some name => do
    let filler ← opt nodeTypeFiller
    pure (some name, filler)
  | none => do
    let filler ← nodeTypeFiller
    pure (none, some filler)

def edgeTypePhraseFiller : TokenParser (Option Ident × Option NodeOrEdgeTypeFiller) :=
  nodeTypePhraseFiller

/-! ## Node types -/

def nodeTypePattern : TokenParser NodeType := do
  let name ← opt do
    nodeSynonym
    let _ ← opt (expectWord .type)
    nodeTypeName
  expect .leftParen
  let localAlias ← opt localNodeTypeAlias
  let filler ← opt nodeTypeFiller
  expect .rightParen
  pure ⟨name, localAlias, filler⟩

def nodeTypePhrase : TokenParser NodeType := do
  nodeSynonym
  let _ ← opt (expectWord .type)
  let (name, filler) ← nodeTypePhraseFiller
  let localAlias ← opt do
    expect (.typeWord .as)
    localNodeTypeAlias
  pure ⟨name, localAlias, filler⟩

def nodeTypeSpecification : TokenParser NodeType :=
  peekAny fun
    | .leftParen => nodeTypePattern
    | .nonReserved .node _ | .nonReserved .vertex _ => orElse nodeTypePattern nodeTypePhrase
    | _ => fail

def nodeTypeReference : TokenParser NodeTypeRef := do
  expect .leftParen
  let ref ← orElse
    (do
      let ident ← nodeTypeAlias
      pure (.byAlias ident))
    (do
      match ← opt nodeTypeFiller with
      | some filler => pure (.filler filler)
      | none => pure .empty)
  expect .rightParen
  pure ref

/-! ## Edge types -/

inductive EdgeKind where
  | directed
  | undirected
deriving DecidableEq, Repr

def edgeKind : TokenParser EdgeKind := do
  match ← any with
  | .nonReserved .directed _ => pure .directed
  | .nonReserved .undirected _ => pure .undirected
  | _ => fail

/-- An arc between two brackets. -/
def arcType (left right : TokenKind) : TokenParser NodeOrEdgeTypeFiller := do
  expect left
  let filler ← edgeTypeFiller
  expect right
  pure filler

def arcTypePointingRight : TokenParser NodeOrEdgeTypeFiller :=
  arcType .minusLeftBracket .bracketRightArrow

def arcTypePointingLeft : TokenParser NodeOrEdgeTypeFiller :=
  arcType .leftArrowBracket .rightBracketMinus

def arcTypeUndirected : TokenParser NodeOrEdgeTypeFiller :=
  arcType .tildeLeftBracket .rightBracketTilde

def edgeTypePatternDirected : TokenParser EdgeTypePattern := do
  let left ← nodeTypeReference
  let (direction, filler) ← peekAny fun
    | .minusLeftBracket => do
      let filler ← arcTypePointingRight
      pure (.leftToRight, filler)
    | .leftArrowBracket => do
      let filler ← arcTypePointingLeft
      pure (.rightToLeft, filler)
    | _ => fail
  let right ← nodeTypeReference
  pure ⟨none, direction, left, filler, right⟩

def edgeTypePatternUndirected : TokenParser EdgeTypePattern := do
  let left ← nodeTypeReference
  let filler ← arcTypeUndirected
  let right ← nodeTypeReference
  pure ⟨none, .undirected, left, filler, right⟩

def edgeTypePattern : TokenParser EdgeTypePattern := do
  let namePrefix ← opt do
    let kind ← opt edgeKind
    edgeSynonym
    let _ ← opt (expectWord .type)
    let name ← edgeTypeName
    pure (kind, name)
  match namePrefix with
  | some (some .directed, name) => do
    let pattern ← edgeTypePatternDirected
    pure { pattern with name := some name }
  | some (some .undirected, name) => do
    let pattern ← edgeTypePatternUndirected
    pure { pattern with name := some name }
  | some (none, name) => do
    let pattern ← orElse edgeTypePatternDirected edgeTypePatternUndirected
    pure { pattern with name := some name }
  | none => orElse edgeTypePatternDirected edgeTypePatternUndirected

/-- `connector` of `endpoint_pair_directed`. -/
def connectorDirected : TokenParser EdgeDirection := do
  match ← any with
  | .nonReserved .to _ | .rightArrow => pure .leftToRight
  | .leftArrow => pure .rightToLeft
  | _ => fail

def endpointPairDirected : TokenParser (Ident × EdgeDirection × Ident) := do
  expect .leftParen
  let left ← nodeTypeAlias
  let direction ← connectorDirected
  let right ← nodeTypeAlias
  expect .rightParen
  pure (left, direction, right)

def endpointPairUndirected : TokenParser (Ident × Ident) := do
  expect .leftParen
  let left ← nodeTypeAlias
  satisfy fun
    | .nonReserved .to _ | .tilde => true
    | _ => false
  let right ← nodeTypeAlias
  expect .rightParen
  pure (left, right)

def edgeTypePhrase : TokenParser EdgeTypePhrase := do
  let kind ← edgeKind
  edgeSynonym
  let _ ← opt (expectWord .type)
  let (name, filler) ← edgeTypePhraseFiller
  expectWord .connecting
  match kind with
  | .directed => do
    let (left, direction, right) ← endpointPairDirected
    pure ⟨name, direction, left, filler, right⟩
  | .undirected => do
    let (left, right) ← endpointPairUndirected
    pure ⟨name, .undirected, left, filler, right⟩

def edgeTypeSpecification : TokenParser EdgeType :=
  peekAny fun
    | .nonReserved .edge _ | .nonReserved .relationship _ | .leftParen => do
      let pattern ← edgeTypePattern
      pure (.pattern pattern)
    | .nonReserved .directed _ | .nonReserved .undirected _ =>
      orElse
        (do
          let pattern ← edgeTypePattern
          pure (.pattern pattern))
        (do
          let phrase ← edgeTypePhrase
          pure (.phrase phrase))
    | _ => fail

/-! ## Element types -/

def nodeElement : TokenParser GraphElementType := do
  let node ← nodeTypeSpecification
  pure (.node node)

def edgeElement : TokenParser GraphElementType := do
  let edge ← edgeTypeSpecification
  pure (.edge edge)

def elementTypeSpecification : TokenParser GraphElementType :=
  peekAny fun
    | .nonReserved .node _ | .nonReserved .vertex _ => nodeElement
    | .nonReserved .directed _ | .nonReserved .undirected _ | .nonReserved .edge _
    | .nonReserved .relationship _ => edgeElement
    | _ => orElse edgeElement (orElse nodeElement fail)

end MiniGU.Parsing
