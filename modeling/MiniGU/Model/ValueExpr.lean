import MiniGU.Lib.Pratt
import MiniGU.Model.Token

/-!
# Value expressions and their parser

The AST of value expressions (`gql/parser/src/ast/value_expr.rs`, `lexical.rs`) and the
parsers of `gql/parser/src/parser/impls/value_expr.rs` and `lexical.rs`, one definition for
each, over token lists. Spans are left out. The wrappers `Function`, `CaseFunction`,
`AggregateFunction`, `PathConstructor`, `Value` and `Literal` of the AST are flattened: their
variants are constructors of `Expr`.

The recursion of the source through `value_expression` and `value_expression_primary` is
bounded by the number of tokens (`valueExpressionN`); every other parser takes the two as
arguments.
-/

namespace MiniGU.Parsing

/-! ## The AST -/

inductive BinaryOp where
  | add | sub | mul | div | concat | or | xor | and | lt | le | gt | ge | eq | ne
deriving DecidableEq, Repr

inductive UnaryOp where
  | plus | minus | not
deriving DecidableEq, Repr

inductive BooleanLiteral where
  | true | false | unknown
deriving DecidableEq, Repr

inductive SetQuantifier where
  | distinct | all
deriving DecidableEq, Repr

inductive GeneralSetFunctionKind where
  | avg | count | max | min | sum | collectList | stddevSamp | stddevPop
deriving DecidableEq, Repr

inductive BinarySetFunctionKind where
  | percentileCont | percentileDisc
deriving DecidableEq, Repr

/-- The variants of `NumericFunction`; each has one argument. -/
inductive NumericFunctionKind where
  | charLength | byteLength | pathLength | absolute
deriving DecidableEq, Repr

inductive UnsignedIntegerKind where
  | binary | octal | decimal | hex
deriving DecidableEq, Repr

inductive UnsignedNumericLiteral where
  | integer (kind : UnsignedIntegerKind) (integer : Ident)
  | float (float : Ident)
deriving DecidableEq, Repr

inductive StringLiteralKind where
  | char | byte
deriving DecidableEq, Repr

inductive TemporalLiteralKind where
  | date | time | datetime | timestamp | sqlDatetime
deriving DecidableEq, Repr

inductive DurationLiteralKind where
  | duration | sqlInterval
deriving DecidableEq, Repr

inductive ListTypeName where
  | list | array
deriving DecidableEq, Repr

inductive Expr where
  | binary (op : BinaryOp) (left right : Expr)
  | unary (op : UnaryOp) (child : Expr)
  | is (left : Expr) (right : BooleanLiteral)
  | isNot (left : Expr) (right : BooleanLiteral)
  -- `Function`
  | generic (name : Ident) (args : List Expr)
  | numeric (kind : NumericFunctionKind) (arg : Expr)
  | nullIf (lhs rhs : Expr)
  | coalesce (args : List Expr)
  | vectorDistance (lhs rhs : Expr) (metric : Option Ident)
  -- `AggregateFunction`
  | count
  | general (kind : GeneralSetFunctionKind) (quantifier : Option SetQuantifier) (expr : Expr)
  | binarySet (kind : BinarySetFunctionKind) (quantifier : Option SetQuantifier)
      (dependent independent : Expr)
  | variable (name : Ident)
  -- `Value`
  | sessionUser
  | parameter (name : Ident)
  -- `Literal`
  | numericLit (literal : UnsignedNumericLiteral)
  | booleanLit (literal : BooleanLiteral)
  | stringLit (kind : StringLiteralKind) (literal : Ident)
  | temporal (kind : TemporalLiteralKind) (literal : Ident)
  | duration (kind : DurationLiteralKind) (literal : Ident)
  | list (typeName : Option ListTypeName) (values : List Expr)
  | record (fields : List (Ident × Expr))
  | vector (elems : List Expr)
  | null
  | path (start : Expr) (steps : List (Expr × Expr))
  | property (source : Expr) (trailingNames : List Ident)

/-- `ListConstructor`. -/
structure ListConstructor where
  typeName : Option ListTypeName
  values : List Expr

/-! ## Lexical elements -/

abbrev TokenParser (α : Type) := Parser TokenKind α

/-- The parser of a fixed token. -/
def expect (kind : TokenKind) : TokenParser Unit := satisfy (· == kind)

/-- The parser of a non-reserved word. -/
def expectWord (word : NonReservedWord) : TokenParser Unit :=
  satisfy fun
    | .nonReserved w _ => w == word
    | _ => false

/-- The name that `regular_identifier` reads off a token. -/
def regularName : TokenKind → Option Ident
  | .regularIdentifier name => some name
  | .nonReserved _ slice => some slice
  | _ => none

def regularIdentifier : TokenParser Ident := verifyMap regularName

def delimitedIdentifier : TokenParser Ident := do
  match ← any with
  | .accentQuoted quoted | .doubleQuoted quoted => cutNone quoted.unescape
  | _ => fail

def identifier : TokenParser Ident :=
  peekAny fun
    | .regularIdentifier _ => regularIdentifier
    | .nonReserved _ _ => regularIdentifier
    | .accentQuoted _ | .doubleQuoted _ => delimitedIdentifier
    | _ => fail

def propertyName : TokenParser Ident := identifier
def labelName : TokenParser Ident := identifier
def bindingVariable : TokenParser Ident := regularIdentifier
def bindingVariableReference : TokenParser Ident := regularIdentifier

def booleanLiteral : TokenParser BooleanLiteral := do
  match ← any with
  | .true => pure .true
  | .false => pure .false
  | .unknown => pure .unknown
  | _ => fail

def generalParameterReference : TokenParser Ident := do
  match ← any with
  | .generalParameterReference name => cutNone name.unescape
  | _ => fail

def dynamicParameterSpecification : TokenParser Ident := generalParameterReference

/-- `UnsignedInteger` of the AST. -/
abbrev UnsignedInteger := UnsignedIntegerKind × Ident

def unsignedInteger : TokenParser UnsignedInteger := do
  match ← any with
  | .unsignedDecimalInteger integer => pure (.decimal, integer)
  | .unsignedOctalInteger integer => pure (.octal, integer)
  | .unsignedHexInteger integer => pure (.hex, integer)
  | .unsignedBinaryInteger integer => pure (.binary, integer)
  | _ => fail

def unsignedFloat : TokenParser Ident := do
  match ← any with
  | .unsignedFloatLiteral float => pure float
  | _ => fail

def unsignedNumericLiteral : TokenParser UnsignedNumericLiteral :=
  peekAny fun kind =>
    if kind.isPrefixOfUnsignedInteger then do
      let (k, integer) ← unsignedInteger
      pure (.integer k integer)
    else
      match kind with
      | .unsignedFloatLiteral _ => do
        let float ← unsignedFloat
        pure (.float float)
      | _ => fail

def characterStringLiteral : TokenParser Expr := do
  match ← any with
  | .singleQuoted quoted | .doubleQuoted quoted =>
    cutNone (quoted.unescape.map (Expr.stringLit .char))
  | _ => fail

def signedNumericLiteralExpression : TokenParser Expr := do
  let sign ← opt do
    match ← any with
    | .plus => pure UnaryOp.plus
    | .minus => pure UnaryOp.minus
    | _ => fail
  let literal ← unsignedNumericLiteral
  match sign with
  | some op => pure (.unary op (.numericLit literal))
  | none => pure (.numericLit literal)

def vectorLiteral : TokenParser Expr := do
  expect .vector
  expect .leftBracket
  let elems ← separated0 signedNumericLiteralExpression (expect .comma)
  expect .rightBracket
  pure (.vector elems)

def unsignedLiteral : TokenParser Expr :=
  peekAny fun kind =>
    match kind with
    | .true | .false | .unknown => do
      let literal ← booleanLiteral
      pure (.booleanLit literal)
    | .null => do
      expect .null
      pure .null
    | .doubleQuoted _ | .singleQuoted _ => characterStringLiteral
    | kind =>
      if kind.isPrefixOfNumericLiteral then do
        let literal ← unsignedNumericLiteral
        pure (.numericLit literal)
      else
        match kind with
        | .vector => vectorLiteral
        | _ => fail

def unsignedValueSpecification : TokenParser Expr :=
  peekAny fun
    | .sessionUser => do
      expect .sessionUser
      pure .sessionUser
    | .generalParameterReference _ => do
      let name ← dynamicParameterSpecification
      pure (.parameter name)
    | _ => unsignedLiteral

inductive NonNegativeInteger where
  | integer (integer : UnsignedInteger)
  | parameter (name : Ident)
deriving DecidableEq, Repr

def nonNegativeIntegerSpecification : TokenParser NonNegativeInteger :=
  peekAny fun kind =>
    if kind.isPrefixOfUnsignedInteger then do
      let integer ← unsignedInteger
      pure (.integer integer)
    else
      match kind with
      | .generalParameterReference _ => do
        let name ← dynamicParameterSpecification
        pure (.parameter name)
      | _ => fail

/-! ## The operator table -/

def PREC_INIT : Int := 0
def PREC_OR_XOR : Int := 1
def PREC_AND : Int := 2
def PREC_IS : Int := 3
def PREC_NOT : Int := 4
def PREC_CMP : Int := 5
def PREC_CONCAT : Int := 6
def PREC_ADD_SUB : Int := 7
def PREC_MUL_DIV : Int := 8
def PREC_PLUS_MINUS : Int := 9

def valueExpressionPrefix : TokenParser (Int × UnaryOp) := do
  match ← any with
  | .not => pure (PREC_NOT, .not)
  | .plus => pure (PREC_PLUS_MINUS, .plus)
  | .minus => pure (PREC_PLUS_MINUS, .minus)
  | _ => fail

inductive SuffixOp where
  | is (truth : BooleanLiteral)
  | isNot (truth : BooleanLiteral)
deriving DecidableEq, Repr

def valueExpressionSuffix : TokenParser (Int × SuffixOp) :=
  peekTwo fun
    | .is, .not => do
      expect .is
      expect .not
      let truth ← booleanLiteral
      pure (PREC_IS, .isNot truth)
    | .is, _ => do
      expect .is
      let truth ← booleanLiteral
      pure (PREC_IS, .is truth)
    | _, _ => fail

def valueExpressionInfix : TokenParser (Assoc × Int × BinaryOp) := do
  match ← any with
  | .or => pure (.left, PREC_OR_XOR, .or)
  | .xor => pure (.left, PREC_OR_XOR, .xor)
  | .and => pure (.left, PREC_AND, .and)
  | .leftAngleBracket => pure (.left, PREC_CMP, .lt)
  | .lessThanOrEquals => pure (.left, PREC_CMP, .le)
  | .rightAngleBracket => pure (.left, PREC_CMP, .gt)
  | .greaterThanOrEquals => pure (.left, PREC_CMP, .ge)
  | .equals => pure (.left, PREC_CMP, .eq)
  | .notEquals => pure (.left, PREC_CMP, .ne)
  | .concatenation => pure (.left, PREC_CONCAT, .concat)
  | .plus => pure (.left, PREC_ADD_SUB, .add)
  | .minus => pure (.left, PREC_ADD_SUB, .sub)
  | .asterisk => pure (.left, PREC_MUL_DIV, .mul)
  | .solidus => pure (.left, PREC_MUL_DIV, .div)
  | _ => fail

/-- The table of `value_expression`, over a parser of operands. -/
def valueExpressionTable (operand : TokenParser Expr) :
    PrattConfig TokenKind Expr UnaryOp SuffixOp BinaryOp where
  parseOperand := operand
  parsePrefix := valueExpressionPrefix
  parseSuffix := valueExpressionSuffix
  parseInfix := valueExpressionInfix
  foldPrefix op a := .unary op a
  foldSuffix a
    | .is right => .is a right
    | .isNot right => .isNot a right
  foldInfix a op b := .binary op a b

/-! ## Functions and constructors -/

section Parts

-- `value_expression` and `value_expression_primary`, for what is nested
variable (expr primary : TokenParser Expr)

def parenthesizedValueExpression : TokenParser Expr := do
  expect .leftParen
  let e ← expr
  expect .rightParen
  pure e

def caseAbbreviation : TokenParser Expr :=
  peekAny fun
    | .nullif => do
      expect .nullif
      expect .leftParen
      -- the pair is parsed without a separator
      let a ← expr
      let b ← expr
      expect .rightParen
      pure (.nullIf a b)
    | .coalesce => do
      expect .coalesce
      expect .leftParen
      let args ← separated1 expr (expect .comma)
      expect .rightParen
      pure (.coalesce args)
    | _ => fail

def caseExpression : TokenParser Expr :=
  peekAny fun
    | .nullif | .coalesce => caseAbbreviation expr
    | _ => fail

def setQuantifier : TokenParser SetQuantifier := do
  match ← any with
  | .distinct => pure .distinct
  | .all => pure .all
  | _ => fail

def generalSetFunctionType : TokenParser GeneralSetFunctionKind := do
  match ← any with
  | .avg => pure .avg
  | .count => pure .count
  | .max => pure .max
  | .min => pure .min
  | .sum => pure .sum
  | .collectList => pure .collectList
  | .stddevSamp => pure .stddevSamp
  | .stddevPop => pure .stddevPop
  | _ => fail

def generalSetFunction : TokenParser Expr := do
  let kind ← generalSetFunctionType
  expect .leftParen
  let quantifier ← opt setQuantifier
  let e ← expr
  expect .rightParen
  pure (.general kind quantifier e)

def binarySetFunctionKind : TokenParser BinarySetFunctionKind := do
  match ← any with
  | .percentileCont => pure .percentileCont
  | .percentileDisc => pure .percentileDisc
  | _ => fail

def binarySetFunction : TokenParser Expr := do
  let kind ← binarySetFunctionKind
  let quantifier ← opt setQuantifier
  let dependent ← expr
  expect .comma
  let independent ← expr
  pure (.binarySet kind quantifier dependent independent)

def aggregateFunction : TokenParser Expr :=
  peekAny fun kind =>
    if kind.isPrefixOfGeneralSetFunction then
      orElse
        (do
          expect .count
          expect .leftParen
          expect .asterisk
          expect .rightParen
          pure .count)
        (generalSetFunction expr)
    else
      match kind with
      | .percentileCont | .percentileDisc => binarySetFunction expr
      | _ => fail

def pathElementListStep : TokenParser (Expr × Expr) := do
  expect .comma
  let edge ← primary
  expect .comma
  let node ← primary
  pure (edge, node)

def pathElementList : TokenParser Expr := do
  let start ← primary
  let steps ← repeat0 (pathElementListStep primary)
  pure (.path start steps)

def pathValueConstructor : TokenParser Expr := do
  expect .path
  expect .leftBracket
  let e ← pathElementList primary
  expect .rightBracket
  pure e

def listValueTypeName : TokenParser ListTypeName := do
  match ← any with
  | .list => pure .list
  | .array => pure .array
  | _ => fail

def listValueConstructor : TokenParser ListConstructor := do
  let typeName ← opt listValueTypeName
  expect .leftBracket
  let values ← separated0 expr (expect .comma)
  expect .rightBracket
  pure ⟨typeName, values⟩

def genericValueFunction : TokenParser Expr := do
  let name ← regularIdentifier
  expect .leftParen
  let args ← separated0 expr (expect .comma)
  expect .rightParen
  pure (.generic name args)

/-- `predefined_value_function!` for a function of one argument. -/
def predefinedValueFunction (name : TokenKind → Bool) (kind : NumericFunctionKind) :
    TokenParser Expr := do
  satisfy name
  expect .leftParen
  let a ← expr
  expect .rightParen
  pure (.numeric kind a)

def charLengthFunction : TokenParser Expr :=
  predefinedValueFunction expr (fun k => k == .charLength || k == .characterLength) .charLength

def byteLengthFunction : TokenParser Expr :=
  predefinedValueFunction expr (fun k => k == .byteLength || k == .octetLength) .byteLength

def pathLengthFunction : TokenParser Expr :=
  predefinedValueFunction expr (· == .pathLength) .pathLength

def absoluteValueFunction : TokenParser Expr :=
  predefinedValueFunction expr (· == .abs) .absolute

def numericValueFunction : TokenParser Expr :=
  peekAny fun
    | .charLength | .characterLength => charLengthFunction expr
    | .byteLength | .octetLength => byteLengthFunction expr
    | .pathLength => pathLengthFunction expr
    | .abs => absoluteValueFunction expr
    | _ => fail

def vectorDistanceFunction : TokenParser Expr := do
  expect .vectorDistance
  expect .leftParen
  let lhs ← expr
  expect .comma
  let rhs ← expr
  let metric ← opt do
    expect .comma
    regularIdentifier
  expect .rightParen
  pure (.vectorDistance lhs rhs metric)

def valueFunction : TokenParser Expr :=
  peekAny fun kind =>
    if kind.isPrefixOfRegularIdentifier then genericValueFunction expr
    else if kind.isPrefixOfNumericValueFunction then numericValueFunction expr
    else
      match kind with
      | .vectorDistance => vectorDistanceFunction expr
      | _ => fail

def valueExpressionPrimaryInner : TokenParser Expr :=
  peekAny fun kind =>
    match kind with
    | .path => pathValueConstructor primary
    | .case | .coalesce | .nullif => caseExpression expr
    | kind =>
      if kind.isPrefixOfAggregateFunction then aggregateFunction expr
      else unsignedValueSpecification

/-- What a primary begins with, before its property names. -/
def valueExpressionPrimaryBase : TokenParser Expr :=
  peekAny fun kind =>
    match kind with
    | .leftParen => parenthesizedValueExpression expr
    | kind =>
      if kind.isPrefixOfRegularIdentifier then do
        let name ← bindingVariableReference
        pure (.variable name)
      else valueExpressionPrimaryInner expr primary

/-- `value_expression_primary`. -/
def valueExpressionPrimaryOf : TokenParser Expr := do
  let source ← valueExpressionPrimaryBase expr primary
  let trailingNames ← repeat0 do
    expect .period
    propertyName
  if trailingNames.isEmpty then pure source else pure (.property source trailingNames)

def valueExpressionOperand : TokenParser Expr :=
  peekAnyOpt fun
    | kind, some .leftParen =>
      if kind.isPrefixOfValueFunction then valueFunction expr
      else valueExpressionPrimaryOf expr primary
    | _, _ => valueExpressionPrimaryOf expr primary

end Parts

/-! ## Closing the recursion -/

mutual

/-- `value_expression`, nested at most as deep as the bound. -/
def valueExpressionN : Nat → TokenParser Expr
  | 0 => fun _ => .stuck
  | n + 1 =>
    precedence
      (valueExpressionTable
        (valueExpressionOperand (valueExpressionN n) (valueExpressionPrimaryN n)))
      PREC_INIT

/-- `value_expression_primary`, nested at most as deep as the bound. -/
def valueExpressionPrimaryN : Nat → TokenParser Expr
  | 0 => fun _ => .stuck
  | n + 1 => valueExpressionPrimaryOf (valueExpressionN n) (valueExpressionPrimaryN n)

end

/-- `value_expression`: nothing nests deeper than there are tokens. -/
def valueExpression : TokenParser Expr := fun ts => valueExpressionN (ts.length + 1) ts

end MiniGU.Parsing
