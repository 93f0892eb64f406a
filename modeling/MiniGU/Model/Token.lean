import MiniGU.Lib.Collect
import Mathlib.Data.List.Basic

/-!
# Tokens

The tokens of the lexer (`gql/parser/src/lexer.rs`) that the parsers of value expressions,
label expressions, graph patterns, graph types and references to catalog objects tell apart, with
their quoted texts and `unescape` (`gql/parser/src/unescape.rs`).

A token stands for its kind. Only `regular_identifier` looks at the slice of a token, and only
at that of a non-reserved word, which is kept with the word here.
-/

namespace MiniGU.Parsing

abbrev Ident := String

/-! ## Quoted texts -/

/-- The value of a hexadecimal digit. -/
def hexDigit (c : Char) : Option Nat :=
  if '0' ≤ c ∧ c ≤ '9' then some (c.toNat - 48)
  else if 'a' ≤ c ∧ c ≤ 'f' then some (c.toNat - 87)
  else if 'A' ≤ c ∧ c ≤ 'F' then some (c.toNat - 55)
  else none

/-- The number that hexadecimal digits write. -/
def hexNumber (cs : List Char) : Option Nat :=
  cs.foldlM (fun n c => (hexDigit c).map fun d => n * 16 + d) 0

/-- `char::from_u32`. -/
def charOfNat (n : Nat) : Option Char :=
  if n.isValidChar then some (Char.ofNat n) else none

/-- The character a one-letter escape stands for. -/
def simpleEscape : Char → Option Char
  | '\\' => some '\\'
  | '\'' => some '\''
  | '"' => some '"'
  | '`' => some '`'
  | 't' => some '\t'
  | 'b' => some (Char.ofNat 8)
  | 'n' => some '\n'
  | 'r' => some '\r'
  | 'f' => some (Char.ofNat 12)
  | _ => none

/-- `u32::from_str_radix(_, 16)`, which takes a plus sign too. -/
def fromStrRadix16 : List Char → Option Nat
  | [] => none
  | '+' :: ds => if ds = [] then none else hexNumber ds
  | ds => hexNumber ds

/-- The character of the next `count` digits. -/
def codePoint (count : Nat) (cs : List Char) : Except (Fault Unit) (Char × List Char) :=
  if cs.length < count then .error .panicked
  else
    match fromStrRadix16 (cs.take count) with
    | none => .error .panicked
    | some num =>
      match charOfNat num with
      | none => .error (.error ())
      | some c => .ok (c, cs.drop count)

/-- What comes after a backslash, and the rest behind it. -/
def unescapedChar (next : Char) (rest : List Char) : Except (Fault Unit) (Char × List Char) :=
  if next = 'u' then codePoint 4 rest
  else if next = 'U' then codePoint 6 rest
  else
    match simpleEscape next with
    | some c => .ok (c, rest)
    | none => .error .panicked

/-- The characters that `find` passes over. -/
def passesOver (quote : Char) (noEscape : Bool) (c : Char) : Bool :=
  !(c == quote || (!noEscape && c == '\\'))

/-- The rounds of the loop are counted. -/
def unescapeLoop (quote : Char) (noEscape : Bool) : Nat → List Char →
    Except (Fault Unit) (List Char)
  | 0, _ => .error .panicked
  | rounds + 1, input =>
    let first := input.takeWhile (passesOver quote noEscape)
    match input.dropWhile (passesOver quote noEscape) with
    | [] => .ok input
    | [_] => .error .panicked
    | delim :: next :: rest =>
      if !noEscape && delim == '\\' then
        match unescapedChar next rest with
        | .error e => .error e
        | .ok (c, rest) =>
          (unescapeLoop quote noEscape rounds rest).map fun cs => first ++ c :: cs
      else if next = delim then
        (unescapeLoop quote noEscape rounds rest).map fun cs => first ++ quote :: cs
      else .error .panicked

/-- `unescape`: its `None` is the error here. The lexer makes only texts whose escapes are complete
and whose quotes come in pairs, so that it does not panic on them. -/
def unescapeText (quote : Char) (noEscape : Bool) (input : List Char) :
    Except (Fault Unit) (List Char) :=
  unescapeLoop quote noEscape (input.length + 1) input

/-- What the parsers get of it. -/
def unescape (quote : Char) (noEscape : Bool) (input : List Char) : Option Ident :=
  match unescapeText quote noEscape input with
  | .ok cs => some (String.ofList cs)
  | .error _ => none

inductive Quoted where
  | single (text : List Char)
  | double (text : List Char)
  | accent (text : List Char)
  | unescapedSingle (text : List Char)
  | unescapedDouble (text : List Char)
  | unescapedAccent (text : List Char)
deriving DecidableEq, Repr

def Quoted.unescape : Quoted → Option Ident
  | .single s => Parsing.unescape '\'' false s
  | .double s => Parsing.unescape '"' false s
  | .accent s => Parsing.unescape '`' false s
  | .unescapedSingle s => Parsing.unescape '\'' true s
  | .unescapedDouble s => Parsing.unescape '"' true s
  | .unescapedAccent s => Parsing.unescape '`' true s

/-- A quote is doubled and an escape is spelled out in a quoted text. -/
example : (Quoted.double ['a', '"', '"', '\\', 'n', '\\', 'u', '0', '0', '6', '2']).unescape =
    some "a\"\nb" := by decide

inductive ParameterName where
  | delimited (quoted : Quoted)
  | extended (name : Ident)
deriving DecidableEq, Repr

def ParameterName.unescape : ParameterName → Option Ident
  | .delimited quoted => quoted.unescape
  | .extended s => some s

/-! ## Token kinds -/

/-- The words of `is_non_reserved_word`. -/
inductive NonReservedWord where
  | acyclic | binding | bindings | connecting | destination | different | directed | edge
  | edges | element | elements | first | graph | groups | keep | label | labeled | labels
  | last | nfc | nfd | nfkc | nfkd | no | node | normalized | only | ordinality | property
  | read | relationship | relationships | repeatable | shortest | simple | source | table
  | to | trail | transaction | type | undirected | vertex | walk | without | write | zone
deriving DecidableEq, Repr

/-- The reserved words that only the parsers of graph types mention, and those of the float
types, which the GQL grammar has there. -/
inductive TypeWord where
  | as | big | bigint | binary | bool | boolean | bytes | char | dec | decimal | implies | int
  | int8 | int16 | int32 | int64 | int128 | int256 | integer | integer8 | integer16 | integer32
  | integer64 | integer128 | integer256 | local | nothing | signed | small | smallint | string
  | typed | ubigint | uint | uint8 | uint16 | uint32 | uint64 | uint128 | uint256 | unsigned
  | usmallint | varbinary | varchar | zoned
  | double | float | float16 | float32 | float64 | float128 | float256 | precision | real
deriving DecidableEq, Repr

inductive TokenKind where
  -- reserved words
  | abs | all | and | any | array | avg | byteLength | case | charLength | characterLength
  | coalesce | collectList | count | date | datetime | distinct | duration | false | group
  | is | list | max | min | not | null | nullif | octetLength | or | path | pathLength | paths
  | percentileCont | percentileDisc | record | sessionUser | stddevPop | stddevSamp | sum
  | time | timestamp | true | unknown | vector | vectorDistance | where | xor
  | homeSchema | currentSchema
  -- the names of numeric functions that no parser reads
  | cardinality | size | mod | log | log10 | ln | exp | power | sqrt | floor | ceil | ceiling
  | sin | cos | tan | cot | sinh | cosh | tanh | asin | acos | atan | degrees | radians
  | typeWord (word : TypeWord)
  -- a non-reserved word as it is written
  | nonReserved (word : NonReservedWord) (slice : Ident)
  -- delimiters and special characters
  | bracketRightArrow | bracketTildeRightArrow | concatenation | greaterThanOrEquals
  | leftArrow | leftArrowTilde | leftArrowBracket | leftArrowTildeBracket | leftMinusRight
  | lessThanOrEquals | minusLeftBracket | notEquals | rightArrow | rightBracketMinus
  | rightBracketTilde | tildeLeftBracket | tildeRightArrow | doubleColon | rightDoubleArrow
  | alternation | ampersand | asterisk | colon | comma | equals | exclamation
  | rightAngleBracket | leftBrace | leftBracket | leftParen | leftAngleBracket | minus
  | percent | period | doublePeriod | plus | questionMark | rightBrace | rightBracket | rightParen
  | solidus | tilde | verticalBar
  -- identifiers and literals
  | regularIdentifier (name : Ident)
  | generalParameterReference (name : ParameterName)
  | substitutedParameterReference (name : ParameterName)
  | unsignedDecimalInteger (integer : Ident)
  | unsignedOctalInteger (integer : Ident)
  | unsignedHexInteger (integer : Ident)
  | unsignedBinaryInteger (integer : Ident)
  | unsignedFloatLiteral (float : Ident)
  | singleQuoted (quoted : Quoted)
  | doubleQuoted (quoted : Quoted)
  | accentQuoted (quoted : Quoted)
  -- a kind that none of these parsers mentions
  | other (kind : Nat)
deriving DecidableEq, Repr

namespace TokenKind

def isPrefixOfUnsignedInteger : TokenKind → Bool
  | unsignedDecimalInteger _ | unsignedOctalInteger _ | unsignedHexInteger _
  | unsignedBinaryInteger _ => Bool.true
  | _ => Bool.false

def isPrefixOfUnsignedFloat : TokenKind → Bool
  | unsignedFloatLiteral _ => Bool.true
  | _ => Bool.false

def isPrefixOfNumericLiteral (kind : TokenKind) : Bool :=
  kind.isPrefixOfUnsignedInteger || kind.isPrefixOfUnsignedFloat

def isNonReservedWord : TokenKind → Bool
  | nonReserved _ _ => Bool.true
  | _ => Bool.false

def isPrefixOfRegularIdentifier : TokenKind → Bool
  | regularIdentifier _ => Bool.true
  | kind => kind.isNonReservedWord

def isPrefixOfGeneralSetFunction : TokenKind → Bool
  | avg | count | max | min | sum | collectList | stddevSamp | stddevPop => Bool.true
  | _ => Bool.false

def isPrefixOfBinarySetFunction : TokenKind → Bool
  | percentileCont | percentileDisc => Bool.true
  | _ => Bool.false

def isPrefixOfAggregateFunction (kind : TokenKind) : Bool :=
  kind.isPrefixOfGeneralSetFunction || kind.isPrefixOfBinarySetFunction

def isPrefixOfTrigonometricFunction : TokenKind → Bool
  | sin | cos | tan | cot | sinh | cosh | tanh | asin | acos | atan | degrees | radians =>
    Bool.true
  | _ => Bool.false

def isPrefixOfNumericValueFunction : TokenKind → Bool
  | charLength | characterLength | byteLength | octetLength | pathLength | cardinality | size
  | abs | mod | log | log10 | ln | exp | power | sqrt | floor | ceil | ceiling => Bool.true
  | kind => kind.isPrefixOfTrigonometricFunction

def isPrefixOfValueFunction (kind : TokenKind) : Bool :=
  kind.isPrefixOfRegularIdentifier || kind.isPrefixOfNumericValueFunction ||
    kind == vectorDistance

def isPrefixOfAbbreviatedEdgePattern : TokenKind → Bool
  | leftArrow | tilde | rightArrow | leftArrowTilde | tildeRightArrow | leftMinusRight
  | minus => Bool.true
  | _ => Bool.false

def isPrefixOfFullEdgePattern : TokenKind → Bool
  | leftArrowBracket | tildeLeftBracket | minusLeftBracket | leftArrowTildeBracket => Bool.true
  | _ => Bool.false

def isPrefixOfEdgePattern (kind : TokenKind) : Bool :=
  kind.isPrefixOfAbbreviatedEdgePattern || kind.isPrefixOfFullEdgePattern

def isPrefixOfVerboseExactNumericType : TokenKind → Bool
  | typeWord .integer8 | typeWord .integer16 | typeWord .integer32 | typeWord .integer64
  | typeWord .integer128 | typeWord .integer256 | typeWord .small | typeWord .integer
  | typeWord .big => Bool.true
  | _ => Bool.false

def isPrefixOfSignedExactNumericType : TokenKind → Bool
  | typeWord .int8 | typeWord .int16 | typeWord .int32 | typeWord .int64 | typeWord .int128
  | typeWord .int256 | typeWord .smallint | typeWord .int | typeWord .bigint
  | typeWord .signed => Bool.true
  | kind => kind.isPrefixOfVerboseExactNumericType

def isPrefixOfUnsignedExactNumericType : TokenKind → Bool
  | typeWord .uint8 | typeWord .uint16 | typeWord .uint32 | typeWord .uint64
  | typeWord .uint128 | typeWord .uint256 | typeWord .usmallint | typeWord .uint
  | typeWord .ubigint | typeWord .unsigned => Bool.true
  | _ => Bool.false

def isPrefixOfTemporalType : TokenKind → Bool
  | duration | typeWord .zoned | timestamp | typeWord .local | date | time => Bool.true
  | _ => Bool.false

def isPrefixOfPredefinedType : TokenKind → Bool
  | typeWord .bool | typeWord .boolean | typeWord .string | typeWord .char
  | typeWord .varchar | typeWord .bytes | typeWord .binary | typeWord .varbinary
  | typeWord .decimal | typeWord .dec | null | typeWord .nothing | vector => Bool.true
  | kind => kind.isPrefixOfSignedExactNumericType || kind.isPrefixOfUnsignedExactNumericType ||
    kind.isPrefixOfTemporalType

end TokenKind

end MiniGU.Parsing
