import MiniGU.Model.ValueExpr

/-!
# The grammar of value expressions

Which token sequences write a value expression, as derivations of a grammar over its AST. The
grammar has two dialects. `gql` follows the rules of the GQL grammar
(`minigu-test/benches/antlr4/src/GQL.g4`, `valueExpression` and below), with the binding powers
of its alternatives; vectors, which GQL does not have, are written as the tests of the parser
write them. `taken` is the in-order reading: the same tokens in the same order, with the
delimiters the parsers look for and no condition on binding powers.

Where GQL asks for a smaller class of expressions (`numericValueExpression`), any value
expression is allowed here, as the parsers allow it.
-/

namespace MiniGU.Parsing

/-! ## The tokens of operators and names -/

def UnaryOp.token : UnaryOp → TokenKind
  | .plus => .plus
  | .minus => .minus
  | .not => .not

def UnaryOp.power : UnaryOp → Int
  | .plus => PREC_PLUS_MINUS
  | .minus => PREC_PLUS_MINUS
  | .not => PREC_NOT

def BinaryOp.token : BinaryOp → TokenKind
  | .add => .plus
  | .sub => .minus
  | .mul => .asterisk
  | .div => .solidus
  | .concat => .concatenation
  | .or => .or
  | .xor => .xor
  | .and => .and
  | .lt => .leftAngleBracket
  | .le => .lessThanOrEquals
  | .gt => .rightAngleBracket
  | .ge => .greaterThanOrEquals
  | .eq => .equals
  | .ne => .notEquals

def BinaryOp.power : BinaryOp → Int
  | .or | .xor => PREC_OR_XOR
  | .and => PREC_AND
  | .lt | .le | .gt | .ge | .eq | .ne => PREC_CMP
  | .concat => PREC_CONCAT
  | .add | .sub => PREC_ADD_SUB
  | .mul | .div => PREC_MUL_DIV

def BooleanLiteral.token : BooleanLiteral → TokenKind
  | .true => .true
  | .false => .false
  | .unknown => .unknown

def SetQuantifier.token : SetQuantifier → TokenKind
  | .distinct => .distinct
  | .all => .all

def quantifierTokens : Option SetQuantifier → List TokenKind
  | none => []
  | some q => [q.token]

def GeneralSetFunctionKind.token : GeneralSetFunctionKind → TokenKind
  | .avg => .avg
  | .count => .count
  | .max => .max
  | .min => .min
  | .sum => .sum
  | .collectList => .collectList
  | .stddevSamp => .stddevSamp
  | .stddevPop => .stddevPop

def BinarySetFunctionKind.token : BinarySetFunctionKind → TokenKind
  | .percentileCont => .percentileCont
  | .percentileDisc => .percentileDisc

/-- The words a numeric function may be written with. -/
def NumericFunctionKind.tokens : NumericFunctionKind → List TokenKind
  | .charLength => [.charLength, .characterLength]
  | .byteLength => [.byteLength, .octetLength]
  | .pathLength => [.pathLength]
  | .absolute => [.abs]

def unsignedIntegerToken : UnsignedInteger → TokenKind
  | (.decimal, integer) => .unsignedDecimalInteger integer
  | (.octal, integer) => .unsignedOctalInteger integer
  | (.hex, integer) => .unsignedHexInteger integer
  | (.binary, integer) => .unsignedBinaryInteger integer

def UnsignedNumericLiteral.token : UnsignedNumericLiteral → TokenKind
  | .integer kind digits => unsignedIntegerToken (kind, digits)
  | .float digits => .unsignedFloatLiteral digits

/-- A numeric literal with or without a sign. -/
def signedTokens : Expr → Option (List TokenKind)
  | .numericLit literal => some [literal.token]
  | .unary .plus (.numericLit literal) => some [.plus, literal.token]
  | .unary .minus (.numericLit literal) => some [.minus, literal.token]
  | _ => none

def ListTypeName.token : ListTypeName → TokenKind
  | .list => .list
  | .array => .array

def listTypeTokens : Option ListTypeName → List TokenKind
  | none => []
  | some t => [t.token]

def TemporalLiteralKind.token : TemporalLiteralKind → Option TokenKind
  | .date => some .date
  | .time => some .time
  | .datetime => some .datetime
  | .timestamp => some .timestamp
  | .sqlDatetime => none

/-- The name an identifier token stands for. -/
def identifierName : TokenKind → Option Ident
  | .regularIdentifier name => some name
  | .nonReserved _ slice => some slice
  | .accentQuoted quoted => quoted.unescape
  | .doubleQuoted quoted => quoted.unescape
  | _ => none

/-- The text a character string token stands for. -/
def stringText : TokenKind → Option Ident
  | .singleQuoted quoted => quoted.unescape
  | .doubleQuoted quoted => quoted.unescape
  | _ => none

/-- Lists of tokens with a comma between one and the next. -/
def commaSeparated : List (List TokenKind) → List TokenKind
  | [] => []
  | [ts] => ts
  | ts :: tss => ts ++ .comma :: commaSeparated tss

/-! ## Derivations -/

structure Dialect where
  /-- An operand binds at least as tightly as its operator asks. -/
  levels : Prop
  /-- What separates the arguments of `NULLIF`. -/
  nullifSeparator : List TokenKind
  /-- What encloses the arguments of `PERCENTILE_CONT` and `PERCENTILE_DISC`. -/
  percentileOpen : List TokenKind
  percentileClose : List TokenKind
  /-- Lists, records, dates and durations may stand for values. -/
  literals : Prop

def Dialect.gql : Dialect where
  levels := True
  nullifSeparator := [.comma]
  percentileOpen := [.leftParen]
  percentileClose := [.rightParen]
  literals := True

def Dialect.taken : Dialect where
  levels := False
  nullifSeparator := []
  percentileOpen := []
  percentileClose := []
  literals := False

/-- What a token sequence may be read as. -/
inductive Phrase where
  /-- An expression whose outermost operator has at least this binding power. -/
  | expr (power : Int) (e : Expr)
  /-- A `valueExpressionPrimary`. -/
  | primary (e : Expr)
  /-- A primary without property names after it. -/
  | base (e : Expr)
  /-- Value expressions with commas between them, at least one. -/
  | args (es : List Expr)
  /-- The steps of a path. -/
  | steps (ss : List (Expr × Expr))
  /-- The fields of a record, at least one. -/
  | fields (fs : List (Ident × Expr))

/-- The token sequences that write a phrase. -/
inductive Derives (d : Dialect) : Phrase → List TokenKind → Prop where
  -- valueExpression
  | infixOp {p : Int} {op : BinaryOp} {l r : Expr} {tl tr : List TokenKind} :
      (d.levels → p ≤ op.power) → Derives d (.expr op.power l) tl →
      Derives d (.expr (op.power + 1) r) tr →
      Derives d (.expr p (.binary op l r)) (tl ++ op.token :: tr)
  | prefixOp {p : Int} {op : UnaryOp} {e : Expr} {ts : List TokenKind} :
      (d.levels → p ≤ op.power) → Derives d (.expr op.power e) ts →
      Derives d (.expr p (.unary op e)) (op.token :: ts)
  | is {p : Int} {e : Expr} {truth : BooleanLiteral} {ts : List TokenKind} :
      (d.levels → p ≤ PREC_IS) → Derives d (.expr PREC_IS e) ts →
      Derives d (.expr p (.is e truth)) (ts ++ [.is, truth.token])
  | isNot {p : Int} {e : Expr} {truth : BooleanLiteral} {ts : List TokenKind} :
      (d.levels → p ≤ PREC_IS) → Derives d (.expr PREC_IS e) ts →
      Derives d (.expr p (.isNot e truth)) (ts ++ [.is, .not, truth.token])
  | primary {p : Int} {e : Expr} {ts : List TokenKind} :
      Derives d (.primary e) ts → Derives d (.expr p e) ts
  -- valueFunction
  | genericNoArgs {p : Int} {k : TokenKind} {name : Ident} :
      regularName k = some name →
      Derives d (.expr p (.generic name [])) [k, .leftParen, .rightParen]
  | generic {p : Int} {k : TokenKind} {name : Ident} {es : List Expr} {ts : List TokenKind} :
      regularName k = some name → Derives d (.args es) ts →
      Derives d (.expr p (.generic name es)) (k :: .leftParen :: ts ++ [.rightParen])
  | numeric {p : Int} {k : TokenKind} {kind : NumericFunctionKind} {e : Expr}
      {ts : List TokenKind} :
      k ∈ kind.tokens → Derives d (.expr 0 e) ts →
      Derives d (.expr p (.numeric kind e)) (k :: .leftParen :: ts ++ [.rightParen])
  | vectorDistance {p : Int} {a b : Expr} {ta tb : List TokenKind} :
      Derives d (.expr 0 a) ta → Derives d (.expr 0 b) tb →
      Derives d (.expr p (.vectorDistance a b none))
        (.vectorDistance :: .leftParen :: ta ++ .comma :: tb ++ [.rightParen])
  | vectorDistanceMetric {p : Int} {a b : Expr} {k : TokenKind} {metric : Ident}
      {ta tb : List TokenKind} :
      Derives d (.expr 0 a) ta → Derives d (.expr 0 b) tb → regularName k = some metric →
      Derives d (.expr p (.vectorDistance a b (some metric)))
        (.vectorDistance :: .leftParen :: ta ++ .comma :: tb ++ [.comma, k, .rightParen])
  -- valueExpressionPrimary
  | base {e : Expr} {ts : List TokenKind} : Derives d (.base e) ts → Derives d (.primary e) ts
  | property {e : Expr} {ts ks : List TokenKind} {names : List Ident} :
      Derives d (.base e) ts → names ≠ [] → ks.map identifierName = names.map some →
      Derives d (.primary (.property e names)) (ts ++ ks.flatMap fun k => [.period, k])
  | paren {e : Expr} {ts : List TokenKind} :
      Derives d (.expr 0 e) ts → Derives d (.base e) (.leftParen :: ts ++ [.rightParen])
  | variableRef {k : TokenKind} {name : Ident} :
      regularName k = some name → Derives d (.base (.variable name)) [k]
  | sessionUser : Derives d (.base .sessionUser) [.sessionUser]
  | parameter {q : ParameterName} {name : Ident} :
      q.unescape = some name →
      Derives d (.base (.parameter name)) [.generalParameterReference q]
  | numericLit {literal : UnsignedNumericLiteral} :
      Derives d (.base (.numericLit literal)) [literal.token]
  | booleanLit {literal : BooleanLiteral} :
      Derives d (.base (.booleanLit literal)) [literal.token]
  | stringLit {k : TokenKind} {s : Ident} :
      stringText k = some s → Derives d (.base (.stringLit .char s)) [k]
  | null : Derives d (.base .null) [.null]
  | vector {es : List Expr} {tss : List (List TokenKind)} :
      es.map signedTokens = tss.map some →
      Derives d (.base (.vector es))
        (.vector :: .leftBracket :: commaSeparated tss ++ [.rightBracket])
  | temporal {kind : TemporalLiteralKind} {k t : TokenKind} {s : Ident} :
      d.literals → kind.token = some t → stringText k = some s →
      Derives d (.base (.temporal kind s)) [t, k]
  | duration {k : TokenKind} {s : Ident} :
      d.literals → stringText k = some s →
      Derives d (.base (.duration .duration s)) [.duration, k]
  | listEmpty {typeName : Option ListTypeName} :
      d.literals →
      Derives d (.base (.list typeName []))
        (listTypeTokens typeName ++ [.leftBracket, .rightBracket])
  | list {typeName : Option ListTypeName} {es : List Expr} {ts : List TokenKind} :
      d.literals → Derives d (.args es) ts →
      Derives d (.base (.list typeName es))
        (listTypeTokens typeName ++ .leftBracket :: ts ++ [.rightBracket])
  | recordEmpty {word : List TokenKind} :
      d.literals → word = [] ∨ word = [.record] →
      Derives d (.base (.record [])) (word ++ [.leftBrace, .rightBrace])
  | record {word : List TokenKind} {fs : List (Ident × Expr)} {ts : List TokenKind} :
      d.literals → word = [] ∨ word = [.record] → Derives d (.fields fs) ts →
      Derives d (.base (.record fs)) (word ++ .leftBrace :: ts ++ [.rightBrace])
  | path {e : Expr} {ss : List (Expr × Expr)} {te ts : List TokenKind} :
      Derives d (.primary e) te → Derives d (.steps ss) ts →
      Derives d (.base (.path e ss)) (.path :: .leftBracket :: te ++ ts ++ [.rightBracket])
  -- caseAbbreviation
  | nullIf {a b : Expr} {ta tb : List TokenKind} :
      Derives d (.expr 0 a) ta → Derives d (.expr 0 b) tb →
      Derives d (.base (.nullIf a b))
        (.nullif :: .leftParen :: ta ++ d.nullifSeparator ++ tb ++ [.rightParen])
  | coalesce {es : List Expr} {ts : List TokenKind} :
      Derives d (.args es) ts →
      Derives d (.base (.coalesce es)) (.coalesce :: .leftParen :: ts ++ [.rightParen])
  -- aggregateFunction
  | count : Derives d (.base .count) [.count, .leftParen, .asterisk, .rightParen]
  | general {kind : GeneralSetFunctionKind} {quantifier : Option SetQuantifier} {e : Expr}
      {ts : List TokenKind} :
      Derives d (.expr 0 e) ts →
      Derives d (.base (.general kind quantifier e))
        (kind.token :: .leftParen :: quantifierTokens quantifier ++ ts ++ [.rightParen])
  | binarySet {kind : BinarySetFunctionKind} {quantifier : Option SetQuantifier} {a b : Expr}
      {ta tb : List TokenKind} :
      Derives d (.expr 0 a) ta → Derives d (.expr 0 b) tb →
      Derives d (.base (.binarySet kind quantifier a b))
        (kind.token :: d.percentileOpen ++ quantifierTokens quantifier ++ ta ++ .comma :: tb ++
          d.percentileClose)
  -- lists of expressions
  | argsOne {e : Expr} {ts : List TokenKind} :
      Derives d (.expr 0 e) ts → Derives d (.args [e]) ts
  | argsMore {e : Expr} {es : List Expr} {te ts : List TokenKind} :
      Derives d (.expr 0 e) te → Derives d (.args es) ts →
      Derives d (.args (e :: es)) (te ++ .comma :: ts)
  | stepsNil : Derives d (.steps []) []
  | stepsMore {edge node : Expr} {ss : List (Expr × Expr)} {te tn ts : List TokenKind} :
      Derives d (.primary edge) te → Derives d (.primary node) tn → Derives d (.steps ss) ts →
      Derives d (.steps ((edge, node) :: ss)) (.comma :: te ++ .comma :: tn ++ ts)
  | fieldsOne {k : TokenKind} {name : Ident} {e : Expr} {ts : List TokenKind} :
      identifierName k = some name → Derives d (.expr 0 e) ts →
      Derives d (.fields [(name, e)]) (k :: .colon :: ts)
  | fieldsMore {k : TokenKind} {name : Ident} {e : Expr} {fs : List (Ident × Expr)}
      {te ts : List TokenKind} :
      identifierName k = some name → Derives d (.expr 0 e) te → Derives d (.fields fs) ts →
      Derives d (.fields ((name, e) :: fs)) (k :: .colon :: te ++ .comma :: ts)

/-! ## The constructs the parsers read -/

mutual

/-- No `NULLIF` and no percentile occurs, and no list, record, date or duration stands for a
value. -/
def Expr.supported : Expr → Bool
  | .binary _ l r => l.supported && r.supported
  | .unary _ e => e.supported
  | .is e _ => e.supported
  | .isNot e _ => e.supported
  | .generic _ args => supportedAll args
  | .numeric _ e => e.supported
  | .nullIf _ _ => false
  | .coalesce args => supportedAll args
  | .vectorDistance a b _ => a.supported && b.supported
  | .count => true
  | .general _ _ e => e.supported
  | .binarySet _ _ _ _ => false
  | .variable _ => true
  | .sessionUser => true
  | .parameter _ => true
  | .numericLit _ => true
  | .booleanLit _ => true
  | .stringLit _ _ => true
  | .temporal _ _ => false
  | .duration _ _ => false
  | .list _ _ => false
  | .record _ => false
  | .vector _ => true
  | .null => true
  | .path start steps => start.supported && supportedSteps steps
  | .property source _ => source.supported

def supportedAll : List Expr → Bool
  | [] => true
  | e :: es => e.supported && supportedAll es

def supportedSteps : List (Expr × Expr) → Bool
  | [] => true
  | (edge, node) :: ss => edge.supported && node.supported && supportedSteps ss

end

end MiniGU.Parsing
