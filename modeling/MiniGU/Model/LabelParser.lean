import MiniGU.Model.Label
import MiniGU.Model.ValueGrammar

/-!
# The parser of label expressions

`label_expression` and the parsers below it
(`gql/parser/src/parser/impls/common.rs`), and the grammar of label expressions with the
binding powers of its operators (`labelExpression` of the GQL grammar).
-/

namespace MiniGU.Parsing

def PREC_DISJUNCTION : Int := 1
def PREC_CONJUNCTION : Int := 2
def PREC_NEGATION : Int := 3

inductive InfixLabelOp where
  | conjunction
  | disjunction
deriving DecidableEq, Repr

def labelExpressionPrimary (labelExpression : TokenParser LabelExpr) : TokenParser LabelExpr :=
  peekAny fun
    | .leftParen => do
      expect .leftParen
      let e ← labelExpression
      expect .rightParen
      pure e
    | .percent => do
      expect .percent
      pure .wildcard
    | _ => do
      let name ← labelName
      pure (.label name)

def labelExpressionPrefix : TokenParser (Int × Unit) := do
  expect .exclamation
  pure (PREC_NEGATION, ())

def labelExpressionInfix : TokenParser (Assoc × Int × InfixLabelOp) := do
  match ← any with
  | .ampersand => pure (.left, PREC_CONJUNCTION, .conjunction)
  | .verticalBar => pure (.left, PREC_DISJUNCTION, .disjunction)
  | _ => fail

/-- The table of `label_expression`; there is no suffix operator. -/
def labelExpressionTable (operand : TokenParser LabelExpr) :
    PrattConfig TokenKind LabelExpr Unit Empty InfixLabelOp where
  parseOperand := operand
  parsePrefix := labelExpressionPrefix
  parseSuffix := fail
  parseInfix := labelExpressionInfix
  foldPrefix _ a := .negation a
  foldSuffix _ op := nomatch op
  foldInfix a op b :=
    match op with
    | .conjunction => .conjunction a b
    | .disjunction => .disjunction a b

/-- `label_expression`, nested at most as deep as the bound. -/
def labelExpressionN : Nat → TokenParser LabelExpr
  | 0 => fun _ => .stuck
  | n + 1 =>
    precedence (labelExpressionTable (labelExpressionPrimary (labelExpressionN n))) PREC_INIT

def labelExpression : TokenParser LabelExpr := fun ts => labelExpressionN (ts.length + 1) ts

/-! ## The grammar -/

def InfixLabelOp.token : InfixLabelOp → TokenKind
  | .conjunction => .ampersand
  | .disjunction => .verticalBar

def InfixLabelOp.power : InfixLabelOp → Int
  | .conjunction => PREC_CONJUNCTION
  | .disjunction => PREC_DISJUNCTION

def InfixLabelOp.apply : InfixLabelOp → LabelExpr → LabelExpr → LabelExpr
  | .conjunction => .conjunction
  | .disjunction => .disjunction

/-- The token sequences that write a label expression whose outermost operator has at least the
given power; `levels` asks that operands bind as tightly as their operators want. -/
inductive LabelDerives (levels : Prop) : Int → LabelExpr → List TokenKind → Prop where
  | label {p : Int} {k : TokenKind} {name : Ident} :
      identifierName k = some name → LabelDerives levels p (.label name) [k]
  | wildcard {p : Int} : LabelDerives levels p .wildcard [.percent]
  | paren {p : Int} {e : LabelExpr} {ts : List TokenKind} :
      LabelDerives levels 0 e ts → LabelDerives levels p e (.leftParen :: ts ++ [.rightParen])
  | negation {p : Int} {e : LabelExpr} {ts : List TokenKind} :
      (levels → p ≤ PREC_NEGATION) → LabelDerives levels PREC_NEGATION e ts →
      LabelDerives levels p (.negation e) (.exclamation :: ts)
  | infixOp {p : Int} {op : InfixLabelOp} {l r : LabelExpr} {tl tr : List TokenKind} :
      (levels → p ≤ op.power) → LabelDerives levels op.power l tl →
      LabelDerives levels (op.power + 1) r tr →
      LabelDerives levels p (op.apply l r) (tl ++ op.token :: tr)

end MiniGU.Parsing
