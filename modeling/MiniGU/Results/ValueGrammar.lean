import MiniGU.Invariant.LabelReads
import MiniGU.Invariant.ValueDerivations

/-!
# The round trip of value expressions

An expression written by the GQL grammar is parsed back when the parsers read all of its
constructs, and never otherwise. `NULLIF` is not: its parser looks for two expressions with
nothing between them. Nor are `PERCENTILE_CONT` and `PERCENTILE_DISC`, whose parser looks for no
parentheses, and lists, whose constructor no parser of values calls; records, dates and
durations have no parser.

## The operator tables

Value expressions and label expressions are parsed by their operator tables. An expression tree
is written with parentheses exactly where the powers of the table require them
(`OpTree.write`); the parser takes all the tokens and returns the tree. In the other direction,
the tokens the parser takes are the in-order tokens of the tree it returns, with the
parentheses it read.

The leaves of a tree are any phrases that the grammar allows where an operand of every power is
asked for: variables, literals, parameters, property accesses, functions and constructors whose
nested expressions the parsers read.

## Results

* `derives_write`, `labelDerives_write`: what `OpTree.write` gives is a derivation.
-/

namespace MiniGU.Parsing

/-- **The expressions that come back** are those of supported constructs: from the tokens the
grammar assigns to it, an expression is returned with nothing left over exactly when no
`NULLIF`, percentile, list, record, date or duration occurs in it. -/
theorem valueExpression_roundTrips_iff {e : Expr} {ts : List TokenKind}
    (h : Derives .gql (.expr 0 e) ts) :
    valueExpression ts = .ok e [] ↔ e.supported = true := by
  have hRead := valueExpression_of_derives h (Int.le_refl 0) ends_nil
  rw [List.append_nil] at hRead
  rw [hRead]
  cases e.supported with
  | true => exact ⟨fun _ => rfl, fun _ => rfl⟩
  | false => exact ⟨fun hOk => (nomatch hOk), fun hFalse => (nomatch hFalse)⟩

/-- `COALESCE(a.x, COUNT(*), -1)` comes back. -/
theorem coalesce_comes_back :
    valueExpression [.coalesce, .leftParen, .regularIdentifier "a", .period,
      .regularIdentifier "x", .comma, .count, .leftParen, .asterisk, .rightParen, .comma, .minus,
      .unsignedDecimalInteger "1", .rightParen] =
      .ok (.coalesce [.property (.variable "a") ["x"], .count,
        .unary .minus (.numericLit (.integer .decimal "1"))]) [] := by
  have hProperty : Derives .gql (.expr 0 (.property (.variable "a") ["x"]))
      [.regularIdentifier "a", .period, .regularIdentifier "x"] :=
    .primary (@Derives.property _ _ _ [.regularIdentifier "x"] _ (.variableRef rfl) nofun rfl)
  have hMinus : Derives .gql (.expr 0 (.unary .minus (.numericLit (.integer .decimal "1"))))
      [.minus, .unsignedDecimalInteger "1"] :=
    @Derives.prefixOp _ 0 .minus _ _ (fun _ => by decide)
      (.primary (.base (@Derives.numericLit _ (.integer .decimal "1"))))
  have hArgs := Derives.argsMore hProperty
    (.argsMore (.primary (.base .count)) (.argsOne hMinus))
  exact (valueExpression_roundTrips_iff (.primary (.base (.coalesce hArgs)))).mpr rfl

/-- `NULLIF(a, b)` is an expression of the grammar that the parser refuses; without the comma it
would be taken. -/
theorem nullIf_is_refused :
    Derives .gql (.expr 0 (.nullIf (.variable "a") (.variable "b")))
      [.nullif, .leftParen, .regularIdentifier "a", .comma, .regularIdentifier "b",
        .rightParen] ∧
    valueExpression [.nullif, .leftParen, .regularIdentifier "a", .comma,
      .regularIdentifier "b", .rightParen] ≠ .ok (.nullIf (.variable "a") (.variable "b")) [] ∧
    valueExpression [.nullif, .leftParen, .regularIdentifier "a", .regularIdentifier "b",
      .rightParen] = .ok (.nullIf (.variable "a") (.variable "b")) [] := by
  refine ⟨?_, nofun, rfl⟩
  exact .primary (.base (.nullIf (.primary (.base (.variableRef rfl)))
    (.primary (.base (.variableRef rfl)))))

end MiniGU.Parsing

namespace MiniGU.Parsing

-- ----
-- Value expressions
-- ----

/-- An operand as it is written. -/
structure ValueOperand where
  e : Expr
  tokens : List TokenKind
  /-- It is no operator expression: it can stand at every binding power. -/
  derives : ∀ p, Derives .gql (.expr p e) tokens
  supported : e.supported = true

abbrev ValueTree := OpTree ValueOperand UnaryOp SuffixOp BinaryOp

def SuffixOp.tokens : SuffixOp → List TokenKind
  | .is truth => [.is, truth.token]
  | .isNot truth => [.is, .not, truth.token]

def SuffixOp.apply : SuffixOp → Expr → Expr
  | .is truth, e => .is e truth
  | .isNot truth, e => .isNot e truth

/-- The precedence table of value expressions. -/
def valueOpTable : OpTable TokenKind ValueOperand UnaryOp SuffixOp BinaryOp where
  operandTokens := ValueOperand.tokens
  prefixPower := UnaryOp.power
  prefixTokens op := [op.token]
  suffixPower _ := PREC_IS
  suffixTokens := SuffixOp.tokens
  infixPower := BinaryOp.power
  infixTokens op := [op.token]
  opening := .leftParen
  closing := .rightParen

def valueTreeExpr : ValueTree → Expr
  | .operand a => a.e
  | .prefixOp op t => .unary op (valueTreeExpr t)
  | .suffixOp t op => op.apply (valueTreeExpr t)
  | .infixOp l op r => .binary op (valueTreeExpr l) (valueTreeExpr r)

theorem derives_paren {p : Int} {e : Expr} {ts : List TokenKind}
    (h : Derives .gql (.expr 0 e) ts) :
    Derives .gql (.expr p e) (.leftParen :: ts ++ [.rightParen]) :=
  .primary (.base (.paren h))

/-- A tree written where power `p` is asked for is a derivation at that power. -/
theorem derives_write (t : ValueTree) (p : Int) :
    Derives .gql (.expr p (valueTreeExpr t)) (t.write valueOpTable p) := by
  induction t generalizing p with
  | operand a => exact a.derives p
  | prefixOp op t ih =>
    refine OpTable.enclose_of (R := fun p ts => Derives .gql (.expr p (.unary op _)) ts)
      (fun r hr => .prefixOp (fun _ => hr) (ih _)) ?_ derives_paren
    cases op <;> decide
  | suffixOp t op ih =>
    refine OpTable.enclose_of (R := fun p ts => Derives .gql (.expr p (op.apply _)) ts)
      (fun r hr => ?_) (show 0 ≤ PREC_IS by decide) derives_paren
    cases op with
    | is truth => exact .is (fun _ => hr) (ih _)
    | isNot truth => exact .isNot (fun _ => hr) (ih _)
  | infixOp l op r ihl ihr =>
    refine OpTable.enclose_of (R := fun p ts => Derives .gql (.expr p (.binary op _ _)) ts)
      (fun q hq => ?_) ?_ derives_paren
    · have hInfix := @Derives.infixOp .gql q op _ _ _ _ (fun _ => hq) (ihl _) (ihr _)
      simpa [valueOpTable] using hInfix
    · cases op <;> decide

theorem supported_valueTreeExpr (t : ValueTree) : (valueTreeExpr t).supported = true := by
  induction t with
  | operand a => exact a.supported
  | prefixOp op t ih => rw [valueTreeExpr, Expr.supported, ih]
  | suffixOp t op ih => cases op <;> rw [valueTreeExpr, SuffixOp.apply, Expr.supported, ih]
  | infixOp l op r ihl ihr => rw [valueTreeExpr, Expr.supported, ihl, ihr]; rfl

-- ----
-- Label expressions
-- ----

/-- A label name or the wildcard, as it is written. -/
structure LabelOperand where
  e : LabelExpr
  tokens : List TokenKind
  derives : ∀ p, LabelDerives True p e tokens

abbrev LabelTree := OpTree LabelOperand Unit Empty InfixLabelOp

/-- The precedence table of label expressions. -/
def labelOpTable : OpTable TokenKind LabelOperand Unit Empty InfixLabelOp where
  operandTokens := LabelOperand.tokens
  prefixPower _ := PREC_NEGATION
  prefixTokens _ := [.exclamation]
  suffixPower op := nomatch op
  suffixTokens op := nomatch op
  infixPower := InfixLabelOp.power
  infixTokens op := [op.token]
  opening := .leftParen
  closing := .rightParen

def labelTreeExpr : LabelTree → LabelExpr
  | .operand a => a.e
  | .prefixOp _ t => .negation (labelTreeExpr t)
  | .suffixOp _ op => nomatch op
  | .infixOp l op r => op.apply (labelTreeExpr l) (labelTreeExpr r)

theorem labelDerives_write (t : LabelTree) (p : Int) :
    LabelDerives True p (labelTreeExpr t) (t.write labelOpTable p) := by
  induction t generalizing p with
  | operand a => exact a.derives p
  | prefixOp op t ih =>
    exact OpTable.enclose_of (R := fun p ts => LabelDerives True p (.negation _) ts)
      (fun r hr => .negation (fun _ => hr) (ih _)) (show 0 ≤ PREC_NEGATION by decide) .paren
  | suffixOp t op ih => exact nomatch op
  | infixOp l op r ihl ihr =>
    refine OpTable.enclose_of (R := fun p ts => LabelDerives True p (op.apply _ _) ts)
      (fun q hq => ?_) ?_ .paren
    · have hInfix := @LabelDerives.infixOp True q op _ _ _ _ (fun _ => hq) (ihl _) (ihr _)
      simpa [labelOpTable] using hInfix
    · cases op <;> decide

-- ----
-- Both directions
-- ----

/-- **Expressions are parsed by their operator tables.** Every expression tree, written with
parentheses exactly where the table requires them, is taken whole and returned; and whatever is
accepted was taken from the in-order tokens of the tree returned, with the parentheses read. -/
theorem expressions_follow_operatorTables :
    (∀ t : ValueTree, valueExpression (t.write valueOpTable 0) = .ok (valueTreeExpr t) []) ∧
    (∀ ts e rest, valueExpression ts = .ok e rest →
      ∃ us, ts = us ++ rest ∧ Derives .taken (.expr 0 e) us) ∧
    (∀ t : LabelTree, labelExpression (t.write labelOpTable 0) = .ok (labelTreeExpr t) []) ∧
    (∀ ts e rest, labelExpression ts = .ok e rest →
      ∃ us, ts = us ++ rest ∧ LabelDerives False 0 e us) := by
  refine ⟨fun t => ?_, fun ts e rest h => ?_, fun t => ?_, fun ts e rest h => ?_⟩
  · have hRead := valueExpression_of_derives (derives_write t 0) (Int.le_refl 0) ends_nil
    rwa [List.append_nil, supported_valueTreeExpr] at hRead
  · obtain ⟨us, hUs, hWritten⟩ := takes_valueExpression ts e rest h
    exact ⟨us, hUs, hWritten 0⟩
  · have hRead : labelExpression (t.write labelOpTable 0 ++ []) = .ok (labelTreeExpr t) [] :=
      labelExpression_of_derives (labelDerives_write t 0) (Int.le_refl 0) nofun
    rwa [List.append_nil] at hRead
  · obtain ⟨us, hUs, hWritten⟩ := takes_labelExpression ts e rest h
    exact ⟨us, hUs, hWritten 0⟩

end MiniGU.Parsing
