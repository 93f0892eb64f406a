import MiniGU.Model.LabelParser

/-!
# Graph patterns and their parser

The AST of graph patterns (`gql/parser/src/ast/common.rs`) and the parsers from
`graph_pattern` to `subpath_variable_declaration` of `gql/parser/src/parser/impls/common.rs`,
one definition for each, over token lists. Spans are left out, and the fields of
`GroupedPathPattern` are those of the constructor `grouped`.

`path_pattern_expression` calls itself through `parenthesized_path_pattern_expression`; the
nesting is bounded by the number of tokens (`pathPatternExpressionN`), and the parsers in
between take the recursive one as an argument.
-/

namespace MiniGU.Parsing

/-! ## The AST -/

inductive PathMode where
  | walk | trail | simple | acyclic
deriving DecidableEq, Repr

inductive PathSearchMode where
  | all (mode : Option PathMode)
  | any (number : Option NonNegativeInteger) (mode : Option PathMode)
  | allShortest (mode : Option PathMode)
  | anyShortest (mode : Option PathMode)
  | countedShortest (number : NonNegativeInteger) (mode : Option PathMode)
  | countedShortestGroup (number : Option NonNegativeInteger) (mode : Option PathMode)
deriving DecidableEq, Repr

inductive PathPatternPrefix where
  | pathMode (mode : PathMode)
  | pathSearch (search : PathSearchMode)
deriving DecidableEq, Repr

inductive PatternQuantifier where
  | asterisk
  | plus
  | fixed (n : UnsignedInteger)
  | general (lowerBound upperBound : Option UnsignedInteger)
deriving DecidableEq, Repr

inductive ElementPatternPredicate where
  | where (condition : Expr)
  | property (fields : List (Ident × Expr))

structure ElementPatternFiller where
  name : Option Ident
  label : Option LabelExpr
  predicate : Option ElementPatternPredicate

inductive ElementPattern where
  | node (filler : ElementPatternFiller)
  | edge (kind : EdgePatternKind) (filler : ElementPatternFiller)

inductive PathPatternExpr where
  | union (paths : List PathPatternExpr)
  | alternation (paths : List PathPatternExpr)
  | concat (paths : List PathPatternExpr)
  | quantified (path : PathPatternExpr) (quantifier : PatternQuantifier)
  | optional (path : PathPatternExpr)
  | grouped (name : Option Ident) (mode : Option PathMode) (expr : PathPatternExpr)
      (whereClause : Option Expr)
  | pattern (element : ElementPattern)

structure PathPattern where
  name : Option Ident
  searchPrefix : Option PathPatternPrefix
  expr : PathPatternExpr

inductive MatchMode where
  | repeatable | different
deriving DecidableEq, Repr

structure GraphPattern where
  matchMode : Option MatchMode
  patterns : List PathPattern
  keep : Option PathPatternPrefix
  whereClause : Option Expr

/-! ## Element patterns -/

def searchCondition : TokenParser Expr := valueExpression

def elementVariable : TokenParser Ident := bindingVariable
def pathVariable : TokenParser Ident := bindingVariable
def subpathVariable : TokenParser Ident := regularIdentifier

def isOrColon : TokenParser Unit :=
  satisfy fun
    | .is | .colon => true
    | _ => false

def isLabelExpression : TokenParser LabelExpr := do
  isOrColon
  labelExpression

def elementVariableDeclaration : TokenParser Ident := elementVariable

def propertyKeyValuePair : TokenParser (Ident × Expr) := do
  let name ← propertyName
  expect .colon
  let value ← valueExpression
  pure (name, value)

def elementPropertySpecification : TokenParser (List (Ident × Expr)) := do
  expect .leftBrace
  let fields ← separated1 propertyKeyValuePair (expect .comma)
  expect .rightBrace
  pure fields

def elementPatternPredicate : TokenParser ElementPatternPredicate :=
  peekAny fun
    | .where => do
      expect .where
      let condition ← searchCondition
      pure (.where condition)
    | .leftBrace => do
      let fields ← elementPropertySpecification
      pure (.property fields)
    | _ => fail

def elementPatternFiller : TokenParser ElementPatternFiller := do
  let name ← opt elementVariableDeclaration
  let label ← opt isLabelExpression
  let predicate ← opt elementPatternPredicate
  pure ⟨name, label, predicate⟩

def nodePattern : TokenParser ElementPattern := do
  expect .leftParen
  let filler ← elementPatternFiller
  expect .rightParen
  pure (.node filler)

/-- The direction that the two brackets of a full edge pattern make. -/
def fullEdgeKind : TokenKind → TokenKind → Option EdgePatternKind
  | .leftArrowBracket, .rightBracketMinus => some .left
  | .tildeLeftBracket, .rightBracketTilde => some .undirected
  | .minusLeftBracket, .bracketRightArrow => some .right
  | .leftArrowTildeBracket, .rightBracketTilde => some .leftUndirected
  | .tildeLeftBracket, .bracketTildeRightArrow => some .rightUndirected
  | .leftArrowBracket, .bracketRightArrow => some .leftRight
  | .minusLeftBracket, .rightBracketMinus => some .any
  | _, _ => none

/-- Either bracket may be any token until both are there. -/
def fullEdgePattern : TokenParser ElementPattern := do
  let left ← any
  let filler ← elementPatternFiller
  let right ← any
  match fullEdgeKind left right with
  | some kind => pure (.edge kind filler)
  | none => fail

def abbreviatedEdgePattern : TokenParser EdgePatternKind := do
  match ← any with
  | .leftArrow => pure .left
  | .tilde => pure .undirected
  | .rightArrow => pure .right
  | .leftArrowTilde => pure .leftUndirected
  | .tildeRightArrow => pure .rightUndirected
  | .leftMinusRight => pure .leftRight
  | .minus => pure .any
  | _ => fail

def edgePattern : TokenParser ElementPattern :=
  peekAny fun kind =>
    if kind.isPrefixOfFullEdgePattern then fullEdgePattern
    else if kind.isPrefixOfAbbreviatedEdgePattern then do
      let kind ← abbreviatedEdgePattern
      pure (.edge kind ⟨none, none, none⟩)
    else fail

def elementPattern : TokenParser ElementPattern :=
  peekAny fun kind =>
    match kind with
    | .leftParen => nodePattern
    | kind => if kind.isPrefixOfEdgePattern then edgePattern else fail

/-! ## Quantifiers -/

def fixedQuantifier : TokenParser PatternQuantifier := do
  expect .leftBrace
  let n ← unsignedInteger
  expect .rightBrace
  pure (.fixed n)

def generalQuantifier : TokenParser PatternQuantifier := do
  expect .leftBrace
  let lowerBound ← opt unsignedInteger
  expect .comma
  let upperBound ← opt unsignedInteger
  expect .rightBrace
  pure (.general lowerBound upperBound)

/-- `fixed_or_general` of `graph_pattern_quantifier`. -/
def fixedOrGeneral : TokenParser PatternQuantifier :=
  peekThree fun
    | .leftBrace, .comma, .rightBrace => generalQuantifier
    | .leftBrace, _, .rightBrace => fixedQuantifier
    | _, _, _ => generalQuantifier

def graphPatternQuantifier : TokenParser PatternQuantifier :=
  peekAny fun
    | .asterisk => do
      expect .asterisk
      pure .asterisk
    | .plus => do
      expect .plus
      pure .plus
    | .leftBrace => fixedOrGeneral
    | _ => fail

/-! ## Prefixes -/

def pathOrPaths : TokenParser Unit :=
  satisfy fun
    | .path | .paths => true
    | _ => false

def pathMode : TokenParser PathMode := do
  match ← any with
  | .nonReserved .walk _ => pure .walk
  | .nonReserved .trail _ => pure .trail
  | .nonReserved .simple _ => pure .simple
  | .nonReserved .acyclic _ => pure .acyclic
  | _ => fail

def pathModePrefix : TokenParser PathMode := do
  let mode ← pathMode
  let _ ← opt pathOrPaths
  pure mode

def numberOfPaths : TokenParser NonNegativeInteger := nonNegativeIntegerSpecification
def numberOfGroups : TokenParser NonNegativeInteger := nonNegativeIntegerSpecification

def allPathSearch : TokenParser PathSearchMode := do
  expect .all
  let mode ← opt pathMode
  let _ ← opt pathOrPaths
  pure (.all mode)

/-- Unlike the searches beside it, this one does not take its first word. -/
def anyPathSearch : TokenParser PathSearchMode := do
  let number ← opt numberOfPaths
  let mode ← opt pathMode
  let _ ← opt pathOrPaths
  pure (.any number mode)

def allShortestPathSearch : TokenParser PathSearchMode := do
  expect .all
  expectWord .shortest
  let mode ← opt pathMode
  let _ ← opt pathOrPaths
  pure (.allShortest mode)

def anyShortestPathSearch : TokenParser PathSearchMode := do
  expect .any
  expectWord .shortest
  let mode ← opt pathMode
  let _ ← opt pathOrPaths
  pure (.anyShortest mode)

def groupOrGroups : TokenParser Unit :=
  satisfy fun
    | .group | .nonReserved .groups _ => true
    | _ => false

/-- `path_or_group` of `shortest_path_search`. -/
def pathOrGroup : TokenParser PathSearchMode := do
  expectWord .shortest
  let number ← opt numberOfGroups
  let mode ← opt pathMode
  let _ ← opt pathOrPaths
  let suffix ← opt groupOrGroups
  match number, suffix with
  | number, some () => pure (.countedShortestGroup number mode)
  | some number, none => pure (.countedShortest number mode)
  | none, none => fail

def shortestPathSearch : TokenParser PathSearchMode :=
  peekTwo fun
    | .all, .nonReserved .shortest _ => allShortestPathSearch
    | .any, .nonReserved .shortest _ => anyShortestPathSearch
    | .nonReserved .shortest _, _ => pathOrGroup
    | _, _ => fail

def pathSearchPrefix : TokenParser PathSearchMode :=
  peekAnyOpt fun
    | .all, some (.nonReserved .shortest _) => shortestPathSearch
    | .any, some (.nonReserved .shortest _) => shortestPathSearch
    | .nonReserved .shortest _, _ => shortestPathSearch
    | .all, _ => allPathSearch
    | .any, _ => anyPathSearch
    | _, _ => fail

def pathPatternPrefix : TokenParser PathPatternPrefix :=
  peekAny fun
    | .nonReserved .walk _ | .nonReserved .trail _ | .nonReserved .simple _
    | .nonReserved .acyclic _ => do
      let mode ← pathModePrefix
      pure (.pathMode mode)
    | .all | .any | .nonReserved .shortest _ => do
      let search ← pathSearchPrefix
      pure (.pathSearch search)
    | _ => fail

/-! ## Path patterns -/

def graphPatternWhereClause : TokenParser Expr := do
  expect .where
  searchCondition

def parenthesizedPathPatternWhereClause : TokenParser Expr := graphPatternWhereClause

def pathVariableDeclaration : TokenParser Ident := do
  let name ← pathVariable
  expect .equals
  pure name

def subpathVariableDeclaration : TokenParser Ident := do
  let name ← subpathVariable
  expect .equals
  pure name

def parenthesizedPathPatternExpression (pathPatternExpression : TokenParser PathPatternExpr) :
    TokenParser PathPatternExpr := do
  expect .leftParen
  let name ← opt subpathVariableDeclaration
  let mode ← opt pathModePrefix
  let expr ← pathPatternExpression
  let whereClause ← opt parenthesizedPathPatternWhereClause
  expect .rightParen
  pure (.grouped name mode expr whereClause)

def pathElement : TokenParser PathPatternExpr := do
  let element ← elementPattern
  pure (.pattern element)

def pathPrimary (pathPatternExpression : TokenParser PathPatternExpr) :
    TokenParser PathPatternExpr :=
  peekAny fun kind =>
    match kind with
    | .leftParen =>
      orElse (parenthesizedPathPatternExpression pathPatternExpression) pathElement
    | kind => if kind.isPrefixOfEdgePattern then pathElement else fail

def pathFactor (pathPatternExpression : TokenParser PathPatternExpr) :
    TokenParser PathPatternExpr := do
  let path ← pathPrimary pathPatternExpression
  peekOpt fun
    | some .questionMark => do
      expect .questionMark
      pure (.optional path)
    | some .asterisk | some .plus | some .leftBrace => do
      let quantifier ← graphPatternQuantifier
      pure (.quantified path quantifier)
    | _ => pure path

def pathTerm (pathPatternExpression : TokenParser PathPatternExpr) :
    TokenParser PathPatternExpr := do
  let paths ← repeat1 (pathFactor pathPatternExpression)
  pure (.concat paths)

/-- `preceded(sep, path_term)`. -/
def nextTerm (pathPatternExpression : TokenParser PathPatternExpr) (sep : TokenKind) :
    TokenParser PathPatternExpr := do
  expect sep
  pathTerm pathPatternExpression

def pathPatternExpressionInner (pathPatternExpression : TokenParser PathPatternExpr) :
    TokenParser PathPatternExpr := do
  let path ← pathTerm pathPatternExpression
  peekOpt fun
    | some .alternation => do
      let paths ← repeat1 (nextTerm pathPatternExpression .alternation)
      pure (.alternation (path :: paths))
    | some .verticalBar => do
      let paths ← repeat1 (nextTerm pathPatternExpression .verticalBar)
      pure (.union (path :: paths))
    | _ => pure path

/-- `path_pattern_expression`, nested at most as deep as the bound. -/
def pathPatternExpressionN : Nat → TokenParser PathPatternExpr
  | 0 => fun _ => .stuck
  | n + 1 => pathPatternExpressionInner (pathPatternExpressionN n)

def pathPatternExpression : TokenParser PathPatternExpr := fun ts =>
  pathPatternExpressionN (ts.length + 1) ts

def pathPattern : TokenParser PathPattern := do
  let name ← opt pathVariableDeclaration
  let searchPrefix ← opt pathPatternPrefix
  let expr ← pathPatternExpression
  pure ⟨name, searchPrefix, expr⟩

/-! ## Graph patterns -/

def edgeSynonym : TokenParser Unit :=
  satisfy fun
    | .nonReserved .edge _ | .nonReserved .relationship _ => true
    | _ => false

def edgesSynonym : TokenParser Unit :=
  satisfy fun
    | .nonReserved .edges _ | .nonReserved .relationships _ => true
    | _ => false

def elementBindingsOrElements : TokenParser Unit :=
  orElse
    (do
      expectWord .element
      let _ ← opt (expectWord .bindings)
      pure ())
    (expectWord .elements)

def edgeBindingsOrEdges : TokenParser Unit :=
  orElse
    (do
      edgeSynonym
      let _ ← opt (expectWord .bindings)
      pure ())
    edgesSynonym

def matchMode : TokenParser MatchMode := do
  match ← any with
  | .nonReserved .repeatable _ => do
    elementBindingsOrElements
    pure .repeatable
  | .nonReserved .different _ => do
    edgeBindingsOrEdges
    pure .different
  | _ => fail

def keepClause : TokenParser PathPatternPrefix := do
  expectWord .keep
  pathPatternPrefix

def graphPattern : TokenParser GraphPattern := do
  let mode ← opt matchMode
  let patterns ← separated1 pathPattern (expect .comma)
  let keep ← opt keepClause
  let whereClause ← opt graphPatternWhereClause
  pure ⟨mode, patterns, keep, whereClause⟩

end MiniGU.Parsing
