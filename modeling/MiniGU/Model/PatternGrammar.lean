import MiniGU.Lib.Reading
import MiniGU.Model.GraphPattern

/-!
# The grammar of graph patterns

Which token sequences write a graph pattern, by the rules of the GQL grammar
(`minigu-test/benches/antlr4/src/GQL.g4`, `graphPattern` and below). The value expressions in a
pattern are those of `Derives .gql`, its label expressions those of `LabelDerives`. The AST has
no simplified path patterns, so their rules are left out.
-/

namespace MiniGU.Parsing

/-! ## Element patterns -/

/-- `searchCondition` after `WHERE`. -/
inductive WhereDerives : Expr → List TokenKind → Prop where
  | mk {e : Expr} {ts : List TokenKind} :
      Derives .gql (.expr 0 e) ts → WhereDerives e (.where :: ts)

inductive VariableDerives : Ident → List TokenKind → Prop where
  | mk {name : Ident} {k : TokenKind} : regularName k = some name → VariableDerives name [k]

inductive IsLabelDerives : LabelExpr → List TokenKind → Prop where
  | is {e : LabelExpr} {ts : List TokenKind} :
      LabelDerives True 0 e ts → IsLabelDerives e (.is :: ts)
  | colon {e : LabelExpr} {ts : List TokenKind} :
      LabelDerives True 0 e ts → IsLabelDerives e (.colon :: ts)

inductive PredicateDerives : ElementPatternPredicate → List TokenKind → Prop where
  | where {e : Expr} {ts : List TokenKind} :
      WhereDerives e ts → PredicateDerives (.where e) ts
  | property {fs : List (Ident × Expr)} {ts : List TokenKind} :
      Derives .gql (.fields fs) ts →
      PredicateDerives (.property fs) (.leftBrace :: ts ++ [.rightBrace])

inductive FillerDerives : ElementPatternFiller → List TokenKind → Prop where
  | mk {name : Option Ident} {label : Option LabelExpr}
      {predicate : Option ElementPatternPredicate} {tn tl tp : List TokenKind} :
      Optionally VariableDerives name tn → Optionally IsLabelDerives label tl →
      Optionally PredicateDerives predicate tp →
      FillerDerives ⟨name, label, predicate⟩ (tn ++ tl ++ tp)

/-- The brackets of a full edge pattern. -/
def edgeBrackets : EdgePatternKind → TokenKind × TokenKind
  | .left => (.leftArrowBracket, .rightBracketMinus)
  | .undirected => (.tildeLeftBracket, .rightBracketTilde)
  | .right => (.minusLeftBracket, .bracketRightArrow)
  | .leftUndirected => (.leftArrowTildeBracket, .rightBracketTilde)
  | .rightUndirected => (.tildeLeftBracket, .bracketTildeRightArrow)
  | .leftRight => (.leftArrowBracket, .bracketRightArrow)
  | .any => (.minusLeftBracket, .rightBracketMinus)

/-- The token of an abbreviated edge pattern. -/
def edgeArrow : EdgePatternKind → TokenKind
  | .left => .leftArrow
  | .undirected => .tilde
  | .right => .rightArrow
  | .leftUndirected => .leftArrowTilde
  | .rightUndirected => .tildeRightArrow
  | .leftRight => .leftMinusRight
  | .any => .minus

inductive ElementDerives : ElementPattern → List TokenKind → Prop where
  | node {filler : ElementPatternFiller} {ts : List TokenKind} :
      FillerDerives filler ts → ElementDerives (.node filler) (.leftParen :: ts ++ [.rightParen])
  | fullEdge {kind : EdgePatternKind} {filler : ElementPatternFiller} {ts : List TokenKind} :
      FillerDerives filler ts →
      ElementDerives (.edge kind filler) ((edgeBrackets kind).1 :: ts ++ [(edgeBrackets kind).2])
  | abbreviatedEdge {kind : EdgePatternKind} :
      ElementDerives (.edge kind ⟨none, none, none⟩) [edgeArrow kind]

/-! ## Quantifiers and prefixes -/

def boundTokens : Option UnsignedInteger → List TokenKind
  | none => []
  | some n => [unsignedIntegerToken n]

def PatternQuantifier.tokens : PatternQuantifier → List TokenKind
  | .asterisk => [.asterisk]
  | .plus => [.plus]
  | .fixed n => [.leftBrace, unsignedIntegerToken n, .rightBrace]
  | .general lowerBound upperBound =>
    .leftBrace :: boundTokens lowerBound ++ .comma :: boundTokens upperBound ++ [.rightBrace]

def PathMode.word : PathMode → NonReservedWord
  | .walk => .walk
  | .trail => .trail
  | .simple => .simple
  | .acyclic => .acyclic

inductive ModeDerives : PathMode → List TokenKind → Prop where
  | mk {mode : PathMode} {slice : Ident} : ModeDerives mode [.nonReserved mode.word slice]

/-- `pathOrPaths`, where it may be left out. -/
inductive PathWords : List TokenKind → Prop where
  | none : PathWords []
  | path : PathWords [.path]
  | paths : PathWords [.paths]

/-- `pathModePrefix`. -/
inductive ModePrefixDerives : PathMode → List TokenKind → Prop where
  | mk {mode : PathMode} {tm tw : List TokenKind} :
      ModeDerives mode tm → PathWords tw → ModePrefixDerives mode (tm ++ tw)

inductive NumberDerives : NonNegativeInteger → List TokenKind → Prop where
  | integer {n : UnsignedInteger} : NumberDerives (.integer n) [unsignedIntegerToken n]
  | parameter {q : ParameterName} {name : Ident} :
      q.unescape = some name → NumberDerives (.parameter name) [.generalParameterReference q]

inductive GroupWord : TokenKind → Prop where
  | group : GroupWord .group
  | groups {slice : Ident} : GroupWord (.nonReserved .groups slice)

inductive SearchDerives : PathSearchMode → List TokenKind → Prop where
  | all {mode : Option PathMode} {tm tw : List TokenKind} :
      Optionally ModeDerives mode tm → PathWords tw →
      SearchDerives (.all mode) (.all :: tm ++ tw)
  | any {number : Option NonNegativeInteger} {mode : Option PathMode}
      {tn tm tw : List TokenKind} :
      Optionally NumberDerives number tn → Optionally ModeDerives mode tm → PathWords tw →
      SearchDerives (.any number mode) (.any :: tn ++ tm ++ tw)
  | allShortest {mode : Option PathMode} {slice : Ident} {tm tw : List TokenKind} :
      Optionally ModeDerives mode tm → PathWords tw →
      SearchDerives (.allShortest mode) (.all :: .nonReserved .shortest slice :: tm ++ tw)
  | anyShortest {mode : Option PathMode} {slice : Ident} {tm tw : List TokenKind} :
      Optionally ModeDerives mode tm → PathWords tw →
      SearchDerives (.anyShortest mode) (.any :: .nonReserved .shortest slice :: tm ++ tw)
  | countedShortest {number : NonNegativeInteger} {mode : Option PathMode} {slice : Ident}
      {tn tm tw : List TokenKind} :
      NumberDerives number tn → Optionally ModeDerives mode tm → PathWords tw →
      SearchDerives (.countedShortest number mode)
        (.nonReserved .shortest slice :: tn ++ tm ++ tw)
  | countedShortestGroup {number : Option NonNegativeInteger} {mode : Option PathMode}
      {slice : Ident} {tn tm tw : List TokenKind} {k : TokenKind} :
      Optionally NumberDerives number tn → Optionally ModeDerives mode tm → PathWords tw →
      GroupWord k →
      SearchDerives (.countedShortestGroup number mode)
        (.nonReserved .shortest slice :: tn ++ tm ++ tw ++ [k])

inductive PrefixDerives : PathPatternPrefix → List TokenKind → Prop where
  | pathMode {mode : PathMode} {ts : List TokenKind} :
      ModePrefixDerives mode ts → PrefixDerives (.pathMode mode) ts
  | pathSearch {search : PathSearchMode} {ts : List TokenKind} :
      SearchDerives search ts → PrefixDerives (.pathSearch search) ts

/-! ## Path patterns -/

/-- `pathVariableDeclaration` and `subpathVariableDeclaration`. -/
inductive DeclarationDerives : Ident → List TokenKind → Prop where
  | mk {name : Ident} {k : TokenKind} :
      regularName k = some name → DeclarationDerives name [k, .equals]

/-- What a part of a path pattern expression may be read as. -/
inductive PathPhrase where
  | expr (e : PathPatternExpr)
  /-- Terms, each with the separator before it. -/
  | terms (sep : TokenKind) (es : List PathPatternExpr)
  | term (e : PathPatternExpr)
  | factors (es : List PathPatternExpr)
  | factor (e : PathPatternExpr)
  | primary (e : PathPatternExpr)

inductive PathDerives : PathPhrase → List TokenKind → Prop where
  -- pathPatternExpression
  | term {e : PathPatternExpr} {ts : List TokenKind} :
      PathDerives (.term e) ts → PathDerives (.expr e) ts
  | alternation {e : PathPatternExpr} {es : List PathPatternExpr} {te ts : List TokenKind} :
      PathDerives (.term e) te → es ≠ [] → PathDerives (.terms .alternation es) ts →
      PathDerives (.expr (.alternation (e :: es))) (te ++ ts)
  | union {e : PathPatternExpr} {es : List PathPatternExpr} {te ts : List TokenKind} :
      PathDerives (.term e) te → es ≠ [] → PathDerives (.terms .verticalBar es) ts →
      PathDerives (.expr (.union (e :: es))) (te ++ ts)
  | termsNil {sep : TokenKind} : PathDerives (.terms sep []) []
  | termsMore {sep : TokenKind} {e : PathPatternExpr} {es : List PathPatternExpr}
      {te ts : List TokenKind} :
      PathDerives (.term e) te → PathDerives (.terms sep es) ts →
      PathDerives (.terms sep (e :: es)) (sep :: te ++ ts)
  -- pathTerm
  | concat {e : PathPatternExpr} {es : List PathPatternExpr} {te ts : List TokenKind} :
      PathDerives (.factor e) te → PathDerives (.factors es) ts →
      PathDerives (.term (.concat (e :: es))) (te ++ ts)
  | factorsNil : PathDerives (.factors []) []
  | factorsMore {e : PathPatternExpr} {es : List PathPatternExpr} {te ts : List TokenKind} :
      PathDerives (.factor e) te → PathDerives (.factors es) ts →
      PathDerives (.factors (e :: es)) (te ++ ts)
  -- pathFactor
  | primary {e : PathPatternExpr} {ts : List TokenKind} :
      PathDerives (.primary e) ts → PathDerives (.factor e) ts
  | quantified {e : PathPatternExpr} {quantifier : PatternQuantifier} {ts : List TokenKind} :
      PathDerives (.primary e) ts →
      PathDerives (.factor (.quantified e quantifier)) (ts ++ quantifier.tokens)
  | optional {e : PathPatternExpr} {ts : List TokenKind} :
      PathDerives (.primary e) ts → PathDerives (.factor (.optional e)) (ts ++ [.questionMark])
  -- pathPrimary
  | pattern {element : ElementPattern} {ts : List TokenKind} :
      ElementDerives element ts → PathDerives (.primary (.pattern element)) ts
  | grouped {name : Option Ident} {mode : Option PathMode} {e : PathPatternExpr}
      {condition : Option Expr} {tn tm te tw : List TokenKind} :
      Optionally DeclarationDerives name tn → Optionally ModePrefixDerives mode tm →
      PathDerives (.expr e) te → Optionally WhereDerives condition tw →
      PathDerives (.primary (.grouped name mode e condition))
        (.leftParen :: tn ++ tm ++ te ++ tw ++ [.rightParen])

inductive PathPatternDerives : PathPattern → List TokenKind → Prop where
  | mk {name : Option Ident} {searchPrefix : Option PathPatternPrefix} {e : PathPatternExpr}
      {tn tp te : List TokenKind} :
      Optionally DeclarationDerives name tn → Optionally PrefixDerives searchPrefix tp →
      PathDerives (.expr e) te →
      PathPatternDerives ⟨name, searchPrefix, e⟩ (tn ++ tp ++ te)

/-! ## Graph patterns -/

/-- `BINDINGS`, where it may be left out. -/
inductive BindingsWord : List TokenKind → Prop where
  | absent : BindingsWord []
  | present {slice : Ident} : BindingsWord [.nonReserved .bindings slice]

/-- The words of a match mode: before the number of things is said, the words for one of them,
the words for many. -/
def MatchMode.words : MatchMode → NonReservedWord × List NonReservedWord × List NonReservedWord
  | .repeatable => (.repeatable, [.element], [.elements])
  | .different => (.different, [.edge, .relationship], [.edges, .relationships])

inductive MatchModeDerives : MatchMode → List TokenKind → Prop where
  | one {mode : MatchMode} {word : NonReservedWord} {s s' : Ident} {ts : List TokenKind} :
      word ∈ mode.words.2.1 → BindingsWord ts →
      MatchModeDerives mode (.nonReserved mode.words.1 s :: .nonReserved word s' :: ts)
  | many {mode : MatchMode} {word : NonReservedWord} {s s' : Ident} :
      word ∈ mode.words.2.2 →
      MatchModeDerives mode [.nonReserved mode.words.1 s, .nonReserved word s']

/-- Path patterns after the first, each with the comma before it. -/
inductive MorePatternsDerive : List PathPattern → List TokenKind → Prop where
  | nil : MorePatternsDerive [] []
  | cons {p : PathPattern} {ps : List PathPattern} {tp ts : List TokenKind} :
      PathPatternDerives p tp → MorePatternsDerive ps ts →
      MorePatternsDerive (p :: ps) (.comma :: tp ++ ts)

inductive KeepDerives : PathPatternPrefix → List TokenKind → Prop where
  | mk {searchPrefix : PathPatternPrefix} {slice : Ident} {ts : List TokenKind} :
      PrefixDerives searchPrefix ts → KeepDerives searchPrefix (.nonReserved .keep slice :: ts)

/-- The token sequences that write a graph pattern. -/
inductive GraphDerives : GraphPattern → List TokenKind → Prop where
  | mk {mode : Option MatchMode} {p : PathPattern} {ps : List PathPattern}
      {keep : Option PathPatternPrefix} {condition : Option Expr}
      {tm tp ts tk tw : List TokenKind} :
      Optionally MatchModeDerives mode tm → PathPatternDerives p tp →
      MorePatternsDerive ps ts → Optionally KeepDerives keep tk →
      Optionally WhereDerives condition tw →
      GraphDerives ⟨mode, p :: ps, keep, condition⟩ (tm ++ tp ++ ts ++ tk ++ tw)

/-! ## The constructs the parsers read -/

/-- Every value expression of an element pattern is supported. -/
def ElementPatternPredicate.supported : ElementPatternPredicate → Bool
  | .where condition => condition.supported
  | .property fields => fields.all fun f => f.2.supported

def ElementPatternFiller.supported (filler : ElementPatternFiller) : Bool :=
  filler.predicate.all ElementPatternPredicate.supported

def ElementPattern.supported : ElementPattern → Bool
  | .node filler => filler.supported
  | .edge _ filler => filler.supported

mutual

def PathPatternExpr.supported : PathPatternExpr → Bool
  | .union paths => allPathsSupported paths
  | .alternation paths => allPathsSupported paths
  | .concat paths => allPathsSupported paths
  | .quantified path _ => path.supported
  | .optional path => path.supported
  | .grouped _ _ expr condition => expr.supported && condition.all Expr.supported
  | .pattern element => element.supported

def allPathsSupported : List PathPatternExpr → Bool
  | [] => true
  | path :: paths => path.supported && allPathsSupported paths

end

/-- Not `ANY`, with or without a number or a mode. -/
def PathPatternPrefix.supported : PathPatternPrefix → Bool
  | .pathSearch (.any _ _) => false
  | _ => true

def PathPattern.supported (p : PathPattern) : Bool :=
  p.searchPrefix.all PathPatternPrefix.supported && p.expr.supported

/-- No path search is `ANY`, and every value expression is supported. -/
def GraphPattern.supported (g : GraphPattern) : Bool :=
  g.patterns.all PathPattern.supported && g.keep.all PathPatternPrefix.supported &&
    g.whereClause.all Expr.supported

/-- A match mode for one thing is written without `BINDINGS`, and the path variable after it is
written with that word. -/
def bindingsIsVariable : List TokenKind → Bool
  | .nonReserved .repeatable _ :: .nonReserved .element _ :: .nonReserved .bindings _ ::
      .equals :: _ => true
  | .nonReserved .different _ :: .nonReserved .edge _ :: .nonReserved .bindings _ ::
      .equals :: _ => true
  | .nonReserved .different _ :: .nonReserved .relationship _ :: .nonReserved .bindings _ ::
      .equals :: _ => true
  | _ => false

end MiniGU.Parsing
