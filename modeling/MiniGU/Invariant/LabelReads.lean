import MiniGU.Model.LabelParser
import MiniGU.Invariant.ValueTaken

/-!
# What the parser does with a written label expression

The label expressions of the grammar are read back, whatever follows that does not go on with
them, and the tokens that were taken are those of the tree returned.

## Results

* `labelExpressionN_of_derives`: a written label expression is returned.
* `takes_labelExpression`: the parser takes the tokens of the tree it returns.
-/

namespace MiniGU.Parsing

/-- The operator table at a bound. -/
def labelTableAt (n : Nat) : PrattConfig TokenKind LabelExpr Unit Empty InfixLabelOp :=
  labelExpressionTable (labelExpressionPrimary (labelExpressionN n))

theorem labelExpressionN_succ (n : Nat) (ts : List TokenKind) :
    labelExpressionN (n + 1) ts =
      precedenceImpl (labelTableAt n) (ts.length + 1) PREC_INIT ts := rfl

/-- The binding power of a token that may stand between two label expressions. -/
def labelPower : TokenKind → Option Int
  | .ampersand => some PREC_CONJUNCTION
  | .verticalBar => some PREC_DISJUNCTION
  | _ => none

/-- The tokens go on with no operator that binds more tightly than `p`. -/
def LabelFollows (p : Int) (ts : List TokenKind) : Prop :=
  ∀ t ∈ ts.head?, ∀ q ∈ labelPower t, q ≤ p

theorem labelInfix_cases (t : TokenKind) (ts : List TokenKind) :
    (∃ q op, labelPower t = some q ∧ labelExpressionInfix (t :: ts) = .ok (.left, q, op) ts) ∨
      labelExpressionInfix (t :: ts) = .backtrack := by
  rw [labelExpressionInfix, bind_apply, any_cons, andThen_ok]
  split
  · exact .inl ⟨_, _, rfl, rfl⟩
  · exact .inl ⟨_, _, rfl, rfl⟩
  · exact .inr rfl

theorem labelStopsAt {operand : TokenParser LabelExpr} {m : Int} {ts : List TokenKind}
    (h : ∀ t ∈ ts.head?, ∀ q ∈ labelPower t, q < m) :
    StopsAt (labelExpressionTable operand) m ts := by
  cases ts with
  | nil => exact .done
  | cons t ts =>
    have hHead := h t rfl
    obtain ⟨q, op, hPower, hInfix⟩ | hInfix := labelInfix_cases t ts
    · exact .infixOp rfl hInfix (hHead q hPower)
    · exact .none rfl hInfix

/-- What the parser does up to its loop, on the tokens of a label expression of power `p`. -/
def LabelReads (p : Int) (e : LabelExpr) (ts : List TokenKind) : Prop :=
  ∀ n k m rest, (ts ++ rest).length ≤ n → (ts ++ rest).length < k → m ≤ p →
    LabelFollows p rest → LoopsTo (labelTableAt n) k m (ts ++ rest) e rest

theorem labelExpressionN_of_reads {p : Int} {e : LabelExpr} {ts rest : List TokenKind} {n : Nat}
    (h : LabelReads p e ts) (hp : 0 ≤ p) (hBound : (ts ++ rest).length < n)
    (hEnds : ∀ t ∈ rest.head?, labelPower t = none) :
    labelExpressionN n (ts ++ rest) = .ok e rest := by
  obtain ⟨n, rfl⟩ : ∃ n', n = n' + 1 := ⟨n - 1, by omega⟩
  have hNone : ∀ t ∈ rest.head?, ∀ q ∈ labelPower t, False := by
    intro t ht q hq
    rw [hEnds t ht] at hq
    cases hq
  rw [labelExpressionN_succ]
  exact (h n _ PREC_INIT rest (by omega) (Nat.lt_succ_self _) hp
    fun t ht q hq => (hNone t ht q hq).elim).finish
      (labelStopsAt fun t ht q hq => (hNone t ht q hq).elim)

theorem labelName_reads {n : Nat} {k : TokenKind} {name : Ident} {ts : List TokenKind}
    (h : identifierName k = some name) :
    labelExpressionPrimary (labelExpressionN n) (k :: ts) = .ok (.label name) ts := by
  unfold identifierName at h
  split at h
  case h_1 => cases h; rfl
  case h_2 => cases h; rfl
  case h_5 => cases h
  all_goals
    show (cutNone _ ts : Reply TokenKind Ident).andThen _ = _
    rw [h]
    rfl

/-- **Every derivation of the label grammar is read back**, up to the loop over what follows. -/
theorem labelReads_of_derives {p : Int} {e : LabelExpr} {ts : List TokenKind}
    (h : LabelDerives True p e ts) : LabelReads p e ts := by
  induction h with
  | label hName =>
    intro n k m rest _ hk _ _
    exact .operand (labelName_reads hName) (Nat.lt_succ_self _) hk
  | wildcard =>
    intro n k m rest _ hk _ _
    exact .operand rfl (Nat.lt_succ_self _) hk
  | @paren _ e ts _ ih =>
    intro n k m rest hn hk _ _
    simp only [List.cons_append, List.append_assoc, List.nil_append] at hn hk ⊢
    refine .operand ?_ ?_ hk
    · have hInner : labelExpressionN n (ts ++ .rightParen :: rest) =
          .ok e (.rightParen :: rest) := by
        rw [List.length_cons] at hn
        exact labelExpressionN_of_reads ih (Int.le_refl 0) (by omega) fun t ht => by
          cases ht
          rfl
      have hDispatch : ∀ us, (labelTableAt n).parseOperand (.leftParen :: us) =
          (do
            expect .leftParen
            let e ← labelExpressionN n
            expect .rightParen
            pure e : TokenParser LabelExpr) (.leftParen :: us) := fun _ => rfl
      rw [hDispatch, bind_apply, expect_self, andThen_ok, bind_apply, hInner, andThen_ok,
        bind_apply, expect_self]
      rfl
    · simp only [List.length_cons, List.length_append]
      omega
  | @negation _ e ts hp _ ih =>
    intro n k m rest hn hk hm hFollows
    have hShorter : (ts ++ rest).length < (TokenKind.exclamation :: (ts ++ rest)).length := by
      rw [List.length_cons]
      omega
    have hRest : rest.length ≤ (ts ++ rest).length := by
      rw [List.length_append]
      omega
    have hNone : (labelTableAt n).parseOperand (.exclamation :: (ts ++ rest)) = .backtrack := rfl
    have hOp : (labelTableAt n).parsePrefix (.exclamation :: (ts ++ rest)) =
        .ok (PREC_NEGATION, ()) (ts ++ rest) := rfl
    have hUnder : LabelFollows PREC_NEGATION rest := fun t ht q hq =>
      Int.le_trans (hFollows t ht q hq) (hp trivial)
    have hOperand := fun k' (hk' : (ts ++ rest).length < k') => ih n k' PREC_NEGATION rest
      (Nat.le_trans (Nat.le_of_lt hShorter) hn) hk' (Int.le_refl _) hUnder
    -- both infix operators bind less than the negation
    have hStop : StopsAt (labelTableAt n) PREC_NEGATION rest :=
      labelStopsAt fun t _ q hq => by
        unfold labelPower at hq
        split at hq <;> cases hq <;> decide
    exact LoopsTo.prefixOp hNone hOp hShorter hRest hk hOperand hStop
  | @infixOp _ op l r tl tr hp _ _ ihl ihr =>
    intro n k m rest hn hk hm hFollows
    rw [List.append_assoc, List.cons_append] at hn hk ⊢
    have hLeft := ihl n k m (op.token :: (tr ++ rest)) hn hk (Int.le_trans hm (hp trivial))
      fun t ht q hq => by
        cases ht
        cases op <;> cases hq <;> exact Int.le_refl _
    have hInfix : (labelTableAt n).parseInfix (op.token :: (tr ++ rest)) =
        .ok (.left, op.power, op) (tr ++ rest) := by
      cases op <;> rfl
    have hRest : rest.length ≤ (tr ++ rest).length := by
      rw [List.length_append]
      omega
    have hAfter : ∀ t ∈ rest.head?, ∀ q ∈ labelPower t, q ≤ op.power := fun t ht q hq =>
      Int.le_trans (hFollows t ht q hq) (hp trivial)
    have hPowers : (Assoc.left.powers op.power).2 = op.power + 1 := by cases op <;> rfl
    have hRight : ∀ k', (tr ++ rest).length < k' →
        LoopsTo (labelTableAt n) k' (Assoc.left.powers op.power).2 (tr ++ rest) r rest := by
      intro k' hk'
      rw [hPowers]
      refine ihr n k' (op.power + 1) rest ?_ hk' (Int.le_refl _) fun t ht q hq => ?_
      · simp only [List.length_append, List.length_cons] at hn ⊢
        omega
      · have hLe := hAfter t ht q hq
        omega
    have hStop : StopsAt (labelTableAt n) (Assoc.left.powers op.power).2 rest := by
      rw [hPowers]
      refine labelStopsAt fun t ht q hq => ?_
      have hLe := hAfter t ht q hq
      omega
    have hRun := hLeft.infixOp rfl hInfix (Nat.lt_succ_self _) hRest
      (Int.le_trans hm (hp trivial)) hRight hStop
    cases op <;> exact hRun

theorem labelExpressionN_of_derives {p : Int} {e : LabelExpr} {ts rest : List TokenKind}
    {n : Nat} (h : LabelDerives True p e ts) (hp : 0 ≤ p) (hBound : (ts ++ rest).length < n)
    (hEnds : ∀ t ∈ rest.head?, labelPower t = none) :
    labelExpressionN n (ts ++ rest) = .ok e rest :=
  labelExpressionN_of_reads (labelReads_of_derives h) hp hBound hEnds

theorem labelExpression_of_derives {p : Int} {e : LabelExpr} {ts rest : List TokenKind}
    (h : LabelDerives True p e ts) (hp : 0 ≤ p)
    (hEnds : ∀ t ∈ rest.head?, labelPower t = none) :
    labelExpression (ts ++ rest) = .ok e rest :=
  labelExpressionN_of_derives h hp (Nat.lt_succ_self _) hEnds

/-! ## The tokens taken -/

/-- A label expression is written at every power: no level is asked for. -/
def WrittenLabel (e : LabelExpr) (us : List TokenKind) : Prop :=
  ∀ p, LabelDerives False p e us

theorem takes_labelPrimary {p : TokenParser LabelExpr} (h : Takes p WrittenLabel) :
    Takes (labelExpressionPrimary p) WrittenLabel := by
  refine takes_peekAny fun t => ?_
  split
  · refine takes_expectThen ?_
    refine takes_bind h fun e us hE => ?_
    refine takes_expectThen ?_
    exact takes_pure fun p => .paren (hE 0)
  · refine takes_expectThen ?_
    exact takes_pure fun p => .wildcard
  · refine takes_bind takes_identifier fun name us hName => ?_
    obtain ⟨k, rfl, hk⟩ := hName
    exact takes_pure fun p => .label hk

theorem labelTable_readsInOrder {operand : TokenParser LabelExpr}
    (h : Takes operand WrittenLabel) :
    ReadsInOrder (labelExpressionTable operand) WrittenLabel where
  operand := h
  prefixOp := by
    refine takes_expectThen ?_
    exact takes_pure fun a vs hA p => .negation nofun (hA _)
  suffixOp := takes_fail
  infixOp := by
    have hOp : ∀ (op : InfixLabelOp) a b vs ws, WrittenLabel a vs → WrittenLabel b ws →
        WrittenLabel (op.apply a b) (vs ++ [op.token] ++ ws) := by
      intro op a b vs ws hA hB p
      rw [List.append_assoc]
      exact .infixOp nofun (hA _) (hB _)
    refine takes_bind takes_any fun t us hUs => ?_
    subst hUs
    split
    · exact takes_pure (hOp .conjunction)
    · exact takes_pure (hOp .disjunction)
    · exact takes_fail

theorem takes_labelExpressionN (n : Nat) : Takes (labelExpressionN n) WrittenLabel := by
  induction n with
  | zero => exact fun _ _ _ h => (nomatch h)
  | succ n ih => exact takes_precedence (labelTable_readsInOrder (takes_labelPrimary ih)) _

theorem takes_labelExpression : Takes labelExpression WrittenLabel :=
  fun ts => takes_labelExpressionN _ ts

end MiniGU.Parsing
