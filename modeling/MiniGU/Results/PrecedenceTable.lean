import MiniGU.Lib.OperatorTable

/-!
# Precedence tables

The parser reads an operator's right operand with the minimum power shifted by one, in the 64 bits
of a power, and remembers in one variable the operator that may not be chained.
-/

namespace MiniGU.Parsing

variable {τ : Type} {table : OperatorTable τ}

namespace OperatorTable

/-- The parser returns the tree that the table prescribes for the longest prefix that has one,
there is no other tree for it, and a whole expression is read to its end. -/
structure Honours (table : OperatorTable τ) (minPower : Int) (ts : List τ) : Prop where
  longest : ∀ x rest, precedence table.config minPower ts = .ok x rest →
    ts = x.tokens ++ rest ∧ table.Prescribes minPower x ∧
      ∀ y, table.Prescribes minPower y → y.tokens <+: ts →
        y = x ∨ y.tokens.length < x.tokens.length
  whole : ∀ x, table.Prescribes minPower x → ts = x.tokens →
    precedence table.config minPower ts = .ok x []

theorem honours_of_apart (hApart : table.Apart) (m : Int) (ts : List τ) : table.Honours m ts where
  longest x rest h := by
    obtain ⟨hTokens, hx⟩ := precedence_sound hApart h
    exact ⟨hTokens, hx.prescribed, fun y hy hPrefix => precedence_longest hApart h hy hPrefix⟩
  whole x hx h := by
    have hWhole := precedence_complete hApart (Returned.whole hx)
    rwa [List.append_nil, ← h] at hWhole

-- ----
-- Tables without operands
-- ----

theorem operand_of_fits : ∀ {x : TokenTree τ}, table.Fits x → ∃ o, table.start o = some .operand
  | .operand t, h => ⟨t, h⟩
  | .prefixOp _ _, h => operand_of_fits h.2.1
  | .suffixOp _ _, h => operand_of_fits h.2.1
  | .infixOp _ _ _, h => operand_of_fits h.2.1

theorem operand_of_impl_ok : ∀ {n : Nat} {m : Int} {ts : List τ} {x : TokenTree τ} {rest : List τ},
    precedenceImpl table.config n m ts = .ok x rest → ∃ o, table.start o = some .operand
  | n + 1, m, ts, x, rest, h => by
    obtain ⟨t, us, rfl, ⟨hOperand, _⟩ | ⟨p, z, mid, _, hInner, _⟩⟩ := impl_ok h
    · exact ⟨t, hOperand⟩
    · exact operand_of_impl_ok hInner

theorem honours_of_no_operand (h : ¬∃ o, table.start o = some .operand) (m : Int) (ts : List τ) :
    table.Honours m ts where
  longest _ _ hOk := absurd (operand_of_impl_ok hOk) h
  whole _ hx _ := absurd (operand_of_fits hx.1) h

-- ----
-- Tables whose levels meet
-- ----

section Meet

variable {o t u e w : τ} {p q : Int} {assoc : Assoc} {role : NextRole}

theorem loop_nil (n : Nat) (m : Int) (prev : Option Int) (x : TokenTree τ) :
    precedenceLoop table.config n m prev x [] = .ok x [] := by
  rw [precedenceLoop]

theorem impl_single (hOperand : table.start o = some .operand) (n : Nat) (m : Int) :
    precedenceImpl table.config (n + 1) m [o] = .ok (.operand o) [] := by
  rw [impl_operand hOperand, loop_nil]

/-- The right operand of an operator that associates to the right takes the operator one level
below it. -/
theorem absorbs (hOperand : table.start o = some .operand)
    (hRight : table.next t = some (.infixOp .right p)) (hRole : table.next u = some role)
    (hBelow : role.power = p - 1) :
    ∃ ts y, precedence table.config (p - 1) ts = .ok (.infixOp (.operand o) (t, .right, p) y) [] ∧
      p - 1 ∈ y.leftPowers := by
  have hBound : (Assoc.right.powers p).2 = p - 1 := by
    obtain ⟨hLow, -⟩ := table.next_range u role hRole
    refine Assoc.powers_snd (table.next_range t _ hRight) fun hEdge => ?_
    change p = -2 ^ 63 at hEdge
    omega
  cases role with
  | suffixOp r =>
    change r = p - 1 at hBelow
    have hInner : precedenceImpl table.config 3 (Assoc.right.powers p).2 [o, u] =
        .ok (.suffixOp (.operand o) (u, r)) [] := by
      rw [hBound, impl_operand hOperand]
      exact (loop_suffixOp hRole (by omega)).trans (loop_nil ..)
    refine ⟨[o, t, o, u], .suffixOp (.operand o) (u, r), ?_, List.mem_cons.mpr (.inl hBelow.symm)⟩
    show precedenceImpl table.config 5 (p - 1) [o, t, o, u] = _
    rw [impl_operand hOperand]
    exact (loop_infixOp hRight (by omega) (by simp) hInner).trans (loop_nil ..)
  | infixOp a r =>
    change r = p - 1 at hBelow
    have hInner : precedenceImpl table.config 4 (Assoc.right.powers p).2 [o, u, o] =
        .ok (.infixOp (.operand o) (u, a, r) (.operand o)) [] := by
      rw [hBound, impl_operand hOperand]
      exact (loop_infixOp hRole (by omega) (by simp) (impl_single hOperand 1 _)).trans (loop_nil ..)
    refine ⟨[o, t, o, u, o], .infixOp (.operand o) (u, a, r) (.operand o), ?_,
      List.mem_cons.mpr (.inl hBelow.symm)⟩
    show precedenceImpl table.config 6 (p - 1) [o, t, o, u, o] = _
    rw [impl_operand hOperand]
    exact (loop_infixOp hRight (by omega) (by simp) hInner).trans (loop_nil ..)

/-- Up to the power of an operator that does not associate, one such operator is read, and the
next is left. -/
theorem impl_once (hOperand : table.start o = some .operand)
    (hNeither : table.next e = some (.infixOp .neither q)) (hEdge : q ≠ Assoc.neither.edge)
    {m : Int} (hm : m ≤ q) (n : Nat) :
    precedenceImpl table.config (n + 6) m [o, e, o, e, o] =
      .ok (.infixOp (.operand o) (e, .neither, q) (.operand o)) [e, o] := by
  have hBound : (Assoc.neither.powers q).2 = q + 1 :=
    Assoc.powers_snd (table.next_range e _ hNeither) hEdge
  have hInner : precedenceImpl table.config (n + 4) (Assoc.neither.powers q).2 [o, e, o] =
      .ok (.operand o) [e, o] := by
    rw [hBound, impl_operand hOperand]
    refine loop_stops (fun role hRole => .inl ?_) (by simp)
    cases hNeither.symm.trans hRole
    exact Int.lt_succ q
  rw [impl_operand hOperand]
  refine (loop_infixOp hNeither hm (by simp) hInner).trans ?_
  refine loop_stops (fun role hRole => .inr ⟨.neither, q, ?_, rfl⟩) (by simp)
  exact Option.some.inj (hRole.symm.trans hNeither)

/-- The operator that was left is then taken over the operand that it followed. -/
theorem takes_left (hOperand : table.start o = some .operand)
    (hNeither : table.next e = some (.infixOp .neither q)) {m : Int} (hm : m ≤ q) {n : Nat}
    {prev : Option Int} (hPrev : prev ≠ some q) (x : TokenTree τ) :
    precedenceLoop table.config (n + 2) m prev x [e, o] =
      .ok (.infixOp x (e, .neither, q) (.operand o)) [] :=
  (loop_infixOp hNeither hm hPrev (impl_single hOperand n _)).trans (loop_nil ..)

/-- An operator that is left inside a right operand is taken over the whole of the operation. -/
theorem chains_infixOp (hOperand : table.start o = some .operand)
    (hEdge : ∀ t assoc p, table.next t = some (.infixOp assoc p) → p ≠ assoc.edge)
    (hNeither : table.next e = some (.infixOp .neither q))
    (hInfix : table.next w = some (.infixOp assoc p)) (hBound : assoc.bound p ≤ q) :
    ∃ ts x y, precedence table.config (min p q) ts =
      .ok (.infixOp (.infixOp x (w, assoc, p) y) (e, .neither, q) (.operand o)) [] := by
  have hRange : IsPrecedence p := table.next_range w _ hInfix
  have hPower : (assoc.powers p).2 ≤ q := by
    rw [Assoc.powers_snd hRange (hEdge w assoc p hInfix)]
    cases assoc with
    | left => exact hBound
    | neither => exact hBound
    | right =>
      change p ≤ q at hBound
      show p - 1 ≤ q
      omega
  have hSingle : assoc.single p ≠ some q := by
    cases assoc with
    | left => exact fun h => (nomatch h)
    | right => exact fun h => (nomatch h)
    | neither =>
      change p + 1 ≤ q at hBound
      intro h
      cases h
      omega
  refine ⟨[o, w, o, e, o, e, o], .operand o,
    .infixOp (.operand o) (e, .neither, q) (.operand o), ?_⟩
  show precedenceImpl table.config 8 (min p q) [o, w, o, e, o, e, o] = _
  have hOnce := impl_once hOperand hNeither (hEdge e _ q hNeither) hPower 0
  rw [impl_operand hOperand]
  refine (loop_infixOp hInfix (by omega) (by simp) hOnce).trans ?_
  exact takes_left hOperand hNeither (by omega) hSingle _

theorem chains_prefixOp (hOperand : table.start o = some .operand)
    (hNeither : table.next e = some (.infixOp .neither q)) (hEdge : q ≠ Assoc.neither.edge)
    (hPrefix : table.start w = some (.prefixOp p)) (hLe : p ≤ q) :
    ∃ ts x, precedence table.config q ts =
      .ok (.infixOp (.prefixOp (w, p) x) (e, .neither, q) (.operand o)) [] := by
  refine ⟨[w, o, e, o, e, o], .infixOp (.operand o) (e, .neither, q) (.operand o), ?_⟩
  show precedenceImpl table.config 7 q [w, o, e, o, e, o] = _
  rw [impl_prefixOp hPrefix (impl_once hOperand hNeither hEdge hLe 0)]
  exact takes_left hOperand hNeither (Int.le_refl q) (by simp) _

/-- Where the shift leaves the range, the operator is read the other way round: one that takes its
left operand first gives the second of two to its right operand, and one that takes its right
operand first leaves it. -/
theorem wraps (hOperand : table.start o = some .operand)
    (hInfix : table.next t = some (.infixOp assoc assoc.edge)) :
    ∃ x, precedence table.config assoc.edge [o, t, o, t, o] = .ok x [] ∧ ¬table.Fits x := by
  have hOnce {m : Int} (n : Nat) (hm : m ≤ assoc.edge) :
      precedenceImpl table.config (n + 3) m [o, t, o] =
        .ok (.infixOp (.operand o) (t, assoc, assoc.edge) (.operand o)) [] := by
    rw [impl_operand hOperand]
    exact (loop_infixOp hInfix hm (by simp) (impl_single hOperand n _)).trans (loop_nil ..)
  have hNested (hWrap : (assoc.powers assoc.edge).2 ≤ assoc.edge) :
      precedence table.config assoc.edge [o, t, o, t, o] =
        .ok (.infixOp (.operand o) (t, assoc, assoc.edge)
          (.infixOp (.operand o) (t, assoc, assoc.edge) (.operand o))) [] := by
    show precedenceImpl table.config 6 assoc.edge [o, t, o, t, o] = _
    rw [impl_operand hOperand]
    exact (loop_infixOp hInfix (Int.le_refl _) (by simp) (hOnce 1 hWrap)).trans (loop_nil ..)
  cases assoc with
  | left =>
    refine ⟨_, hNested (by decide), fun hFits => ?_⟩
    have hLe : Assoc.left.edge + 1 ≤ Assoc.left.edge := hFits.2.2.2.2.2 _ (List.mem_cons_self ..)
    omega
  | neither =>
    refine ⟨_, hNested (by decide), fun hFits => ?_⟩
    have hLe : Assoc.neither.edge + 1 ≤ Assoc.neither.edge :=
      hFits.2.2.2.2.2 _ (List.mem_cons_self ..)
    omega
  | right =>
    have hWrap : Assoc.right.edge < (Assoc.right.powers Assoc.right.edge).2 := by decide
    have hInner : precedenceImpl table.config 4 (Assoc.right.powers Assoc.right.edge).2
        [o, t, o] = .ok (.operand o) [t, o] := by
      rw [impl_operand hOperand]
      refine loop_stops (fun role hRole => .inl ?_) (by simp)
      cases hInfix.symm.trans hRole
      exact hWrap
    have hSingle : Assoc.right.single Assoc.right.edge ≠ some Assoc.right.edge :=
      fun hEq => (nomatch hEq)
    have hRun : precedence table.config Assoc.right.edge [o, t, o, t, o] =
        .ok (.infixOp (.infixOp (.operand o) (t, .right, Assoc.right.edge) (.operand o))
          (t, .right, Assoc.right.edge) (.operand o)) [] := by
      show precedenceImpl table.config 6 _ _ = _
      rw [impl_operand hOperand]
      refine (loop_infixOp hInfix (Int.le_refl _) (by simp) hInner).trans ?_
      exact (loop_infixOp hInfix (Int.le_refl _) hSingle (impl_single hOperand 2 _)).trans
        (loop_nil ..)
    refine ⟨_, hRun, fun hFits => ?_⟩
    have hLess : Assoc.right.edge < Assoc.right.edge := hFits.2.2.2.1 _ (List.mem_cons_self ..)
    omega

theorem edge_of_honours (hOperand : table.start o = some .operand)
    (h : ∀ m ts, IsPrecedence m → table.Honours m ts) (t : τ) (assoc : Assoc) (p : Int)
    (hInfix : table.next t = some (.infixOp assoc p)) : p ≠ assoc.edge := by
  rintro rfl
  obtain ⟨x, hRun, hNot⟩ := wraps hOperand hInfix
  obtain ⟨-, hx, -⟩ := (h _ _ (table.next_range t _ hInfix)).longest _ _ hRun
  exact hNot hx.1

theorem apart_of_honours (hOperand : table.start o = some .operand)
    (h : ∀ m ts, IsPrecedence m → table.Honours m ts) : table.Apart where
  edge := edge_of_honours hOperand h
  right t p hRight u role hRole hBelow := by
    obtain ⟨ts, y, hRun, hMem⟩ := absorbs hOperand hRight hRole hBelow
    obtain ⟨-, hx, -⟩ := (h _ ts (hBelow ▸ table.next_range u role hRole)).longest _ _ hRun
    have hLe : p ≤ p - 1 := hx.1.2.2.2.2.2 _ hMem
    omega
  infixOp e q hNeither w assoc p hInfix := by
    by_contra hBound
    obtain ⟨ts, x, y, hRun⟩ := chains_infixOp hOperand (edge_of_honours hOperand h) hNeither
      hInfix (Int.not_lt.mp hBound)
    obtain ⟨hLow, hHigh⟩ := table.next_range w _ hInfix
    obtain ⟨hLow', hHigh'⟩ := table.next_range e _ hNeither
    have hRange : IsPrecedence (min p q) := ⟨Int.le_min.mpr ⟨hLow, hLow'⟩,
      Int.lt_of_le_of_lt (Int.min_le_left p q) hHigh⟩
    obtain ⟨-, hx, -⟩ := (h _ ts hRange).longest _ _ hRun
    exact hBound (hx.1.2.2.2.1 _ (List.mem_cons_self ..))
  prefixOp e q hNeither w p hPrefix := by
    by_contra hLess
    obtain ⟨ts, x, hRun⟩ := chains_prefixOp hOperand hNeither
      (edge_of_honours hOperand h e _ q hNeither) hPrefix (Int.not_lt.mp hLess)
    obtain ⟨-, hx, -⟩ := (h q ts (table.next_range e _ hNeither)).longest _ _ hRun
    exact hLess (hx.1.2.2.2.1 _ (List.mem_cons_self ..))

end Meet

/-- **A table is honoured exactly when its levels are apart.** -/
theorem honoured_iff_apart :
    (∀ m ts, IsPrecedence m → table.Honours m ts) ↔
      ((∃ o, table.start o = some .operand) → table.Apart) := by
  constructor
  · rintro h ⟨o, hOperand⟩
    exact apart_of_honours hOperand h
  · intro h m ts _
    by_cases hOperand : ∃ o, table.start o = some .operand
    · exact honours_of_apart (h hOperand) m ts
    · exact honours_of_no_operand hOperand m ts

end OperatorTable

-- ----
-- Two tables
-- ----

inductive CalcToken where
  | number
  | plus
  | power
  | equals
deriving DecidableEq, Repr

/-- Sums, and powers one level above them that associate to the right. -/
def powerTable : OperatorTable CalcToken where
  start
    | .number => some .operand
    | _ => none
  next
    | .plus => some (.infixOp .left 0)
    | .power => some (.infixOp .right 1)
    | _ => none
  start_range t p h := by cases t <;> cases h
  next_range t role h := by cases t <;> cases h <;> decide

/-- Sums, and equations one level above them that do not associate. -/
def equalTable : OperatorTable CalcToken where
  start
    | .number => some .operand
    | _ => none
  next
    | .plus => some (.infixOp .left 0)
    | .equals => some (.infixOp .neither 1)
    | _ => none
  start_range t p h := by cases t <;> cases h
  next_range t role h := by cases t <;> cases h <;> decide

/-- The sum goes into the right operand of the power; the second equation is taken over the sum
that holds the first. -/
theorem absorbed_and_chained :
    (precedence powerTable.config 0 [.number, .power, .number, .plus, .number] =
        .ok (.infixOp (.operand .number) (.power, .right, 1)
          (.infixOp (.operand .number) (.plus, .left, 0) (.operand .number))) [] ∧
      ¬powerTable.Honours 0 [.number, .power, .number, .plus, .number]) ∧
    precedence equalTable.config 0 [.number, .plus, .number, .equals, .number, .equals, .number] =
        .ok (.infixOp (.infixOp (.operand .number) (.plus, .left, 0)
          (.infixOp (.operand .number) (.equals, .neither, 1) (.operand .number)))
          (.equals, .neither, 1) (.operand .number)) [] ∧
      ¬equalTable.Honours 0 [.number, .plus, .number, .equals, .number, .equals, .number] := by
  have hPower : precedence powerTable.config 0 [.number, .power, .number, .plus, .number] =
      .ok (.infixOp (.operand .number) (.power, .right, 1)
        (.infixOp (.operand .number) (.plus, .left, 0) (.operand .number))) [] := rfl
  have hEqual : precedence equalTable.config 0
      [.number, .plus, .number, .equals, .number, .equals, .number] =
      .ok (.infixOp (.infixOp (.operand .number) (.plus, .left, 0)
        (.infixOp (.operand .number) (.equals, .neither, 1) (.operand .number)))
        (.equals, .neither, 1) (.operand .number)) [] := rfl
  refine ⟨⟨hPower, fun h => ?_⟩, hEqual, fun h => ?_⟩
  · obtain ⟨-, hx, -⟩ := h.longest _ _ hPower
    have hLe : (1 : Int) ≤ 0 := hx.1.2.2.2.2.2 0 (List.mem_cons_self ..)
    omega
  · obtain ⟨-, hx, -⟩ := h.longest _ _ hEqual
    have hLess : (1 : Int) < 1 := hx.1.2.2.2.1 1 (List.mem_cons_self ..)
    omega

end MiniGU.Parsing
