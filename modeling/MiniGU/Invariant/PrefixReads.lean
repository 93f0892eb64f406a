import MiniGU.Invariant.ValueReads
import MiniGU.Model.PatternGrammar

/-!
# What the parser does with written prefixes and quantifiers

A path mode, a path search and a quantifier are told apart by their first words. Every search
is read back but `ANY`: its parser takes no word at all.
-/

namespace MiniGU.Parsing

variable {α : Type} {ts rest : List TokenKind}

/-! ## Quantifiers -/

theorem graphPatternQuantifier_reads (quantifier : PatternQuantifier) :
    graphPatternQuantifier (quantifier.tokens ++ rest) = .ok quantifier rest := by
  cases quantifier with
  | asterisk => rfl
  | plus => rfl
  | fixed n =>
    obtain ⟨kind, digits⟩ := n
    cases kind <;> rfl
  | general lower upper =>
    -- the third token says whether a number stands alone between the braces
    match lower, upper with
    | none, none => rfl
    | none, some (kind, _) => cases kind <;> rfl
    | some (kind, _), none => cases kind <;> rfl
    | some (kind, _), some (kind', _) => cases kind <;> cases kind' <;> rfl

/-! ## The words of a prefix -/

/-- Which part of a path search a token begins, after its first words: the number, the mode,
`PATH` or `PATHS`, `GROUP` or `GROUPS`, or what comes after them. -/
def prefixStage : TokenKind → Nat
  | .nonReserved .shortest _ => 0
  | .unsignedDecimalInteger _ | .unsignedOctalInteger _ | .unsignedHexInteger _
  | .unsignedBinaryInteger _ | .generalParameterReference _ => 1
  | .nonReserved .walk _ | .nonReserved .trail _ | .nonReserved .simple _
  | .nonReserved .acyclic _ => 2
  | .path | .paths => 3
  | .group | .nonReserved .groups _ => 4
  | _ => 5

theorem numberOfPaths_stops (h : HeadIn (fun k => 2 ≤ prefixStage k) ts) :
    numberOfPaths ts = .backtrack := by
  cases ts with
  | nil => rfl
  | cons k ts =>
    have hk : 2 ≤ prefixStage k := h k rfl
    have hInteger : k.isPrefixOfUnsignedInteger = false := by
      unfold TokenKind.isPrefixOfUnsignedInteger
      split <;> first | rfl | exact absurd hk (show ¬ 2 ≤ 1 by decide)
    rw [numberOfPaths, nonNegativeIntegerSpecification, peekAny_cons, hInteger,
      if_neg Bool.false_ne_true]
    split
    · exact absurd hk (show ¬ 2 ≤ 1 by decide)
    · rfl

theorem pathMode_stops (h : HeadIn (fun k => 3 ≤ prefixStage k) ts) :
    pathMode ts = .backtrack := by
  cases ts with
  | nil => rfl
  | cons k ts =>
    have hk : 3 ≤ prefixStage k := h k rfl
    rw [pathMode, bind_apply, any_cons, andThen_ok]
    split <;> first | rfl | exact absurd hk (show ¬ 3 ≤ 2 by decide)

theorem pathOrPaths_stops (h : HeadIn (fun k => 4 ≤ prefixStage k) ts) :
    pathOrPaths ts = .backtrack :=
  satisfy_of_head <| h.mono fun k hk => by
    split <;> first | rfl | exact absurd hk (by decide)

theorem groupOrGroups_stops (h : HeadIn (fun k => 5 ≤ prefixStage k) ts) :
    groupOrGroups ts = .backtrack :=
  satisfy_of_head <| h.mono fun k hk => by
    split <;> first | rfl | exact absurd hk (show ¬ 5 ≤ 4 by decide)

theorem number_head {n : NonNegativeInteger} (h : NumberDerives n ts) :
    HeadIn (fun k => 1 ≤ prefixStage k) ts := by
  cases h with
  | @integer n =>
    obtain ⟨kind, digits⟩ := n
    cases kind <;> exact headIn_cons.mpr (Nat.le_refl 1)
  | parameter _ => exact headIn_cons.mpr (Nat.le_refl 1)

theorem mode_head {mode : PathMode} (h : ModeDerives mode ts) :
    HeadIn (fun k => 2 ≤ prefixStage k) ts := by
  cases h
  cases mode <;> exact headIn_cons.mpr (Nat.le_refl 2)

theorem pathWords_head (h : PathWords ts) : HeadIn (fun k => 3 ≤ prefixStage k) ts := by
  cases h with
  | none => exact headIn_nil _
  | path => exact headIn_cons.mpr (Nat.le_refl 3)
  | paths => exact headIn_cons.mpr (Nat.le_refl 3)

theorem groupWord_stage {k : TokenKind} (h : GroupWord k) : prefixStage k = 4 := by
  cases h <;> rfl

theorem numberOfPaths_reads {n : NonNegativeInteger} (h : NumberDerives n ts) :
    numberOfPaths (ts ++ rest) = .ok n rest := by
  cases h with
  | @integer n =>
    obtain ⟨kind, digits⟩ := n
    cases kind <;> rfl
  | @parameter q name hName =>
    show ((cutNone q.unescape rest : Reply TokenKind Ident).andThen _ : Reply _ _) = _
    rw [hName]
    rfl

theorem pathMode_reads {mode : PathMode} (h : ModeDerives mode ts) :
    pathMode (ts ++ rest) = .ok mode rest := by
  cases h
  cases mode <;> rfl

theorem pathWords_read {q : TokenParser α} (h : PathWords ts)
    (hRest : HeadIn (fun k => 4 ≤ prefixStage k) rest) :
    (do let _ ← opt pathOrPaths; q : TokenParser α) (ts ++ rest) = q rest := by
  cases h with
  | none => rw [List.nil_append, bind_apply, opt_of_backtrack (pathOrPaths_stops hRest)]; rfl
  | path => rfl
  | paths => rfl

theorem modeTail_reads {mode : Option PathMode} {tm tw : List TokenKind}
    {q : Option PathMode → TokenParser α} (hMode : Optionally ModeDerives mode tm)
    (hWords : PathWords tw) (hRest : HeadIn (fun k => 4 ≤ prefixStage k) rest) :
    (do let m ← opt pathMode; let _ ← opt pathOrPaths; q m : TokenParser α)
      (tm ++ (tw ++ rest)) = q mode rest := by
  have hAfter : HeadIn (fun k => 3 ≤ prefixStage k) (tw ++ rest) :=
    (pathWords_head hWords).append (hRest.mono fun _ hk => Nat.le_of_succ_le hk)
  rw [bind_apply, opt_reads hMode (fun _ _ => pathMode_reads) (pathMode_stops hAfter),
    andThen_ok]
  exact pathWords_read hWords hRest

theorem modeTail_head {mode : Option PathMode} {tm tw : List TokenKind}
    (hMode : Optionally ModeDerives mode tm) (hWords : PathWords tw)
    (hRest : HeadIn (fun k => 4 ≤ prefixStage k) rest) :
    HeadIn (fun k => 2 ≤ prefixStage k) (tm ++ (tw ++ rest)) :=
  (hMode.headIn fun _ _ => mode_head).append <|
    ((pathWords_head hWords).mono fun _ hk => Nat.le_of_succ_le hk).append <|
      hRest.mono fun k (hk : 4 ≤ prefixStage k) => by omega

theorem number_reads {number : Option NonNegativeInteger} {tn us : List TokenKind}
    {q : Option NonNegativeInteger → TokenParser α} (h : Optionally NumberDerives number tn)
    (hRest : HeadIn (fun k => 2 ≤ prefixStage k) us) :
    (do let n ← opt numberOfPaths; q n : TokenParser α) (tn ++ us) = q number us := by
  rw [bind_apply, opt_reads h (fun _ _ => numberOfPaths_reads) (numberOfPaths_stops hRest)]
  rfl

/-! ## Path searches -/

theorem pathSearchPrefix_all (h : HeadIn (fun k => 1 ≤ prefixStage k) ts) :
    pathSearchPrefix (.all :: ts) = allPathSearch (.all :: ts) := by
  cases ts with
  | nil => rfl
  | cons k ts =>
    have hk : 1 ≤ prefixStage k := h k rfl
    cases k with
    | nonReserved word _ => cases word <;> first | rfl | (simp [prefixStage] at hk)
    | _ => rfl

/-- **`ANY` is not taken**: unless `SHORTEST` follows, the search is answered where it
began. -/
theorem pathSearchPrefix_any (h : HeadIn (fun k => 1 ≤ prefixStage k) ts) :
    pathSearchPrefix (.any :: ts) = .ok (.any none none) (.any :: ts) := by
  cases ts with
  | nil => rfl
  | cons k ts =>
    have hk : 1 ≤ prefixStage k := h k rfl
    cases k with
    | nonReserved word _ => cases word <;> first | rfl | (simp [prefixStage] at hk)
    | _ => rfl

/-- The numbered searches: `GROUP` or `GROUPS` at the end makes the difference. -/
theorem pathSearchPrefix_counted {number : Option NonNegativeInteger} {mode : Option PathMode}
    {slice : Ident} {tn tm tw : List TokenKind} (hNumber : Optionally NumberDerives number tn)
    (hMode : Optionally ModeDerives mode tm) (hWords : PathWords tw)
    (hRest : HeadIn (fun k => 4 ≤ prefixStage k) rest) (hne : tn ++ tm ++ tw ++ rest ≠ []) :
    pathSearchPrefix (.nonReserved .shortest slice :: (tn ++ tm ++ tw ++ rest)) =
      (do
        let suffix ← opt groupOrGroups
        match number, suffix with
        | number, some () => pure (PathSearchMode.countedShortestGroup number mode)
        | some number, none => pure (.countedShortest number mode)
        | none, none => fail : TokenParser PathSearchMode) rest := by
  have hDispatch : ∀ us, us ≠ [] → pathSearchPrefix (.nonReserved .shortest slice :: us) =
      pathOrGroup (.nonReserved .shortest slice :: us) := by
    intro us hus
    cases us with
    | nil => exact absurd rfl hus
    | cons u us => rfl
  have hWord : expectWord .shortest
      (.nonReserved .shortest slice :: (tn ++ tm ++ tw ++ rest)) =
        .ok () (tn ++ tm ++ tw ++ rest) := rfl
  rw [hDispatch _ hne, pathOrGroup, bind_apply, hWord, andThen_ok, List.append_assoc,
    List.append_assoc]
  exact (number_reads hNumber (modeTail_head hMode hWords hRest)).trans
    (modeTail_reads hMode hWords hRest)

/-- Every search prefix but `ANY` is read back, whatever comes after it that does not go on with it.
-/
theorem pathSearchPrefix_reads {search : PathSearchMode} (h : SearchDerives search ts)
    (hAny : ∀ number mode, search ≠ .any number mode)
    (hRest : HeadIn (fun k => 5 ≤ prefixStage k) rest) :
    pathSearchPrefix (ts ++ rest) = .ok search rest := by
  have hAfter : HeadIn (fun k => 4 ≤ prefixStage k) rest :=
    hRest.mono fun _ hk => Nat.le_of_succ_le hk
  cases h with
  | @all mode tm tw hMode hWords =>
    rw [List.cons_append, List.cons_append, List.append_assoc,
      pathSearchPrefix_all ((modeTail_head hMode hWords hAfter).mono fun _ hk =>
        Nat.le_of_succ_le hk), allPathSearch, bind_apply, expect_self]
    exact modeTail_reads hMode hWords hAfter
  | any => exact absurd rfl (hAny _ _)
  | @allShortest mode slice tm tw hMode hWords =>
    have hRun : ∀ us, pathSearchPrefix (.all :: .nonReserved .shortest slice :: us) =
        (do let m ← opt pathMode; let _ ← opt pathOrPaths; pure (.allShortest m) :
          TokenParser PathSearchMode) us := fun _ => rfl
    simp only [List.cons_append, List.append_assoc]
    rw [hRun]
    exact modeTail_reads hMode hWords hAfter
  | @anyShortest mode slice tm tw hMode hWords =>
    have hRun : ∀ us, pathSearchPrefix (.any :: .nonReserved .shortest slice :: us) =
        (do let m ← opt pathMode; let _ ← opt pathOrPaths; pure (.anyShortest m) :
          TokenParser PathSearchMode) us := fun _ => rfl
    simp only [List.cons_append, List.append_assoc]
    rw [hRun]
    exact modeTail_reads hMode hWords hAfter
  | @countedShortest number mode slice tn tm tw hNumber hMode hWords =>
    have hne : tn ++ tm ++ tw ++ rest ≠ [] := by
      cases hNumber <;> exact nofun
    rw [List.cons_append, List.cons_append, List.cons_append,
      pathSearchPrefix_counted (.present hNumber) hMode hWords hAfter hne, bind_apply,
      opt_of_backtrack (groupOrGroups_stops hRest)]
    rfl
  | @countedShortestGroup number mode slice tn tm tw k hNumber hMode hWords hGroup =>
    have hStage : HeadIn (fun k => 4 ≤ prefixStage k) (k :: rest) :=
      headIn_cons.mpr (Nat.le_of_eq (groupWord_stage hGroup).symm)
    have hGroupRead : opt groupOrGroups (k :: rest) = .ok (some ()) rest := by
      cases hGroup <;> rfl
    rw [List.append_assoc, List.singleton_append, List.cons_append, List.cons_append,
      List.cons_append, pathSearchPrefix_counted hNumber hMode hWords hStage (by simp),
      bind_apply, hGroupRead]
    cases number <;> rfl

/-! ## Prefixes -/

theorem pathModePrefix_reads {mode : PathMode} (h : ModePrefixDerives mode ts)
    (hRest : HeadIn (fun k => 4 ≤ prefixStage k) rest) :
    pathModePrefix (ts ++ rest) = .ok mode rest := by
  cases h with
  | @mk tm tw hMode hWords =>
    rw [List.append_assoc, pathModePrefix, bind_apply, pathMode_reads hMode, andThen_ok]
    exact pathWords_read hWords hRest

theorem pathModePrefix_stops (h : HeadIn (fun k => 3 ≤ prefixStage k) ts) :
    pathModePrefix ts = .backtrack := by
  rw [pathModePrefix, bind_apply, pathMode_stops h]
  rfl

theorem pathModePrefix_cases (k : TokenKind) (h : HeadIn (fun k => 4 ≤ prefixStage k) ts) :
    (∃ mode, pathModePrefix (k :: ts) = .ok mode ts) ∨
      pathModePrefix (k :: ts) = .backtrack := by
  by_cases hk : ∃ mode slice, k = .nonReserved (PathMode.word mode) slice
  · obtain ⟨mode, slice, rfl⟩ := hk
    have hRead := pathModePrefix_reads (.mk (@ModeDerives.mk mode slice) .none) h
    exact .inl ⟨mode, hRead⟩
  · refine .inr ?_
    have hMode : pathMode (k :: ts) = .backtrack := by
      rw [pathMode, bind_apply, any_cons, andThen_ok]
      split
      · exact absurd ⟨.walk, _, rfl⟩ hk
      · exact absurd ⟨.trail, _, rfl⟩ hk
      · exact absurd ⟨.simple, _, rfl⟩ hk
      · exact absurd ⟨.acyclic, _, rfl⟩ hk
      · rfl
    rw [pathModePrefix, bind_apply, hMode]
    rfl

theorem pathPatternPrefix_mode {mode : PathMode} (h : ModePrefixDerives mode ts) :
    pathPatternPrefix (ts ++ rest) =
      (pathModePrefix (ts ++ rest)).andThen fun m r => .ok (.pathMode m) r := by
  cases h with
  | mk hMode _ =>
    cases hMode
    cases mode <;> rfl

theorem pathPatternPrefix_search {search : PathSearchMode} (h : SearchDerives search ts) :
    pathPatternPrefix (ts ++ rest) =
      (pathSearchPrefix (ts ++ rest)).andThen fun s r => .ok (.pathSearch s) r := by
  cases h <;> rfl

/-- **A prefix other than `ANY` is read back.** -/
theorem pathPatternPrefix_reads {searchPrefix : PathPatternPrefix}
    (h : PrefixDerives searchPrefix ts) (hGood : searchPrefix.supported = true)
    (hRest : HeadIn (fun k => 5 ≤ prefixStage k) rest) :
    pathPatternPrefix (ts ++ rest) = .ok searchPrefix rest := by
  cases h with
  | pathMode hMode =>
    rw [pathPatternPrefix_mode hMode, pathModePrefix_reads hMode
      (hRest.mono fun _ hk => Nat.le_of_succ_le hk)]
    rfl
  | @pathSearch search _ hSearch =>
    have hAny : ∀ number mode, search ≠ .any number mode := by
      intro number mode hEq
      rw [hEq] at hGood
      cases hGood
    rw [pathPatternPrefix_search hSearch, pathSearchPrefix_reads hSearch hAny hRest]
    rfl

/-- `ANY` is answered with nothing taken, whatever number and mode follow it. -/
theorem pathPatternPrefix_any {searchPrefix : PathPatternPrefix}
    (h : PrefixDerives searchPrefix ts) (hBad : searchPrefix.supported = false)
    (hRest : HeadIn (fun k => 5 ≤ prefixStage k) rest) :
    ∃ us, ts ++ rest = .any :: us ∧
      pathPatternPrefix (ts ++ rest) = .ok (.pathSearch (.any none none)) (.any :: us) := by
  cases h with
  | pathMode _ => cases hBad
  | @pathSearch search _ hSearch =>
    have hRun : pathPatternPrefix (ts ++ rest) =
        (pathSearchPrefix (ts ++ rest)).andThen fun s r => .ok (.pathSearch s) r :=
      pathPatternPrefix_search hSearch
    cases hSearch with
    | @any number mode tn tm tw hNumber hMode hWords =>
      have hHead : HeadIn (fun k => 1 ≤ prefixStage k) (tn ++ (tm ++ (tw ++ rest))) :=
        (hNumber.headIn fun _ _ => number_head).append <|
          (modeTail_head hMode hWords (hRest.mono fun _ hk => Nat.le_of_succ_le hk)).mono
            fun _ hk => Nat.le_of_succ_le hk
      refine ⟨tn ++ (tm ++ (tw ++ rest)), by simp only [List.cons_append, List.append_assoc], ?_⟩
      rw [hRun, List.cons_append, List.cons_append, List.cons_append, List.append_assoc,
        List.append_assoc, pathSearchPrefix_any hHead]
      rfl
    | _ => cases hBad

theorem pathPatternPrefix_stops {k : TokenKind} (h : k = .leftParen ∨
    k.isPrefixOfEdgePattern = true) : pathPatternPrefix (k :: ts) = .backtrack := by
  obtain rfl | h := h
  · rfl
  · rw [pathPatternPrefix, peekAny_cons]
    split <;> first | rfl | cases h

end MiniGU.Parsing
