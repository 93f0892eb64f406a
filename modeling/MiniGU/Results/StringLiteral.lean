import MiniGU.Model.StringLiteral

/-!
# String literals denote what they say

* `literals_denote`: every text of a quoted token is made of plain characters, doubled quotes and
  escapes, and `unescape` gives the characters that they stand for, or fails if one of them is no
  scalar value; it does not panic. The quoted form of a string gives this string.
* `unescape_pieces`: there is one way to take a text apart, and the parsers get what it stands for.
-/

namespace MiniGU.Parsing

variable {quote : Char} {noEscape : Bool}

def quoteChars : List Char := ['\'', '"', '`']

theorem ne_backslash (h : quote ∈ quoteChars) : quote ≠ '\\' := by
  rintro rfl
  revert h
  decide

-- ----
-- The pieces of a text
-- ----

inductive Piece where
  | plain (c : Char)
  | doubled
  | simple (c : Char)
  | code (letter : Char) (digits : List Char)

namespace Piece

def text (quote : Char) : Piece → List Char
  | .plain c => [c]
  | .doubled => [quote, quote]
  | .simple c => ['\\', c]
  | .code letter digits => '\\' :: letter :: digits

/-- The letters after a backslash, each with the character that it is an escape of. -/
def escapes : List (Char × Char) :=
  [('\\', '\\'), ('\'', '\''), ('"', '"'), ('`', '`'), ('t', Char.ofNat 9), ('b', Char.ofNat 8),
    ('n', Char.ofNat 10), ('r', Char.ofNat 13), ('f', Char.ofNat 12)]

def Allowed (quote : Char) (noEscape : Bool) : Piece → Prop
  | .plain c => c ≠ quote ∧ (noEscape = false → c ≠ '\\')
  | .doubled => True
  | .simple c => noEscape = false ∧ c ∈ escapes.map Prod.fst
  | .code letter digits => noEscape = false ∧ digits.all isHexDigit ∧
      (letter = 'u' ∧ digits.length = 4 ∨ letter = 'U' ∧ digits.length = 6)

/-- The character that the piece stands for, if there is one of that number. -/
def denotes (quote : Char) : Piece → Option Char
  | .plain c => some c
  | .doubled => some quote
  | .simple c => escapes.lookup c
  | .code _ digits => (hexNumber digits).bind charOfNat

/-- A text of one piece is that of an allowed piece. -/
theorem mem_pieceText_iff (cs : List Char) :
    cs ∈ pieceText quote noEscape ↔ ∃ p : Piece, p.Allowed quote noEscape ∧ cs = p.text quote := by
  constructor
  · intro h
    cases noEscape with
    | true =>
      rcases h with ⟨c, rfl, hPlain⟩ | rfl
      · exact ⟨.plain c, hPlain, rfl⟩
      · exact ⟨.doubled, trivial, rfl⟩
    | false =>
      rcases h with (((⟨c, rfl, hPlain⟩ | ⟨c, hc, rfl⟩) | ⟨ds, hLength, hHex, rfl⟩) |
        ⟨ds, hLength, hHex, rfl⟩) | rfl
      · exact ⟨.plain c, hPlain, rfl⟩
      · exact ⟨.simple c, ⟨rfl, hc⟩, rfl⟩
      · exact ⟨.code 'u' ds, ⟨rfl, hHex, .inl ⟨rfl, hLength⟩⟩, rfl⟩
      · exact ⟨.code 'U' ds, ⟨rfl, hHex, .inr ⟨rfl, hLength⟩⟩, rfl⟩
      · exact ⟨.doubled, trivial, rfl⟩
  · rintro ⟨p, hp, rfl⟩
    cases p with
    | plain c =>
      cases noEscape with
      | true => exact .inl ⟨c, rfl, hp⟩
      | false => exact .inl (.inl (.inl (.inl ⟨c, rfl, hp⟩)))
    | doubled =>
      cases noEscape with
      | true => exact .inr rfl
      | false => exact .inr rfl
    | simple c =>
      obtain ⟨rfl, hc⟩ := hp
      exact .inl (.inl (.inl (.inr ⟨c, hc, rfl⟩)))
    | code letter digits =>
      obtain ⟨rfl, hHex, ⟨rfl, hLength⟩ | ⟨rfl, hLength⟩⟩ := hp
      · exact .inl (.inl (.inr ⟨digits, hLength, hHex, rfl⟩))
      · exact .inl (.inr ⟨digits, hLength, hHex, rfl⟩)

end Piece

/-- The text of a token that is made of the pieces. -/
def tokenText (quote : Char) (noEscape : Bool) (pieces : List Piece) : List Char :=
  openingQuote quote noEscape ++ pieces.flatMap (Piece.text quote) ++ [quote]

theorem strip_tokenText (pieces : List Piece) :
    strip noEscape (tokenText quote noEscape pieces) = pieces.flatMap (Piece.text quote) := by
  unfold strip tokenText openingQuote
  cases noEscape with
  | true => exact List.dropLast_concat
  | false => exact List.dropLast_concat

/-- **The lexer's texts are those made of pieces.** -/
theorem mem_quotedText_iff (token : List Char) :
    token ∈ quotedText quote noEscape ↔
      ∃ pieces : List Piece, (∀ p ∈ pieces, p.Allowed quote noEscape) ∧
        token = tokenText quote noEscape pieces := by
  constructor
  · intro h
    obtain ⟨_, ⟨_, rfl, body, ⟨parts, rfl, hParts⟩, rfl⟩, _, rfl, rfl⟩ := h
    have hPieces : ∀ parts : List (List Char), (∀ cs ∈ parts, cs ∈ pieceText quote noEscape) →
        ∃ pieces : List Piece, (∀ p ∈ pieces, p.Allowed quote noEscape) ∧
          parts.flatten = pieces.flatMap (Piece.text quote) := by
      intro parts
      induction parts with
      | nil => exact fun _ => ⟨[], fun _ h => (nomatch h), rfl⟩
      | cons cs parts ih =>
        intro hAll
        obtain ⟨p, hp, hText⟩ := (Piece.mem_pieceText_iff cs).mp (hAll cs (List.mem_cons_self ..))
        obtain ⟨pieces, hPieces, hFlat⟩ := ih fun cs' h => hAll cs' (List.mem_cons_of_mem _ h)
        refine ⟨p :: pieces, List.forall_mem_cons.mpr ⟨hp, hPieces⟩, ?_⟩
        rw [List.flatten_cons, List.flatMap_cons, hText, hFlat]
    obtain ⟨pieces, hAllowed, hFlat⟩ := hPieces parts hParts
    refine ⟨pieces, hAllowed, ?_⟩
    unfold tokenText
    rw [← hFlat]
  · rintro ⟨pieces, hAllowed, rfl⟩
    refine Language.append_mem_mul (Language.append_mem_mul rfl ?_) rfl
    refine ⟨pieces.map (Piece.text quote), List.flatMap_def .., fun cs hcs => ?_⟩
    obtain ⟨p, hp, rfl⟩ := List.mem_map.mp hcs
    exact (Piece.mem_pieceText_iff _).mpr ⟨p, hAllowed p hp, rfl⟩

-- ----
-- One piece
-- ----

theorem hexNumber_isSome {ds : List Char} (h : ds.all isHexDigit) : ∃ n, hexNumber ds = some n := by
  have hFold : ∀ (ds : List Char) (n : Nat), ds.all isHexDigit →
      ∃ m, ds.foldlM (fun n c => (hexDigit c).map fun d => n * 16 + d) n = some m := by
    intro ds
    induction ds with
    | nil => exact fun n _ => ⟨n, rfl⟩
    | cons d ds ih =>
      intro n hAll
      obtain ⟨hDigit, hRest⟩ := Bool.and_eq_true_iff.mp hAll
      obtain ⟨v, hv⟩ := Option.isSome_iff_exists.mp hDigit
      rw [List.foldlM_cons, hv]
      exact ih _ hRest
  exact hFold ds 0 h

theorem fromStrRadix16_eq {ds : List Char} (h : ds.all isHexDigit) (hNonempty : ds ≠ []) :
    fromStrRadix16 ds = hexNumber ds := by
  unfold fromStrRadix16
  split
  · exact absurd rfl hNonempty
  · exact absurd (Bool.and_eq_true_iff.mp h).1 (by decide)
  · rfl

theorem codePoint_digits {ds : List Char} (h : ds.all isHexDigit) (hNonempty : ds ≠ [])
    (rest : List Char) :
    codePoint ds.length (ds ++ rest) =
      match (hexNumber ds).bind charOfNat with
      | none => .error (.error ())
      | some c => .ok (c, rest) := by
  obtain ⟨n, hn⟩ := hexNumber_isSome h
  unfold codePoint
  rw [if_neg (by rw [List.length_append]; omega), List.take_left, List.drop_left,
    fromStrRadix16_eq h hNonempty, hn]
  rfl

theorem unescapeLoop_plain {c : Char} (hQuote : c ≠ quote) (hEscape : noEscape = false → c ≠ '\\')
    (n : Nat) (cs : List Char) :
    unescapeLoop quote noEscape n (c :: cs) =
      (unescapeLoop quote noEscape n cs).map fun out => c :: out := by
  have hPasses : passesOver quote noEscape c = true := by
    unfold passesOver
    rw [beq_false_of_ne hQuote]
    cases noEscape with
    | true => rfl
    | false =>
      rw [beq_false_of_ne (hEscape rfl)]
      rfl
  cases n with
  | zero => rfl
  | succ n =>
    unfold unescapeLoop
    dsimp only
    rw [List.dropWhile_cons_of_pos hPasses, List.takeWhile_cons_of_pos hPasses]
    split
    · rfl
    · rfl
    · split
      · split
        · rfl
        · cases unescapeLoop quote noEscape n _ with
          | error e => rfl
          | ok out => rfl
      · split
        · cases unescapeLoop quote noEscape n _ with
          | error e => rfl
          | ok out => rfl
        · rfl

theorem unescapeLoop_doubled (hQuote : quote ≠ '\\') (n : Nat) (cs : List Char) :
    unescapeLoop quote noEscape (n + 1) (quote :: quote :: cs) =
      (unescapeLoop quote noEscape n cs).map fun out => quote :: out := by
  have hStops : ¬ passesOver quote noEscape quote = true := by
    unfold passesOver
    rw [beq_self_eq_true]
    exact Bool.false_ne_true
  have hDelim : (!noEscape && quote == '\\') = false := by
    rw [beq_false_of_ne hQuote, Bool.and_false]
  rw [unescapeLoop, List.dropWhile_cons_of_neg hStops, List.takeWhile_cons_of_neg hStops]
  dsimp only
  rw [hDelim, if_neg Bool.false_ne_true, if_pos rfl]
  rfl

theorem unescapeLoop_escape (n : Nat) (next : Char) (cs : List Char) :
    unescapeLoop quote false (n + 1) ('\\' :: next :: cs) =
      match unescapedChar next cs with
      | .error e => .error e
      | .ok (c, rest) => (unescapeLoop quote false n rest).map fun out => c :: out := by
  have hStops : ¬ passesOver quote false '\\' = true := by
    unfold passesOver
    rw [beq_self_eq_true, Bool.not_false, Bool.and_true, Bool.or_true]
    exact Bool.false_ne_true
  rw [unescapeLoop, List.dropWhile_cons_of_neg hStops, List.takeWhile_cons_of_neg hStops]
  rfl

-- ----
-- All pieces
-- ----

/-- What the pieces stand for. -/
def denoted (quote : Char) (pieces : List Piece) : Except (Fault Unit) (List Char) :=
  match pieces.mapM (Piece.denotes quote) with
  | none => .error (.error ())
  | some cs => .ok cs

theorem denoted_cons (p : Piece) (pieces : List Piece) :
    denoted quote (p :: pieces) =
      match p.denotes quote with
      | none => .error (.error ())
      | some c => (denoted quote pieces).map fun out => c :: out := by
  unfold denoted
  rw [List.mapM_cons]
  cases p.denotes quote with
  | none => rfl
  | some c =>
    cases pieces.mapM (Piece.denotes quote) with
    | none => rfl
    | some cs => rfl

/-- The arms of `unescape` are the table. -/
theorem unescapedChar_simple {c : Char} (h : c ∈ Piece.escapes.map Prod.fst) (rest : List Char) :
    ∃ u, Piece.escapes.lookup c = some u ∧ unescapedChar c rest = .ok (u, rest) := by
  simp only [Piece.escapes, List.map_cons, List.map_nil, List.mem_cons, List.not_mem_nil,
    or_false] at h
  rcases h with rfl | rfl | rfl | rfl | rfl | rfl | rfl | rfl | rfl <;> exact ⟨_, rfl, rfl⟩

/-- **The loop gives what the pieces stand for.** -/
theorem unescapeLoop_pieces (hQuote : quote ∈ quoteChars) {pieces : List Piece}
    (hAllowed : ∀ p ∈ pieces, p.Allowed quote noEscape) {n : Nat} (hn : pieces.length < n) :
    unescapeLoop quote noEscape n (pieces.flatMap (Piece.text quote)) = denoted quote pieces := by
  induction pieces generalizing n with
  | nil =>
    obtain ⟨n, rfl⟩ : ∃ m, n = m + 1 := ⟨n - 1, by simp at hn; omega⟩
    rfl
  | cons p pieces ih =>
    obtain ⟨hp, hRest⟩ := List.forall_mem_cons.mp hAllowed
    rw [List.length_cons] at hn
    obtain ⟨n, rfl⟩ : ∃ m, n = m + 1 := ⟨n - 1, by omega⟩
    have hNext := ih hRest (n := n) (by omega)
    rw [denoted_cons, List.flatMap_cons]
    cases p with
    | plain c =>
      show unescapeLoop quote noEscape (n + 1) (c :: pieces.flatMap (Piece.text quote)) = _
      rw [unescapeLoop_plain hp.1 hp.2, ih hRest (by omega)]
      rfl
    | doubled =>
      show unescapeLoop quote noEscape (n + 1) (quote :: quote :: pieces.flatMap _) = _
      rw [unescapeLoop_doubled (ne_backslash hQuote), hNext]
      rfl
    | simple c =>
      obtain ⟨rfl, hc⟩ := hp
      obtain ⟨u, hDenotes, hChar⟩ := unescapedChar_simple hc (pieces.flatMap (Piece.text quote))
      show unescapeLoop quote false (n + 1) ('\\' :: c :: pieces.flatMap _) = _
      rw [unescapeLoop_escape, hChar]
      dsimp only
      rw [hNext, show Piece.denotes quote (.simple c) = some u from hDenotes]
    | code letter digits =>
      obtain ⟨rfl, hHex, hLetter⟩ := hp
      have hNonempty : digits ≠ [] := by
        rintro rfl
        rcases hLetter with ⟨_, h⟩ | ⟨_, h⟩
        · cases h
        · cases h
      have hChar : unescapedChar letter (digits ++ pieces.flatMap (Piece.text quote)) =
          codePoint digits.length (digits ++ pieces.flatMap (Piece.text quote)) := by
        unfold unescapedChar
        rcases hLetter with ⟨rfl, h⟩ | ⟨rfl, h⟩
        · rw [h, if_pos rfl]
        · rw [h, if_neg (by decide), if_pos rfl]
      show unescapeLoop quote false (n + 1)
        ('\\' :: letter :: (digits ++ pieces.flatMap (Piece.text quote))) = _
      rw [unescapeLoop_escape, hChar, codePoint_digits hHex hNonempty]
      show _ = match (hexNumber digits).bind charOfNat with
        | none => _
        | some c => _
      cases (hexNumber digits).bind charOfNat with
      | none => rfl
      | some c =>
        dsimp only
        rw [hNext]

theorem length_le_flatMap (pieces : List Piece) :
    pieces.length ≤ (pieces.flatMap (Piece.text quote)).length := by
  induction pieces with
  | nil => exact Nat.le_refl _
  | cons p pieces ih =>
    have hText : 1 ≤ (p.text quote).length := by
      cases p with
      | plain _ | doubled | simple _ | code _ _ => exact Nat.succ_le_succ (Nat.zero_le _)
    rw [List.flatMap_cons, List.length_append, List.length_cons]
    omega

-- ----
-- The quoted form of a string
-- ----

/-- A quote is doubled, and so is a backslash where there are escapes. -/
def escapePiece (quote : Char) (noEscape : Bool) (c : Char) : Piece :=
  if c = quote then .doubled
  else if noEscape = false ∧ c = '\\' then .simple '\\'
  else .plain c

def quotedForm (quote : Char) (noEscape : Bool) (t : List Char) : List Char :=
  tokenText quote noEscape (t.map (escapePiece quote noEscape))

theorem escapePiece_spec (c : Char) :
    (escapePiece quote noEscape c).Allowed quote noEscape ∧
      (escapePiece quote noEscape c).denotes quote = some c := by
  unfold escapePiece
  split
  · rename_i hc
    exact ⟨trivial, congrArg some hc.symm⟩
  · rename_i hQuote
    split
    · rename_i hc
      exact ⟨⟨hc.1, List.mem_cons_self ..⟩, congrArg some hc.2.symm⟩
    · rename_i hEscape
      exact ⟨⟨hQuote, fun hNo hc => hEscape ⟨hNo, hc⟩⟩, rfl⟩

theorem denoted_escape (t : List Char) :
    denoted quote (t.map (escapePiece quote noEscape)) = .ok t := by
  induction t with
  | nil => rfl
  | cons c t ih =>
    rw [List.map_cons, denoted_cons, (escapePiece_spec c).2]
    dsimp only
    rw [ih]
    rfl

/-- Pieces fail to denote only where a code names no character. -/
theorem code_of_none {pieces : List Piece} (hAllowed : ∀ p ∈ pieces, p.Allowed quote noEscape)
    (h : pieces.mapM (Piece.denotes quote) = none) :
    ∃ letter digits n, Piece.code letter digits ∈ pieces ∧ hexNumber digits = some n ∧
      ¬ n.isValidChar := by
  induction pieces with
  | nil => cases h
  | cons p pieces ih =>
    obtain ⟨hp, hRest⟩ := List.forall_mem_cons.mp hAllowed
    cases hDenotes : p.denotes quote with
    | some c =>
      rw [List.mapM_cons, hDenotes] at h
      cases hTail : pieces.mapM (Piece.denotes quote) with
      | some cs =>
        rw [hTail] at h
        cases h
      | none =>
        obtain ⟨letter, digits, n, hMem, hNumber⟩ := ih hRest hTail
        exact ⟨letter, digits, n, List.mem_cons_of_mem _ hMem, hNumber⟩
    | none =>
      cases p with
      | plain c => cases hDenotes
      | doubled => cases hDenotes
      | simple c =>
        obtain ⟨u, hSome, _⟩ := unescapedChar_simple hp.2 []
        have hNone : Piece.escapes.lookup c = none := hDenotes
        rw [hSome] at hNone
        cases hNone
      | code letter digits =>
        obtain ⟨n, hn⟩ := hexNumber_isSome hp.2.1
        refine ⟨letter, digits, n, List.mem_cons_self .., hn, fun hValid => ?_⟩
        have hNone : (hexNumber digits).bind charOfNat = none := hDenotes
        rw [hn, Option.bind_some, charOfNat, if_pos hValid] at hNone
        cases hNone

theorem unescapeText_pieces (hQuote : quote ∈ quoteChars) {pieces : List Piece}
    (hAllowed : ∀ p ∈ pieces, p.Allowed quote noEscape) :
    unescapeText quote noEscape (strip noEscape (tokenText quote noEscape pieces)) =
      denoted quote pieces := by
  rw [strip_tokenText]
  exact unescapeLoop_pieces hQuote hAllowed (Nat.lt_succ_of_le (length_le_flatMap pieces))

-- ----
-- One reading
-- ----

namespace Piece

/-- The first characters of a piece tell what it is and where it ends. -/
theorem text_append_inj (hQuote : quote ∈ quoteChars) {p q : Piece}
    (hp : p.Allowed quote noEscape) (hq : q.Allowed quote noEscape) {s t : List Char}
    (h : p.text quote ++ s = q.text quote ++ t) : p = q ∧ s = t := by
  have hSlash := ne_backslash hQuote
  -- a backslash does not begin a piece of another kind
  have hBegins : ∀ {p : Piece} {cs rest : List Char}, p.Allowed quote noEscape →
      noEscape = false → p.text quote ++ rest = '\\' :: cs →
      (∃ c, p = .simple c) ∨ ∃ letter digits, p = .code letter digits := by
    intro p cs rest hp hNo hText
    cases p with
    | plain c => exact absurd (List.cons.inj hText).1 (hp.2 hNo)
    | doubled => exact absurd (List.cons.inj hText).1 hSlash
    | simple c => exact .inl ⟨c, rfl⟩
    | code letter digits => exact .inr ⟨letter, digits, rfl⟩
  have hApart : ∀ {c letter : Char} {digits : List Char},
      (Piece.simple c).Allowed quote noEscape → (Piece.code letter digits).Allowed quote noEscape →
      c ≠ letter := by
    rintro c letter digits ⟨-, hc⟩ ⟨-, -, hLetter⟩ rfl
    rcases hLetter with ⟨rfl, -⟩ | ⟨rfl, -⟩
    · exact absurd hc (by decide)
    · exact absurd hc (by decide)
  cases p with
  | plain c =>
    cases q with
    | plain d =>
      obtain ⟨rfl, hRest⟩ := List.cons.inj h
      exact ⟨rfl, hRest⟩
    | doubled => exact absurd (List.cons.inj h).1 hp.1
    | simple d => exact absurd (List.cons.inj h).1 (hp.2 hq.1)
    | code letter digits => exact absurd (List.cons.inj h).1 (hp.2 hq.1)
  | doubled =>
    cases q with
    | plain d => exact absurd (List.cons.inj h).1.symm hq.1
    | doubled => exact ⟨rfl, (List.cons.inj (List.cons.inj h).2).2⟩
    | simple d => exact absurd (List.cons.inj h).1 hSlash
    | code letter digits => exact absurd (List.cons.inj h).1 hSlash
  | simple c =>
    rcases hBegins hq hp.1 h.symm with ⟨d, rfl⟩ | ⟨letter, digits, rfl⟩
    · obtain ⟨rfl, hRest⟩ := List.cons.inj (List.cons.inj h).2
      exact ⟨rfl, hRest⟩
    · exact absurd (List.cons.inj (List.cons.inj h).2).1 (hApart hp hq)
  | code letter digits =>
    rcases hBegins hq hp.1 h.symm with ⟨d, rfl⟩ | ⟨letter', digits', rfl⟩
    · exact absurd (List.cons.inj (List.cons.inj h).2).1.symm (hApart hq hp)
    · obtain ⟨rfl, hRest⟩ := List.cons.inj (List.cons.inj h).2
      have hLength : digits.length = digits'.length := by
        rcases hp.2.2 with ⟨rfl, hCount⟩ | ⟨rfl, hCount⟩
        · rcases hq.2.2 with ⟨-, hCount'⟩ | ⟨hLetter, -⟩
          · rw [hCount, hCount']
          · exact absurd hLetter (by decide)
        · rcases hq.2.2 with ⟨hLetter, -⟩ | ⟨-, hCount'⟩
          · exact absurd hLetter (by decide)
          · rw [hCount, hCount']
      obtain ⟨rfl, hTail⟩ := List.append_inj hRest hLength
      exact ⟨rfl, hTail⟩

theorem text_ne_nil (p : Piece) : p.text quote ≠ [] := by
  cases p with
  | plain _ | doubled | simple _ | code _ _ => exact List.cons_ne_nil _ _

end Piece

/-- A text is made of pieces in one way. -/
theorem pieces_unique (hQuote : quote ∈ quoteChars) {pieces others : List Piece}
    (hAllowed : ∀ p ∈ pieces, p.Allowed quote noEscape)
    (hOthers : ∀ p ∈ others, p.Allowed quote noEscape)
    (h : pieces.flatMap (Piece.text quote) = others.flatMap (Piece.text quote)) :
    pieces = others := by
  induction pieces generalizing others with
  | nil =>
    cases others with
    | nil => rfl
    | cons q others =>
      rw [List.flatMap_nil, List.flatMap_cons] at h
      exact absurd (List.append_eq_nil_iff.mp h.symm).1 q.text_ne_nil
  | cons p pieces ih =>
    cases others with
    | nil =>
      rw [List.flatMap_nil, List.flatMap_cons] at h
      exact absurd (List.append_eq_nil_iff.mp h).1 p.text_ne_nil
    | cons q others =>
      obtain ⟨hp, hPieces⟩ := List.forall_mem_cons.mp hAllowed
      obtain ⟨hq, hRest⟩ := List.forall_mem_cons.mp hOthers
      rw [List.flatMap_cons, List.flatMap_cons] at h
      obtain ⟨rfl, hTail⟩ := Piece.text_append_inj hQuote hp hq h
      rw [ih hPieces hRest hTail]

/-- **A text is read in one way**, and the parsers get what the pieces stand for. -/
theorem unescape_pieces (hQuote : quote ∈ quoteChars) {pieces : List Piece}
    (hAllowed : ∀ p ∈ pieces, p.Allowed quote noEscape) :
    unescape quote noEscape (pieces.flatMap (Piece.text quote)) =
      (pieces.mapM (Piece.denotes quote)).map String.ofList ∧
    ∀ others : List Piece, (∀ p ∈ others, p.Allowed quote noEscape) →
      others.flatMap (Piece.text quote) = pieces.flatMap (Piece.text quote) → others = pieces := by
  refine ⟨?_, fun others hOthers hText => pieces_unique hQuote hOthers hAllowed hText⟩
  have hText : unescapeText quote noEscape (pieces.flatMap (Piece.text quote)) =
      denoted quote pieces :=
    unescapeLoop_pieces hQuote hAllowed (Nat.lt_succ_of_le (length_le_flatMap pieces))
  unfold unescape
  rw [hText, denoted]
  cases pieces.mapM (Piece.denotes quote) with
  | none => rfl
  | some cs => rfl

theorem unescape_doubled : unescape '\'' false ['a', '\'', '\'', '\\', 'n'] = some "a'\n" :=
  (unescape_pieces (by decide) (show ∀ p ∈ [Piece.plain 'a', .doubled, .simple 'n'],
    p.Allowed '\'' false by simp [Piece.Allowed, Piece.escapes])).1

/-- **Literals denote what they say**, for each quote and with or without escapes. -/
theorem literals_denote (hQuote : quote ∈ quoteChars) (noEscape : Bool) :
    (∀ token ∈ quotedText quote noEscape, ∃ pieces : List Piece,
      (∀ p ∈ pieces, p.Allowed quote noEscape) ∧ token = tokenText quote noEscape pieces) ∧
    (∀ pieces : List Piece, (∀ p ∈ pieces, p.Allowed quote noEscape) →
      unescapeText quote noEscape (strip noEscape (tokenText quote noEscape pieces)) =
        match pieces.mapM (Piece.denotes quote) with
        | none => .error (.error ())
        | some cs => .ok cs) ∧
    (∀ pieces : List Piece, (∀ p ∈ pieces, p.Allowed quote noEscape) →
      pieces.mapM (Piece.denotes quote) = none → ∃ letter digits n,
        Piece.code letter digits ∈ pieces ∧ hexNumber digits = some n ∧ ¬ n.isValidChar) ∧
    (∀ t : List Char, quotedForm quote noEscape t ∈ quotedText quote noEscape ∧
      unescapeText quote noEscape (strip noEscape (quotedForm quote noEscape t)) = .ok t) := by
  have hForm : ∀ t : List Char, ∀ p ∈ t.map (escapePiece quote noEscape),
      p.Allowed quote noEscape := by
    intro t p hp
    obtain ⟨c, _, rfl⟩ := List.mem_map.mp hp
    exact (escapePiece_spec c).1
  refine ⟨fun token h => (mem_quotedText_iff token).mp h,
    fun pieces hAllowed => unescapeText_pieces hQuote hAllowed,
    fun pieces hAllowed => code_of_none hAllowed, fun t => ⟨?_, ?_⟩⟩
  · exact (mem_quotedText_iff _).mpr ⟨_, hForm t, rfl⟩
  · exact (unescapeText_pieces hQuote (hForm t)).trans (denoted_escape t)

theorem literals_denote_single :
    unescapeText '\'' false (strip false (quotedForm '\'' false ['a', '\'', '\\'])) =
      .ok ['a', '\'', '\\'] :=
  have hQuote : '\'' ∈ quoteChars := by decide
  ((literals_denote hQuote false).2.2.2 ['a', '\'', '\\']).2

end MiniGU.Parsing
