import MiniGU.Model.Token
import Mathlib.Computability.Language

/-!
# String literals (`gql/parser/src/lexer.rs`)

The regular expressions of quoted texts as languages. A quoted text that begins with `@` has no
escapes.
-/

namespace MiniGU.Parsing

def isHexDigit (c : Char) : Bool := (hexDigit c).isSome

/-- `[^'\\]`, without escapes `[^']`. -/
def plainText (quote : Char) (noEscape : Bool) : Language Char :=
  {cs | ∃ c, cs = [c] ∧ c ≠ quote ∧ (noEscape = false → c ≠ '\\')}

/-- ``\\[\\'"`tbnrf]``. -/
def simpleText : Language Char :=
  {cs | ∃ c ∈ ['\\', '\'', '"', '`', 't', 'b', 'n', 'r', 'f'], cs = ['\\', c]}

/-- `\\u[0-9a-fA-F]{4}`, with another letter and number of digits. -/
def codeText (letter : Char) (count : Nat) : Language Char :=
  {cs | ∃ ds : List Char, ds.length = count ∧ ds.all isHexDigit ∧ cs = '\\' :: letter :: ds}

def pieceText (quote : Char) (noEscape : Bool) : Language Char :=
  if noEscape then plainText quote noEscape + {[quote, quote]}
  else plainText quote noEscape + simpleText + codeText 'u' 4 + codeText 'U' 6 + {[quote, quote]}

def openingQuote (quote : Char) (noEscape : Bool) : List Char :=
  if noEscape then ['@', quote] else [quote]

/-- The texts of a token. -/
def quotedText (quote : Char) (noEscape : Bool) : Language Char :=
  {openingQuote quote noEscape} * KStar.kstar (pieceText quote noEscape) * {[quote]}

/-- The text without its quotes. -/
def strip (noEscape : Bool) (input : List Char) : List Char :=
  (input.drop (if noEscape then 2 else 1)).dropLast

end MiniGU.Parsing
