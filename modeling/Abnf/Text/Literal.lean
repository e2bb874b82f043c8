import Abnf.Text.Shown

/-
  Texts of numbers and single characters.

  A number is written in base sixteen with a least width. A
  character is written between single quotes; characters
  that a reader could not see are written by their code
  point.

  Key definitions include:
    * `Abnf.Text.padLeft`
    * `Abnf.Text.hexUpper`
    * `Abnf.Text.hexLower`
    * `Abnf.Text.charLiteral`
-/

------------------------------------------------------------
-- Hexadecimal Numbers
------------------------------------------------------------

namespace Abnf

namespace Text

/- Fill a text with zeros on the left up to a width. -/
def padLeft
    (width : Nat)
    (digits : List Char) : String :=
  String.ofList
    (List.replicate (width - digits.length) '0' ++ digits)

/- A number in base sixteen with the digits `0`-`f`. -/
def hexLower
    (width n : Nat) : String :=
  padLeft width (Nat.toDigits 16 n)

/- A number in base sixteen with the digits `0`-`F`. -/
def hexUpper
    (width n : Nat) : String :=
  padLeft width ((Nat.toDigits 16 n).map Char.toUpper)

end Text

end Abnf

------------------------------------------------------------
-- Characters
------------------------------------------------------------

namespace Abnf

namespace Text

/- The escape of a character by its code point. -/
def codeEscape
    (c : Char) : String :=
  "\\u\x7b" ++ hexLower 1 c.toNat ++ "\x7d"

/-
  A character as it stands between single quotes: the usual
  short escapes, then code points for what has no glyph of
  its own.
-/
def escapedChar
    (c : Char) : String :=
  if c = '\x00' then "\\0"
  else if c = '\t' then "\\t"
  else if c = '\r' then "\\r"
  else if c = '\n' then "\\n"
  else if c = '\'' then "\\'"
  else if c = '\\' then "\\\\"
  else if isShown c.toNat then c.toString
  else codeEscape c

/- A character between single quotes. -/
def charLiteral
    (c : Char) : String :=
  "'" ++ escapedChar c ++ "'"

end Text

end Abnf
