/-
  Characters written as hexadecimal numbers.

  Key definitions include:
    * `Abnf.Text.hexValue?`
    * `Abnf.Text.hexNumber?`
    * `Abnf.Text.charOf?`
-/

------------------------------------------------------------
-- Numbers
------------------------------------------------------------

namespace Abnf

namespace Text

/- The value of a hexadecimal digit. -/
def hexValue?
    (c : Char) : Option Nat :=
  if '0' ≤ c ∧ c ≤ '9' then
    some (c.toNat - '0'.toNat)
  else if 'a' ≤ c ∧ c ≤ 'f' then
    some (c.toNat - 'a'.toNat + 10)
  else if 'A' ≤ c ∧ c ≤ 'F' then
    some (c.toNat - 'A'.toNat + 10)
  else
    none

/- The number that some hexadecimal digits write. -/
def hexNumber?
    (digits : List Char) : Option Nat :=
  digits.foldlM
    (fun n c => (hexValue? c).map (16 * n + ·)) 0

/- The character of a code point. -/
def charOf?
    (code : Nat) : Option Char :=
  if code.isValidChar then some (Char.ofNat code) else none

end Text

end Abnf
