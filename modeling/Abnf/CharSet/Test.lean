import Abnf.CharSet

/-
  Tests on one byte of a text.

  A set of characters is tested by the cheapest of four
  tests: no byte passes, one byte passes, one of at most
  three bytes passes, or the byte is looked up in the masks
  of the set. `CharSet.test` chooses by the size of the set.

  Key definitions include:
    * `Abnf.ByteTest`
    * `Abnf.ByteTest.accepts`
    * `Abnf.ByteTest.describe`
    * `Abnf.CharSet.test`
-/

------------------------------------------------------------
-- Byte Tests
------------------------------------------------------------

namespace Abnf

/- A test on one byte. -/
inductive ByteTest where
  /- No byte passes. -/
  | never
  /- One byte passes. -/
  | eq (b : UInt8)
  /- The listed bytes pass. -/
  | oneOf (bs : List UInt8)
  /- The ASCII codes whose bit is set pass. -/
  | mask (low high : BitVec 64)
deriving DecidableEq, Inhabited

namespace ByteTest

/- The byte passes the test. -/
def accepts : ByteTest → UInt8 → Bool
  | never, _ => false
  | eq c, b => b == c
  | oneOf cs, b => cs.contains b
  | mask low high, b => (CharSet.mk low high).containsByte b

/-
  The entries of a table of three bytes that starts with the
  listed ones and is filled up with zeros.
-/
def entries
    (bs : List UInt8) : List UInt8 :=
  bs ++ List.replicate (3 - bs.length) 0

/- A test as a term, for people to read. -/
def describe : ByteTest → String
  | never => "Never"
  | eq b => "Eq(" ++ toString b.toNat ++ ")"
  | oneOf bs =>
      "OneOf \x7b chars: [" ++
        ", ".intercalate
          ((entries bs).map (fun b => toString b.toNat)) ++
        "], len: " ++ toString bs.length ++ " \x7d"
  | mask low high =>
      "Mask \x7b low: " ++ toString low.toNat ++
        ", high: " ++ toString high.toNat ++ " \x7d"

end ByteTest

end Abnf

------------------------------------------------------------
-- The Test Of A Set
------------------------------------------------------------

namespace Abnf

namespace CharSet

/- The members as bytes in ascending order. -/
def bytes
    (s : CharSet) : List UInt8 :=
  s.codes.map UInt8.ofNat

/-
  The cheapest test for a set: by the number of its members,
  none, one, two or three, or more.
-/
def test
    (s : CharSet) : ByteTest :=
  match s.size with
  | 0 => .never
  | 1 => .eq (s.bytes.headD 0)
  | 2 | 3 => .oneOf s.bytes
  | _ => .mask s.low s.high

end CharSet

end Abnf
