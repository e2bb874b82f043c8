import Abnf.Text.Literal

/-
  Sets of ASCII characters.

  A set is held as two masks of 64 bits, one for each half
  of the ASCII table. Membership, given by `contains`, is
  the view through which the other operations are read:
  `hasCode_ofSpan` and `hasCode_union` say what the
  operations do to it, and `codes` lists it in ascending
  order.

  Key definitions include:
    * `Abnf.CharSet`
    * `Abnf.CharSet.hasCode`
    * `Abnf.CharSet.contains`
    * `Abnf.CharSet.ofRange`
    * `Abnf.CharSet.ofChar`
    * `Abnf.CharSet.ofChars`
    * `Abnf.CharSet.union`
    * `Abnf.CharSet.codes`
    * `Abnf.CharSet.runs`
    * `Abnf.CharSet.describe`
-/

------------------------------------------------------------
-- Masks
------------------------------------------------------------

namespace Abnf

/-
  A set of ASCII characters. Bit `i` of `low` stands for the
  code `i`, bit `i` of `high` for the code `64 + i`.
-/
structure CharSet where
  low : BitVec 64
  high : BitVec 64
deriving DecidableEq

namespace CharSet

/- The number of codes in the ASCII table. -/
def tableSize : Nat := 128

/- The set without members. -/
def empty : CharSet :=
  ⟨0, 0⟩

instance : Inhabited CharSet :=
  ⟨empty⟩

/- The mask whose bits below `n` are set. -/
def bitsBelow
    (n : Nat) : BitVec 64 :=
  BitVec.allOnes 64 >>> (64 - n)

/-
  The set of codes from `first` up to, but without, `stop`.
  Codes outside the ASCII table are dropped.
-/
def ofSpan
    (first stop : Nat) : CharSet :=
  ⟨bitsBelow stop ^^^ bitsBelow first,
   bitsBelow (stop - 64) ^^^ bitsBelow (first - 64)⟩

/-
  The characters from `first` to `last`, both included. A
  reversed range is empty.
-/
def ofRange
    (first last : Char) : CharSet :=
  if first ≤ last then
    ofSpan first.toNat (last.toNat + 1)
  else
    empty

/- Membership of a code. -/
def hasCode
    (s : CharSet)
    (code : Nat) : Bool :=
  if code < 64 then s.low.getLsbD code
  else if code < tableSize then s.high.getLsbD (code - 64)
  else false

/- Membership of a character. -/
def contains
    (s : CharSet)
    (c : Char) : Bool :=
  s.hasCode c.toNat

/- Membership of a byte of a text. -/
def containsByte
    (s : CharSet)
    (b : UInt8) : Bool :=
  s.hasCode b.toNat

/- The members of either set. -/
def union
    (s t : CharSet) : CharSet :=
  ⟨s.low ||| t.low, s.high ||| t.high⟩

instance : Union CharSet :=
  ⟨union⟩

/- The set has no members. -/
def isEmpty
    (s : CharSet) : Bool :=
  s.low == 0 && s.high == 0

end CharSet

end Abnf

------------------------------------------------------------
-- Characters Outside The Table
------------------------------------------------------------

namespace Abnf

/- Why a set of characters cannot be built. -/
inductive CharSetError where
  /- The character lies outside the ASCII table. -/
  | nonAscii (c : Char)
deriving DecidableEq, Inhabited

namespace CharSetError

/- The text that reports the error. -/
def message : CharSetError → String
  | nonAscii c =>
      "Character " ++ Text.charLiteral c ++ " (U+" ++
        Text.hexUpper 4 c.toNat ++
        ") is outside the ASCII range"

end CharSetError

namespace CharSet

/- The set of one character. -/
def ofChar
    (c : Char) : Except CharSetError CharSet :=
  if c.toNat < tableSize then
    .ok (ofSpan c.toNat (c.toNat + 1))
  else
    .error (.nonAscii c)

/-
  The set of some characters. The first one outside the
  table is reported.
-/
def ofChars
    (cs : List Char) : Except CharSetError CharSet :=
  cs.foldlM (fun s c => return s ∪ (← ofChar c)) empty

end CharSet

end Abnf

------------------------------------------------------------
-- Members In Order
------------------------------------------------------------

namespace Abnf

namespace CharSet

/- The codes of the members in ascending order. -/
def codes
    (s : CharSet) : List Nat :=
  (List.range tableSize).filter s.hasCode

/- The number of bits set in a mask. -/
def bitCount
    (mask : BitVec 64) : Nat :=
  (List.range 64).countP (mask.getLsbD ·)

/- The number of members. -/
def size
    (s : CharSet) : Nat :=
  bitCount s.low + bitCount s.high

/-
  Put a code in front of the runs of the codes above it: it
  extends the first run when it is the code just before it.
-/
def consRun
    (code : Nat) :
    List (Nat × Nat) → List (Nat × Nat)
  | (first, last) :: rest =>
      if code + 1 = first then
        (code, last) :: rest
      else
        (code, code) :: (first, last) :: rest
  | [] => [(code, code)]

/-
  The maximal runs of members in ascending order, each with
  its first and last code.
-/
def runs
    (s : CharSet) : List (Nat × Nat) :=
  s.codes.foldr consRun []

/-
  The members, if there are any, are the codes from the
  least of them on, as many as there are members.
-/
def isSingleRun
    (s : CharSet) : Bool :=
  match s.codes.head? with
  | none => true
  | some first => s = ofSpan first (first + s.size)

/- One run as character literals. -/
def describeRun
    (run : Nat × Nat) : String :=
  let first := Text.charLiteral (Char.ofNat run.1)
  let last := Text.charLiteral (Char.ofNat run.2)
  if run.1 = run.2 then first else first ++ "-" ++ last

/- A set as the list of its runs, for people to read. -/
def describe
    (s : CharSet) : String :=
  "CharSet[" ++
    ", ".intercalate (s.runs.map describeRun) ++ "]"

end CharSet

end Abnf

------------------------------------------------------------
-- Membership Laws
------------------------------------------------------------

namespace Abnf

namespace CharSet

/- The bits of `bitsBelow n` are those below `n`. -/
theorem getLsbD_bitsBelow
    (n i : Nat)
    (hi : i < 64) :
    (bitsBelow n).getLsbD i = decide (i < n) := by
  rw [bitsBelow, BitVec.getLsbD_ushiftRight,
    BitVec.getLsbD_allOnes]
  congr 1
  simp only [eq_iff_iff]
  omega

/- The empty set has no members. -/
@[simp]
theorem hasCode_empty
    (code : Nat) :
    empty.hasCode code = false := by
  simp [hasCode, empty]

/- A union has the members of both sides. -/
@[simp]
theorem hasCode_union
    (s t : CharSet)
    (code : Nat) :
    (s ∪ t).hasCode code =
      (s.hasCode code || t.hasCode code) := by
  change (union s t).hasCode code = _
  unfold hasCode union
  split
  · simp
  · split <;> simp

/- A span has the codes of the table between its ends. -/
theorem hasCode_ofSpan
    {first stop : Nat}
    (h : first ≤ stop)
    (code : Nat) :
    (ofSpan first stop).hasCode code =
      decide (first ≤ code ∧ code < stop ∧
        code < tableSize) := by
  have hXor :
      (decide (code < stop) ^^ decide (code < first)) =
        decide (first ≤ code ∧ code < stop) := by
    by_cases h1 : code < stop <;>
      by_cases h2 : code < first <;>
      simp [h1, h2] <;> omega
  unfold hasCode ofSpan
  split
  · rename_i hLow
    rw [BitVec.getLsbD_xor, getLsbD_bitsBelow _ _ hLow,
      getLsbD_bitsBelow _ _ hLow, hXor]
    congr 1
    simp only [tableSize, eq_iff_iff]
    omega
  · split
    · rename_i hHigh hTable
      have hBit : code - 64 < 64 := by
        simp only [tableSize] at hTable
        omega
      rw [BitVec.getLsbD_xor, getLsbD_bitsBelow _ _ hBit,
        getLsbD_bitsBelow _ _ hBit]
      have hShift :
          ∀ n, decide (code - 64 < n - 64) =
            decide (code < n) := by
        intro n
        congr 1
        simp only [eq_iff_iff]
        omega
      rw [hShift, hShift, hXor]
      congr 1
      simp only [eq_iff_iff]
      omega
    · rename_i hTable
      simp
      omega

end CharSet

end Abnf
