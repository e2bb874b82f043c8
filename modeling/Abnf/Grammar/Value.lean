import Abnf.Grammar.Error

/-
  What the smallest parts of a grammar text stand for:
  definition signs, counts, quoted texts, character numbers
  and rule names in angle brackets.

  Key definitions include:
    * `Abnf.Grammar.isIncremental`
    * `Abnf.Grammar.readRepeat`
    * `Abnf.Grammar.readCharVal`
    * `Abnf.Grammar.readNumVal`
    * `Abnf.Grammar.readProseVal`
-/

------------------------------------------------------------
-- Definition Signs
------------------------------------------------------------

namespace Abnf

namespace Grammar

/-
  The first equals sign outside comments has a slash behind
  it. A comment runs from a semicolon to the line feed.
-/
def isIncrementalWithin
    (inComment : Bool) :
    List Char → Bool
  | [] => false
  | c :: rest =>
      if c = ';' then
        isIncrementalWithin true rest
      else if c = '\n' then
        isIncrementalWithin false rest
      else if c = '=' && !inComment then
        rest.head? == some '/'
      else
        isIncrementalWithin inComment rest

/- The sign adds alternatives to a rule. -/
def isIncremental
    (text : List Char) : Bool :=
  isIncrementalWithin false text

end Grammar

end Abnf

------------------------------------------------------------
-- Numbers
------------------------------------------------------------

namespace Abnf

namespace Grammar

/- The value of a digit, of either letter case. -/
def digitValue?
    (base : Nat)
    (c : Char) : Option Nat :=
  let value? :=
    if '0' ≤ c ∧ c ≤ '9' then
      some (c.toNat - '0'.toNat)
    else if 'A' ≤ c ∧ c ≤ 'Z' then
      some (c.toNat - 'A'.toNat + 10)
    else if 'a' ≤ c ∧ c ≤ 'z' then
      some (c.toNat - 'a'.toNat + 10)
    else
      none
  value?.filter (· < base)

/- The value of some digits after a value already read. -/
def digitsValue?
    (base : Nat) :
    Nat → List Char → Option Nat
  | value, [] => some value
  | value, c :: rest =>
      match digitValue? base c with
      | some d => digitsValue? base (value * base + d) rest
      | none => none

/- The value of one digit or more, if below a limit. -/
def numberBelow?
    (limit base : Nat)
    (digits : List Char) : Option Nat :=
  if digits.isEmpty then
    none
  else
    (digitsValue? base 0 digits).filter (· < limit)

/- The error for digits that are no proper number. -/
def invalidNumber
    (digits : List Char) : ReadError :=
  .invalidNumber (String.ofList digits)

end Grammar

end Abnf

------------------------------------------------------------
-- Counts
------------------------------------------------------------

namespace Abnf

namespace Grammar

/- Counts stay below this limit. -/
def countLimit : Nat := 1 <<< 64

/- A count of copies; without digits there is none. -/
def readCount
    (digits : List Char) :
    Except ReadError (Option Nat) :=
  if digits.isEmpty then
    .ok none
  else
    match numberBelow? countLimit 10 digits with
    | some count => .ok (some count)
    | none => .error (invalidNumber digits)

/-
  The bounds of a repetition. A bare count is both bounds;
  around a `*` a bound may be left out.
-/
def readRepeat
    (text : List Char) :
    Except ReadError (Nat × Option Nat) :=
  match text.span (· != '*') with
  | (before, _ :: behind) => do
      let min ← readCount before
      let max ← readCount behind
      return (min.getD 0, max)
  | (before, []) => do
      match ← readCount before with
      | some count => return (count, some count)
      | none => throw (.internal "empty repeat")

end Grammar

end Abnf

------------------------------------------------------------
-- Quoted Texts
------------------------------------------------------------

namespace Abnf

namespace Grammar

/- A series of one part is that part. -/
def seriesOf
    (parts : List Element) : Element :=
  Element.collapse .concatenation parts

/- The set of one character, in both cases if asked for. -/
def readQuotedChar
    (sensitive : Bool)
    (c : Char) : Except CharSetError CharSet :=
  if !sensitive && c.isAlpha then
    return (← CharSet.ofChar c.toLower) ∪
      (← CharSet.ofChar c.toUpper)
  else
    CharSet.ofChar c

/- The characters between a first and a last one. -/
def inner
    (text : List Char) : List Char :=
  (text.drop 1).dropLast

/-
  The mark and the quoted rest of a text: letter case counts
  after `%s` only.
-/
def readMark : List Char → Bool × List Char
  | '%' :: c :: rest => (c == 's' || c == 'S', rest)
  | ['%'] => (false, [])
  | text => (false, text)

/- A quoted text as the series of its characters. -/
def readCharVal
    (text : List Char) : Except ReadError Element := do
  let (sensitive, quoted) := readMark text
  if quoted.length < 2 then
    throw (.internal "unterminated quoted string")
  let sets ← ReadError.liftCharSet
    ((inner quoted).mapM (readQuotedChar sensitive))
  match sets with
  | [] => return .empty
  | sets => return seriesOf (sets.map .terminal)

end Grammar

end Abnf

------------------------------------------------------------
-- Character Numbers
------------------------------------------------------------

namespace Abnf

namespace Grammar

/- Character numbers stay below this limit. -/
def codeLimit : Nat := 1 <<< 32

/- The ASCII character of a number. -/
def readCode
    (base : Nat)
    (digits : List Char) : Except ReadError Char :=
  match numberBelow? codeLimit base digits with
  | none => .error (invalidNumber digits)
  | some code =>
      if code.isValidChar then do
        let _ ← ReadError.liftCharSet
          (CharSet.ofChar (Char.ofNat code))
        return Char.ofNat code
      else
        .error (invalidNumber digits)

/- The set of the one character of a number. -/
def readCodeSet
    (base : Nat)
    (digits : List Char) : Except ReadError CharSet := do
  let c ← readCode base digits
  ReadError.liftCharSet (CharSet.ofChar c)

/- Cut a text at each dot. -/
def splitDots
    (text : List Char) : List (List Char) :=
  text.foldr
    (fun c pieces =>
      if c = '.' then
        [] :: pieces
      else
        match pieces with
        | piece :: rest => (c :: piece) :: rest
        | [] => [[c]])
    [[]]

/-
  A character number, a range of two, or a series, behind
  the letter for the base.
-/
def readNumVal
    (base : Nat)
    (text : List Char) : Except ReadError Element :=
  match (text.drop 1).span (· != '-') with
  | (before, _ :: behind) => do
      let first ← readCode base before
      let last ← readCode base behind
      if last < first then
        throw (.invalidRange (String.ofList text))
      return .terminal (CharSet.ofRange first last)
  | (digits, []) => do
      let sets ←
        (splitDots digits).mapM (readCodeSet base)
      return seriesOf (sets.map .terminal)

end Grammar

end Abnf

------------------------------------------------------------
-- Names In Angle Brackets
------------------------------------------------------------

namespace Abnf

namespace Grammar

/- Drop the blanks on both sides. -/
def trimBlanks
    (text : List Char) : List Char :=
  ((text.dropWhile (· == ' ')).reverse.dropWhile
    (· == ' ')).reverse

/-
  A rule name in angle brackets. Blanks around the name do
  not count.
-/
def readProseVal
    (text : List Char) : Except ReadError Element := do
  if text.length < 2 then
    throw (.internal "unterminated prose value")
  ReadError.liftElement
    (Element.checkedRuleName
      (String.ofList (trimBlanks (inner text))))

end Grammar

end Abnf
