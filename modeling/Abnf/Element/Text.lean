import Abnf.Element

/-
  Elements in ABNF notation.

  Characters are always written as `%x` values, so the text
  is exact whatever is said about letter case. Parentheses
  stand around an element only where it would otherwise join
  its surroundings.

  Key definitions include:
    * `Abnf.CharSet.text`
    * `Abnf.Element.boundsText`
    * `Abnf.Element.text`
-/

------------------------------------------------------------
-- Terminals
------------------------------------------------------------

namespace Abnf

namespace CharSet

/- One run of characters as a `%x` value. -/
def runText
    (run : Nat × Nat) : String :=
  if run.1 = run.2 then
    "%x" ++ Text.hexUpper 2 run.1
  else
    "%x" ++ Text.hexUpper 2 run.1 ++ "-" ++
      Text.hexUpper 2 run.2

/-
  A set as the alternation of its runs. The empty set is the
  empty quoted text.
-/
def text
    (s : CharSet) : String :=
  if s.runs.isEmpty then
    "\"\""
  else
    " / ".intercalate (s.runs.map runText)

end CharSet

end Abnf

------------------------------------------------------------
-- Elements
------------------------------------------------------------

namespace Abnf

namespace Element

/- A text in parentheses, if it needs them. -/
def grouped
    (needed : Bool)
    (text : String) : String :=
  if needed then "(" ++ text ++ ")" else text

/- The element needs parentheses below a repetition. -/
def groupedInRepetition : Element → Bool
  | ruleName _ => false
  | terminal s => 1 < s.size && !s.isSingleRun
  | _ => true

/- The element needs parentheses in a concatenation. -/
def groupedInConcatenation : Element → Bool
  | alternation _ => true
  | terminal s => !s.isSingleRun
  | _ => false

/- The bounds of a repetition, as written before it. -/
def boundsText
    (min : Nat) :
    Option Nat → String
  | some max =>
      if min = max then
        toString min
      else if min = 0 then
        "*" ++ toString max
      else
        toString min ++ "*" ++ toString max
  | none =>
      if min = 0 then "*" else toString min ++ "*"

mutual

/- An element in ABNF notation. -/
def text : Element → String
  | ruleName name => name
  | terminal s => s.text
  | repetition min max body =>
      if min = 0 && max = some 1 then
        "[" ++ text body ++ "]"
      else
        boundsText min max ++
          grouped body.groupedInRepetition (text body)
  | concatenation parts =>
      " ".intercalate
        (List.zipWith grouped
          (parts.map groupedInConcatenation)
          (texts parts))
  | alternation parts =>
      " / ".intercalate (texts parts)

/- The elements of a list in ABNF notation. -/
def texts : List Element → List String
  | [] => []
  | part :: parts => text part :: texts parts

end

end Element

end Abnf
