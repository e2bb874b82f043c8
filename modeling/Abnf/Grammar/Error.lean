import Abnf.Routine
import Abnf.Text.Lines

/-
  Why a grammar text cannot be read.

  Key definitions include:
    * `Abnf.ReadError`
    * `Abnf.ReadError.message`
    * `Abnf.ReadError.causes`
-/

------------------------------------------------------------
-- Errors
------------------------------------------------------------

namespace Abnf

/- Why a grammar text cannot be read. -/
inductive ReadError where
  /- Nothing matches the text beyond an offset. -/
  | incomplete (index : Nat) (place : Text.Position)
  /- A rule is defined a second time. -/
  | redefinition (name : String)
  /- A rule is extended that is not defined. -/
  | undefinedIncremental (name : String)
  /- An element is not well formed. -/
  | element (cause : ElementError)
  /- A character lies outside the ASCII table. -/
  | charSet (cause : CharSetError)
  /- A range of characters ends before it starts. -/
  | invalidRange (value : String)
  /- A number is too large or no character. -/
  | invalidNumber (value : String)
  /- The grammar of grammars has no parser. -/
  | bootstrap (cause : GenerationError)
  /- The events of a parse do not fit together. -/
  | internal (fault : String)
deriving DecidableEq, Inhabited

namespace ReadError

/- The text that reports the error. -/
def message : ReadError → String
  | incomplete index place =>
      "Failed to parse grammar beyond index " ++
        toString index ++ " (" ++ toString place.line ++
        ":" ++ toString place.column ++ ")"
  | redefinition name =>
      "Invalid redefinition of existing rule \"" ++
        name ++ "\""
  | undefinedIncremental name =>
      "Invalid incremental alternative for unknown rule \"" ++
        name ++ "\""
  | element cause => "Invalid element: " ++ cause.message
  | charSet cause =>
      "Invalid character value: " ++ cause.message
  | invalidRange value =>
      "Invalid character range \"%" ++ value ++
        "\": start exceeds end"
  | invalidNumber value =>
      "Invalid numeric value \"" ++ value ++ "\""
  | bootstrap cause =>
      "Failed to build the ABNF parser: " ++ cause.message
  | internal fault =>
      "Internal compiler error: " ++ fault

/- The texts of the errors behind the error. -/
def causes : ReadError → List String
  | element cause => [cause.message]
  | charSet cause => [cause.message]
  | bootstrap cause => cause.message :: cause.causes
  | _ => []

/- An element that is not well formed. -/
def liftElement
    {α : Type} :
    Except ElementError α → Except ReadError α
  | .ok a => .ok a
  | .error cause => .error (.element cause)

/- A character outside the table. -/
def liftCharSet
    {α : Type} :
    Except CharSetError α → Except ReadError α
  | .ok a => .ok a
  | .error cause => .error (.charSet cause)

end ReadError

end Abnf
