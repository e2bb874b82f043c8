import Abnf.Grammar.Error
import Abnf.Log

/-
  Notes taken while a grammar is read and made into a
  parser.

  Key definitions include:
    * `Abnf.Note`
    * `Abnf.Note.record`
    * `Abnf.Entry.notes`
-/

------------------------------------------------------------
-- Notes
------------------------------------------------------------

namespace Abnf

/- A step worth a record. -/
inductive Note where
  /- A rule is complete. -/
  | assembled (rule : Rule)
  /- A rule has a further alternative. -/
  | extended (rule : Rule)
  /- A part of the grammar text is in error. -/
  | refused (part : String) (error : ReadError)
  /- The grammar text is read. -/
  | compiled (rules bytes : Nat)
  /- The routines of a parser are selected. -/
  | generating (requested core : Nat)
  /- The body of a routine is made. -/
  | lowering (rule : Rule)
deriving DecidableEq

namespace Note

/- The record of a note. -/
def record : Note → Record
  | assembled rule =>
      ⟨.debug, "Assembled rule " ++ rule.text⟩
  | extended rule =>
      ⟨.debug, "Extended rule " ++ rule.text⟩
  | refused part error =>
      ⟨.trace, "Recording compile error from " ++ part ++
        ": " ++ error.message⟩
  | compiled rules bytes =>
      ⟨.debug, "Compiled " ++ toString rules ++
        " rules from " ++ toString bytes ++ " bytes"⟩
  | generating requested core =>
      ⟨.debug, "Generating " ++
        toString (requested + core) ++ " routines (" ++
        toString requested ++ " requested, " ++
        toString core ++ " core)"⟩
  | lowering rule =>
      ⟨.trace, "Lowering " ++ rule.text⟩

end Note

namespace Entry

/-
  The notes on a table of selected entries. Bodies are made
  only when the declarations are accepted.
-/
def notes
    (accepted : Bool)
    (entries : List Entry) : List Note :=
  let requested := entries.countP (·.isPublic)
  .generating requested (entries.length - requested) ::
    if accepted then
      entries.map (.lowering ·.rule)
    else
      []

end Entry

end Abnf
