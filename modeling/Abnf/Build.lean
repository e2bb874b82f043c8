import Abnf.Grammar
import Abnf.Source.Writer

/-
  Parsers made from grammar texts.

  Key definitions include:
    * `Abnf.BuildError`
    * `Abnf.Build.program`
    * `Abnf.Build.source`
    * `Abnf.Build.programNoting`
    * `Abnf.Build.sourceNoting`
-/

------------------------------------------------------------
-- Errors
------------------------------------------------------------

namespace Abnf

/- Why no parser can be made from a grammar text. -/
inductive BuildError where
  /- The text cannot be read. -/
  | read (cause : ReadError)
  /- The rules make no parser. -/
  | generation (cause : GenerationError)
deriving DecidableEq, Inhabited

namespace BuildError

/- The text that reports the error. -/
def message : BuildError → String
  | read cause =>
      "Failed to compile grammar: " ++ cause.message
  | generation cause =>
      "Failed to generate parser: " ++ cause.message

/- The texts of the errors behind the error. -/
def causes : BuildError → List String
  | read cause => cause.message :: cause.causes
  | generation cause => cause.message :: cause.causes

end BuildError

end Abnf

------------------------------------------------------------
-- Building
------------------------------------------------------------

namespace Abnf

namespace Build

/- Read a grammar text and make something of its rules. -/
def ofText
    {α : Type}
    (make : List Rule → Except GenerationError α)
    (text : String) : Except BuildError α :=
  match Grammar.read text with
  | .error cause => .error (.read cause)
  | .ok rules =>
      match make rules with
      | .error cause => .error (.generation cause)
      | .ok made => .ok made

/- The program of a grammar text. -/
def program
    (text : String) : Except BuildError Program :=
  ofText Program.ofRules text

/- The source text of a parser for a grammar text. -/
def source
    (name : String)
    (doc : Option String)
    (text : String) : Except BuildError String :=
  ofText (Source.ofRules name doc) text

end Build

end Abnf

------------------------------------------------------------
-- Notes
------------------------------------------------------------

namespace Abnf

namespace Build

/- The notes on a table for some rules, if there is one. -/
def tableNotes
    (accepted : List Entry → Bool)
    (rules : List Rule) : List Note :=
  match Entry.select Rule.normalize rules with
  | .error _ => []
  | .ok entries => Entry.notes (accepted entries) entries

/- The identifiers of a table do not clash. -/
def isDeclarable
    (entries : List Entry) : Bool :=
  match (Source.identify [] (entries.map (·.rule.name))).2 with
  | .ok _ => true
  | .error _ => false

/- The notes on reading a text and using its rules. -/
def notes
    (later : List Rule → List Note)
    (text : String) : List Note :=
  match Grammar.readNoting text 0 with
  | (.error _, taken) => taken
  | (.ok rules, taken) => taken ++ later rules

/- The program of a grammar text, with the notes taken. -/
def programNoting
    (text : String) :
    Except BuildError Program × List Note :=
  (program text, notes (tableNotes (fun _ => true)) text)

/- The source text of a parser, with the notes taken. -/
def sourceNoting
    (name : String)
    (doc : Option String)
    (text : String) :
    Except BuildError String × List Note :=
  (source name doc text,
   notes
     (fun rules =>
       if Source.isIdentifier name then
         tableNotes isDeclarable rules
       else
         [])
     text)

end Build

end Abnf
