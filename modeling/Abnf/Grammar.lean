import Abnf.Grammar.Assembly
import Abnf.Grammar.Rules

/-
  Reading grammar texts.

  Key definitions include:
    * `Abnf.Grammar.parse`
    * `Abnf.Grammar.assembly`
    * `Abnf.Grammar.readNoting`
    * `Abnf.Grammar.readFrom`
    * `Abnf.Grammar.read`
-/

------------------------------------------------------------
-- Reading
------------------------------------------------------------

namespace Abnf

namespace Grammar

/- The parse of a text from an offset. -/
def parse
    (input : Array UInt8)
    (start : Nat) : Except ReadError Run :=
  match program with
  | .error cause => .error (.bootstrap cause)
  | .ok program =>
      match program.entry? "rulelist" with
      | none => .error (.internal "no rulelist routine")
      | some entry => .ok (program.trace entry input start)

/- What the events of a parse make. -/
def assembly
    (input : Array UInt8)
    (start : Nat)
    (run : Run) : Assembly :=
  run.events.foldl (Assembly.observe input)
    (Assembly.begin start)

/-
  The rules of a grammar text from an offset on, in the
  order of their definition, with the notes taken.
-/
def readNoting
    (text : String)
    (start : Nat) :
    Except ReadError (List Rule) × List Note :=
  let input := Text.bytes text
  match parse input start with
  | .error error => (.error error, [])
  | .ok run =>
      let made := assembly input start run
      let taken := made.notes.reverse
      match made.finish input run.outcome with
      | .error error => (.error error, taken)
      | .ok rules =>
          (.ok rules,
           taken ++
             [.compiled rules.length (input.size - start)])

/- The rules of a grammar text from an offset on. -/
def readFrom
    (text : String)
    (start : Nat) : Except ReadError (List Rule) :=
  (readNoting text start).1

/- The rules of a grammar text. -/
def read
    (text : String) : Except ReadError (List Rule) :=
  readFrom text 0

end Grammar

end Abnf
