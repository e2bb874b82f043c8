import Abnf.Routine
import Abnf.Trace

/-
  Programs: tables of routines that can be run on a text.

  Matching commits: a choice takes its first part that
  matches, and an iteration takes as many copies as there
  are. A copy that takes no input ends an iteration and
  makes up for all copies that are still due.

  The run of a node is given by recursion on the node, with
  the runs of routines as a parameter. `invoke` ties the
  knot; it allows for a number of open calls that no program
  made from accepted rules exceeds.

  Key definitions include:
    * `Abnf.Node.run`
    * `Abnf.Node.runCopies`
    * `Abnf.Program`
    * `Abnf.Program.invoke`
    * `Abnf.Program.run`
    * `Abnf.Program.ofRules`
-/

------------------------------------------------------------
-- Iteration
------------------------------------------------------------

namespace Abnf

namespace Node

/- The end of an iteration, after a number of copies. -/
def endCopies
    (min count index : Nat) : Outcome :=
  if count < min then .failed else .matched index

/- An iteration has reached its limit. -/
def atLimit
    (max : Option Nat)
    (count : Nat) : Bool :=
  max.any (· ≤ count)

/-
  Go on with an iteration after `count` copies. Every copy
  but the last takes input, so the allowance of copies is
  never used up when it is above the number of bytes left.
-/
def runCopies
    (step : Nat → Run)
    (min : Nat)
    (max : Option Nat) :
    Nat → Nat → Nat → Run
  | 0, _, _ => .quiet .tooDeep
  | allowance + 1, count, index =>
      if atLimit max count then
        .quiet (endCopies min count index)
      else
        let copy := step index
        match copy.outcome with
        | .matched next =>
            if next = index then
              ⟨copy.calls,
               endCopies min (Nat.max count min) index⟩
            else
              .after copy.calls
                (runCopies step min max
                  allowance (count + 1) next)
        | .failed =>
            ⟨copy.calls, endCopies min count index⟩
        | _ => copy

end Node

end Abnf

------------------------------------------------------------
-- Nodes
------------------------------------------------------------

namespace Abnf

namespace Node

/- Match one byte at an offset. -/
def runTerminal
    (input : Array UInt8)
    (test : ByteTest)
    (index : Nat) : Outcome :=
  match input[index]? with
  | some b =>
      if test.accepts b then
        .matched (index + 1)
      else
        .failed
  | none => .failed

mutual

/-
  The run of a node at an offset, given the runs of the
  routines that it calls.
-/
def run
    (input : Array UInt8)
    (callee : Nat → Nat → Run) :
    Node → Nat → Run
  | empty, index => .quiet (.matched index)
  | terminal test, index =>
      .quiet (runTerminal input test index)
  | call routine forward, index =>
      if forward then
        callee routine index
      else
        (callee routine index).silent
  | sequence parts, index =>
      runSequence input callee parts index
  | choice parts, index =>
      runChoice input callee parts index
  | iterate min max body, index =>
      runCopies (fun i => run input callee body i) min max
        (input.size - index + 1) 0 index

/- The run of some nodes one after the other. -/
def runSequence
    (input : Array UInt8)
    (callee : Nat → Nat → Run) :
    List Node → Nat → Run
  | [], index => .quiet (.matched index)
  | part :: parts, index =>
      (run input callee part index).andThen
        (fun next => runSequence input callee parts next)

/- The run of the first of some nodes that matches. -/
def runChoice
    (input : Array UInt8)
    (callee : Nat → Nat → Run) :
    List Node → Nat → Run
  | [], _ => .quiet .failed
  | part :: parts, index =>
      (run input callee part index).orElse
        (fun _ => runChoice input callee parts index)

end

end Node

end Abnf

------------------------------------------------------------
-- Programs
------------------------------------------------------------

namespace Abnf

/- A named body. -/
structure Procedure where
  name : String
  isPublic : Bool
  body : Node
deriving Inhabited

/- A table of routines that can be run. -/
structure Program where
  procedures : List Procedure
deriving Inhabited

namespace Program

/-
  The run of a routine with at most `depth` calls open at
  once. Public routines report; whatever a private routine
  calls stays unreported.
-/
def invoke
    (program : Program)
    (input : Array UInt8) :
    Nat → Nat → Nat → Run
  | 0, _, _ => .quiet .tooDeep
  | depth + 1, index, start =>
      match program.procedures[index]? with
      | none => .quiet (.noRoutine index)
      | some procedure =>
          let body :=
            procedure.body.run input
              (invoke program input depth) start
          if procedure.isPublic then
            body.reported procedure.name start
          else
            body.silent

/-
  The number of calls that can be open at once when no
  routine calls itself without input in between: each
  routine once for each offset.
-/
def depthLimit
    (program : Program)
    (input : Array UInt8)
    (start : Nat) : Nat :=
  program.procedures.length * (input.size - start + 1)

/- The reported run of a routine at an offset. -/
def trace
    (program : Program)
    (entry : Nat)
    (input : Array UInt8)
    (start : Nat) : Run :=
  program.invoke input
    (program.depthLimit input start) entry start

/- The outcome of a routine at an offset. -/
def run
    (program : Program)
    (entry : Nat)
    (input : Array UInt8)
    (start : Nat) : Outcome :=
  (program.trace entry input start).outcome

/- The routine matches the whole text. -/
def matchesFully
    (program : Program)
    (entry : Nat)
    (input : Array UInt8) : Bool :=
  program.run entry input 0 == .matched input.size

/- The names of the public routines in order. -/
def ruleNames
    (program : Program) : List String :=
  (program.procedures.filter (·.isPublic)).map (·.name)

/- The last public routine of a name, counted from `index`. -/
def lastPublic?
    (name : String) :
    Nat → List Procedure → Option Nat
  | _, [] => none
  | index, procedure :: rest =>
      match lastPublic? name (index + 1) rest with
      | some later => some later
      | none =>
          if procedure.isPublic && procedure.name == name then
            some index
          else
            none

/- The public routine of a name. -/
def entry?
    (program : Program)
    (name : String) : Option Nat :=
  lastPublic? name 0 program.procedures

/- A table whose bodies are still to come. -/
def declared
    (table : List Declaration) : Program :=
  ⟨table.map (fun d => ⟨d.name, d.isPublic, .empty⟩)⟩

/- There is a routine of the index. -/
def hasRoutine
    (program : Program)
    (index : Nat) : Bool :=
  index < program.procedures.length

/- Give the routine of an index its body. -/
def withBody
    (program : Program)
    (index : Nat)
    (body : Node) : Program :=
  ⟨program.procedures.modify index
    (fun procedure => { procedure with body })⟩

/- The program of a table of routines. -/
def ofRoutines
    (routines : List Routine) : Program :=
  ⟨routines.map
    (fun routine =>
      ⟨routine.rule.name, routine.isPublic, routine.body⟩)⟩

/- The program of some rules after a simplification. -/
def ofRulesWith
    (simplify : Rule → Rule)
    (rules : List Rule) :
    Except GenerationError Program := do
  return ofRoutines (← Routine.table simplify rules)

/- The program of some rules. -/
def ofRules
    (rules : List Rule) :
    Except GenerationError Program :=
  ofRulesWith Rule.normalize rules

end Program

end Abnf
