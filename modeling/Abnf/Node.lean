import Abnf.CharSet.Test

/-
  Nodes: elements in a form that can be run.

  In a node, names have become indices into a table of
  routines, and sets of characters have become tests on one
  byte.

  Key definitions include:
    * `Abnf.Node`
    * `Abnf.Node.describe`
-/

------------------------------------------------------------
-- Nodes
------------------------------------------------------------

namespace Abnf

/- An element in a form that can be run. -/
inductive Node where
  /- Match the empty text. -/
  | empty
  /- Match one byte. -/
  | terminal (test : ByteTest)
  /-
    Match what a routine matches. With `forward`, what the
    routine reports is passed on.
  -/
  | call (routine : Nat) (forward : Bool)
  /- Match the parts one after the other. -/
  | sequence (parts : List Node)
  /- Match the first part that matches. -/
  | choice (parts : List Node)
  /- Match the body from `min` to `max` times. -/
  | iterate
      (min : Nat)
      (max : Option Nat)
      (body : Node)
deriving Inhabited

namespace Node

/- A truth value as a word. -/
def describeBool
    (b : Bool) : String :=
  if b then "true" else "false"

/- A limit as a term. -/
def describeMax : Option Nat → String
  | none => "None"
  | some max => "Some(" ++ toString max ++ ")"

mutual

/- A node as a term, for people to read. -/
def describe : Node → String
  | empty => "Empty"
  | terminal test => "Terminal(" ++ test.describe ++ ")"
  | call routine forward =>
      "Call \x7b routine: " ++ toString routine ++
        ", forward_listener: " ++ describeBool forward ++
        " \x7d"
  | sequence parts =>
      "Sequence([" ++
        ", ".intercalate (describeAll parts) ++ "])"
  | choice parts =>
      "Choice([" ++
        ", ".intercalate (describeAll parts) ++ "])"
  | iterate min max body =>
      "Repeat \x7b min: " ++ toString min ++
        ", max: " ++ describeMax max ++
        ", body: " ++ describe body ++ " \x7d"

/- The nodes of a list as terms. -/
def describeAll : List Node → List String
  | [] => []
  | part :: parts => describe part :: describeAll parts

end

end Node

end Abnf
