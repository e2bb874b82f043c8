import Abnf.CoreRules

/-
  Scopes: the rules that a name can stand for.

  A scope holds the rules of a grammar and the core rules
  beside it. A rule of the grammar hides a core rule of its
  name, and of several rules with one name the last one
  counts.

  Key definitions include:
    * `Abnf.Scope`
    * `Abnf.Scope.find?`
    * `Abnf.Scope.rules`
    * `Abnf.Scope.keepsCore`
    * `Abnf.Scope.inEffect`
-/

------------------------------------------------------------
-- Scopes
------------------------------------------------------------

namespace Abnf

/- The rules that a name can stand for. -/
structure Scope where
  /- The rules of the grammar. -/
  own : List Rule
  /- The rules that the grammar can use besides. -/
  core : List Rule
deriving Inhabited

namespace Scope

/- The last rule of a name in a list. -/
def lastNamed?
    (rules : List Rule)
    (name : String) : Option Rule :=
  (rules.filter (·.name == name)).getLast?

/- The rule that a name stands for. -/
def find?
    (scope : Scope)
    (name : String) : Option Rule :=
  match lastNamed? scope.own name with
  | some rule => some rule
  | none => lastNamed? scope.core name

/- A list has a rule of the name. -/
def hasName
    (rules : List Rule)
    (name : String) : Bool :=
  rules.any (·.name == name)

/-
  For each rule of a list, whether it is the last one of its
  name.
-/
def inEffect : List Rule → List Bool
  | [] => []
  | rule :: rest =>
      (!hasName rest rule.name) :: inEffect rest

/- The rules of a list that are the last of their names. -/
def lastOfNames : List Rule → List Rule
  | [] => []
  | rule :: rest =>
      if hasName rest rule.name then
        lastOfNames rest
      else
        rule :: lastOfNames rest

/-
  A core rule is in use when the scope has it and no rule of
  the grammar hides it.
-/
def keepsCore
    (scope : Scope)
    (rule : Rule) : Bool :=
  hasName scope.core rule.name &&
    !hasName scope.own rule.name

/- The rules that some name stands for, one for each name. -/
def rules
    (scope : Scope) : List Rule :=
  lastOfNames scope.own ++
    (lastOfNames scope.core).filter scope.keepsCore

end Scope

end Abnf
