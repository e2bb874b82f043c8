import Abnf.Scope

/-
  References from rule to rule.

  `explore` walks references depth first and from left to
  right, and expands each name once. What it meets on the
  way is a list of references, one for each name, in the
  order in which the names are first met. `references` asks
  that all of them be defined.

  Key definitions include:
    * `Abnf.Element.names`
    * `Abnf.Reference`
    * `Abnf.ReferenceError`
    * `Abnf.Scope.explore`
    * `Abnf.Scope.references`
-/

------------------------------------------------------------
-- References
------------------------------------------------------------

namespace Abnf

namespace Element

mutual

/- The rule names of an element from left to right. -/
def names : Element → List String
  | ruleName name => [name]
  | terminal _ => []
  | repetition _ _ body => names body
  | concatenation parts => namesOfAll parts
  | alternation parts => namesOfAll parts

/- The rule names of a list of elements. -/
def namesOfAll : List Element → List String
  | [] => []
  | part :: parts => names part ++ namesOfAll parts

end

end Element

/- A name and the rule whose element holds it. -/
structure Reference where
  name : String
  referrer : String
deriving DecidableEq, Inhabited

/- The references of a rule from left to right. -/
def Rule.references
    (rule : Rule) : List Reference :=
  rule.element.names.map (⟨·, rule.name⟩)

/- Why the references of a grammar cannot be used. -/
inductive ReferenceError where
  /- No rule has the name. -/
  | undefinedRule (name referrer : String)
  /- The rule calls itself before it takes any input. -/
  | leftRecursion (name : String)
deriving DecidableEq, Inhabited

/- The text that reports the error. -/
def ReferenceError.message : ReferenceError → String
  | undefinedRule name referrer =>
      "Rule \"" ++ referrer ++
        "\" references undefined rule \"" ++ name ++ "\""
  | leftRecursion name =>
      "Rule \"" ++ name ++
        "\" can reach itself without consuming input"

end Abnf

------------------------------------------------------------
-- Exploration
------------------------------------------------------------

namespace Abnf

namespace Scope

/- Some reference of a list has the name. -/
def met
    (seen : List Reference)
    (name : String) : Bool :=
  seen.any (·.name == name)

/-
  Take references off a list until one is found that is new
  and stands for a rule. Then `expand` goes on with the
  references of that rule in front. `seen` holds the latest
  reference first.
-/
def drain
    (scope : Scope)
    (next : Rule → List Reference)
    (expand :
      List Reference → List Reference → List Reference) :
    List Reference → List Reference → List Reference
  | [], seen => seen
  | ref :: rest, seen =>
      if met seen ref.name then
        drain scope next expand rest seen
      else
        match scope.find? ref.name with
        | none =>
            drain scope next expand rest (ref :: seen)
        | some rule =>
            expand (next rule ++ rest) (ref :: seen)

/- Follow references, with at most `limit` expansions. -/
def exploreWithin
    (scope : Scope)
    (next : Rule → List Reference) :
    Nat → List Reference → List Reference →
      List Reference
  | 0 =>
      drain scope next (fun _ seen => seen)
  | limit + 1 =>
      drain scope next (exploreWithin scope next limit)

/-
  Every reference met from some first ones on, in the order
  of their first meeting. There are no more expansions than
  there are rules, since a name is expanded once.
-/
def explore
    (scope : Scope)
    (next : Rule → List Reference)
    (start : List Reference) : List Reference :=
  (exploreWithin scope next
    (scope.own.length + scope.core.length) start []).reverse

/-
  The names that some rules reach by references. The first
  name without a rule is reported.
-/
def references
    (scope : Scope)
    (rules : List Rule) :
    Except ReferenceError (List String) :=
  let reached :=
    scope.explore Rule.references
      (rules.flatMap Rule.references)
  match reached.find? (fun r => (scope.find? r.name).isNone) with
  | some ref =>
      .error (.undefinedRule ref.name ref.referrer)
  | none => .ok (reached.map (·.name))

end Scope

end Abnf
