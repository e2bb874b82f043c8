import Abnf.Scope.References

/-
  Rules that reach themselves without taking input.

  A parser that calls a rule on the way into that rule, with
  nothing read in between, never returns. Which names can
  match the empty text is the least solution of
  `isNullable`; the calls that may come before any input are
  those of `leading`.

  Key definitions include:
    * `Abnf.Element.isNullable`
    * `Abnf.Element.leading`
    * `Abnf.Scope.nullable`
    * `Abnf.Scope.checkLeftRecursion`
-/

------------------------------------------------------------
-- Elements That Match The Empty Text
------------------------------------------------------------

namespace Abnf

namespace Element

mutual

/-
  The element can match the empty text, given the names that
  can.
-/
def isNullable
    (known : List String) :
    Element → Bool
  | ruleName name => known.contains name
  | terminal s => s.isEmpty
  | repetition min _ body =>
      min == 0 || isNullable known body
  | concatenation parts => allNullable known parts
  | alternation parts => anyNullable known parts

/- All elements of a list can match the empty text. -/
def allNullable
    (known : List String) :
    List Element → Bool
  | [] => true
  | part :: parts =>
      isNullable known part && allNullable known parts

/- Some element of a list can match the empty text. -/
def anyNullable
    (known : List String) :
    List Element → Bool
  | [] => false
  | part :: parts =>
      isNullable known part || anyNullable known parts

end

mutual

/-
  The names that an element may call before it takes any
  input, given the names that can match the empty text.
-/
def leading
    (known : List String) :
    Element → List String
  | ruleName name => [name]
  | terminal _ => []
  | repetition _ max body =>
      if max = some 0 then [] else leading known body
  | concatenation parts => leadingOfSeries known parts
  | alternation parts => leadingOfAll known parts

/-
  In a concatenation, the parts up to the first one that
  must take input.
-/
def leadingOfSeries
    (known : List String) :
    List Element → List String
  | [] => []
  | part :: parts =>
      leading known part ++
        if isNullable known part then
          leadingOfSeries known parts
        else
          []

/- In an alternation, every part. -/
def leadingOfAll
    (known : List String) :
    List Element → List String
  | [] => []
  | part :: parts =>
      leading known part ++ leadingOfAll known parts

end

end Element

end Abnf

------------------------------------------------------------
-- Nullable Names
------------------------------------------------------------

namespace Abnf

namespace Scope

/-
  The names of the rules that can match the empty text if
  the known names can.
-/
def nullableStep
    (scope : Scope)
    (known : List String) : List String :=
  (scope.rules.filter
    (·.element.isNullable known)).map (·.name)

/- Repeat `nullableStep` until nothing is new. -/
def nullableWithin
    (scope : Scope) :
    Nat → List String → List String
  | 0, known => known
  | limit + 1, known =>
      let next := scope.nullableStep known
      if next.length = known.length then
        known
      else
        nullableWithin scope limit next

/-
  The names that can match the empty text. Each round but
  the last adds a name, so there are at most as many rounds
  as rules, and one more.
-/
def nullable
    (scope : Scope) : List String :=
  scope.nullableWithin (scope.rules.length + 1) []

end Scope

end Abnf

------------------------------------------------------------
-- Left Recursion
------------------------------------------------------------

namespace Abnf

/- The calls of a rule that may come before any input. -/
def Rule.leading
    (known : List String)
    (rule : Rule) : List Reference :=
  (rule.element.leading known).map (⟨·, rule.name⟩)

namespace Scope

/-
  The rule calls itself, directly or through other rules,
  before it takes any input.
-/
def isLeftRecursive
    (scope : Scope)
    (known : List String)
    (rule : Rule) : Bool :=
  met
    (scope.explore (Rule.leading known)
      (rule.leading known))
    rule.name

/- No rule of a list is left recursive. -/
def checkLeftRecursion
    (scope : Scope)
    (rules : List Rule) : Except ReferenceError Unit :=
  match rules.find? (scope.isLeftRecursive scope.nullable) with
  | some rule => .error (.leftRecursion rule.name)
  | none => .ok ()

end Scope

end Abnf
