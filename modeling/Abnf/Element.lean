import Abnf.CharSet

/-
  Grammar elements.

  An element is a finite tree. Recursion between rules goes
  through rule names only. The constructors admit any tree;
  the checked constructors and `check` admit those that have
  a meaning in ABNF: names of letters, digits and dashes,
  bounds in order, and series of two elements at least.

  Key definitions include:
    * `Abnf.Element`
    * `Abnf.Element.text`
    * `Abnf.ElementError`
    * `Abnf.checkName`
    * `Abnf.Element.check`
    * `Abnf.Element.checkedRepetition`
    * `Abnf.Element.checkedConcatenation`
    * `Abnf.Element.checkedAlternation`
-/

------------------------------------------------------------
-- Elements
------------------------------------------------------------

namespace Abnf

/- A grammar element. -/
inductive Element where
  /- The element of the rule of that name. -/
  | ruleName (name : String)
  /-
    One character of the set; the empty set stands for the
    empty text.
  -/
  | terminal (set : CharSet)
  /- From `min` to `max` copies; no `max` is no limit. -/
  | repetition
      (min : Nat)
      (max : Option Nat)
      (body : Element)
  /- The parts one after the other. -/
  | concatenation (parts : List Element)
  /- One of the parts. -/
  | alternation (parts : List Element)
deriving Inhabited

namespace Element

/- The element that matches the empty text. -/
def empty : Element :=
  terminal CharSet.empty

/- At most one copy of an element. -/
def optional
    (body : Element) : Element :=
  repetition 0 (some 1) body

end Element

end Abnf

------------------------------------------------------------
-- Equality
------------------------------------------------------------

namespace Abnf

namespace Element

mutual

/- Two elements are the same tree. -/
def same : Element → Element → Bool
  | ruleName a, ruleName b => a == b
  | terminal s, terminal t => s == t
  | repetition m n a, repetition m' n' b =>
      m == m' && n == n' && same a b
  | concatenation ps, concatenation qs => sameAll ps qs
  | alternation ps, alternation qs => sameAll ps qs
  | _, _ => false

/- Two lists hold the same trees in the same order. -/
def sameAll : List Element → List Element → Bool
  | [], [] => true
  | p :: ps, q :: qs => same p q && sameAll ps qs
  | _, _ => false

end

mutual

/- Trees that are the same are equal. -/
theorem eq_of_same :
    ∀ a b : Element, same a b = true → a = b
  | ruleName _, b, h => by
      cases b <;> simp_all [same]
  | terminal _, b, h => by
      cases b <;> simp_all [same]
  | repetition _ _ a, b, h => by
      cases b <;> simp_all [same]
      exact eq_of_same a _ h.2
  | concatenation ps, b, h => by
      cases b <;> simp_all [same]
      exact eq_of_sameAll ps _ h
  | alternation ps, b, h => by
      cases b <;> simp_all [same]
      exact eq_of_sameAll ps _ h

/- Lists of the same trees are equal. -/
theorem eq_of_sameAll :
    ∀ ps qs : List Element,
      sameAll ps qs = true → ps = qs
  | [], qs, h => by
      cases qs <;> simp_all [sameAll]
  | p :: ps, qs, h => by
      cases qs with
      | nil => simp [sameAll] at h
      | cons q qs =>
        simp only [sameAll, Bool.and_eq_true] at h
        rw [eq_of_same p q h.1, eq_of_sameAll ps qs h.2]

end

mutual

/- A tree is the same as itself. -/
theorem same_refl : ∀ a : Element, same a a = true
  | ruleName _ => by simp [same]
  | terminal _ => by simp [same]
  | repetition _ _ a => by simp [same, same_refl a]
  | concatenation ps => by simp [same, sameAll_refl ps]
  | alternation ps => by simp [same, sameAll_refl ps]

/- A list holds the same trees as itself. -/
theorem sameAll_refl :
    ∀ ps : List Element, sameAll ps ps = true
  | [] => by simp [sameAll]
  | p :: ps => by
      simp [sameAll, same_refl p, sameAll_refl ps]

end

instance : DecidableEq Element :=
  fun a b =>
    decidable_of_iff (same a b = true)
      ⟨eq_of_same a b, fun h => h ▸ same_refl a⟩

end Element

end Abnf

------------------------------------------------------------
-- Errors
------------------------------------------------------------

namespace Abnf

/- The two kinds of series. -/
inductive Series where
  | concatenation
  | alternation
deriving DecidableEq, Inhabited

/- The noun for a kind of series. -/
def Series.noun : Series → String
  | concatenation => "concatenation"
  | alternation => "alternation"

/- Why an element or a rule is not well formed. -/
inductive ElementError where
  /- A rule name without characters. -/
  | emptyName
  /- A character that is no letter, digit or dash. -/
  | illegalName (name : String)
  /- A repetition whose minimum is above its maximum. -/
  | reversedBounds (min max : Nat)
  /- A series of fewer than two elements. -/
  | tooFew (kind : Series) (count : Nat)
deriving DecidableEq, Inhabited

/- The text that reports the error. -/
def ElementError.message : ElementError → String
  | emptyName => "Rule name is empty"
  | illegalName name =>
      "Illegal character in rule name \"" ++ name ++ "\""
  | reversedBounds min max =>
      "Repetition minimum " ++ toString min ++
        " exceeds its maximum " ++ toString max
  | tooFew kind count =>
      "An " ++ kind.noun ++
        " needs at least 2 elements, found " ++
        toString count

end Abnf

------------------------------------------------------------
-- Checks
------------------------------------------------------------

namespace Abnf

/- The characters of rule names. -/
def isNameChar
    (c : Char) : Bool :=
  c.isAlphanum || c == '-'

/- A rule name has characters, and only those of names. -/
def checkName
    (name : String) : Except ElementError Unit :=
  if name.isEmpty then
    .error .emptyName
  else if name.toList.all isNameChar then
    .ok ()
  else
    .error (.illegalName name)

namespace Element

/- The minimum is not above the maximum. -/
def checkBounds
    (min : Nat) :
    Option Nat → Except ElementError Unit
  | none => .ok ()
  | some max =>
      if max < min then
        .error (.reversedBounds min max)
      else
        .ok ()

/- A series has two elements at least. -/
def checkCount
    (kind : Series)
    (count : Nat) : Except ElementError Unit :=
  if count < 2 then
    .error (.tooFew kind count)
  else
    .ok ()

mutual

/-
  Every node of the tree is well formed. A node is looked at
  before its parts, and the parts from left to right.
-/
def check : Element → Except ElementError Unit
  | ruleName name => checkName name
  | terminal _ => .ok ()
  | repetition min max body => do
      checkBounds min max
      check body
  | concatenation parts => do
      checkCount .concatenation parts.length
      checkAll parts
  | alternation parts => do
      checkCount .alternation parts.length
      checkAll parts

/- Every element of a list is well formed. -/
def checkAll : List Element → Except ElementError Unit
  | [] => .ok ()
  | part :: parts => do
      check part
      checkAll parts

end

/- A reference to a rule by a proper name. -/
def checkedRuleName
    (name : String) : Except ElementError Element := do
  checkName name
  return ruleName name

/- A repetition with its bounds in order. -/
def checkedRepetition
    (min : Nat)
    (max : Option Nat)
    (body : Element) : Except ElementError Element := do
  checkBounds min max
  return repetition min max body

/- A concatenation of two elements at least. -/
def checkedConcatenation
    (parts : List Element) :
    Except ElementError Element := do
  checkCount .concatenation parts.length
  return concatenation parts

/- An alternation of two elements at least. -/
def checkedAlternation
    (parts : List Element) :
    Except ElementError Element := do
  checkCount .alternation parts.length
  return alternation parts

end Element

end Abnf
