import Abnf.Element

/-
  The normal form of elements.

  `normalize` works from the leaves up: a repetition of no
  copies becomes the empty element, a repetition of one copy
  becomes its body, a series of one part becomes that part,
  and neighbouring characters of an alternation become one
  set. The result matches the same texts.

  Key definitions include:
    * `Abnf.Element.mergeNext`
    * `Abnf.Element.collapse`
    * `Abnf.Element.normalize`
-/

------------------------------------------------------------
-- Series
------------------------------------------------------------

namespace Abnf

namespace Element

/-
  A series of one part is that part; any other number of
  parts stays a series.
-/
def collapse
    (series : List Element → Element) :
    List Element → Element
  | [part] => part
  | parts => series parts

/-
  Put an alternative in front of merged ones. Two sets of
  characters that meet become their union. The empty set is
  not a set of alternatives but the empty text, so it never
  merges.
-/
def mergeNext : Element → List Element → List Element
  | terminal s, terminal t :: rest =>
      if s.isEmpty || t.isEmpty then
        terminal s :: terminal t :: rest
      else
        terminal (s ∪ t) :: rest
  | part, rest => part :: rest

/- Merge the sets of characters that meet in a list. -/
def mergeTerminals
    (parts : List Element) : List Element :=
  parts.foldr mergeNext []

end Element

end Abnf

------------------------------------------------------------
-- Normal Form
------------------------------------------------------------

namespace Abnf

namespace Element

/- A repetition with its trivial cases resolved. -/
def normalRepetition
    (min : Nat)
    (max : Option Nat)
    (body : Element) : Element :=
  if min = 0 ∧ max = some 0 then empty
  else if min = 1 ∧ max = some 1 then body
  else repetition min max body

mutual

/- The normal form of an element. -/
def normalize : Element → Element
  | ruleName name => ruleName name
  | terminal s => terminal s
  | repetition min max body =>
      normalRepetition min max (normalize body)
  | concatenation parts =>
      collapse concatenation (normalizeAll parts)
  | alternation parts =>
      collapse alternation
        (mergeTerminals (normalizeAll parts))

/- The normal forms of the elements of a list. -/
def normalizeAll : List Element → List Element
  | [] => []
  | part :: parts => normalize part :: normalizeAll parts

end

/- Normal forms are taken part by part. -/
theorem normalizeAll_eq_map
    (parts : List Element) :
    normalizeAll parts = parts.map normalize := by
  induction parts with
  | nil => rfl
  | cons part parts ih => simp [normalizeAll, ih]

end Element

end Abnf
