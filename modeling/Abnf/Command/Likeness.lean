/-
  How much alike two words are.

  The measure runs from zero to one. Letters match when they
  are the same and stand at nearly the same place. Letters
  that match out of order count for less, and a common start
  counts for more.

  Key definitions include:
    * `Abnf.Likeness.matches`
    * `Abnf.Likeness.measure`
    * `Abnf.Likeness.isClose`
-/

------------------------------------------------------------
-- Matching Letters
------------------------------------------------------------

namespace Abnf

namespace Likeness

/- The places of a word that are not yet taken, with letters. -/
abbrev Places := List (Nat × Char)

/-
  The first place for a letter that is at most `reach` away,
  and the places that are left.
-/
def takePlace
    (reach index : Nat)
    (c : Char) :
    Places → Option (Nat × Places)
  | [] => none
  | (place, d) :: rest =>
      if c = d && index ≤ place + reach &&
          place ≤ index + reach then
        some (place, rest)
      else
        (takePlace reach index c rest).map
          (fun found => (found.1, (place, d) :: found.2))

/- The places that the letters of a word get in another. -/
def placesOf
    (reach : Nat) :
    Nat → Places → List Char → List Nat
  | _, _, [] => []
  | index, free, c :: rest =>
      match takePlace reach index c free with
      | some (place, left) =>
          place :: placesOf reach (index + 1) left rest
      | none => placesOf reach (index + 1) free rest

/- The steps back in a list of places. -/
def stepsBack : List Nat → Nat
  | first :: second :: rest =>
      (if second < first then 1 else 0) +
        stepsBack (second :: rest)
  | _ => 0

/- The letters that two words start with together. -/
def commonStart : List Char → List Char → Nat
  | a :: as, b :: bs =>
      if a = b then commonStart as bs + 1 else 0
  | _, _ => 0

end Likeness

end Abnf

------------------------------------------------------------
-- The Measure
------------------------------------------------------------

namespace Abnf

namespace Likeness

/- How much alike two words are but for their start. -/
def base
    (word other : List Char) : Float :=
  if word = other then
    1.0
  else if word.isEmpty || other.isEmpty ||
      (word.length = 1 && other.length = 1) then
    0.0
  else
    let reach := max word.length other.length / 2 - 1
    let places :=
      placesOf reach 0
        (other.mapIdx (fun place c => (place, c))) word
    if places.isEmpty then
      0.0
    else
      let found := places.length.toFloat
      let back := (stepsBack places).toFloat
      (1.0 / 3.0) *
        (found / word.length.toFloat +
          found / other.length.toFloat +
          (found - back) / found)

/- How much alike two words are. -/
def measure
    (word other : String) : Float :=
  let plain := base word.toList other.toList
  let start :=
    (commonStart word.toList other.toList).toFloat
  plain + 0.1 * start * (1.0 - plain)

/- Two words are enough alike to be taken for each other. -/
def isClose
    (word other : String) : Bool :=
  measure word other > 0.8

end Likeness

end Abnf
