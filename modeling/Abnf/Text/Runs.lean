/-
  Sets of code points, as runs.

  A set is kept as its runs in ascending order. Each run has
  a first and a last code point. Tables of code points are
  written as gaps: the code points to skip and to take, in
  turns.

  Key definitions include:
    * `Abnf.Runs`
    * `Abnf.Runs.has`
    * `Abnf.Runs.union`
    * `Abnf.Runs.complement`
    * `Abnf.Runs.ofGaps`
-/

------------------------------------------------------------
-- Sets
------------------------------------------------------------

namespace Abnf

/- A set of code points, as its runs in ascending order. -/
structure Runs where
  runs : List (Nat × Nat)
deriving DecidableEq, Inhabited

namespace Runs

/- The greatest code point. -/
def top : Nat := 0x10FFFF

/- The set without members. -/
def empty : Runs :=
  ⟨[]⟩

/- The set of all code points. -/
def all : Runs :=
  ⟨[(0, top)]⟩

/- The code points from one to another. -/
def range
    (first last : Nat) : Runs :=
  if first ≤ last then ⟨[(first, last)]⟩ else empty

/- One code point. -/
def single
    (code : Nat) : Runs :=
  ⟨[(code, code)]⟩

/- A code point is in the set. -/
def has
    (set : Runs)
    (code : Nat) : Bool :=
  set.runs.any (fun run => run.1 ≤ code && code ≤ run.2)

/- The set has no members. -/
def isEmpty
    (set : Runs) : Bool :=
  set.runs.isEmpty

/- All members are below 128. -/
def isAscii
    (set : Runs) : Bool :=
  set.runs.all (fun run => run.2 < 128)

end Runs

end Abnf

------------------------------------------------------------
-- Operations
------------------------------------------------------------

namespace Abnf

namespace Runs

/- Join runs that touch; their starts ascend. -/
def joined :
    Nat × Nat → List (Nat × Nat) → List (Nat × Nat)
  | run, [] => [run]
  | run, next :: rest =>
      if next.1 ≤ run.2 + 1 then
        joined (run.1, max run.2 next.2) rest
      else
        run :: joined next rest

/- The set of some runs, which start in ascending order. -/
def ofSorted : List (Nat × Nat) → Runs
  | [] => empty
  | run :: rest => ⟨joined run rest⟩

/- The set of some runs. -/
def ofList
    (runs : List (Nat × Nat)) : Runs :=
  ofSorted
    (runs.mergeSort (fun a b => decide (a.1 ≤ b.1)))

/- The members of either set. -/
def union
    (a b : Runs) : Runs :=
  ofSorted
    (List.merge a.runs b.runs
      (fun a b => decide (a.1 ≤ b.1)))

/- The members of any of some sets. -/
def unionAll
    (sets : List Runs) : Runs :=
  ofList (sets.flatMap (·.runs))

/- The runs of what is not in some runs, from a place on. -/
def complementFrom :
    Nat → List (Nat × Nat) → List (Nat × Nat)
  | next, [] => if next ≤ top then [(next, top)] else []
  | next, run :: rest =>
      if next < run.1 then
        (next, run.1 - 1) :: complementFrom (run.2 + 1) rest
      else
        complementFrom (run.2 + 1) rest

/- The code points that are not in the set. -/
def complement
    (set : Runs) : Runs :=
  ⟨complementFrom 0 set.runs⟩

/- The members of both sets. -/
def inter
    (a b : Runs) : Runs :=
  (a.complement.union b.complement).complement

/- The members of one set that are not in another. -/
def diff
    (a b : Runs) : Runs :=
  a.inter b.complement

/- The members of one of two sets but not of both. -/
def symmDiff
    (a b : Runs) : Runs :=
  (a.diff b).union (b.diff a)

end Runs

end Abnf

------------------------------------------------------------
-- Tables
------------------------------------------------------------

namespace Abnf

namespace Runs

/-
  The numbers of a table, where `high` has the digits read
  so far. Digits are letters, 26 of them, and the last digit
  of each number is a capital.
-/
def numbersFrom
    (high : Nat) :
    List Char → List Nat
  | [] => []
  | c :: rest =>
      if c.isUpper then
        (26 * high + (c.toNat - 'A'.toNat)) ::
          numbersFrom 0 rest
      else
        numbersFrom (26 * high + (c.toNat - 'a'.toNat)) rest

/- The numbers of a table. -/
def numbers
    (table : String) : List Nat :=
  numbersFrom 0 table.toList

/- The runs of gaps, from a place on. -/
def runsOfGaps :
    Nat → List Nat → List (Nat × Nat)
  | place, skipped :: size :: rest =>
      let first := place + skipped
      (first, first + size - 1) ::
        runsOfGaps (first + size) rest
  | _, _ => []

/- The set of a table of gaps. -/
def ofGaps
    (table : String) : Runs :=
  ⟨runsOfGaps 0 (numbers table)⟩

end Runs

end Abnf
