import Abnf.Pattern.Expr

/-
  The size of an expression as an automaton.

  An expression stands for an automaton that reads bytes.
  Its states and the ways between them take memory, and an
  expression that takes too much of it is refused.

  Key definitions include:
    * `Abnf.Pattern.ByteRange`
    * `Abnf.Pattern.byteSequences`
    * `Abnf.Pattern.Expr.size`
    * `Abnf.Pattern.sizeLimit`
-/

------------------------------------------------------------
-- Bytes Of Sets
------------------------------------------------------------

namespace Abnf

namespace Pattern

/- The bytes from a first to a last one. -/
abbrev ByteRange := Nat × Nat

/- The last code points with one, two and three bytes. -/
def lengthEnds : List Nat :=
  [0x7F, 0x7FF, 0xFFFF]

/-
  Where to cut a run of code points that does not have all
  continuations of the bytes it starts with: behind the
  first block of some size, or before the last one.
-/
def blockCut?
    (first last : Nat)
    (bits : Nat) : Option Nat :=
  let size := 1 <<< bits
  if last < 128 || first / size = last / size then
    none
  else if first % size != 0 then
    some ((first / size + 1) * size - 1)
  else if last % size != size - 1 then
    some (last / size * size - 1)
  else
    none

/- Where to cut a run so that its bytes have a simple form. -/
def cut?
    (first last : Nat) : Option Nat :=
  (lengthEnds.find?
      (fun stop => first ≤ stop && stop < last)).or
    ([6, 12, 18].findSome? (blockCut? first last))

/- Cut a run into runs of a simple form, in order. -/
def pieces :
    Nat → Nat × Nat → List (Nat × Nat)
  | 0, run => [run]
  | limit + 1, run =>
      match cut? run.1 run.2 with
      | none => [run]
      | some place =>
          pieces limit (run.1, place) ++
            pieces limit (place + 1, run.2)

/- The bytes of a code point. -/
def bytesOf
    (code : Nat) : List Nat :=
  (String.utf8EncodeChar (Char.ofNat code)).map (·.toNat)

/- The code points that are no characters. -/
def surrogates : Runs :=
  .range 0xD800 0xDFFF

/-
  The bytes of a set, as sequences of ranges. A run is cut
  at most some twenty times.
-/
def byteSequences
    (set : Runs) : List (List ByteRange) :=
  ((set.diff surrogates).runs.flatMap (pieces 32)).map
    (fun run => (bytesOf run.1).zip (bytesOf run.2))

end Pattern

end Abnf

------------------------------------------------------------
-- Shared Starts
------------------------------------------------------------

namespace Abnf

namespace Pattern

/- Put sequences that start alike together. -/
def groupByFirst :
    List (List ByteRange) →
      List (ByteRange × List (List ByteRange))
  | [] => []
  | [] :: rest => groupByFirst rest
  | (first :: tail) :: rest =>
      match groupByFirst rest with
      | (next, tails) :: groups =>
          if first = next then
            (next, tail :: tails) :: groups
          else
            (first, [tail]) :: (next, tails) :: groups
      | [] => [(first, [tail])]

/-
  The number of different starts of some sequences, which
  have at most a number of bytes.
-/
def startCount :
    Nat → List (List ByteRange) → Nat
  | 0, _ => 0
  | length + 1, sequences =>
      ((groupByFirst sequences).map
        (fun group =>
          1 + startCount length group.2)).sum

end Pattern

end Abnf

------------------------------------------------------------
-- Sizes
------------------------------------------------------------

namespace Abnf

namespace Pattern

/- The memory of a state. -/
def stateSize : Nat := 32

/- The memory of a range of bytes that leaves a state. -/
def rangeSize : Nat := 8

/- The memory of one way out of a choice. -/
def waySize : Nat := 4

/- The memory of a choice between two states. -/
def forkSize : Nat := stateSize + 2 * waySize

/- The memory that an automaton may take. -/
def sizeLimit : Nat := 10485760

/-
  The memory for one character of a set. One character is
  read byte by byte. A set of ASCII characters takes a state
  with its ranges and the state behind it. Any other set is
  a choice between sequences of bytes that share the states
  of their starts.
-/
def setSize
    (set : Runs) : Nat :=
  match set.runs with
  | [(first, last)] =>
      if first = last then
        stateSize * (bytesOf first).length
      else
        manySize set
  | _ => manySize set
where
  manySize (set : Runs) : Nat :=
    if set.isAscii then
      2 * stateSize + rangeSize * set.runs.length
    else
      let sequences := byteSequences set
      2 * stateSize + waySize * sequences.length +
        stateSize * startCount 4 sequences

namespace Expr

mutual

/- The expression describes empty stretches only. -/
def isWidthless : Expr → Bool
  | empty => true
  | setting => true
  | one _ _ => false
  | look _ => true
  | sequence parts => areWidthless parts
  | choice parts => areWidthless parts
  | group _ body => body.isWidthless
  | copies _ max body =>
      max == some 0 || body.isWidthless

/- All of some expressions describe empty stretches only. -/
def areWidthless : List Expr → Bool
  | [] => true
  | part :: rest => part.isWidthless && areWidthless rest

end

mutual

/- The expression describes no empty stretch. -/
def takesSome : Expr → Bool
  | empty => false
  | setting => false
  | one _ set => !set.isEmpty
  | look _ => false
  | sequence parts => anyTakesSome parts
  | choice parts => allTakeSome parts
  | group _ body => body.takesSome
  | copies min _ body => min != 0 && body.takesSome

def anyTakesSome : List Expr → Bool
  | [] => false
  | part :: rest => part.takesSome || anyTakesSome rest

def allTakeSome : List Expr → Bool
  | [] => true
  | part :: rest => part.takesSome && allTakeSome rest

end

/- The memory of copies, given that of one. -/
def copiesSize
    (once : Nat)
    (takesSome : Bool)
    (min : Nat) :
    Option Nat → Nat
  | none =>
      if min = 0 then
        if takesSome then
          once + forkSize
        else
          once + 2 * forkSize + stateSize
      else
        min * once + forkSize
  | some max =>
      if min = max then
        min * once
      else if min = 0 && max = 1 then
        once + forkSize + stateSize
      else
        min * once + (if min = 0 then stateSize else 0) +
          stateSize + (max - min) * (once + forkSize)

mutual

/- The memory of an expression. -/
def size : Expr → Nat
  | empty => 0
  | setting => 0
  | one _ set => setSize set
  | look _ => stateSize
  | sequence parts => totalSize parts
  | choice parts =>
      totalSize parts + 2 * stateSize +
        waySize * parts.length
  | group numbered body =>
      if numbered then
        body.size + 2 * stateSize
      else
        body.size
  | copies min max body =>
      if body.isWidthless then
        -- More than one copy of nothing is never needed.
        copiesSize body.size false (Nat.min min 1)
          (some (Nat.min (max.getD 1) 1))
      else
        copiesSize body.size body.takesSome min max

/- The memory of some expressions. -/
def totalSize : List Expr → Nat
  | [] => 0
  | part :: rest => part.size + totalSize rest

end

/-
  The memory of an expression that is looked for anywhere in
  a text: it can start behind any bytes, and its start, its
  end and the success have states of their own.
-/
def searchSize
    (expr : Expr) : Nat :=
  expr.size + 2 * stateSize + rangeSize + forkSize +
    3 * stateSize

end Expr

end Pattern

end Abnf
