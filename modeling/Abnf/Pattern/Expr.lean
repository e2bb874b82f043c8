import Abnf.Text.Runs

/-
  Expressions for texts.

  An expression says what a stretch of a text has to be. A
  look asks for something about a place in the text without
  taking a character.

  Key definitions include:
    * `Abnf.Pattern.Look`
    * `Abnf.Pattern.Look.holds`
    * `Abnf.Pattern.Expr`
    * `Abnf.Pattern.Expr.depth`
-/

------------------------------------------------------------
-- Looks
------------------------------------------------------------

namespace Abnf

namespace Pattern

/- A way in which words and the rest can meet at a place. -/
inductive WordEdge where
  /- A word starts or ends. -/
  | boundary
  /- No word starts or ends. -/
  | inner
  | start
  | stop
  /- There is no word before. -/
  | startHalf
  /- There is no word behind. -/
  | stopHalf
deriving DecidableEq, Inhabited

namespace WordEdge

/- The words before and behind a place meet in this way. -/
def holds
    (before behind : Bool) : WordEdge → Bool
  | boundary => before != behind
  | inner => before == behind
  | start => !before && behind
  | stop => before && !behind
  | startHalf => !before
  | stopHalf => !behind

end WordEdge

/- Something that can be asked about a place in a text. -/
inductive Look where
  | textStart
  | textEnd
  /- The start of a line behind a line feed. -/
  | lineStart
  /- The end of a line before a line feed. -/
  | lineEnd
  /- The start of a line behind any usual end of lines. -/
  | anyLineStart
  /- The end of a line before any usual end of lines. -/
  | anyLineEnd
  /- An edge between words, which have some letters. -/
  | word (edge : WordEdge) (letters : Runs)
deriving DecidableEq, Inhabited

namespace Look

/- A character is one of the letters of words. -/
def isLetter
    (letters : Runs)
    (c : Option Char) : Bool :=
  c.any (fun c => letters.has c.toNat)

/-
  The answer for a place, given the characters before and
  behind it.
-/
def holds
    (before behind : Option Char) : Look → Bool
  | textStart => before.isNone
  | textEnd => behind.isNone
  | lineStart => before.isNone || before == some '\n'
  | lineEnd => behind.isNone || behind == some '\n'
  | anyLineStart =>
      before.isNone || before == some '\n' ||
        (before == some '\r' && behind != some '\n')
  | anyLineEnd =>
      behind.isNone || behind == some '\r' ||
        (behind == some '\n' && before != some '\r')
  | word edge letters =>
      edge.holds (isLetter letters before)
        (isLetter letters behind)

end Look

end Pattern

end Abnf

------------------------------------------------------------
-- Expressions
------------------------------------------------------------

namespace Abnf

namespace Pattern

/- What a stretch of a text has to be. -/
inductive Expr where
  /- The empty stretch. -/
  | empty
  /- A change of settings, which takes nothing. -/
  | setting
  /-
    One character of a set. `nesting` tells how deep the
    brackets nest that the set was written with.
  -/
  | one (nesting : Nat) (set : Runs)
  /- The empty stretch, at a place that answers a look. -/
  | look (asked : Look)
  /- One expression behind the other. -/
  | sequence (parts : List Expr)
  /- One of some expressions. -/
  | choice (parts : List Expr)
  /- An expression in parentheses, which may be numbered. -/
  | group (numbered : Bool) (body : Expr)
  /- Copies of an expression, within bounds. -/
  | copies (min : Nat) (max : Option Nat) (body : Expr)
deriving Inhabited

namespace Expr

/- One expression behind the other, however many. -/
def ofSequence : List Expr → Expr
  | [] => empty
  | [part] => part
  | parts => sequence parts

/- One of some expressions, however many. -/
def ofChoice : List Expr → Expr
  | [] => empty
  | [part] => part
  | parts => choice parts

mutual

/- How deep the parts of an expression nest. -/
def depth : Expr → Nat
  | empty => 0
  | setting => 0
  | one nesting _ => nesting
  | look _ => 0
  | sequence parts => depthAll parts + 1
  | choice parts => depthAll parts + 1
  | group _ body => body.depth + 1
  | copies _ _ body => body.depth + 1

/- The greatest depth of some expressions. -/
def depthAll : List Expr → Nat
  | [] => 0
  | part :: rest => max part.depth (depthAll rest)

end

end Expr

end Pattern

end Abnf
