import Abnf.CharSet.Test

/-
  The code of which parsers in Rust are made.

  Expressions give the end of a match or nothing. A block
  has a label, which a statement in it can use to leave the
  block with a value. All offsets are kept in variables of
  fixed names: `index` is where the next match starts,
  `next` what an attempt gave, `count` how many copies there
  were.

  Key definitions include:
    * `Abnf.Source.Label`
    * `Abnf.Source.Expr`
    * `Abnf.Source.Stmt`
    * `Abnf.Source.Expr.lines`
-/

------------------------------------------------------------
-- Code
------------------------------------------------------------

namespace Abnf

namespace Source

/- A label: a letter for its kind, and its number. -/
structure Label where
  kind : Char
  number : Nat
deriving DecidableEq, Inhabited

/- What a call hands on besides input and offset. -/
inductive Passing where
  /- Nothing: the callee reports to nobody. -/
  | nothing
  /- The caller's own listener. -/
  | listener
  /- A listener that hears nothing. -/
  | deaf
deriving DecidableEq, Inhabited

mutual

/- An expression that gives the end of a match. -/
inductive Expr where
  /- The empty match at `index`. -/
  | found
  /- No match. -/
  | missing
  /- A match of one byte at `index`. -/
  | byte (test : ByteTest)
  /- The match of another function at `index`. -/
  | call (identifier : String) (passing : Passing)
  /- Statements, then a value, under a label. -/
  | block (label : Label) (body : List Stmt) (value : Expr)

/- A statement of a block. -/
inductive Stmt where
  /- Take a copy of `index` that can change. -/
  | letIndex
  /- Count copies from zero on. -/
  | letCount
  /- Attempt a match. -/
  | letNext (value : Expr)
  /- Move to the end of a match, or leave without one. -/
  | advance (label : Label)
  /- Leave with a match, if there is one. -/
  | leaveMatched (label : Label)
  /- Repeat, while `count` is below a limit if any. -/
  | loop
      (label : Label)
      (limit : Option Nat)
      (body : List Stmt)
  /-
    Take a copy, or leave the loop after the last one. A
    copy without input makes up for all that are due.
  -/
  | takeCopy (label : Label) (min : Nat) (counted : Bool)
  /- Leave without a match after too few copies. -/
  | demand (min : Nat) (label : Label)

end

instance : Inhabited Expr :=
  ⟨.missing⟩

end Source

end Abnf

------------------------------------------------------------
-- Bytes
------------------------------------------------------------

namespace Abnf

namespace Source

/- A byte between the quotes of a byte literal. -/
def escapedByte
    (b : UInt8) : String :=
  if b = 9 then "\\t"
  else if b = 13 then "\\r"
  else if b = 10 then "\\n"
  else if b = 39 then "\\'"
  else if b = 34 then "\\\""
  else if b = 92 then "\\\\"
  else if 32 ≤ b ∧ b < 127 then
    (Char.ofNat b.toNat).toString
  else
    "\\x" ++ Text.hexLower 2 b.toNat

/- A byte as a literal. -/
def byteLiteral
    (b : UInt8) : String :=
  "b'" ++ escapedByte b ++ "'"

/- A mask as a literal. -/
def maskLiteral
    (mask : BitVec 64) : String :=
  "0x" ++ Text.hexUpper 16 mask.toNat

/- The byte `c` is the given one. -/
def equalsCondition
    (b : UInt8) : String :=
  "c == " ++ byteLiteral b

/-
  The byte `c` has its bit in one of two masks. A mask
  without bits is left out.
-/
def maskCondition
    (low high : BitVec 64) : String :=
  let lowTest :=
    if low = 0 then [] else
      ["(c < 64 && (1u64 << c) & " ++
        maskLiteral low ++ " != 0)"]
  let highTest :=
    if high = 0 then [] else
      ["(c >= 64 && c < 128 && (1u64 << (c - 64)) & " ++
        maskLiteral high ++ " != 0)"]
  match lowTest ++ highTest with
  | [] => "false"
  | tests => " || ".intercalate tests

/- The condition on `c` that stands for a test. -/
def condition : ByteTest → String
  | .never => "false"
  | .eq b => equalsCondition b
  | .oneOf bs =>
      " || ".intercalate (bs.map equalsCondition)
  | .mask low high => maskCondition low high

end Source

end Abnf

------------------------------------------------------------
-- Lines
------------------------------------------------------------

namespace Abnf

namespace Source

/- A label as it is written. -/
def Label.text
    (label : Label) : String :=
  "'" ++ label.kind.toString ++ toString label.number

/- The margin of one level of nesting. -/
def margin : String := "    "

/- Lines one level further in. -/
def indent
    (lines : List String) : List String :=
  lines.map (margin ++ ·)

/- Put a text behind the last line. -/
def closeLines
    (behind : String) :
    List String → List String
  | [] => []
  | [line] => [line ++ behind]
  | line :: rest => line :: closeLines behind rest

/- Put a text before the first line, one behind the last. -/
def wrapLines
    (before : String)
    (lines : List String)
    (behind : String) : List String :=
  match closeLines behind lines with
  | [] => []
  | line :: rest => (before ++ line) :: rest

/- The call of a function. -/
def callText
    (identifier : String)
    (passing : Passing) : String :=
  let last :=
    match passing with
    | .nothing => ""
    | .listener => ", listener"
    | .deaf => ", &mut ()"
  "Self::parse_" ++ identifier ++ "(input, index" ++
    last ++ ")"

/- The head of a loop. -/
def loopHead
    (label : Label) :
    Option Nat → String
  | some limit =>
      label.text ++ ": while count < " ++
        toString limit ++ " \x7b"
  | none => label.text ++ ": loop \x7b"

/- The lines that take a copy in a loop. -/
def copyLines
    (label : Label)
    (min : Nat)
    (counted : Bool) : List String :=
  ["match next \x7b",
   "    Some(next) if next == index => \x7b"] ++
  (if 0 < min then
    ["        count = count.max(" ++ toString min ++ ");"]
   else []) ++
  ["        break " ++ label.text ++ ";",
   "    \x7d",
   "    Some(next) => \x7b"] ++
  (if counted then ["        count += 1;"] else []) ++
  ["        index = next;",
   "    \x7d",
   "    None => break " ++ label.text ++ ",",
   "\x7d"]

mutual

/- The lines of an expression. -/
def Expr.lines : Expr → List String
  | .found => ["Some(index)"]
  | .missing => ["None"]
  | .byte test =>
      ["match input.get(index) \x7b",
       "    Some(&c) if " ++ condition test ++
         " => Some(index + 1),",
       "    _ => None,",
       "\x7d"]
  | .call identifier passing =>
      [callText identifier passing]
  | .block label body value =>
      [label.text ++ ": \x7b"] ++
        indent (Stmt.linesOfAll body) ++
        indent (Expr.lines value) ++
        ["\x7d"]

/- The lines of a statement. -/
def Stmt.lines : Stmt → List String
  | .letIndex => ["let mut index = index;"]
  | .letCount => ["let mut count: usize = 0;"]
  | .letNext value =>
      wrapLines "let next = " (Expr.lines value) ";"
  | .advance label =>
      ["match next \x7b",
       "    Some(next) => index = next,",
       "    None => break " ++ label.text ++ " None,",
       "\x7d"]
  | .leaveMatched label =>
      ["if next.is_some() \x7b",
       "    break " ++ label.text ++ " next;",
       "\x7d"]
  | .loop label limit body =>
      [loopHead label limit] ++
        indent (Stmt.linesOfAll body) ++
        ["\x7d"]
  | .takeCopy label min counted =>
      copyLines label min counted
  | .demand min label =>
      ["if count < " ++ toString min ++ " \x7b",
       "    break " ++ label.text ++ " None;",
       "\x7d"]

/- The lines of some statements. -/
def Stmt.linesOfAll : List Stmt → List String
  | [] => []
  | stmt :: rest =>
      Stmt.lines stmt ++ Stmt.linesOfAll rest

end

end Source

end Abnf
