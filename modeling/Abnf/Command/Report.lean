import Abnf.Log

/-
  What commands report to their user.

  A report is a line on the terminal and a record in the
  log. Colours belong to the terminal only: the log keeps
  the plain text.

  Key definitions include:
    * `Abnf.Style.paint`
    * `Abnf.Text.plain`
    * `Abnf.Report.line`
    * `Abnf.Report.record`
-/

------------------------------------------------------------
-- Colours
------------------------------------------------------------

namespace Abnf

/- How a piece of text looks on a terminal. -/
inductive Style where
  | red
  | green
  | blue
  /- On a red ground. -/
  | onRed
deriving DecidableEq, Inhabited

namespace Style

/- The number of a style in a control sequence. -/
def code : Style → Nat
  | red => 91
  | green => 92
  | blue => 94
  | onRed => 101

/- A text in a style, if the terminal shows colours. -/
def paint
    (coloured : Bool)
    (style : Style)
    (text : String) : String :=
  if coloured then
    "\x1b[" ++ toString style.code ++ "m" ++ text ++
      "\x1b[0m"
  else
    text

/- A count, in a style unless it is zero. -/
def paintCount
    (coloured : Bool)
    (style : Style)
    (count : Nat)
    (label : String) : String :=
  style.paint (coloured && count != 0)
    (toString count ++ " " ++ label)

end Style

end Abnf

------------------------------------------------------------
-- Plain Text
------------------------------------------------------------

namespace Abnf

namespace Text

/- What the characters that come next belong to. -/
inductive Passage where
  /- To the text itself. -/
  | plain
  /- To a control sequence that has just begun. -/
  | escape
  /- To a short control sequence that ends with a letter. -/
  | designator
  /- To a control sequence with parameters. -/
  | sequence
  /- To a text for the terminal that a bell ends. -/
  | title
  /- To the start of a string for a device. -/
  | device
  /- To the parameters of a string for a device. -/
  | deviceParameters
  /- To the marks behind these parameters. -/
  | deviceMarks
  /- To a string that is not for the reader. -/
  | hidden
deriving DecidableEq, Inhabited

namespace Passage

/- The character is between two others. -/
def isWithin
    (low high c : Char) : Bool :=
  low ≤ c && c ≤ high

/- One byte of the character ends a hidden string. -/
def endsHidden
    (c : Char) : Bool :=
  (String.utf8EncodeChar c).contains 0x9c

/-
  What comes after a character that has no meaning of its
  own. In a control sequence, blanks and signs up to the
  slash are marks, digits and signs up to the question mark
  are parameters, and all from there to the tilde ends it.
-/
def nextWithin
    (c : Char) : Passage → Passage
  | plain => plain
  | escape =>
      if c = '[' then sequence
      else if c = ']' then title
      else if c = 'P' then device
      else if c = 'X' ∨ c = '^' ∨ c = '_' then hidden
      else if isWithin ' ' '/' c then designator
      else if isWithin '0' '~' c then plain
      else escape
  | designator =>
      if isWithin '0' '~' c then plain else designator
  | sequence =>
      if isWithin '@' '~' c then plain else sequence
  | title => if c = '\x07' then plain else title
  | device =>
      if isWithin ' ' '/' c then deviceMarks
      else if isWithin '0' '?' c then deviceParameters
      else if isWithin '@' '~' c then hidden
      else device
  | deviceParameters =>
      if isWithin ' ' '/' c then deviceMarks
      else if isWithin '<' '~' c then hidden
      else deviceParameters
  | deviceMarks =>
      if isWithin '0' '~' c then hidden else deviceMarks
  | hidden => if endsHidden c then plain else hidden

/-
  What comes after a character. A cancel or a substitute
  ends any sequence, an escape starts the next one.
-/
def next
    (c : Char)
    (passage : Passage) : Passage :=
  if c = '\x18' ∨ c = '\x1a' then plain
  else if c = '\x1b' then escape
  else passage.nextWithin c

/-
  A character is kept. Of the controls only line feeds are,
  also those inside a control sequence.
-/
def keeps
    (c : Char) : Passage → Bool
  | plain => decide (' ' ≤ c) || c == '\n'
  | escape => c == '\n'
  | designator => c == '\n'
  | sequence => c == '\n'
  | _ => false

end Passage

/- The characters kept of a text. -/
def plainFrom :
    Passage → List Char → List Char
  | _, [] => []
  | passage, c :: rest =>
      if passage.keeps c then
        c :: plainFrom (passage.next c) rest
      else
        plainFrom (passage.next c) rest

/- A text without control sequences and controls. -/
def plain
    (text : String) : String :=
  String.ofList (plainFrom .plain text.toList)

end Text

end Abnf

------------------------------------------------------------
-- Reports
------------------------------------------------------------

namespace Abnf

/- What a command reports. -/
inductive Report where
  | info (text : String)
  | error (text : String)
  /- An error that ends the command. -/
  | fatal (text : String)
  /- A parser is about to be made of the grammar at a path. -/
  | generating (path : String)
  | generated (path : String)
  | notGenerated (text : String)
  /- The file at a path matches. -/
  | matched (path : String)
  | unmatched (text : String)
deriving DecidableEq, Inhabited

namespace Report

/- The line of a report on the terminal. -/
def line
    (coloured : Bool) : Report → String
  | info text => text
  | error text =>
      Style.red.paint coloured "error" ++ ": " ++ text
  | fatal text =>
      Style.onRed.paint coloured "fatal" ++ ": " ++ text
  | generating path =>
      Style.blue.paint coloured "  GEN" ++ "| " ++ path
  | generated path =>
      Style.green.paint coloured "   OK" ++ "| " ++ path
  | notGenerated text =>
      Style.red.paint coloured "ERROR" ++ "| " ++ text
  | matched path =>
      Style.green.paint coloured "   OK" ++ "| " ++ path
  | unmatched text =>
      Style.red.paint coloured "ERROR" ++ "| " ++ text

/- The record of a report in the log. -/
def record : Report → Record
  | info text => ⟨.info, text⟩
  | error text => ⟨.error, text⟩
  | fatal text => ⟨.error, text⟩
  | generating path =>
      ⟨.debug, "Generating parser from " ++ path ++ " ..."⟩
  | generated path =>
      ⟨.debug, "Finished generating " ++ path⟩
  | notGenerated text => ⟨.error, text⟩
  | matched path => ⟨.debug, "Matched " ++ path⟩
  | unmatched text => ⟨.warn, text⟩

end Report

end Abnf
