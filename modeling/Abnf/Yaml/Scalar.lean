import Abnf.Text.Hexadecimal
import Abnf.Yaml.Cursor

/-
  Texts of scalars.

  A scalar is quoted, plain, or a block of lines. In quoted
  and plain ones the white between two words is folded: it
  keeps its blanks within a line, one break becomes a space,
  and of several breaks the first is dropped. Blocks keep
  their breaks or fold them likewise, and an indicator says
  what becomes of the last ones.

  Key definitions include:
    * `Abnf.Yaml.fold`
    * `Abnf.Yaml.readQuoted?`
    * `Abnf.Yaml.readPlain?`
    * `Abnf.Yaml.readBlock?`
-/

------------------------------------------------------------
-- Gaps
------------------------------------------------------------

namespace Abnf

namespace Yaml

/- What the white between two words stands for. -/
def fold
    (gap : List Char) : List Char :=
  match gap.filter isBreak with
  | [] => gap
  | ['\n'] => [' ']
  | '\n' :: more => more
  | breaks => breaks

/-
  A tab stands before a margin. The column is none on the
  line where the gap starts.
-/
def hasEarlyTab
    (margin : Nat)
    (column : Option Nat) : List Char → Bool
  | [] => false
  | c :: rest =>
      if isBreak c then
        hasEarlyTab margin (some 0) rest
      else
        (c == '\t' && column.any (· < margin)) ||
          hasEarlyTab margin (column.map (· + 1)) rest

end Yaml

end Abnf

------------------------------------------------------------
-- Quoted Scalars
------------------------------------------------------------

namespace Abnf

namespace Yaml

/- The character that a character after a backslash means. -/
def escape? : Char → Option Char
  | '0' => some '\x00'
  | 'a' => some '\x07'
  | 'b' => some '\x08'
  | 't' => some '\t'
  | '\t' => some '\t'
  | 'n' => some '\n'
  | 'v' => some '\x0b'
  | 'f' => some '\x0c'
  | 'r' => some '\r'
  | 'e' => some '\x1b'
  | ' ' => some ' '
  | '"' => some '"'
  | '/' => some '/'
  | '\\' => some '\\'
  | 'N' => some '\u0085'
  | '_' => some '\u00a0'
  | 'L' => some '\u2028'
  | 'P' => some '\u2029'
  | _ => none

/- The number of digits behind a letter for code points. -/
def escapeWidth? : Char → Option Nat
  | 'x' => some 2
  | 'u' => some 4
  | 'U' => some 8
  | _ => none

/-
  What an escape stands for, behind its backslash, and how
  many characters it takes.
-/
def readEscape? : List Char → Option (Char × Nat)
  | [] => none
  | c :: rest =>
      match escapeWidth? c with
      | none => (escape? c).map (·, 1)
      | some width => do
          let digits := rest.take width
          if digits.length < width then
            none
          else
            let code ← Text.hexNumber? digits
            return (← Text.charOf? code, width + 1)

/-
  The text up to the closing quote, and the place behind it.
  In double quotes a backslash starts an escape, and before
  a break it drops the break; in single ones two quotes
  stand for one. Each step takes a character at least, so
  the limit is the length of the text.
-/
def readQuotedWithin?
    (quote : Char) :
    Nat → Cursor → Option (List Char × Cursor)
  | 0, _ => none
  | limit + 1, cursor => do
      if cursor.isDocumentMark then
        none
      let c ← cursor.head?
      if isWhite c then
        let (gap, behind) := cursor.span isWhite
        let (text, last) ←
          readQuotedWithin? quote limit behind
        return (fold gap ++ text, last)
      else if c = quote then
        if quote = '\'' ∧ cursor.next.startsWith quote then
          let (text, last) ←
            readQuotedWithin? quote limit (cursor.move 2)
          return (quote :: text, last)
        else
          return ([], cursor.next)
      else if c = '\\' ∧ quote = '"' then
        if cursor.next.head?.any isBreak then
          let (gap, behind) :=
            (cursor.move 2).span isWhite
          let (text, last) ←
            readQuotedWithin? quote limit behind
          return (gap.filter isBreak ++ text, last)
        else
          let (d, count) ← readEscape? cursor.next.rest
          let (text, last) ←
            readQuotedWithin? quote limit
              (cursor.move (count + 1))
          return (d :: text, last)
      else
        let (text, last) ←
          readQuotedWithin? quote limit cursor.next
        return (c :: text, last)

/-
  The text in quotes, and the place behind the closing one.
  The cursor stands at the opening one.
-/
def readQuoted?
    (cursor : Cursor) : Option (String × Cursor) := do
  let quote ← cursor.head?
  let (text, behind) ←
    readQuotedWithin? quote cursor.rest.length cursor.next
  return (String.ofList text, behind)

end Yaml

end Abnf

------------------------------------------------------------
-- Plain Scalars
------------------------------------------------------------

namespace Abnf

namespace Yaml

/- The characters that divide what is in brackets. -/
def isFlowMark
    (c : Char) : Bool :=
  [',', '[', ']', '\x7b', '\x7d'].contains c

/-
  The word at the start of a text. It ends before white, a
  colon with white behind it and, in brackets, the marks
  there, which may not follow a colon.
-/
def readWord?
    (flow : Bool) : List Char → Option (List Char)
  | [] => some []
  | c :: rest =>
      if isWhite c || (c == ':' && isApart rest) ||
          (flow && isFlowMark c) then
        some []
      else if flow && c == ':' &&
          rest.head?.any
            (fun d => d == '?' || isFlowMark d) then
        none
      else
        (readWord? flow rest).map (c :: ·)

/- A plain scalar, as far as it was read. -/
structure Plain where
  text : List Char
  /- It ends behind a break. -/
  broken : Bool
  behind : Cursor

/-
  The words of a plain scalar, behind a gap. It ends before
  a comment, the mark of a document and, outside of
  brackets, a line that starts before the margin. Each step
  takes a word at least, so the limit is the length of the
  text.
-/
def readPlainWithin?
    (flow : Bool)
    (margin : Nat) :
    Nat → List Char → Cursor → Option Plain
  | 0, _, _ => none
  | limit + 1, gap, cursor => do
      let word ←
        if cursor.isDocumentMark ||
            cursor.startsWith '#' then
          some []
        else
          readWord? flow cursor.rest
      if word.isEmpty then
        return ⟨[], gap.any isBreak, cursor⟩
      let text := fold gap ++ word
      let (gap, behind) :=
        (cursor.move word.length).span isWhite
      if hasEarlyTab margin none gap then
        none
      else if gap.isEmpty ||
          (!flow && behind.column < margin) then
        return ⟨text, gap.any isBreak, behind⟩
      else
        let more ←
          readPlainWithin? flow margin limit gap behind
        return { more with text := text ++ more.text }

/- The plain scalar at a place. -/
def readPlain?
    (flow : Bool)
    (margin : Nat)
    (cursor : Cursor) : Option Plain :=
  readPlainWithin? flow margin (cursor.rest.length + 1) []
    cursor

end Yaml

end Abnf

------------------------------------------------------------
-- Blocks of Lines
------------------------------------------------------------

namespace Abnf

namespace Yaml

/- What becomes of the breaks at the end of a block. -/
inductive Chomping where
  /- The first one stays. -/
  | clip
  | strip
  | keep
deriving DecidableEq, Inhabited

/- The chomping of an indicator. -/
def Chomping.ofChar? : Char → Option Chomping
  | '-' => some strip
  | '+' => some keep
  | _ => none

/- The indentation of an indicator. -/
def indentOf?
    (c : Char) : Option Nat :=
  if c.isDigit then some (c.toNat - '0'.toNat) else none

/- The indicators in front of a block. -/
structure BlockHead where
  chomping : Chomping
  /- The indentation, or zero if the lines show it. -/
  indent : Nat
  behind : Cursor

/-
  The indicators in front of a block. There is at most one
  of each kind, in any order, and the indentation is not
  zero.
-/
def readBlockHead?
    (cursor : Cursor) : Option BlockHead := do
  let chomping := cursor.head?.bind Chomping.ofChar?
  let second :=
    if chomping.isSome then cursor.next else cursor
  let indent := second.head?.bind indentOf?
  let third :=
    if indent.isSome then second.next else second
  let late :=
    if chomping.isSome || indent.isNone then
      none
    else
      third.head?.bind Chomping.ofChar?
  let behind := if late.isSome then third.next else third
  if indent = some 0 then
    none
  else
    return {
      chomping := (chomping <|> late).getD .clip
      indent := indent.getD 0
      behind := ← behind.lineEnd? }

/- The lines before one that says something. -/
structure EmptyLines where
  breaks : List Char
  /- The last of the columns where they ended. -/
  deepest : Nat
  behind : Cursor

/-
  Skip empty lines and the indentation of the one behind
  them. Where the indentation is not known, it is zero, and
  all spaces belong to it; no tab does. Each step takes a
  line, so the limit is the length of the text.
-/
def readEmptyLines?
    (indent : Nat) :
    Nat → Cursor → Option EmptyLines
  | 0, _ => none
  | limit + 1, cursor =>
      let spaces := (cursor.span (· == ' ')).1.length
      let cursor := cursor.move
        (if indent = 0 then spaces
         else Nat.min spaces (indent - cursor.column))
      let isWithin :=
        indent = 0 || cursor.column < indent
      match cursor.rest with
      | [] => some ⟨[], cursor.column, cursor⟩
      | c :: _ =>
          if isWithin && c == '\t' then
            none
          else if isBreak c then do
            let more ←
              readEmptyLines? indent limit cursor.next
            return ⟨c :: more.breaks,
              Nat.max cursor.column more.deepest,
              more.behind⟩
          else
            some ⟨[], cursor.column, cursor⟩

/- The lines of a block, as far as they were read. -/
structure BlockLines where
  text : List Char
  /- The break of the last line. -/
  ending : List Char
  /- The breaks of the empty lines behind it. -/
  breaks : List Char
  behind : Cursor

/-
  The lines of a block, behind a line with some break, some
  empty lines and perhaps a blank at its start. A break is
  folded between two lines without one. Each step takes a
  line, so the limit is the length of the text.
-/
def readLines?
    (folded : Bool)
    (indent : Nat) :
    Nat → List Char → List Char → Bool → Cursor →
      Option BlockLines
  | 0, _, _, _, _ => none
  | limit + 1, ending, breaks, spaced, cursor => do
      if cursor.column ≠ indent ∨ cursor.rest = [] then
        return ⟨[], ending, breaks, cursor⟩
      let isSpaced := cursor.head?.any isBlank
      let joint :=
        if folded && ending == ['\n'] && !spaced &&
            !isSpaced then
          if breaks.isEmpty then [' '] else []
        else
          ending
      let (line, stop) := cursor.span (!isBreak ·)
      let empty ← readEmptyLines? indent
        (stop.rest.length + 1) stop.next
      let more ← readLines? folded indent limit
        (stop.rest.take 1) empty.breaks isSpaced
        empty.behind
      return { more with
        text := joint ++ breaks ++ line ++ more.text }

/-
  The text of a block, and the place behind it. The cursor
  stands at the indicator. What is in the block starts at
  the margin or behind it.
-/
def readBlock?
    (margin : Nat)
    (cursor : Cursor) : Option (String × Cursor) := do
  let head ← readBlockHead? cursor.next
  let limit := cursor.rest.length + 1
  let given :=
    if head.indent = 0 then 0 else margin - 1 + head.indent
  let empty ← readEmptyLines? given limit head.behind
  let indent :=
    if given = 0 then
      Nat.max 1 (Nat.max margin empty.deepest)
    else
      given
  let lines ← readLines? (cursor.startsWith '>') indent
    limit [] empty.breaks false empty.behind
  let text := lines.text ++
    (match head.chomping with
     | .clip => lines.ending
     | .strip => []
     | .keep => lines.ending ++ lines.breaks)
  return (String.ofList text, lines.behind)

end Yaml

end Abnf
