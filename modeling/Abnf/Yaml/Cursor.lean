/-
  Places in a YAML text.

  A text holds printable characters only. Carriage returns
  and next lines end lines as line feeds do and are read as
  such; the line and the paragraph separator end lines too
  but stay what they are. A cursor is a place in a text: what
  is still to be read, and the line and column where it
  stands.

  Key definitions include:
    * `Abnf.Yaml.Cursor`
    * `Abnf.Yaml.Cursor.ofText?`
    * `Abnf.Yaml.Cursor.move`
    * `Abnf.Yaml.Cursor.span`
-/

------------------------------------------------------------
-- Characters
------------------------------------------------------------

namespace Abnf

namespace Yaml

/- The character may stand in a text. -/
def isLegal
    (c : Char) : Bool :=
  c == '\t' || c == '\n' || c == '\r' || c == '\u0085' ||
    (' ' ≤ c && c ≤ '~') ||
    ('\u00a0' ≤ c && c ≤ '\ufffd') ||
    '\uffff' < c

/- The character ends a line. -/
def isBreak
    (c : Char) : Bool :=
  c == '\n' || c == '\u2028' || c == '\u2029'

/- The character is a blank. -/
def isBlank
    (c : Char) : Bool :=
  c == ' ' || c == '\t'

/- The character is a blank or ends a line. -/
def isWhite
    (c : Char) : Bool :=
  isBlank c || isBreak c

/- Names are made of such characters. -/
def isWord
    (c : Char) : Bool :=
  c.isAlphanum || c == '_' || c == '-'

/- The text starts with white or is at its end. -/
def isApart : List Char → Bool
  | [] => true
  | c :: _ => isWhite c

/- One line feed for each of the usual ends of lines. -/
def unifyBreaks : List Char → List Char
  | [] => []
  | '\r' :: '\n' :: rest => '\n' :: unifyBreaks rest
  | c :: rest =>
      (if c == '\r' || c == '\u0085' then '\n' else c) ::
        unifyBreaks rest

end Yaml

end Abnf

------------------------------------------------------------
-- Cursors
------------------------------------------------------------

namespace Abnf

namespace Yaml

/- A place in a text. Lines and columns count from zero. -/
structure Cursor where
  rest : List Char
  line : Nat
  column : Nat
deriving DecidableEq, Inhabited

namespace Cursor

/- The place behind the next character. -/
def next
    (cursor : Cursor) : Cursor :=
  match cursor.rest with
  | [] => cursor
  | c :: rest =>
      if isBreak c then
        ⟨rest, cursor.line + 1, 0⟩
      else
        ⟨rest, cursor.line, cursor.column + 1⟩

/- The place behind some characters. -/
def move : Nat → Cursor → Cursor
  | 0, cursor => cursor
  | count + 1, cursor => move count cursor.next

/-
  The longest stretch of characters of some kind, and the
  place behind it.
-/
def span
    (kind : Char → Bool)
    (cursor : Cursor) : List Char × Cursor :=
  let text := cursor.rest.takeWhile kind
  (text, cursor.move text.length)

/- The place behind all characters of some kind. -/
def skip
    (kind : Char → Bool)
    (cursor : Cursor) : Cursor :=
  (cursor.span kind).2

/-
  The start of a text. None, if a character may not stand in
  a text.
-/
def ofText?
    (text : String) : Option Cursor :=
  if text.toList.all isLegal then
    some ⟨unifyBreaks text.toList, 0, 0⟩
  else
    none

/- The next character. -/
def head?
    (cursor : Cursor) : Option Char :=
  cursor.rest.head?

/- The next character is the given one. -/
def startsWith
    (cursor : Cursor)
    (c : Char) : Bool :=
  cursor.head? == some c

/-
  The place behind a mark of the byte order, which may start
  a line. It takes a column like any character.
-/
def skipOrderMark
    (cursor : Cursor) : Cursor :=
  if cursor.column = 0 ∧ cursor.startsWith '\ufeff' then
    cursor.next
  else
    cursor

/- Three of the same character start a line and stand alone. -/
def isMark
    (cursor : Cursor)
    (c : Char) : Bool :=
  cursor.column == 0 &&
    cursor.rest.take 3 == [c, c, c] &&
    isApart (cursor.rest.drop 3)

/- A document starts or ends here. -/
def isDocumentMark
    (cursor : Cursor) : Bool :=
  cursor.isMark '-' || cursor.isMark '.'

/-
  The end of the line, behind blanks and a comment. None, if
  something else is in between.
-/
def lineEnd?
    (cursor : Cursor) : Option Cursor :=
  let cursor := cursor.skip isBlank
  let cursor :=
    if cursor.startsWith '#' then
      cursor.skip (!isBreak ·)
    else
      cursor
  match cursor.rest with
  | [] => some cursor
  | c :: _ => if isBreak c then some cursor.next else none

end Cursor

end Yaml

end Abnf
