/-
  Lines of a text.

  ABNF wants every line feed to follow a carriage return;
  `endLines` brings a text into that form. `position` gives
  the line and column of an offset. Offsets and columns
  count bytes.

  Key definitions include:
    * `Abnf.Text.endLines`
    * `Abnf.Text.bytes`
    * `Abnf.Text.Position`
    * `Abnf.Text.position`
-/

------------------------------------------------------------
-- Line Endings
------------------------------------------------------------

namespace Abnf

namespace Text

/-
  Put a carriage return before each line feed that does not
  follow one, where `last` is the character before the rest.
-/
def endLinesAfter
    (last : Char) :
    List Char → List Char
  | [] => []
  | c :: rest =>
      if c = '\n' ∧ last ≠ '\r' then
        '\r' :: c :: endLinesAfter c rest
      else
        c :: endLinesAfter c rest

/-
  Put a carriage return before each line feed that does not
  follow one. Nothing else changes.
-/
def endLines
    (text : String) : String :=
  String.ofList (endLinesAfter ' ' text.toList)

end Text

end Abnf

------------------------------------------------------------
-- Positions
------------------------------------------------------------

namespace Abnf

namespace Text

/- The bytes of a text in UTF-8. -/
def bytes
    (text : String) : Array UInt8 :=
  text.toUTF8.data

/- The byte of a line feed. -/
def lineFeed : UInt8 := 10

/- Columns are kept as words below this limit. -/
def columnLimit : Nat := 1 <<< 64

/- A line and a column, both counted from one. -/
structure Position where
  line : Nat
  column : Nat
deriving DecidableEq, Inhabited

/- The offset just after the last line feed. -/
def lineStart
    (before : List UInt8) : Nat :=
  before.length -
    (before.reverse.takeWhile (· != lineFeed)).length

/-
  The position of an offset. An offset past the end counts
  on in the last line. Only the column of an offset just
  below the limit can reach the limit, and starts at zero
  again there.
-/
def position
    (text : Array UInt8)
    (index : Nat) : Position :=
  let before := text.toList.take index
  { line := before.count lineFeed + 1
    column :=
      (index - lineStart before + 1) % columnLimit }

end Text

end Abnf
