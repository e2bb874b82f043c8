import Abnf.Yaml.Scalar
import Abnf.Yaml.Tag

/-
  Tokens of a YAML text.

  The tokens say by themselves what the indentation of the
  text says: where blocks start and end, and which scalars
  are keys.

  Key definitions include:
    * `Abnf.Yaml.Token`
    * `Abnf.Yaml.readDirective?`
    * `Abnf.Yaml.readName?`
-/

------------------------------------------------------------
-- Tokens
------------------------------------------------------------

namespace Abnf

namespace Yaml

/- A part of a text. -/
inductive Token where
  /- The version of the language. -/
  | version (major minor : Nat)
  /- What a handle stands for. -/
  | handle (handle : Handle)
  | documentStart
  | documentEnd
  /- A list starts whose items stand behind dashes. -/
  | listStart
  /- A mapping starts whose keys stand on lines. -/
  | mappingStart
  /- Such a list or mapping ends. -/
  | blockEnd
  | openBracket
  | closeBracket
  | openBrace
  | closeBrace
  | comma
  /- The dash of an item. -/
  | item
  /- A key follows. -/
  | key
  /- The value of a key follows. -/
  | value
  /- The node of an anchor. -/
  | reference (name : String)
  | anchor (name : String)
  | tag (tag : Tag)
  | scalar (plain : Bool) (text : String)
deriving DecidableEq, Inhabited

end Yaml

end Abnf

------------------------------------------------------------
-- Directives
------------------------------------------------------------

namespace Abnf

namespace Yaml

/- Numbers of versions have no more digits than this. -/
def versionDigits : Nat := 9

/- A part of a version, and the place behind it. -/
def readVersionPart?
    (cursor : Cursor) : Option (Nat × Cursor) :=
  let (digits, behind) := cursor.span Char.isDigit
  if digits.isEmpty || versionDigits < digits.length then
    none
  else
    some (digits.foldl
      (fun n c => 10 * n + (c.toNat - '0'.toNat)) 0, behind)

/- The version of a line, and the place behind it. -/
def readVersion?
    (cursor : Cursor) : Option (Token × Cursor) := do
  let (major, point) ←
    readVersionPart? (cursor.skip isBlank)
  if !point.startsWith '.' then
    none
  let (minor, behind) ← readVersionPart? point.next
  return (.version major minor, behind)

/-
  The directive of a line, and the place behind the line.
  The cursor stands at the percent sign.
-/
def readDirective?
    (cursor : Cursor) : Option (Token × Cursor) := do
  let (name, first) := cursor.next.span isWord
  if !isApart first.rest then
    none
  let (token, behind) ←
    match String.ofList name with
    | "YAML" => readVersion? first
    | "TAG" => do
        let (handle, behind) ← readHandleLine? first
        some (.handle handle, behind)
    | _ => none
  return (token, ← behind.lineEnd?)

end Yaml

end Abnf

------------------------------------------------------------
-- Names
------------------------------------------------------------

namespace Abnf

namespace Yaml

/-
  The name of an anchor, and the place behind it. White or
  one of some marks has to follow. The cursor stands at the
  sign in front of the name.
-/
def readName?
    (cursor : Cursor) : Option (String × Cursor) :=
  let (name, behind) := cursor.next.span isWord
  let ends := isApart behind.rest ||
    behind.head?.any
      (['?', ':', ',', ']', '\x7d', '%', '@',
        '\x60'].contains ·)
  if name.isEmpty || !ends then
    none
  else
    some (String.ofList name, behind)

end Yaml

end Abnf
