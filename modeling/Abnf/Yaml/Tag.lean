import Abnf.Text.Hexadecimal
import Abnf.Yaml.Cursor

/-
  Tags of values.

  A tag is written whole, in angle brackets, or as a handle
  and a rest. What handles stand for is said in front of a
  document. The texts of tags are octets, each of which is
  kept as the character of its number; the octet zero ends
  a tag.

  Key definitions include:
    * `Abnf.Yaml.Tag`
    * `Abnf.Yaml.readTag?`
    * `Abnf.Yaml.readHandleLine?`
    * `Abnf.Yaml.Tag.resolve?`
-/

------------------------------------------------------------
-- Tags
------------------------------------------------------------

namespace Abnf

namespace Yaml

/- A tag as it is written. -/
inductive Tag where
  | whole (text : String)
  | short (handle : String) (rest : String)
deriving DecidableEq, Inhabited

/- What a handle stands for. -/
structure Handle where
  handle : String
  meaning : String
deriving DecidableEq, Inhabited

/- The handles that need not be declared. -/
def Handle.usual : List Handle :=
  [⟨"!", "!"⟩, ⟨"!!", "tag:yaml.org,2002:"⟩]

/-
  The text of a tag. None, if nothing says what its handle
  stands for. The first that says it counts.
-/
def Tag.resolve?
    (handles : List Handle) : Tag → Option String
  | whole text => some text
  | short handle rest =>
      (handles.find? (·.handle == handle)).map
        (·.meaning ++ rest)

end Yaml

end Abnf

------------------------------------------------------------
-- Octets
------------------------------------------------------------

namespace Abnf

namespace Yaml

/- An octet, written as a percent sign and two digits. -/
def readOctet? : List Char → Option Nat
  | '%' :: c :: d :: _ => Text.hexNumber? [c, d]
  | _ => none

/- The number of octets that a first octet announces. -/
def octetCount?
    (octet : Nat) : Option Nat :=
  if octet < 0x80 then some 1
  else if octet < 0xC0 then none
  else if octet < 0xE0 then some 2
  else if octet < 0xF0 then some 3
  else if octet < 0xF8 then some 4
  else none

/- Octets that go on with a character. -/
def readFurther? :
    Nat → List Char → Option (List Nat)
  | 0, _ => some []
  | count + 1, text => do
      let octet ← readOctet? text
      if octet < 0x80 ∨ 0xC0 ≤ octet then
        none
      else
        let more ← readFurther? count (text.drop 3)
        return octet :: more

/- The octets of a character. -/
def readOctets?
    (text : List Char) : Option (List Nat) := do
  let octet ← readOctet? text
  let count ← octetCount? octet
  let more ← readFurther? (count - 1) (text.drop 3)
  return octet :: more

end Yaml

end Abnf

------------------------------------------------------------
-- Texts of Tags
------------------------------------------------------------

namespace Abnf

namespace Yaml

/-
  The character may stand in a tag. Those that divide what
  is in brackets may stand in whole tags only.
-/
def isTagChar
    (whole : Bool)
    (c : Char) : Bool :=
  isWord c || ";/?:@&=+$.!~*'()".toList.contains c ||
    (whole && ",[]".toList.contains c)

/-
  The text of a tag, and the place behind it. Each step
  takes a character at least, so the limit is the length of
  the text.
-/
def readTagTextWithin?
    (whole : Bool) :
    Nat → Cursor → Option (List Char × Cursor)
  | 0, cursor => some ([], cursor)
  | limit + 1, cursor =>
      match cursor.head? with
      | none => some ([], cursor)
      | some c =>
          if c = '%' then do
            let octets ← readOctets? cursor.rest
            let (text, behind) ←
              readTagTextWithin? whole limit
                (cursor.move (3 * octets.length))
            return (octets.map Char.ofNat ++ text, behind)
          else if isTagChar whole c then do
            let (text, behind) ←
              readTagTextWithin? whole limit cursor.next
            return (c :: text, behind)
          else
            some ([], cursor)

/- The text of a tag, and the place behind it. -/
def readTagText?
    (whole : Bool)
    (cursor : Cursor) : Option (List Char × Cursor) :=
  readTagTextWithin? whole cursor.rest.length cursor

/- As above, but something has to be there. -/
def readSomeTagText?
    (whole : Bool)
    (cursor : Cursor) : Option (List Char × Cursor) :=
  (readTagText? whole cursor).filter (!·.1.isEmpty)

/- The octets of a tag, which ends before the octet zero. -/
def tagOf
    (text : List Char) : String :=
  String.ofList (text.takeWhile (· != '\x00'))

/-
  The tag at a place, and the place behind it. The cursor
  stands at an exclamation mark. One that stands alone is a
  whole tag.
-/
def readTag?
    (cursor : Cursor) : Option (Tag × Cursor) :=
  let first := cursor.next
  if first.startsWith '<' then do
    let (text, behind) ← readSomeTagText? true first.next
    if behind.startsWith '>' then
      return (.whole (tagOf text), behind.next)
    else
      none
  else
    let (name, second) := first.span isWord
    if second.startsWith '!' then do
      let (text, behind) ←
        readSomeTagText? false second.next
      return (.short ("!" ++ String.ofList name ++ "!")
        (tagOf text), behind)
    else do
      let (text, behind) ← readTagText? false second
      let rest := tagOf (name ++ text)
      return (if rest.isEmpty then .whole "!"
        else .short "!" rest, behind)

/-
  What a line says that a handle stands for, and the place
  behind it.
-/
def readHandleLine?
    (cursor : Cursor) : Option (Handle × Cursor) := do
  let first := cursor.skip isBlank
  if !first.startsWith '!' then
    none
  let (name, second) := first.next.span isWord
  let (handle, third) ←
    if second.startsWith '!' then
      some ("!" ++ String.ofList name ++ "!", second.next)
    else if name.isEmpty then
      some ("!", second)
    else
      none
  if !third.head?.any isBlank then
    none
  let (text, behind) ←
    readSomeTagText? true (third.skip isBlank)
  if isApart behind.rest then
    return (⟨handle, tagOf text⟩, behind)
  else
    none

end Yaml

end Abnf
