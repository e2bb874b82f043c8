import Abnf.Yaml.Token

/-
  From the layout of a text to its tokens.

  A text is read token by token. The columns of dashes and
  keys open and close blocks; within brackets columns mean
  nothing. Where a key may start, its place is kept until a
  colon shows that there was one, and tokens go in front of
  what stands there. A key stays on its line and is short.

  Key definitions include:
    * `Abnf.Yaml.KeyPlace`
    * `Abnf.Yaml.Layout`
    * `Abnf.Yaml.Layout.settle?`
    * `Abnf.Yaml.Layout.read?`
    * `Abnf.Yaml.Token.ofText?`
-/

------------------------------------------------------------
-- Layouts
------------------------------------------------------------

namespace Abnf

namespace Yaml

/- A place where a key may have started. -/
structure KeyPlace where
  /- The number of tokens in front. -/
  count : Nat
  line : Nat
  column : Nat
  /- Only a key can be there. -/
  required : Bool
deriving DecidableEq, Inhabited

/- Keys are no longer than this. -/
def keyLimit : Nat := 1024

/- A key at the place would have ended by now. -/
def KeyPlace.isPast
    (place : KeyPlace)
    (cursor : Cursor) : Bool :=
  place.line < cursor.line ||
    place.column + keyLimit < cursor.column

/- A text that is read as far as a cursor. -/
structure Layout where
  cursor : Cursor
  /- The tokens so far, the last one first. -/
  tokens : List Token
  /- The number of tokens so far. -/
  count : Nat
  /- What is in the innermost block starts here or behind. -/
  margin : Nat
  /- The margins around it. -/
  margins : List Nat
  /- Where a key of the innermost brackets may be. -/
  place : Option KeyPlace
  /- Where keys around each of the brackets may be. -/
  places : List (Option KeyPlace)
  /- A key may start here. -/
  keyAllowed : Bool
deriving Inhabited

namespace Layout

/- The start of a text. -/
def start
    (cursor : Cursor) : Layout :=
  { cursor := cursor
    tokens := []
    count := 0
    margin := 0
    margins := []
    place := none
    places := []
    keyAllowed := true }

/- The text is within brackets. -/
def inFlow
    (layout : Layout) : Bool :=
  !layout.places.isEmpty

/- Add a token. -/
def push
    (layout : Layout)
    (token : Token) : Layout :=
  { layout with
    tokens := token :: layout.tokens
    count := layout.count + 1 }

/- Put a token behind some of the first ones. -/
def insert
    (layout : Layout)
    (count : Nat)
    (token : Token) : Layout :=
  let later := layout.count - count
  { layout with
    tokens := layout.tokens.take later ++
      token :: layout.tokens.drop later
    count := layout.count + 1 }

/- Go on behind a token. -/
def after
    (layout : Layout)
    (token : Token)
    (cursor : Cursor) : Layout :=
  { layout.push token with cursor := cursor }

/- Say whether a key may start here. -/
def allowKey
    (layout : Layout)
    (allowed : Bool) : Layout :=
  { layout with keyAllowed := allowed }

end Layout

end Yaml

end Abnf

------------------------------------------------------------
-- Blocks
------------------------------------------------------------

namespace Abnf

namespace Yaml

namespace Layout

/-
  Open a block at a column, unless one is open there. Its
  token goes behind some of the first ones.
-/
def openBlock
    (layout : Layout)
    (column count : Nat)
    (token : Token) : Layout :=
  if layout.inFlow || column < layout.margin then
    layout
  else
    { layout.insert count token with
      margin := column + 1
      margins := layout.margin :: layout.margins }

/- Close the blocks whose contents start behind a margin. -/
def closeWithin
    (margin : Nat) :
    List Nat → Layout → Layout
  | [], layout => layout
  | outer :: margins, layout =>
      if layout.margin ≤ margin then
        layout
      else
        closeWithin margin margins
          { layout.push .blockEnd with
            margin := outer
            margins := margins }

/- Close the blocks whose contents start behind a margin. -/
def closeBlocks
    (layout : Layout)
    (margin : Nat) : Layout :=
  if layout.inFlow then
    layout
  else
    closeWithin margin layout.margins layout

end Layout

end Yaml

end Abnf

------------------------------------------------------------
-- Keys
------------------------------------------------------------

namespace Abnf

namespace Yaml

namespace Layout

/- Give up a place, which is wrong if a key is required. -/
def giveUp? :
    Option KeyPlace → Option (Option KeyPlace)
  | none => some none
  | some place => if place.required then none else some none

/- Give up a place if a key there would have ended. -/
def review?
    (cursor : Cursor) :
    Option KeyPlace → Option (Option KeyPlace)
  | none => some none
  | some place =>
      if place.isPast cursor then
        giveUp? (some place)
      else
        some (some place)

/- Give up the places where keys would have ended. -/
def reviewPlaces?
    (layout : Layout) : Option Layout := do
  return { layout with
    place := ← review? layout.cursor layout.place
    places :=
      ← layout.places.mapM (review? layout.cursor) }

/- Give up the innermost place. -/
def dropPlace?
    (layout : Layout) : Option Layout := do
  return { layout with place := ← giveUp? layout.place }

/- Keep the place if a key may start here. -/
def keepPlace?
    (layout : Layout) : Option Layout := do
  if layout.keyAllowed then
    let layout ← layout.dropPlace?
    let column := layout.cursor.column
    let required :=
      !layout.inFlow && layout.margin == column + 1
    return { layout with
      place := some ⟨layout.count, layout.cursor.line,
        column, required⟩ }
  else
    return layout

end Layout

end Yaml

end Abnf

------------------------------------------------------------
-- Between Tokens
------------------------------------------------------------

namespace Abnf

namespace Yaml

namespace Layout

/-
  Skip blanks, comments and breaks, and a mark of the byte
  order at the start of each line. A tab is no blank where a
  key may start, but in brackets. Behind a break keys may
  start, but not in brackets. Each step takes a line, so the
  limit is the length of the text.
-/
def skipWhite : Nat → Layout → Layout
  | 0, layout => layout
  | limit + 1, layout =>
      let tabs := layout.inFlow || !layout.keyAllowed
      let cursor := layout.cursor.skipOrderMark.skip
        (fun c => c == ' ' || (tabs && c == '\t'))
      let cursor :=
        if cursor.startsWith '#' then
          cursor.skip (!isBreak ·)
        else
          cursor
      if cursor.head?.any isBreak then
        skipWhite limit
          { layout with
            cursor := cursor.next
            keyAllowed :=
              layout.keyAllowed || !layout.inFlow }
      else
        { layout with cursor := cursor }

/-
  Go to the next token, give up what cannot be a key any
  more, and close the blocks that end before it.
-/
def settle?
    (layout : Layout) : Option Layout := do
  let layout :=
    skipWhite (layout.cursor.rest.length + 1) layout
  let layout ← layout.reviewPlaces?
  return layout.closeBlocks (layout.cursor.column + 1)

end Layout

end Yaml

end Abnf

------------------------------------------------------------
-- Reading Tokens
------------------------------------------------------------

namespace Abnf

namespace Yaml

namespace Layout

/- Close all blocks; no key may follow on the line. -/
def leaveBlocks?
    (layout : Layout) : Option Layout := do
  let layout ← (layout.closeBlocks 0).dropPlace?
  return layout.allowKey false

/- The directive of a line. -/
def readDirective?
    (layout : Layout) : Option Layout := do
  let layout ← layout.leaveBlocks?
  let (token, behind) ← Yaml.readDirective? layout.cursor
  return layout.after token behind

/- The mark of a document. -/
def readMark?
    (token : Token)
    (layout : Layout) : Option Layout := do
  let layout ← layout.leaveBlocks?
  return layout.after token (layout.cursor.move 3)

/- An opening bracket. -/
def readOpening?
    (token : Token)
    (layout : Layout) : Option Layout := do
  let layout ← layout.keepPlace?
  return { layout.after token layout.cursor.next with
    place := none
    places := layout.place :: layout.places
    keyAllowed := true }

/- A closing bracket. -/
def readClosing?
    (token : Token)
    (layout : Layout) : Option Layout := do
  let layout ← layout.dropPlace?
  return { layout.after token layout.cursor.next with
    place := layout.places.headD none
    places := layout.places.tail
    keyAllowed := false }

/- A comma. -/
def readComma?
    (layout : Layout) : Option Layout := do
  let layout ← layout.dropPlace?
  return (layout.after .comma layout.cursor.next).allowKey
    true

/-
  Open a block at a sign that stands where a key may start,
  which it has to do outside of brackets.
-/
def openAtSign?
    (token : Token)
    (layout : Layout) : Option Layout :=
  if layout.inFlow then
    some layout
  else if layout.keyAllowed then
    some (layout.openBlock layout.cursor.column layout.count
      token)
  else
    none

/- The dash of an item. -/
def readItem?
    (layout : Layout) : Option Layout := do
  let layout ← layout.openAtSign? .listStart
  let layout ← layout.dropPlace?
  return (layout.after .item layout.cursor.next).allowKey
    true

/- The sign of a key. -/
def readKey?
    (layout : Layout) : Option Layout := do
  let layout ← layout.openAtSign? .mappingStart
  let layout ← layout.dropPlace?
  return (layout.after .key layout.cursor.next).allowKey
    !layout.inFlow

/-
  The colon of a value. It makes a key of what stands at the
  place that was kept, and the key may open a mapping.
-/
def readValue?
    (layout : Layout) : Option Layout := do
  let layout ←
    match layout.place with
    | some place =>
        let layout := layout.insert place.count .key
        let layout := layout.openBlock place.column
          place.count .mappingStart
        some { layout with
          place := none, keyAllowed := false }
    | none => do
        let layout ← layout.openAtSign? .mappingStart
        some (layout.allowKey !layout.inFlow)
  return layout.after .value layout.cursor.next

/- The name of an anchor. -/
def readAnchor?
    (token : String → Token)
    (layout : Layout) : Option Layout := do
  let layout ← layout.keepPlace?
  let (name, behind) ← readName? layout.cursor
  return (layout.after (token name) behind).allowKey false

/- A tag. White follows, or a comma in brackets. -/
def readTag?
    (layout : Layout) : Option Layout := do
  let layout ← layout.keepPlace?
  let (tag, behind) ← Yaml.readTag? layout.cursor
  if isApart behind.rest ||
      (layout.inFlow && behind.startsWith ',') then
    return (layout.after (.tag tag) behind).allowKey false
  else
    none

/- A block of lines. -/
def readBlock?
    (layout : Layout) : Option Layout := do
  let layout ← layout.dropPlace?
  let (text, behind) ←
    Yaml.readBlock? layout.margin layout.cursor
  return (layout.after (.scalar false text) behind).allowKey
    true

/- A quoted scalar. -/
def readQuoted?
    (layout : Layout) : Option Layout := do
  let layout ← layout.keepPlace?
  let (text, behind) ← Yaml.readQuoted? layout.cursor
  return (layout.after (.scalar false text) behind).allowKey
    false

/- A plain scalar. -/
def readPlain?
    (layout : Layout) : Option Layout := do
  let layout ← layout.keepPlace?
  let plain ← Yaml.readPlain? layout.inFlow layout.margin
    layout.cursor
  let token := Token.scalar true (String.ofList plain.text)
  return (layout.after token plain.behind).allowKey
    plain.broken

/- Characters with which no plain scalar starts. -/
def isIndicator
    (c : Char) : Bool :=
  ['-', '?', ':', ',', '[', ']', '\x7b', '\x7d', '#', '&',
   '*', '!', '|', '>', '\'', '"', '%', '@',
   '\x60'].contains c

/- A plain scalar starts here. -/
def startsPlain
    (flow : Bool)
    (c : Char)
    (rest : List Char) : Bool :=
  !(isWhite c || isIndicator c) ||
    (c == '-' && !rest.head?.any isBlank) ||
    (!flow && (c == '?' || c == ':') && !isApart rest)

/- The token that starts with some character. -/
def readAt?
    (layout : Layout)
    (c : Char)
    (rest : List Char) : Option Layout :=
  let flow := layout.inFlow
  if layout.cursor.column = 0 ∧ c = '%' then
    layout.readDirective?
  else if layout.cursor.isMark '-' then
    layout.readMark? .documentStart
  else if layout.cursor.isMark '.' then
    layout.readMark? .documentEnd
  else if c = '[' then
    layout.readOpening? .openBracket
  else if c = '\x7b' then
    layout.readOpening? .openBrace
  else if c = ']' then
    layout.readClosing? .closeBracket
  else if c = '\x7d' then
    layout.readClosing? .closeBrace
  else if c = ',' then
    layout.readComma?
  else if c = '-' ∧ isApart rest then
    layout.readItem?
  else if c = '?' ∧ (flow || isApart rest) then
    layout.readKey?
  else if c = ':' ∧ (flow || isApart rest) then
    layout.readValue?
  else if c = '*' then
    layout.readAnchor? .reference
  else if c = '&' then
    layout.readAnchor? .anchor
  else if c = '!' then
    layout.readTag?
  else if (c = '|' ∨ c = '>') ∧ !flow then
    layout.readBlock?
  else if c = '\'' ∨ c = '"' then
    layout.readQuoted?
  else if startsPlain flow c rest then
    layout.readPlain?
  else
    none

/-
  All tokens of a text. Each step takes a character at
  least, so the limit is the length of the text.
-/
def readAll? :
    Nat → Layout → Option (List Token)
  | 0, _ => none
  | limit + 1, layout => do
      let layout ← layout.settle?
      match layout.cursor.rest with
      | [] =>
          let layout ← layout.leaveBlocks?
          return layout.tokens.reverse
      | c :: rest =>
          readAll? limit (← layout.readAt? c rest)

end Layout

/- The tokens of a text. -/
def Token.ofText?
    (text : String) : Option (List Token) := do
  let cursor ← Cursor.ofText? text
  Layout.readAll? (cursor.rest.length + 1)
    (.start cursor)

end Yaml

end Abnf
