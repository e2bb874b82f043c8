import Abnf.Yaml.Layout

/-
  Nodes of YAML documents.

  A node is a scalar, a list or a mapping, or it stands for
  another one by the number of that one's anchor. The number
  of an anchor is how many other names there are when it is
  met; a name stands for the last anchor that has it.

  Key definitions include:
    * `Abnf.Yaml.Node`
    * `Abnf.Yaml.Node.anchors`
    * `Abnf.Yaml.Reading`
    * `Abnf.Yaml.readNode?`
-/

------------------------------------------------------------
-- Nodes
------------------------------------------------------------

namespace Abnf

namespace Yaml

/- A node of a document. -/
inductive Node where
  | scalar (tag : Option String) (plain : Bool)
      (text : String)
  | list (items : List Node)
  | mapping (entries : List (Node × Node))
  /- A node with an anchor. -/
  | anchored (number : Nat) (node : Node)
  /- The node of an anchor. -/
  | reference (number : Nat)
deriving Inhabited

namespace Node

/- The node of a place where nothing is written. -/
def blank : Node :=
  scalar none true ""

mutual

/- The anchored nodes within a node, in their order. -/
def anchors : Node → List (Nat × Node)
  | scalar .. => []
  | list items => anchorsOfItems items
  | mapping entries => anchorsOfEntries entries
  | anchored number node =>
      (number, node) :: anchors node
  | reference _ => []

/- The anchored nodes within some items. -/
def anchorsOfItems : List Node → List (Nat × Node)
  | [] => []
  | node :: rest => anchors node ++ anchorsOfItems rest

/- The anchored nodes within some keys and values. -/
def anchorsOfEntries :
    List (Node × Node) → List (Nat × Node)
  | [] => []
  | (key, value) :: rest =>
      anchors key ++ anchors value ++ anchorsOfEntries rest

end

end Node

end Yaml

end Abnf

------------------------------------------------------------
-- Properties
------------------------------------------------------------

namespace Abnf

namespace Yaml

/- Tokens that are read one after the other. -/
structure Reading where
  tokens : List Token
  /- The names of anchors and their numbers. -/
  names : List (String × Nat)
deriving Inhabited

namespace Reading

/- The next token. -/
def head?
    (reading : Reading) : Option Token :=
  reading.tokens.head?

/- The next token is one of some. -/
def isAtOne
    (reading : Reading)
    (tokens : List Token) : Bool :=
  reading.head?.any tokens.contains

/- Go on behind the next token. -/
def next
    (reading : Reading) : Reading :=
  { reading with tokens := reading.tokens.tail }

/- Go on behind a token that has to be there. -/
def expect?
    (reading : Reading)
    (token : Token) : Option Reading :=
  if reading.head? = some token then
    some reading.next
  else
    none

/- Give a number to an anchor. -/
def name
    (reading : Reading)
    (name : String) : Nat × Reading :=
  let number := reading.names.length
  (number, { reading with
    names := (name, number) ::
      reading.names.filter (·.1 != name) })

end Reading

/- What stands in front of a node. -/
structure Properties where
  anchor : Option String
  tag : Option Tag
deriving Inhabited

/- The properties of a node; there is one of each kind. -/
def readProperties
    (reading : Reading) : Properties × Reading :=
  match reading.tokens with
  | .anchor name :: .tag tag :: _ =>
      (⟨some name, some tag⟩, reading.next.next)
  | .tag tag :: .anchor name :: _ =>
      (⟨some name, some tag⟩, reading.next.next)
  | .anchor name :: _ => (⟨some name, none⟩, reading.next)
  | .tag tag :: _ => (⟨none, some tag⟩, reading.next)
  | _ => (⟨none, none⟩, reading)

end Yaml

end Abnf

------------------------------------------------------------
-- Reading Nodes
------------------------------------------------------------

namespace Abnf

namespace Yaml

/- What a node may be at its place. -/
inductive Position where
  /- In brackets. -/
  | flow
  /- On lines of its own. -/
  | block
  /- On lines of its own, where dashes need no indent. -/
  | entry
deriving DecidableEq, Inhabited

mutual

/- The node at the start of some tokens. -/
def readNode?
    (handles : List Handle) :
    Nat → Position → Reading → Option (Node × Reading)
  | 0, _, _ => none
  | limit + 1, position, reading =>
      match reading.head? with
      | some (.reference name) => do
          let number ← reading.names.lookup name
          return (.reference number, reading.next)
      | _ => do
          let (properties, reading) :=
            readProperties reading
          let tag ← properties.tag.mapM
            (Tag.resolve? handles)
          match properties.anchor with
          | none =>
              readContent? handles limit position tag
                tag.isSome reading
          | some name =>
              let (number, reading) := reading.name name
              let (node, reading) ←
                readContent? handles limit position tag
                  true reading
              return (.anchored number node, reading)

/-
  What a node holds, behind its properties. It may be empty
  if it has some. A lone exclamation mark is no tag of a
  scalar that is written.
-/
def readContent?
    (handles : List Handle) :
    Nat → Position → Option String → Bool → Reading →
      Option (Node × Reading)
  | 0, _, _, _, _ => none
  | limit + 1, position, tag, hasProperties, reading =>
      match reading.head? with
      | some (.scalar plain text) =>
          let tag := if tag = some "!" then none else tag
          some (.scalar tag plain text, reading.next)
      | some .openBracket => do
          let (items, reading) ←
            readFlowItems? handles limit true reading.next
          return (.list items, reading)
      | some .openBrace => do
          let (entries, reading) ←
            readFlowEntries? handles limit true reading.next
          return (.mapping entries, reading)
      | head =>
          if position = .entry ∧ head = some .item then do
            let (items, reading) ←
              readItems? handles limit
                [.item, .key, .value, .blockEnd] reading
            return (.list items, reading)
          else if position ≠ .flow ∧
              head = some .listStart then do
            let (items, reading) ←
              readItems? handles limit [.item, .blockEnd]
                reading.next
            return (.list items, ← reading.expect? .blockEnd)
          else if position ≠ .flow ∧
              head = some .mappingStart then do
            let (entries, reading) ←
              readEntries? handles limit reading.next
            return (.mapping entries,
              ← reading.expect? .blockEnd)
          else if hasProperties then
            some (.scalar tag true "", reading)
          else
            none

/- A node, or a blank one if some tokens come next. -/
def readOptional?
    (handles : List Handle) :
    Nat → Position → List Token → Reading →
      Option (Node × Reading)
  | 0, _, _, _ => none
  | limit + 1, position, ends, reading =>
      if reading.isAtOne ends then
        some (.blank, reading)
      else
        readNode? handles limit position reading

/-
  Items behind dashes. One of some tokens shows that an item
  is empty.
-/
def readItems?
    (handles : List Handle) :
    Nat → List Token → Reading →
      Option (List Node × Reading)
  | 0, _, _ => none
  | limit + 1, ends, reading =>
      if reading.isAtOne [.item] then do
        let (node, reading) ←
          readOptional? handles limit .block ends
            reading.next
        let (nodes, reading) ←
          readItems? handles limit ends reading
        return (node :: nodes, reading)
      else
        some ([], reading)

/- Keys on lines, each with its value if it has one. -/
def readEntries?
    (handles : List Handle) :
    Nat → Reading →
      Option (List (Node × Node) × Reading)
  | 0, _ => none
  | limit + 1, reading =>
      let ends := [.key, .value, .blockEnd]
      if reading.isAtOne [.key] then do
        let (key, reading) ←
          readOptional? handles limit .entry ends
            reading.next
        let (value, reading) ←
          if reading.isAtOne [.value] then
            readOptional? handles limit .entry ends
              reading.next
          else
            some (.blank, reading)
        let (entries, reading) ←
          readEntries? handles limit reading
        return ((key, value) :: entries, reading)
      else
        some ([], reading)

/-
  A key in brackets with its value, if it has one. One of
  some tokens shows that something is empty.
-/
def readFlowEntry?
    (handles : List Handle) :
    Nat → List Token → Reading →
      Option ((Node × Node) × Reading)
  | 0, _, _ => none
  | limit + 1, ends, reading => do
      let (key, reading) ←
        readOptional? handles limit .flow (.value :: ends)
          reading
      if reading.isAtOne [.value] then
        let (value, reading) ←
          readOptional? handles limit .flow ends
            reading.next
        return ((key, value), reading)
      else
        return ((key, .blank), reading)

/-
  The items in brackets, which commas divide, and the
  closing bracket. An item can be a key with its value.
-/
def readFlowItems?
    (handles : List Handle) :
    Nat → Bool → Reading → Option (List Node × Reading)
  | 0, _, _ => none
  | limit + 1, isFirst, reading => do
      if reading.isAtOne [.closeBracket] then
        return ([], reading.next)
      let reading ←
        if isFirst then some reading
        else reading.expect? .comma
      if reading.isAtOne [.closeBracket] then
        return ([], reading.next)
      let (node, reading) ←
        if reading.isAtOne [.key] then do
          let (entry, reading) ←
            readFlowEntry? handles limit
              [.comma, .closeBracket] reading.next
          some (Node.mapping [entry], reading)
        else
          readNode? handles limit .flow reading
      let (nodes, reading) ←
        readFlowItems? handles limit false reading
      return (node :: nodes, reading)

/-
  The entries in braces, which commas divide, and the
  closing brace. An entry can be a key alone.
-/
def readFlowEntries?
    (handles : List Handle) :
    Nat → Bool → Reading →
      Option (List (Node × Node) × Reading)
  | 0, _, _ => none
  | limit + 1, isFirst, reading => do
      if reading.isAtOne [.closeBrace] then
        return ([], reading.next)
      let reading ←
        if isFirst then some reading
        else reading.expect? .comma
      if reading.isAtOne [.closeBrace] then
        return ([], reading.next)
      let (entry, reading) ←
        if reading.isAtOne [.key] then
          readFlowEntry? handles limit
            [.comma, .closeBrace] reading.next
        else do
          let (key, reading) ←
            readNode? handles limit .flow reading
          some ((key, Node.blank), reading)
      let (entries, reading) ←
        readFlowEntries? handles limit false reading
      return (entry :: entries, reading)

end

end Yaml

end Abnf
