import Abnf.Yaml.Node

/-
  YAML documents.

  A text holds one document. Directives may stand in front
  of it, which a mark then divides from it; marks may end
  it. A reference stands for the last node whose anchor has
  its number.

  Key definitions include:
    * `Abnf.Yaml.Directives`
    * `Abnf.Yaml.Document`
    * `Abnf.Yaml.Document.resolve?`
    * `Abnf.Yaml.Document.parse?`
-/

------------------------------------------------------------
-- Directives
------------------------------------------------------------

namespace Abnf

namespace Yaml

/- What is said in front of a document. -/
structure Directives where
  hasVersion : Bool
  handles : List Handle
deriving DecidableEq, Inhabited

/- Nothing is said. -/
def Directives.none : Directives :=
  ⟨false, []⟩

/- The versions of the language that are known. -/
def versions : List (Nat × Nat) :=
  [(1, 1), (1, 2)]

/-
  The directives at the start of some tokens, and the rest.
  Nothing is said twice.
-/
def readDirectives?
    (directives : Directives) :
    List Token → Option (Directives × List Token)
  | .version major minor :: rest =>
      if directives.hasVersion ||
          !versions.contains (major, minor) then
        Option.none
      else
        readDirectives?
          { directives with hasVersion := true } rest
  | .handle handle :: rest =>
      if directives.handles.any
          (·.handle == handle.handle) then
        Option.none
      else
        readDirectives?
          { directives with
            handles := directives.handles ++ [handle] } rest
  | tokens => some (directives, tokens)

end Yaml

end Abnf

------------------------------------------------------------
-- Documents
------------------------------------------------------------

namespace Abnf

namespace Yaml

/- A document: its topmost node, and the anchored ones. -/
structure Document where
  root : Node
  /- Each one after those that start before it. -/
  anchors : List (Nat × Node)
deriving Inhabited

namespace Document

/- The document of a node. -/
def ofNode
    (root : Node) : Document :=
  ⟨root, root.anchors⟩

/-
  The node that a node stands for. None, if its number is
  that of no anchor. No anchor is at a reference.
-/
def resolve?
    (document : Document) : Node → Option Node
  | .anchored _ node => some node
  | .reference number =>
      document.anchors.reverse.lookup number
  | node => some node

/- The token is no part of a document. -/
def isOutside : Token → Bool
  | .version .. => true
  | .handle _ => true
  | .documentStart => true
  | .documentEnd => true
  | _ => false

/-
  The root of a document, and the tokens behind it. The
  document may be empty if a mark starts it. Every step
  takes a token or comes at most a few steps before one that
  does, which bounds the number of steps.
-/
def readRoot?
    (tokens : List Token) :
    Option (Node × List Token) := do
  let (directives, rest) ← readDirectives? .none tokens
  let handles := directives.handles ++ Handle.usual
  let limit := 4 * tokens.length + 4
  let isExplicit := rest.head? = some .documentStart
  if rest.length < tokens.length ∧ !isExplicit then
    none
  else if isExplicit ∧ rest.tail.head?.all isOutside then
    return (.blank, rest.tail)
  else
    let start := if isExplicit then rest.tail else rest
    let (node, reading) ←
      readNode? handles limit .block ⟨start, []⟩
    return (node, reading.tokens)

/- The document of a text. Nothing follows it. -/
def parse?
    (text : String) : Option Document := do
  let tokens ← Token.ofText? text
  let (root, rest) ← readRoot? tokens
  if rest.all (· == .documentEnd) then
    return .ofNode root
  else
    none

end Document

end Yaml

end Abnf
