import Abnf.Routine
import Abnf.Source.Code

/-
  Writing parsers in Rust.

  A writer collects the functions of a parser, one for each
  declared routine, and at the end gives the text of the
  whole module. Labels are numbered through all of it.

  Key definitions include:
    * `Abnf.Source.snakeCase`
    * `Abnf.Source.isIdentifier`
    * `Abnf.Source.Function`
    * `Abnf.Source.Writer`
    * `Abnf.Source.Writer.declare`
    * `Abnf.Source.Writer.express`
    * `Abnf.Source.Writer.text`
    * `Abnf.Source.ofRules`
-/

------------------------------------------------------------
-- Identifiers
------------------------------------------------------------

namespace Abnf

namespace Source

/- The words that are no identifiers. -/
def keywords : List String :=
  ["as", "async", "await", "break", "const", "continue",
   "crate", "dyn", "else", "enum", "extern", "false", "fn",
   "for", "if", "impl", "in", "let", "loop", "match", "mod",
   "move", "mut", "pub", "ref", "return", "self", "Self",
   "static", "struct", "super", "trait", "true", "type",
   "unsafe", "use", "where", "while"]

/-
  A letter or underscore, then letters, digits and
  underscores; neither an underscore alone nor a keyword.
-/
def isIdentifier
    (name : String) : Bool :=
  match name.toList with
  | [] => false
  | c :: rest =>
      (c.isAlpha || c == '_') &&
        name != "_" &&
        rest.all (fun d => d.isAlphanum || d == '_') &&
        !keywords.contains name

/- A rule name in lower case, with underscores for dashes. -/
def snakeCase
    (name : String) : String :=
  String.ofList
    (name.toList.map
      (fun c => if c = '-' then '_' else c.toLower))

/-
  The identifiers of some names in order. When two names
  share one, the identifiers before the second come with the
  error. `owners` holds the names already seen.
-/
def identify :
    List (String × String) → List String →
      List String × Except GenerationError Unit
  | _, [] => ([], .ok ())
  | owners, name :: rest =>
      let identifier := snakeCase name
      match owners.lookup identifier with
      | some owner =>
          ([],
           .error
             (.identifierClash owner name identifier))
      | none =>
          let (later, result) :=
            identify ((identifier, name) :: owners) rest
          (identifier :: later, result)

end Source

end Abnf

------------------------------------------------------------
-- Functions
------------------------------------------------------------

namespace Abnf

namespace Source

/- A function that matches a rule. -/
structure Function where
  rule : Rule
  identifier : String
  isPublic : Bool
  body : Expr
deriving Inhabited

namespace Function

/- The head of a public function. -/
def publicHead
    (listener identifier : String) : String :=
  "pub fn parse_" ++ identifier ++
    "(input: &[u8], start_index: usize, listener: &mut dyn " ++
    listener ++ ") -> Option<usize> \x7b"

/- The head of a private function. -/
def privateHead
    (identifier : String) : String :=
  "fn parse_" ++ identifier ++
    "(input: &[u8], index: usize) -> Option<usize> \x7b"

/-
  The lines of a function. A public one tells its listener
  before and after its body.
-/
def lines
    (listener : String)
    (function : Function) : List String :=
  let name := function.identifier
  let code := function.body.lines
  let inside :=
    if function.isPublic then
      ["listener.enter_" ++ name ++ "(input, start_index);",
       "let index = start_index;"] ++
      wrapLines "let end_index = " code ";" ++
      ["listener.exit_" ++ name ++
         "(input, start_index, end_index);",
       "end_index"]
    else
      code
  let head :=
    if function.isPublic then
      publicHead listener name
    else
      privateHead name
  ["/// `" ++ function.rule.text ++ "`", head] ++
    indent inside ++ ["\x7d"]

end Function

end Source

end Abnf

------------------------------------------------------------
-- Writers
------------------------------------------------------------

namespace Abnf

namespace Source

/- A parser that is being written. -/
structure Writer where
  /- The name of the parser's type. -/
  name : String
  /- What the parser's type says of itself. -/
  doc : Option String
  /- The routines last declared. -/
  routines : List Declaration
  /- The identifiers of all routines ever declared. -/
  identifiers : List String
  /- The functions of the routines, as far as written. -/
  functions : List (Option Function)
  /- The number of labels used. -/
  labels : Nat
deriving Inhabited

namespace Writer

/- A parser with nothing written yet. -/
def ofName
    (name : String)
    (doc : Option String) :
    Except GenerationError Writer :=
  if isIdentifier name then
    .ok ⟨name, doc, [], [], [], 0⟩
  else
    .error (.invalidIdentifier name)

/- The name of the parser's listeners. -/
def listener
    (writer : Writer) : String :=
  writer.name ++ "Listener"

/-
  Declare routines in place of those before. Identifiers are
  added to those that are there; on a clash the ones before
  it stay, and the routines do not change.
-/
def declare
    (writer : Writer)
    (table : List Declaration) :
    Writer × Except GenerationError Unit :=
  let (added, result) := identify [] (table.map (·.name))
  let named := { writer with
    identifiers := writer.identifiers ++ added }
  match result with
  | .error error => (named, .error error)
  | .ok _ =>
      ({ named with
          routines := table
          functions := table.map (fun _ => none) },
       .ok ())

/- There is a routine of the index to call or write. -/
def hasRoutine
    (writer : Writer)
    (index : Nat) : Bool :=
  index < writer.identifiers.length &&
    index < writer.routines.length

/- The identifier of a routine. -/
def identifier
    (writer : Writer)
    (index : Nat) : String :=
  writer.identifiers.getD index ""

/- The routine is public. -/
def isPublic
    (writer : Writer)
    (index : Nat) : Bool :=
  writer.routines[index]?.any (·.isPublic)

/- The next label of a kind. -/
def label
    (writer : Writer)
    (kind : Char) : Label × Writer :=
  let number := writer.labels + 1
  (⟨kind, number⟩, { writer with labels := number })

/- A test of one byte; the test that nothing passes fails. -/
def terminal : ByteTest → Expr
  | .never => .missing
  | test => .byte test

/- A call of a routine. -/
def call
    (writer : Writer)
    (index : Nat)
    (forward : Bool) : Expr :=
  .call (writer.identifier index)
    (if !writer.isPublic index then .nothing
     else if forward then .listener
     else .deaf)

/- The parts one after the other. -/
def sequence
    (writer : Writer)
    (parts : List Expr) : Expr × Writer :=
  let (label, writer) := writer.label 'c'
  (.block label
    (.letIndex ::
      parts.flatMap
        (fun part => [.letNext part, .advance label]))
    .found,
   writer)

/- The first part that matches. -/
def choice
    (writer : Writer)
    (parts : List Expr) : Expr × Writer :=
  let (label, writer) := writer.label 'a'
  (.block label
    (parts.dropLast.flatMap
      (fun part => [.letNext part, .leaveMatched label]))
    (parts.getLastD .missing),
   writer)

/- From `min` to `max` copies of the body. -/
def iterate
    (writer : Writer)
    (min : Nat)
    (max : Option Nat)
    (body : Expr) : Expr × Writer :=
  let (outer, writer) := writer.label 'r'
  let (inner, writer) := writer.label 'l'
  let counted := 0 < min || max.isSome
  (.block outer
    ([.letIndex] ++
      (if counted then [.letCount] else []) ++
      [.loop inner max
        [.letNext body, .takeCopy inner min counted]] ++
      (if 0 < min then [.demand min outer] else []))
    .found,
   writer)

/- Write the function of a routine. -/
def write
    (writer : Writer)
    (index : Nat)
    (rule : Rule)
    (body : Expr) : Writer :=
  { writer with
    functions := writer.functions.set index
      (some
        ⟨rule, writer.identifier index,
          writer.isPublic index, body⟩) }

end Writer

end Source

end Abnf

------------------------------------------------------------
-- Nodes
------------------------------------------------------------

namespace Abnf

namespace Source

namespace Writer

mutual

/-
  The expression of a node. Parts come before the whole, so
  inner labels have lower numbers.
-/
def express
    (writer : Writer) :
    Node → Expr × Writer
  | .empty => (.found, writer)
  | .terminal test => (terminal test, writer)
  | .call routine forward =>
      (writer.call routine forward, writer)
  | .sequence parts =>
      let (codes, writer) := expressAll writer parts
      writer.sequence codes
  | .choice parts =>
      let (codes, writer) := expressAll writer parts
      writer.choice codes
  | .iterate min max body =>
      let (code, writer) := express writer body
      writer.iterate min max code

/- The expressions of some nodes. -/
def expressAll
    (writer : Writer) :
    List Node → List Expr × Writer
  | [] => ([], writer)
  | part :: parts =>
      let (code, writer) := express writer part
      let (codes, writer) := expressAll writer parts
      (code :: codes, writer)

end

/- Write the functions of routines from an index on. -/
def writeAll
    (writer : Writer) :
    Nat → List Routine → Writer
  | _, [] => writer
  | index, routine :: rest =>
      let (code, writer) := writer.express routine.body
      writeAll (writer.write index routine.rule code)
        (index + 1) rest

end Writer

end Source

end Abnf

------------------------------------------------------------
-- The Whole Text
------------------------------------------------------------

namespace Abnf

namespace Text

/-
  The lines of a text. A line ends with a line feed, or with
  a carriage return and a line feed; the last line needs no
  end.
-/
def lines
    (text : String) : List String :=
  let pieces := text.toList.splitOn '\n'
  let ended := pieces.dropLast.map
    (fun piece =>
      if piece.getLast? = some '\r' then
        piece.dropLast
      else
        piece)
  let unended := (pieces.getLast?.toList).filter
    (fun piece => !piece.isEmpty)
  (ended ++ unended).map String.ofList

end Text

namespace Source

namespace Writer

/- The lines that say what the parser is. -/
def docLines
    (doc : Option String) : List String :=
  match doc with
  | none => []
  | some doc =>
      (Text.lines doc).map
        (fun line =>
          if line.isEmpty then "///" else "/// " ++ line)

/- The two callbacks of a public routine. -/
def callbackLines
    (identifier : String) : List String :=
  ["fn enter_" ++ identifier ++
     "(&mut self, _input: &[u8], _start_index: usize) \x7b\x7d",
   "fn exit_" ++ identifier ++
     "(&mut self, _input: &[u8], _start_index: usize, " ++
     "_end_index: Option<usize>) \x7b\x7d"]

/- The identifiers of the public routines. -/
def publicIdentifiers
    (writer : Writer) : List String :=
  ((writer.routines.zip writer.identifiers).filter
    (·.1.isPublic)).map (·.2)

/- Groups of lines with an empty line between them. -/
def spaced
    (groups : List (List String)) : List String :=
  [""].intercalate groups

/- Lines one level further in; empty lines stay empty. -/
def indentFilled
    (lines : List String) : List String :=
  lines.map
    (fun line => if line.isEmpty then line else margin ++ line)

/- The lines of the function of a routine. -/
def functionLines
    (writer : Writer)
    (function : Option Function) : List String :=
  match function with
  | none => []
  | some function => function.lines writer.listener

/- The lines of the whole module. -/
def lines
    (writer : Writer) : List String :=
  ["// Generated by abnfgen. Do not edit.", ""] ++
  docLines writer.doc ++
  ["pub struct " ++ writer.name ++ ";", "",
   "/// Callbacks fired around each public rule of [`" ++
     writer.name ++ "`].",
   "pub trait " ++ writer.listener ++ " \x7b"] ++
  indentFilled
    (spaced (writer.publicIdentifiers.map callbackLines)) ++
  ["\x7d", "",
   "impl " ++ writer.listener ++ " for () \x7b\x7d", "",
   "#[allow(dead_code, unused_mut, unused_variables, " ++
     "unused_assignments, unused_labels, clippy::all)]",
   "impl " ++ writer.name ++ " \x7b"] ++
  indentFilled
    (spaced (writer.functions.map writer.functionLines)) ++
  ["\x7d"]

/- The text of the whole module. -/
def text
    (writer : Writer) : String :=
  "\n".intercalate writer.lines ++ "\n"

end Writer

end Source

end Abnf

------------------------------------------------------------
-- Parsers Of Rules
------------------------------------------------------------

namespace Abnf

namespace Source

/- The text of a parser for selected entries. -/
def ofEntries
    (writer : Writer)
    (entries : List Entry) :
    Except GenerationError String := do
  let (writer, declared) :=
    writer.declare (entries.map (·.declaration))
  declared
  let routines ← Routine.ofEntries entries
  return (writer.writeAll 0 routines).text

/-
  The text of a parser for some rules. The name of its type
  is looked at before the rules.
-/
def ofRules
    (name : String)
    (doc : Option String)
    (rules : List Rule) :
    Except GenerationError String := do
  let writer ← Writer.ofName name doc
  ofEntries writer (← Entry.select Rule.normalize rules)

end Source

end Abnf
