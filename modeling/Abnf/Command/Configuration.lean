import Abnf.Command.Path
import Abnf.Yaml

/-
  Build configurations: which grammars to make parsers of.

  A configuration lists grammars. Each one has a file, a
  name for the parser, and perhaps a description and a file
  for the parser. Paths are seen from a base directory;
  without a file of its own the parser goes next to its
  grammar.

  Key definitions include:
    * `Abnf.Job`
    * `Abnf.GrammarEntry`
    * `Abnf.GrammarEntry.job`
    * `Abnf.Configuration.parse`
-/

------------------------------------------------------------
-- Jobs
------------------------------------------------------------

namespace Abnf

/- One grammar to make a parser of. -/
structure Job where
  grammarPath : String
  name : String
  doc : Option String
  /- The file for the parser; without it, it is printed. -/
  outputPath : Option String
deriving DecidableEq, Inhabited

/- A grammar as it is listed in a configuration. -/
structure GrammarEntry where
  grammar : String
  name : String
  doc : Option String
  output : Option String
deriving DecidableEq, Inhabited

/- The job of a listed grammar. -/
def GrammarEntry.job
    (base : String)
    (entry : GrammarEntry) : Job :=
  let grammarPath := Path.join base entry.grammar
  { grammarPath := grammarPath
    name := entry.name
    doc := entry.doc
    outputPath := some
      (match entry.output with
       | some output => Path.join base output
       | none => Path.withExtension grammarPath "rs") }

end Abnf

------------------------------------------------------------
-- Reading
------------------------------------------------------------

namespace Abnf

/- Why a text is no configuration. -/
inductive ConfigurationFault where
  /- The text is no YAML document. -/
  | document
  /- A value is not of the kind that is wanted. -/
  | wrongKind (wanted : String)
  /- A key is not known. -/
  | unknownKey (key : String)
  /- A key stands twice. -/
  | repeatedKey (key : String)
  /- A key is not there. -/
  | missingKey (key : String)
deriving DecidableEq, Inhabited

/- The text that reports the fault. -/
def ConfigurationFault.message :
    ConfigurationFault → String
  | document => "not a document of the expected form"
  | wrongKind wanted => "expected " ++ wanted
  | unknownKey key => "unknown key \"" ++ key ++ "\""
  | repeatedKey key => "repeated key \"" ++ key ++ "\""
  | missingKey key => "missing key \"" ++ key ++ "\""

namespace Configuration

/- A scalar means that there is no value. -/
def isNull
    (text : String) : Bool :=
  ["null", "Null", "NULL", "~"].contains text

/- The tag of values that are none. -/
def nullTag : String :=
  "tag:yaml.org,2002:null"

/- The node that a node of a document stands for. -/
def resolve
    (document : Yaml.Document)
    (node : Yaml.Node) :
    Except ConfigurationFault Yaml.Node :=
  match document.resolve? node with
  | some node => .ok node
  | none => .error .document

/- The text of a scalar. -/
def textOf
    (document : Yaml.Document)
    (node : Yaml.Node) :
    Except ConfigurationFault String := do
  match ← resolve document node with
  | .scalar _ _ text => return text
  | _ => throw (.wrongKind "a text")

/-
  The text of a scalar that may mean that there is none. A
  quoted one is always a text, and so is one with a tag,
  unless it is the tag of what is none.
-/
def optionalTextOf
    (document : Yaml.Document)
    (node : Yaml.Node) :
    Except ConfigurationFault (Option String) := do
  match ← resolve document node with
  | .scalar tag true text =>
      if tag = some nullTag then
        if isNull text then
          return none
        else
          throw (.wrongKind "nothing")
      else if tag.isNone ∧ (text.isEmpty ∨ isNull text) then
        return none
      else
        return some text
  | .scalar _ false text => return some text
  | _ => throw (.wrongKind "a text")

/- The first key that is not known or stands twice. -/
def checkKeys
    (known : List String) :
    List (String × Yaml.Node) →
      Except ConfigurationFault Unit
  | [] => .ok ()
  | (key, _) :: rest =>
      if !known.contains key then
        .error (.unknownKey key)
      else if rest.any (·.1 == key) then
        .error (.repeatedKey key)
      else
        checkKeys known rest

/- The entries of a mapping with known keys. -/
def entriesOf
    (document : Yaml.Document)
    (known : List String)
    (node : Yaml.Node) :
    Except ConfigurationFault
      (List (String × Yaml.Node)) := do
  match ← resolve document node with
  | .mapping entries =>
      let entries ← entries.mapM (fun (key, value) => do
        return (← textOf document key, value))
      checkKeys known entries
      return entries
  | _ => throw (.wrongKind "a mapping")

/- The value of a key that has to be there. -/
def valueOf
    (entries : List (String × Yaml.Node))
    (key : String) :
    Except ConfigurationFault Yaml.Node :=
  match entries.lookup key with
  | some node => .ok node
  | none => .error (.missingKey key)

/- A listed grammar. -/
def grammarOf
    (document : Yaml.Document)
    (node : Yaml.Node) :
    Except ConfigurationFault GrammarEntry := do
  let entries ← entriesOf document
    ["grammar", "name", "doc", "output"] node
  let optional := fun key =>
    match entries.lookup key with
    | some node => optionalTextOf document node
    | none => .ok none
  return {
    grammar := ← textOf document
      (← valueOf entries "grammar")
    name := ← textOf document (← valueOf entries "name")
    doc := ← optional "doc"
    output := ← optional "output" }

/- The items of a list; nothing written is an empty list. -/
def itemsOf
    (document : Yaml.Document)
    (node : Yaml.Node) :
    Except ConfigurationFault (List Yaml.Node) := do
  match ← resolve document node with
  | .list items => return items
  | .scalar _ true "" => return []
  | _ => throw (.wrongKind "a list")

/- The grammars that a configuration lists. -/
def parse
    (text : String) :
    Except ConfigurationFault (List GrammarEntry) :=
  match Yaml.Document.parse? text with
  | none => .error .document
  | some document => do
      let entries ←
        entriesOf document ["grammars"] document.root
      let items ←
        itemsOf document (← valueOf entries "grammars")
      items.mapM (grammarOf document)

end Configuration

end Abnf
