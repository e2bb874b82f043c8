import Abnf.Grammar.Note
import Abnf.Grammar.Value
import Abnf.Trace

/-
  Rules assembled from the events of a parse.

  The events of a parse of a grammar text name the parts
  that were tried and matched. Parts that hold elements get
  a frame when they are entered and lose it when they are
  left, so an attempt that fails takes everything with it
  that it made. The first error stands; after it only the
  extent of the parse is followed.

  Key definitions include:
    * `Abnf.Grammar.define`
    * `Abnf.Grammar.Part`
    * `Abnf.Grammar.Frame`
    * `Abnf.Grammar.Assembly`
    * `Abnf.Grammar.Assembly.assemble`
    * `Abnf.Grammar.Assembly.observe`
    * `Abnf.Grammar.Assembly.finish`
-/

------------------------------------------------------------
-- Definitions
------------------------------------------------------------

namespace Abnf

namespace Grammar

/- Add an alternative behind those of an element. -/
def addAlternative
    (element : Element)
    (addition : Element) : Element :=
  match element with
  | .alternation parts => .alternation (parts ++ [addition])
  | old => .alternation [old, addition]

/- Add an alternative to the first rule of a name. -/
def extendRule
    (name : String)
    (addition : Element) :
    List Rule → List Rule
  | [] => []
  | rule :: rest =>
      if rule.name == name then
        rule.withElement
          (addAlternative rule.element addition) :: rest
      else
        rule :: extendRule name addition rest

/-
  Take a definition into the rules so far. A plain one needs
  a new name, an incremental one a name that is there.
-/
def define
    (rules : List Rule)
    (name : String)
    (incremental : Bool)
    (element : Element) :
    Except ReadError (List Rule) :=
  match rules.any (·.name == name), incremental with
  | true, true => .ok (extendRule name element rules)
  | false, true => .error (.undefinedIncremental name)
  | true, false => .error (.redefinition name)
  | false, false => do
      let rule ← ReadError.liftElement
        (Rule.ofName name element)
      return rules ++ [rule]

/- The note on a definition that was taken. -/
def definitionNotes
    (rules : List Rule)
    (name : String)
    (incremental : Bool) : List Note :=
  (rules.find? (·.name == name)).toList.map
    (if incremental then .extended else .assembled)

end Grammar

end Abnf

------------------------------------------------------------
-- Frames
------------------------------------------------------------

namespace Abnf

namespace Grammar

/- The parts of a grammar text that make something. -/
inductive Part where
  | rule
  | rulename
  | definedAs
  | elements
  | alternation
  | concatenation
  | repetition
  | repeatCount
  | option
  | charVal
  | binVal
  | decVal
  | hexVal
  | proseVal
  /- All other parts. -/
  | other
deriving DecidableEq, Inhabited

/- The part that a rule of the grammar matches. -/
def Part.ofName : String → Part
  | "rule" => rule
  | "rulename" => rulename
  | "defined-as" => definedAs
  | "elements" => elements
  | "alternation" => alternation
  | "concatenation" => concatenation
  | "repetition" => repetition
  | "repeat" => repeatCount
  | "option" => option
  | "char-val" => charVal
  | "bin-val" => binVal
  | "dec-val" => decVal
  | "hex-val" => hexVal
  | "prose-val" => proseVal
  | _ => other

/- The part is read from its text. -/
def Part.isRead : Part → Bool
  | rulename => true
  | definedAs => true
  | repeatCount => true
  | charVal => true
  | binVal => true
  | decVal => true
  | hexVal => true
  | proseVal => true
  | _ => false

/- What is known of a part that is still open. -/
inductive Frame where
  /- A rule, whose pieces come one by one. -/
  | rule
      (name : Option String)
      (incremental : Bool)
      (element : Option Element)
  /- A part that holds elements. -/
  | elements (parts : List Element)
  /- An element with its bounds, if it has any. -/
  | repetition
      (bounds : Option (Nat × Option Nat))
      (parts : List Element)
deriving Inhabited

/- The frame that a part opens. -/
def Part.frame? : Part → Option Frame
  | rule => some (.rule none false none)
  | elements => some (.elements [])
  | alternation => some (.elements [])
  | concatenation => some (.elements [])
  | option => some (.elements [])
  | repetition => some (.repetition none [])
  | _ => none

namespace Frame

/- The elements of a part that holds elements. -/
def partsOf : Option Frame → Except ReadError (List Element)
  | some (elements parts) => .ok parts
  | _ => .error (.internal "missing element list")

end Frame

/- The only element of a list. -/
def onlyOf : List Element → Except ReadError Element
  | [element] => .ok element
  | parts =>
      .error
        (.internal
          ("expected a single element, found " ++
            toString parts.length))

end Grammar

end Abnf

------------------------------------------------------------
-- Assemblies
------------------------------------------------------------

namespace Abnf

namespace Grammar

/- What the events of a parse have made so far. -/
structure Assembly where
  /- The rules that are complete. -/
  rules : List Rule
  /- The open frames, the innermost first. -/
  frames : List Frame
  /- The end of the furthest match. -/
  furthest : Nat
  /- The first error. -/
  error : Option ReadError
  /- The notes taken, the latest first. -/
  notes : List Note
deriving Inhabited

namespace Assembly

/- The assembly before a parse from an offset. -/
def begin
    (start : Nat) : Assembly :=
  ⟨[], [], start, none, []⟩

/- Put an element into the innermost frame. -/
def push
    (assembly : Assembly)
    (element : Element) : Except ReadError Assembly :=
  match assembly.frames with
  | .elements parts :: rest =>
      .ok { assembly with
        frames := .elements (parts ++ [element]) :: rest }
  | .repetition bounds parts :: rest =>
      .ok { assembly with
        frames :=
          .repetition bounds (parts ++ [element]) :: rest }
  | _ =>
      .error
        (.internal "element outside of an element list")

/- Take a complete rule. -/
def closeRule
    (assembly : Assembly) :
    Option Frame → Except ReadError Assembly
  | some (.rule (some name) incremental (some element)) =>
      do
        let rules ←
          define assembly.rules name incremental element
        let notes :=
          definitionNotes rules name incremental
        return { assembly with
          rules := rules
          notes := notes ++ assembly.notes }
  | _ => .error (.internal "incomplete rule frame")

/- Take a name: that of the rule itself or a reference. -/
def takeName
    (assembly : Assembly)
    (name : String) : Except ReadError Assembly :=
  match assembly.frames with
  | .rule _ incremental element :: rest =>
      .ok { assembly with
        frames :=
          .rule (some name) incremental element :: rest }
  | _ => do
      let element ← ReadError.liftElement
        (Element.checkedRuleName name)
      assembly.push element

/- Take the sign between a rule's name and its elements. -/
def takeSign
    (assembly : Assembly)
    (incremental : Bool) : Except ReadError Assembly :=
  match assembly.frames with
  | .rule name _ element :: rest =>
      .ok { assembly with
        frames := .rule name incremental element :: rest }
  | _ =>
      .error (.internal "defined-as outside of a rule")

/- Take the element of a rule. -/
def takeElements
    (assembly : Assembly)
    (frame : Option Frame) :
    Except ReadError Assembly := do
  let element ← onlyOf (← Frame.partsOf frame)
  match assembly.frames with
  | .rule name incremental _ :: rest =>
      return { assembly with
        frames :=
          .rule name incremental (some element) :: rest }
  | _ =>
      throw (.internal "elements outside of a rule")

/- Take a series; a series of one part is that part. -/
def takeSeries
    (assembly : Assembly)
    (frame : Option Frame)
    (series :
      List Element → Except ElementError Element) :
    Except ReadError Assembly := do
  match ← Frame.partsOf frame with
  | [part] => assembly.push part
  | parts =>
      let element ← ReadError.liftElement (series parts)
      assembly.push element

/- Take an element together with its bounds. -/
def takeRepetition
    (assembly : Assembly) :
    Option Frame → Except ReadError Assembly
  | some (.repetition bounds parts) => do
      let element ← onlyOf parts
      match bounds with
      | none => assembly.push element
      | some (min, max) =>
          let repeated ← ReadError.liftElement
            (Element.checkedRepetition min max element)
          assembly.push repeated
  | _ =>
      .error (.internal "repetition without a frame")

/- Take the bounds of a repetition. -/
def takeBounds
    (assembly : Assembly)
    (text : List Char) : Except ReadError Assembly := do
  let bounds ← readRepeat text
  match assembly.frames with
  | .repetition _ parts :: rest =>
      return { assembly with
        frames := .repetition (some bounds) parts :: rest }
  | _ =>
      throw (.internal "repeat outside of a repetition")

/- Take an element in square brackets. -/
def takeOption
    (assembly : Assembly)
    (frame : Option Frame) :
    Except ReadError Assembly := do
  let element ← onlyOf (← Frame.partsOf frame)
  assembly.push (.optional element)

/- Take an element that is read from its text. -/
def takeValue
    (assembly : Assembly)
    (value : Except ReadError Element) :
    Except ReadError Assembly := do
  assembly.push (← value)

/-
  Take a part that has matched a text. `frame` is the frame
  of the part, which is no longer open.
-/
def assemble
    (assembly : Assembly)
    (part : Part)
    (text : List Char)
    (frame : Option Frame) :
    Except ReadError Assembly :=
  match part with
  | .rule => assembly.closeRule frame
  | .rulename => assembly.takeName (String.ofList text)
  | .definedAs => assembly.takeSign (isIncremental text)
  | .elements => assembly.takeElements frame
  | .alternation =>
      assembly.takeSeries frame Element.checkedAlternation
  | .concatenation =>
      assembly.takeSeries frame Element.checkedConcatenation
  | .repetition => assembly.takeRepetition frame
  | .repeatCount => assembly.takeBounds text
  | .option => assembly.takeOption frame
  | .charVal => assembly.takeValue (readCharVal text)
  | .binVal => assembly.takeValue (readNumVal 2 text)
  | .decVal => assembly.takeValue (readNumVal 10 text)
  | .hexVal => assembly.takeValue (readNumVal 16 text)
  | .proseVal => assembly.takeValue (readProseVal text)
  | .other => .ok assembly

end Assembly

end Grammar

end Abnf

------------------------------------------------------------
-- Events
------------------------------------------------------------

namespace Abnf

namespace Grammar

/-
  The characters of a span of a text. Everything that the
  grammar of grammars matches is ASCII; a span with other
  bytes or outside the text has none.
-/
def slice?
    (input : Array UInt8)
    (start stop : Nat) : Option (List Char) :=
  let span := (input.extract start stop).toList
  if start ≤ stop ∧ stop ≤ input.size ∧
      span.all (· < 128) then
    some (span.map (fun b => Char.ofNat b.toNat))
  else
    none

namespace Assembly

/- Close the frame of a part, if it has one. -/
def close
    (assembly : Assembly)
    (part : Part) : Option Frame × Assembly :=
  match part.frame?, assembly.frames with
  | some _, frame :: rest =>
      (some frame, { assembly with frames := rest })
  | _, _ => (none, assembly)

/-
  Take a part that has matched a span of the text, which is
  looked at only if the part is read from it.
-/
def takeMatch
    (assembly : Assembly)
    (input : Array UInt8)
    (name : String)
    (frame : Option Frame)
    (start stop : Nat) : Assembly :=
  let part := Part.ofName name
  let text? :=
    if part.isRead then slice? input start stop
    else some []
  let result :=
    match text? with
    | some text => assembly.assemble part text frame
    | none =>
        .error
          (.internal
            "match does not fall on character boundaries")
  match result with
  | .ok next => next
  | .error error =>
      { assembly with
        error := some error
        notes := .refused name error :: assembly.notes }

/- Follow one event of a parse. -/
def observe
    (input : Array UInt8)
    (assembly : Assembly) :
    Event → Assembly
  | .enter name _ =>
      { assembly with
        frames :=
          (Part.ofName name).frame?.toList ++
            assembly.frames }
  | .exit name start stop =>
      let (frame, closed) :=
        assembly.close (Part.ofName name)
      match stop with
      | none => closed
      | some stop =>
          let reached := { closed with
            furthest := Nat.max closed.furthest stop }
          if reached.error.isSome then
            reached
          else
            reached.takeMatch input name frame start stop

/-
  The rules of a text whose parse had an outcome. An error
  comes first; then the whole text has to be matched.
-/
def finish
    (assembly : Assembly)
    (input : Array UInt8)
    (outcome : Outcome) : Except ReadError (List Rule) :=
  match assembly.error with
  | some error => .error error
  | none =>
      if outcome = .matched input.size then
        .ok assembly.rules
      else
        .error
          (.incomplete assembly.furthest
            (Text.position input assembly.furthest))

end Assembly

end Grammar

end Abnf
