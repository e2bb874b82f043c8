import Abnf.Node
import Abnf.Scope.LeftRecursion

/-
  Tables of routines made from rules.

  Each requested rule becomes a public routine. The core
  rules that the requested rules reach become private ones
  behind them. Bodies are made from the rules after a
  simplification, which is `Rule.normalize` in the end;
  others that keep the meaning give tables that match the
  same texts.

  Key definitions include:
    * `Abnf.GenerationError`
    * `Abnf.Declaration`
    * `Abnf.Entry`
    * `Abnf.Entry.select`
    * `Abnf.Element.lower`
    * `Abnf.Routine`
    * `Abnf.Routine.table`
-/

------------------------------------------------------------
-- Errors
------------------------------------------------------------

namespace Abnf

/- Why no parser can be made from some rules. -/
inductive GenerationError where
  /- Two rules have one name. -/
  | duplicateRule (name : String)
  /- The references of the rules cannot be used. -/
  | reference (cause : ReferenceError)
  /- The parser's name is no identifier. -/
  | invalidIdentifier (name : String)
  /- Two rules would share an identifier. -/
  | identifierClash (first second identifier : String)
deriving DecidableEq, Inhabited

namespace GenerationError

/- The text that reports the error. -/
def message : GenerationError → String
  | duplicateRule name =>
      "Duplicate rule name \"" ++ name ++ "\""
  | reference cause =>
      "Reference error: " ++ cause.message
  | invalidIdentifier name =>
      "\"" ++ name ++ "\" is not a valid Rust identifier"
  | identifierClash first second identifier =>
      "Rules \"" ++ first ++ "\" and \"" ++ second ++
        "\" both map to the identifier `" ++ identifier ++
        "`"

/- The texts of the errors behind the error. -/
def causes : GenerationError → List String
  | reference cause => [cause.message]
  | _ => []

end GenerationError

end Abnf

------------------------------------------------------------
-- Selection
------------------------------------------------------------

namespace Abnf

/- A routine as its callers know it. -/
structure Declaration where
  name : String
  isPublic : Bool
deriving DecidableEq, Inhabited

/- A rule that is to become a routine. -/
structure Entry where
  rule : Rule
  isPublic : Bool
deriving DecidableEq, Inhabited

namespace Entry

/- The declaration of the routine to be. -/
def declaration
    (entry : Entry) : Declaration :=
  ⟨entry.rule.name, entry.isPublic⟩

/- The first name that has occurred before. -/
def firstRepeated? : List String → List String → Option String
  | _, [] => none
  | seen, name :: rest =>
      if seen.contains name then
        some name
      else
        firstRepeated? (name :: seen) rest

/- No two rules have one name. -/
def checkDuplicates
    (rules : List Rule) : Except GenerationError Unit :=
  match firstRepeated? [] (rules.map (·.name)) with
  | some name => .error (.duplicateRule name)
  | none => .ok ()

/- A reference error as a reason to make no parser. -/
def liftReference
    {α : Type} :
    Except ReferenceError α → Except GenerationError α
  | .ok a => .ok a
  | .error cause => .error (.reference cause)

/-
  The entries of the table for some rules: the simplified
  rules in their order, then the simplified core rules that
  they reach and do not hide, in the order of the core
  table. References are checked on the rules as given, left
  recursion on the simplified ones.
-/
def select
    (simplify : Rule → Rule)
    (rules : List Rule) :
    Except GenerationError (List Entry) := do
  checkDuplicates rules
  let _ ← liftReference
    ((Scope.mk rules coreRules).references rules)
  let own := rules.map simplify
  let core := coreRules.map simplify
  let scope := Scope.mk own core
  let reached ← liftReference (scope.references own)
  liftReference (scope.checkLeftRecursion own)
  let needed := core.filter
    (fun rule =>
      reached.contains rule.name && scope.keepsCore rule)
  return own.map (⟨·, true⟩) ++ needed.map (⟨·, false⟩)

end Entry

end Abnf

------------------------------------------------------------
-- Lowering
------------------------------------------------------------

namespace Abnf

namespace Declaration

/- The index of the routine of a name in a table. -/
def index?
    (table : List Declaration)
    (name : String) : Option Nat :=
  table.findIdx? (·.name == name)

/-
  A call of the routine of a name. The callee's reports are
  passed on only from one public routine to another.
-/
def callOf
    (table : List Declaration)
    (caller : Declaration)
    (name : String) : Except GenerationError Node :=
  match index? table name with
  | some target =>
      let isOpen := table[target]?.any (·.isPublic)
      .ok (.call target (caller.isPublic && isOpen))
  | none =>
      .error
        (.reference (.undefinedRule name caller.name))

end Declaration

namespace Element

mutual

/- The node of an element in the body of a routine. -/
def lower
    (table : List Declaration)
    (caller : Declaration) :
    Element → Except GenerationError Node
  | ruleName name => Declaration.callOf table caller name
  | terminal s =>
      .ok (if s.isEmpty then .empty else .terminal s.test)
  | repetition min max body => do
      return .iterate min max
        (← lower table caller body)
  | concatenation parts => do
      return .sequence (← lowerAll table caller parts)
  | alternation parts => do
      return .choice (← lowerAll table caller parts)

/- The nodes of a list of elements. -/
def lowerAll
    (table : List Declaration)
    (caller : Declaration) :
    List Element → Except GenerationError (List Node)
  | [] => .ok []
  | part :: parts => do
      let node ← lower table caller part
      return node :: (← lowerAll table caller parts)

end

end Element

/- A routine of a table. -/
structure Routine where
  rule : Rule
  isPublic : Bool
  body : Node
deriving Inhabited

namespace Routine

/- The routine as its callers know it. -/
def declaration
    (routine : Routine) : Declaration :=
  ⟨routine.rule.name, routine.isPublic⟩

/- The routine of an entry, given all declarations. -/
def ofEntry
    (table : List Declaration)
    (entry : Entry) : Except GenerationError Routine := do
  let body ←
    entry.rule.element.lower table entry.declaration
  return ⟨entry.rule, entry.isPublic, body⟩

/- The routines of selected entries. -/
def ofEntries
    (entries : List Entry) :
    Except GenerationError (List Routine) :=
  entries.mapM (ofEntry (entries.map (·.declaration)))

/- The table of routines for some rules. -/
def table
    (simplify : Rule → Rule)
    (rules : List Rule) :
    Except GenerationError (List Routine) := do
  ofEntries (← Entry.select simplify rules)

end Routine

end Abnf
