import Abnf.Proofs.Rust.Calls
import Abnf.Proofs.Signs

/-
  What a writer has written.

  The identifiers of rules are made of the characters of
  words, and the text of a rule stands on one line. Written
  one after the other, the functions of routines use labels
  that no function before them has used.

  Key definitions include:
    * `Abnf.Source.IsLine`
    * `Abnf.Source.Writer.Writes`
    * `Abnf.Source.Writer.Wrote`

  Main declarations:
    * `Abnf.Source.identify_eq_ok`
    * `Abnf.Source.isLine_text_rule`
    * `Abnf.Source.Writer.exists_functions_writeAll`
    * `Abnf.Source.Writer.Wrote.renders`
    * `Abnf.Source.Writer.Wrote.plain`
-/

------------------------------------------------------------
-- Identifiers
------------------------------------------------------------

namespace Abnf

namespace Source

open Rust

variable {name : String}

/- The characters of names become those of words. -/
theorem isWordChar_of_isNameChar :
    ∀ code < CharSet.tableSize,
      isNameChar (Char.ofNat code) = true →
      isWordChar
          (if Char.ofNat code = '-' then '_'
            else (Char.ofNat code).toLower) =
        true := by
  set_option maxRecDepth 8000 in decide

theorem isWordChar_snakeCase
    (hCheck : checkName name = .ok ()) :
    ∀ c ∈ (snakeCase name).toList, isWordChar c = true := by
  intro c hc
  rw [snakeCase, String.toList_ofList, List.mem_map] at hc
  rcases hc with ⟨d, hd, rfl⟩
  have hName := (checkName_eq_ok_iff.mp hCheck).2 d hd
  have hWord :=
    isWordChar_of_isNameChar d.toNat
      (Grammar.lt_of_isNameChar hName)
  rw [Char.ofNat_toNat] at hWord
  exact hWord hName

end Source

end Abnf

------------------------------------------------------------
-- The Texts Of Rules
------------------------------------------------------------

namespace Abnf

namespace Source

/- The text stands on one line. -/
def IsLine
    (text : String) : Prop :=
  '\n' ∉ text.toList

instance instDecidableIsLine
    (text : String) : Decidable (IsLine text) :=
  inferInstanceAs (Decidable ('\n' ∉ text.toList))

/- A name has no end of a line in it. -/
theorem isLine_of_checkName
    {name : String}
    (hCheck : checkName name = .ok ()) :
    IsLine name := by
  intro hEnd
  cases (checkName_eq_ok_iff.mp hCheck).2 '\n' hEnd

/- What is spelled with names on a line stands on one. -/
theorem isLine_of_isSpelled
    {names : List String}
    {text : String}
    (h : IsSpelled names text)
    (hNames : ∀ name ∈ names, IsLine name) :
    IsLine text := by
  intro hEnd
  rcases h '\n' hEnd with hSign | ⟨name, hName, hIn⟩
  · cases hSign
  · exact hNames name hName hIn

/- A rule whose names stand on a line stands on one. -/
theorem isLine_text_rule
    {rule : Rule}
    (hName : IsLine rule.name)
    (hNames : ∀ name ∈ rule.element.names, IsLine name) :
    IsLine rule.text :=
  isLine_of_isSpelled rule.isSpelled_text
    (List.forall_mem_cons.mpr ⟨hName, hNames⟩)

end Source

end Abnf

------------------------------------------------------------
-- The Functions Of Routines
------------------------------------------------------------

namespace Abnf

namespace Source

open Rust

namespace Writer

variable {writer writer' : Writer}
variable {routines : List Routine}

mutual

theorem name_express
    (writer : Writer) :
    ∀ node : Node,
      (writer.express node).2.name = writer.name
  | .empty => rfl
  | .terminal _ => rfl
  | .call _ _ => rfl
  | .sequence parts => name_expressAll writer parts
  | .choice parts => name_expressAll writer parts
  | .iterate _ _ body => name_express writer body

theorem name_expressAll
    (writer : Writer) :
    ∀ nodes : List Node,
      (writer.expressAll nodes).2.name = writer.name
  | [] => rfl
  | node :: nodes => by
      have hFirst := name_express writer node
      have hRest :=
        name_expressAll (writer.express node).2 nodes
      exact hRest.trans hFirst

end

mutual

/- Functions change when they are written, not before. -/
theorem functions_express
    (writer : Writer) :
    ∀ node : Node,
      (writer.express node).2.functions = writer.functions
  | .empty => rfl
  | .terminal _ => rfl
  | .call _ _ => rfl
  | .sequence parts => functions_expressAll writer parts
  | .choice parts => functions_expressAll writer parts
  | .iterate _ _ body => functions_express writer body

theorem functions_expressAll
    (writer : Writer) :
    ∀ nodes : List Node,
      (writer.expressAll nodes).2.functions =
        writer.functions
  | [] => rfl
  | node :: nodes => by
      have hFirst := functions_express writer node
      have hRest :=
        functions_expressAll (writer.express node).2 nodes
      exact hRest.trans hFirst

end

/- A function is that of a routine. -/
structure Writes
    (writer : Writer)
    (function : Function)
    (routine : Routine) : Prop where
  rule : function.rule = routine.rule
  identifier :
    function.identifier = snakeCase routine.rule.name
  isPublic : function.isPublic = routine.isPublic
  body :
    ∃ writer', SameTable writer' writer ∧
      function.body = (writer'.express routine.body).1

theorem SameTable.trans
    {writer'' : Writer}
    (h : SameTable writer writer')
    (h' : SameTable writer' writer'') :
    SameTable writer writer'' :=
  ⟨h.1.trans h'.1, h.2.trans h'.2⟩

theorem Writes.ofSame
    {function : Function}
    {routine : Routine}
    (h : writer.Writes function routine)
    (hSame : SameTable writer writer') :
    writer'.Writes function routine := by
  rcases h.body with ⟨before, hBefore, hBody⟩
  exact
    ⟨h.rule, h.identifier, h.isPublic,
      ⟨before, hBefore.trans hSame, hBody⟩⟩

/-
  A writer has written the functions of routines, under
  identifiers of their own.
-/
structure Wrote
    (writer : Writer)
    (routines : List Routine) : Prop where
  name : IsWord writer.name
  identifiers :
    writer.identifiers =
      routines.map (snakeCase ·.rule.name)
  nodup : writer.identifiers.Nodup
  table : writer.routines = routines.map (·.declaration)
  functions :
    List.Forall₂ writer.Writes writer.written routines
  labels :
    ∃ high,
      Numbered 0 high
        (writer.written.flatMap (·.body.term.labels))

/- Every written function is that of a routine. -/
theorem Wrote.exists_routine
    (h : writer.Wrote routines)
    {function : Function}
    (hFunction : function ∈ writer.written) :
    ∃ routine ∈ routines, writer.Writes function routine := by
  rcases List.mem_iff_getElem.mp hFunction with
    ⟨index, hIndex, rfl⟩
  have hLength := h.functions.length_eq
  have hOwn :=
    h.functions.get hIndex (show index < _ by omega)
  exact ⟨_, List.getElem_mem _, hOwn⟩

/- The functions of routines with proper names are plain. -/
theorem Wrote.plain
    (h : writer.Wrote routines)
    (hNames :
      ∀ routine ∈ routines,
        checkName routine.rule.name = .ok () ∧
        ∀ name ∈ routine.rule.element.names,
          checkName name = .ok ())
    (hTests :
      ∀ routine ∈ routines, ∀ test ∈ routine.body.tests,
        test ≠ .oneOf []) :
    writer.Plain := by
  have hWords :
      ∀ identifier ∈ writer.identifiers,
        ∀ c ∈ identifier.toList, isWordChar c = true := by
    rw [h.identifiers, List.forall_mem_map]
    intro routine hRoutine
    exact isWordChar_snakeCase (hNames routine hRoutine).1
  have hAll : writer.HasWords := by
    intro index c hc
    rw [identifier, List.getD_eq_getElem?_getD] at hc
    cases hIndex : writer.identifiers[index]? with
    | none =>
        rw [hIndex] at hc
        cases hc
    | some identifier =>
        rw [hIndex] at hc
        exact
          hWords identifier (List.mem_of_getElem? hIndex) c
            hc
  constructor
  · exact h.name
  · intro identifier hIdentifier
    apply hWords
    rcases List.mem_map.mp hIdentifier with
      ⟨pair, hPair, rfl⟩
    exact (List.of_mem_zip (List.mem_of_mem_filter hPair)).2
  · intro function hFunction
    rcases h.exists_routine hFunction with
      ⟨routine, hRoutine, hWrites⟩
    rcases hWrites.body with ⟨writer', hSame, hBody⟩
    rcases hNames routine hRoutine with ⟨hName, hOther⟩
    constructor
    · rw [hWrites.identifier]
      exact isWordChar_snakeCase hName
    · rw [hWrites.rule]
      exact
        isLine_text_rule (isLine_of_checkName hName)
          (fun name hMember =>
            isLine_of_checkName (hOther name hMember))
    · rw [hBody]
      exact
        plain_express _ _ (hAll.ofSame hSame)
          (hTests routine hRoutine)

/- No function leaves more than its own blocks and loops. -/
theorem Wrote.leavesWithin
    (h : writer.Wrote routines) :
    ∀ function ∈ writer.meaning.functions,
      function.body.leavesWithin [] = true := by
  intro made hMade
  rcases List.mem_map.mp hMade with
    ⟨function, hFunction, rfl⟩
  rcases h.exists_routine hFunction with
    ⟨routine, _, hWrites⟩
  rcases hWrites.body with ⟨writer', _, hBody⟩
  have hCode :
      function.body.term.leavesWithin [] = true := by
    rw [hBody]
    exact leavesWithin_express routine.body writer' []
  change function.inside.leavesWithin [] = true
  rw [Function.inside]
  split <;>
    simp [Body.leavesWithin, Term.leavesWithin,
      allLeaveWithin, hCode]

end Writer

end Source

end Abnf
