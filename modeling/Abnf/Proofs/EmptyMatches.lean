import Abnf.Proofs.BigStep
import Abnf.Proofs.PublicWords
import Abnf.Proofs.Reachability

/-
  Matches of the empty text.

  On a text without bytes nothing can be taken, so a match
  ends where it starts. In well formed rules an element that
  can match the empty text is one that does, since order and
  greed have nothing to choose from there. The nullable names
  are therefore those whose routines match the empty text,
  and no other routine ever matches without taking input.

  Main declarations:
    * `Abnf.Scope.stays_of_derives`
    * `Abnf.Scope.matches_of_nullable`
    * `Abnf.Program.mem_nullable_iff_run`
-/

------------------------------------------------------------
-- Texts Without Bytes
------------------------------------------------------------

namespace Abnf

namespace Scope

variable {scope : Scope}

/- A match of a text without bytes ends where it starts. -/
theorem stays_of_derives
    {goal : Goal}
    {index : Nat}
    {stop : Option Nat}
    (h : scope.Derives #[] goal index stop) :
    ∀ next, stop = some next → next = index := by
  have hClose :
      ∀ min count index next,
        Goal.close min count index = some next →
        next = index := by
    intro min count index next hNext
    rw [Goal.close] at hNext
    split at hNext
    · exact (Option.some.inj hNext).symm
    · cases hNext
  induction h with
  | ruleName _ _ ih => exact ih
  | nothing _ => exact fun _ h => (Option.some.inj h).symm
  | member _ hByte _ => cases hByte
  | noMember _ _ => exact fun _ h => nomatch h
  | repetition _ ih => exact ih
  | concatenation _ ih => exact ih
  | alternation _ ih => exact ih
  | allNone => exact fun _ h => (Option.some.inj h).symm
  | allNext _ _ ihPart ihParts =>
      intro next hNext
      rw [ihParts next hNext]
      exact ihPart _ rfl
  | allFailed _ _ => exact fun _ h => nomatch h
  | firstNone => exact fun _ h => nomatch h
  | firstHere _ ih => exact ih
  | firstNext _ _ _ ih => exact ih
  | copiesFull _ => exact hClose _ _ _
  | copiesStay _ _ _ =>
      exact fun _ h => (Option.some.inj h).symm
  | copiesNext _ _ hMoved _ ihBody _ =>
      exact absurd (ihBody _ rfl) hMoved
  | copiesFailed _ _ _ => exact hClose _ _ _

/-
  Copies of a body that matches nothing else, or of which
  none is needed, match the empty text. The limit must not
  be below the minimum.
-/
theorem eq_some_of_derives_copies
    {min : Nat}
    {max : Option Nat}
    {body : Element}
    {index : Nat}
    {stop : Option Nat}
    (hBounds : ∀ limit, max = some limit → min ≤ limit)
    (hBody :
      min = 0 ∨
        ∀ stop,
          scope.Derives #[] (.one body) index stop →
          stop = some index)
    (h :
      scope.Derives #[] (.copies min max body 0)
        index stop) :
    stop = some index := by
  cases h with
  | copiesFull hFull =>
      have hLess := hBounds _ rfl
      exact if_pos (by omega)
  | copiesStay _ _ => rfl
  | copiesNext _ hNext hMoved _ =>
      exact absurd (stays_of_derives hNext _ rfl) hMoved
  | copiesFailed _ hFailed =>
      rcases hBody with rfl | hBody
      · rfl
      · cases hBody none hFailed

/- A series of parts that match nothing else. -/
theorem eq_some_of_derives_all
    {parts : List Element}
    {index : Nat}
    {stop : Option Nat}
    (hParts :
      ∀ part ∈ parts, ∀ stop,
        scope.Derives #[] (.one part) index stop →
        stop = some index)
    (h : scope.Derives #[] (.all parts) index stop) :
    stop = some index := by
  induction parts with
  | nil =>
      cases h with
      | allNone => rfl
  | cons part parts ih =>
      rw [List.forall_mem_cons] at hParts
      cases h with
      | allNext hPart hRest =>
          cases hParts.1 _ hPart
          exact ih hParts.2 hRest
      | allFailed hPart => cases hParts.1 none hPart

/- A choice with a part that matches nothing else. -/
theorem eq_some_of_derives_first
    {parts : List Element}
    {part : Element}
    {index : Nat}
    {stop : Option Nat}
    (hMember : part ∈ parts)
    (hPart :
      ∀ stop,
        scope.Derives #[] (.one part) index stop →
        stop = some index)
    (h : scope.Derives #[] (.first parts) index stop) :
    stop = some index := by
  induction parts with
  | nil => cases hMember
  | cons first parts ih =>
      cases h with
      | firstHere hFirst =>
          rw [stays_of_derives hFirst _ rfl]
      | firstNext hFirst hRest =>
          rcases List.mem_cons.mp hMember with rfl | hLater
          · cases hPart none hFirst
          · exact ih hLater hRest

/-
  A well formed element that is nullable matches the empty
  text, whatever else it could match.
-/
theorem matches_of_nullable
    (hCheck :
      ∀ name rule, scope.find? name = some rule →
        rule.element.check = .ok ())
    {element : Element}
    (hElement : element.check = .ok ())
    (hNullable : scope.Nullable element)
    {index : Nat}
    {stop : Option Nat}
    (h : scope.Derives #[] (.one element) index stop) :
    stop = some index := by
  induction hNullable generalizing stop with
  | ruleName hRule _ ih =>
      cases h with
      | ruleName hFound hBody =>
          rw [hRule] at hFound
          cases hFound
          exact ih (hCheck _ _ hRule) hBody
  | terminal hEmpty =>
      cases h with
      | nothing _ => rfl
      | member hSome _ _ => simp [hEmpty] at hSome
      | noMember hSome _ => simp [hEmpty] at hSome
  | noCopies =>
      rw [Element.check_repetition_iff] at hElement
      cases h with
      | repetition hCopies =>
          exact
            eq_some_of_derives_copies hElement.1
              (Or.inl rfl) hCopies
  | copies _ ih =>
      rw [Element.check_repetition_iff] at hElement
      cases h with
      | repetition hCopies =>
          exact
            eq_some_of_derives_copies hElement.1
              (Or.inr (fun _ => ih hElement.2)) hCopies
  | concatenation _ ih =>
      rw [Element.check_concatenation_iff] at hElement
      cases h with
      | concatenation hParts =>
          exact
            eq_some_of_derives_all
              (fun part hPart _ =>
                ih part hPart (hElement.2 part hPart))
              hParts
  | alternation hPart _ ih =>
      rw [Element.check_alternation_iff] at hElement
      cases h with
      | alternation hParts =>
          exact
            eq_some_of_derives_first hPart
              (fun _ => ih (hElement.2 _ hPart)) hParts

/- So does the rule of a nullable name. -/
theorem matches_of_mem_nullable
    (hCheck :
      ∀ name rule, scope.find? name = some rule →
        rule.element.check = .ok ())
    {name : String}
    (hName : name ∈ scope.nullable)
    {index : Nat}
    {stop : Option Nat}
    (h : scope.Derives #[] (.one (.ruleName name)) index stop) :
    stop = some index := by
  cases mem_nullable_iff.mp hName with
  | ruleName hRule hNullable =>
      cases h with
      | ruleName hFound hBody =>
          rw [hRule] at hFound
          cases hFound
          exact
            matches_of_nullable hCheck (hCheck _ _ hRule)
              hNullable hBody

end Scope

end Abnf

------------------------------------------------------------
-- Nullable Routines
------------------------------------------------------------

namespace Abnf

/- The rules and the core rules in normal form. -/
def Scope.inNormalForm
    (rules : List Rule) : Scope :=
  (Scope.ofRules rules).map Rule.normalize

namespace Program

variable {rules : List Rule}
variable {program : Program}

/-
  Every routine runs like the rule that its name stands for,
  and comes to an end.
-/
theorem trace_eq_invoke
    (hProgram : ofRules rules = .ok program)
    {index : Nat}
    {procedure : Procedure}
    (hProcedure :
      program.procedures[index]? = some procedure)
    (input : Array UInt8)
    (start : Nat) :
    program.trace index input start =
        (Scope.ofRules rules).invoke input
          (program.depthLimit input start)
          procedure.name start ∧
      (program.trace index input
        start).outcome.isSettled = true := by
  have hRewrite := Rule.isRewrite_normalize
  have hBound := (List.getElem?_eq_some_iff.mp hProcedure).1
  have hSettled :=
    trace_isSettled hRewrite hProgram hBound input start
  refine ⟨?_, hSettled⟩
  rcases exists_routines_of_ofRulesWith hRewrite
      hProgram with
    ⟨hAccept, routines, hRoutines, rfl⟩
  have hLess :
      index < (Entry.chosen Rule.normalize rules).length := by
    rwa [ofRoutines, List.length_map,
      length_of_mapM_eq_ok hRoutines] at hBound
  have hEntry :
      (Entry.chosen Rule.normalize rules)[index]? =
        some (Entry.chosen Rule.normalize rules)[index] :=
    List.getElem?_eq_getElem hLess
  rcases exists_procedure hRoutines hEntry with
    ⟨body, hSame, _⟩
  rw [hProcedure] at hSame
  cases hSame
  rw [trace,
    invoke_ofRoutines
      (Entry.isTable_chosen hRewrite hAccept) hRoutines
      input _ index _ start hEntry,
    (Scope.ofRules rules).invoke_normalize]

/- Each rule has a public routine of its name. -/
theorem exists_procedure_of_mem
    (hProgram : ofRules rules = .ok program)
    {rule : Rule}
    (hRule : rule ∈ rules) :
    ∃ entry procedure,
      program.entry? rule.name = some entry ∧
      program.procedures[entry]? = some procedure ∧
      procedure.name = rule.name := by
  have hRewrite := Rule.isRewrite_normalize
  rcases exists_routines_of_ofRulesWith hRewrite
      hProgram with
    ⟨_, routines, hRoutines, rfl⟩
  rcases exists_entry?_of_mem hRewrite hRoutines hRule with
    ⟨index, entry, hIndex, hEntry, hName⟩
  rcases exists_procedure hRoutines hEntry with
    ⟨_, hProcedure, _⟩
  exact ⟨index, _, hIndex, hProcedure, hName⟩

/- A routine that matches without taking input is nullable. -/
theorem mem_nullable_of_run
    (hProgram : ofRules rules = .ok program)
    {index : Nat}
    {procedure : Procedure}
    (hProcedure :
      program.procedures[index]? = some procedure)
    {input : Array UInt8}
    {start : Nat}
    (hRun : program.run index input start = .matched start) :
    procedure.name ∈ (Scope.ofRules rules).nullable := by
  rw [run,
    (trace_eq_invoke hProgram hProcedure input start).1]
    at hRun
  exact Scope.mem_nullable_of_invoke _ _ _ _ _ hRun

/- A nullable routine matches the empty text. -/
theorem run_of_mem_nullable
    (hProgram : ofRules rules = .ok program)
    (hCheck : ∀ rule ∈ rules, rule.check = .ok ())
    {index : Nat}
    {procedure : Procedure}
    (hProcedure :
      program.procedures[index]? = some procedure)
    (hNullable :
      procedure.name ∈ (Scope.ofRules rules).nullable) :
    program.run index #[] 0 = .matched 0 := by
  rcases trace_eq_invoke hProgram hProcedure #[] 0 with
    ⟨hTrace, hSettled⟩
  have hStop := Outcome.eq_ofStop_of_isSettled hSettled
  rw [hTrace] at hStop
  have hDerives :=
    Scope.derives_of_invoke _ _ _ _ _ _ hStop
  rw [Scope.matches_of_mem_nullable
    (fun _ _ => Scope.check_of_find? hCheck) hNullable
    hDerives] at hStop
  rw [run, hTrace, hStop]
  rfl

/-
  For well formed rules the nullable names among the rules
  in normal form, in whatever order they are looked for, are
  those whose matchers match the empty text. And a routine
  of any other name, public or not, matches nowhere in any
  text without taking input.
-/
theorem mem_nullable_iff_run
    (hProgram : ofRules rules = .ok program)
    (hCheck : ∀ rule ∈ rules, rule.check = .ok ())
    {order : Nat → List Rule}
    (hOrder :
      ∀ round,
        (order round).Perm (Scope.inNormalForm rules).rules) :
    (∀ name,
      name ∈ (Scope.inNormalForm rules).nullableBy order ↔
        name ∈ (Scope.inNormalForm rules).nullable) ∧
    (∀ name ∈ rules.map (·.name),
      ∃ entry, program.entry? name = some entry ∧
        (name ∈ (Scope.inNormalForm rules).nullable ↔
          program.run entry #[] 0 = .matched 0)) ∧
    ∀ index procedure,
      program.procedures[index]? = some procedure →
      ∀ input start,
        program.run index input start = .matched start →
        procedure.name ∈
          (Scope.inNormalForm rules).nullable := by
  have hSame :
      (Scope.inNormalForm rules).nullable =
        (Scope.ofRules rules).nullable :=
    Scope.nullable_map Rule.isRewrite_normalize _
  refine ⟨?_, ?_, ?_⟩
  · intro name
    rw [Scope.mem_nullableBy_iff hOrder,
      Scope.mem_nullable_iff]
  · intro name hName
    rcases List.mem_map.mp hName with ⟨rule, hRule, rfl⟩
    rcases exists_procedure_of_mem hProgram hRule with
      ⟨entry, procedure, hEntry, hProcedure, hSelf⟩
    rw [hSame, ← hSelf]
    refine ⟨entry, hSelf ▸ hEntry, ?_, ?_⟩
    · exact run_of_mem_nullable hProgram hCheck hProcedure
    · exact mem_nullable_of_run hProgram hProcedure
  · intro index procedure hProcedure input start hRun
    rw [hSame]
    exact mem_nullable_of_run hProgram hProcedure hRun

/-
  White space that dashes may divide, with a pair of digits
  behind it if there is one.
-/
def dividedBlanks : List Rule :=
  [⟨"gap",
    .concatenation
      [.ruleName "LWSP",
       .repetition 1 (some 1) (.ruleName "rest")]⟩,
   ⟨"rest",
    .alternation
      [.concatenation [.chars "-", .ruleName "gap"],
       .optional (.ruleName "pair")]⟩,
   ⟨"pair", .repetition 2 (some 2) (.ruleName "DIGIT")⟩]

/- A gap is nullable, since it can be empty; no pair can. -/
theorem mem_nullable_dividedBlanks :
    ∃ program,
      ofRules dividedBlanks = .ok program ∧
      (∀ rule ∈ dividedBlanks, rule.check = .ok ()) ∧
      (∀ round : Nat,
        ((fun _ => (Scope.inNormalForm
          dividedBlanks).rules.reverse) round).Perm
            (Scope.inNormalForm dividedBlanks).rules) ∧
      program.run 0 #[] 0 = .matched 0 ∧
      "gap" ∈ (Scope.inNormalForm dividedBlanks).nullable ∧
      "pair" ∉
        (Scope.inNormalForm dividedBlanks).nullable := by
  have hRun :
      (ofRules dividedBlanks).toOption.map
          (fun program =>
            (program.entry? "gap", program.run 0 #[] 0,
             program.entry? "pair",
             program.run 2 #[] 0)) =
        some
          (some 0, Outcome.matched 0,
           some 2, Outcome.failed) := by
    decide +kernel
  have hCheck :
      ∀ rule ∈ dividedBlanks, rule.check = .ok () := by
    decide
  cases hProgram : ofRules dividedBlanks with
  | error cause =>
      rw [hProgram] at hRun
      cases hRun
  | ok program =>
      rw [hProgram] at hRun
      have hFacts := Option.some.inj hRun
      simp only [Prod.mk.injEq] at hFacts
      rcases hFacts with ⟨hGap, hEmpty, hPair, hFailed⟩
      rcases mem_nullable_iff_run hProgram hCheck
          (fun _ => List.reverse_perm _) with
        ⟨_, hIff, _⟩
      refine
        ⟨program, rfl, hCheck,
          fun _ => List.reverse_perm _, hEmpty, ?_, ?_⟩
      · rcases hIff "gap" (by decide) with
          ⟨entry, hEntry, hNullable⟩
        cases hGap.symm.trans hEntry
        exact hNullable.mpr hEmpty
      · rcases hIff "pair" (by decide) with
          ⟨entry, hEntry, hNullable⟩
        cases hPair.symm.trans hEntry
        rw [hNullable, hFailed]
        exact nofun

end Program

end Abnf
