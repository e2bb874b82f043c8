import Abnf.Proofs.ContextFree
import Abnf.Proofs.PublicRules

/-
  What public rules match is generated.

  The core rules are well formed, so a grammar of well
  formed rules has only well formed elements, whether a name
  stands for a rule of the grammar or for a core rule that
  no rule hides. The span of a match is therefore a word
  that the rule generates when all rules are read as a
  context-free grammar: order, greed and copies that are
  made up for without being taken add no words.

  Main declarations:
    * `Abnf.Scope.check_of_find?`
    * `Abnf.Program.generates_of_run_eq_matched`
-/

------------------------------------------------------------
-- Well Formed Grammars
------------------------------------------------------------

namespace Abnf

theorem check_coreRules :
    ∀ rule ∈ coreRules, rule.element.check = .ok () := by
  decide

theorem Rule.check_element
    {rule : Rule}
    (hCheck : rule.check = .ok ()) :
    rule.element.check = .ok () := by
  rw [Rule.check, bind_eq_ok_iff] at hCheck
  rcases hCheck with ⟨_, _, hElement⟩
  exact hElement

/- Names stand for well formed rules of well formed ones. -/
theorem Scope.check_of_find?
    {rules : List Rule}
    (hCheck : ∀ rule ∈ rules, rule.check = .ok ())
    {name : String}
    {rule : Rule}
    (hRule : (Scope.ofRules rules).find? name = some rule) :
    rule.element.check = .ok () := by
  rcases List.mem_append.mp (mem_of_find? hRule).1 with
    hOwn | hCore
  · exact Rule.check_element (hCheck rule hOwn)
  · exact check_coreRules rule hCore

end Abnf

------------------------------------------------------------
-- Words Of Matches
------------------------------------------------------------

namespace Abnf

namespace Program

/-
  What the matcher of a rule matches within a text is a span
  of the text, and a word that the rule generates.
-/
theorem generates_of_run_eq_matched
    {rules : List Rule}
    {program : Program}
    (hProgram : ofRules rules = .ok program)
    (hCheck : ∀ rule ∈ rules, rule.check = .ok ())
    {name : String}
    (hName : name ∈ program.ruleNames) :
    ∃ entry, program.entry? name = some entry ∧
      ∀ input start stop,
        start ≤ input.size →
        program.run entry input start = .matched stop →
        start ≤ stop ∧ stop ≤ input.size ∧
          (Scope.ofRules rules).Generates (.ruleName name)
            (Text.between input start stop) := by
  rcases exists_routines_of_ofRulesWith
      Rule.isRewrite_normalize hProgram with
    ⟨_, routines, hRoutines, rfl⟩
  rw [ruleNames_ofRoutines Rule.isRewrite_normalize
    hRoutines] at hName
  rcases List.mem_map.mp hName with ⟨rule, hRule, rfl⟩
  rcases exists_trace_eq_invoke Rule.isRewrite_normalize
      (Scope.ofRules rules).invoke_normalize hProgram
      hRule with
    ⟨entry, hEntry, hTrace⟩
  refine ⟨entry, hEntry, ?_⟩
  intro input start stop hStart hRun
  rcases hTrace input start with ⟨depth, hInvoke, _⟩
  rw [run, hInvoke] at hRun
  have hRange :=
    (Scope.ofRules rules).invoke_staysIn input depth
      rule.name start stop hRun
  have hWord :=
    Scope.generates_of_invoke
      (fun _ _ hFound => Scope.check_of_find? hCheck hFound)
      input depth hStart hRun
  exact ⟨hRange.1, by omega, hWord⟩

/-
  A sign behind three letters at least, any of which may be
  missing, and a copy of the whole that is never made.
-/
def signedCodes : List Rule :=
  [⟨"code",
    .concatenation
      [.repetition 3 (some 4)
         (.optional (.ruleName "ALPHA")),
       .alternation [.chars "-", .chars "+"],
       .repetition 0 (some 0) (.ruleName "code")]⟩]

/- The third letter of "ab+" is a copy of the empty word. -/
theorem generates_signedCodes :
    ∃ program,
      ofRules signedCodes = .ok program ∧
      (∀ rule ∈ signedCodes, rule.check = .ok ()) ∧
      "code" ∈ program.ruleNames ∧
      ∃ entry, program.entry? "code" = some entry ∧
        0 ≤ (#[97, 98, 43, 33] : Array UInt8).size ∧
        program.run entry #[97, 98, 43, 33] 0 =
          .matched 3 ∧
        (Scope.ofRules signedCodes).Generates
          (.ruleName "code") [97, 98, 43] := by
  have hRun :
      (ofRules signedCodes).toOption.map
          (fun program =>
            (program.ruleNames, program.entry? "code",
             program.run 0 #[97, 98, 43, 33] 0)) =
        some (["code"], some 0, Outcome.matched 3) := by
    decide +kernel
  have hCheck :
      ∀ rule ∈ signedCodes, rule.check = .ok () := by
    decide
  cases hProgram : ofRules signedCodes with
  | error cause =>
      rw [hProgram] at hRun
      cases hRun
  | ok program =>
      rw [hProgram] at hRun
      have hFacts := Option.some.inj hRun
      simp only [Prod.mk.injEq] at hFacts
      rcases hFacts with ⟨hNames, hFirst, hMatched⟩
      have hName : "code" ∈ program.ruleNames := by
        rw [hNames]
        exact List.mem_singleton_self _
      rcases generates_of_run_eq_matched hProgram hCheck
          hName with
        ⟨entry, hEntry, hWords⟩
      have hZero : entry = 0 := by
        rw [hFirst] at hEntry
        exact (Option.some.inj hEntry).symm
      subst hZero
      have hWord :=
        hWords #[97, 98, 43, 33] 0 3 (by decide) hMatched
      exact
        ⟨program, rfl, hCheck, hName, 0, hEntry,
          by decide, hMatched, hWord.2.2⟩

end Program

end Abnf
