import Abnf.Proofs.Openings
import Abnf.Proofs.PublicRules

/-
  Runs of the rules for grammar texts.

  The parse of a grammar text is a run of the rule for lists
  of rules. `Grammar.Runs` says what is used of the runs of
  all rules on a text: they are those of the bodies at every
  offset, they stay in the text, and rules that make nothing
  or cannot start report no match of note.

  Key definitions include:
    * `Abnf.Grammar.scope`
    * `Abnf.Grammar.starts`
    * `Abnf.Grammar.Runs`

  Main declarations:
    * `Abnf.Grammar.matched_of_range`
    * `Abnf.Grammar.runs_invoke`
    * `Abnf.Grammar.exists_runs`
-/

------------------------------------------------------------
-- Bytes
------------------------------------------------------------

namespace Abnf

namespace Grammar

/- The byte of an ASCII character. -/
def byteOf
    (c : Char) : UInt8 :=
  UInt8.ofNat c.toNat

/- The set of one character has one byte at most. -/
theorem eq_byteOf_of_containsByte
    {c : Char}
    {b : UInt8}
    (h : (CharSet.ofRange c c).containsByte b = true) :
    b = byteOf c := by
  rw [CharSet.containsByte, CharSet.ofRange,
    if_pos (Char.le_refl c),
    CharSet.hasCode_ofSpan (Nat.le_succ c.toNat)] at h
  have hBounds := of_decide_eq_true h
  have hCode : b.toNat = c.toNat := by omega
  rw [byteOf, ← hCode, UInt8.ofNat_toNat]

theorem not_any_containsByte
    {c : Char}
    {byte : Option UInt8}
    (h : byte ≠ some (byteOf c)) :
    byte.any (CharSet.ofRange c c).containsByte =
      false := by
  cases byte with
  | none => rfl
  | some b =>
      rw [Option.any_some, Bool.eq_false_iff]
      intro hMember
      rw [eq_byteOf_of_containsByte hMember] at h
      exact h rfl

/- One character is matched where its byte stands. -/
theorem matched_of_range
    {input : Array UInt8}
    {callee : String → Nat → Run}
    {c : Char}
    {index stop : Nat}
    (h :
      ((Element.range c c).run input callee
        index).outcome = .matched stop)
    (hSome :
      (CharSet.ofRange c c).isEmpty = false) :
    stop = index + 1 ∧
      input[index]? = some (byteOf c) := by
  rw [Element.range, Element.run, Run.outcome_quiet,
    Element.runSet, hSome, if_neg Bool.false_ne_true] at h
  cases hByte : input[index]? with
  | none => simp [hByte] at h
  | some b =>
      simp only [hByte] at h
      split at h
      · rename_i hMember
        cases h
        rw [eq_byteOf_of_containsByte hMember]
        exact ⟨rfl, rfl⟩
      · cases h

end Grammar

end Abnf

------------------------------------------------------------
-- Rules For Grammar Texts
------------------------------------------------------------

namespace Abnf

namespace Grammar

/- The rules for grammar texts and the core rules. -/
def scope : Scope :=
  Scope.ofRules rules

/- The name of a rule for grammar texts means this rule. -/
theorem find?_of_mem_rules
    {rule : Rule}
    (hRule : rule ∈ rules) :
    scope.find? rule.name = some rule := by
  have hNodup : (scope.own.map (·.name)).Nodup := by
    decide
  exact Scope.find?_of_mem_own hNodup hRule

/- The byte can start what the rule of a name matches. -/
def starts
    (name : String)
    (byte : Option UInt8) : Bool :=
  scope.opens byte 8 name

/- The rules that make nothing and name none that does. -/
def hushedNames : List String :=
  ["c-wsp", "c-nl", "comment", "quoted-string",
   "case-insensitive-string", "case-sensitive-string"] ++
    coreRules.map (·.name)

/-
  What is used of the runs of the rules on a text: bodies
  run at every offset, with no depth to be exhausted.
-/
structure Runs
    (input : Array UInt8)
    (callee : String → Nat → Run) : Prop where
  body :
    ∀ rule ∈ rules, ∀ index,
      callee rule.name index =
        (rule.element.run input callee index).reported
          rule.name index
  stays :
    ∀ name index,
      (callee name index).StaysIn input.size index
  hushed :
    ∀ name ∈ hushedNames, ∀ index,
      (callee name index).Hushed makes
  idle :
    ∀ name index, starts name input[index]? = false →
      (callee name index).Idle makes false index

theorem not_makes_of_mem_hushedNames :
    ∀ name ∈ hushedNames, makes name = false := by
  decide

theorem names_subset_hushedNames :
    ∀ rule ∈ rules ++ coreRules,
      rule.name ∈ hushedNames →
      rule.element.names ⊆ hushedNames := by
  set_option maxRecDepth 8000 in decide

/- At a depth that settles all runs, the runs are as above. -/
theorem runs_invoke
    {input : Array UInt8}
    {depth : Nat}
    (hDeep :
      scope.invoke input (depth + 1) =
        scope.invoke input depth) :
    Runs input (scope.invoke input depth) where
  body := by
    intro rule hRule index
    have hFind := find?_of_mem_rules hRule
    have hOwn : Scope.hasName scope.own rule.name = true :=
      Scope.hasName_iff.mpr ⟨rule, hRule, rfl⟩
    have hStep := Scope.invoke_succ hFind input depth index
    rw [hDeep, Scope.report, if_pos hOwn] at hStep
    exact hStep
  stays := scope.invoke_staysIn input depth
  hushed := by
    intro name hName index
    apply Scope.hushed_invoke not_makes_of_mem_hushedNames
      _ input depth hName index
    intro name hName rule hRule
    rcases Scope.mem_of_find? hRule with ⟨hMember, rfl⟩
    exact names_subset_hushedNames rule hMember hName
  idle := by
    intro name index hStarts
    exact Scope.invoke_of_not_opens hDeep hStarts

end Grammar

end Abnf

------------------------------------------------------------
-- Parses Are Runs
------------------------------------------------------------

namespace Abnf

namespace Grammar

/- An empty line or a comment behind blanks. -/
def blankLine : Element :=
  .concatenation [blanks, .ruleName "c-nl"]

/- The names of all rules that can be used. -/
def allNames : List String :=
  (rules ++ coreRules).map (·.name)

theorem names_closed :
    ∀ name ∈ allNames,
      (scope.find? name).any
        (fun rule =>
          rule.element.names.all allNames.contains) =
            true := by
  set_option maxRecDepth 8000 in decide

/- Some depth settles the runs of all rules on a text. -/
theorem exists_depth
    (hAccept : Entry.accept rules = .ok ())
    (input : Array UInt8) :
    ∃ depth,
      scope.invoke input (depth + 1) =
          scope.invoke input depth ∧
        ∀ name ∈ allNames.toFinset, ∀ start,
          (scope.invoke input depth name
            start).outcome.isSettled = true := by
  apply Scope.exists_invoke_succ_eq
  · intro name
    have hAcyclic :=
      Program.not_transGen_leads_of_accept
        Rule.isRewrite_id hAccept name
    rw [Scope.map_id] at hAcyclic
    exact hAcyclic
  · intro name rule hFind
    rcases Scope.mem_of_find? hFind with ⟨hMember, rfl⟩
    exact
      List.mem_toFinset.mpr (List.mem_map_of_mem hMember)
  · intro name hName
    have hAny :=
      names_closed name (List.mem_toFinset.mp hName)
    cases hFind : scope.find? name with
    | none =>
        rw [hFind] at hAny
        cases hAny
    | some rule =>
        rw [hFind, Option.any_some, List.all_eq_true] at hAny
        refine ⟨rule, rfl, ?_⟩
        intro name' hName'
        exact
          List.mem_toFinset.mpr
            (List.contains_iff_mem.mp (hAny name' hName'))

/- A parse is a run of the rule for lists of rules. -/
theorem exists_runs
    {input : Array UInt8}
    {start : Nat}
    {run : Run}
    (hParse : parse input start = .ok run) :
    ∃ callee,
      Runs input callee ∧ run = callee "rulelist" start := by
  unfold parse at hParse
  cases hProgram : program with
  | error cause => simp [hProgram] at hParse
  | ok program =>
      have hRule :
          (⟨"rulelist",
            .atLeast 1
              (.alternation
                [.ruleName "rule", blankLine])⟩ : Rule) ∈
            rules := by
        decide
      rcases Program.exists_trace_eq_invoke
          Rule.isRewrite_normalize
          (Scope.ofRules rules).invoke_normalize hProgram
          hRule with
        ⟨entry, hEntry, hTrace⟩
      rcases Program.exists_routines_of_ofRulesWith
          Rule.isRewrite_normalize hProgram with
        ⟨hAccept, _⟩
      rcases exists_depth hAccept input with
        ⟨depth, hDeep, hSettled⟩
      rcases hTrace input start with
        ⟨depth', hRun, hSettled'⟩
      refine ⟨_, runs_invoke hDeep, ?_⟩
      simp only [hProgram, hEntry] at hParse
      cases hParse
      rw [hRun] at hSettled' ⊢
      apply Scope.invoke_eq_of_isSettled hSettled'
      exact
        hSettled "rulelist"
          (List.mem_toFinset.mpr (by decide)) start

end Grammar

end Abnf
