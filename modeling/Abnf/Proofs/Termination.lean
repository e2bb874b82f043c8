import Mathlib.Data.Finset.Card
import Mathlib.Logic.Relation
import Abnf.Proofs.Normalization
import Abnf.Proofs.Nullability

/-
  Runs of accepted rules end.

  A rule leads to the rules that it may call before it takes
  any input. For accepted rules no rule leads to itself, not
  even through core rules: a circle through a rule of the
  grammar is refused, and core rules alone make no circle.
  So each name is open at most once at each offset, which is
  what the limit on the depth of a run allows for.

  Key definitions include:
    * `Abnf.Scope.Leads`
    * `Abnf.coreRank`

  Main declarations:
    * `Abnf.Scope.not_transGen_leads_self`
    * `Abnf.Scope.invoke_isSettled`
    * `Abnf.Program.trace_isSettled`
-/

------------------------------------------------------------
-- Leading Calls
------------------------------------------------------------

namespace Abnf

namespace Scope

open Relation

/-
  The rule of the first name may call the second name before
  it takes any input.
-/
def Leads
    (scope : Scope)
    (name name' : String) : Prop :=
  ∃ rule, scope.find? name = some rule ∧
    name' ∈ rule.element.leading scope.nullable

variable {scope : Scope}

/- Exploring the leading calls of a rule meets all of them. -/
theorem met_leading_of_transGen
    {name : String}
    {rule : Rule}
    (hRule : scope.find? name = some rule)
    {name' : String}
    (hLeads : TransGen scope.Leads name name') :
    met
        (scope.explore (Rule.leading scope.nullable)
          (rule.leading scope.nullable))
        name' = true := by
  have hStep :
      ∀ {first second : String},
        scope.Leads first second →
        scope.Follows (Rule.leading scope.nullable)
          first second := by
    rintro first second ⟨other, hOther, hName⟩
    exact
      ⟨other, hOther,
        met_iff.mpr ⟨_, List.mem_map_of_mem hName, rfl⟩⟩
  rcases TransGen.head'_iff.mp hLeads with
    ⟨first, ⟨other, hOther, hFirst⟩, hPath⟩
  rw [hRule] at hOther
  cases hOther
  rw [met_explore_iff]
  exact
    ⟨⟨first, rule.name⟩, List.mem_map_of_mem hFirst,
      ReflTransGen.mono (fun _ _ => hStep) _ _ hPath⟩

/- No accepted rule of the grammar leads to itself. -/
theorem not_transGen_leads_own
    (hCheck : scope.checkLeftRecursion scope.own = .ok ())
    {name : String}
    (hOwn : hasName scope.own name = true) :
    ¬ TransGen scope.Leads name name := by
  intro hLeads
  rcases TransGen.head'_iff.mp hLeads with
    ⟨_, ⟨rule, hRule, _⟩, _⟩
  have hMember := mem_own_of_find? hRule hOwn
  have hMet := met_leading_of_transGen hRule hLeads
  unfold checkLeftRecursion at hCheck
  split at hCheck
  · cases hCheck
  · rename_i hNone
    have hAccepted :=
      List.find?_eq_none.mp hNone rule hMember
    rw [isLeftRecursive, (mem_of_find? hRule).2] at hAccepted
    exact hAccepted hMet

end Scope

end Abnf

------------------------------------------------------------
-- Core Rules
------------------------------------------------------------

namespace Abnf

/- The longest chain of references from a core rule. -/
def coreRank
    (name : String) : Nat :=
  if name = "LWSP" then 2
  else if name ∈ ["CRLF", "HEXDIG", "WSP"] then 1
  else 0

/- A core rule refers to core rules of a lower rank. -/
theorem coreRank_lt :
    ∀ rule ∈ coreRules, ∀ name ∈ rule.element.names,
      coreRank name < coreRank rule.name := by
  decide

namespace Scope

open Relation

variable {scope : Scope}

/-
  Leading calls from a core rule come to a rule of the
  grammar or go down in rank.
-/
theorem leads_own_or_lower
    (hCore :
      ∀ rule ∈ scope.core, ∀ name ∈ rule.element.names,
        coreRank name < coreRank rule.name)
    {name name' : String}
    (hName : hasName scope.own name = false)
    (hLeads : TransGen scope.Leads name name') :
    (∃ own, hasName scope.own own = true ∧
      TransGen scope.Leads name own ∧
      ReflTransGen scope.Leads own name') ∨
    (hasName scope.own name' = false ∧
      coreRank name' < coreRank name) := by
  have hLower :
      ∀ {first second : String},
        hasName scope.own first = false →
        scope.Leads first second →
        coreRank second < coreRank first := by
    rintro first second hFirst ⟨rule, hRule, hSecond⟩
    have hRank :=
      hCore rule (mem_core_of_find? hRule hFirst) second
        (rule.element.leading_subset_names hSecond)
    rw [(mem_of_find? hRule).2] at hRank
    exact hRank
  induction hLeads with
  | @single last hStep =>
      cases hLast : hasName scope.own last with
      | true =>
          exact
            Or.inl
              ⟨last, hLast, TransGen.single hStep,
                ReflTransGen.refl⟩
      | false => exact Or.inr ⟨rfl, hLower hName hStep⟩
  | @tail mid last hLeads hStep ih =>
      rcases ih with
        ⟨own, hOwn, hTo, hFrom⟩ | ⟨hMid, hRank⟩
      · exact Or.inl ⟨own, hOwn, hTo, hFrom.tail hStep⟩
      · cases hLast : hasName scope.own last with
        | true =>
            exact
              Or.inl
                ⟨last, hLast, hLeads.tail hStep,
                  ReflTransGen.refl⟩
        | false =>
            have hStepRank := hLower hMid hStep
            exact Or.inr ⟨rfl, by omega⟩

/-
  No name leads to itself if no rule of the grammar does:
  core rules alone make no circle.
-/
theorem not_transGen_leads_self
    (hCheck : scope.checkLeftRecursion scope.own = .ok ())
    (hCore :
      ∀ rule ∈ scope.core, ∀ name ∈ rule.element.names,
        coreRank name < coreRank rule.name)
    (name : String) :
    ¬ TransGen scope.Leads name name := by
  intro hLeads
  cases hName : hasName scope.own name with
  | true => exact not_transGen_leads_own hCheck hName hLeads
  | false =>
      rcases leads_own_or_lower hCore hName hLeads with
        ⟨own, hOwn, hTo, hFrom⟩ | ⟨_, hRank⟩
      · exact
          not_transGen_leads_own hCheck hOwn
            (TransGen.trans_right hFrom hTo)
      · omega

end Scope

end Abnf

------------------------------------------------------------
-- Depth
------------------------------------------------------------

namespace Abnf

namespace Scope

open Relation

variable {scope : Scope}

/-
  Names that lead to a further name are fewer than all, for
  they do not hold that name.
-/
theorem card_opened_lt
    (hAcyclic : ∀ name, ¬ TransGen scope.Leads name name)
    {names opened : Finset String}
    {name : String}
    (hName : name ∈ names)
    (hOpened : opened ⊆ names)
    (hLeads :
      ∀ other ∈ opened, TransGen scope.Leads other name) :
    name ∉ opened ∧ opened.card < names.card := by
  have hFresh : name ∉ opened :=
    fun hOpen => hAcyclic name (hLeads name hOpen)
  exact
    ⟨hFresh,
      Finset.card_lt_card
        ((Finset.ssubset_iff_of_subset hOpened).mpr
          ⟨name, hName, hFresh⟩)⟩

/-
  A run is settled at a depth that allows for each name once
  at each offset. `opened` holds the names that are open at
  the offset of the run; each of them leads to its name, so
  the name itself is not among them.
-/
theorem invoke_isSettled
    (hAcyclic : ∀ name, ¬ TransGen scope.Leads name name)
    {names : Finset String}
    (hClosed :
      ∀ name ∈ names, ∃ rule,
        scope.find? name = some rule ∧
        ∀ name' ∈ rule.element.names, name' ∈ names)
    (input : Array UInt8)
    (depth : Nat)
    (name : String)
    (start : Nat)
    (opened : Finset String)
    (hName : name ∈ names)
    (hOpened : opened ⊆ names)
    (hLeads :
      ∀ other ∈ opened, TransGen scope.Leads other name)
    (hDepth :
      names.card * (input.size - start + 1) ≤
        depth + opened.card) :
    (scope.invoke input depth name start).outcome.isSettled =
      true := by
  induction depth generalizing name start opened with
  | zero =>
      have hLess :=
        (card_opened_lt hAcyclic hName hOpened hLeads).2
      have hLimit :
          names.card ≤
            names.card * (input.size - start + 1) :=
        Nat.le_mul_of_pos_right _ (Nat.succ_pos _)
      omega
  | succ depth ih =>
      rcases card_opened_lt hAcyclic hName hOpened
          hLeads with
        ⟨hFresh, hLess⟩
      rcases hClosed name hName with
        ⟨rule, hRule, hNames⟩
      rw [invoke_succ hRule, outcome_report]
      apply Element.run_isSettled
        (scope.invoke_staysIn input depth)
        (scope.mem_nullable_of_invoke input depth)
      · -- A call at the same offset opens one more name.
        intro callee hCallee
        have hStep : scope.Leads name callee :=
          ⟨rule, hRule, hCallee⟩
        apply ih callee start (insert name opened)
        · exact
            hNames callee
              (rule.element.leading_subset_names hCallee)
        · exact Finset.insert_subset hName hOpened
        · intro other hOther
          rcases Finset.mem_insert.mp hOther with
            rfl | hOpen
          · exact TransGen.single hStep
          · exact (hLeads other hOpen).tail hStep
        · rw [Finset.card_insert_of_notMem hFresh]
          omega
      · -- A call further on starts with no name open.
        intro callee hCallee i hLow hHigh
        apply ih callee i ∅ (hNames callee hCallee)
          (Finset.empty_subset names)
        · intro other hOther
          cases hOther
        · have hLeft :
              names.card * (input.size - i + 1) ≤
                names.card * (input.size - start) :=
            Nat.mul_le_mul_left _ (by omega)
          rw [Nat.mul_add, Nat.mul_one] at hDepth
          rw [Finset.card_empty]
          omega

/-
  There is a depth that settles the runs of all rules on a
  text, so that a greater one adds nothing.
-/
theorem exists_invoke_succ_eq
    (hAcyclic : ∀ name, ¬ TransGen scope.Leads name name)
    {names : Finset String}
    (hFound :
      ∀ name rule, scope.find? name = some rule →
        name ∈ names)
    (hClosed :
      ∀ name ∈ names, ∃ rule,
        scope.find? name = some rule ∧
        ∀ name' ∈ rule.element.names, name' ∈ names)
    (input : Array UInt8) :
    ∃ depth,
      scope.invoke input (depth + 1) =
          scope.invoke input depth ∧
        ∀ name ∈ names, ∀ start,
          (scope.invoke input depth name
            start).outcome.isSettled = true := by
  let depth := names.card * (input.size + 1) + 1
  have hSettled :
      ∀ name ∈ names, ∀ start,
        (scope.invoke input depth name
          start).outcome.isSettled = true := by
    intro name hName start
    apply invoke_isSettled hAcyclic hClosed input depth
      name start ∅ hName (Finset.empty_subset names)
    · intro other hOther
      cases hOther
    · have hRest :
          names.card * (input.size - start + 1) ≤
            names.card * (input.size + 1) :=
        Nat.mul_le_mul_left _ (by omega)
      rw [Finset.card_empty]
      omega
  refine ⟨depth, ?_, hSettled⟩
  funext name start
  cases hRule : scope.find? name with
  | none => simp [invoke, hRule, depth]
  | some rule =>
      exact
        scope.invoke_settles input (Nat.le_succ depth) name
          start (hSettled name (hFound name rule hRule) start)

end Scope

namespace Program

variable {rewrite : Rule → Rule}
variable {rules : List Rule}

/- No name leads to itself in rewritten accepted rules. -/
theorem not_transGen_leads_of_accept
    (hRewrite : Rule.IsRewrite rewrite)
    (hAccept : Entry.accept rules = .ok ())
    (name : String) :
    ¬ Relation.TransGen
      ((Scope.ofRules rules).map rewrite).Leads
      name name := by
  apply Scope.not_transGen_leads_self
  · rw [← (Entry.accept_eq_ok_iff.mp hAccept).2.2]
    exact
      Scope.checkLeftRecursion_map hRewrite
        (Scope.ofRules rules) rules
  · intro rule hRule name hName
    rcases List.mem_map.mp hRule with
      ⟨source, hSource, rfl⟩
    rw [hRewrite.name]
    exact
      coreRank_lt source hSource name
        (hRewrite.names source hName)

/- Every run of a program of accepted rules is settled. -/
theorem trace_isSettled
    (hRewrite : Rule.IsRewrite rewrite)
    {program : Program}
    (hProgram : ofRulesWith rewrite rules = .ok program)
    {entry : Nat}
    (hEntry : entry < program.procedures.length)
    (input : Array UInt8)
    (start : Nat) :
    (program.trace entry input start).outcome.isSettled =
      true := by
  rcases exists_routines_of_ofRulesWith hRewrite
      hProgram with
    ⟨hAccept, routines, hRoutines, rfl⟩
  have hTable := Entry.isTable_chosen hRewrite hAccept
  have hLength :
      (ofRoutines routines).procedures.length =
        (Entry.chosen rewrite rules).length := by
    rw [ofRoutines, List.length_map]
    exact length_of_mapM_eq_ok hRoutines
  rw [hLength] at hEntry
  have hFirst :
      (Entry.chosen rewrite rules)[entry]? =
        some (Entry.chosen rewrite rules)[entry] :=
    List.getElem?_eq_getElem hEntry
  have hMember :
      (Entry.chosen rewrite rules)[entry] ∈
        Entry.chosen rewrite rules :=
    List.getElem_mem hEntry
  rw [trace, invoke_ofRoutines hTable hRoutines input _
    entry _ start hFirst]
  let names :=
    ((Entry.chosen rewrite rules).map
      (·.rule.name)).toFinset
  have hNames :
      ∀ name, name ∈ names ↔
        ∃ target ∈ Entry.chosen rewrite rules,
          target.rule.name = name := by
    intro name
    simp [names]
  have hCard :
      names.card ≤ (Entry.chosen rewrite rules).length := by
    have hList :=
      List.toFinset_card_le
        ((Entry.chosen rewrite rules).map (·.rule.name))
    rwa [List.length_map] at hList
  have hClosed :
      ∀ name ∈ names, ∃ rule,
        ((Scope.ofRules rules).map rewrite).find? name =
            some rule ∧
          ∀ name' ∈ rule.element.names, name' ∈ names := by
    intro name hName
    rcases (hNames name).mp hName with
      ⟨target, hTarget, rfl⟩
    refine
      ⟨target.rule, hTable.resolves target hTarget, ?_⟩
    intro name' hName'
    rw [hNames]
    exact
      Entry.exists_chosen_of_mem_names hRewrite hAccept
        hTarget hName'
  apply Scope.invoke_isSettled
    (not_transGen_leads_of_accept hRewrite hAccept)
    hClosed input _ _ start ∅
  · exact (hNames _).mpr ⟨_, hMember, rfl⟩
  · exact Finset.empty_subset names
  · intro other hOther
    cases hOther
  · rw [depthLimit, hLength, Finset.card_empty, Nat.add_zero]
    exact Nat.mul_le_mul_right _ hCard

end Program

end Abnf
