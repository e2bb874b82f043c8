import Abnf.Proofs.Exploration
import Abnf.Proofs.Lowering

/-
  Which rules become routines.

  A rewrite of rules keeps their names and what is known of
  their calls. Whatever the rewrite, the rules are accepted
  or refused by the same checks on the rules as given, and
  accepted rules make a table in which every call has its
  routine.

  Key definitions include:
    * `Abnf.Rule.IsRewrite`
    * `Abnf.Scope.ofRules`
    * `Abnf.Entry.accept`
    * `Abnf.Entry.chosen`

  Main declarations:
    * `Abnf.Entry.select_eq`
    * `Abnf.Entry.isTable_chosen`
    * `Abnf.Entry.exists_chosen_of_mem_names`
    * `Abnf.Program.ofRulesWith_eq`
-/

------------------------------------------------------------
-- Rewrites
------------------------------------------------------------

namespace Abnf

namespace Rule

/-
  A rewrite keeps the name of a rule, whether the rule can
  match the empty text and which calls come before any
  input. It may drop references but adds none.
-/
structure IsRewrite
    (rewrite : Rule → Rule) : Prop where
  name : ∀ rule, (rewrite rule).name = rule.name
  isNullable :
    ∀ known rule,
      (rewrite rule).element.isNullable known =
        rule.element.isNullable known
  leading :
    ∀ known rule,
      (rewrite rule).element.leading known =
        rule.element.leading known
  names :
    ∀ rule,
      (rewrite rule).element.names ⊆ rule.element.names

/- Rules as they are. -/
theorem isRewrite_id : IsRewrite id where
  name _ := rfl
  isNullable _ _ := rfl
  leading _ _ := rfl
  names _ := List.Subset.refl _

end Rule

namespace Scope

variable {rewrite : Rule → Rule}

/- A rewrite keeps which names are nullable. -/
theorem nullable_map
    (hRewrite : Rule.IsRewrite rewrite)
    (scope : Scope) :
    (scope.map rewrite).nullable = scope.nullable := by
  have hStep :
      ∀ known,
        (scope.map rewrite).nullableStep known =
          scope.nullableStep known := by
    intro known
    simp [nullableStep, rules_map hRewrite.name,
      List.filter_map, Function.comp_def,
      hRewrite.isNullable, hRewrite.name]
  have hWithin :
      ∀ limit known,
        (scope.map rewrite).nullableWithin limit known =
          scope.nullableWithin limit known := by
    intro limit
    induction limit with
    | zero => intro known; rfl
    | succ limit ih =>
        intro known
        rw [nullableWithin, nullableWithin, hStep]
        simp only [ih]
  rw [nullable, nullable, hWithin,
    rules_map hRewrite.name, List.length_map]

/- A rewrite keeps which rules are left recursive. -/
theorem isLeftRecursive_map
    (hRewrite : Rule.IsRewrite rewrite)
    (scope : Scope)
    (known : List String)
    (rule : Rule) :
    (scope.map rewrite).isLeftRecursive known
        (rewrite rule) =
      scope.isLeftRecursive known rule := by
  have hLeading :
      ∀ rule,
        Rule.leading known (rewrite rule) =
          Rule.leading known rule := by
    intro rule
    rw [Rule.leading, Rule.leading, hRewrite.leading,
      hRewrite.name]
  have hExplore :
      (scope.map rewrite).explore (Rule.leading known)
          (rule.leading known) =
        scope.explore (Rule.leading known)
          (rule.leading known) := by
    apply explore_congr
    · exact List.length_map _
    · exact List.length_map _
    · intro name
      rw [find?_map hRewrite.name, Option.map_map]
      congr 1
      funext rule
      exact hLeading rule
  rw [isLeftRecursive, isLeftRecursive, hLeading, hExplore,
    hRewrite.name]

theorem checkLeftRecursion_map
    (hRewrite : Rule.IsRewrite rewrite)
    (scope : Scope)
    (rules : List Rule) :
    (scope.map rewrite).checkLeftRecursion
        (rules.map rewrite) =
      scope.checkLeftRecursion rules := by
  have hSame :
      (scope.map rewrite).isLeftRecursive scope.nullable ∘
          rewrite =
        scope.isLeftRecursive scope.nullable := by
    funext rule
    exact
      isLeftRecursive_map hRewrite scope scope.nullable rule
  rw [checkLeftRecursion, checkLeftRecursion,
    nullable_map hRewrite, List.find?_map, hSame]
  cases rules.find?
      (scope.isLeftRecursive scope.nullable) with
  | none => rfl
  | some rule => simp [hRewrite.name]

/- A rewrite reaches no name that was not reached before. -/
theorem met_reached_of_map
    (hRewrite : Rule.IsRewrite rewrite)
    (scope : Scope)
    (rules : List Rule)
    {ref : Reference}
    (hRef :
      ref ∈ (scope.map rewrite).reached
        (rules.map rewrite)) :
    met (scope.reached rules) ref.name = true := by
  refine
    @explore_subset _ _
      (fun ref =>
        met (scope.reached rules) ref.name = true)
      ?_ _ ?_ ref hRef
  · intro ref rule hMet hRule ref' hRef'
    rw [find?_map hRewrite.name] at hRule
    rcases Option.map_eq_some_iff.mp hRule with
      ⟨source, hSource, rfl⟩
    rcases List.mem_map.mp hRef' with ⟨name, hName, rfl⟩
    exact
      met_reached_of_find? hMet hSource
        (hRewrite.names source hName)
  · intro ref hStart
    rcases List.mem_flatMap.mp hStart with
      ⟨rule, hRule, hRef⟩
    rcases List.mem_map.mp hRule with
      ⟨source, hSource, rfl⟩
    rcases List.mem_map.mp hRef with ⟨name, hName, rfl⟩
    exact
      scope.met_reached_of_mem hSource
        (hRewrite.names source hName)

/- Names that are defined stay defined in a rewrite. -/
theorem references_map
    (hRewrite : Rule.IsRewrite rewrite)
    {scope : Scope}
    {rules : List Rule}
    {names : List String}
    (hNames : scope.references rules = .ok names) :
    (scope.map rewrite).references (rules.map rewrite) =
      .ok (((scope.map rewrite).reached
        (rules.map rewrite)).map (·.name)) := by
  rw [references_eq_ok_iff]
  refine ⟨?_, rfl⟩
  intro ref hRef
  have hDefined := (references_eq_ok_iff.mp hNames).1
  rcases met_iff.mp
      (met_reached_of_map hRewrite scope rules hRef) with
    ⟨source, hSource, hName⟩
  rw [find?_map hRewrite.name, Option.isSome_map, ← hName]
  exact hDefined source hSource

theorem contains_reached
    (scope : Scope)
    (rules : List Rule)
    (name : String) :
    ((scope.reached rules).map (·.name)).contains name =
      met (scope.reached rules) name := by
  rw [Bool.eq_iff_iff, met_iff]
  simp

/- The scope of some rules: these and the core rules. -/
def ofRules
    (rules : List Rule) : Scope :=
  ⟨rules, coreRules⟩

end Scope

end Abnf

------------------------------------------------------------
-- Acceptance
------------------------------------------------------------

namespace Abnf

namespace Entry

/-
  The checks on some rules: no name is defined twice, all
  names are defined, and no rule is left recursive.
-/
def accept
    (rules : List Rule) : Except GenerationError Unit := do
  checkDuplicates rules
  let _ ← liftReference
    ((Scope.ofRules rules).references rules)
  liftReference
    ((Scope.ofRules rules).checkLeftRecursion rules)

/-
  The entries of the table for rewritten rules: the rules,
  and the core rules that they reach and do not hide.
-/
def chosen
    (rewrite : Rule → Rule)
    (rules : List Rule) : List Entry :=
  let scope := (Scope.ofRules rules).map rewrite
  let needed := scope.core.filter
    (fun rule =>
      Scope.met (scope.reached scope.own) rule.name &&
        scope.keepsCore rule)
  scope.own.map (⟨·, true⟩) ++ needed.map (⟨·, false⟩)

theorem liftReference_eq_ok_iff
    {α : Type}
    {result : Except ReferenceError α}
    {a : α} :
    liftReference result = .ok a ↔ result = .ok a := by
  cases result <;> simp [liftReference]

/- What the checks find of rules that they accept. -/
theorem accept_eq_ok_iff
    {rules : List Rule} :
    accept rules = .ok () ↔
      checkDuplicates rules = .ok () ∧
      (∀ ref ∈ (Scope.ofRules rules).reached rules,
        ((Scope.ofRules rules).find?
          ref.name).isSome = true) ∧
      (Scope.ofRules rules).checkLeftRecursion rules =
        .ok () := by
  simp only [accept, bind_eq_ok_iff,
    liftReference_eq_ok_iff, Scope.references_eq_ok_iff]
  constructor
  · rintro ⟨_, hNames, _, ⟨hDefined, _⟩, hLeft⟩
    exact ⟨hNames, hDefined, hLeft⟩
  · rintro ⟨hNames, hDefined, hLeft⟩
    exact ⟨(), hNames, _, ⟨hDefined, rfl⟩, hLeft⟩

/-
  Selection accepts rules by the checks on the rules as they
  are given, whatever the rewrite.
-/
theorem select_eq
    {rewrite : Rule → Rule}
    (hRewrite : Rule.IsRewrite rewrite)
    (rules : List Rule) :
    select rewrite rules =
      (do
        accept rules
        return chosen rewrite rules) := by
  have hScope :
      Scope.mk (rules.map rewrite)
          (coreRules.map rewrite) =
        (Scope.ofRules rules).map rewrite := rfl
  have hGiven :
      Scope.mk rules coreRules = Scope.ofRules rules := rfl
  simp only [select, accept, hScope, hGiven]
  cases checkDuplicates rules with
  | error cause => rfl
  | ok _ =>
      cases hFirst :
          (Scope.ofRules rules).references rules with
      | error cause => rfl
      | ok names =>
          -- The second check cannot fail after the first.
          rw [Scope.references_map hRewrite hFirst,
            Scope.checkLeftRecursion_map hRewrite]
          cases (Scope.ofRules rules).checkLeftRecursion
              rules with
          | error cause => rfl
          | ok _ =>
              simp only [liftReference, bind, Except.bind,
                Scope.contains_reached]
              rfl

end Entry

end Abnf

------------------------------------------------------------
-- The Chosen Entries
------------------------------------------------------------

namespace Abnf

/- No two core rules have one name. -/
theorem nodup_coreRules :
    (coreRules.map (·.name)).Nodup := by
  decide

namespace Entry

variable {rewrite : Rule → Rule}
variable {rules : List Rule}

/- Names that were not seen before are not repeated. -/
theorem nodup_of_firstRepeated?
    {seen names : List String}
    (h : firstRepeated? seen names = none) :
    names.Nodup ∧ ∀ name ∈ names, name ∉ seen := by
  induction names generalizing seen with
  | nil => simp
  | cons name rest ih =>
      rw [firstRepeated?] at h
      split at h
      · cases h
      · rename_i hSeen
        have hRest := ih h
        constructor
        · rw [List.nodup_cons]
          refine ⟨?_, hRest.1⟩
          intro hName
          exact hRest.2 name hName (by simp)
        · intro other hOther
          rcases List.mem_cons.mp hOther with rfl | hTail
          · simpa using hSeen
          · intro hOld
            exact
              hRest.2 other hTail
                (List.mem_cons_of_mem _ hOld)

theorem nodup_of_checkDuplicates
    (h : checkDuplicates rules = .ok ()) :
    (rules.map (·.name)).Nodup := by
  unfold checkDuplicates at h
  split at h
  · cases h
  · rename_i hNone
    exact (nodup_of_firstRepeated? hNone).1

theorem map_name_rewrite
    (hRewrite : Rule.IsRewrite rewrite)
    (rules : List Rule) :
    (rules.map rewrite).map (·.name) =
      rules.map (·.name) := by
  simp [Function.comp_def, hRewrite.name]

/- What is chosen: a rule, or a core rule that is needed. -/
theorem mem_chosen_iff
    {entry : Entry} :
    entry ∈ chosen rewrite rules ↔
      (entry.isPublic = true ∧
        entry.rule ∈ rules.map rewrite) ∨
      (entry.isPublic = false ∧
        entry.rule ∈ coreRules.map rewrite ∧
        Scope.met
            (((Scope.ofRules rules).map rewrite).reached
              (rules.map rewrite))
            entry.rule.name = true ∧
        Scope.hasName (rules.map rewrite)
            entry.rule.name = false) := by
  have hCore :
      entry.rule ∈ coreRules.map rewrite →
        Scope.hasName (coreRules.map rewrite)
          entry.rule.name = true := by
    intro hRule
    exact Scope.hasName_iff.mpr ⟨entry.rule, hRule, rfl⟩
  rcases entry with ⟨rule, isPublic⟩
  simp only [chosen, Scope.map, Scope.ofRules,
    Scope.keepsCore, List.mem_append]
  constructor
  · rintro (hOwn | hCore)
    · rcases List.mem_map.mp hOwn with
        ⟨source, hSource, hEntry⟩
      cases hEntry
      exact Or.inl ⟨rfl, hSource⟩
    · rcases List.mem_map.mp hCore with
        ⟨source, hSource, hEntry⟩
      cases hEntry
      rw [List.mem_filter] at hSource
      simp only [Bool.and_eq_true, Bool.not_eq_true']
        at hSource
      exact
        Or.inr
          ⟨rfl, hSource.1, hSource.2.1, hSource.2.2.2⟩
  · rintro (⟨rfl, hOwn⟩ | ⟨rfl, hRule, hMet, hVisible⟩)
    · exact Or.inl (List.mem_map.mpr ⟨rule, hOwn, rfl⟩)
    · apply Or.inr
      refine List.mem_map.mpr ⟨rule, ?_, rfl⟩
      rw [List.mem_filter]
      simp only [Bool.and_eq_true, Bool.not_eq_true']
      exact ⟨hRule, hMet, hCore hRule, hVisible⟩

/- The chosen entries are a table of the rewritten scope. -/
theorem isTable_chosen
    (hRewrite : Rule.IsRewrite rewrite)
    (hAccept : accept rules = .ok ()) :
    IsTable ((Scope.ofRules rules).map rewrite)
      (chosen rewrite rules) := by
  have hOwn :
      ((rules.map rewrite).map (·.name)).Nodup := by
    rw [map_name_rewrite hRewrite]
    exact
      nodup_of_checkDuplicates
        (accept_eq_ok_iff.mp hAccept).1
  have hCore :
      ((coreRules.map rewrite).map (·.name)).Nodup := by
    rw [map_name_rewrite hRewrite]
    exact nodup_coreRules
  constructor
  · intro entry hEntry
    rcases mem_chosen_iff.mp hEntry with
      ⟨_, hRule⟩ | ⟨_, hRule, _, hVisible⟩
    · exact Scope.find?_of_mem_own hOwn hRule
    · exact Scope.find?_of_mem_core hCore hRule hVisible
  · intro entry hEntry
    rcases mem_chosen_iff.mp hEntry with
      ⟨hPublic, hRule⟩ | ⟨hPrivate, _, _, hVisible⟩
    · rw [hPublic]
      exact
        (Scope.hasName_iff.mpr
          ⟨entry.rule, hRule, rfl⟩).symm
    · rw [hPrivate]
      exact hVisible.symm

/- The names of chosen rules are reached. -/
theorem met_of_mem_chosen
    (hRewrite : Rule.IsRewrite rewrite)
    (hAccept : accept rules = .ok ())
    {entry : Entry}
    (hEntry : entry ∈ chosen rewrite rules)
    {name : String}
    (hName : name ∈ entry.rule.element.names) :
    Scope.met
        (((Scope.ofRules rules).map rewrite).reached
          (rules.map rewrite)) name = true := by
  rcases mem_chosen_iff.mp hEntry with
    ⟨_, hRule⟩ | ⟨_, _, hMet, _⟩
  · exact Scope.met_reached_of_mem _ hRule hName
  · exact
      Scope.met_reached_of_find? hMet
        ((isTable_chosen hRewrite hAccept).resolves
          entry hEntry)
        hName

/- Every name in a chosen rule is that of a chosen rule. -/
theorem exists_chosen_of_mem_names
    (hRewrite : Rule.IsRewrite rewrite)
    (hAccept : accept rules = .ok ())
    {entry : Entry}
    (hEntry : entry ∈ chosen rewrite rules)
    {name : String}
    (hName : name ∈ entry.rule.element.names) :
    ∃ target ∈ chosen rewrite rules,
      target.rule.name = name := by
  have hMet :=
    met_of_mem_chosen hRewrite hAccept hEntry hName
  have hReferences :
      ((Scope.ofRules rules).references rules) =
        .ok _ :=
    Scope.references_eq_ok_iff.mpr
      ⟨(accept_eq_ok_iff.mp hAccept).2.1, rfl⟩
  have hDefined :=
    (Scope.references_eq_ok_iff.mp
      (Scope.references_map hRewrite hReferences)).1
  rcases Scope.met_iff.mp hMet with ⟨ref, hRef, rfl⟩
  rcases Option.isSome_iff_exists.mp (hDefined ref hRef) with
    ⟨rule, hRule⟩
  have hRuleName := (Scope.mem_of_find? hRule).2
  cases hOwn :
      Scope.hasName (rules.map rewrite) ref.name with
  | true =>
      refine ⟨⟨rule, true⟩, ?_, hRuleName⟩
      exact
        mem_chosen_iff.mpr
          (Or.inl ⟨rfl, Scope.mem_own_of_find? hRule hOwn⟩)
  | false =>
      refine ⟨⟨rule, false⟩, ?_, hRuleName⟩
      apply mem_chosen_iff.mpr
      refine
        Or.inr
          ⟨rfl, Scope.mem_core_of_find? hRule hOwn, ?_, ?_⟩
      · rw [hRuleName]
        exact hMet
      · rw [hRuleName]
        exact hOwn

end Entry

end Abnf

------------------------------------------------------------
-- Programs Of Accepted Rules
------------------------------------------------------------

namespace Abnf

namespace Element

mutual

/- An element whose names are in the table has a node. -/
theorem exists_lower
    {table : List Declaration}
    (caller : Declaration) :
    ∀ element : Element,
      (∀ name ∈ element.names,
        (Declaration.index? table name).isSome = true) →
      ∃ node, element.lower table caller = .ok node
  | ruleName name, h => by
      rcases Option.isSome_iff_exists.mp
          (h name (by simp [names])) with
        ⟨target, hTarget⟩
      rw [lower, Declaration.callOf, hTarget]
      exact ⟨_, rfl⟩
  | terminal s, _ => by
      rw [lower]
      exact ⟨_, rfl⟩
  | repetition min max body, h => by
      rw [names] at h
      rcases exists_lower caller body h with
        ⟨node, hNode⟩
      rw [lower, hNode]
      exact ⟨_, rfl⟩
  | concatenation parts, h => by
      rw [names] at h
      rcases exists_lowerAll caller parts h with
        ⟨nodes, hNodes⟩
      rw [lower, hNodes]
      exact ⟨_, rfl⟩
  | alternation parts, h => by
      rw [names] at h
      rcases exists_lowerAll caller parts h with
        ⟨nodes, hNodes⟩
      rw [lower, hNodes]
      exact ⟨_, rfl⟩

theorem exists_lowerAll
    {table : List Declaration}
    (caller : Declaration) :
    ∀ parts : List Element,
      (∀ name ∈ namesOfAll parts,
        (Declaration.index? table name).isSome = true) →
      ∃ nodes, lowerAll table caller parts = .ok nodes
  | [], _ => ⟨[], rfl⟩
  | part :: parts, h => by
      rw [namesOfAll] at h
      rcases exists_lower caller part
          (fun name hName =>
            h name (List.mem_append_left _ hName)) with
        ⟨node, hNode⟩
      rcases exists_lowerAll caller parts
          (fun name hName =>
            h name (List.mem_append_right _ hName)) with
        ⟨nodes, hNodes⟩
      rw [lowerAll, hNode, hNodes]
      exact ⟨_, rfl⟩

end

end Element

namespace Program

variable {rewrite : Rule → Rule}
variable {rules : List Rule}

/- The chosen entries of accepted rules have routines. -/
theorem exists_routines
    (hRewrite : Rule.IsRewrite rewrite)
    (hAccept : Entry.accept rules = .ok ()) :
    ∃ routines,
      Routine.ofEntries (Entry.chosen rewrite rules) =
        .ok routines := by
  apply exists_mapM_eq_ok
  intro entry hEntry
  have hNames :
      ∀ name ∈ entry.rule.element.names,
        (Declaration.index?
          ((Entry.chosen rewrite rules).map
            (·.declaration)) name).isSome = true := by
    intro name hName
    rcases Entry.exists_chosen_of_mem_names hRewrite
        hAccept hEntry hName with
      ⟨target, hTarget, hTargetName⟩
    rw [Declaration.index?, List.findIdx?_isSome,
      List.any_eq_true]
    refine
      ⟨target.declaration, List.mem_map_of_mem hTarget, ?_⟩
    simp [Entry.declaration, hTargetName]
  rcases entry.rule.element.exists_lower
      entry.declaration hNames with
    ⟨body, hBody⟩
  rw [Routine.ofEntry, hBody]
  exact ⟨_, rfl⟩

/-
  Rules make a program exactly when the checks accept them;
  otherwise the error is the one that the checks find.
-/
theorem ofRulesWith_eq
    (hRewrite : Rule.IsRewrite rewrite)
    (rules : List Rule) :
    (∃ cause,
      Entry.accept rules = .error cause ∧
      ofRulesWith rewrite rules = .error cause) ∨
    (∃ routines,
      Entry.accept rules = .ok () ∧
      Routine.ofEntries (Entry.chosen rewrite rules) =
        .ok routines ∧
      ofRulesWith rewrite rules =
        .ok (ofRoutines routines)) := by
  rw [ofRulesWith, Routine.table,
    Entry.select_eq hRewrite]
  cases hAccept : Entry.accept rules with
  | error cause => exact Or.inl ⟨cause, rfl, rfl⟩
  | ok _ =>
      rcases exists_routines hRewrite hAccept with
        ⟨routines, hRoutines⟩
      refine Or.inr ⟨routines, rfl, hRoutines, ?_⟩
      change
        (do
          return ofRoutines
            (← Routine.ofEntries
              (Entry.chosen rewrite rules))) = _
      rw [hRoutines]
      rfl

/- A program of rules comes from chosen entries. -/
theorem exists_routines_of_ofRulesWith
    (hRewrite : Rule.IsRewrite rewrite)
    {program : Program}
    (h : ofRulesWith rewrite rules = .ok program) :
    Entry.accept rules = .ok () ∧
      ∃ routines,
        Routine.ofEntries (Entry.chosen rewrite rules) =
          .ok routines ∧
        program = ofRoutines routines := by
  rcases ofRulesWith_eq hRewrite rules with
    ⟨cause, _, hError⟩ |
    ⟨routines, hAccept, hRoutines, hProgram⟩
  · rw [hError] at h
    cases h
  · rw [hProgram] at h
    cases h
    exact ⟨hAccept, routines, hRoutines, rfl⟩

end Program

end Abnf
