import Mathlib
import Abnf.Proofs.PublicRules
import Abnf.Proofs.Reachability
import Abnf.Source.Writer

/-
  Which rules make a parser, and why others do not.

  Rules are accepted when their names are distinct, every
  name that they reach is defined, and no rule reenters
  itself by first calls; all this is said of the rules as
  they are given. Rules that are refused are refused for the
  first of these three that fails, and at the first place
  where it fails. A parser in source form asks for one thing
  more: that no two routines share an identifier.

  Key definitions include:
    * `Abnf.Entry.Acceptable`
    * `Abnf.Entry.Refuses`
    * `Abnf.Source.Clashes`

  Main declarations:
    * `Abnf.Entry.accept_eq_ok_iff_acceptable`
    * `Abnf.Entry.refuses_of_accept`
    * `Abnf.Source.ofRules_eq`
    * `Abnf.Program.acceptable_iff_exists_ofRules`
-/

------------------------------------------------------------
-- Conditions And Reasons
------------------------------------------------------------

namespace Abnf

namespace Entry

/- Every name that the rules reach stands for a rule. -/
def AllDefined
    (rules : List Rule) : Prop :=
  ∀ name, (Scope.ofRules rules).Reaches rules name →
    ((Scope.ofRules rules).find? name).isSome = true

/- Rules of which a parser can be made. -/
structure Acceptable
    (rules : List Rule) : Prop where
  /- No two rules have one name. -/
  distinct : (rules.map (·.name)).Nodup
  defined : AllDefined rules
  /- No rule leads to itself before it takes any input. -/
  grounded :
    ∀ rule ∈ rules,
      ¬ (Scope.ofRules rules).Reenters rule.name

/- A reason to refuse some rules. -/
inductive Refuses :
    List Rule → GenerationError → Prop
  /- The first rule that repeats a name. -/
  | duplicate {before behind : List Rule} {rule : Rule} :
      (before.map (·.name)).Nodup →
      rule.name ∈ before.map (·.name) →
      Refuses (before ++ rule :: behind)
        (.duplicateRule rule.name)
  /- A name without a rule, in a rule that is in use. -/
  | undefined
      {rules : List Rule} {rule : Rule} {name : String} :
      (rules.map (·.name)).Nodup →
      (rule ∈ rules ∨
        (Scope.ofRules rules).Reaches rules rule.name ∧
          (Scope.ofRules rules).find? rule.name =
            some rule) →
      name ∈ rule.element.names →
      (Scope.ofRules rules).find? name = none →
      Refuses rules
        (.reference (.undefinedRule name rule.name))
  /- The first rule that leads to itself. -/
  | leftRecursion
      {before behind : List Rule} {rule : Rule} :
      ((before ++ rule :: behind).map (·.name)).Nodup →
      AllDefined (before ++ rule :: behind) →
      (∀ other ∈ before,
        ¬ (Scope.ofRules
          (before ++ rule :: behind)).Reenters
            other.name) →
      (Scope.ofRules (before ++ rule :: behind)).Reenters
        rule.name →
      Refuses (before ++ rule :: behind)
        (.reference (.leftRecursion rule.name))

end Entry

namespace Source

/-
  The first name whose identifier an earlier one has is the
  reason why names cannot be identifiers.
-/
inductive Clashes :
    List String → GenerationError → Prop
  | clash
      {before behind : List String}
      {owner name : String} :
      (before.map snakeCase).Nodup →
      owner ∈ before →
      snakeCase owner = snakeCase name →
      Clashes (before ++ name :: behind)
        (.identifierClash owner name (snakeCase name))

end Source

end Abnf

------------------------------------------------------------
-- Repeated Names
------------------------------------------------------------

namespace Abnf

namespace Entry

variable {rules : List Rule}

/- The first repeated name stands behind distinct ones. -/
theorem exists_of_firstRepeated?
    {seen names : List String}
    {name : String}
    (h : firstRepeated? seen names = some name) :
    ∃ before behind,
      names = before ++ name :: behind ∧
      before.Nodup ∧
      (∀ other ∈ before, other ∉ seen) ∧
      (name ∈ before ∨ name ∈ seen) := by
  induction names generalizing seen with
  | nil => cases h
  | cons first rest ih =>
      rw [firstRepeated?] at h
      split at h
      · rename_i hSeen
        cases h
        exact
          ⟨[], rest, rfl, List.nodup_nil, by simp,
            Or.inr (by simpa using hSeen)⟩
      · rename_i hNew
        rcases ih h with
          ⟨before, behind, rfl, hNodup, hFresh, hName⟩
        have hFirst : first ∉ before :=
          fun hIn => hFresh first hIn List.mem_cons_self
        refine ⟨first :: before, behind, rfl, ?_, ?_, ?_⟩
        · exact List.nodup_cons.mpr ⟨hFirst, hNodup⟩
        · rw [List.forall_mem_cons]
          refine ⟨by simpa using hNew, ?_⟩
          intro other hOther hOld
          exact
            hFresh other hOther (List.mem_cons_of_mem _ hOld)
        · rw [List.mem_cons] at hName ⊢
          rcases hName with hBefore | rfl | hOld
          · exact Or.inl (Or.inr hBefore)
          · exact Or.inl (Or.inl rfl)
          · exact Or.inr hOld

theorem checkDuplicates_eq_ok_iff :
    checkDuplicates rules = .ok () ↔
      (rules.map (·.name)).Nodup := by
  refine ⟨nodup_of_checkDuplicates, ?_⟩
  intro hNodup
  unfold checkDuplicates
  split
  · rename_i name hName
    rcases exists_of_firstRepeated? hName with
      ⟨before, behind, hNames, _, _, hRepeated⟩
    rw [hNames, List.nodup_append] at hNodup
    rcases hRepeated with hBefore | hNone
    · exact
        absurd rfl
          (hNodup.2.2 name hBefore name List.mem_cons_self)
    · cases hNone
  · rfl

theorem refuses_of_checkDuplicates
    {cause : GenerationError}
    (h : checkDuplicates rules = .error cause) :
    Refuses rules cause := by
  unfold checkDuplicates at h
  split at h
  · rename_i name hName
    cases h
    rcases exists_of_firstRepeated? hName with
      ⟨before, behind, hNames, hNodup, _, hRepeated⟩
    rcases List.map_eq_append_iff.mp hNames with
      ⟨first, rest, rfl, rfl, hRest⟩
    rcases List.map_eq_cons_iff.mp hRest with
      ⟨rule, last, rfl, rfl, rfl⟩
    rcases hRepeated with hBefore | hNone
    · exact .duplicate hNodup hBefore
    · cases hNone
  · cases h

end Entry

end Abnf

------------------------------------------------------------
-- Undefined Names
------------------------------------------------------------

namespace Abnf

namespace Scope

variable {scope : Scope}
variable {rules : List Rule}

/- A reference that is reached stands in a rule in use. -/
theorem exists_referrer_of_mem_reached
    {ref : Reference}
    (hRef : ref ∈ scope.reached rules) :
    ∃ rule,
      (rule ∈ rules ∨
        scope.Reaches rules rule.name ∧
          scope.find? rule.name = some rule) ∧
      rule.name = ref.referrer ∧
      ref.name ∈ rule.element.names := by
  -- Names are reached, too, which the induction needs.
  refine
    (@explore_subset scope Rule.references
      (fun ref =>
        scope.Reaches rules ref.name ∧
          ∃ rule,
            (rule ∈ rules ∨
              scope.Reaches rules rule.name ∧
                scope.find? rule.name = some rule) ∧
            rule.name = ref.referrer ∧
            ref.name ∈ rule.element.names)
      ?_ _ ?_ ref hRef).2
  · rintro source rule ⟨hReached, _⟩ hRule target hTarget
    rcases List.mem_map.mp hTarget with ⟨name, hName, rfl⟩
    rw [← (mem_of_find? hRule).2] at hReached hRule
    constructor
    · rcases hReached with ⟨start, hStart, first, hFirst, hPath⟩
      exact
        ⟨start, hStart, first, hFirst,
          hPath.tail ⟨rule, hRule, hName⟩⟩
    · exact ⟨rule, Or.inr ⟨hReached, hRule⟩, rfl, hName⟩
  · intro first hFirst
    rcases List.mem_flatMap.mp hFirst with
      ⟨rule, hRule, hIn⟩
    rcases List.mem_map.mp hIn with ⟨name, hName, rfl⟩
    exact
      ⟨⟨rule, hRule, name, hName,
          Relation.ReflTransGen.refl⟩,
        rule, Or.inl hRule, rfl, hName⟩

/- All that is reached is defined: said without a search. -/
theorem forall_reached_iff :
    (∀ ref ∈ scope.reached rules,
      (scope.find? ref.name).isSome = true) ↔
    ∀ name, scope.Reaches rules name →
      (scope.find? name).isSome = true := by
  simp only [← met_reached_iff, met_iff]
  constructor
  · rintro hAll _ ⟨ref, hRef, rfl⟩
    exact hAll ref hRef
  · intro hAll ref hRef
    exact hAll ref.name ⟨ref, hRef, rfl⟩

theorem exists_of_references_eq_error
    {cause : ReferenceError}
    (h : scope.references rules = .error cause) :
    ∃ ref ∈ scope.reached rules,
      scope.find? ref.name = none ∧
      cause = .undefinedRule ref.name ref.referrer := by
  unfold references at h
  dsimp only at h
  split at h
  · rename_i ref hRef
    cases h
    have hNone := List.find?_some hRef
    exact
      ⟨ref, List.mem_of_find?_eq_some hRef,
        Option.isNone_iff_eq_none.mp hNone, rfl⟩
  · cases h

end Scope

end Abnf

------------------------------------------------------------
-- Rules That Reenter Themselves
------------------------------------------------------------

namespace Abnf

namespace Scope

variable {scope : Scope}

theorem checkLeftRecursion_eq_ok_iff
    (hNodup : (scope.own.map (·.name)).Nodup) :
    scope.checkLeftRecursion scope.own = .ok () ↔
      ∀ rule ∈ scope.own, ¬ scope.Reenters rule.name := by
  have hIff :
      ∀ rule ∈ scope.own,
        (¬ scope.isLeftRecursive scope.nullable rule =
          true) ↔ ¬ scope.Reenters rule.name := by
    intro rule hRule
    rw [isLeftRecursive_iff_reenters
      (find?_of_mem_own hNodup hRule)]
  unfold checkLeftRecursion
  split
  · rename_i rule hRule
    have hFound := List.find?_some hRule
    have hMember := List.mem_of_find?_eq_some hRule
    constructor
    · intro h
      cases h
    · intro hAll
      exact
        absurd hFound
          ((hIff rule hMember).mpr (hAll rule hMember))
  · rename_i hNone
    simp only [true_iff]
    intro rule hRule
    exact
      (hIff rule hRule).mp
        (List.find?_eq_none.mp hNone rule hRule)

/- The rule that is reported is the first one. -/
theorem exists_of_checkLeftRecursion
    (hNodup : (scope.own.map (·.name)).Nodup)
    {cause : ReferenceError}
    (h : scope.checkLeftRecursion scope.own = .error cause) :
    ∃ before rule behind,
      scope.own = before ++ rule :: behind ∧
      (∀ other ∈ before, ¬ scope.Reenters other.name) ∧
      scope.Reenters rule.name ∧
      cause = .leftRecursion rule.name := by
  unfold checkLeftRecursion at h
  split at h
  · rename_i rule hFind
    cases h
    rcases List.find?_eq_some_iff_append.mp hFind with
      ⟨hRule, before, behind, hOwn, hBefore⟩
    have hMember : rule ∈ scope.own :=
      List.mem_of_find?_eq_some hFind
    refine ⟨before, rule, behind, hOwn, ?_, ?_, rfl⟩
    · intro other hOther
      have hIn : other ∈ scope.own := by
        rw [hOwn]
        exact List.mem_append_left _ hOther
      rw [← isLeftRecursive_iff_reenters
        (find?_of_mem_own hNodup hIn)]
      simpa using hBefore other hOther
    · rw [← isLeftRecursive_iff_reenters
        (find?_of_mem_own hNodup hMember)]
      exact hRule
  · cases h

end Scope

end Abnf

------------------------------------------------------------
-- All Checks
------------------------------------------------------------

namespace Abnf

namespace Entry

variable {rules : List Rule}

/- The checks accept the rules that are acceptable. -/
theorem accept_eq_ok_iff_acceptable :
    accept rules = .ok () ↔ Acceptable rules := by
  rw [accept_eq_ok_iff, checkDuplicates_eq_ok_iff,
    Scope.forall_reached_iff]
  constructor
  · rintro ⟨hNodup, hDefined, hLeft⟩
    exact
      ⟨hNodup, hDefined,
        (Scope.checkLeftRecursion_eq_ok_iff hNodup).mp
          hLeft⟩
  · rintro ⟨hNodup, hDefined, hGrounded⟩
    exact
      ⟨hNodup, hDefined,
        (Scope.checkLeftRecursion_eq_ok_iff hNodup).mpr
          hGrounded⟩

/- What the checks report is a reason to refuse the rules. -/
theorem refuses_of_accept
    {cause : GenerationError}
    (h : accept rules = .error cause) :
    Refuses rules cause := by
  unfold accept at h
  cases hNames : checkDuplicates rules with
  | error other =>
      rw [hNames] at h
      cases h
      exact refuses_of_checkDuplicates hNames
  | ok _ =>
      rw [hNames] at h
      have hNodup := nodup_of_checkDuplicates hNames
      cases hReferences :
          (Scope.ofRules rules).references rules with
      | error other =>
          rw [hReferences] at h
          cases h
          rcases Scope.exists_of_references_eq_error
              hReferences with
            ⟨ref, hRef, hNone, rfl⟩
          rcases Scope.exists_referrer_of_mem_reached
              hRef with
            ⟨rule, hRule, hReferrer, hName⟩
          rw [← hReferrer]
          exact .undefined hNodup hRule hName hNone
      | ok names =>
          rw [hReferences] at h
          have hDefined : AllDefined rules :=
            Scope.forall_reached_iff.mp
              (Scope.references_eq_ok_iff.mp hReferences).1
          cases hLeft :
              (Scope.ofRules rules).checkLeftRecursion
                rules with
          | error other =>
              rw [hLeft] at h
              cases h
              rcases
                @Scope.exists_of_checkLeftRecursion
                  (Scope.ofRules rules) hNodup _ hLeft with
                ⟨before, rule, behind, hRules, hBefore,
                  hRule, rfl⟩
              change rules = _ at hRules
              subst hRules
              exact
                .leftRecursion hNodup hDefined hBefore hRule
          | ok _ =>
              rw [hLeft] at h
              cases h

end Entry

end Abnf

------------------------------------------------------------
-- Identifiers
------------------------------------------------------------

namespace Abnf

namespace Source

variable {owners : List (String × String)}
variable {names : List String}

/- No name has an identifier that is taken. -/
def AllFresh
    (owners : List (String × String))
    (names : List String) : Prop :=
  ∀ name ∈ names, owners.lookup (snakeCase name) = none

theorem allFresh_nil
    (owners : List (String × String)) :
    AllFresh owners [] :=
  List.forall_mem_nil _

/- After a name, others must not have its identifier. -/
theorem allFresh_cons_iff
    {first : String} :
    AllFresh ((snakeCase first, first) :: owners) names ↔
      snakeCase first ∉ names.map snakeCase ∧
        AllFresh owners names := by
  have hOne :
      ∀ name,
        ((snakeCase first, first) :: owners).lookup
            (snakeCase name) = none ↔
          snakeCase name ≠ snakeCase first ∧
            owners.lookup (snakeCase name) = none := by
    intro name
    rw [List.lookup_cons]
    by_cases hSame : snakeCase name = snakeCase first
    · simp [hSame]
    · rw [beq_false_of_ne hSame]
      simp only [hSame, ne_eq, not_false_eq_true, true_and]
  simp only [AllFresh, hOne, List.mem_map, not_exists,
    not_and]
  exact
    ⟨fun h =>
        ⟨fun name hName => (h name hName).1,
          fun name hName => (h name hName).2⟩,
      fun h name hName =>
        ⟨h.1 name hName, h.2 name hName⟩⟩

/-
  Names become identifiers, or the first of them is reported
  whose identifier is taken, by a name before it or by one
  of the owners.
-/
theorem identify_eq
    (owners : List (String × String))
    (names : List String) :
    ((names.map snakeCase).Nodup ∧
      AllFresh owners names ∧
      identify owners names =
        (names.map snakeCase, .ok ())) ∨
    ∃ before name behind owner,
      names = before ++ name :: behind ∧
      (before.map snakeCase).Nodup ∧
      AllFresh owners before ∧
      (owner ∈ before ∧ snakeCase owner = snakeCase name ∨
        owners.lookup (snakeCase name) = some owner) ∧
      (identify owners names).2 =
        .error
          (.identifierClash owner name (snakeCase name)) := by
  induction names generalizing owners with
  | nil =>
      exact
        Or.inl
          ⟨List.nodup_nil, allFresh_nil owners, rfl⟩
  | cons first rest ih =>
      rw [identify]
      cases hOwner : owners.lookup (snakeCase first) with
      | some owner =>
          exact
            Or.inr
              ⟨[], first, rest, owner, rfl, List.nodup_nil,
                allFresh_nil owners, Or.inr hOwner, rfl⟩
      | none =>
          dsimp only
          rcases ih ((snakeCase first, first) :: owners) with
            ⟨hNodup, hFresh, hSame⟩ |
            ⟨before, name, behind, owner, rfl, hNodup,
              hFresh, hOwned, hError⟩
          · rw [allFresh_cons_iff] at hFresh
            apply Or.inl
            rw [hSame]
            refine ⟨?_, ?_, rfl⟩
            · exact List.nodup_cons.mpr ⟨hFresh.1, hNodup⟩
            · exact
                List.forall_mem_cons.mpr ⟨hOwner, hFresh.2⟩
          · rw [allFresh_cons_iff] at hFresh
            refine
              Or.inr
                ⟨first :: before, name, behind, owner, rfl,
                  List.nodup_cons.mpr ⟨hFresh.1, hNodup⟩,
                  List.forall_mem_cons.mpr
                    ⟨hOwner, hFresh.2⟩,
                  ?_, hError⟩
            rw [List.lookup_cons] at hOwned
            rcases hOwned with ⟨hIn, hShared⟩ | hTaken
            · exact
                Or.inl ⟨List.mem_cons_of_mem _ hIn, hShared⟩
            · split at hTaken
              · rename_i hShared
                cases hTaken
                exact
                  Or.inl
                    ⟨List.mem_cons_self,
                      (beq_iff_eq.mp hShared).symm⟩
              · exact Or.inr hTaken

/- Names that clash have no identifiers of their own. -/
theorem Clashes.not_nodup
    {cause : GenerationError}
    (h : Clashes names cause) :
    ¬ (names.map snakeCase).Nodup := by
  cases h with
  | clash _ hOwner hShared =>
      rw [List.map_append, List.nodup_append]
      rintro ⟨_, _, hApart⟩
      exact
        hApart _ (List.mem_map_of_mem hOwner) _
          (by rw [List.map_cons]; exact List.mem_cons_self)
          hShared

end Source

end Abnf

------------------------------------------------------------
-- Source Texts
------------------------------------------------------------

namespace Abnf

namespace Source

variable {rules : List Rule}

/- The names of the routines of accepted rules. -/
theorem map_name_procedures
    {routines : List Routine}
    {entries : List Entry}
    (hRoutines : Routine.ofEntries entries = .ok routines) :
    (Program.ofRoutines routines).procedures.map (·.name) =
      entries.map (·.rule.name) := by
  have hNames :=
    congrArg (List.map Declaration.name)
      (Program.map_declaration_ofRoutines hRoutines)
  simpa [Function.comp_def, Entry.declaration] using hNames

/-
  A source text is made of the rules of which a program is
  made, unless the names of its routines clash.
-/
theorem ofRules_eq
    {name : String}
    (hName : isIdentifier name = true)
    (doc : Option String)
    (rules : List Rule) :
    (∃ cause,
      Program.ofRules rules = .error cause ∧
      ofRules name doc rules = .error cause) ∨
    (∃ program,
      Program.ofRules rules = .ok program ∧
      ((∃ text,
        ((program.procedures.map (·.name)).map
          snakeCase).Nodup ∧
        ofRules name doc rules = .ok text) ∨
      (∃ cause,
        Clashes (program.procedures.map (·.name)) cause ∧
        ofRules name doc rules = .error cause))) := by
  have hWriter :
      Writer.ofName name doc =
        .ok ⟨name, doc, [], [], [], 0⟩ := by
    rw [Writer.ofName, if_pos hName]
  rw [ofRules, hWriter,
    Entry.select_eq Rule.isRewrite_normalize]
  rcases Program.ofRulesWith_eq Rule.isRewrite_normalize
      rules with
    ⟨cause, hAccept, hProgram⟩ |
    ⟨routines, hAccept, hRoutines, hProgram⟩
  · rw [hAccept]
    exact Or.inl ⟨cause, hProgram, rfl⟩
  · rw [hAccept]
    refine
      Or.inr ⟨Program.ofRoutines routines, hProgram, ?_⟩
    rw [map_name_procedures hRoutines]
    have hDeclared :
        ((Entry.chosen Rule.normalize rules).map
            (·.declaration)).map (·.name) =
          (Entry.chosen Rule.normalize rules).map
            (·.rule.name) := by
      simp [Entry.declaration, Function.comp_def]
    simp only [bind, Except.bind, pure, Except.pure,
      ofEntries, Writer.declare, hDeclared, hRoutines]
    rcases identify_eq []
        ((Entry.chosen Rule.normalize rules).map
          (·.rule.name)) with
      ⟨hNodup, _, hIdentify⟩ |
      ⟨before, other, behind, owner, hNames, hNodup, _,
        hOwned, hIdentify⟩
    · rw [hIdentify]
      exact Or.inl ⟨_, hNodup, rfl⟩
    · rcases hOwned with ⟨hOwner, hShared⟩ | hNone
      · rw [hIdentify, hNames]
        exact
          Or.inr
            ⟨_, .clash hNodup hOwner hShared, rfl⟩
      · cases hNone

end Source

end Abnf

------------------------------------------------------------
-- Verdicts
------------------------------------------------------------

namespace Abnf

namespace Program

/-
  A program is made of the rules that are acceptable, and of
  no others; others are refused for a reason that holds of
  them. Neither depends on the order in which the rules are
  looked at for nullable names. A source text is made of the
  same rules if their routines have identifiers of their
  own, and else the first clash is reported.
-/
theorem ofRules_acceptable_or_refuses
    (rules : List Rule) :
    ((∃ program, ofRules rules = .ok program) ↔
      Entry.Acceptable rules) ∧
    (∀ cause,
      ofRules rules = .error cause →
      Entry.Refuses rules cause) ∧
    (∀ order : Nat → List Rule,
      (∀ round,
        (order round).Perm
          ((Scope.ofRules rules).map
            Rule.normalize).rules) →
      ((Scope.ofRules rules).map
          Rule.normalize).isLeftRecursive
          (((Scope.ofRules rules).map
            Rule.normalize).nullableBy order) =
        ((Scope.ofRules rules).map
          Rule.normalize).isLeftRecursive
          ((Scope.ofRules rules).map
            Rule.normalize).nullable) ∧
    ∀ name doc,
      Source.isIdentifier name = true →
      ((∃ text, Source.ofRules name doc rules = .ok text) ↔
        ∃ program,
          ofRules rules = .ok program ∧
          ((program.procedures.map (·.name)).map
            Source.snakeCase).Nodup) ∧
      ∀ cause,
        Source.ofRules name doc rules = .error cause →
        ofRules rules = .error cause ∨
        ∃ program,
          ofRules rules = .ok program ∧
          Source.Clashes
            (program.procedures.map (·.name)) cause := by
  have hVerdict :=
    ofRulesWith_eq Rule.isRewrite_normalize rules
  refine
    ⟨?_, ?_,
      fun _ hOrder =>
        Scope.isLeftRecursive_nullableBy hOrder,
      ?_⟩
  · rw [← Entry.accept_eq_ok_iff_acceptable]
    rcases hVerdict with
      ⟨cause, hAccept, hProgram⟩ |
      ⟨_, hAccept, _, hProgram⟩
    · rw [ofRules, hAccept, hProgram]
      simp
    · rw [ofRules, hAccept, hProgram]
      simp
  · intro cause hError
    rcases hVerdict with
      ⟨other, hAccept, hProgram⟩ | ⟨_, _, _, hProgram⟩
    · rw [ofRules, hProgram] at hError
      cases hError
      exact Entry.refuses_of_accept hAccept
    · rw [ofRules, hProgram] at hError
      cases hError
  · intro name doc hName
    rcases Source.ofRules_eq hName doc rules with
      ⟨cause, hProgram, hSource⟩ |
      ⟨program, hProgram,
        ⟨text, hNodup, hSource⟩ | ⟨cause, hClash, hSource⟩⟩
    · rw [hProgram, hSource]
      simp
    · rw [hProgram, hSource]
      simpa using hNodup
    · rw [hProgram, hSource]
      have hShared := hClash.not_nodup
      simp only [List.map_map] at hShared
      simp [hShared, hClash]

/-
  White space that comes back to itself through the core
  rule for white space on several lines, and a rule whose
  identifier is that of the core rule it refers to.
-/
def foldedBlanks : List Rule :=
  [⟨"text", .any (.ruleName "WSP")⟩,
   ⟨"WSP",
    .concatenation
      [.optional (.chars " "), .ruleName "LWSP"]⟩]

def loneDigit : List Rule :=
  [⟨"digit", .ruleName "DIGIT"⟩]

theorem refuses_foldedBlanks :
    ofRules foldedBlanks =
        .error (.reference (.leftRecursion "WSP")) ∧
      Entry.Refuses foldedBlanks
        (.reference (.leftRecursion "WSP")) ∧
      (∀ _ : Nat,
        ((Scope.ofRules foldedBlanks).map
          Rule.normalize).rules.reverse.Perm
            ((Scope.ofRules foldedBlanks).map
              Rule.normalize).rules) ∧
      ((Scope.ofRules foldedBlanks).map
          Rule.normalize).isLeftRecursive
          (((Scope.ofRules foldedBlanks).map
            Rule.normalize).nullableBy
              (fun _ =>
                ((Scope.ofRules foldedBlanks).map
                  Rule.normalize).rules.reverse)) =
        ((Scope.ofRules foldedBlanks).map
          Rule.normalize).isLeftRecursive
          ((Scope.ofRules foldedBlanks).map
            Rule.normalize).nullable ∧
      ∃ program,
        ofRules loneDigit = .ok program ∧
        Source.isIdentifier "Digits" = true ∧
        Source.ofRules "Digits" none loneDigit =
          .error
            (.identifierClash "digit" "DIGIT" "digit") ∧
        Source.Clashes (program.procedures.map (·.name))
          (.identifierClash "digit" "DIGIT" "digit") := by
  have hBlanks :
      ofRules foldedBlanks =
        .error (.reference (.leftRecursion "WSP")) := by
    cbv
  have hClash :
      Source.ofRules "Digits" none loneDigit =
        .error
          (.identifierClash "digit" "DIGIT" "digit") := by
    cbv
  have hName : Source.isIdentifier "Digits" = true := by
    decide
  have hRefused :=
    (ofRules_acceptable_or_refuses foldedBlanks).2.1
      _ hBlanks
  have hOrder :
      ∀ _ : Nat,
        ((Scope.ofRules foldedBlanks).map
          Rule.normalize).rules.reverse.Perm
            ((Scope.ofRules foldedBlanks).map
              Rule.normalize).rules :=
    fun _ => List.reverse_perm _
  have hSame :=
    (ofRules_acceptable_or_refuses foldedBlanks).2.2.1
      _ hOrder
  refine ⟨hBlanks, hRefused, hOrder, hSame, ?_⟩
  rcases
      ((ofRules_acceptable_or_refuses loneDigit).2.2.2
        "Digits" none hName).2 _ hClash with
    hError | ⟨program, hProgram, hClashes⟩
  · have hAccepted :
        (ofRules loneDigit).toOption.isSome = true := by
      decide +kernel
    rw [hError] at hAccepted
    cases hAccepted
  · exact ⟨program, hProgram, hName, hClash, hClashes⟩

end Program

end Abnf
