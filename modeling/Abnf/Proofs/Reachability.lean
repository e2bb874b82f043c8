import Mathlib.Logic.Relation
import Mathlib.Data.List.Perm.Subperm
import Abnf.Proofs.Exploration
import Abnf.Proofs.Nullability

/-
  What the searches through a grammar find.

  Exploration meets the names that references lead to, no
  more and no fewer. The nullable names are the least ones
  that satisfy the equations for elements, in whatever order
  the rules are looked at. So the names that `leading` lists
  are the first calls of an element, said without any list
  of names, and a rule is left recursive when first calls
  lead from it to itself.

  Key definitions include:
    * `Abnf.Scope.Refers`
    * `Abnf.Scope.Reaches`
    * `Abnf.Scope.Nullable`
    * `Abnf.Scope.CallsFirst`
    * `Abnf.Scope.Reenters`
    * `Abnf.Scope.nullableBy`

  Main declarations:
    * `Abnf.Scope.met_explore_iff`
    * `Abnf.Scope.met_reached_iff`
    * `Abnf.Scope.mem_nullable_iff`
    * `Abnf.Scope.mem_nullableBy_iff`
    * `Abnf.Scope.isLeftRecursive_iff_reenters`
    * `Abnf.Scope.isLeftRecursive_nullableBy`
-/

------------------------------------------------------------
-- Reachable Names
------------------------------------------------------------

namespace Abnf

namespace Scope

open Relation

variable {scope : Scope}

/- The rule of the first name names the second. -/
def Refers
    (scope : Scope)
    (name name' : String) : Prop :=
  ∃ rule, scope.find? name = some rule ∧
    name' ∈ rule.element.names

/-
  Some rules reach a name: one of them has a name from which
  references lead to it.
-/
def Reaches
    (scope : Scope)
    (rules : List Rule)
    (name : String) : Prop :=
  ∃ rule ∈ rules, ∃ first ∈ rule.element.names,
    ReflTransGen scope.Refers first name

theorem met_references_iff
    {rule : Rule}
    {name : String} :
    met rule.references name = true ↔
      name ∈ rule.element.names := by
  simp [met_iff, Rule.references]

theorem met_reached_iff
    {rules : List Rule}
    {name : String} :
    met (scope.reached rules) name = true ↔
      scope.Reaches rules name := by
  have hFollows :
      scope.Follows Rule.references = scope.Refers := by
    funext first second
    simp only [Follows, Refers, met_references_iff]
  rw [reached, met_explore_iff, hFollows]
  constructor
  · rintro ⟨ref, hRef, hPath⟩
    rcases List.mem_flatMap.mp hRef with
      ⟨rule, hRule, hName⟩
    rcases List.mem_map.mp hName with ⟨first, hFirst, rfl⟩
    exact ⟨rule, hRule, first, hFirst, hPath⟩
  · rintro ⟨rule, hRule, first, hFirst, hPath⟩
    refine ⟨⟨first, rule.name⟩, ?_, hPath⟩
    apply List.mem_flatMap.mpr
    exact ⟨rule, hRule, List.mem_map_of_mem hFirst⟩

end Scope

end Abnf

------------------------------------------------------------
-- Rules In Use
------------------------------------------------------------

namespace Abnf

namespace Scope

theorem lastNamed?_of_mem_lastOfNames
    {rules : List Rule}
    {rule : Rule}
    (h : rule ∈ lastOfNames rules) :
    lastNamed? rules rule.name = some rule := by
  induction rules with
  | nil => cases h
  | cons first rest ih =>
      rw [lastOfNames] at h
      rw [lastNamed?_cons]
      split at h
      · rw [ih h]
      · rename_i hFirst
        rcases List.mem_cons.mp h with rfl | hRest
        · rw [lastNamed?_eq_none_iff.mpr
            (Bool.not_eq_true _ ▸ hFirst)]
          simp
        · rw [ih hRest]

/- A rule in use is what its name stands for. -/
theorem find?_of_mem_rules
    {scope : Scope}
    {rule : Rule}
    (h : rule ∈ scope.rules) :
    scope.find? rule.name = some rule := by
  rw [rules, List.mem_append, List.mem_filter] at h
  rcases h with hOwn | ⟨hCore, hKept⟩
  · rw [find?, lastNamed?_of_mem_lastOfNames hOwn]
  · simp only [keepsCore, Bool.and_eq_true,
      Bool.not_eq_true'] at hKept
    rw [find?, lastNamed?_eq_none_iff.mpr hKept.2]
    exact lastNamed?_of_mem_lastOfNames hCore

end Scope

end Abnf

------------------------------------------------------------
-- Nullable Elements
------------------------------------------------------------

namespace Abnf

/-
  An element can match the empty text: the least solution of
  the equations for elements.
-/
inductive Scope.Nullable
    (scope : Scope) :
    Element → Prop
  /- A name is nullable if the element of its rule is. -/
  | ruleName {name : String} {rule : Rule} :
      scope.find? name = some rule →
      Nullable scope rule.element →
      Nullable scope (.ruleName name)
  /- The empty set stands for the empty text. -/
  | terminal {s : CharSet} :
      s.isEmpty = true →
      Nullable scope (.terminal s)
  /- No copy may be asked for. -/
  | noCopies {max : Option Nat} {body : Element} :
      Nullable scope (.repetition 0 max body)
  | copies
      {min : Nat} {max : Option Nat} {body : Element} :
      Nullable scope body →
      Nullable scope (.repetition min max body)
  /- All parts of a series must be nullable. -/
  | concatenation {parts : List Element} :
      (∀ part ∈ parts, Nullable scope part) →
      Nullable scope (.concatenation parts)
  /- One part of a choice is enough. -/
  | alternation {parts : List Element} {part : Element} :
      part ∈ parts →
      Nullable scope part →
      Nullable scope (.alternation parts)

namespace Scope

variable {scope : Scope}
variable {known : List String}

mutual

/- Elements found nullable are so, if the known names are. -/
theorem nullable_of_isNullable
    (hKnown :
      ∀ name ∈ known, scope.Nullable (.ruleName name)) :
    ∀ element : Element,
      element.isNullable known = true →
      scope.Nullable element
  | .ruleName name, h => by
      rw [Element.isNullable, List.contains_iff_mem] at h
      exact hKnown name h
  | .terminal s, h => by
      rw [Element.isNullable] at h
      exact .terminal h
  | .repetition min max body, h => by
      rw [Element.isNullable, Bool.or_eq_true,
        beq_iff_eq] at h
      rcases h with rfl | hBody
      · exact .noCopies
      · exact
          .copies (nullable_of_isNullable hKnown body hBody)
  | .concatenation parts, h => by
      rw [Element.isNullable] at h
      exact
        .concatenation
          (nullable_of_allNullable hKnown parts h)
  | .alternation parts, h => by
      rw [Element.isNullable] at h
      rcases nullable_of_anyNullable hKnown parts h with
        ⟨part, hPart, hNullable⟩
      exact .alternation hPart hNullable

theorem nullable_of_allNullable
    (hKnown :
      ∀ name ∈ known, scope.Nullable (.ruleName name)) :
    ∀ parts : List Element,
      Element.allNullable known parts = true →
      ∀ part ∈ parts, scope.Nullable part
  | [], _ => fun _ hNone => nomatch hNone
  | first :: rest, h => by
      rw [Element.allNullable, Bool.and_eq_true] at h
      rw [List.forall_mem_cons]
      exact
        ⟨nullable_of_isNullable hKnown first h.1,
          nullable_of_allNullable hKnown rest h.2⟩

theorem nullable_of_anyNullable
    (hKnown :
      ∀ name ∈ known, scope.Nullable (.ruleName name)) :
    ∀ parts : List Element,
      Element.anyNullable known parts = true →
      ∃ part ∈ parts, scope.Nullable part
  | [], h => by simp [Element.anyNullable] at h
  | first :: rest, h => by
      rw [Element.anyNullable, Bool.or_eq_true] at h
      rcases h with hFirst | hRest
      · exact
          ⟨first, List.mem_cons_self,
            nullable_of_isNullable hKnown first hFirst⟩
      · rcases nullable_of_anyNullable hKnown rest hRest with
          ⟨part, hPart, hNullable⟩
        exact ⟨part, List.mem_cons_of_mem _ hPart, hNullable⟩

end

theorem allNullable_iff
    {parts : List Element} :
    Element.allNullable known parts = true ↔
      ∀ part ∈ parts, part.isNullable known = true := by
  induction parts with
  | nil => simp [Element.allNullable]
  | cons part parts ih =>
      rw [Element.allNullable, Bool.and_eq_true, ih,
        List.forall_mem_cons]

theorem anyNullable_iff
    {parts : List Element} :
    Element.anyNullable known parts = true ↔
      ∃ part ∈ parts, part.isNullable known = true := by
  induction parts with
  | nil => simp [Element.anyNullable]
  | cons part parts ih =>
      rw [Element.anyNullable, Bool.or_eq_true, ih,
        List.exists_mem_cons_iff]

/-
  Nullable elements are found so, if the known names hold
  every name whose rule they make nullable: such names solve
  the equations, of which `Nullable` is the least solution.
-/
theorem isNullable_of_nullable
    (hClosed :
      ∀ name rule, scope.find? name = some rule →
        rule.element.isNullable known = true →
        name ∈ known)
    {element : Element}
    (h : scope.Nullable element) :
    element.isNullable known = true := by
  induction h with
  | ruleName hRule _ ih =>
      rw [Element.isNullable, List.contains_iff_mem]
      exact hClosed _ _ hRule ih
  | terminal hEmpty =>
      rw [Element.isNullable]
      exact hEmpty
  | noCopies => simp [Element.isNullable]
  | copies _ ih => simp [Element.isNullable, ih]
  | concatenation _ ih =>
      rw [Element.isNullable]
      exact allNullable_iff.mpr ih
  | alternation hPart _ ih =>
      rw [Element.isNullable]
      exact anyNullable_iff.mpr ⟨_, hPart, ih⟩

/- Known names of both kinds are the nullable ones. -/
theorem mem_iff_nullable
    (hSound :
      ∀ name ∈ known, scope.Nullable (.ruleName name))
    (hClosed :
      ∀ name rule, scope.find? name = some rule →
        rule.element.isNullable known = true →
        name ∈ known)
    (name : String) :
    name ∈ known ↔ scope.Nullable (.ruleName name) := by
  constructor
  · exact hSound name
  · intro h
    have hName := isNullable_of_nullable hClosed h
    rwa [Element.isNullable, List.contains_iff_mem] at hName

/- With the nullable names, the nullable elements are found. -/
theorem isNullable_iff
    (hKnown :
      ∀ name,
        name ∈ known ↔ scope.Nullable (.ruleName name))
    {element : Element} :
    element.isNullable known = true ↔
      scope.Nullable element := by
  have hSound := fun name => (hKnown name).mp
  constructor
  · exact nullable_of_isNullable hSound element
  · apply isNullable_of_nullable
    intro name rule hRule hElement
    rw [hKnown]
    exact
      .ruleName hRule
        (nullable_of_isNullable hSound _ hElement)

/- The names found in rounds are the nullable ones. -/
theorem mem_nullable_iff
    {name : String} :
    name ∈ scope.nullable ↔
      scope.Nullable (.ruleName name) := by
  have hWithin :
      ∀ limit known,
        (∀ name ∈ known, scope.Nullable (.ruleName name)) →
        ∀ name ∈ scope.nullableWithin limit known,
          scope.Nullable (.ruleName name) := by
    intro limit
    induction limit with
    | zero => exact fun _ hKnown => hKnown
    | succ limit ih =>
        intro known hKnown
        rw [nullableWithin]
        split
        · exact hKnown
        · apply ih
          intro name hName
          rcases List.mem_map.mp hName with
            ⟨rule, hRule, rfl⟩
          rw [List.mem_filter] at hRule
          exact
            .ruleName (find?_of_mem_rules hRule.1)
              (nullable_of_isNullable hKnown _ hRule.2)
  apply mem_iff_nullable
  · exact
      hWithin _ []
        (fun _ hNone => absurd hNone List.not_mem_nil)
  · intro name rule hRule hNullable
    exact mem_nullable_of_isNullable hRule hNullable

end Scope

end Abnf

------------------------------------------------------------
-- Any Order Of Rules
------------------------------------------------------------

namespace Abnf

namespace Scope

/- Look at a rule, given the names found before it. -/
def visit
    (known : List String)
    (rule : Rule) : List String :=
  if !known.contains rule.name &&
      rule.element.isNullable known then
    rule.name :: known
  else
    known

/-
  Go through the rules again and again, in an order that may
  differ from round to round, until a round adds nothing.
-/
def sweepWithin
    (order : Nat → List Rule) :
    Nat → List String → List String
  | 0, known => known
  | limit + 1, known =>
      let later := (order limit).foldl visit known
      if later.length = known.length then
        known
      else
        sweepWithin order limit later

/-
  The nullable names as they are found when each rule is
  looked at with what was found just before it.
-/
def nullableBy
    (scope : Scope)
    (order : Nat → List Rule) : List String :=
  sweepWithin order (scope.rules.length + 1) []

variable {scope : Scope}
variable {known : List String}

theorem suffix_visit
    (known : List String)
    (rule : Rule) :
    known <:+ visit known rule := by
  unfold visit
  split
  · exact List.suffix_cons _ _
  · exact List.suffix_refl _

theorem suffix_foldl_visit
    (order : List Rule)
    (known : List String) :
    known <:+ order.foldl visit known := by
  induction order generalizing known with
  | nil => exact List.suffix_refl known
  | cons rule rest ih =>
      exact (suffix_visit known rule).trans (ih _)

/- A round that adds nothing finds no rule nullable anew. -/
theorem mem_of_foldl_visit
    {order : List Rule}
    (hLength :
      (order.foldl visit known).length = known.length)
    {rule : Rule}
    (hRule : rule ∈ order)
    (hNullable : rule.element.isNullable known = true) :
    rule.name ∈ known := by
  induction order with
  | nil => cases hRule
  | cons first rest ih =>
      have hFirst := suffix_visit known first
      have hRest :=
        suffix_foldl_visit rest (visit known first)
      have hSame : visit known first = known := by
        apply (hFirst.eq_of_length _).symm
        have hLow := hFirst.length_le
        have hHigh := hRest.length_le
        rw [List.foldl_cons] at hLength
        omega
      rw [List.foldl_cons, hSame] at hLength
      rcases List.mem_cons.mp hRule with rfl | hTail
      · by_contra hNew
        have hGrown :=
          congrArg List.length hSame
        simp [visit, hNew, hNullable] at hGrown
      · exact ih hLength hTail

/-
  Names that are nullable, each listed once. Only so many of
  them can be found as there are rules in use.
-/
structure IsFound
    (scope : Scope)
    (known : List String) : Prop where
  nodup : known.Nodup
  sound : ∀ name ∈ known, scope.Nullable (.ruleName name)

theorem IsFound.length_le
    (hKnown : scope.IsFound known) :
    known.length ≤ scope.rules.length := by
  have hNames : known ⊆ scope.rules.map (·.name) := by
    intro name hName
    cases hKnown.sound name hName with
    | ruleName hRule _ =>
        rw [← (mem_of_find? hRule).2]
        exact
          List.mem_map_of_mem (mem_rules_of_find? hRule)
  have hLength := (hKnown.nodup.subperm hNames).length_le
  rwa [List.length_map] at hLength

theorem IsFound.foldl_visit
    {order : List Rule}
    (hOrder : ∀ rule ∈ order, rule ∈ scope.rules)
    (hKnown : scope.IsFound known) :
    scope.IsFound (order.foldl visit known) := by
  induction order generalizing known with
  | nil => exact hKnown
  | cons rule rest ih =>
      rw [List.forall_mem_cons] at hOrder
      apply ih hOrder.2
      unfold visit
      split
      · rename_i hNew
        simp only [Bool.and_eq_true, Bool.not_eq_true',
          ← Bool.not_eq_true, List.contains_iff_mem] at hNew
        refine
          ⟨List.nodup_cons.mpr ⟨hNew.1, hKnown.nodup⟩, ?_⟩
        rw [List.forall_mem_cons]
        refine ⟨?_, hKnown.sound⟩
        exact
          .ruleName (find?_of_mem_rules hOrder.1)
            (nullable_of_isNullable hKnown.sound _ hNew.2)
      · exact hKnown

/-
  Rounds end with names that no rule adds to. Each round but
  the last finds a name, so the rounds allowed are enough.
-/
theorem isFound_sweepWithin
    {order : Nat → List Rule}
    (hOrder : ∀ round, (order round).Perm scope.rules)
    {limit : Nat}
    (hLimit : scope.rules.length < known.length + limit)
    (hKnown : scope.IsFound known) :
    scope.IsFound (sweepWithin order limit known) ∧
      ∀ rule ∈ scope.rules,
        rule.element.isNullable
            (sweepWithin order limit known) = true →
        rule.name ∈ sweepWithin order limit known := by
  induction limit generalizing known with
  | zero =>
      have hLength := hKnown.length_le
      omega
  | succ limit ih =>
      rw [sweepWithin]
      split
      · rename_i hLength
        refine ⟨hKnown, ?_⟩
        intro rule hRule hNullable
        exact
          mem_of_foldl_visit hLength
            ((hOrder limit).mem_iff.mpr hRule) hNullable
      · rename_i hLength
        have hGrowth :=
          (suffix_foldl_visit (order limit) known).length_le
        apply ih (by omega)
        apply hKnown.foldl_visit
        intro rule hRule
        exact (hOrder limit).mem_iff.mp hRule

/- The order of the rules makes no name nullable or not. -/
theorem mem_nullableBy_iff
    {order : Nat → List Rule}
    (hOrder : ∀ round, (order round).Perm scope.rules)
    {name : String} :
    name ∈ scope.nullableBy order ↔
      scope.Nullable (.ruleName name) := by
  have hFound :=
    @isFound_sweepWithin scope [] order hOrder
      (scope.rules.length + 1) (by simp)
      ⟨List.nodup_nil, fun _ hNone => nomatch hNone⟩
  apply mem_iff_nullable hFound.1.sound
  intro name rule hRule hNullable
  rw [← (mem_of_find? hRule).2]
  exact hFound.2 rule (mem_rules_of_find? hRule) hNullable

end Scope

end Abnf

------------------------------------------------------------
-- First Calls
------------------------------------------------------------

namespace Abnf

/-
  An element may call the rule of a name before it takes any
  input.
-/
inductive Scope.CallsFirst
    (scope : Scope) :
    Element → String → Prop
  | ruleName {name : String} :
      CallsFirst scope (.ruleName name) name
  /- A repetition of no copies calls nothing. -/
  | repetition
      {min : Nat} {max : Option Nat} {body : Element}
      {name : String} :
      max ≠ some 0 →
      CallsFirst scope body name →
      CallsFirst scope (.repetition min max body) name
  /- The parts before the calling one can be empty. -/
  | concatenation
      {before behind : List Element} {part : Element}
      {name : String} :
      (∀ other ∈ before, scope.Nullable other) →
      CallsFirst scope part name →
      CallsFirst scope
        (.concatenation (before ++ part :: behind)) name
  | alternation
      {parts : List Element} {part : Element}
      {name : String} :
      part ∈ parts →
      CallsFirst scope part name →
      CallsFirst scope (.alternation parts) name

namespace Scope

open Relation

/-
  The rule of the first name may call the second name before
  it takes any input, as elements call.
-/
def Enters
    (scope : Scope)
    (name name' : String) : Prop :=
  ∃ rule, scope.find? name = some rule ∧
    scope.CallsFirst rule.element name'

/- One first call or more lead from a name to itself. -/
def Reenters
    (scope : Scope)
    (name : String) : Prop :=
  TransGen scope.Enters name name

variable {scope : Scope}
variable {known : List String}

mutual

/- With the nullable names, leading names are first calls. -/
theorem mem_leading_iff
    (hKnown :
      ∀ name,
        name ∈ known ↔ scope.Nullable (.ruleName name))
    {name : String} :
    ∀ element : Element,
      name ∈ element.leading known ↔
        scope.CallsFirst element name
  | .ruleName other => by
      rw [Element.leading, List.mem_singleton]
      constructor
      · rintro rfl
        exact .ruleName
      · intro h
        cases h with
        | ruleName => rfl
  | .terminal s => by
      rw [Element.leading]
      constructor
      · intro h
        cases h
      · intro h
        cases h
  | .repetition min max body => by
      rw [Element.leading]
      by_cases hMax : max = some 0
      · rw [if_pos hMax]
        constructor
        · intro h
          cases h
        · intro h
          cases h with
          | repetition hSome _ => exact absurd hMax hSome
      · rw [if_neg hMax, mem_leading_iff hKnown body]
        constructor
        · exact .repetition hMax
        · intro h
          cases h with
          | repetition _ hBody => exact hBody
  | .concatenation parts => by
      rw [Element.leading,
        mem_leadingOfSeries_iff hKnown parts]
      constructor
      · rintro ⟨before, part, behind, rfl, hBefore, hPart⟩
        exact .concatenation hBefore hPart
      · intro h
        cases h with
        | concatenation hBefore hPart =>
            exact ⟨_, _, _, rfl, hBefore, hPart⟩
  | .alternation parts => by
      rw [Element.leading,
        mem_leadingOfAll_iff hKnown parts]
      constructor
      · rintro ⟨part, hPart, hName⟩
        exact .alternation hPart hName
      · intro h
        cases h with
        | alternation hPart hName => exact ⟨_, hPart, hName⟩

/- In a series, the parts before the calling one are empty. -/
theorem mem_leadingOfSeries_iff
    (hKnown :
      ∀ name,
        name ∈ known ↔ scope.Nullable (.ruleName name))
    {name : String} :
    ∀ parts : List Element,
      name ∈ Element.leadingOfSeries known parts ↔
        ∃ before part behind,
          parts = before ++ part :: behind ∧
          (∀ other ∈ before, scope.Nullable other) ∧
          scope.CallsFirst part name
  | [] => by simp [Element.leadingOfSeries]
  | first :: rest => by
      rw [Element.leadingOfSeries, List.mem_append,
        mem_leading_iff hKnown first]
      constructor
      · rintro (hFirst | hRest)
        · exact ⟨[], first, rest, rfl, by simp, hFirst⟩
        · split at hRest
          · rename_i hNullable
            rw [mem_leadingOfSeries_iff hKnown rest] at hRest
            rcases hRest with
              ⟨before, part, behind, rfl, hBefore, hPart⟩
            refine
              ⟨first :: before, part, behind, rfl, ?_, hPart⟩
            rw [List.forall_mem_cons]
            exact
              ⟨(isNullable_iff hKnown).mp hNullable, hBefore⟩
          · cases hRest
      · rintro ⟨before, part, behind, hParts, hBefore, hPart⟩
        cases before with
        | nil =>
            cases hParts
            exact Or.inl hPart
        | cons other before =>
            cases hParts
            rw [List.forall_mem_cons] at hBefore
            apply Or.inr
            rw [if_pos ((isNullable_iff hKnown).mpr hBefore.1),
              mem_leadingOfSeries_iff hKnown]
            exact
              ⟨before, part, behind, rfl, hBefore.2, hPart⟩

theorem mem_leadingOfAll_iff
    (hKnown :
      ∀ name,
        name ∈ known ↔ scope.Nullable (.ruleName name))
    {name : String} :
    ∀ parts : List Element,
      name ∈ Element.leadingOfAll known parts ↔
        ∃ part ∈ parts, scope.CallsFirst part name
  | [] => by simp [Element.leadingOfAll]
  | first :: rest => by
      rw [Element.leadingOfAll, List.mem_append,
        mem_leading_iff hKnown first,
        mem_leadingOfAll_iff hKnown rest,
        List.exists_mem_cons_iff]

end

theorem met_leading_iff
    (hKnown :
      ∀ name,
        name ∈ known ↔ scope.Nullable (.ruleName name))
    {rule : Rule}
    {name : String} :
    met (rule.leading known) name = true ↔
      scope.CallsFirst rule.element name := by
  rw [← mem_leading_iff hKnown]
  simp [met_iff, Rule.leading]

/-
  A rule is left recursive when one of its first calls leads
  back to its name by first calls.
-/
theorem isLeftRecursive_iff
    (hKnown :
      ∀ name,
        name ∈ known ↔ scope.Nullable (.ruleName name))
    {rule : Rule} :
    scope.isLeftRecursive known rule = true ↔
      ∃ name, scope.CallsFirst rule.element name ∧
        ReflTransGen scope.Enters name rule.name := by
  have hFollows :
      scope.Follows (Rule.leading known) = scope.Enters := by
    funext first second
    simp only [Follows, Enters, met_leading_iff hKnown]
  rw [isLeftRecursive, met_explore_iff, hFollows]
  constructor
  · rintro ⟨ref, hRef, hPath⟩
    refine ⟨ref.name, ?_, hPath⟩
    rw [← met_leading_iff hKnown]
    exact met_iff.mpr ⟨ref, hRef, rfl⟩
  · rintro ⟨name, hName, hPath⟩
    rw [← met_leading_iff hKnown] at hName
    rcases met_iff.mp hName with ⟨ref, hRef, rfl⟩
    exact ⟨ref, hRef, hPath⟩

/-
  Where the rule is what its name stands for, this says that
  first calls lead from the name to itself.
-/
theorem isLeftRecursive_iff_reenters
    {rule : Rule}
    (hRule : scope.find? rule.name = some rule) :
    scope.isLeftRecursive scope.nullable rule = true ↔
      scope.Reenters rule.name := by
  rw [isLeftRecursive_iff (fun _ => mem_nullable_iff),
    Reenters, TransGen.head'_iff]
  simp [Enters, hRule]

/- The order of the rules makes none left recursive or not. -/
theorem isLeftRecursive_nullableBy
    {order : Nat → List Rule}
    (hOrder : ∀ round, (order round).Perm scope.rules) :
    scope.isLeftRecursive (scope.nullableBy order) =
      scope.isLeftRecursive scope.nullable := by
  funext rule
  rw [Bool.eq_iff_iff,
    isLeftRecursive_iff
      (fun _ => mem_nullableBy_iff hOrder),
    isLeftRecursive_iff (fun _ => mem_nullable_iff)]

end Scope

end Abnf
