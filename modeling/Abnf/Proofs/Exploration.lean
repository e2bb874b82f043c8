import Mathlib.Logic.Relation
import Abnf.Proofs.Resolution
import Abnf.Scope.References

/-
  Exploration finds what references reach.

  The number of expansions that `explore` allows itself is
  enough: each expansion meets the name of a rule that was
  not met before. So what is met is closed under references,
  and it lies in every closed set of names that holds the
  first references.

  Key definitions include:
    * `Abnf.Scope.unmet`
    * `Abnf.Scope.Closed`
    * `Abnf.Scope.Explored`
    * `Abnf.Scope.Follows`

  Main declarations:
    * `Abnf.Scope.explored_explore`
    * `Abnf.Scope.explore_subset`
    * `Abnf.Scope.met_explore_iff`
    * `Abnf.Scope.explore_congr`
    * `Abnf.Scope.references_eq_ok_iff`
-/

------------------------------------------------------------
-- Names Met And Unmet
------------------------------------------------------------

namespace Abnf

namespace Scope

theorem met_iff
    {seen : List Reference}
    {name : String} :
    met seen name = true ↔
      ∃ ref ∈ seen, ref.name = name := by
  simp [met]

@[simp] theorem met_cons
    (ref : Reference)
    (seen : List Reference)
    (name : String) :
    met (ref :: seen) name =
      (ref.name == name || met seen name) := rfl

@[simp] theorem met_append
    (seen pending : List Reference)
    (name : String) :
    met (seen ++ pending) name =
      (met seen name || met pending name) := by
  simp [met]

@[simp] theorem met_reverse
    (seen : List Reference)
    (name : String) :
    met seen.reverse name = met seen name := by
  simp [met]

/- The number of rules whose names are not met yet. -/
def unmet
    (scope : Scope)
    (seen : List Reference) : Nat :=
  (scope.own ++ scope.core).countP
    (fun rule => !met seen rule.name)

theorem countP_unmet_cons_le
    (ref : Reference)
    (seen : List Reference)
    (rules : List Rule) :
    rules.countP
        (fun rule => !met (ref :: seen) rule.name) ≤
      rules.countP (fun rule => !met seen rule.name) := by
  apply List.countP_mono_left
  intro rule _ hUnmet
  simp only [met_cons, Bool.not_eq_true',
    Bool.or_eq_false_iff] at hUnmet ⊢
  exact hUnmet.2

theorem unmet_cons_le
    (scope : Scope)
    (ref : Reference)
    (seen : List Reference) :
    scope.unmet (ref :: seen) ≤ scope.unmet seen :=
  countP_unmet_cons_le ref seen _

/- Meeting the name of a rule leaves fewer unmet rules. -/
theorem unmet_cons_lt
    {scope : Scope}
    {ref : Reference}
    {seen : List Reference}
    {rule : Rule}
    (hRule : scope.find? ref.name = some rule)
    (hNew : met seen ref.name = false) :
    scope.unmet (ref :: seen) < scope.unmet seen := by
  have hMember := mem_of_find? hRule
  rcases List.append_of_mem hMember.1 with
    ⟨before, behind, hSplit⟩
  have hBefore := countP_unmet_cons_le ref seen before
  have hBehind := countP_unmet_cons_le ref seen behind
  simp only [unmet, hSplit, List.countP_append,
    List.countP_cons, hMember.2, hNew, met_cons,
    BEq.rfl, Bool.true_or, Bool.not_true,
    Bool.not_false, Bool.false_eq_true, if_false,
    if_true] at hBefore hBehind ⊢
  omega

theorem unmet_nil_le
    (scope : Scope) :
    scope.unmet [] ≤
      scope.own.length + scope.core.length := by
  rw [← List.length_append]
  exact List.countP_le_length

end Scope

end Abnf

------------------------------------------------------------
-- Closed Sets Of Names
------------------------------------------------------------

namespace Abnf

namespace Scope

variable {scope : Scope}
variable {next : Rule → List Reference}

/-
  Every reference of a rule that was met is met or pending.
-/
def Closed
    (scope : Scope)
    (next : Rule → List Reference)
    (seen pending : List Reference) : Prop :=
  ∀ ref ∈ seen, ∀ rule,
    scope.find? ref.name = some rule →
    ∀ ref' ∈ next rule,
      met (seen ++ pending) ref'.name = true

/-
  A result is closed by itself and has met all that was seen
  or pending.
-/
structure Explored
    (scope : Scope)
    (next : Rule → List Reference)
    (seen pending result : List Reference) : Prop where
  closed : Closed scope next result []
  covers :
    ∀ name, met (seen ++ pending) name = true →
      met result name = true

/- Noting a pending reference loses no name. -/
theorem met_note
    {ref : Reference}
    {seen rest : List Reference}
    (more : List Reference)
    {name : String}
    (h : met (seen ++ ref :: rest) name = true) :
    met (ref :: seen ++ (more ++ rest)) name = true := by
  simp only [List.cons_append, met_append, met_cons,
    Bool.or_eq_true] at h ⊢
  rcases h with hSeen | hRef | hRest
  · exact Or.inr (Or.inl hSeen)
  · exact Or.inl hRef
  · exact Or.inr (Or.inr (Or.inr hRest))

/- A pending reference whose name was met can be dropped. -/
theorem Closed.drop
    {ref : Reference}
    {seen rest : List Reference}
    (hMet : met seen ref.name = true)
    (hClosed : Closed scope next seen (ref :: rest)) :
    Closed scope next seen rest := by
  intro source hSource rule hRule target hTarget
  have hCovered :=
    hClosed source hSource rule hRule target hTarget
  simp only [met_append, met_cons, Bool.or_eq_true,
    beq_iff_eq] at hCovered ⊢
  rcases hCovered with hSeen | hName | hRest
  · exact Or.inl hSeen
  · exact Or.inl (hName ▸ hMet)
  · exact Or.inr hRest

/- A pending reference without a rule is only noted. -/
theorem Closed.note
    {ref : Reference}
    {seen rest : List Reference}
    (hNone : scope.find? ref.name = none)
    (hClosed : Closed scope next seen (ref :: rest)) :
    Closed scope next (ref :: seen) rest := by
  intro source hSource rule hRule target hTarget
  rcases List.mem_cons.mp hSource with rfl | hSeen
  · rw [hNone] at hRule
    cases hRule
  · exact met_note []
      (hClosed source hSeen rule hRule target hTarget)

/- The references of a new rule become pending. -/
theorem Closed.expand
    {ref : Reference}
    {seen rest : List Reference}
    {rule : Rule}
    (hRule : scope.find? ref.name = some rule)
    (hClosed : Closed scope next seen (ref :: rest)) :
    Closed scope next (ref :: seen) (next rule ++ rest) := by
  intro source hSource other hOther target hTarget
  rcases List.mem_cons.mp hSource with rfl | hSeen
  · rw [hRule] at hOther
    cases hOther
    have hMet : met (next rule) target.name = true :=
      met_iff.mpr ⟨target, hTarget, rfl⟩
    simp [hMet]
  · exact met_note (next rule)
      (hClosed source hSeen other hOther target hTarget)

/-
  Draining ends in a closed result if the expansions that it
  hands on do. `bound` is what is left to be met.
-/
theorem explored_drain
    {expand :
      List Reference → List Reference → List Reference}
    {bound : Nat}
    (hExpand :
      ∀ pending seen,
        scope.unmet seen < bound →
        Closed scope next seen pending →
        Explored scope next seen pending
          (expand pending seen))
    (pending seen : List Reference)
    (hBound : scope.unmet seen ≤ bound)
    (hClosed : Closed scope next seen pending) :
    Explored scope next seen pending
      (drain scope next expand pending seen) := by
  induction pending generalizing seen with
  | nil => exact ⟨hClosed, by simp [drain]⟩
  | cons ref rest ih =>
      rw [drain]
      cases hMet : met seen ref.name with
      | true =>
          have hRest :=
            ih seen hBound (hClosed.drop hMet)
          refine ⟨hRest.closed, ?_⟩
          intro name hName
          apply hRest.covers name
          simp only [met_append, met_cons, Bool.or_eq_true,
            beq_iff_eq] at hName ⊢
          rcases hName with hSeen | rfl | hPending
          · exact Or.inl hSeen
          · exact Or.inl hMet
          · exact Or.inr hPending
      | false =>
          cases hRule : scope.find? ref.name with
          | none =>
              have hLess :=
                scope.unmet_cons_le ref seen
              have hRest :=
                ih (ref :: seen) (by omega)
                  (hClosed.note hRule)
              refine ⟨hRest.closed, ?_⟩
              intro name hName
              exact hRest.covers name (met_note [] hName)
          | some rule =>
              have hLess := unmet_cons_lt hRule hMet
              have hRest :=
                hExpand (next rule ++ rest) (ref :: seen)
                  (by omega) (hClosed.expand hRule)
              refine ⟨hRest.closed, ?_⟩
              intro name hName
              exact
                hRest.covers name
                  (met_note (next rule) hName)

/- Exploring ends in a closed result. -/
theorem explored_exploreWithin
    (limit : Nat)
    (pending seen : List Reference)
    (hLimit : scope.unmet seen ≤ limit)
    (hClosed : Closed scope next seen pending) :
    Explored scope next seen pending
      (exploreWithin scope next limit pending seen) := by
  induction limit generalizing pending seen with
  | zero =>
      apply explored_drain _ pending seen hLimit hClosed
      intro _ _ hNone
      omega
  | succ limit ih =>
      apply explored_drain _ pending seen hLimit hClosed
      intro pending' seen' hLess hClosed'
      exact ih pending' seen' (by omega) hClosed'

/- What is explored is closed and holds the first names. -/
theorem explored_explore
    (scope : Scope)
    (next : Rule → List Reference)
    (start : List Reference) :
    Explored scope next [] start
      (scope.explore next start) := by
  have hClosed : Closed scope next [] start := by
    intro ref hRef
    cases hRef
  have hWithin :=
    explored_exploreWithin _ start []
      scope.unmet_nil_le hClosed
  constructor
  · intro ref hRef rule hRule ref' hRef'
    have hMet :=
      hWithin.closed ref (List.mem_reverse.mp hRef)
        rule hRule ref' hRef'
    simpa [explore] using hMet
  · intro name hName
    simpa [explore] using hWithin.covers name hName

end Scope

end Abnf

------------------------------------------------------------
-- Nothing Else Is Met
------------------------------------------------------------

namespace Abnf

namespace Scope

variable {scope : Scope}
variable {next : Rule → List Reference}
variable {holds : Reference → Prop}

/-
  Draining meets only references of a set if the expansions
  that it hands on do.
-/
theorem drain_subset
    {expand :
      List Reference → List Reference → List Reference}
    (hExpand :
      ∀ pending seen,
        (∀ ref ∈ pending, holds ref) →
        (∀ ref ∈ seen, holds ref) →
        ∀ ref ∈ expand pending seen, holds ref)
    (hNext :
      ∀ ref rule, holds ref →
        scope.find? ref.name = some rule →
        ∀ ref' ∈ next rule, holds ref')
    (pending seen : List Reference)
    (hPending : ∀ ref ∈ pending, holds ref)
    (hSeen : ∀ ref ∈ seen, holds ref) :
    ∀ ref ∈ drain scope next expand pending seen,
      holds ref := by
  induction pending generalizing seen with
  | nil => exact hSeen
  | cons ref rest ih =>
      rw [List.forall_mem_cons] at hPending
      have hNoted : ∀ ref' ∈ ref :: seen, holds ref' :=
        List.forall_mem_cons.mpr ⟨hPending.1, hSeen⟩
      rw [drain]
      split
      · exact ih seen hPending.2 hSeen
      · split
        · exact ih (ref :: seen) hPending.2 hNoted
        · rename_i rule hRule
          apply hExpand _ _ _ hNoted
          intro ref' hRef'
          rcases List.mem_append.mp hRef' with
            hNew | hRest
          · exact hNext ref rule hPending.1 hRule ref' hNew
          · exact hPending.2 ref' hRest

/-
  Exploration stays in every set of references that holds
  the first ones and those of every rule it leads to.
-/
theorem explore_subset
    (hNext :
      ∀ ref rule, holds ref →
        scope.find? ref.name = some rule →
        ∀ ref' ∈ next rule, holds ref')
    (start : List Reference)
    (hStart : ∀ ref ∈ start, holds ref) :
    ∀ ref ∈ scope.explore next start, holds ref := by
  have hWithin :
      ∀ limit pending seen,
        (∀ ref ∈ pending, holds ref) →
        (∀ ref ∈ seen, holds ref) →
        ∀ ref ∈ exploreWithin scope next limit pending seen,
          holds ref := by
    intro limit
    induction limit with
    | zero =>
        exact drain_subset (fun _ _ _ hSeen => hSeen) hNext
    | succ limit ih =>
        exact drain_subset ih hNext
  intro ref hRef
  apply hWithin _ start [] hStart
    (fun ref hNone => nomatch hNone)
  exact List.mem_reverse.mp hRef

end Scope

end Abnf

------------------------------------------------------------
-- What Is Met
------------------------------------------------------------

namespace Abnf

namespace Scope

open Relation

variable {scope : Scope}
variable {next : Rule → List Reference}

/- The rule of the first name has a reference to the second. -/
def Follows
    (scope : Scope)
    (next : Rule → List Reference)
    (name name' : String) : Prop :=
  ∃ rule, scope.find? name = some rule ∧
    met (next rule) name' = true

/- Exploration meets what references lead to, no more. -/
theorem met_explore_iff
    {start : List Reference}
    {name : String} :
    met (scope.explore next start) name = true ↔
      ∃ ref ∈ start,
        ReflTransGen (scope.Follows next) ref.name name := by
  constructor
  · intro hMet
    rcases met_iff.mp hMet with ⟨ref, hRef, rfl⟩
    refine
      @explore_subset scope next
        (fun ref =>
          ∃ first ∈ start,
            ReflTransGen (scope.Follows next)
              first.name ref.name)
        ?_ start ?_ ref hRef
    · rintro source rule ⟨first, hFirst, hPath⟩ hRule
        target hTarget
      have hStep :
          scope.Follows next source.name target.name :=
        ⟨rule, hRule, met_iff.mpr ⟨target, hTarget, rfl⟩⟩
      exact ⟨first, hFirst, hPath.tail hStep⟩
    · intro first hFirst
      exact ⟨first, hFirst, ReflTransGen.refl⟩
  · rintro ⟨first, hFirst, hPath⟩
    have hExplored := explored_explore scope next start
    induction hPath with
    | refl =>
        apply hExplored.covers
        rw [List.nil_append]
        exact met_iff.mpr ⟨first, hFirst, rfl⟩
    | tail _ hStep ih =>
        rcases hStep with ⟨rule, hRule, hMet⟩
        rcases met_iff.mp ih with ⟨source, hSource, rfl⟩
        rcases met_iff.mp hMet with ⟨target, hTarget, rfl⟩
        have hClosed :=
          hExplored.closed source hSource rule hRule
            target hTarget
        rw [List.append_nil] at hClosed
        exact hClosed

end Scope

end Abnf

------------------------------------------------------------
-- Equal Explorations
------------------------------------------------------------

namespace Abnf

namespace Scope

variable {scope scope' : Scope}
variable {next next' : Rule → List Reference}

/-
  Explorations are equal if the rules of each name have the
  same references.
-/
theorem explore_congr
    (hOwn : scope'.own.length = scope.own.length)
    (hCore : scope'.core.length = scope.core.length)
    (hNext :
      ∀ name,
        (scope'.find? name).map next' =
          (scope.find? name).map next)
    (start : List Reference) :
    scope'.explore next' start =
      scope.explore next start := by
  have hDrain :
      ∀ expand pending seen,
        drain scope' next' expand pending seen =
          drain scope next expand pending seen := by
    intro expand pending
    induction pending with
    | nil => intro seen; rfl
    | cons ref rest ih =>
        intro seen
        have hRef := hNext ref.name
        rw [drain, drain, ih, ih]
        cases hRule' : scope'.find? ref.name with
        | none =>
            cases hRule : scope.find? ref.name with
            | none => rfl
            | some rule => simp [hRule', hRule] at hRef
        | some rule' =>
            cases hRule : scope.find? ref.name with
            | none => simp [hRule', hRule] at hRef
            | some rule =>
                have hSame : next' rule' = next rule := by
                  simpa [hRule', hRule] using hRef
                simp only [hSame]
  have hWithin :
      ∀ limit,
        exploreWithin scope' next' limit =
          exploreWithin scope next limit := by
    intro limit
    induction limit with
    | zero =>
        funext pending seen
        exact hDrain _ pending seen
    | succ limit ih =>
        funext pending seen
        rw [exploreWithin, exploreWithin, ih]
        exact hDrain _ pending seen
  rw [explore, explore, hOwn, hCore, hWithin]

end Scope

end Abnf

------------------------------------------------------------
-- References
------------------------------------------------------------

namespace Abnf

namespace Scope

/- The references that some rules reach. -/
def reached
    (scope : Scope)
    (rules : List Rule) : List Reference :=
  scope.explore Rule.references
    (rules.flatMap Rule.references)

/- Rules can be used when all that they reach is defined. -/
theorem references_eq_ok_iff
    {scope : Scope}
    {rules : List Rule}
    {names : List String} :
    scope.references rules = .ok names ↔
      (∀ ref ∈ scope.reached rules,
        (scope.find? ref.name).isSome = true) ∧
      names = (scope.reached rules).map (·.name) := by
  unfold references
  cases hFind :
      (scope.explore Rule.references
        (rules.flatMap Rule.references)).find?
        (fun r => (scope.find? r.name).isNone) with
  | some ref =>
      have hUndefined := List.find?_some hFind
      have hMember := List.mem_of_find?_eq_some hFind
      simp only [hFind, reached]
      constructor
      · intro h
        cases h
      · rintro ⟨hAll, _⟩
        have hDefined := hAll ref hMember
        simp_all
  | none =>
      have hAll := List.find?_eq_none.mp hFind
      simp only [hFind, reached]
      constructor
      · intro h
        cases h
        refine ⟨?_, rfl⟩
        intro ref hRef
        have hDefined := hAll ref hRef
        simpa [Option.isSome_iff_ne_none] using hDefined
      · rintro ⟨_, rfl⟩
        rfl

/- The names of the first rules are among those reached. -/
theorem met_reached_of_mem
    (scope : Scope)
    {rules : List Rule}
    {rule : Rule}
    (hRule : rule ∈ rules)
    {name : String}
    (hName : name ∈ rule.element.names) :
    met (scope.reached rules) name = true := by
  apply (explored_explore scope Rule.references
    (rules.flatMap Rule.references)).covers
  rw [List.nil_append]
  apply met_iff.mpr
  refine ⟨⟨name, rule.name⟩, ?_, rfl⟩
  apply List.mem_flatMap.mpr
  exact ⟨rule, hRule, List.mem_map_of_mem hName⟩

/- The names of a rule that is reached are reached. -/
theorem met_reached_of_find?
    {scope : Scope}
    {rules : List Rule}
    {name : String}
    (hReached : met (scope.reached rules) name = true)
    {rule : Rule}
    (hRule : scope.find? name = some rule)
    {name' : String}
    (hName : name' ∈ rule.element.names) :
    met (scope.reached rules) name' = true := by
  rcases met_iff.mp hReached with ⟨ref, hRef, rfl⟩
  have hMet :=
    (explored_explore scope Rule.references
      (rules.flatMap Rule.references)).closed
      ref hRef rule hRule ⟨name', rule.name⟩
      (List.mem_map_of_mem hName)
  rw [List.append_nil] at hMet
  exact hMet

end Scope

end Abnf
