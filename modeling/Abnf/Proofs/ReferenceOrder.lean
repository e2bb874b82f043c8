import Abnf.Proofs.Acceptance

/-
  Which undefined name is reported.

  A trail follows references from some first ones on and
  meets no name twice. By the places at which it turns, each
  counted from the left, trails are put in order, and this
  is the order in which a search from left to right, depth
  first, comes to their ends. The search that `references`
  makes reports the end of the first trail that leads to an
  undefined name.

  Key definitions include:
    * `Abnf.Scope.Trail`
    * `Abnf.Scope.EndsFirst`

  Main declarations:
    * `Abnf.Scope.Trail.skip_or_detour`
    * `Abnf.Scope.endsFirst_exploreWithin`
    * `Abnf.Scope.references_reports`
-/

------------------------------------------------------------
-- Trails
------------------------------------------------------------

namespace Abnf

namespace Scope

/-
  A trail takes a reference at some place of a list, and
  goes on with the references of the rule it stands for or
  ends there. It stays off some names and off those that it
  has met.
-/
inductive Trail
    (scope : Scope) :
    List String → List Reference → List Nat →
      Reference → Prop
  | stop
      {off : List String} {refs : List Reference}
      {place : Nat} {ref : Reference} :
      refs[place]? = some ref →
      ref.name ∉ off →
      Trail scope off refs [place] ref
  | turn
      {off : List String} {refs : List Reference}
      {place : Nat} {ref : Reference} {rule : Rule}
      {places : List Nat} {last : Reference} :
      refs[place]? = some ref →
      ref.name ∉ off →
      scope.find? ref.name = some rule →
      Trail scope (ref.name :: off) rule.references
        places last →
      Trail scope off refs (place :: places) last

/-
  Places that are the same, or that turn further to the left
  where they first differ.
-/
def LeftOrSame
    (places places' : List Nat) : Prop :=
  places = places' ∨ List.Lex (· < ·) places places'

/-
  A reference without a rule that ends the first of all
  trails with such an end.
-/
structure EndsFirst
    (scope : Scope)
    (off : List String)
    (refs : List Reference)
    (ref : Reference) : Prop where
  undefined : scope.find? ref.name = none
  first :
    ∃ places, scope.Trail off refs places ref ∧
      ∀ places' ref',
        scope.Trail off refs places' ref' →
        scope.find? ref'.name = none →
        LeftOrSame places places'

theorem leftOrSame_cons_iff
    {place place' : Nat}
    {places places' : List Nat} :
    LeftOrSame (place :: places) (place' :: places') ↔
      place < place' ∨
        place = place' ∧ LeftOrSame places places' := by
  rw [LeftOrSame, LeftOrSame, List.cons.injEq]
  constructor
  · rintro (⟨rfl, rfl⟩ | hLeft)
    · exact Or.inr ⟨rfl, Or.inl rfl⟩
    · cases hLeft with
      | rel hLess => exact Or.inl hLess
      | cons hRest => exact Or.inr ⟨rfl, Or.inr hRest⟩
  · rintro (hLess | ⟨rfl, rfl | hRest⟩)
    · exact Or.inr (.rel hLess)
    · exact Or.inl ⟨rfl, rfl⟩
    · exact Or.inr (.cons hRest)

theorem leftOrSame_nil
    (places : List Nat) :
    LeftOrSame [] places := by
  cases places with
  | nil => exact Or.inl rfl
  | cons place places => exact Or.inr .nil

variable {scope : Scope}

/- A trail may be let onto names that it stays off. -/
theorem Trail.mono
    {off off' : List String}
    {refs : List Reference}
    {places : List Nat}
    {last : Reference}
    (hOff : off' ⊆ off)
    (h : scope.Trail off refs places last) :
    scope.Trail off' refs places last := by
  induction h generalizing off' with
  | stop hRef hFresh =>
      exact .stop hRef (fun h => hFresh (hOff h))
  | turn hRef hFresh hRule _ ih =>
      refine .turn hRef (fun h => hFresh (hOff h)) hRule ?_
      exact ih (List.cons_subset_cons _ hOff)

/- A trail does not depend on the references it passes by. -/
theorem Trail.at_place
    {off : List String}
    {refs refs' : List Reference}
    {place place' : Nat}
    {places : List Nat}
    {last : Reference}
    (hPlace : refs'[place']? = refs[place]?)
    (h : scope.Trail off refs (place :: places) last) :
    scope.Trail off refs' (place' :: places) last := by
  cases h with
  | stop hRef hFresh =>
      exact .stop (hPlace.trans hRef) hFresh
  | turn hRef hFresh hRule hRest =>
      exact .turn (hPlace.trans hRef) hFresh hRule hRest

theorem Trail.exists_place
    {off : List String}
    {refs : List Reference}
    {places : List Nat}
    {last : Reference}
    (h : scope.Trail off refs places last) :
    ∃ place rest,
      places = place :: rest ∧ place < refs.length := by
  cases h with
  | stop hRef _ =>
      exact
        ⟨_, _, rfl, (List.getElem?_eq_some_iff.mp hRef).1⟩
  | turn hRef _ _ _ =>
      exact
        ⟨_, _, rfl, (List.getElem?_eq_some_iff.mp hRef).1⟩

/- A trail goes on behind further references. -/
theorem Trail.shift
    {off : List String}
    {refs : List Reference}
    {place : Nat}
    {places : List Nat}
    {last : Reference}
    (ref : Reference)
    (h : scope.Trail off refs (place :: places) last) :
    scope.Trail off (ref :: refs) ((place + 1) :: places)
      last :=
  Trail.at_place List.getElem?_cons_succ h

/-
  A trail ends at the first reference, goes on with its rule
  or takes a later reference.
-/
theorem Trail.cases_cons
    {off : List String}
    {ref : Reference}
    {refs : List Reference}
    {places : List Nat}
    {last : Reference}
    (h : scope.Trail off (ref :: refs) places last) :
    (ref.name ∉ off ∧ last = ref) ∨
      (∃ rule more, ref.name ∉ off ∧ places = 0 :: more ∧
        scope.find? ref.name = some rule ∧
        scope.Trail (ref.name :: off) rule.references
          more last) ∨
      ∃ place more, places = (place + 1) :: more ∧
        scope.Trail off refs (place :: more) last := by
  rcases h.exists_place with ⟨place, more, rfl, _⟩
  cases place with
  | zero =>
      cases h with
      | stop hRef hFresh =>
          cases hRef
          exact Or.inl ⟨hFresh, rfl⟩
      | turn hRef hFresh hRule hRest =>
          cases hRef
          exact
            Or.inr
              (Or.inl ⟨_, _, hFresh, rfl, hRule, hRest⟩)
  | succ place =>
      exact
        Or.inr
          (Or.inr
            ⟨place, more, rfl,
              h.at_place List.getElem?_cons_succ.symm⟩)

/-
  A trail to somewhere else stays off a name, or what
  follows that name is a trail that stays off it.
-/
theorem Trail.skip_or_detour
    {off : List String}
    {refs : List Reference}
    {places : List Nat}
    {last : Reference}
    {name : String}
    {rule : Rule}
    (hRule : scope.find? name = some rule)
    (hLast : last.name ≠ name)
    (h : scope.Trail off refs places last) :
    scope.Trail (name :: off) refs places last ∨
      ∃ places',
        scope.Trail (name :: off) rule.references
          places' last := by
  induction h with
  | stop hRef hFresh =>
      exact
        Or.inl
          (.stop hRef
            (List.not_mem_cons_of_ne_of_not_mem hLast
              hFresh))
  | @turn off refs place ref _ places last hRef hFresh hFound
      hRest ih =>
      by_cases hName : ref.name = name
      · subst hName
        cases hRule.symm.trans hFound
        exact Or.inr ⟨places, hRest⟩
      · rcases ih hLast with hSkip | ⟨places', hDetour⟩
        · refine
            Or.inl
              (.turn hRef
                (List.not_mem_cons_of_ne_of_not_mem hName
                  hFresh)
                hFound (hSkip.mono ?_))
          exact (List.Perm.swap _ _ _).subset
        · refine Or.inr ⟨places', hDetour.mono ?_⟩
          exact
            List.cons_subset_cons _
              (List.subset_cons_self _ _)

end Scope

end Abnf

------------------------------------------------------------
-- The Search Follows Trails
------------------------------------------------------------

namespace Abnf

namespace Scope

variable {scope : Scope}
variable {off : List String}
variable {ref last : Reference}
variable {rest : List Reference}

/- A pending reference to a name that is off is dropped. -/
theorem EndsFirst.behind
    (hOff : ref.name ∈ off)
    (h : scope.EndsFirst off rest last) :
    scope.EndsFirst off (ref :: rest) last := by
  rcases h with ⟨hNone, places, hTrail, hFirst⟩
  rcases hTrail.exists_place with ⟨place, more, rfl, _⟩
  refine
    ⟨hNone, (place + 1) :: more, hTrail.shift ref, ?_⟩
  intro places' last' hTrail' hNone'
  rcases hTrail'.cases_cons with
    ⟨hFresh, _⟩ | ⟨_, _, hFresh, _⟩ |
    ⟨place', more', rfl, hBehind⟩
  · exact absurd hOff hFresh
  · exact absurd hOff hFresh
  · have hLeft := hFirst _ _ hBehind hNone'
    rw [leftOrSame_cons_iff] at hLeft ⊢
    simpa using hLeft

/- A pending reference without a rule ends the search. -/
theorem endsFirst_here
    (hOff : ref.name ∉ off)
    (hNone : scope.find? ref.name = none) :
    scope.EndsFirst off (ref :: rest) ref := by
  refine ⟨hNone, [0], .stop rfl hOff, ?_⟩
  intro places' last' hTrail' _
  rcases hTrail'.exists_place with ⟨place', more', rfl, _⟩
  rw [leftOrSame_cons_iff]
  rcases Nat.eq_zero_or_pos place' with rfl | hPos
  · exact Or.inr ⟨rfl, leftOrSame_nil more'⟩
  · exact Or.inl hPos

theorem getElem?_behind
    (refs rest : List Reference)
    (place : Nat) :
    (refs ++ rest)[refs.length + place]? = rest[place]? := by
  rw [List.getElem?_append_right (Nat.le_add_right _ _),
    Nat.add_sub_cancel_left]

/- A trail in front is not left of the first one of all. -/
theorem leftOrSame_of_front
    {refs : List Reference}
    {first : List Nat}
    (hFirst :
      ∀ places last,
        scope.Trail off (refs ++ rest) places last →
        scope.find? last.name = none →
        LeftOrSame first places)
    {place : Nat}
    {more : List Nat}
    (hTrail : scope.Trail off refs (place :: more) last)
    (hNone : scope.find? last.name = none) :
    place < refs.length ∧
      LeftOrSame first (place :: more) := by
  rcases hTrail.exists_place with ⟨_, _, hPlaces, hLess⟩
  cases hPlaces
  refine ⟨hLess, hFirst _ _ ?_ hNone⟩
  exact hTrail.at_place (List.getElem?_append_left hLess)

/-
  A trail behind the references of a rule is not left of the
  first one of all, or that one is in front. If it comes
  back to the rule, there is a trail in front.
-/
theorem leftOrSame_of_behind
    {name : String}
    {rule : Rule}
    (hRule : scope.find? name = some rule)
    {place : Nat}
    {more : List Nat}
    (hFirst :
      ∀ places last,
        scope.Trail (name :: off) (rule.references ++ rest)
          places last →
        scope.find? last.name = none →
        LeftOrSame (place :: more) places)
    {place' : Nat}
    {more' : List Nat}
    (hTrail : scope.Trail off rest (place' :: more') last)
    (hNone : scope.find? last.name = none) :
    LeftOrSame (place :: more)
        ((rule.references.length + place') :: more') ∨
      place < rule.references.length := by
  have hLast : last.name ≠ name := by
    intro hSame
    rw [hSame, hRule] at hNone
    cases hNone
  rcases hTrail.skip_or_detour hRule hLast with
    hSkip | ⟨places'', hDetour⟩
  · have hFlat :=
      hSkip.at_place
        (getElem?_behind rule.references rest place')
    exact Or.inl (hFirst _ _ hFlat hNone)
  · rcases hDetour.exists_place with
      ⟨place'', more'', rfl, _⟩
    have hFront :=
      leftOrSame_of_front hFirst hDetour hNone
    rw [leftOrSame_cons_iff] at hFront
    exact Or.inr (by omega)

/-
  The references of a rule in front of those behind it stand
  for the rule itself. A trail that would come back to the
  rule later on is behind the one that goes there at once.
-/
theorem EndsFirst.expand
    {rule : Rule}
    (hOff : ref.name ∉ off)
    (hRule : scope.find? ref.name = some rule)
    (h :
      scope.EndsFirst (ref.name :: off)
        (rule.references ++ rest) last) :
    scope.EndsFirst off (ref :: rest) last := by
  rcases h with ⟨hNone, places, hTrail, hFirst⟩
  rcases hTrail.exists_place with ⟨place, more, rfl, _⟩
  by_cases hPlace : place < rule.references.length
  · refine
      ⟨hNone, 0 :: place :: more, .turn rfl hOff hRule ?_, ?_⟩
    · exact
        hTrail.at_place
          (List.getElem?_append_left hPlace).symm
    · intro places' last' hTrail' hNone'
      rcases hTrail'.cases_cons with
        ⟨_, rfl⟩ | ⟨_, more', _, rfl, hFound, hRest⟩ |
        ⟨place', more', rfl, _⟩
      · rw [hRule] at hNone'
        cases hNone'
      · cases hRule.symm.trans hFound
        rcases hRest.exists_place with
          ⟨place'', more'', rfl, _⟩
        have hFront :=
          leftOrSame_of_front hFirst hRest hNone'
        rw [leftOrSame_cons_iff]
        exact Or.inr ⟨rfl, hFront.2⟩
      · rw [leftOrSame_cons_iff]
        exact Or.inl (Nat.succ_pos place')
  · rcases Nat.exists_eq_add_of_le (Nat.not_lt.mp hPlace) with
      ⟨offset, rfl⟩
    refine ⟨hNone, (offset + 1) :: more, ?_, ?_⟩
    · have hLater :=
        hTrail.at_place
          (getElem?_behind rule.references rest offset).symm
      exact
        (hLater.mono (List.subset_cons_self _ _)).shift ref
    · intro places' last' hTrail' hNone'
      rcases hTrail'.cases_cons with
        ⟨_, rfl⟩ | ⟨_, more', _, rfl, hFound, hRest⟩ |
        ⟨place', more', rfl, hLater⟩
      · rw [hRule] at hNone'
        cases hNone'
      · cases hRule.symm.trans hFound
        rcases hRest.exists_place with
          ⟨place'', more'', rfl, _⟩
        have hFront :=
          leftOrSame_of_front hFirst hRest hNone'
        rw [leftOrSame_cons_iff] at hFront
        omega
      · rcases leftOrSame_of_behind hRule hFirst hLater
            hNone' with
          hLeft | hLess
        · rw [leftOrSame_cons_iff] at hLeft ⊢
          simpa using hLeft
        · exact absurd hLess hPlace

end Scope

end Abnf

------------------------------------------------------------
-- The Search
------------------------------------------------------------

namespace Abnf

namespace Scope

variable {scope : Scope}

/-
  The first reference without a rule among those that were
  met, of which the latest comes first.
-/
def firstUndefined?
    (scope : Scope)
    (seen : List Reference) : Option Reference :=
  seen.reverse.find? (fun r => (scope.find? r.name).isNone)

theorem firstUndefined?_eq_none
    {seen : List Reference}
    (hSeen : ∀ r ∈ seen, scope.find? r.name ≠ none) :
    scope.firstUndefined? seen = none := by
  rw [firstUndefined?, List.find?_eq_none]
  intro r hMember
  rw [Option.isNone_iff_eq_none]
  exact hSeen r (List.mem_reverse.mp hMember)

/- What was met first stays so. -/
theorem firstUndefined?_of_suffix
    {seen later : List Reference}
    {ref : Reference}
    (hSeen : ∀ r ∈ seen, scope.find? r.name ≠ none)
    (hNone : scope.find? ref.name = none)
    (hLater : ref :: seen <:+ later) :
    scope.firstUndefined? later = some ref := by
  rcases hLater with ⟨front, rfl⟩
  have hBefore := firstUndefined?_eq_none hSeen
  rw [firstUndefined?] at hBefore ⊢
  simp [List.find?_append, hBefore, hNone]

theorem mem_map_name_iff_met
    {seen : List Reference}
    {name : String} :
    name ∈ seen.map (·.name) ↔ met seen name = true := by
  rw [met_iff, List.mem_map]

/- Draining forgets nothing if its expansions do not. -/
theorem suffix_drain
    {next : Rule → List Reference}
    {expand :
      List Reference → List Reference → List Reference}
    (hExpand : ∀ pending seen, seen <:+ expand pending seen)
    (pending seen : List Reference) :
    seen <:+ drain scope next expand pending seen := by
  induction pending generalizing seen with
  | nil => exact List.suffix_refl seen
  | cons ref rest ih =>
      rw [drain]
      split
      · exact ih seen
      · split
        · exact (List.suffix_cons ref seen).trans (ih _)
        · exact
            (List.suffix_cons ref seen).trans (hExpand _ _)

theorem suffix_exploreWithin
    (next : Rule → List Reference)
    (limit : Nat)
    (pending seen : List Reference) :
    seen <:+ exploreWithin scope next limit pending seen := by
  induction limit generalizing pending seen with
  | zero =>
      exact
        suffix_drain (fun _ seen => List.suffix_refl seen)
          pending seen
  | succ limit ih => exact suffix_drain ih pending seen

/-
  Draining finds the end of the first trail if the
  expansions that it hands on do. `bound` is what is left to
  be met.
-/
theorem endsFirst_drain
    {expand :
      List Reference → List Reference → List Reference}
    {bound : Nat}
    (hSuffix : ∀ pending seen, seen <:+ expand pending seen)
    (hExpand :
      ∀ pending seen last,
        scope.unmet seen < bound →
        (∀ r ∈ seen, scope.find? r.name ≠ none) →
        scope.firstUndefined? (expand pending seen) =
          some last →
        scope.EndsFirst (seen.map (·.name)) pending last)
    {pending seen : List Reference}
    {last : Reference}
    (hBound : scope.unmet seen ≤ bound)
    (hSeen : ∀ r ∈ seen, scope.find? r.name ≠ none)
    (hLast :
      scope.firstUndefined?
          (drain scope Rule.references expand pending
            seen) =
        some last) :
    scope.EndsFirst (seen.map (·.name)) pending last := by
  induction pending generalizing seen with
  | nil =>
      rw [drain, firstUndefined?_eq_none hSeen] at hLast
      cases hLast
  | cons ref rest ih =>
      rw [drain] at hLast
      cases hMet : met seen ref.name with
      | true =>
          rw [hMet, if_pos rfl] at hLast
          exact
            (ih hBound hSeen hLast).behind
              (mem_map_name_iff_met.mpr hMet)
      | false =>
          rw [hMet, if_neg Bool.false_ne_true] at hLast
          have hOff : ref.name ∉ seen.map (·.name) := by
            rw [mem_map_name_iff_met, hMet]
            exact Bool.false_ne_true
          cases hRule : scope.find? ref.name with
          | none =>
              simp only [hRule] at hLast
              rw [firstUndefined?_of_suffix hSeen hRule
                (suffix_drain hSuffix rest
                  (ref :: seen))] at hLast
              cases hLast
              exact endsFirst_here hOff hRule
          | some rule =>
              simp only [hRule] at hLast
              have hLess := unmet_cons_lt hRule hMet
              refine
                .expand hOff hRule
                  (hExpand _ (ref :: seen) _ (by omega) ?_
                    hLast)
              rw [List.forall_mem_cons, hRule]
              exact ⟨Option.some_ne_none rule, hSeen⟩

theorem endsFirst_exploreWithin
    {limit : Nat}
    {pending seen : List Reference}
    {last : Reference}
    (hLimit : scope.unmet seen ≤ limit)
    (hSeen : ∀ r ∈ seen, scope.find? r.name ≠ none)
    (hLast :
      scope.firstUndefined?
          (exploreWithin scope Rule.references limit
            pending seen) =
        some last) :
    scope.EndsFirst (seen.map (·.name)) pending last := by
  induction limit generalizing pending seen last with
  | zero =>
      apply endsFirst_drain _ _ hLimit hSeen hLast
      · exact fun _ seen => List.suffix_refl seen
      · intro _ _ _ hNone
        omega
  | succ limit ih =>
      apply endsFirst_drain _ _ hLimit hSeen hLast
      · exact suffix_exploreWithin _ limit
      · intro pending' seen' last' hLess hSeen' hLast'
        exact ih (by omega) hSeen' hLast'

variable {rules : List Rule}

/- All names that are reached are given if all are defined. -/
theorem exists_references_eq_ok_iff :
    (∃ names, scope.references rules = .ok names) ↔
      ∀ name, scope.Reaches rules name →
        (scope.find? name).isSome = true := by
  rw [← forall_reached_iff]
  simp only [references_eq_ok_iff]
  exact
    ⟨fun ⟨_, hDefined, _⟩ => hDefined,
      fun hDefined => ⟨_, hDefined, rfl⟩⟩

theorem mem_of_references_eq_ok
    {names : List String}
    (h : scope.references rules = .ok names)
    {name : String} :
    name ∈ names ↔ scope.Reaches rules name := by
  rw [(references_eq_ok_iff.mp h).2, ← met_reached_iff,
    mem_map_name_iff_met]

/- An error reports the end of the first trail to nowhere. -/
theorem exists_first_of_references_eq_error
    {cause : ReferenceError}
    (h : scope.references rules = .error cause) :
    ∃ ref ∈ scope.reached rules,
      cause = .undefinedRule ref.name ref.referrer ∧
      scope.EndsFirst [] (rules.flatMap Rule.references)
        ref := by
  unfold references at h
  dsimp only at h
  split at h
  · rename_i ref hFind
    cases h
    have hFirst :=
      endsFirst_exploreWithin scope.unmet_nil_le
        (fun r hNone => nomatch hNone) hFind
    exact
      ⟨ref, List.mem_of_find?_eq_some hFind, rfl, hFirst⟩
  · cases h

/-
  References give the names that are reached just when all
  of them are defined. Otherwise they report a name without
  a rule: the one to which a search from left to right,
  depth first, comes first, and with it the rule that holds
  the reference, which is one of the first rules or one that
  they reach.
-/
theorem references_reports
    (scope : Scope)
    (rules : List Rule) :
    ((∃ names, scope.references rules = .ok names) ↔
      ∀ name, scope.Reaches rules name →
        (scope.find? name).isSome = true) ∧
    match scope.references rules with
    | .ok names =>
        ∀ name, name ∈ names ↔ scope.Reaches rules name
    | .error cause =>
        ∃ name referrer,
          cause = .undefinedRule name referrer ∧
          scope.find? name = none ∧
          scope.EndsFirst [] (rules.flatMap Rule.references)
            ⟨name, referrer⟩ ∧
          ∃ rule,
            (rule ∈ rules ∨
              scope.Reaches rules rule.name ∧
                scope.find? rule.name = some rule) ∧
            rule.name = referrer ∧
            name ∈ rule.element.names := by
  refine ⟨exists_references_eq_ok_iff, ?_⟩
  cases hResult : scope.references rules with
  | ok names =>
      intro name
      exact mem_of_references_eq_ok hResult
  | error cause =>
      rcases exists_first_of_references_eq_error hResult with
        ⟨ref, hRef, hCause, hFirst⟩
      exact
        ⟨ref.name, ref.referrer, hCause, hFirst.undefined,
          hFirst, exists_referrer_of_mem_reached hRef⟩

/-
  The rule "a" has not been met when the search starts in
  it. So the search goes through it again from "b", and ends
  there before it looks at "other".
-/
example :
    (Scope.mk
        [⟨"a",
          .concatenation
            [.ruleName "b", .ruleName "lost"]⟩,
         ⟨"b",
          .alternation
            [.ruleName "a", .ruleName "other"]⟩]
        []).references
      [⟨"a",
        .concatenation
          [.ruleName "b", .ruleName "lost"]⟩] =
      .error (.undefinedRule "lost" "a") := by
  decide +kernel

end Scope

end Abnf
