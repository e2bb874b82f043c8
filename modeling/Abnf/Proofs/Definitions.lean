import Abnf.Proofs.CheckedRules
import Abnf.Proofs.Flattening

/-
  Rules that are defined step by step.

  A name is defined once, and every further definition of it
  has to say that it adds an alternative. Whatever the order
  in which definitions of different names come, what they
  make acts like the rules in which each name stands for the
  alternation of all that was said of it. The trees differ:
  an alternation is extended in place, and one that is added
  to it becomes a part.

  Key definitions include:
    * `Abnf.Grammar.Definition`
    * `Abnf.Grammar.defineAll`
    * `Abnf.Grammar.IsOrderly`
    * `Abnf.Grammar.Offends`
    * `Abnf.Grammar.joinedRules`

  Main declarations:
    * `Abnf.Grammar.observe_exit_rule`
    * `Abnf.Grammar.defineAll_mergedRules`
    * `Abnf.Program.actsLike_of_map_flat_eq`
    * `Abnf.Grammar.defineAll_orderly`
-/

------------------------------------------------------------
-- Definitions In A Row
------------------------------------------------------------

namespace Abnf

namespace Grammar

/- What a grammar text says of a name. -/
structure Definition where
  name : String
  /- An alternative is added to what was said before. -/
  incremental : Bool
  element : Element

/- The frame of a rule that is about to be closed. -/
def Definition.frame
    (d : Definition) : Frame :=
  .rule (some d.name) d.incremental (some d.element)

/-
  Take some definitions into the rules so far, up to the
  first one that is refused.
-/
def defineAll :
    List Rule → List Definition →
      List Rule × Option ReadError
  | rules, [] => (rules, none)
  | rules, d :: rest =>
      match define rules d.name d.incremental d.element with
      | .ok next => defineAll next rest
      | .error error => (rules, some error)

/-
  The first definition of a name is plain, and all others
  add an alternative.
-/
def IsOrderly
    (definitions : List Definition) : Prop :=
  ∀ before d behind,
    definitions = before ++ d :: behind →
    (d.incremental = true ↔ d.name ∈ before.map (·.name))

/- Why a definition does not fit behind some others. -/
inductive Offends
    (before : List Definition)
    (d : Definition) : ReadError → Prop
  /- A name is defined a second time. -/
  | redefinition :
      d.incremental = false →
      d.name ∈ before.map (·.name) →
      Offends before d (.redefinition d.name)
  /- There is nothing to which to add an alternative. -/
  | undefinedIncremental :
      d.incremental = true →
      d.name ∉ before.map (·.name) →
      Offends before d (.undefinedIncremental d.name)

/- All that is said of a name, in order. -/
def elementsOf
    (definitions : List Definition)
    (name : String) : List Element :=
  (definitions.filter (·.name == name)).map (·.element)

/-
  The rules of some definitions: each name once, in the
  order of the first definitions, for the alternation of all
  that is said of it.
-/
def joinedRules
    (definitions : List Definition) : List Rule :=
  (definitions.map (·.name)).eraseDups.map
    (fun name =>
      ⟨name,
        Element.collapse .alternation
          (elementsOf definitions name)⟩)

/-
  To leave a rule is to take its definition. If it is
  refused, then the rules stay as they were.
-/
theorem observe_exit_rule
    {made : Assembly}
    {d : Definition}
    {rest : List Frame}
    (hError : made.error = none)
    (hFrames : made.frames = d.frame :: rest)
    (input : Array UInt8)
    (start stop : Nat) :
    let left := made.observe input (.exit "rule" start (some stop))
    (left.rules, left.error) = defineAll made.rules [d] ∧
      left.frames = rest := by
  have hClose :=
    Assembly.close_of_some
      (show (Part.ofName "rule").frame? =
        some (.rule none false none) from rfl) hFrames
  rw [Assembly.observe_exit, hError, Assembly.takeMatch_eq,
    matchResult_of_not_read rfl, Assembly.leave, hClose]
  simp only [Option.isSome_none, Bool.false_eq_true, if_false]
  rw [show Part.ofName "rule" = .rule from rfl,
    Assembly.assemble, Definition.frame, Assembly.closeRule,
    defineAll]
  cases hDefine :
      define made.rules d.name d.incremental d.element with
  | ok next => exact ⟨Prod.ext rfl hError, rfl⟩
  | error error => exact ⟨rfl, rfl⟩

end Grammar

end Abnf

------------------------------------------------------------
-- Orderly Definitions
------------------------------------------------------------

namespace Abnf

namespace Grammar

variable {before : List Definition}
variable {d : Definition}

theorem isOrderly_nil : IsOrderly [] := by
  intro before d behind hEq
  exact absurd hEq (by simp)

/- What comes before other definitions is orderly by itself. -/
theorem IsOrderly.left
    {definitions : List Definition}
    (h : IsOrderly (before ++ definitions)) :
    IsOrderly before := by
  rintro first d behind rfl
  exact h first d (behind ++ definitions) (by simp)

/- A definition that fits behind orderly ones. -/
theorem isOrderly_append_singleton :
    IsOrderly (before ++ [d]) ↔
      IsOrderly before ∧
        (d.incremental = true ↔
          d.name ∈ before.map (·.name)) := by
  constructor
  · intro h
    exact ⟨h.left, h before d [] rfl⟩
  · rintro ⟨h, hFits⟩ first d' behind hEq
    rcases List.append_eq_append_iff.mp hEq with
      ⟨middle, rfl, hMiddle⟩ | ⟨middle, rfl, hMiddle⟩
    · rcases List.singleton_eq_append_iff.mp hMiddle with
        ⟨rfl, hLast⟩ | ⟨_, hNone⟩
      · cases hLast
        rw [List.append_nil]
        exact hFits
      · cases hNone
    · cases middle with
      | nil =>
          cases hMiddle
          rw [List.append_nil] at hFits
          exact hFits
      | cons first' middle =>
          rw [List.cons_append] at hMiddle
          cases hMiddle
          exact h first d' middle rfl

/- A definition fits, or it is refused for one reason. -/
theorem fits_or_exists_offends
    (before : List Definition)
    (d : Definition) :
    (d.incremental = true ↔ d.name ∈ before.map (·.name)) ∨
      ∃ error, Offends before d error := by
  by_cases hKnown : d.name ∈ before.map (·.name)
  · cases hIncremental : d.incremental with
    | true => exact .inl ⟨fun _ => hKnown, fun _ => rfl⟩
    | false =>
        exact .inr ⟨_, .redefinition hIncremental hKnown⟩
  · cases hIncremental : d.incremental with
    | true =>
        exact
          .inr ⟨_, .undefinedIncremental hIncremental hKnown⟩
    | false =>
        exact
          .inl
            ⟨fun hNo => Bool.noConfusion hNo,
              fun hNo => absurd hNo hKnown⟩

theorem Offends.not_fits
    {error : ReadError}
    (h : Offends before d error) :
    ¬ (d.incremental = true ↔
      d.name ∈ before.map (·.name)) := by
  intro hFits
  cases h with
  | redefinition hPlain hKnown =>
      rw [hFits.mpr hKnown] at hPlain
      cases hPlain
  | undefinedIncremental hMore hNew =>
      exact hNew (hFits.mp hMore)

end Grammar

end Abnf

------------------------------------------------------------
-- Rules In The Making
------------------------------------------------------------

namespace Abnf

namespace Grammar

/- An element that is extended by all that follows it. -/
def mergeAll : List Element → Element
  | [] => .alternation []
  | element :: rest => rest.foldl addAlternative element

/- The rules of some definitions, as they are put together. -/
def mergedRules
    (definitions : List Definition) : List Rule :=
  (definitions.map (·.name)).eraseDups.map
    (fun name =>
      ⟨name, mergeAll (elementsOf definitions name)⟩)

theorem mergeAll_append_singleton
    {elements : List Element}
    (hSome : elements ≠ [])
    (addition : Element) :
    mergeAll (elements ++ [addition]) =
      addAlternative (mergeAll elements) addition := by
  cases elements with
  | nil => exact absurd rfl hSome
  | cons element rest =>
      rw [List.cons_append, mergeAll, List.foldl_append]
      rfl

/- A name is put last, if it is not there. -/
theorem eraseDups_append_singleton
    (names : List String)
    (name : String) :
    (names ++ [name]).eraseDups =
      if name ∈ names then
        names.eraseDups
      else
        names.eraseDups ++ [name] := by
  rw [List.eraseDups_append, List.removeAll]
  split
  · rename_i hKnown
    simp [hKnown]
  · rename_i hNew
    simp [hNew, List.eraseDups_cons]

theorem nodup_eraseDups
    (names : List String) : names.eraseDups.Nodup := by
  induction names using List.reverseRecOn with
  | nil => exact List.nodup_nil
  | append_singleton names name ih =>
      rw [eraseDups_append_singleton]
      split
      · exact ih
      · rename_i hNew
        rw [List.nodup_append]
        refine ⟨ih, List.nodup_singleton _, ?_⟩
        rintro other hOther _ hSame rfl
        rw [List.mem_singleton.mp hSame,
          List.mem_eraseDups] at hOther
        exact hNew hOther

theorem elementsOf_append_singleton
    (before : List Definition)
    (d : Definition)
    (name : String) :
    elementsOf (before ++ [d]) name =
      elementsOf before name ++
        if d.name = name then [d.element] else [] := by
  rw [elementsOf, elementsOf, List.filter_append,
    List.map_append]
  congr 1
  by_cases hSame : d.name = name
  · simp [hSame]
  · simp [hSame]

/- Something is said of a name that is defined. -/
theorem elementsOf_ne_nil
    {before : List Definition}
    {name : String}
    (hKnown : name ∈ before.map (·.name)) :
    elementsOf before name ≠ [] := by
  rcases List.mem_map.mp hKnown with ⟨d, hD, rfl⟩
  have hElement : d.element ∈ elementsOf before d.name :=
    List.mem_map_of_mem
      (List.mem_filter.mpr ⟨hD, beq_self_eq_true _⟩)
  exact List.ne_nil_of_mem hElement

/- Nothing is said of a name that is not defined. -/
theorem elementsOf_eq_nil
    {before : List Definition}
    {name : String}
    (hNew : name ∉ before.map (·.name)) :
    elementsOf before name = [] := by
  rw [elementsOf, List.map_eq_nil_iff, List.filter_eq_nil_iff]
  intro d hD hSame
  rw [beq_iff_eq] at hSame
  exact hNew (hSame ▸ List.mem_map_of_mem hD)

/- One of some rules with different names is extended. -/
theorem extendRule_map
    {names : List String}
    (hNodup : names.Nodup)
    (f : String → Element)
    (name : String)
    (addition : Element) :
    extendRule name addition
        (names.map (fun n => ⟨n, f n⟩)) =
      names.map
        (fun n =>
          ⟨n,
            if n = name then addAlternative (f n) addition
            else f n⟩) := by
  induction names with
  | nil => rfl
  | cons first rest ih =>
      rw [List.nodup_cons] at hNodup
      rw [List.map_cons, List.map_cons, extendRule]
      by_cases hSame : first = name
      · subst hSame
        have hRest :
            ∀ n ∈ rest, n ≠ first :=
          fun n hN hEq => hNodup.1 (hEq ▸ hN)
        simp only [beq_self_eq_true, if_true, Rule.withElement]
        congr 1
        apply List.map_congr_left
        intro n hN
        rw [if_neg (hRest n hN)]
      · simp only [beq_iff_eq, hSame, if_false, ih hNodup.2]

theorem any_mergedRules
    (before : List Definition)
    (name : String) :
    (mergedRules before).any (·.name == name) =
      decide (name ∈ before.map (·.name)) := by
  rw [Bool.eq_iff_iff, List.any_eq_true, decide_eq_true_iff,
    ← List.mem_eraseDups]
  constructor
  · rintro ⟨rule, hRule, hSame⟩
    rcases List.mem_map.mp hRule with ⟨other, hOther, rfl⟩
    rw [beq_iff_eq] at hSame
    exact hSame ▸ hOther
  · intro hName
    exact
      ⟨_, List.mem_map_of_mem hName, beq_self_eq_true name⟩

/- A definition that fits makes the next rules. -/
theorem define_mergedRules
    {before : List Definition}
    {d : Definition}
    (hName : checkName d.name = .ok ())
    (hFits :
      d.incremental = true ↔ d.name ∈ before.map (·.name)) :
    define (mergedRules before) d.name d.incremental
        d.element =
      .ok (mergedRules (before ++ [d])) := by
  unfold define
  rw [any_mergedRules]
  have hNames :
      ((before ++ [d]).map (·.name)).eraseDups =
        if d.name ∈ before.map (·.name) then
          (before.map (·.name)).eraseDups
        else
          (before.map (·.name)).eraseDups ++ [d.name] := by
    rw [List.map_append, List.map_singleton,
      eraseDups_append_singleton]
  by_cases hKnown : d.name ∈ before.map (·.name)
  · rw [hFits.mpr hKnown, decide_eq_true hKnown]
    simp only [mergedRules, hNames, if_pos hKnown]
    rw [extendRule_map (nodup_eraseDups _)]
    congr 1
    apply List.map_congr_left
    intro name _
    rw [elementsOf_append_singleton]
    by_cases hSame : d.name = name
    · subst hSame
      rw [if_pos rfl, if_pos rfl,
        mergeAll_append_singleton (elementsOf_ne_nil hKnown)]
    · rw [if_neg hSame, if_neg (Ne.symm hSame),
        List.append_nil]
  · have hPlain : d.incremental = false :=
      Bool.eq_false_iff.mpr (fun h => hKnown (hFits.mp h))
    have hRule :
        ReadError.liftElement (Rule.ofName d.name d.element) =
          .ok ⟨d.name, d.element⟩ := by
      rw [Rule.ofName, hName]
      rfl
    rw [hPlain, decide_eq_false hKnown]
    simp only [hRule, mergedRules, hNames, if_neg hKnown]
    change Except.ok _ = _
    congr 1
    rw [List.map_append, List.map_singleton,
      elementsOf_append_singleton, if_pos rfl,
      elementsOf_eq_nil hKnown]
    congr 1
    apply List.map_congr_left
    intro name hOld
    have hOther : d.name ≠ name := by
      rintro rfl
      exact hKnown (List.mem_eraseDups.mp hOld)
    rw [elementsOf_append_singleton, if_neg hOther,
      List.append_nil]

/- A definition that does not fit is refused. -/
theorem define_of_offends
    {before : List Definition}
    {d : Definition}
    {error : ReadError}
    (h : Offends before d error) :
    define (mergedRules before) d.name d.incremental
        d.element =
      .error error := by
  unfold define
  rw [any_mergedRules]
  cases h with
  | redefinition hPlain hKnown =>
      rw [hPlain, decide_eq_true hKnown]
  | undefinedIncremental hMore hNew =>
      rw [hMore, decide_eq_false hNew]

/-
  By induction on the definitions: as long as they are
  orderly they are taken, and the first one that is not is
  refused.
-/
theorem defineAll_mergedRules
    {before definitions : List Definition}
    (hBefore : IsOrderly before)
    (hNames :
      ∀ d ∈ definitions, checkName d.name = .ok ()) :
    (IsOrderly (before ++ definitions) ∧
      defineAll (mergedRules before) definitions =
        (mergedRules (before ++ definitions), none)) ∨
    ∃ taken d behind error,
      definitions = taken ++ d :: behind ∧
      IsOrderly (before ++ taken) ∧
      Offends (before ++ taken) d error ∧
      defineAll (mergedRules before) definitions =
        (mergedRules (before ++ taken), some error) := by
  induction definitions generalizing before with
  | nil =>
      rw [List.append_nil]
      exact .inl ⟨hBefore, rfl⟩
  | cons d rest ih =>
      rw [List.forall_mem_cons] at hNames
      rcases fits_or_exists_offends before d with
        hFits | ⟨error, hOffends⟩
      · have hNext := isOrderly_append_singleton.mpr
          ⟨hBefore, hFits⟩
        have hSplit :
            ∀ others, before ++ d :: others =
              (before ++ [d]) ++ others := by
          simp
        rw [defineAll, define_mergedRules hNames.1 hFits,
          hSplit]
        rcases ih hNext hNames.2 with
          hAll | ⟨taken, d', behind, error, rfl, hRest⟩
        · exact .inl hAll
        · refine
            .inr ⟨d :: taken, d', behind, error, rfl, ?_⟩
          rw [hSplit]
          exact hRest
      · refine .inr ⟨[], d, rest, error, rfl, ?_⟩
        rw [List.append_nil, defineAll,
          define_of_offends hOffends]
        exact ⟨hBefore, hOffends, rfl⟩

end Grammar

end Abnf

------------------------------------------------------------
-- Alternations Of All That Is Said
------------------------------------------------------------

namespace Abnf

namespace Element

theorem flatChoice_append
    (parts parts' : List Element) :
    flatChoice (parts ++ parts') =
      flatChoice parts ++ flatChoice parts' := by
  induction parts with
  | nil => simp [flatChoice]
  | cons part parts ih => simp [flatChoice, ih]

theorem flatChoice_choiceParts
    (element : Element) :
    flatChoice element.choiceParts =
      element.flat.choiceParts := by
  cases element with
  | alternation parts => rw [choiceParts, flat, choiceParts]
  | ruleName name => simp [choiceParts, flatChoice]
  | terminal s => simp [choiceParts, flatChoice]
  | repetition min max body => simp [choiceParts, flatChoice]
  | concatenation parts => simp [choiceParts, flatChoice]

end Element

namespace Grammar

open Element

theorem addAlternative_eq
    (element addition : Element) :
    addAlternative element addition =
      alternation (element.choiceParts ++ [addition]) := by
  cases element with
  | alternation parts => rfl
  | ruleName name => rfl
  | terminal s => rfl
  | repetition min max body => rfl
  | concatenation parts => rfl

/- All alternatives come behind those of the first element. -/
theorem foldl_addAlternative
    (element addition : Element)
    (rest : List Element) :
    (addition :: rest).foldl addAlternative element =
      alternation
        (element.choiceParts ++ addition :: rest) := by
  induction rest using List.reverseRecOn with
  | nil => exact addAlternative_eq element addition
  | append_singleton rest last ih =>
      rw [← List.cons_append, List.foldl_append, ih,
        List.foldl_cons, List.foldl_nil, addAlternative_eq,
        choiceParts, List.append_assoc]

/-
  Extending an element and joining all that is said of it
  give the same tree once alternations are flat.
-/
theorem flat_mergeAll
    (elements : List Element) :
    (mergeAll elements).flat =
      (collapse alternation elements).flat := by
  cases elements with
  | nil => rfl
  | cons element rest =>
      cases rest with
      | nil => rfl
      | cons addition rest =>
          change
            ((addition :: rest).foldl addAlternative
                element).flat =
              alternation
                (flatChoice (element :: addition :: rest))
          rw [foldl_addAlternative, flat, flatChoice_append,
            flatChoice_choiceParts]
          simp only [flatChoice]

end Grammar

namespace Program

namespace ActsLike

theorem symm
    {program other : Program}
    (h : program.ActsLike other) :
    other.ActsLike program where
  ruleNames := h.ruleNames.symm
  traces := by
    intro name hName
    rw [← h.ruleNames] at hName
    rcases h.traces name hName with
      ⟨entry, entry', hEntry, hEntry', hSame⟩
    exact
      ⟨entry', entry, hEntry', hEntry,
        fun input start =>
          ⟨(hSame input start).1.symm,
            (hSame input start).2.symm⟩⟩

theorem trans
    {program other third : Program}
    (h : program.ActsLike other)
    (h' : other.ActsLike third) :
    program.ActsLike third where
  ruleNames := h.ruleNames.trans h'.ruleNames
  traces := by
    intro name hName
    rcases h.traces name hName with
      ⟨entry, middle, hEntry, hMiddle, hSame⟩
    rw [h.ruleNames] at hName
    rcases h'.traces name hName with
      ⟨middle', entry', hMiddle', hEntry', hSame'⟩
    rw [hMiddle] at hMiddle'
    cases hMiddle'
    exact
      ⟨entry, entry', hEntry, hEntry',
        fun input start =>
          ⟨(hSame input start).1.trans (hSame' input start).1,
            (hSame input start).2.trans
              (hSame' input start).2⟩⟩

end ActsLike

/-
  Rules that are alike once they are flat are refused for
  the same cause or act alike.
-/
theorem actsLike_of_map_flat_eq
    {rules others : List Rule}
    (h : rules.map Rule.flat = others.map Rule.flat) :
    (∃ cause,
      ofRules rules = .error cause ∧
      ofRules others = .error cause) ∨
    (∃ program other,
      ofRules rules = .ok program ∧
      ofRules others = .ok other ∧
      program.ActsLike other) := by
  have hOthers := ofRules_map_flat others
  rw [← h] at hOthers
  rcases ofRules_map_flat rules with
    ⟨cause, hFlat, hRefused⟩ |
    ⟨flat, program, hFlat, hProgram, hActs⟩
  · rcases hOthers with
      ⟨cause', hFlat', hRefused'⟩ | ⟨_, _, hFlat', _⟩
    · rw [hFlat] at hFlat'
      cases hFlat'
      exact .inl ⟨cause, hRefused, hRefused'⟩
    · rw [hFlat] at hFlat'
      cases hFlat'
  · rcases hOthers with
      ⟨_, hFlat', _⟩ | ⟨flat', other, hFlat', hOther, hActs'⟩
    · rw [hFlat] at hFlat'
      cases hFlat'
    · rw [hFlat] at hFlat'
      cases hFlat'
      exact
        .inr
          ⟨program, other, hProgram, hOther,
            hActs.symm.trans hActs'⟩

end Program

namespace Grammar

/-
  Definitions that are handed in one after the other. They
  are all taken if and only if they are orderly; otherwise
  the first one that does not fit is refused, with the rules
  before it unchanged. The rules of orderly definitions come
  in the order of the first ones, and they are refused or
  act like those in which each name stands for all that is
  said of it.
-/
theorem defineAll_orderly
    {definitions : List Definition}
    (hNames :
      ∀ d ∈ definitions, checkName d.name = .ok ()) :
    ((defineAll [] definitions).2 = none ↔
      IsOrderly definitions) ∧
    (∀ error, (defineAll [] definitions).2 = some error →
      ∃ before d behind,
        definitions = before ++ d :: behind ∧
        IsOrderly before ∧
        Offends before d error ∧
        (defineAll [] before).2 = none ∧
        (defineAll [] definitions).1 =
          (defineAll [] before).1) ∧
    (IsOrderly definitions →
      (defineAll [] definitions).1.map (·.name) =
          (definitions.map (·.name)).eraseDups ∧
        ((∃ cause,
          Program.ofRules (defineAll [] definitions).1 =
            .error cause ∧
          Program.ofRules (joinedRules definitions) =
            .error cause) ∨
        (∃ program other,
          Program.ofRules (defineAll [] definitions).1 =
            .ok program ∧
          Program.ofRules (joinedRules definitions) =
            .ok other ∧
          program.ActsLike other))) := by
  have hRun :
      ∀ {taken : List Definition},
        (∀ d ∈ taken, checkName d.name = .ok ()) →
        (IsOrderly taken ∧
          defineAll [] taken = (mergedRules taken, none)) ∨
        ∃ before d behind error,
          taken = before ++ d :: behind ∧
          IsOrderly before ∧
          Offends before d error ∧
          defineAll [] taken =
            (mergedRules before, some error) :=
    fun hNames => defineAll_mergedRules isOrderly_nil hNames
  have hTaken :
      ∀ {taken : List Definition},
        IsOrderly taken →
        (∀ d ∈ taken, checkName d.name = .ok ()) →
        defineAll [] taken = (mergedRules taken, none) := by
    intro taken hOrderly hNames
    rcases hRun hNames with
      ⟨_, hAll⟩ |
      ⟨before, d, behind, error, rfl, _, hOffends, _⟩
    · exact hAll
    · exact
        absurd (hOrderly before d behind rfl)
          hOffends.not_fits
  refine ⟨⟨?_, ?_⟩, ?_, ?_⟩
  · intro hNone
    rcases hRun hNames with
      ⟨hOrderly, _⟩ | ⟨_, _, _, _, _, _, _, hError⟩
    · exact hOrderly
    · rw [hError] at hNone
      cases hNone
  · intro hOrderly
    rw [hTaken hOrderly hNames]
  · intro error hError
    rcases hRun hNames with
      ⟨_, hAll⟩ |
      ⟨before, d, behind, cause, hEq, hOrderly, hOffends,
        hRefused⟩
    · rw [hAll] at hError
      cases hError
    · rw [hRefused] at hError ⊢
      cases hError
      have hBefore :=
        hTaken hOrderly
          (fun d hD =>
            hNames d (hEq ▸ List.mem_append_left _ hD))
      refine ⟨before, d, behind, hEq, hOrderly, hOffends, ?_⟩
      rw [hBefore]
      exact ⟨rfl, rfl⟩
  · intro hOrderly
    rw [hTaken hOrderly hNames]
    refine ⟨?_, Program.actsLike_of_map_flat_eq ?_⟩
    · rw [mergedRules, List.map_map]
      exact List.map_id _
    · rw [mergedRules, joinedRules, List.map_map,
        List.map_map]
      apply List.map_congr_left
      intro name _
      simp only [Function.comp_apply, Rule.flat,
        Rule.withElement, flat_mergeAll]

/-
  An alternation that gets another one as an alternative,
  with a different rule in between.
-/
def interleavedDefinitions : List Definition :=
  [⟨"a", false, .alternation [.ruleName "b", .chars "x"]⟩,
    ⟨"b", false, .chars "y"⟩,
    ⟨"a", true, .alternation [.chars "z", .ruleName "b"]⟩]

theorem defineAll_orderly_interleaved :
    (∀ d ∈ interleavedDefinitions,
      checkName d.name = .ok ()) ∧
    IsOrderly interleavedDefinitions ∧
    (defineAll [] interleavedDefinitions).1 ≠
      joinedRules interleavedDefinitions ∧
    ∃ program other,
      Program.ofRules
          (defineAll [] interleavedDefinitions).1 =
        .ok program ∧
      Program.ofRules (joinedRules interleavedDefinitions) =
        .ok other ∧
      program.ActsLike other := by
  have hNames :
      ∀ d ∈ interleavedDefinitions,
        checkName d.name = .ok () := by
    decide
  have hTaken :
      (defineAll [] interleavedDefinitions).2 = none := by
    decide
  have hAccepted :
      (Program.ofRules
          (defineAll [] interleavedDefinitions).1).isOk =
        true := by
    decide +kernel
  rcases defineAll_orderly hNames with
    ⟨hIff, _, hActs⟩
  have hOrderly := hIff.mp hTaken
  refine ⟨hNames, hOrderly, by decide, ?_⟩
  rcases (hActs hOrderly).2 with ⟨cause, hRefused, _⟩ | hBoth
  · rw [hRefused] at hAccepted
    cases hAccepted
  · exact hBoth

end Grammar

end Abnf
