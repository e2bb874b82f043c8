import Mathlib.Data.List.Basic
import Abnf.Proofs.Lowering
import Abnf.Proofs.Resolution

/-
  Matches that take no input.

  The nullable names are a fixed point of `nullableStep`,
  and every rule that can match without taking input is
  among them. With this, the names that `leading` lists are
  the only ones that a run can call before it takes input:
  a run is settled as soon as these calls are, and the later
  ones.

  Main declarations:
    * `Abnf.Scope.nullableStep_nullable`
    * `Abnf.Element.isNullable_of_run`
    * `Abnf.Element.run_isSettled`
    * `Abnf.Scope.mem_nullable_of_invoke`
-/

------------------------------------------------------------
-- More Names, More Nullable Elements
------------------------------------------------------------

namespace Abnf

namespace Element

variable {known known' : List String}

mutual

/- Elements stay nullable when more names are. -/
theorem isNullable_mono
    (hKnown : known ⊆ known') :
    ∀ element : Element,
      element.isNullable known = true →
      element.isNullable known' = true
  | ruleName name, h => by
      simp only [isNullable, List.contains_iff_mem] at h ⊢
      exact hKnown h
  | terminal s, h => by
      simpa only [isNullable] using h
  | repetition min max body, h => by
      simp only [isNullable, Bool.or_eq_true] at h ⊢
      rcases h with hMin | hBody
      · exact Or.inl hMin
      · exact Or.inr (isNullable_mono hKnown body hBody)
  | concatenation parts, h => by
      simp only [isNullable] at h ⊢
      exact allNullable_mono hKnown parts h
  | alternation parts, h => by
      simp only [isNullable] at h ⊢
      exact anyNullable_mono hKnown parts h

theorem allNullable_mono
    (hKnown : known ⊆ known') :
    ∀ parts : List Element,
      allNullable known parts = true →
      allNullable known' parts = true
  | [], _ => by rw [allNullable]
  | part :: parts, h => by
      simp only [allNullable, Bool.and_eq_true] at h ⊢
      exact
        ⟨isNullable_mono hKnown part h.1,
          allNullable_mono hKnown parts h.2⟩

theorem anyNullable_mono
    (hKnown : known ⊆ known') :
    ∀ parts : List Element,
      anyNullable known parts = true →
      anyNullable known' parts = true
  | [], h => by simp [anyNullable] at h
  | part :: parts, h => by
      simp only [anyNullable, Bool.or_eq_true] at h ⊢
      rcases h with hPart | hParts
      · exact Or.inl (isNullable_mono hKnown part hPart)
      · exact Or.inr (anyNullable_mono hKnown parts hParts)

end

end Element

end Abnf

------------------------------------------------------------
-- The Fixed Point
------------------------------------------------------------

namespace Abnf

namespace Scope

variable {scope : Scope}

theorem nullableStep_sublist
    {known known' : List String}
    (hKnown : known ⊆ known') :
    List.Sublist (scope.nullableStep known)
      (scope.nullableStep known') := by
  apply List.Sublist.map
  apply List.monotone_filter_right
  intro rule hRule
  exact rule.element.isNullable_mono hKnown hRule

theorem length_nullableStep_le
    (scope : Scope)
    (known : List String) :
    (scope.nullableStep known).length ≤
      scope.rules.length := by
  rw [nullableStep, List.length_map]
  exact List.length_filter_le _ _

/-
  Repeating the step from names that it keeps ends in a
  fixed point: a round that adds nothing is the last one,
  and there are at most as many other rounds as rules.
-/
theorem nullableStep_nullableWithin
    (limit : Nat)
    (known : List String)
    (hKnown :
      List.Sublist known (scope.nullableStep known))
    (hLimit : scope.rules.length < known.length + limit) :
    scope.nullableStep (scope.nullableWithin limit known) =
      scope.nullableWithin limit known := by
  induction limit generalizing known with
  | zero =>
      have hLength := hKnown.length_le
      have hRules := scope.length_nullableStep_le known
      omega
  | succ limit ih =>
      rw [nullableWithin]
      by_cases hFixed :
          (scope.nullableStep known).length = known.length
      · simp only [hFixed, if_true]
        exact (hKnown.eq_of_length hFixed.symm).symm
      · simp only [hFixed, if_false]
        have hLength := hKnown.length_le
        exact
          ih (scope.nullableStep known)
            (nullableStep_sublist hKnown.subset)
            (by omega)

/- The nullable names are a fixed point. -/
theorem nullableStep_nullable
    (scope : Scope) :
    scope.nullableStep scope.nullable = scope.nullable := by
  apply nullableStep_nullableWithin
  · exact List.nil_sublist _
  · simp

theorem mem_lastOfNames
    {rules : List Rule}
    {name : String}
    {rule : Rule}
    (h : lastNamed? rules name = some rule) :
    rule ∈ lastOfNames rules := by
  induction rules with
  | nil => simp [lastNamed?] at h
  | cons first rest ih =>
      rw [lastNamed?_cons] at h
      rw [lastOfNames]
      split at h
      · rename_i last hLast
        cases h
        split
        · exact ih hLast
        · exact List.mem_cons_of_mem _ (ih hLast)
      · rename_i hNone
        split at h
        · rename_i hName
          cases h
          rw [hName, lastNamed?_eq_none_iff.mp hNone]
          simp
        · cases h

/- What a name stands for is one of the rules in use. -/
theorem mem_rules_of_find?
    {name : String}
    {rule : Rule}
    (h : scope.find? name = some rule) :
    rule ∈ scope.rules := by
  have hName := (mem_of_find? h).2
  rw [rules, List.mem_append]
  cases hOwn : lastNamed? scope.own name with
  | some last =>
      rw [find?, hOwn] at h
      cases h
      exact Or.inl (mem_lastOfNames hOwn)
  | none =>
      rw [find?, hOwn] at h
      have hCore := mem_of_lastNamed? h
      have hHas : hasName scope.core name = true :=
        hasName_iff.mpr ⟨rule, hCore⟩
      apply Or.inr
      rw [List.mem_filter]
      refine ⟨mem_lastOfNames h, ?_⟩
      simp [keepsCore, hName, hHas,
        lastNamed?_eq_none_iff.mp hOwn]

/- A name is nullable if the element of its rule is. -/
theorem mem_nullable_of_isNullable
    {name : String}
    {rule : Rule}
    (hRule : scope.find? name = some rule)
    (hNullable :
      rule.element.isNullable scope.nullable = true) :
    name ∈ scope.nullable := by
  rw [← nullableStep_nullable, nullableStep, List.mem_map]
  refine ⟨rule, ?_, (mem_of_find? hRule).2⟩
  rw [List.mem_filter]
  exact ⟨mem_rules_of_find? hRule, hNullable⟩

end Scope

end Abnf

------------------------------------------------------------
-- Matches Without Input
------------------------------------------------------------

namespace Abnf

namespace Run

/- A match of two parts without input is one of each part. -/
theorem matched_of_andThen
    {size index : Nat}
    {run : Run}
    {next : Nat → Run}
    (hRun : run.StaysIn size index)
    (hNext : ∀ i, (next i).StaysIn size i)
    (h : (run.andThen next).outcome = .matched index) :
    run.outcome = .matched index ∧
      (next index).outcome = .matched index := by
  rw [andThen_eq_resume] at h
  rcases matched_of_resume h with
    ⟨mid, hMid, hRest⟩ | ⟨_, hNo⟩
  · have hFirst := hRun mid hMid
    have hSecond := hNext mid index hRest
    have hSame : mid = index := by omega
    subst hSame
    exact ⟨hMid, hRest⟩
  · cases hNo

/- A match of a choice is one of either part. -/
theorem matched_of_orElse
    {index : Nat}
    {run : Run}
    {other : Unit → Run}
    (h : (run.orElse other).outcome = .matched index) :
    run.outcome = .matched index ∨
      (other ()).outcome = .matched index := by
  rw [orElse_eq_resume] at h
  rcases matched_of_resume h with
    ⟨stop, hRun, hStop⟩ | ⟨_, hOther⟩
  · exact .inl (hRun.trans hStop)
  · exact .inr hOther

end Run

namespace Node

/-
  An iteration that matches without input has made its
  copies before, or its next copy matches without input.
-/
theorem matched_of_runCopies
    {size : Nat}
    {step : Nat → Run}
    (hStep : ∀ i, (step i).StaysIn size i)
    {min : Nat}
    {max : Option Nat}
    {allowance count index : Nat}
    (h :
      (runCopies step min max
        allowance count index).outcome = .matched index) :
    min ≤ count ∨ (step index).outcome = .matched index := by
  cases allowance with
  | zero => simp [runCopies] at h
  | succ allowance =>
      have hRound :=
        round_runCopies step min max allowance count index
      generalize runCopies step min max (allowance + 1)
        count index = run at h hRound
      cases hRound with
      | full hFull => exact .inl (endCopies_eq_matched h).1
      | still hBelow hStill => exact .inr hStill
      | moved hBelow hMoved hNext =>
          have hFirst := hStep index _ hMoved
          have hRest :=
            runCopies_staysIn hStep min max
              allowance (count + 1) _ index h
          omega
      | ended hBelow hFailed =>
          exact .inl (endCopies_eq_matched h).1
      | broken hBelow hBroken => exact .inr h

end Node

namespace Element

variable {input : Array UInt8}
variable {callee : String → Nat → Run}
variable {known : List String}
variable {index : Nat}

theorem isEmpty_of_runSet
    {s : CharSet}
    (h : runSet input s index = .matched index) :
    s.isEmpty = true := by
  unfold runSet at h
  split at h
  · assumption
  · split at h
    · split at h
      · simp at h
      · cases h
    · cases h

mutual

/-
  An element that matches without taking input is nullable
  if the names that match in this way are.
-/
theorem isNullable_of_run
    (hStays :
      ∀ name i, (callee name i).StaysIn input.size i)
    (hKnown :
      ∀ name,
        (callee name index).outcome = .matched index →
        name ∈ known) :
    ∀ element : Element,
      (element.run input callee index).outcome =
        .matched index →
      element.isNullable known = true
  | ruleName name, h => by
      rw [run] at h
      rw [isNullable, List.contains_iff_mem]
      exact hKnown name h
  | terminal s, h => by
      rw [run] at h
      rw [isNullable]
      exact isEmpty_of_runSet h
  | repetition min max body, h => by
      rw [run] at h
      rw [isNullable, Bool.or_eq_true]
      rcases Node.matched_of_runCopies
          (body.run_staysIn hStays) h with
        hMin | hBody
      · exact Or.inl (by simpa using hMin)
      · exact Or.inr
          (isNullable_of_run hStays hKnown body hBody)
  | concatenation parts, h => by
      rw [run] at h
      rw [isNullable]
      exact allNullable_of_run hStays hKnown parts h
  | alternation parts, h => by
      rw [run] at h
      rw [isNullable]
      exact anyNullable_of_run hStays hKnown parts h

theorem allNullable_of_run
    (hStays :
      ∀ name i, (callee name i).StaysIn input.size i)
    (hKnown :
      ∀ name,
        (callee name index).outcome = .matched index →
        name ∈ known) :
    ∀ parts : List Element,
      (runSeries input callee parts index).outcome =
        .matched index →
      allNullable known parts = true
  | [], _ => by rw [allNullable]
  | part :: parts, h => by
      rw [runSeries] at h
      rcases Run.matched_of_andThen
          (part.run_staysIn hStays index)
          (fun i =>
            (concatenation parts).run_staysIn hStays i)
          h with
        ⟨hPart, hParts⟩
      rw [allNullable, Bool.and_eq_true]
      exact
        ⟨isNullable_of_run hStays hKnown part hPart,
          allNullable_of_run hStays hKnown parts hParts⟩

theorem anyNullable_of_run
    (hStays :
      ∀ name i, (callee name i).StaysIn input.size i)
    (hKnown :
      ∀ name,
        (callee name index).outcome = .matched index →
        name ∈ known) :
    ∀ parts : List Element,
      (runFirst input callee parts index).outcome =
        .matched index →
      anyNullable known parts = true
  | [], h => by simp [runFirst] at h
  | part :: parts, h => by
      rw [runFirst] at h
      rw [anyNullable, Bool.or_eq_true]
      rcases Run.matched_of_orElse h with hPart | hParts
      · exact Or.inl
          (isNullable_of_run hStays hKnown part hPart)
      · exact Or.inr
          (anyNullable_of_run hStays hKnown parts hParts)

end

end Element

/- A rule that matches without taking input is nullable. -/
theorem Scope.mem_nullable_of_invoke
    (scope : Scope)
    (input : Array UInt8)
    (depth : Nat)
    (name : String)
    (start : Nat)
    (h :
      (scope.invoke input depth name start).outcome =
        .matched start) :
    name ∈ scope.nullable := by
  induction depth generalizing name with
  | zero => simp [invoke] at h
  | succ depth ih =>
      cases hRule : scope.find? name with
      | none => simp [invoke, hRule] at h
      | some rule =>
          rw [invoke_succ hRule, outcome_report] at h
          apply mem_nullable_of_isNullable hRule
          exact
            rule.element.isNullable_of_run
              (scope.invoke_staysIn input depth) ih h

end Abnf

------------------------------------------------------------
-- Settled Runs
------------------------------------------------------------

namespace Abnf

namespace Element

variable {known : List String}

mutual

/- Leading names are names of the element. -/
theorem leading_subset_names :
    ∀ element : Element,
      element.leading known ⊆ element.names
  | ruleName name => by simp [leading, names]
  | terminal s => by simp [leading]
  | repetition min max body => by
      rw [leading, names]
      split
      · exact List.nil_subset _
      · exact leading_subset_names body
  | concatenation parts => by
      rw [leading, names]
      exact leadingOfSeries_subset_names parts
  | alternation parts => by
      rw [leading, names]
      exact leadingOfAll_subset_names parts

theorem leadingOfSeries_subset_names :
    ∀ parts : List Element,
      leadingOfSeries known parts ⊆ namesOfAll parts
  | [] => by simp [leadingOfSeries]
  | part :: parts => by
      rw [leadingOfSeries, namesOfAll]
      intro name hName
      rw [List.mem_append] at hName ⊢
      rcases hName with hPart | hParts
      · exact Or.inl (leading_subset_names part hPart)
      · split at hParts
        · exact Or.inr
            (leadingOfSeries_subset_names parts hParts)
        · cases hParts

theorem leadingOfAll_subset_names :
    ∀ parts : List Element,
      leadingOfAll known parts ⊆ namesOfAll parts
  | [] => by simp [leadingOfAll]
  | part :: parts => by
      rw [leadingOfAll, namesOfAll]
      intro name hName
      rw [List.mem_append] at hName ⊢
      rcases hName with hPart | hParts
      · exact Or.inl (leading_subset_names part hPart)
      · exact Or.inr
          (leadingOfAll_subset_names parts hParts)

end

end Element

namespace Node

/-
  An iteration is settled if its copies are: each copy but
  the last takes input, and the allowance is above the input
  that is left.
-/
theorem runCopies_isSettled
    {size : Nat}
    {step : Nat → Run}
    (hStays : ∀ i, (step i).StaysIn size i)
    (min : Nat)
    (max : Option Nat)
    (allowance count index : Nat)
    (hAllowance : size - index < allowance)
    (hStep :
      ∀ i, index ≤ i → i ≤ Nat.max index size →
        (step i).outcome.isSettled = true) :
    (runCopies step min max
      allowance count index).outcome.isSettled = true := by
  induction allowance generalizing count index with
  | zero => omega
  | succ allowance ih =>
      have hCopy :=
        hStep index (Nat.le_refl index)
          (Nat.le_max_left index size)
      have hRound :=
        round_runCopies step min max allowance count index
      generalize runCopies step min max (allowance + 1)
        count index = run at hRound ⊢
      cases hRound with
      | full hFull => exact isSettled_endCopies min count index
      | still hBelow hStill => exact hCopy
      | moved hBelow hMoved hNext =>
          have hRange := hStays index _ hMoved
          apply ih (count + 1) _ (by omega)
          intro i hLow hHigh
          apply hStep i (by omega)
          simp only [Nat.max_def] at hHigh ⊢
          split at hHigh <;> split <;> omega
      | ended hBelow hFailed =>
          exact isSettled_endCopies min count index
      | broken hBelow hBroken => exact hCopy

end Node

end Abnf

namespace Abnf

namespace Element

variable {input : Array UInt8}
variable {callee : String → Nat → Run}
variable {known : List String}

mutual

/-
  The run of an element at an offset is settled if the calls
  of its leading names at the offset are, and the calls of
  all its names further on in the text.
-/
theorem run_isSettled
    (hStays :
      ∀ name i, (callee name i).StaysIn input.size i)
    (hKnown :
      ∀ name i,
        (callee name i).outcome = .matched i →
        name ∈ known) :
    ∀ (element : Element) (index : Nat),
      (∀ name ∈ element.leading known,
        (callee name index).outcome.isSettled = true) →
      (∀ name ∈ element.names, ∀ i,
        index < i → i ≤ input.size →
        (callee name i).outcome.isSettled = true) →
      (element.run input callee index).outcome.isSettled =
        true
  | ruleName name, index, hLeading, _ => by
      rw [run]
      exact hLeading name (by simp [leading])
  | terminal s, index, _, _ => by
      rw [run, Run.outcome_quiet, runSet]
      split
      · rfl
      · split
        · split <;> rfl
        · rfl
  | repetition min max body, index, hLeading, hLater => by
      rw [names] at hLater
      rw [leading] at hLeading
      rw [run]
      by_cases hMax : max = some 0
      · rw [Node.runCopies_succ]
        simp only [hMax, Node.atLimit, Option.any_some,
          Nat.le_refl, decide_true, if_true]
        exact Node.isSettled_endCopies min 0 index
      · simp only [hMax, if_false] at hLeading
        apply Node.runCopies_isSettled
          (body.run_staysIn hStays) min max _ 0 index
          (Nat.lt_succ_self _)
        intro i hLow hHigh
        by_cases hHere : i = index
        · subst hHere
          exact
            run_isSettled hStays hKnown body i
              hLeading hLater
        · have hRange : index < i ∧ i ≤ input.size := by
            simp only [Nat.max_def] at hHigh
            split at hHigh <;> omega
          apply run_isSettled hStays hKnown body i
          · intro name hName
            exact
              hLater name (leading_subset_names body hName)
                i hRange.1 hRange.2
          · intro name hName i' hLow' hHigh'
            exact hLater name hName i' (by omega) hHigh'
  | concatenation parts, index, hLeading, hLater => by
      rw [names] at hLater
      rw [leading] at hLeading
      rw [run]
      exact
        runSeries_isSettled hStays hKnown parts index
          hLeading hLater
  | alternation parts, index, hLeading, hLater => by
      rw [names] at hLater
      rw [leading] at hLeading
      rw [run]
      exact
        runFirst_isSettled hStays hKnown parts index
          hLeading hLater

/-
  In a series, the parts behind the first one run further on
  unless the first one is nullable.
-/
theorem runSeries_isSettled
    (hStays :
      ∀ name i, (callee name i).StaysIn input.size i)
    (hKnown :
      ∀ name i,
        (callee name i).outcome = .matched i →
        name ∈ known) :
    ∀ (parts : List Element) (index : Nat),
      (∀ name ∈ leadingOfSeries known parts,
        (callee name index).outcome.isSettled = true) →
      (∀ name ∈ namesOfAll parts, ∀ i,
        index < i → i ≤ input.size →
        (callee name i).outcome.isSettled = true) →
      (runSeries input callee parts index).outcome.isSettled =
        true
  | [], index, _, _ => by
      rw [runSeries]
      rfl
  | part :: parts, index, hLeading, hLater => by
      rw [leadingOfSeries] at hLeading
      rw [namesOfAll] at hLater
      have hPart :
          (part.run input callee index).outcome.isSettled =
            true := by
        apply run_isSettled hStays hKnown part index
        · intro name hName
          exact hLeading name (List.mem_append_left _ hName)
        · intro name hName
          exact hLater name (List.mem_append_left _ hName)
      rw [runSeries, Run.andThen_eq_resume]
      rcases Outcome.matched_or_failed hPart with
        ⟨mid, hOutcome⟩ | hOutcome
      · have hRange :=
          part.run_staysIn hStays index mid hOutcome
        rw [Run.resume_of_matched hOutcome,
          Run.outcome_after]
        by_cases hHere : mid = index
        · subst hHere
          have hNullable :=
            part.isNullable_of_run hStays
              (fun name => hKnown name mid) hOutcome
          simp only [hNullable, if_true] at hLeading
          apply
            runSeries_isSettled hStays hKnown parts mid
          · intro name hName
            exact
              hLeading name (List.mem_append_right _ hName)
          · intro name hName
            exact
              hLater name (List.mem_append_right _ hName)
        · apply
            runSeries_isSettled hStays hKnown parts mid
          · intro name hName
            apply hLater name _ mid (by omega) (by omega)
            exact
              List.mem_append_right _
                (leadingOfSeries_subset_names parts hName)
          · intro name hName i hLow hHigh
            exact
              hLater name (List.mem_append_right _ hName)
                i (by omega) hHigh
      · rw [Run.resume_of_failed hOutcome]
        rfl

theorem runFirst_isSettled
    (hStays :
      ∀ name i, (callee name i).StaysIn input.size i)
    (hKnown :
      ∀ name i,
        (callee name i).outcome = .matched i →
        name ∈ known) :
    ∀ (parts : List Element) (index : Nat),
      (∀ name ∈ leadingOfAll known parts,
        (callee name index).outcome.isSettled = true) →
      (∀ name ∈ namesOfAll parts, ∀ i,
        index < i → i ≤ input.size →
        (callee name i).outcome.isSettled = true) →
      (runFirst input callee parts index).outcome.isSettled =
        true
  | [], index, _, _ => by
      rw [runFirst]
      rfl
  | part :: parts, index, hLeading, hLater => by
      rw [leadingOfAll] at hLeading
      rw [namesOfAll] at hLater
      have hPart :
          (part.run input callee index).outcome.isSettled =
            true := by
        apply run_isSettled hStays hKnown part index
        · intro name hName
          exact hLeading name (List.mem_append_left _ hName)
        · intro name hName
          exact hLater name (List.mem_append_left _ hName)
      rw [runFirst, Run.orElse_eq_resume]
      rcases Outcome.matched_or_failed hPart with
        ⟨stop, hOutcome⟩ | hOutcome
      · rw [Run.resume_of_matched hOutcome]
        rfl
      · rw [Run.resume_of_failed hOutcome,
          Run.outcome_after]
        apply runFirst_isSettled hStays hKnown parts index
        · intro name hName
          exact
            hLeading name (List.mem_append_right _ hName)
        · intro name hName
          exact
            hLater name (List.mem_append_right _ hName)

end

end Element

end Abnf
