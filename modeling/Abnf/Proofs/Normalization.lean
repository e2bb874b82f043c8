import Abnf.Proofs.Selection

/-
  The normal form of an element runs like the element.

  Normalizing keeps which elements are nullable, the calls
  before any input, and every run with all that it reports.
  It drops references only where no copy is made.

  Main declarations:
    * `Abnf.Rule.isRewrite_normalize`
    * `Abnf.Element.run_normalize`
-/

------------------------------------------------------------
-- Unions
------------------------------------------------------------

namespace Abnf

namespace CharSet

/- A union is empty when both sides are. -/
theorem isEmpty_union
    (s t : CharSet) :
    (s ∪ t).isEmpty = (s.isEmpty && t.isEmpty) := by
  change (union s t).isEmpty = _
  rw [Bool.eq_iff_iff]
  simp only [isEmpty, union, Bool.and_eq_true, beq_iff_eq,
    BitVec.ofNat_eq_ofNat, BitVec.or_eq_zero_iff]
  constructor
  · rintro ⟨⟨hLow, hLow'⟩, ⟨hHigh, hHigh'⟩⟩
    exact ⟨⟨hLow, hHigh⟩, ⟨hLow', hHigh'⟩⟩
  · rintro ⟨⟨hLow, hHigh⟩, ⟨hLow', hHigh'⟩⟩
    exact ⟨⟨hLow, hLow'⟩, ⟨hHigh, hHigh'⟩⟩

end CharSet

end Abnf

------------------------------------------------------------
-- Calls Of Normal Forms
------------------------------------------------------------

namespace Abnf

namespace Element

variable (known : List String)

theorem isNullable_collapse_concatenation
    (parts : List Element) :
    (collapse concatenation parts).isNullable known =
      allNullable known parts := by
  unfold collapse
  split
  · simp [allNullable]
  · rw [isNullable]

theorem isNullable_collapse_alternation
    (parts : List Element) :
    (collapse alternation parts).isNullable known =
      anyNullable known parts := by
  unfold collapse
  split
  · simp [anyNullable]
  · rw [isNullable]

/-
  Sets that merge are not nullable, and neither is their
  union.
-/
theorem anyNullable_mergeNext
    (part : Element)
    (rest : List Element) :
    anyNullable known (mergeNext part rest) =
      (part.isNullable known || anyNullable known rest) := by
  unfold mergeNext
  split
  · split
    · rw [anyNullable]
    · rename_i s t rest hMerge
      simp only [Bool.or_eq_true, not_or,
        Bool.not_eq_true] at hMerge
      simp [anyNullable, isNullable,
        CharSet.isEmpty_union, hMerge.1, hMerge.2]
  · rw [anyNullable]

theorem anyNullable_mergeTerminals
    (parts : List Element) :
    anyNullable known (mergeTerminals parts) =
      anyNullable known parts := by
  induction parts with
  | nil => rfl
  | cons part parts ih =>
      rw [mergeTerminals, List.foldr_cons,
        anyNullable_mergeNext, anyNullable]
      rw [mergeTerminals] at ih
      rw [ih]

mutual

/- The normal form is nullable when the element is. -/
theorem isNullable_normalize :
    ∀ element : Element,
      element.normalize.isNullable known =
        element.isNullable known
  | ruleName name => by rw [normalize]
  | terminal s => by rw [normalize]
  | repetition min max body => by
      rw [normalize, normalRepetition, isNullable]
      split
      · rename_i hNone
        simp [hNone.1, empty, isNullable, CharSet.isEmpty,
          CharSet.empty]
      · split
        · rename_i hOne
          simp [hOne.1, isNullable_normalize body]
        · rw [isNullable, isNullable_normalize body]
  | concatenation parts => by
      rw [normalize, isNullable_collapse_concatenation,
        isNullable, allNullable_normalizeAll parts]
  | alternation parts => by
      rw [normalize, isNullable_collapse_alternation,
        anyNullable_mergeTerminals, isNullable,
        anyNullable_normalizeAll parts]

theorem allNullable_normalizeAll :
    ∀ parts : List Element,
      allNullable known (normalizeAll parts) =
        allNullable known parts
  | [] => by rw [normalizeAll]
  | part :: parts => by
      rw [normalizeAll, allNullable, allNullable,
        isNullable_normalize part,
        allNullable_normalizeAll parts]

theorem anyNullable_normalizeAll :
    ∀ parts : List Element,
      anyNullable known (normalizeAll parts) =
        anyNullable known parts
  | [] => by rw [normalizeAll]
  | part :: parts => by
      rw [normalizeAll, anyNullable, anyNullable,
        isNullable_normalize part,
        anyNullable_normalizeAll parts]

end

theorem leading_collapse_concatenation
    (parts : List Element) :
    (collapse concatenation parts).leading known =
      leadingOfSeries known parts := by
  unfold collapse
  split
  · simp [leadingOfSeries]
  · rw [leading]

theorem leading_collapse_alternation
    (parts : List Element) :
    (collapse alternation parts).leading known =
      leadingOfAll known parts := by
  unfold collapse
  split
  · simp [leadingOfAll]
  · rw [leading]

theorem leadingOfAll_mergeNext
    (part : Element)
    (rest : List Element) :
    leadingOfAll known (mergeNext part rest) =
      part.leading known ++ leadingOfAll known rest := by
  unfold mergeNext
  split
  · split
    · rw [leadingOfAll]
    · simp [leadingOfAll, leading]
  · rw [leadingOfAll]

theorem leadingOfAll_mergeTerminals
    (parts : List Element) :
    leadingOfAll known (mergeTerminals parts) =
      leadingOfAll known parts := by
  induction parts with
  | nil => rfl
  | cons part parts ih =>
      rw [mergeTerminals, List.foldr_cons,
        leadingOfAll_mergeNext, leadingOfAll]
      rw [mergeTerminals] at ih
      rw [ih]

mutual

/- The normal form has the same calls before any input. -/
theorem leading_normalize :
    ∀ element : Element,
      element.normalize.leading known =
        element.leading known
  | ruleName name => by rw [normalize]
  | terminal s => by rw [normalize]
  | repetition min max body => by
      rw [normalize, normalRepetition, leading]
      split
      · rename_i hNone
        simp [hNone.2, empty, leading]
      · split
        · rename_i hOne
          simp [hOne.2, leading_normalize body]
        · rw [leading, leading_normalize body]
  | concatenation parts => by
      rw [normalize, leading_collapse_concatenation,
        leading, leadingOfSeries_normalizeAll parts]
  | alternation parts => by
      rw [normalize, leading_collapse_alternation,
        leadingOfAll_mergeTerminals, leading,
        leadingOfAll_normalizeAll parts]

theorem leadingOfSeries_normalizeAll :
    ∀ parts : List Element,
      leadingOfSeries known (normalizeAll parts) =
        leadingOfSeries known parts
  | [] => by rw [normalizeAll]
  | part :: parts => by
      rw [normalizeAll, leadingOfSeries, leadingOfSeries,
        leading_normalize part, isNullable_normalize,
        leadingOfSeries_normalizeAll parts]

theorem leadingOfAll_normalizeAll :
    ∀ parts : List Element,
      leadingOfAll known (normalizeAll parts) =
        leadingOfAll known parts
  | [] => by rw [normalizeAll]
  | part :: parts => by
      rw [normalizeAll, leadingOfAll, leadingOfAll,
        leading_normalize part,
        leadingOfAll_normalizeAll parts]

end

end Element

end Abnf

------------------------------------------------------------
-- Names Of Normal Forms
------------------------------------------------------------

namespace Abnf

namespace Element

theorem names_collapse
    {series : List Element → Element}
    (hSeries :
      ∀ parts, (series parts).names = namesOfAll parts)
    (parts : List Element) :
    (collapse series parts).names = namesOfAll parts := by
  unfold collapse
  split
  · simp [namesOfAll]
  · exact hSeries _

/- Merging sets of characters leaves the names. -/
theorem namesOfAll_mergeTerminals
    (parts : List Element) :
    namesOfAll (mergeTerminals parts) =
      namesOfAll parts := by
  have hNext :
      ∀ part rest,
        namesOfAll (mergeNext part rest) =
          part.names ++ namesOfAll rest := by
    intro part rest
    unfold mergeNext
    split
    · split
      · rw [namesOfAll]
      · simp [namesOfAll, names]
    · rw [namesOfAll]
  induction parts with
  | nil => rfl
  | cons part parts ih =>
      rw [mergeTerminals, List.foldr_cons, hNext,
        namesOfAll]
      rw [mergeTerminals] at ih
      rw [ih]

mutual

/- The normal form has no names of its own. -/
theorem names_normalize_subset :
    ∀ element : Element,
      element.normalize.names ⊆ element.names
  | ruleName name => by simp [normalize]
  | terminal s => by simp [normalize]
  | repetition min max body => by
      rw [normalize, normalRepetition, names]
      split
      · simp [empty, names]
      · split
        · exact names_normalize_subset body
        · rw [names]
          exact names_normalize_subset body
  | concatenation parts => by
      rw [normalize,
        names_collapse (fun parts => by rw [names]), names]
      exact namesOfAll_normalizeAll_subset parts
  | alternation parts => by
      rw [normalize,
        names_collapse (fun parts => by rw [names]),
        namesOfAll_mergeTerminals, names]
      exact namesOfAll_normalizeAll_subset parts

theorem namesOfAll_normalizeAll_subset :
    ∀ parts : List Element,
      namesOfAll (normalizeAll parts) ⊆ namesOfAll parts
  | [] => by rw [normalizeAll]; exact List.Subset.refl _
  | part :: parts => by
      rw [normalizeAll, namesOfAll, namesOfAll]
      exact
        List.append_subset.mpr
          ⟨List.subset_append_of_subset_left _
            (names_normalize_subset part),
          List.subset_append_of_subset_right _
            (namesOfAll_normalizeAll_subset parts)⟩

end

end Element

/- Normalizing a rule keeps what is known of its calls. -/
theorem Rule.isRewrite_normalize :
    Rule.IsRewrite Rule.normalize where
  name _ := rfl
  isNullable known rule :=
    Element.isNullable_normalize known rule.element
  leading known rule :=
    Element.leading_normalize known rule.element
  names rule :=
    Element.names_normalize_subset rule.element

end Abnf

------------------------------------------------------------
-- Runs Of Normal Forms
------------------------------------------------------------

namespace Abnf

namespace Run

theorem andThen_matched
    (run : Run) :
    run.andThen (fun stop => quiet (.matched stop)) =
      run := by
  cases hOutcome : run.outcome with
  | matched stop =>
      simp [andThen, hOutcome, after_quiet hOutcome]
  | failed => simp [andThen, hOutcome]
  | noRoutine index => simp [andThen, hOutcome]
  | tooDeep => simp [andThen, hOutcome]

theorem orElse_failed
    (run : Run) :
    run.orElse (fun _ => quiet .failed) = run := by
  cases hOutcome : run.outcome with
  | matched stop => simp [orElse, hOutcome]
  | failed => simp [orElse, hOutcome, after_quiet hOutcome]
  | noRoutine index => simp [orElse, hOutcome]
  | tooDeep => simp [orElse, hOutcome]

/- What follows a quiet failure is all there is. -/
theorem orElse_quiet_failed
    (other : Unit → Run) :
    (quiet .failed).orElse other = other () := by
  simp [orElse, quiet, after]

theorem orElse_quiet_matched
    (stop : Nat)
    (other : Unit → Run) :
    (quiet (.matched stop)).orElse other =
      quiet (.matched stop) := by
  simp [orElse, quiet]

end Run

namespace Node

/- An iteration of no copies stays where it is. -/
theorem runCopies_none
    (step : Nat → Run)
    (allowance index : Nat) :
    runCopies step 0 (some 0) (allowance + 1) 0 index =
      .quiet (.matched index) := by
  simp [runCopies_succ, atLimit, endCopies]

/-
  An iteration of one copy is that copy. A copy that takes
  input ends within the text, so the allowance covers the
  look at the limit behind it.
-/
theorem runCopies_one
    {size : Nat}
    {step : Nat → Run}
    (hStays : ∀ i, (step i).StaysIn size i)
    (index : Nat) :
    runCopies step 1 (some 1)
        (size - index + 1) 0 index =
      step index := by
  rw [runCopies_succ]
  cases hOutcome : (step index).outcome with
  | matched next =>
      rw [Run.resume_of_matched hOutcome]
      by_cases hNext : next = index
      · subst hNext
        simp [atLimit, Run.after_quiet hOutcome]
      · have hRange := hStays index next hOutcome
        have hAllowance :
            size - index = (size - index - 1) + 1 := by
          omega
        rw [hAllowance, runCopies_succ]
        simp [hNext, atLimit, endCopies,
          Run.after_quiet hOutcome]
  | failed =>
      rw [Run.resume_of_failed hOutcome]
      simp [atLimit, endCopies, Run.after_quiet hOutcome]
  | noRoutine i => simp [Run.resume, hOutcome, atLimit]
  | tooDeep => simp [Run.resume, hOutcome, atLimit]

end Node

namespace Element

variable {input : Array UInt8}
variable {callee : String → Nat → Run}

/- A union takes what either of two sets takes. -/
theorem runFirst_union
    {s t : CharSet}
    (hLeft : s.isEmpty = false)
    (hRight : t.isEmpty = false)
    (rest : List Element)
    (index : Nat) :
    runFirst input callee
        (terminal (s ∪ t) :: rest) index =
      runFirst input callee
        (terminal s :: terminal t :: rest) index := by
  have hContains :
      ∀ b, (s ∪ t).containsByte b =
        (s.containsByte b || t.containsByte b) := by
    intro b
    exact CharSet.hasCode_union s t b.toNat
  simp only [runFirst, run, runSet, CharSet.isEmpty_union,
    hLeft, hRight, Bool.and_self, Bool.false_eq_true,
    if_false]
  cases hByte : input[index]? with
  | none => simp [Run.orElse_quiet_failed]
  | some b =>
      cases hS : s.containsByte b with
      | true =>
          simp [hContains, hS, Run.orElse_quiet_matched]
      | false =>
          simp [hContains, hS, Run.orElse_quiet_failed]

theorem runFirst_mergeTerminals
    (parts : List Element)
    (index : Nat) :
    runFirst input callee (mergeTerminals parts) index =
      runFirst input callee parts index := by
  have hNext :
      ∀ part rest,
        runFirst input callee (mergeNext part rest) index =
          runFirst input callee (part :: rest) index := by
    intro part rest
    unfold mergeNext
    split
    · split
      · rfl
      · rename_i s t rest hMerge
        simp only [Bool.or_eq_true, not_or,
          Bool.not_eq_true] at hMerge
        exact runFirst_union hMerge.1 hMerge.2 rest index
    · rfl
  induction parts with
  | nil => rfl
  | cons part parts ih =>
      rw [mergeTerminals, List.foldr_cons, hNext, runFirst,
        runFirst]
      rw [mergeTerminals] at ih
      rw [ih]

theorem run_collapse_concatenation
    (parts : List Element)
    (index : Nat) :
    (collapse concatenation parts).run input callee index =
      runSeries input callee parts index := by
  unfold collapse
  split
  · simp [runSeries, Run.andThen_matched]
  · rw [run]

theorem run_collapse_alternation
    (parts : List Element)
    (index : Nat) :
    (collapse alternation parts).run input callee index =
      runFirst input callee parts index := by
  unfold collapse
  split
  · simp [runFirst, Run.orElse_failed]
  · rw [run]

mutual

/- The normal form of an element runs like the element. -/
theorem run_normalize
    (hStays :
      ∀ name i, (callee name i).StaysIn input.size i) :
    ∀ (element : Element) (index : Nat),
      element.normalize.run input callee index =
        element.run input callee index
  | ruleName name, index => by rw [normalize]
  | terminal s, index => by rw [normalize]
  | repetition min max body, index => by
      have hBody :
          (fun i => body.normalize.run input callee i) =
            (fun i => body.run input callee i) := by
        funext i
        exact run_normalize hStays body i
      rw [normalize, normalRepetition, run]
      split
      · rename_i hNone
        rw [hNone.1, hNone.2, Node.runCopies_none, empty,
          run]
        simp [runSet, CharSet.isEmpty, CharSet.empty]
      · split
        · rename_i hOne
          rw [hOne.1, hOne.2,
            Node.runCopies_one (body.run_staysIn hStays)]
          exact run_normalize hStays body index
        · rw [run, hBody]
  | concatenation parts, index => by
      rw [normalize, run_collapse_concatenation, run]
      exact runSeries_normalizeAll hStays parts index
  | alternation parts, index => by
      rw [normalize, run_collapse_alternation,
        runFirst_mergeTerminals, run]
      exact runFirst_normalizeAll hStays parts index

theorem runSeries_normalizeAll
    (hStays :
      ∀ name i, (callee name i).StaysIn input.size i) :
    ∀ (parts : List Element) (index : Nat),
      runSeries input callee (normalizeAll parts) index =
        runSeries input callee parts index
  | [], index => by rw [normalizeAll]
  | part :: parts, index => by
      have hParts :
          (fun next =>
              runSeries input callee
                (normalizeAll parts) next) =
            (fun next =>
              runSeries input callee parts next) := by
        funext next
        exact runSeries_normalizeAll hStays parts next
      rw [normalizeAll, runSeries, runSeries, hParts,
        run_normalize hStays part index]

theorem runFirst_normalizeAll
    (hStays :
      ∀ name i, (callee name i).StaysIn input.size i) :
    ∀ (parts : List Element) (index : Nat),
      runFirst input callee (normalizeAll parts) index =
        runFirst input callee parts index
  | [], index => by rw [normalizeAll]
  | part :: parts, index => by
      rw [normalizeAll, runFirst, runFirst,
        run_normalize hStays part index,
        runFirst_normalizeAll hStays parts index]

end

end Element

/-
  Rules run alike before and after a change that keeps the
  names of rules and the runs of their elements.
-/
theorem Scope.invoke_map
    {rewrite : Rule → Rule}
    (hName : ∀ rule, (rewrite rule).name = rule.name)
    (hRun :
      ∀ (rule : Rule) (input : Array UInt8)
          (callee : String → Nat → Run),
        (∀ name i, (callee name i).StaysIn input.size i) →
        ∀ start,
          (rewrite rule).element.run input callee start =
            rule.element.run input callee start)
    (scope : Scope) :
    (scope.map rewrite).invoke = scope.invoke := by
  funext input depth name start
  induction depth generalizing name start with
  | zero => rfl
  | succ depth ih =>
      have hCallee :
          (scope.map rewrite).invoke input depth =
            scope.invoke input depth := by
        funext name start
        exact ih name start
      have hOwn :
          hasName (scope.map rewrite).own name =
            hasName scope.own name :=
        hasName_map hName scope.own name
      have hFind := find?_map hName scope name
      cases hRule : scope.find? name with
      | none =>
          rw [hRule] at hFind
          simp [invoke, hRule, hFind]
      | some rule =>
          rw [hRule] at hFind
          rw [invoke_succ hFind, invoke_succ hRule, hCallee,
            report, report, hOwn,
            hRun rule input (scope.invoke input depth)
              (scope.invoke_staysIn input depth) start]

/- Rules run alike before and after normalizing. -/
theorem Scope.invoke_normalize
    (scope : Scope) :
    (scope.map Rule.normalize).invoke = scope.invoke := by
  apply invoke_map Rule.isRewrite_normalize.name
  intro rule input callee hStays start
  exact rule.element.run_normalize hStays start

end Abnf
