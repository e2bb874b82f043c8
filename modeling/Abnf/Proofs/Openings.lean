import Abnf.Proofs.Attempts

/-
  The bytes with which rules can start.

  `Element.opens` tells from the next byte of a text, or its
  lack, whether an element can take a byte or call a rule
  that can. If not, the element fails or takes nothing, and
  either way reports no match. `Scope.opens` looks through
  the names of rules to a given depth.

  Key definitions include:
    * `Abnf.Element.opens`
    * `Abnf.Scope.opens`

  Main declarations:
    * `Abnf.Element.run_of_not_opens`
    * `Abnf.Scope.invoke_of_not_opens`
-/

------------------------------------------------------------
-- Openings
------------------------------------------------------------

namespace Abnf

namespace Element

mutual

/-
  The element can take a byte, given the names of rules that
  can.
-/
def opens
    (byte : Option UInt8)
    (callee : String → Bool) : Element → Bool
  | ruleName name => callee name
  | terminal s => byte.any s.containsByte
  | repetition _ _ body => opens byte callee body
  | concatenation parts => opensSeries byte callee parts
  | alternation parts => opensFirst byte callee parts

/- The same for elements one after the other. -/
def opensSeries
    (byte : Option UInt8)
    (callee : String → Bool) : List Element → Bool
  | [] => false
  | part :: parts =>
      opens byte callee part ||
        (isNullable [] part &&
          opensSeries byte callee parts)

/- The same for the first element that matches. -/
def opensFirst
    (byte : Option UInt8)
    (callee : String → Bool) : List Element → Bool
  | [] => false
  | part :: parts =>
      opens byte callee part ||
        opensFirst byte callee parts

end

end Element

/-
  The rule of a name can take a byte, as far as can be told
  from some levels of rules.
-/
def Scope.opens
    (scope : Scope)
    (byte : Option UInt8) :
    Nat → String → Bool
  | 0, _ => true
  | level + 1, name =>
      match scope.find? name with
      | none => true
      | some rule =>
          rule.element.isNullable [] ||
            rule.element.opens byte (opens scope byte level)

end Abnf

------------------------------------------------------------
-- Elements That Do Not Open
------------------------------------------------------------

namespace Abnf

namespace Run

/-
  The run reports no match of a loud rule, and it fails, or
  takes nothing if it may.
-/
structure Idle
    (loud : String → Bool)
    (mayStay : Bool)
    (index : Nat)
    (run : Run) : Prop where
  hushed : run.Hushed loud
  outcome :
    run.outcome = .failed ∨
      (mayStay = true ∧ run.outcome = .matched index)

variable {loud : String → Bool}
variable {mayStay mayStay' : Bool}
variable {index : Nat}

theorem idle_failed :
    (quiet .failed).Idle loud mayStay index :=
  ⟨trivial, Or.inl rfl⟩

theorem idle_matched :
    (quiet (.matched index)).Idle loud true index :=
  ⟨trivial, Or.inr ⟨rfl, rfl⟩⟩

/- An idle run that may not stay fails. -/
theorem Idle.failed
    {run : Run}
    (h : run.Idle loud false index) :
    run.outcome = .failed := by
  rcases h.outcome with hFailed | hStay
  · exact hFailed
  · cases hStay.1

theorem Idle.andThen
    {run : Run}
    {next : Nat → Run}
    (hRun : run.Idle loud mayStay index)
    (hNext :
      mayStay = true →
        (next index).Idle loud mayStay' index) :
    (run.andThen next).Idle loud (mayStay && mayStay')
      index := by
  rcases hRun.outcome with hFailed | ⟨hStay, hMatched⟩
  · simp only [Run.andThen, hFailed]
    exact ⟨hRun.hushed, Or.inl hFailed⟩
  · have hAfter := hNext hStay
    simp only [Run.andThen, hMatched, hStay, Bool.true_and]
    exact
      ⟨hushed_after_iff.mpr ⟨hRun.hushed, hAfter.hushed⟩,
        hAfter.outcome⟩

theorem Idle.orElse
    {run : Run}
    {other : Unit → Run}
    (hRun : run.Idle loud mayStay index)
    (hOther : (other ()).Idle loud mayStay' index) :
    (run.orElse other).Idle loud (mayStay || mayStay')
      index := by
  rcases hRun.outcome with hFailed | ⟨hStay, hMatched⟩
  · simp only [Run.orElse, hFailed]
    refine
      ⟨hushed_after_iff.mpr ⟨hRun.hushed, hOther.hushed⟩, ?_⟩
    rcases hOther.outcome with hFailed' | ⟨hStay, hMatched⟩
    · exact Or.inl hFailed'
    · exact Or.inr ⟨by simp [hStay], hMatched⟩
  · simp only [Run.orElse, hMatched]
    exact ⟨hRun.hushed, Or.inr ⟨by simp [hStay], hMatched⟩⟩

end Run

namespace Node

variable {loud : String → Bool}
variable {mayStay : Bool}
variable {index : Nat}

/- Copies that are idle make an idle iteration. -/
theorem idle_runCopies
    {step : Nat → Run}
    (hStep : (step index).Idle loud mayStay index)
    (min : Nat)
    (max : Option Nat)
    (allowance : Nat) :
    (runCopies step min max (allowance + 1) 0 index).Idle
      loud (min == 0 || mayStay) index := by
  have hEnd :
      (Run.quiet (endCopies min 0 index)).Idle loud
        (min == 0 || mayStay) index := by
    unfold endCopies
    split
    · exact Run.idle_failed
    · rename_i hMin
      have hZero : min = 0 := by omega
      subst hZero
      exact Run.idle_matched
  rw [runCopies_succ]
  split
  · exact hEnd
  · rcases hStep.outcome with hFailed | ⟨hStay, hMatched⟩
    · rw [Run.resume_of_failed hFailed]
      exact
        ⟨Run.hushed_after_iff.mpr
            ⟨hStep.hushed, hEnd.hushed⟩,
          hEnd.outcome⟩
    · rw [Run.resume_of_matched hMatched, if_pos rfl]
      exact
        ⟨Run.hushed_after_iff.mpr ⟨hStep.hushed, trivial⟩,
          Or.inr ⟨by simp [hStay], rfl⟩⟩

end Node

namespace Element

variable {loud : String → Bool}
variable {input : Array UInt8}
variable {index : Nat}
variable {callee : String → Nat → Run}
variable {opening : String → Bool}

/- A set without the next byte takes nothing. -/
theorem idle_runSet
    {s : CharSet}
    (h : input[index]?.any s.containsByte = false) :
    (Run.quiet (runSet input s index)).Idle loud
      s.isEmpty index := by
  unfold runSet
  split
  · rename_i hEmpty
    rw [hEmpty]
    exact Run.idle_matched
  · cases hByte : input[index]? with
    | none => exact Run.idle_failed
    | some b =>
        rw [hByte] at h
        simp only [Option.any_some] at h
        simp only [h, Bool.false_eq_true, if_false]
        exact Run.idle_failed

mutual

/-
  An element that does not open is idle, if the rules that
  do not open are.
-/
theorem run_of_not_opens
    (hCallee :
      ∀ name, opening name = false →
        (callee name index).Idle loud false index) :
    ∀ element : Element,
      element.opens input[index]? opening = false →
      (element.run input callee index).Idle loud
        (element.isNullable []) index
  | ruleName name, h => by
      rw [opens] at h
      rw [run]
      exact hCallee name h
  | terminal s, h => by
      rw [opens] at h
      rw [run, isNullable]
      exact idle_runSet h
  | repetition min max body, h => by
      rw [opens] at h
      rw [run, isNullable]
      exact
        Node.idle_runCopies
          (run_of_not_opens hCallee body h) min max _
  | concatenation parts, h => by
      rw [opens] at h
      rw [run, isNullable]
      exact runSeries_of_not_opens hCallee parts h
  | alternation parts, h => by
      rw [opens] at h
      rw [run, isNullable]
      exact runFirst_of_not_opens hCallee parts h

/- The same for elements one after the other. -/
theorem runSeries_of_not_opens
    (hCallee :
      ∀ name, opening name = false →
        (callee name index).Idle loud false index) :
    ∀ parts : List Element,
      opensSeries input[index]? opening parts = false →
      (runSeries input callee parts index).Idle loud
        (allNullable [] parts) index
  | [], _ => Run.idle_matched
  | part :: parts, h => by
      rw [opensSeries, Bool.or_eq_false_iff] at h
      rw [runSeries, allNullable]
      apply (run_of_not_opens hCallee part h.1).andThen
      intro hStay
      apply runSeries_of_not_opens hCallee parts
      simpa [hStay] using h.2

/- The same for the first element that matches. -/
theorem runFirst_of_not_opens
    (hCallee :
      ∀ name, opening name = false →
        (callee name index).Idle loud false index) :
    ∀ parts : List Element,
      opensFirst input[index]? opening parts = false →
      (runFirst input callee parts index).Idle loud
        (anyNullable [] parts) index
  | [], _ => Run.idle_failed
  | part :: parts, h => by
      rw [opensFirst, Bool.or_eq_false_iff] at h
      rw [runFirst, anyNullable]
      exact
        (run_of_not_opens hCallee part h.1).orElse
          (runFirst_of_not_opens hCallee parts h.2)

end

end Element

end Abnf

------------------------------------------------------------
-- Rules That Do Not Open
------------------------------------------------------------

namespace Abnf

namespace Scope

variable {scope : Scope}
variable {input : Array UInt8}
variable {depth : Nat}

/- What a rule shows of an idle run that fails is idle. -/
theorem idle_report
    {loud : String → Bool}
    {index : Nat}
    {run : Run}
    (h : run.Idle loud false index)
    (name : String)
    (start : Nat) :
    (scope.report name start run).Idle loud false index := by
  refine ⟨?_, Or.inl ?_⟩
  · unfold report
    split
    · exact (h.hushed.calm.reported name start).hushed
        (by rw [Run.outcome_reported, h.failed]; rfl)
    · exact Run.hushed_quiet _
  · rw [outcome_report]
    exact h.failed

/-
  A rule that does not open fails without a trace, if the
  runs of the rules do not depend on the depth any more.
-/
theorem invoke_of_not_opens
    {loud : String → Bool}
    (hDeep :
      scope.invoke input (depth + 1) =
        scope.invoke input depth)
    {level : Nat}
    {name : String}
    {index : Nat}
    (h : scope.opens input[index]? level name = false) :
    (scope.invoke input depth name index).Idle loud false
      index := by
  induction level generalizing name with
  | zero => cases h
  | succ level ih =>
      rw [opens] at h
      cases hRule : scope.find? name with
      | none =>
          rw [hRule] at h
          cases h
      | some rule =>
          simp only [hRule, Bool.or_eq_false_iff] at h
          have hIdle :=
            rule.element.run_of_not_opens
              (fun callee hCallee => @ih callee hCallee) h.2
          rw [h.1] at hIdle
          rw [← hDeep, invoke_succ hRule]
          exact idle_report hIdle name index

end Scope

end Abnf
