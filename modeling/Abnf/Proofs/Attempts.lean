import Abnf.Proofs.Lowering
import Abnf.Proofs.Pruning

/-
  Failed attempts in runs.

  A run is calm if its calls are tidy, and hushed where it
  does not match. Calm runs can be tried one after the other
  in a choice, but not in a series: a part that matches is
  reported even if a later one fails. A series or an
  iteration is tidy if what follows its match rules out such
  a failure, which is what the conditions on offsets below
  are for.

  Key definitions include:
    * `Abnf.Run.Hushed`
    * `Abnf.Run.Tidy`
    * `Abnf.Run.Calm`
    * `Abnf.Run.TidyUnless`

  Main declarations:
    * `Abnf.Element.run_hushed`
    * `Abnf.Element.tidy_runFirst`
    * `Abnf.Node.tidy_runCopies`
    * `Abnf.Scope.hushed_invoke`
-/

------------------------------------------------------------
-- Hushed, Tidy And Calm Runs
------------------------------------------------------------

namespace Abnf

namespace Run

/- No match of a loud rule is reported. -/
def Hushed
    (loud : String → Bool)
    (run : Run) : Prop :=
  Call.AllHushed loud run.calls

/- No match of a loud rule is reported in a failed call. -/
def Tidy
    (loud : String → Bool)
    (run : Run) : Prop :=
  Call.AllTidy loud run.calls

/- The run is tidy and can fail without a trace. -/
structure Calm
    (loud : String → Bool)
    (run : Run) : Prop where
  tidy : run.Tidy loud
  hushed : run.outcome.stop? = none → run.Hushed loud

variable {loud : String → Bool}

theorem hushed_quiet
    (outcome : Outcome) :
    (quiet outcome).Hushed loud := trivial

theorem hushed_after_iff
    {calls : List Call}
    {run : Run} :
    (after calls run).Hushed loud ↔
      Call.AllHushed loud calls ∧ run.Hushed loud :=
  Call.allHushed_append calls run.calls

theorem tidy_after_iff
    {calls : List Call}
    {run : Run} :
    (after calls run).Tidy loud ↔
      Call.AllTidy loud calls ∧ run.Tidy loud :=
  Call.allTidy_append calls run.calls

theorem Hushed.tidy
    {run : Run}
    (h : run.Hushed loud) : run.Tidy loud :=
  Call.AllHushed.allTidy h

theorem Hushed.calm
    {run : Run}
    (h : run.Hushed loud) : run.Calm loud :=
  ⟨h.tidy, fun _ => h⟩

/- A match is tidy, or `pending` holds of its end. -/
def TidyUnless
    (loud : String → Bool)
    (pending : Nat → Prop)
    (run : Run) : Prop :=
  ∀ stop, run.outcome = .matched stop →
    run.Tidy loud ∨ pending stop

/- A match of a rule is as tidy as that of its body. -/
theorem TidyUnless.reported
    {pending : Nat → Prop}
    {run : Run}
    (h : run.TidyUnless loud pending)
    (rule : String)
    (start : Nat) :
    (run.reported rule start).TidyUnless loud
      pending := by
  intro stop hStop
  rw [outcome_reported] at hStop
  rcases h stop hStop with hTidy | hPending
  · apply Or.inl
    simp only [Tidy, Run.reported, hStop, Outcome.stop?,
      Call.AllTidy, Call.Tidy]
    exact ⟨hTidy, trivial⟩
  · exact Or.inr hPending

/- A match with nothing pending is tidy. -/
theorem TidyUnless.tidy
    {run : Run}
    {stop : Nat}
    (h : run.TidyUnless loud (fun _ => False))
    (hStop : run.outcome = .matched stop) :
    run.Tidy loud := by
  rcases h stop hStop with hTidy | hNever
  · exact hTidy
  · exact hNever.elim

/- A rule with a calm body is calm. -/
theorem Calm.reported
    {run : Run}
    (h : run.Calm loud)
    (rule : String)
    (start : Nat) :
    (run.reported rule start).Calm loud := by
  cases hStop : run.outcome.stop? with
  | none =>
      apply Hushed.calm
      simp only [Hushed, Run.reported, hStop,
        Call.AllHushed, Call.Hushed]
      exact ⟨⟨by simp, h.hushed hStop⟩, trivial⟩
  | some stop =>
      constructor
      · simp only [Tidy, Run.reported, hStop, Call.AllTidy,
          Call.Tidy]
        exact ⟨h.tidy, trivial⟩
      · intro hNone
        rw [outcome_reported, hStop] at hNone
        cases hNone

end Run

end Abnf

------------------------------------------------------------
-- Series And Choices
------------------------------------------------------------

namespace Abnf

namespace Run

variable {loud : String → Bool}

/- Hushed runs put together are hushed. -/
theorem hushed_congruence
    (size : Nat) :
    Congruence size (fun _ run _ => run.Hushed loud) where
  stay _ := hushed_quiet _
  fail _ := hushed_quiet _
  advance _ _ := hushed_quiet _
  exhaust _ := hushed_quiet _
  resume := by
    intro _ run _ onMatch _ onFailure _
      hRun hMatch hFailure
    rcases run.matched_or_failed_or_not with
      ⟨stop, hOutcome⟩ | hOutcome | hSettled
    · rw [resume_of_matched hOutcome]
      exact
        hushed_after_iff.mpr ⟨hRun, hMatch stop hOutcome⟩
    · rw [resume_of_failed hOutcome]
      exact hushed_after_iff.mpr ⟨hRun, hFailure⟩
    · rw [resume_of_not_isSettled hSettled]
      exact hRun

/- A match of two parts has a match of the first one. -/
theorem exists_andThen_eq_after
    {run : Run}
    {next : Nat → Run}
    {stop : Nat}
    (h : (run.andThen next).outcome = .matched stop) :
    ∃ mid,
      run.outcome = .matched mid ∧
      (next mid).outcome = .matched stop ∧
      run.andThen next = after run.calls (next mid) := by
  cases hOutcome : run.outcome with
  | matched mid =>
      have hAfter :
          run.andThen next =
            after run.calls (next mid) := by
        simp [andThen, hOutcome]
      rw [hAfter] at h
      exact ⟨mid, rfl, h, hAfter⟩
  | failed => simp [andThen, hOutcome] at h
  | noRoutine i => simp [andThen, hOutcome] at h
  | tooDeep => simp [andThen, hOutcome] at h

/- If two parts fail, the first or the second one does. -/
theorem failed_or_exists_of_andThen
    {run : Run}
    {next : Nat → Run}
    (h : (run.andThen next).outcome = .failed) :
    (run.outcome = .failed ∧ run.andThen next = run) ∨
    ∃ mid,
      run.outcome = .matched mid ∧
      (next mid).outcome = .failed ∧
      run.andThen next = after run.calls (next mid) := by
  cases hOutcome : run.outcome with
  | matched mid =>
      have hAfter :
          run.andThen next =
            after run.calls (next mid) := by
        simp [andThen, hOutcome]
      rw [hAfter] at h
      exact Or.inr ⟨mid, rfl, h, hAfter⟩
  | failed => exact Or.inl ⟨rfl, by simp [andThen, hOutcome]⟩
  | noRoutine i => simp [andThen, hOutcome] at h
  | tooDeep => simp [andThen, hOutcome] at h

/- A calm part may stand behind a hushed one. -/
theorem Hushed.calm_andThen
    {run : Run}
    {next : Nat → Run}
    (hRun : run.Hushed loud)
    (hNext :
      ∀ mid, run.outcome = .matched mid →
        (next mid).Calm loud) :
    (run.andThen next).Calm loud := by
  cases hOutcome : run.outcome with
  | matched mid =>
      have hCalm := hNext mid hOutcome
      simp only [andThen, hOutcome]
      constructor
      · exact tidy_after_iff.mpr ⟨hRun.tidy, hCalm.tidy⟩
      · intro hStop
        exact
          hushed_after_iff.mpr ⟨hRun, hCalm.hushed hStop⟩
  | failed => simpa [andThen, hOutcome] using hRun.calm
  | noRoutine i => simpa [andThen, hOutcome] using hRun.calm
  | tooDeep => simpa [andThen, hOutcome] using hRun.calm

/- Calm parts make a calm choice. -/
theorem Calm.orElse
    {run : Run}
    {other : Unit → Run}
    (hRun : run.Calm loud)
    (hOther : (other ()).Calm loud) :
    (run.orElse other).Calm loud := by
  cases hOutcome : run.outcome with
  | matched stop => simpa [Run.orElse, hOutcome] using hRun
  | failed =>
      have hHushed : run.Hushed loud :=
        hRun.hushed (by rw [hOutcome]; rfl)
      simp only [Run.orElse, hOutcome]
      constructor
      · exact tidy_after_iff.mpr ⟨hRun.tidy, hOther.tidy⟩
      · intro hStop
        exact
          hushed_after_iff.mpr
            ⟨hHushed, hOther.hushed hStop⟩
  | noRoutine i => simpa [Run.orElse, hOutcome] using hRun
  | tooDeep => simpa [Run.orElse, hOutcome] using hRun

end Run

namespace Element

variable {loud : String → Bool}
variable {input : Array UInt8}
variable {callee : String → Nat → Run}

/- An element that names hushed rules is hushed. -/
theorem run_hushed
    (element : Element)
    (hCallee :
      ∀ name ∈ element.names, ∀ i,
        (callee name i).Hushed loud)
    (index : Nat) :
    (element.run input callee index).Hushed loud :=
  @run_congruence input _ callee callee
    (Run.hushed_congruence input.size) element index hCallee

/- A series that matches has matches of its parts. -/
theorem matched_of_runSeries
    {part : Element}
    {parts : List Element}
    {index stop : Nat}
    (h :
      (runSeries input callee (part :: parts)
        index).outcome = .matched stop) :
    ∃ mid,
      (part.run input callee index).outcome =
        .matched mid ∧
      (runSeries input callee parts mid).outcome =
        .matched stop ∧
      ((part.run input callee index).Tidy loud →
        (runSeries input callee parts mid).Tidy loud →
        (runSeries input callee (part :: parts)
          index).Tidy loud) := by
  rw [runSeries] at h ⊢
  rcases Run.exists_andThen_eq_after h with
    ⟨mid, hPart, hParts, hAfter⟩
  refine ⟨mid, hPart, hParts, ?_⟩
  intro hTidy hRest
  rw [hAfter]
  exact Run.tidy_after_iff.mpr ⟨hTidy, hRest⟩

/- A series fails at its first part or behind it. -/
theorem failed_of_runSeries
    {part : Element}
    {parts : List Element}
    {index : Nat}
    (hPart : (part.run input callee index).Tidy loud)
    (h :
      (runSeries input callee (part :: parts)
        index).outcome = .failed) :
    (runSeries input callee (part :: parts)
      index).Tidy loud ∨
    ∃ mid,
      (part.run input callee index).outcome =
        .matched mid ∧
      (runSeries input callee parts mid).outcome =
        .failed ∧
      ((runSeries input callee parts mid).Tidy loud →
        (runSeries input callee (part :: parts)
          index).Tidy loud) := by
  rw [runSeries] at h ⊢
  rcases Run.failed_or_exists_of_andThen h with
    ⟨_, hSame⟩ | ⟨mid, hMatched, hParts, hAfter⟩
  · rw [hSame]
    exact Or.inl hPart
  · refine Or.inr ⟨mid, hMatched, hParts, ?_⟩
    intro hRest
    rw [hAfter]
    exact Run.tidy_after_iff.mpr ⟨hPart, hRest⟩

/- Calm elements make a calm choice. -/
theorem calm_runFirst
    {parts : List Element}
    {index : Nat}
    (hParts :
      ∀ part ∈ parts,
        (part.run input callee index).Calm loud) :
    (runFirst input callee parts index).Calm loud := by
  induction parts with
  | nil => exact (Run.hushed_quiet .failed).calm
  | cons part parts ih =>
      rw [List.forall_mem_cons] at hParts
      rw [runFirst]
      exact hParts.1.orElse (ih hParts.2)

/- Some part of a choice that matches does. -/
theorem exists_matched_of_runFirst
    {parts : List Element}
    {index stop : Nat}
    (h :
      (runFirst input callee parts index).outcome =
        .matched stop) :
    ∃ part ∈ parts,
      (part.run input callee index).outcome =
        .matched stop := by
  induction parts with
  | nil => cases h
  | cons part parts ih =>
      rw [runFirst, Run.orElse] at h
      split at h
      · rcases ih h with ⟨other, hOther, hStop⟩
        exact
          ⟨other, List.mem_cons_of_mem part hOther, hStop⟩
      · exact ⟨part, List.mem_cons_self, h⟩

/- Tidy elements make a tidy choice. -/
theorem tidy_runFirst
    {parts : List Element}
    {index : Nat}
    (hParts :
      ∀ part ∈ parts,
        (part.run input callee index).Tidy loud) :
    (runFirst input callee parts index).Tidy loud := by
  induction parts with
  | nil => exact trivial
  | cons part parts ih =>
      rw [List.forall_mem_cons] at hParts
      rw [runFirst, Run.orElse]
      split
      · exact
          Run.tidy_after_iff.mpr ⟨hParts.1, ih hParts.2⟩
      · exact hParts.1

end Element

end Abnf

------------------------------------------------------------
-- Iterations
------------------------------------------------------------

namespace Abnf

namespace Node

variable {loud : String → Bool}
variable {size : Nat}
variable {step : Nat → Run}

/- An iteration that can make no copy ends where it is. -/
theorem stop_of_runCopies
    {min : Nat}
    {max : Option Nat}
    {allowance count index stop : Nat}
    (hStep : (step index).outcome = .failed)
    (h :
      (runCopies step min max
        allowance count index).outcome = .matched stop) :
    stop = index := by
  cases allowance with
  | zero => cases h
  | succ allowance =>
      rw [runCopies_succ] at h
      split at h
      · exact (endCopies_eq_matched h).2.symm
      · rw [Run.resume_of_failed hStep] at h
        exact (endCopies_eq_matched h).2.symm

/-
  An iteration is tidy unless something is pending at its
  end, if its copies are tidy or leave off where something
  is pending and no further copy can be made, and if a copy
  that fails is tidy or is tried where something is pending.
  The copies start at or behind `low`.
-/
theorem tidy_runCopies
    {pending : Nat → Prop}
    {low : Nat}
    (hStays : ∀ index, (step index).StaysIn size index)
    (hMatch :
      ∀ index next, low ≤ index →
        (step index).outcome = .matched next →
        (step index).Tidy loud ∨
        (pending next ∧ (step next).outcome = .failed))
    (hFail :
      ∀ index, low ≤ index →
        (step index).outcome = .failed →
        (step index).Tidy loud ∨ pending index)
    {min : Nat}
    {max : Option Nat}
    {allowance count index : Nat}
    (hLow : low ≤ index) :
    (runCopies step min max
      allowance count index).TidyUnless loud pending := by
  intro stop h
  induction allowance generalizing count index with
  | zero => cases h
  | succ allowance ih =>
      have hRound :=
        round_runCopies step min max allowance count index
      generalize runCopies step min max (allowance + 1)
        count index = run at h hRound ⊢
      cases hRound with
      | full hFull => exact .inl trivial
      | still hBelow hStill =>
          rw [hStill] at h
          cases h
          exact
            (hMatch _ _ hLow hStill).imp_right And.left
      | moved hBelow hMoved hNext =>
          have hOrder := (hStays index _ hMoved).1
          rcases hMatch index _ hLow hMoved with
            hTidy | ⟨hOpen, hLast⟩
          · exact
              (ih (Nat.le_trans hLow hOrder) h).imp_left
                fun hRest =>
                  Run.tidy_after_iff.mpr ⟨hTidy, hRest⟩
          · rw [stop_of_runCopies hLast h]
            exact .inr hOpen
      | ended hBelow hFailed =>
          rw [← (endCopies_eq_matched h).2]
          exact
            (hFail index hLow hFailed).imp_left
              fun hTidy =>
                Run.tidy_after_iff.mpr ⟨hTidy, trivial⟩
      | broken hBelow hBroken =>
          rw [h] at hBroken
          cases hBroken

/- Iterations with fewer copies at least end alike. -/
theorem runCopies_zero_of_matched
    {min : Nat}
    {max : Option Nat}
    {allowance count index stop : Nat}
    (h :
      (runCopies step min max
        allowance count index).outcome = .matched stop) :
    (runCopies step 0 max allowance count index).outcome =
      .matched stop := by
  have hEnd :
      ∀ {count index},
        endCopies min count index = .matched stop →
        endCopies 0 count index = .matched stop := by
    intro count index hMatched
    rw [(endCopies_eq_matched hMatched).2]
    rfl
  induction allowance generalizing count index with
  | zero => cases h
  | succ allowance ih =>
      rw [runCopies_succ] at h ⊢
      split at h
      · rename_i hLimit
        rw [if_pos hLimit]
        exact hEnd h
      · rename_i hLimit
        rw [if_neg hLimit]
        cases hOutcome : (step index).outcome with
        | matched next =>
            rw [Run.resume_of_matched hOutcome,
              Run.outcome_after] at h ⊢
            split at h
            · rename_i hStay
              rw [if_pos hStay]
              exact h
            · rename_i hMove
              rw [if_neg hMove]
              exact ih h
        | failed =>
            rw [Run.resume_of_failed hOutcome] at h ⊢
            exact hEnd h
        | noRoutine i => simp [Run.resume, hOutcome] at h
        | tooDeep => simp [Run.resume, hOutcome] at h

end Node

end Abnf

------------------------------------------------------------
-- Hushed Rules
------------------------------------------------------------

namespace Abnf

/-
  Rules that are not loud and name only each other are
  hushed, whether they match or not.
-/
theorem Scope.hushed_invoke
    {loud : String → Bool}
    {scope : Scope}
    {names : List String}
    (hLoud : ∀ name ∈ names, loud name = false)
    (hClosed :
      ∀ name ∈ names, ∀ rule,
        scope.find? name = some rule →
        rule.element.names ⊆ names)
    (input : Array UInt8)
    (depth : Nat)
    {name : String}
    (hName : name ∈ names)
    (start : Nat) :
    (scope.invoke input depth name start).Hushed loud := by
  induction depth generalizing name start with
  | zero => exact Run.hushed_quiet .tooDeep
  | succ depth ih =>
      cases hRule : scope.find? name with
      | none =>
          rw [invoke, hRule]
          exact Run.hushed_quiet (.noRoutine 0)
      | some rule =>
          have hBody :
              (rule.element.run input
                (scope.invoke input depth) start).Hushed
                  loud := by
            apply Element.run_hushed
            intro callee hCallee i
            exact ih (hClosed name hName rule hRule hCallee) i
          rw [invoke_succ hRule, report]
          split
          · simp only [Run.Hushed, Run.reported,
              Call.AllHushed, Call.Hushed]
            exact ⟨⟨fun _ => hLoud name hName, hBody⟩, trivial⟩
          · exact Run.hushed_quiet _

end Abnf
