import Abnf.Program

/-
  Runs of elements.

  The run of an element is that of the node made from it,
  with names in the place of indices and sets in the place
  of tests. Every way of putting runs together is a case of
  `Run.resume`, so a relation between runs that `resume`
  keeps holds between the runs of an element whenever it
  holds between the runs of the rules that it names.

  Key definitions include:
    * `Abnf.Outcome.isSettled`
    * `Abnf.Run.resume`
    * `Abnf.Node.Round`
    * `Abnf.Run.Composes`
    * `Abnf.Run.Congruence`
    * `Abnf.Run.StaysIn`
    * `Abnf.Element.run`

  Main declarations:
    * `Abnf.Node.round_runCopies`
    * `Abnf.Element.run_composes`
    * `Abnf.Element.run_congruence`
    * `Abnf.Element.run_staysIn`
    * `Abnf.Element.run_silent`
    * `Abnf.Element.run_of_isSettled`
-/

------------------------------------------------------------
-- Outcomes
------------------------------------------------------------

namespace Abnf

namespace Outcome

/- The outcome for the end of a match, if there is one. -/
def ofStop : Option Nat → Outcome
  | some stop => matched stop
  | none => failed

/- The outcome is a match or the lack of one. -/
def isSettled : Outcome → Bool
  | matched _ => true
  | failed => true
  | _ => false

@[simp] theorem isSettled_matched
    (stop : Nat) :
    (matched stop).isSettled = true := rfl

@[simp] theorem isSettled_failed :
    failed.isSettled = true := rfl

@[simp] theorem isSettled_ofStop
    (stop : Option Nat) :
    (ofStop stop).isSettled = true := by
  cases stop <;> rfl

/- A settled outcome is given by the end of the match. -/
theorem eq_ofStop_of_isSettled
    {outcome : Outcome}
    (hSettled : outcome.isSettled = true) :
    outcome = ofStop outcome.stop? := by
  cases outcome with
  | matched stop => rfl
  | failed => rfl
  | noRoutine index => simp [isSettled] at hSettled
  | tooDeep => simp [isSettled] at hSettled

/- A settled outcome is a match or the lack of one. -/
theorem matched_or_failed
    {outcome : Outcome}
    (hSettled : outcome.isSettled = true) :
    (∃ stop, outcome = matched stop) ∨ outcome = failed := by
  cases outcome with
  | matched stop => exact .inl ⟨stop, rfl⟩
  | failed => exact .inr rfl
  | noRoutine index => simp [isSettled] at hSettled
  | tooDeep => simp [isSettled] at hSettled

/- A match and the lack of one are told apart. -/
theorem ofStop_injective
    {stop stop' : Option Nat}
    (h : ofStop stop = ofStop stop') :
    stop = stop' := by
  cases stop <;> cases stop' <;> simp_all [ofStop]

end Outcome

end Abnf

------------------------------------------------------------
-- Ways Of Putting Runs Together
------------------------------------------------------------

namespace Abnf

namespace Run

/-
  Go on after a run: one way from the end of a match, and
  another way if there is no match.
-/
def resume
    (run : Run)
    (onMatch : Nat → Run)
    (onFailure : Run) : Run :=
  match run.outcome with
  | .matched stop => after run.calls (onMatch stop)
  | .failed => after run.calls onFailure
  | _ => run

theorem after_quiet
    {run : Run}
    {outcome : Outcome}
    (h : run.outcome = outcome) :
    after run.calls (quiet outcome) = run := by
  subst h
  simp [after, quiet]

theorem resume_of_matched
    {run : Run}
    {stop : Nat}
    (h : run.outcome = .matched stop)
    (onMatch : Nat → Run)
    (onFailure : Run) :
    run.resume onMatch onFailure =
      after run.calls (onMatch stop) := by
  simp [resume, h]

theorem resume_of_failed
    {run : Run}
    (h : run.outcome = .failed)
    (onMatch : Nat → Run)
    (onFailure : Run) :
    run.resume onMatch onFailure =
      after run.calls onFailure := by
  simp [resume, h]

theorem resume_of_not_isSettled
    {run : Run}
    (h : run.outcome.isSettled = false)
    (onMatch : Nat → Run)
    (onFailure : Run) :
    run.resume onMatch onFailure = run := by
  cases hOutcome : run.outcome with
  | matched stop => simp [hOutcome] at h
  | failed => simp [hOutcome] at h
  | noRoutine index => simp [resume, hOutcome]
  | tooDeep => simp [resume, hOutcome]

/- The three ways in which a run can be gone on from. -/
theorem matched_or_failed_or_not
    (run : Run) :
    (∃ stop, run.outcome = .matched stop) ∨
      run.outcome = .failed ∨
      run.outcome.isSettled = false := by
  cases hSettled : run.outcome.isSettled with
  | false => exact .inr (.inr rfl)
  | true =>
      exact
        (Outcome.matched_or_failed hSettled).imp_right .inl

/-
  A run that goes on after another has an end: that of what
  follows the match, or of what follows the lack of one.
-/
theorem resume_eq_ofStop
    {run : Run}
    {onMatch : Nat → Run}
    {onFailure : Run}
    {stop : Option Nat}
    (h :
      (run.resume onMatch onFailure).outcome =
        Outcome.ofStop stop) :
    (∃ next,
      run.outcome = Outcome.ofStop (some next) ∧
      (onMatch next).outcome = Outcome.ofStop stop) ∨
    (run.outcome = Outcome.ofStop none ∧
      onFailure.outcome = Outcome.ofStop stop) := by
  rcases run.matched_or_failed_or_not with
    ⟨next, hMatched⟩ | hFailed | hSettled
  · rw [resume_of_matched hMatched] at h
    exact .inl ⟨next, hMatched, h⟩
  · rw [resume_of_failed hFailed] at h
    exact .inr ⟨hFailed, h⟩
  · rw [resume_of_not_isSettled hSettled] at h
    rw [h, Outcome.isSettled_ofStop] at hSettled
    cases hSettled

theorem matched_of_resume
    {run : Run}
    {onMatch : Nat → Run}
    {onFailure : Run}
    {stop : Nat}
    (h :
      (run.resume onMatch onFailure).outcome =
        .matched stop) :
    (∃ mid,
      run.outcome = .matched mid ∧
      (onMatch mid).outcome = .matched stop) ∨
    (run.outcome = .failed ∧
      onFailure.outcome = .matched stop) :=
  @resume_eq_ofStop run onMatch onFailure (some stop) h

/- Going on only from a match keeps the lack of one. -/
theorem andThen_eq_resume
    (run : Run)
    (next : Nat → Run) :
    run.andThen next =
      run.resume next (quiet .failed) := by
  cases hOutcome : run.outcome with
  | matched stop => simp [andThen, resume, hOutcome]
  | failed =>
      rw [resume_of_failed hOutcome,
        after_quiet hOutcome]
      simp [andThen, hOutcome]
  | noRoutine index => simp [andThen, resume, hOutcome]
  | tooDeep => simp [andThen, resume, hOutcome]

/- Going on only without a match keeps a match. -/
theorem orElse_eq_resume
    (run : Run)
    (other : Unit → Run) :
    run.orElse other =
      run.resume (fun stop => quiet (.matched stop))
        (other ()) := by
  cases hOutcome : run.outcome with
  | matched stop =>
      rw [resume_of_matched hOutcome,
        after_quiet hOutcome]
      simp [orElse, hOutcome]
  | failed => simp [orElse, resume, hOutcome]
  | noRoutine index => simp [orElse, resume, hOutcome]
  | tooDeep => simp [orElse, resume, hOutcome]

end Run

namespace Node

/-
  A round of an iteration is a copy, after which the
  iteration goes on, stays where it is or ends.
-/
theorem runCopies_succ
    (step : Nat → Run)
    (min : Nat)
    (max : Option Nat)
    (allowance count index : Nat) :
    runCopies step min max (allowance + 1) count index =
      if atLimit max count then
        .quiet (endCopies min count index)
      else
        (step index).resume
          (fun next =>
            if next = index then
              .quiet (.matched index)
            else
              runCopies step min max
                allowance (count + 1) next)
          (.quiet (endCopies min count index)) := by
  rw [runCopies]
  split
  · rfl
  · cases hOutcome : (step index).outcome with
    | matched next =>
        rw [Run.resume_of_matched hOutcome]
        by_cases hNext : next = index
        · have hEnd :
              endCopies min (Nat.max count min) index =
                .matched index := by
            have hMin : min ≤ Nat.max count min :=
              Nat.le_max_right count min
            simp [endCopies, Nat.not_lt.mpr hMin]
          simp [hOutcome, hNext, hEnd, Run.after,
            Run.quiet]
        · simp [hOutcome, hNext]
    | failed =>
        rw [Run.resume_of_failed hOutcome]
        simp [hOutcome, Run.after, Run.quiet]
    | noRoutine i => simp [Run.resume, hOutcome]
    | tooDeep => simp [Run.resume, hOutcome]

theorem atLimit_eq_false_iff
    {max : Option Nat}
    {count : Nat} :
    atLimit max count = false ↔
      ∀ limit, max = some limit → count < limit := by
  cases max <;> simp [atLimit]

theorem isSettled_endCopies
    (min count index : Nat) :
    (endCopies min count index).isSettled = true := by
  unfold endCopies
  split <;> rfl

/- An iteration that ends has its copies and stays there. -/
theorem endCopies_eq_matched
    {min count index stop : Nat}
    (h : endCopies min count index = .matched stop) :
    min ≤ count ∧ index = stop := by
  unfold endCopies at h
  split at h
  · cases h
  · rename_i hMany
    exact ⟨Nat.not_lt.mp hMany, Outcome.matched.inj h⟩

/-
  What becomes of an iteration in its next round: there may
  be no further copy, the copy stays where it is and stands
  for all that are due, it moves on to the rounds behind it,
  it ends the row by failing, or it is not settled.
-/
inductive Round
    (step : Nat → Run)
    (min : Nat)
    (max : Option Nat)
    (allowance count index : Nat) : Run → Prop
  | full
      (hFull : atLimit max count = true) :
      Round step min max allowance count index
        (.quiet (endCopies min count index))
  | still
      (hBelow : atLimit max count = false)
      (hStill : (step index).outcome = .matched index) :
      Round step min max allowance count index (step index)
  | moved
      {next : Nat}
      (hBelow : atLimit max count = false)
      (hMoved : (step index).outcome = .matched next)
      (hNext : next ≠ index) :
      Round step min max allowance count index
        (.after (step index).calls
          (runCopies step min max
            allowance (count + 1) next))
  | ended
      (hBelow : atLimit max count = false)
      (hFailed : (step index).outcome = .failed) :
      Round step min max allowance count index
        (.after (step index).calls
          (.quiet (endCopies min count index)))
  | broken
      (hBelow : atLimit max count = false)
      (hBroken :
        (step index).outcome.isSettled = false) :
      Round step min max allowance count index (step index)

/- Every round is one of these. -/
theorem round_runCopies
    (step : Nat → Run)
    (min : Nat)
    (max : Option Nat)
    (allowance count index : Nat) :
    Round step min max allowance count index
      (runCopies step min max
        (allowance + 1) count index) := by
  rw [runCopies_succ]
  cases hLimit : atLimit max count with
  | true => exact .full hLimit
  | false =>
      rw [if_neg Bool.false_ne_true]
      rcases (step index).matched_or_failed_or_not with
        ⟨next, hMatched⟩ | hFailed | hSettled
      · rw [Run.resume_of_matched hMatched]
        by_cases hNext : next = index
        · subst hNext
          rw [if_pos rfl, Run.after_quiet hMatched]
          exact .still hLimit hMatched
        · rw [if_neg hNext]
          exact .moved hLimit hMatched hNext
      · rw [Run.resume_of_failed hFailed]
        exact .ended hLimit hFailed
      · rw [Run.resume_of_not_isSettled hSettled]
        exact .broken hLimit hSettled

end Node

end Abnf

------------------------------------------------------------
-- Elements
------------------------------------------------------------

namespace Abnf

namespace Element

/-
  Match one byte of a set at an offset; the empty set stands
  for the empty text.
-/
def runSet
    (input : Array UInt8)
    (s : CharSet)
    (index : Nat) : Outcome :=
  if s.isEmpty then
    .matched index
  else
    match input[index]? with
    | some b =>
        if s.containsByte b then
          .matched (index + 1)
        else
          .failed
    | none => .failed

mutual

/-
  The run of an element at an offset, given the runs of the
  rules that it names.
-/
def run
    (input : Array UInt8)
    (callee : String → Nat → Run) :
    Element → Nat → Run
  | ruleName name, index => callee name index
  | terminal s, index => .quiet (runSet input s index)
  | repetition min max body, index =>
      Node.runCopies
        (fun i => run input callee body i) min max
        (input.size - index + 1) 0 index
  | concatenation parts, index =>
      runSeries input callee parts index
  | alternation parts, index =>
      runFirst input callee parts index

/- The run of some elements one after the other. -/
def runSeries
    (input : Array UInt8)
    (callee : String → Nat → Run) :
    List Element → Nat → Run
  | [], index => .quiet (.matched index)
  | part :: parts, index =>
      (run input callee part index).andThen
        (fun next => runSeries input callee parts next)

/- The run of the first of some elements that matches. -/
def runFirst
    (input : Array UInt8)
    (callee : String → Nat → Run) :
    List Element → Nat → Run
  | [], _ => .quiet .failed
  | part :: parts, index =>
      (run input callee part index).orElse
        (fun _ => runFirst input callee parts index)

end

end Element

end Abnf

------------------------------------------------------------
-- Relations Between Runs
------------------------------------------------------------

namespace Abnf

namespace Run

/-
  A relation between runs from an offset that holds for runs
  that stay in their place or give up and that `resume`
  keeps.
-/
structure Composes
    (rel : Nat → Run → Run → Prop) : Prop where
  stay :
    ∀ index,
      rel index
        (quiet (.matched index)) (quiet (.matched index))
  fail :
    ∀ index, rel index (quiet .failed) (quiet .failed)
  exhaust :
    ∀ index, rel index (quiet .tooDeep) (quiet .tooDeep)
  resume :
    ∀ {index : Nat} {run run' : Run}
      {onMatch onMatch' : Nat → Run}
      {onFailure onFailure' : Run},
      rel index run run' →
      (∀ stop, run.outcome = .matched stop →
        rel stop (onMatch stop) (onMatch' stop)) →
      rel index onFailure onFailure' →
      rel index
        (run.resume onMatch onFailure)
        (run'.resume onMatch' onFailure')

/- The relation holds for runs that take any one byte too. -/
structure Congruence
    (size : Nat)
    (rel : Nat → Run → Run → Prop) : Prop
    extends Composes rel where
  advance :
    ∀ index, index < size →
      rel index
        (quiet (.matched (index + 1)))
        (quiet (.matched (index + 1)))

/- Related copies make related iterations. -/
theorem Composes.runCopies
    {rel : Nat → Run → Run → Prop}
    (hRel : Composes rel)
    {step step' : Nat → Run}
    (hStep : ∀ index, rel index (step index) (step' index))
    (min : Nat)
    (max : Option Nat)
    (allowance count index : Nat) :
    rel index
      (Node.runCopies step min max allowance count index)
      (Node.runCopies step' min max
        allowance count index) := by
  have hEnd :
      ∀ count index,
        rel index
          (quiet (Node.endCopies min count index))
          (quiet (Node.endCopies min count index)) := by
    intro count index
    unfold Node.endCopies
    split
    · exact hRel.fail index
    · exact hRel.stay index
  induction allowance generalizing count index with
  | zero => exact hRel.exhaust index
  | succ allowance ih =>
      rw [Node.runCopies_succ, Node.runCopies_succ]
      split
      · exact hEnd count index
      · apply hRel.resume (hStep index)
        · intro next _
          split
          · rename_i hNext
            subst hNext
            exact hRel.stay next
          · exact ih (count + 1) next
        · exact hEnd count index

end Run

namespace Element

variable {input : Array UInt8}
variable {rel : Nat → Run → Run → Prop}
variable {callee callee' : String → Nat → Run}

/- The run of a set calls nothing. -/
theorem runSet_congruence
    (hRel : Run.Congruence input.size rel)
    (s : CharSet)
    (index : Nat) :
    rel index
      (.quiet (runSet input s index))
      (.quiet (runSet input s index)) := by
  unfold runSet
  split
  · exact hRel.stay index
  · cases hByte : input[index]? with
    | none => exact hRel.fail index
    | some b =>
        dsimp only
        split
        · apply hRel.advance
          exact (Array.getElem?_eq_some_iff.mp hByte).1
        · exact hRel.fail index

mutual

/-
  Runs of the named rules that are related make related runs
  of an element, if the runs of sets are related.
-/
theorem run_composes
    (hRel : Run.Composes rel)
    (hSet :
      ∀ s index,
        rel index
          (.quiet (runSet input s index))
          (.quiet (runSet input s index))) :
    ∀ (element : Element) (index : Nat),
      (∀ name ∈ element.names, ∀ i,
        rel i (callee name i) (callee' name i)) →
      rel index
        (element.run input callee index)
        (element.run input callee' index)
  | ruleName name, index, hCallee => by
      rw [run, run]
      exact hCallee name (List.mem_singleton.mpr rfl) index
  | terminal s, index, _ => by
      rw [run, run]
      exact hSet s index
  | repetition min max body, index, hCallee => by
      rw [run, run]
      apply hRel.runCopies
      intro i
      exact run_composes hRel hSet body i hCallee
  | concatenation parts, index, hCallee => by
      rw [run, run]
      exact runSeries_composes hRel hSet parts index hCallee
  | alternation parts, index, hCallee => by
      rw [run, run]
      exact runFirst_composes hRel hSet parts index hCallee

/- The same for elements one after the other. -/
theorem runSeries_composes
    (hRel : Run.Composes rel)
    (hSet :
      ∀ s index,
        rel index
          (.quiet (runSet input s index))
          (.quiet (runSet input s index))) :
    ∀ (parts : List Element) (index : Nat),
      (∀ name ∈ namesOfAll parts, ∀ i,
        rel i (callee name i) (callee' name i)) →
      rel index
        (runSeries input callee parts index)
        (runSeries input callee' parts index)
  | [], index, _ => by
      rw [runSeries, runSeries]
      exact hRel.stay index
  | part :: parts, index, hCallee => by
      rw [namesOfAll, List.forall_mem_append] at hCallee
      rw [runSeries, runSeries, Run.andThen_eq_resume,
        Run.andThen_eq_resume]
      apply hRel.resume
      · exact run_composes hRel hSet part index hCallee.1
      · intro next _
        exact
          runSeries_composes hRel hSet parts next hCallee.2
      · exact hRel.fail index

/- The same for the first element that matches. -/
theorem runFirst_composes
    (hRel : Run.Composes rel)
    (hSet :
      ∀ s index,
        rel index
          (.quiet (runSet input s index))
          (.quiet (runSet input s index))) :
    ∀ (parts : List Element) (index : Nat),
      (∀ name ∈ namesOfAll parts, ∀ i,
        rel i (callee name i) (callee' name i)) →
      rel index
        (runFirst input callee parts index)
        (runFirst input callee' parts index)
  | [], index, _ => by
      rw [runFirst, runFirst]
      exact hRel.fail index
  | part :: parts, index, hCallee => by
      rw [namesOfAll, List.forall_mem_append] at hCallee
      rw [runFirst, runFirst, Run.orElse_eq_resume,
        Run.orElse_eq_resume]
      apply hRel.resume
      · exact run_composes hRel hSet part index hCallee.1
      · intro stop _
        exact hRel.stay stop
      · exact
          runFirst_composes hRel hSet parts index hCallee.2

end

/- A congruence is kept by elements. -/
theorem run_congruence
    (hRel : Run.Congruence input.size rel)
    (element : Element)
    (index : Nat)
    (hCallee :
      ∀ name ∈ element.names, ∀ i,
        rel i (callee name i) (callee' name i)) :
    rel index
      (element.run input callee index)
      (element.run input callee' index) :=
  run_composes hRel.toComposes (runSet_congruence hRel)
    element index hCallee

end Element

end Abnf

------------------------------------------------------------
-- Offsets
------------------------------------------------------------

namespace Abnf

namespace Run

/-
  A match ends at or behind its start, and within the text
  unless it takes no input.
-/
def StaysIn
    (size index : Nat)
    (run : Run) : Prop :=
  ∀ stop, run.outcome = .matched stop →
    index ≤ stop ∧ stop ≤ max index size

theorem staysIn_quiet
    {size index : Nat}
    {outcome : Outcome}
    (h :
      ∀ stop, outcome = .matched stop →
        index ≤ stop ∧ stop ≤ max index size) :
    (quiet outcome).StaysIn size index := h

/- The offsets of runs put together stay in the text. -/
theorem staysIn_congruence
    (size : Nat) :
    Congruence size
      (fun index run _ => run.StaysIn size index) where
  stay index := by
    apply staysIn_quiet
    intro stop hStop
    cases hStop
    omega
  fail index := by
    apply staysIn_quiet
    intro stop hStop
    cases hStop
  advance index hIndex := by
    apply staysIn_quiet
    intro stop hStop
    cases hStop
    omega
  exhaust index := by
    apply staysIn_quiet
    intro stop hStop
    cases hStop
  resume := by
    intro index run _ onMatch _ onFailure _
      hRun hMatch hFailure stop hStop
    rcases matched_of_resume hStop with
      ⟨mid, hMid, hRest⟩ | ⟨_, hRest⟩
    · have hFirst := hRun mid hMid
      have hSecond := hMatch mid hMid stop hRest
      omega
    · exact hFailure stop hRest

end Run

/- An iteration stays in the text if its copies do. -/
theorem Node.runCopies_staysIn
    {size : Nat}
    {step : Nat → Run}
    (hStep : ∀ index, (step index).StaysIn size index)
    (min : Nat)
    (max : Option Nat)
    (allowance count index : Nat) :
    (runCopies step min max allowance count index).StaysIn
      size index :=
  @Run.Composes.runCopies _
    (Run.staysIn_congruence size).toComposes step step hStep
    min max allowance count index

/- The run of an element stays in the text. -/
theorem Element.run_staysIn
    {input : Array UInt8}
    {callee : String → Nat → Run}
    (hCallee :
      ∀ name index,
        (callee name index).StaysIn input.size index)
    (element : Element)
    (index : Nat) :
    (element.run input callee index).StaysIn
      input.size index :=
  @run_congruence input _ callee callee
    (Run.staysIn_congruence input.size) element index
    (fun name _ => hCallee name)

end Abnf

------------------------------------------------------------
-- Silence
------------------------------------------------------------

namespace Abnf

namespace Run

@[simp] theorem outcome_silent
    (run : Run) :
    run.silent.outcome = run.outcome := rfl

@[simp] theorem outcome_quiet
    (outcome : Outcome) :
    (quiet outcome).outcome = outcome := rfl

@[simp] theorem outcome_after
    (calls : List Call)
    (run : Run) :
    (after calls run).outcome = run.outcome := rfl

@[simp] theorem outcome_reported
    (rule : String)
    (start : Nat)
    (run : Run) :
    (run.reported rule start).outcome = run.outcome := rfl

@[simp] theorem silent_silent
    (run : Run) :
    run.silent.silent = run.silent := rfl

/- Silent runs put together are the silence of the whole. -/
theorem silent_congruence
    (size : Nat) :
    Congruence size
      (fun _ run run' => run' = run.silent) where
  stay _ := rfl
  fail _ := rfl
  advance _ _ := rfl
  exhaust _ := rfl
  resume := by
    intro _ run run' onMatch onMatch' onFailure onFailure'
      hRun hMatch hFailure
    subst hRun hFailure
    cases hOutcome : run.outcome with
    | matched stop =>
        have hStop := hMatch stop hOutcome
        simp [resume, hOutcome, hStop, silent, quiet, after]
    | failed =>
        simp [resume, hOutcome, silent, quiet, after]
    | noRoutine i => simp [resume, hOutcome, silent, quiet]
    | tooDeep => simp [resume, hOutcome, silent, quiet]

end Run

/- Silence may come before or after the run of an element. -/
theorem Element.run_silent
    (input : Array UInt8)
    (callee : String → Nat → Run)
    (element : Element)
    (index : Nat) :
    element.run input
        (fun name i => (callee name i).silent) index =
      (element.run input callee index).silent :=
  run_congruence (Run.silent_congruence input.size)
    element index (fun _ _ _ => rfl)

end Abnf

------------------------------------------------------------
-- Settled Runs
------------------------------------------------------------

namespace Abnf

namespace Run

/- The first run stands for good once it is settled. -/
def Settles
    (run run' : Run) : Prop :=
  run.outcome.isSettled = true → run' = run

/- A whole run is settled only if its pieces are. -/
theorem settles_congruence
    (size : Nat) :
    Congruence size (fun _ run run' => run.Settles run')
    where
  stay _ _ := rfl
  fail _ _ := rfl
  advance _ _ _ := rfl
  exhaust _ _ := rfl
  resume := by
    intro _ run run' onMatch onMatch' onFailure onFailure'
      hRun hMatch hFailure hSettled
    rcases run.matched_or_failed_or_not with
      ⟨stop, hOutcome⟩ | hOutcome | hBroken
    · have hSame : run' = run := hRun (by simp [hOutcome])
      subst hSame
      rw [resume_of_matched hOutcome] at hSettled ⊢
      rw [resume_of_matched hOutcome,
        hMatch stop hOutcome hSettled]
    · have hSame : run' = run := hRun (by simp [hOutcome])
      subst hSame
      rw [resume_of_failed hOutcome] at hSettled ⊢
      rw [resume_of_failed hOutcome, hFailure hSettled]
    · rw [resume_of_not_isSettled hBroken, hBroken]
        at hSettled
      cases hSettled

end Run

/-
  A settled run of an element stays the same when the runs
  of the named rules are given to a greater depth.
-/
theorem Element.run_of_isSettled
    {input : Array UInt8}
    {callee callee' : String → Nat → Run}
    (hCallee :
      ∀ name index,
        (callee name index).Settles (callee' name index))
    (element : Element)
    (index : Nat)
    (hSettled :
      (element.run input callee index).outcome.isSettled =
        true) :
    element.run input callee' index =
      element.run input callee index :=
  run_congruence (Run.settles_congruence input.size)
    element index (fun name _ => hCallee name) hSettled

end Abnf
