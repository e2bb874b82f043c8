import Abnf.Proofs.Termination

/-
  Evaluation without limits.

  `Program.Invokes` says what a routine does by rules alone,
  with no limit on the open calls or on the copies of an
  iteration. A run that is settled follows these rules, and
  every run of a program of accepted rules is settled. So
  evaluation ends for every routine, on every text and from
  every offset.

  Key definitions include:
    * `Abnf.Program.Evaluates`
    * `Abnf.Program.Invokes`

  Main declarations:
    * `Abnf.Program.invokes_of_isSettled`
    * `Abnf.Program.exists_invokes_of_ofRules`
-/

------------------------------------------------------------
-- Rules Of Evaluation
------------------------------------------------------------

namespace Abnf

namespace Program

open Node

mutual

/- A node at an offset does a run. -/
inductive Evaluates
    (program : Program)
    (input : Array UInt8) :
    Node → Nat → Run → Prop
  | empty (index : Nat) :
      Evaluates program input .empty index
        (.quiet (.matched index))
  | terminal (test : ByteTest) (index : Nat) :
      Evaluates program input (.terminal test) index
        (.quiet (runTerminal input test index))
  | forwardedCall {routine index : Nat} {run : Run} :
      Invokes program input routine index run →
      Evaluates program input
        (.call routine true) index run
  | quietCall {routine index : Nat} {run : Run} :
      Invokes program input routine index run →
      Evaluates program input
        (.call routine false) index run.silent
  | sequence
      {parts : List Node} {index : Nat} {run : Run} :
      EvaluatesAll program input parts index run →
      Evaluates program input (.sequence parts) index run
  | choice {parts : List Node} {index : Nat} {run : Run} :
      EvaluatesFirst program input parts index run →
      Evaluates program input (.choice parts) index run
  | iterate
      {min : Nat} {max : Option Nat} {body : Node}
      {index : Nat} {run : Run} :
      EvaluatesCopies program input
        min max body 0 index run →
      Evaluates program input
        (.iterate min max body) index run

/- Nodes one after the other do a run. -/
inductive EvaluatesAll
    (program : Program)
    (input : Array UInt8) :
    List Node → Nat → Run → Prop
  | nil (index : Nat) :
      EvaluatesAll program input [] index
        (.quiet (.matched index))
  | failed
      {part : Node} {parts : List Node}
      {index : Nat} {run : Run} :
      Evaluates program input part index run →
      run.outcome = .failed →
      EvaluatesAll program input (part :: parts) index run
  | matched
      {part : Node} {parts : List Node}
      {index next : Nat} {run rest : Run} :
      Evaluates program input part index run →
      run.outcome = .matched next →
      EvaluatesAll program input parts next rest →
      EvaluatesAll program input (part :: parts) index
        (.after run.calls rest)

/- The first node that matches does a run. -/
inductive EvaluatesFirst
    (program : Program)
    (input : Array UInt8) :
    List Node → Nat → Run → Prop
  | nil (index : Nat) :
      EvaluatesFirst program input [] index (.quiet .failed)
  | matched
      {part : Node} {parts : List Node}
      {index stop : Nat} {run : Run} :
      Evaluates program input part index run →
      run.outcome = .matched stop →
      EvaluatesFirst program input
        (part :: parts) index run
  | failed
      {part : Node} {parts : List Node}
      {index : Nat} {run rest : Run} :
      Evaluates program input part index run →
      run.outcome = .failed →
      EvaluatesFirst program input parts index rest →
      EvaluatesFirst program input (part :: parts) index
        (.after run.calls rest)

/-
  Further copies of a node do a run after some copies. A
  copy that takes no input is the last one.
-/
inductive EvaluatesCopies
    (program : Program)
    (input : Array UInt8) :
    Nat → Option Nat → Node → Nat → Nat → Run → Prop
  | full
      {min : Nat} {max : Option Nat} {body : Node}
      {count index : Nat} :
      atLimit max count = true →
      EvaluatesCopies program input
        min max body count index
        (.quiet (endCopies min count index))
  | stay
      {min : Nat} {max : Option Nat} {body : Node}
      {count index : Nat} {run : Run} :
      atLimit max count = false →
      Evaluates program input body index run →
      run.outcome = .matched index →
      EvaluatesCopies program input
        min max body count index run
  | advance
      {min : Nat} {max : Option Nat} {body : Node}
      {count index next : Nat} {run rest : Run} :
      atLimit max count = false →
      Evaluates program input body index run →
      run.outcome = .matched next →
      next ≠ index →
      EvaluatesCopies program input
        min max body (count + 1) next rest →
      EvaluatesCopies program input
        min max body count index (.after run.calls rest)
  | stop
      {min : Nat} {max : Option Nat} {body : Node}
      {count index : Nat} {run : Run} :
      atLimit max count = false →
      Evaluates program input body index run →
      run.outcome = .failed →
      EvaluatesCopies program input
        min max body count index
        ⟨run.calls, endCopies min count index⟩

/- A routine at an offset does a run. -/
inductive Invokes
    (program : Program)
    (input : Array UInt8) :
    Nat → Nat → Run → Prop
  | reported
      {index start : Nat} {procedure : Procedure}
      {run : Run} :
      program.procedures[index]? = some procedure →
      procedure.isPublic = true →
      Evaluates program input
        procedure.body start run →
      Invokes program input index start
        (run.reported procedure.name start)
  | silent
      {index start : Nat} {procedure : Procedure}
      {run : Run} :
      program.procedures[index]? = some procedure →
      procedure.isPublic = false →
      Evaluates program input
        procedure.body start run →
      Invokes program input index start run.silent

end

end Program

end Abnf

------------------------------------------------------------
-- Settled Runs Follow The Rules
------------------------------------------------------------

namespace Abnf

namespace Run

/- Going on keeps what is not settled. -/
theorem isSettled_of_resume
    {run : Run}
    {onMatch : Nat → Run}
    {onFailure : Run}
    (h :
      (run.resume onMatch onFailure).outcome.isSettled =
        true) :
    run.outcome.isSettled = true := by
  cases hSettled : run.outcome.isSettled with
  | true => rfl
  | false =>
      rw [resume_of_not_isSettled hSettled, hSettled] at h
      exact h

end Run

namespace Program

open Node

variable {program : Program}
variable {input : Array UInt8}
variable {callee : Nat → Nat → Run}

/- A settled iteration follows the rules if its copies do. -/
theorem evaluatesCopies_of_isSettled
    {body : Node}
    (hBody :
      ∀ index,
        (body.run input callee index).outcome.isSettled =
          true →
        Evaluates program input body index
          (body.run input callee index))
    (min : Nat)
    (max : Option Nat)
    (allowance count index : Nat)
    (hSettled :
      (runCopies (fun i => body.run input callee i)
        min max allowance count
          index).outcome.isSettled = true) :
    EvaluatesCopies program input min max body count index
      (runCopies (fun i => body.run input callee i)
        min max allowance count index) := by
  induction allowance generalizing count index with
  | zero => simp [runCopies, Outcome.isSettled] at hSettled
  | succ allowance ih =>
      have hRound :=
        round_runCopies (fun i => body.run input callee i)
          min max allowance count index
      generalize runCopies _ min max (allowance + 1)
        count index = run at hSettled hRound ⊢
      cases hRound with
      | full hFull => exact EvaluatesCopies.full hFull
      | still hBelow hStill =>
          exact
            EvaluatesCopies.stay hBelow
              (hBody index hSettled) hStill
      | @moved next hBelow hMoved hNext =>
          have hCopy := hBody index (by rw [hMoved]; rfl)
          exact
            EvaluatesCopies.advance hBelow hCopy hMoved
              hNext (ih (count + 1) next hSettled)
      | ended hBelow hFailed =>
          have hCopy := hBody index (by rw [hFailed]; rfl)
          have hStop :=
            @EvaluatesCopies.stop program input
              min max body count index _
              hBelow hCopy hFailed
          simpa [Run.after, Run.quiet] using hStop
      | broken hBelow hBroken =>
          rw [hBroken] at hSettled
          cases hSettled

mutual

/- A settled run of a node follows the rules. -/
theorem evaluates_of_isSettled
    (hCallee :
      ∀ routine index,
        (callee routine index).outcome.isSettled = true →
        Invokes program input routine index
          (callee routine index)) :
    ∀ (node : Node) (index : Nat),
      (node.run input callee index).outcome.isSettled =
        true →
      Evaluates program input node index
        (node.run input callee index)
  | .empty, index, _ => by
      rw [Node.run]
      exact Evaluates.empty index
  | .terminal test, index, _ => by
      rw [Node.run]
      exact Evaluates.terminal test index
  | .call routine true, index, hSettled => by
      rw [Node.run] at hSettled ⊢
      exact
        Evaluates.forwardedCall
          (hCallee routine index hSettled)
  | .call routine false, index, hSettled => by
      rw [Node.run] at hSettled ⊢
      exact
        Evaluates.quietCall
          (hCallee routine index hSettled)
  | .sequence parts, index, hSettled => by
      rw [Node.run] at hSettled ⊢
      exact
        Evaluates.sequence
          (evaluatesAll_of_isSettled hCallee
            parts index hSettled)
  | .choice parts, index, hSettled => by
      rw [Node.run] at hSettled ⊢
      exact
        Evaluates.choice
          (evaluatesFirst_of_isSettled hCallee
            parts index hSettled)
  | .iterate min max body, index, hSettled => by
      rw [Node.run] at hSettled ⊢
      exact
        Evaluates.iterate
          (evaluatesCopies_of_isSettled
            (evaluates_of_isSettled hCallee body)
            min max _ 0 index hSettled)

theorem evaluatesAll_of_isSettled
    (hCallee :
      ∀ routine index,
        (callee routine index).outcome.isSettled = true →
        Invokes program input routine index
          (callee routine index)) :
    ∀ (parts : List Node) (index : Nat),
      (runSequence input callee
        parts index).outcome.isSettled = true →
      EvaluatesAll program input parts index
        (runSequence input callee parts index)
  | [], index, _ => by
      rw [runSequence]
      exact EvaluatesAll.nil index
  | part :: parts, index, hSettled => by
      rw [runSequence, Run.andThen_eq_resume]
        at hSettled ⊢
      have hPart := Run.isSettled_of_resume hSettled
      have hFirst :=
        evaluates_of_isSettled hCallee part index hPart
      rcases Outcome.matched_or_failed hPart with
        ⟨next, hOutcome⟩ | hOutcome
      · rw [Run.resume_of_matched hOutcome]
          at hSettled ⊢
        exact
          EvaluatesAll.matched hFirst hOutcome
            (evaluatesAll_of_isSettled hCallee
              parts next hSettled)
      · rw [Run.resume_of_failed hOutcome,
          Run.after_quiet hOutcome]
        exact EvaluatesAll.failed hFirst hOutcome

theorem evaluatesFirst_of_isSettled
    (hCallee :
      ∀ routine index,
        (callee routine index).outcome.isSettled = true →
        Invokes program input routine index
          (callee routine index)) :
    ∀ (parts : List Node) (index : Nat),
      (runChoice input callee
        parts index).outcome.isSettled = true →
      EvaluatesFirst program input parts index
        (runChoice input callee parts index)
  | [], index, _ => by
      rw [runChoice]
      exact EvaluatesFirst.nil index
  | part :: parts, index, hSettled => by
      rw [runChoice, Run.orElse_eq_resume] at hSettled ⊢
      have hPart := Run.isSettled_of_resume hSettled
      have hFirst :=
        evaluates_of_isSettled hCallee part index hPart
      rcases Outcome.matched_or_failed hPart with
        ⟨stop, hOutcome⟩ | hOutcome
      · rw [Run.resume_of_matched hOutcome,
          Run.after_quiet hOutcome]
        exact EvaluatesFirst.matched hFirst hOutcome
      · rw [Run.resume_of_failed hOutcome] at hSettled ⊢
        exact
          EvaluatesFirst.failed hFirst hOutcome
            (evaluatesFirst_of_isSettled hCallee
              parts index hSettled)

end

/- A settled run of a routine follows the rules. -/
theorem invokes_of_isSettled
    (program : Program)
    (input : Array UInt8)
    (depth index start : Nat)
    (hSettled :
      (program.invoke input depth
        index start).outcome.isSettled = true) :
    program.Invokes input index start
      (program.invoke input depth index start) := by
  induction depth generalizing index start with
  | zero => simp [invoke, Outcome.isSettled] at hSettled
  | succ depth ih =>
      cases hProcedure : program.procedures[index]? with
      | none =>
          simp [invoke, hProcedure, Outcome.isSettled]
            at hSettled
      | some procedure =>
          rw [invoke, hProcedure] at hSettled ⊢
          dsimp only at hSettled ⊢
          cases hPublic : procedure.isPublic with
          | true =>
              simp only [hPublic, if_true] at hSettled ⊢
              exact
                Invokes.reported hProcedure hPublic
                  (evaluates_of_isSettled ih procedure.body
                    start hSettled)
          | false =>
              simp only [hPublic, Bool.false_eq_true,
                if_false] at hSettled ⊢
              exact
                Invokes.silent hProcedure hPublic
                  (evaluates_of_isSettled ih procedure.body
                    start hSettled)

end Program

end Abnf

------------------------------------------------------------
-- Programs Of Accepted Rules
------------------------------------------------------------

namespace Abnf

namespace Program

/-
  Every routine of a program made from rules, public or not,
  comes to an end on every text and from every offset, and
  the end is a match or the lack of one.
-/
theorem exists_invokes_of_ofRules
    {rules : List Rule}
    {program : Program}
    (hProgram : ofRules rules = .ok program)
    {entry : Nat}
    (hEntry : entry < program.procedures.length)
    (input : Array UInt8)
    (start : Nat) :
    ∃ stop : Option Nat,
      program.run entry input start = Outcome.ofStop stop ∧
      program.Invokes input entry start
        (program.trace entry input start) := by
  have hSettled :=
    trace_isSettled Rule.isRewrite_normalize hProgram
      hEntry input start
  exact
    ⟨_, Outcome.eq_ofStop_of_isSettled hSettled,
      invokes_of_isSettled program input _ entry start
        hSettled⟩

/-
  A rule that hides a core rule and is called back by one:
  white space that may hold bracketed white space.
-/
def nestedBlanks : List Rule :=
  [⟨"WSP",
    .alternation
      [.chars " ",
       .concatenation
         [.chars "(", .ruleName "LWSP", .chars ")"]]⟩]

/- The core rule that calls back comes to its end as well. -/
theorem exists_invokes_nestedBlanks :
    ∃ program,
      ofRules nestedBlanks = .ok program ∧
      4 < program.procedures.length ∧
      ∃ stop : Option Nat,
        program.run 4 #[40, 32, 40, 41, 41, 32] 0 =
          Outcome.ofStop stop ∧
        program.Invokes #[40, 32, 40, 41, 41, 32] 4 0
          (program.trace 4 #[40, 32, 40, 41, 41, 32] 0) := by
  have hNames :
      (ofRules nestedBlanks).toOption.map
          (fun program => program.procedures.map (·.name)) =
        some ["WSP", "CR", "CRLF", "LF", "LWSP"] := by
    decide +kernel
  cases hProgram : ofRules nestedBlanks with
  | error cause =>
      rw [hProgram] at hNames
      cases hNames
  | ok program =>
      rw [hProgram] at hNames
      have hLength :=
        congrArg List.length (Option.some.inj hNames)
      have hEntry : 4 < program.procedures.length := by
        rw [List.length_map] at hLength
        rw [hLength]
        decide
      exact
        ⟨program, rfl, hEntry,
          exists_invokes_of_ofRules hProgram hEntry _ 0⟩

end Program

end Abnf
