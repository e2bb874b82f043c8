import Mathlib.Data.ENat.Basic
import Abnf.Proofs.Evaluation
import Abnf.Proofs.Events

/-
  Iterations count their copies.

  An iteration that meets a copy without input takes all
  copies that are still due for made. Plain counting makes
  them: every copy counts, whether it takes input or not,
  until one fails or the limit is reached. Where no copy
  can ever fail and there is no limit, there are more copies
  than any number. For bounds in order, both come to the
  same end. As long as an iteration goes on, it has counted
  no more copies than it has taken bytes.

  Key definitions include:
    * `Abnf.Node.IsPart`
    * `Abnf.Node.Counts`
    * `Abnf.Node.CountsTo`
    * `Abnf.Node.Rounds`
    * `Abnf.Program.Ends`

  Main declarations:
    * `Abnf.Program.Evaluates.unique`
    * `Abnf.Program.exists_evaluates`
    * `Abnf.Node.CountsTo.unique`
    * `Abnf.Node.Rounds.add_le`
    * `Abnf.Program.exists_counts`
    * `Abnf.Program.countsTo_iff_of_evaluatesCopies`
    * `Abnf.Program.exists_evaluates_iterate`
-/

------------------------------------------------------------
-- One Run For Each Node
------------------------------------------------------------

namespace Abnf

namespace Program

variable {program : Program}
variable {input : Array UInt8}

mutual

/- A node does one run at most at an offset. -/
theorem Evaluates.unique :
    ∀ {node : Node} {index : Nat} {run run' : Run},
      program.Evaluates input node index run →
      program.Evaluates input node index run' →
      run = run'
  | _, _, _, _, .empty _, h' => by
      cases h'
      rfl
  | _, _, _, _, .terminal _ _, h' => by
      cases h'
      rfl
  | _, _, _, _, .forwardedCall h, h' => by
      cases h' with
      | forwardedCall h' => exact Invokes.unique h h'
  | _, _, _, _, .quietCall h, h' => by
      cases h' with
      | quietCall h' => rw [Invokes.unique h h']
  | _, _, _, _, .sequence h, h' => by
      cases h' with
      | sequence h' => exact EvaluatesAll.unique h h'
  | _, _, _, _, .choice h, h' => by
      cases h' with
      | choice h' => exact EvaluatesFirst.unique h h'
  | _, _, _, _, .iterate h, h' => by
      cases h' with
      | iterate h' => exact EvaluatesCopies.unique h h'
termination_by structural _ _ _ _ h => h

theorem EvaluatesAll.unique :
    ∀ {parts : List Node} {index : Nat} {run run' : Run},
      program.EvaluatesAll input parts index run →
      program.EvaluatesAll input parts index run' →
      run = run'
  | _, _, _, _, .nil _, h' => by
      cases h'
      rfl
  | _, _, _, _, .failed h hEnd, h' => by
      cases h' with
      | failed h' _ => exact Evaluates.unique h h'
      | matched h' hEnd' _ =>
          rw [Evaluates.unique h h', hEnd'] at hEnd
          cases hEnd
  | _, _, _, _, .matched h hEnd hRest, h' => by
      cases h' with
      | failed h' hEnd' =>
          rw [Evaluates.unique h h', hEnd'] at hEnd
          cases hEnd
      | matched h' hEnd' hRest' =>
          rw [Evaluates.unique h h', hEnd'] at hEnd
          cases hEnd
          rw [Evaluates.unique h h',
            EvaluatesAll.unique hRest hRest']
termination_by structural _ _ _ _ h => h

theorem EvaluatesFirst.unique :
    ∀ {parts : List Node} {index : Nat} {run run' : Run},
      program.EvaluatesFirst input parts index run →
      program.EvaluatesFirst input parts index run' →
      run = run'
  | _, _, _, _, .nil _, h' => by
      cases h'
      rfl
  | _, _, _, _, .matched h hEnd, h' => by
      cases h' with
      | matched h' _ => exact Evaluates.unique h h'
      | failed h' hEnd' _ =>
          rw [Evaluates.unique h h', hEnd'] at hEnd
          cases hEnd
  | _, _, _, _, .failed h hEnd hRest, h' => by
      cases h' with
      | matched h' hEnd' =>
          rw [Evaluates.unique h h', hEnd'] at hEnd
          cases hEnd
      | failed h' _ hRest' =>
          rw [Evaluates.unique h h',
            EvaluatesFirst.unique hRest hRest']
termination_by structural _ _ _ _ h => h

theorem EvaluatesCopies.unique :
    ∀ {min : Nat} {max : Option Nat} {body : Node}
      {count index : Nat} {run run' : Run},
      program.EvaluatesCopies input
        min max body count index run →
      program.EvaluatesCopies input
        min max body count index run' →
      run = run'
  | _, _, _, _, _, _, _, .full hFull, h' => by
      cases h' with
      | full _ => rfl
      | stay hGoes _ _ => simp [hFull] at hGoes
      | advance hGoes _ _ _ _ => simp [hFull] at hGoes
      | stop hGoes _ _ => simp [hFull] at hGoes
  | _, _, _, _, _, _, _, .stay hGoes h hEnd, h' => by
      cases h' with
      | full hFull => simp [hFull] at hGoes
      | stay _ h' _ => exact Evaluates.unique h h'
      | advance _ h' hEnd' hMoves _ =>
          rw [Evaluates.unique h h', hEnd'] at hEnd
          cases hEnd
          exact absurd rfl hMoves
      | stop _ h' hEnd' =>
          rw [Evaluates.unique h h', hEnd'] at hEnd
          cases hEnd
  | _, _, _, _, _, _, _,
      .advance hGoes h hEnd hMoves hRest, h' => by
      cases h' with
      | full hFull => simp [hFull] at hGoes
      | stay _ h' hEnd' =>
          rw [Evaluates.unique h h', hEnd'] at hEnd
          cases hEnd
          exact absurd rfl hMoves
      | advance _ h' hEnd' _ hRest' =>
          rw [Evaluates.unique h h', hEnd'] at hEnd
          cases hEnd
          rw [Evaluates.unique h h',
            EvaluatesCopies.unique hRest hRest']
      | stop _ h' hEnd' =>
          rw [Evaluates.unique h h', hEnd'] at hEnd
          cases hEnd
  | _, _, _, _, _, _, _, .stop hGoes h hEnd, h' => by
      cases h' with
      | full hFull => simp [hFull] at hGoes
      | stay _ h' hEnd' =>
          rw [Evaluates.unique h h', hEnd'] at hEnd
          cases hEnd
      | advance _ h' hEnd' _ _ =>
          rw [Evaluates.unique h h', hEnd'] at hEnd
          cases hEnd
      | stop _ h' _ => rw [Evaluates.unique h h']
termination_by structural _ _ _ _ _ _ _ h => h

theorem Invokes.unique :
    ∀ {routine start : Nat} {run run' : Run},
      program.Invokes input routine start run →
      program.Invokes input routine start run' →
      run = run'
  | _, _, _, _, .reported hFind hPublic h, h' => by
      cases h' with
      | reported hFind' _ h' =>
          rw [hFind] at hFind'
          cases hFind'
          rw [Evaluates.unique h h']
      | silent hFind' hPrivate _ =>
          rw [hFind] at hFind'
          cases hFind'
          simp [hPublic] at hPrivate
  | _, _, _, _, .silent hFind hPrivate h, h' => by
      cases h' with
      | reported hFind' hPublic _ =>
          rw [hFind] at hFind'
          cases hFind'
          simp [hPublic] at hPrivate
      | silent hFind' _ h' =>
          rw [hFind] at hFind'
          cases hFind'
          rw [Evaluates.unique h h']
termination_by structural _ _ _ _ h => h

end

end Program

end Abnf

------------------------------------------------------------
-- Parts Of A Node
------------------------------------------------------------

namespace Abnf

namespace Node

/- A node stands in a node, at any depth. -/
inductive IsPart (part : Node) : Node → Prop
  | here : IsPart part part
  | sequence {parts : List Node} {inner : Node} :
      inner ∈ parts →
      IsPart part inner →
      IsPart part (.sequence parts)
  | choice {parts : List Node} {inner : Node} :
      inner ∈ parts →
      IsPart part inner →
      IsPart part (.choice parts)
  | iterate
      {min : Nat} {max : Option Nat} {body : Node} :
      IsPart part body →
      IsPart part (.iterate min max body)

/- What a part calls is called by the whole. -/
theorem calls_subset_of_isPart
    {part whole : Node}
    (hPart : part.IsPart whole) :
    part.calls ⊆ whole.calls := by
  induction hPart with
  | here => exact List.Subset.refl _
  | sequence hInner _ ih =>
      intro made hMade
      rw [calls, mem_callsOfAll_iff]
      exact ⟨_, hInner, ih hMade⟩
  | choice hInner _ ih =>
      intro made hMade
      rw [calls, mem_callsOfAll_iff]
      exact ⟨_, hInner, ih hMade⟩
  | iterate _ ih =>
      rw [calls]
      exact ih

/- The body of an iteration is a part wherever that is. -/
theorem isPart_body
    {min : Nat}
    {max : Option Nat}
    {body whole : Node}
    (hPart : (iterate min max body).IsPart whole) :
    body.IsPart whole := by
  induction hPart with
  | here => exact IsPart.iterate IsPart.here
  | sequence hInner _ ih => exact IsPart.sequence hInner ih
  | choice hInner _ ih => exact IsPart.choice hInner ih
  | iterate _ ih => exact IsPart.iterate ih

end Node

end Abnf

------------------------------------------------------------
-- Every Node Comes To An End
------------------------------------------------------------

namespace Abnf

namespace Node

variable {input : Array UInt8}
variable {callee : Nat → Nat → Run}

/- The run of a node stays in the text. -/
theorem run_staysIn
    (hCallee :
      ∀ routine i,
        (callee routine i).StaysIn input.size i)
    (node : Node)
    (index : Nat) :
    (node.run input callee index).StaysIn
      input.size index := by
  apply
    @run_loud_congruence input _ callee callee
      (Run.staysIn_congruence input.size)
  rintro ⟨routine, forward⟩ _ i
  rw [run]
  cases forward with
  | true => exact hCallee routine i
  | false => exact hCallee routine i

mutual

/- The run of a node is settled if all its calls are. -/
theorem run_isSettled
    (hStays :
      ∀ routine i,
        (callee routine i).StaysIn input.size i) :
    ∀ (node : Node) (index : Nat),
      (∀ made ∈ node.calls, ∀ i,
        (callee made.1 i).outcome.isSettled = true) →
      (node.run input callee index).outcome.isSettled = true
  | .empty, index, _ => by
      rw [run]
      rfl
  | .terminal test, index, _ => by
      rw [run, Run.outcome_quiet, runTerminal]
      split
      · split <;> rfl
      · rfl
  | .call routine forward, index, hCalls => by
      have hSettled :=
        hCalls (routine, forward) List.mem_cons_self index
      rw [run]
      cases forward with
      | true => exact hSettled
      | false => exact hSettled
  | .sequence parts, index, hCalls => by
      rw [run]
      exact runSequence_isSettled hStays parts index hCalls
  | .choice parts, index, hCalls => by
      rw [run]
      exact runChoice_isSettled hStays parts index hCalls
  | .iterate min max body, index, hCalls => by
      rw [run]
      apply runCopies_isSettled (run_staysIn hStays body)
        min max _ 0 index (Nat.lt_succ_self _)
      intro i _ _
      exact run_isSettled hStays body i hCalls

theorem runSequence_isSettled
    (hStays :
      ∀ routine i,
        (callee routine i).StaysIn input.size i) :
    ∀ (parts : List Node) (index : Nat),
      (∀ made ∈ callsOfAll parts, ∀ i,
        (callee made.1 i).outcome.isSettled = true) →
      (runSequence input callee
        parts index).outcome.isSettled = true
  | [], index, _ => by
      rw [runSequence]
      rfl
  | part :: parts, index, hCalls => by
      rw [callsOfAll, List.forall_mem_append] at hCalls
      have hPart :=
        run_isSettled hStays part index hCalls.1
      rw [runSequence, Run.andThen_eq_resume]
      rcases Outcome.matched_or_failed hPart with
        ⟨next, hOutcome⟩ | hOutcome
      · rw [Run.resume_of_matched hOutcome]
        exact
          runSequence_isSettled hStays parts next hCalls.2
      · rw [Run.resume_of_failed hOutcome]
        rfl

theorem runChoice_isSettled
    (hStays :
      ∀ routine i,
        (callee routine i).StaysIn input.size i) :
    ∀ (parts : List Node) (index : Nat),
      (∀ made ∈ callsOfAll parts, ∀ i,
        (callee made.1 i).outcome.isSettled = true) →
      (runChoice input callee
        parts index).outcome.isSettled = true
  | [], index, _ => by
      rw [runChoice]
      rfl
  | part :: parts, index, hCalls => by
      rw [callsOfAll, List.forall_mem_append] at hCalls
      have hPart :=
        run_isSettled hStays part index hCalls.1
      rw [runChoice, Run.orElse_eq_resume]
      rcases Outcome.matched_or_failed hPart with
        ⟨stop, hOutcome⟩ | hOutcome
      · rw [Run.resume_of_matched hOutcome]
        rfl
      · rw [Run.resume_of_failed hOutcome]
        exact
          runChoice_isSettled hStays parts index hCalls.2

end

end Node

namespace Program

variable {rules : List Rule}
variable {program : Program}

/- The run of a routine stays in the text. -/
theorem invoke_staysIn
    (program : Program)
    (input : Array UInt8)
    (depth index start : Nat) :
    (program.invoke input depth index start).StaysIn
      input.size start := by
  induction depth generalizing index start with
  | zero =>
      intro stop hStop
      cases hStop
  | succ depth ih =>
      rw [invoke]
      cases program.procedures[index]? with
      | none =>
          intro stop hStop
          cases hStop
      | some procedure =>
          have hBody :=
            Node.run_staysIn ih procedure.body start
          dsimp only
          split
          · exact hBody
          · exact hBody

/- One depth settles all routines at all offsets. -/
theorem exists_invoke_isSettled
    (hProgram : ofRules rules = .ok program)
    (input : Array UInt8) :
    ∃ depth, ∀ entry, entry < program.procedures.length →
      ∀ start,
        (program.invoke input depth
          entry start).outcome.isSettled = true := by
  refine ⟨program.depthLimit input 0, ?_⟩
  intro entry hEntry start
  have hSettled :=
    trace_isSettled Rule.isRewrite_normalize hProgram
      hEntry input start
  have hDepth :
      program.depthLimit input start ≤
        program.depthLimit input 0 :=
    Nat.mul_le_mul_left _ (by omega)
  rcases exists_routines_of_ofRulesWith
      Rule.isRewrite_normalize hProgram with
    ⟨hAccept, routines, hRoutines, rfl⟩
  have hTable :=
    Entry.isTable_chosen Rule.isRewrite_normalize hAccept
  rw [ofRoutines, List.length_map,
    length_of_mapM_eq_ok hRoutines] at hEntry
  have hFound := List.getElem?_eq_getElem hEntry
  rw [trace, invoke_ofRoutines hTable hRoutines input _
    entry _ start hFound] at hSettled
  rw [invoke_ofRoutines hTable hRoutines input _
    entry _ start hFound,
    Scope.invoke_settles _ input hDepth _ start hSettled]
  exact hSettled

/-
  Every node in a routine comes to an end at every offset.
  The end is that of its run at some depth, and at any depth
  at which the run is not cut off.
-/
theorem exists_evaluates
    (hProgram : ofRules rules = .ok program)
    {procedure : Procedure}
    (hProcedure : procedure ∈ program.procedures)
    {node : Node}
    (hPart : node.IsPart procedure.body)
    (input : Array UInt8)
    (index : Nat) :
    ∃ run,
      program.Evaluates input node index run ∧
      run.StaysIn input.size index ∧
      (∃ depth,
        node.run input (program.invoke input depth) index =
          run) ∧
      ∀ depth,
        (node.run input (program.invoke input depth)
          index).outcome.isSettled = true →
        node.run input (program.invoke input depth) index =
          run := by
  have hRules :
      ∀ depth,
        (node.run input (program.invoke input depth)
          index).outcome.isSettled = true →
        program.Evaluates input node index
          (node.run input (program.invoke input depth)
            index) := by
    intro depth hSettled
    exact
      evaluates_of_isSettled
        (invokes_of_isSettled program input depth)
        node index hSettled
  rcases exists_invoke_isSettled hProgram input with
    ⟨depth, hDepth⟩
  have hStays := program.invoke_staysIn input depth
  have hSettled :
      (node.run input (program.invoke input depth)
        index).outcome.isSettled = true := by
    apply Node.run_isSettled hStays
    intro made hMade i
    rcases (forwards_of_ofRules hProgram).calls _ hProcedure
        made (Node.calls_subset_of_isPart hPart hMade) with
      ⟨callee, hCallee, _⟩
    exact
      hDepth made.1
        (List.getElem?_eq_some_iff.mp hCallee).1 i
  refine
    ⟨_, hRules depth hSettled,
      Node.run_staysIn hStays node index,
      ⟨depth, rfl⟩, ?_⟩
  intro depth' hSettled'
  exact
    Evaluates.unique (hRules depth' hSettled')
      (hRules depth hSettled)

end Program

end Abnf

------------------------------------------------------------
-- Plain Counting
------------------------------------------------------------

namespace Abnf

namespace Node

/-
  The copies of a body, counted from some copies on at an
  offset: how many there are in all, and the offset behind
  the last one. `ends` says how the body ends at an offset.
  A copy that takes no input counts like any other. A body
  that stays in its place without a limit makes more copies
  than any number.
-/
inductive Counts
    (ends : Nat → Outcome → Prop)
    (max : Option Nat) :
    Nat → Nat → ℕ∞ → Nat → Prop
  | full {count index : Nat} :
      max = some count →
      Counts ends max count index count index
  | failed {count index : Nat} :
      max ≠ some count →
      ends index .failed →
      Counts ends max count index count index
  | matched
      {count index next : Nat} {total : ℕ∞} {stop : Nat} :
      max ≠ some count →
      ends index (.matched next) →
      Counts ends max (count + 1) next total stop →
      Counts ends max count index total stop
  | forever {count index : Nat} :
      max = none →
      ends index (.matched index) →
      Counts ends max count index ⊤ index

/- The outcome of an iteration by plain counting. -/
inductive CountsTo
    (ends : Nat → Outcome → Prop)
    (min : Nat)
    (max : Option Nat)
    (start : Nat) : Outcome → Prop
  | tooFew {total : ℕ∞} {stop : Nat} :
      Counts ends max 0 start total stop →
      total < min →
      CountsTo ends min max start .failed
  | enough {total : ℕ∞} {stop : Nat} :
      Counts ends max 0 start total stop →
      min ≤ total →
      CountsTo ends min max start (.matched stop)

/-
  The counter and the offset of an iteration from a start,
  each time it is about to try a copy or to stop.
-/
inductive Rounds
    (ends : Nat → Outcome → Prop)
    (max : Option Nat)
    (start : Nat) : Nat → Nat → Prop
  | first : Rounds ends max start 0 start
  | next {count index stop : Nat} :
      Rounds ends max start count index →
      atLimit max count = false →
      ends index (.matched stop) →
      stop ≠ index →
      Rounds ends max start (count + 1) stop

variable {ends : Nat → Outcome → Prop}
variable {max : Option Nat}

/- Below the limit, the limit is not reached. -/
theorem ne_some_of_atLimit
    {count : Nat}
    (hGoes : atLimit max count = false) :
    max ≠ some count := by
  rintro rfl
  simp [atLimit] at hGoes

/- No more copies than allowed reach the limit only there. -/
theorem eq_some_of_atLimit
    {count : Nat}
    (hFull : atLimit max count = true)
    (hCount : ∀ limit, max = some limit → count ≤ limit) :
    max = some count := by
  cases max with
  | none => cases hFull
  | some limit =>
      have hLimit := hCount limit rfl
      simp only [atLimit, Option.any_some,
        decide_eq_true_eq] at hFull
      rw [Nat.le_antisymm hFull hLimit]

/- Copies are too few, or an iteration ends behind them. -/
theorem endCopies_cases
    (min count index : Nat) :
    (count : ℕ∞) < min ∧
        endCopies min count index = .failed ∨
      (min : ℕ∞) ≤ count ∧
        endCopies min count index = .matched index := by
  unfold endCopies
  rcases lt_or_ge count min with hFew | hMany
  · exact Or.inl ⟨by exact_mod_cast hFew, if_pos hFew⟩
  · exact
      Or.inr
        ⟨by exact_mod_cast hMany,
          if_neg (Nat.not_lt.mpr hMany)⟩

/- A body that stays in its place makes all copies. -/
theorem counts_of_stays
    {count index limit : Nat}
    (hStays : ends index (.matched index))
    (hCount : count ≤ limit) :
    Counts ends (some limit) count index limit index := by
  induction hGap : limit - count generalizing count with
  | zero =>
      have hFull : count = limit := by omega
      subst hFull
      exact Counts.full rfl
  | succ gap ih =>
      have hGoes : some limit ≠ some count := by
        intro hSame
        cases hSame
        omega
      exact
        Counts.matched hGoes hStays
          (ih (by omega) (by omega))

section

variable
  (hEnds :
    ∀ i outcome outcome',
      ends i outcome → ends i outcome' → outcome = outcome')

include hEnds

/- Staying in place without a limit makes endless copies. -/
theorem Counts.eq_top
    {count index stop : Nat}
    {total : ℕ∞}
    (hMax : max = none)
    (hStays : ends index (.matched index))
    (hCounts : Counts ends max count index total stop) :
    total = ⊤ ∧ stop = index := by
  induction hCounts with
  | full hFull =>
      rw [hMax] at hFull
      cases hFull
  | failed _ hFailed => cases hEnds _ _ _ hFailed hStays
  | matched _ hNext _ ih =>
      cases hEnds _ _ _ hNext hStays
      exact ih hStays
  | forever _ _ => exact ⟨rfl, rfl⟩

/- The copies of a body are counted in one way. -/
theorem Counts.unique
    {count index stop stop' : Nat}
    {total total' : ℕ∞}
    (hCounts : Counts ends max count index total stop)
    (hCounts' : Counts ends max count index total' stop') :
    total = total' ∧ stop = stop' := by
  induction hCounts with
  | full hFull =>
      cases hCounts' with
      | full _ => exact ⟨rfl, rfl⟩
      | failed hGoes _ => exact absurd hFull hGoes
      | matched hGoes _ _ => exact absurd hFull hGoes
      | forever hMax _ =>
          rw [hMax] at hFull
          cases hFull
  | failed hGoes hFailed =>
      cases hCounts' with
      | full hFull => exact absurd hFull hGoes
      | failed _ _ => exact ⟨rfl, rfl⟩
      | matched _ hNext _ => cases hEnds _ _ _ hFailed hNext
      | forever _ hStays => cases hEnds _ _ _ hFailed hStays
  | matched hGoes hNext hRest ih =>
      cases hCounts' with
      | full hFull => exact absurd hFull hGoes
      | failed _ hFailed => cases hEnds _ _ _ hFailed hNext
      | matched _ hNext' hRest' =>
          cases hEnds _ _ _ hNext hNext'
          exact ih hRest'
      | forever hMax hStays =>
          cases hEnds _ _ _ hNext hStays
          exact hRest.eq_top hEnds hMax hStays
  | forever hMax hStays =>
      have hTop := hCounts'.eq_top hEnds hMax hStays
      exact ⟨hTop.1.symm, hTop.2.symm⟩

/- Plain counting comes to one outcome. -/
theorem CountsTo.unique
    {min start : Nat}
    {outcome outcome' : Outcome}
    (hCounts : CountsTo ends min max start outcome)
    (hCounts' : CountsTo ends min max start outcome') :
    outcome = outcome' := by
  cases hCounts with
  | tooFew h hFew =>
      cases hCounts' with
      | tooFew _ _ => rfl
      | enough h' hMany =>
          rw [(h.unique hEnds h').1] at hFew
          exact absurd hMany (not_le_of_gt hFew)
  | enough h hMany =>
      cases hCounts' with
      | tooFew h' hFew =>
          rw [(h'.unique hEnds h).1] at hFew
          exact absurd hMany (not_le_of_gt hFew)
      | enough h' _ => rw [(h.unique hEnds h').2]

end

end Node

end Abnf

------------------------------------------------------------
-- The Counter Of An Iteration
------------------------------------------------------------

namespace Abnf

/-
  An iteration counts no more copies than the bytes that it
  has taken, and takes no more than there are.
-/
theorem Node.Rounds.add_le
    {ends : Nat → Outcome → Prop}
    {limit : Option Nat}
    {size start count index : Nat}
    (hStays :
      ∀ i stop, ends i (.matched stop) →
        i ≤ stop ∧ stop ≤ max i size)
    (hRounds : Rounds ends limit start count index) :
    start + count ≤ index ∧ index ≤ max start size := by
  induction hRounds with
  | first => exact ⟨Nat.le_refl _, Nat.le_max_left _ _⟩
  | @next count index stop _ _ hStop hMoves ih =>
      have hNext := hStays index stop hStop
      omega

namespace Program

variable {program : Program}
variable {input : Array UInt8}

/- A node at an offset comes to an outcome. -/
def Ends
    (program : Program)
    (input : Array UInt8)
    (node : Node)
    (index : Nat)
    (outcome : Outcome) : Prop :=
  ∃ run, program.Evaluates input node index run ∧
    run.outcome = outcome

/- A node at an offset comes to one outcome. -/
theorem Ends.unique
    {node : Node}
    {index : Nat}
    {outcome outcome' : Outcome}
    (hEnds : program.Ends input node index outcome)
    (hEnds' : program.Ends input node index outcome') :
    outcome = outcome' := by
  rcases hEnds with ⟨run, hRun, rfl⟩
  rcases hEnds' with ⟨run', hRun', rfl⟩
  rw [hRun.unique hRun']

/- An iteration is at each of its rounds on the way. -/
theorem exists_evaluatesCopies_of_rounds
    {min : Nat}
    {max : Option Nat}
    {body : Node}
    {start count index : Nat}
    {run : Run}
    (hRun :
      program.EvaluatesCopies input min max body 0 start run)
    (hRounds :
      Node.Rounds (program.Ends input body) max
        start count index) :
    ∃ rest,
      program.EvaluatesCopies input
        min max body count index rest ∧
      rest.outcome = run.outcome := by
  induction hRounds with
  | first => exact ⟨run, hRun, rfl⟩
  | next _ hGoes hStop hMoves ih =>
      rcases ih with ⟨rest, hRest, hSame⟩
      cases hRest with
      | full hFull => simp [hFull] at hGoes
      | stay _ hCopy hEnd =>
          cases hStop.unique ⟨_, hCopy, hEnd⟩
          exact absurd rfl hMoves
      | advance _ hCopy hEnd _ hFurther =>
          cases hStop.unique ⟨_, hCopy, hEnd⟩
          exact ⟨_, hFurther, hSame⟩
      | stop _ hCopy hEnd =>
          cases hStop.unique ⟨_, hCopy, hEnd⟩

/-
  What is left of an iteration comes to what plain counting
  comes to. The induction is on the rules of the iteration:
  where a copy stays in its place, plain counting goes on to
  the limit, which is no less than what is due.
-/
theorem exists_counts :
    ∀ {min : Nat} {max : Option Nat} {body : Node}
      {count index : Nat} {run : Run},
      program.EvaluatesCopies input
        min max body count index run →
      (∀ limit, max = some limit →
        min ≤ limit ∧ count ≤ limit) →
      ∃ (total : ℕ∞) (stop : Nat),
        Node.Counts (program.Ends input body) max
          count index total stop ∧
        (total < min ∧ run.outcome = .failed ∨
          min ≤ total ∧ run.outcome = .matched stop)
  | min, max, _, count, index, _, .full hFull, hBounds => by
      have hMax := Node.eq_some_of_atLimit hFull
        (fun limit hMax => (hBounds limit hMax).2)
      exact
        ⟨count, index, Node.Counts.full hMax,
          Node.endCopies_cases min count index⟩
  | min, none, _, count, index, _,
      .stay _ hCopy hEnd, _ => by
      exact
        ⟨⊤, index,
          Node.Counts.forever rfl ⟨_, hCopy, hEnd⟩,
          Or.inr ⟨le_top, hEnd⟩⟩
  | min, some limit, _, count, index, _,
      .stay _ hCopy hEnd, hBounds => by
      have hLimits := hBounds limit rfl
      exact
        ⟨limit, index,
          Node.counts_of_stays ⟨_, hCopy, hEnd⟩ hLimits.2,
          Or.inr ⟨by exact_mod_cast hLimits.1, hEnd⟩⟩
  | min, max, _, count, index, _,
      .advance hGoes hCopy hEnd _ hRest, hBounds => by
      have hFurther :
          ∀ limit, max = some limit →
            min ≤ limit ∧ count + 1 ≤ limit := by
        rintro limit rfl
        have hLimits := hBounds limit rfl
        simp [Node.atLimit] at hGoes
        omega
      rcases exists_counts hRest hFurther with
        ⟨total, stop, hCounts, hOutcome⟩
      exact
        ⟨total, stop,
          Node.Counts.matched
            (Node.ne_some_of_atLimit hGoes)
            ⟨_, hCopy, hEnd⟩ hCounts,
          hOutcome⟩
  | min, max, _, count, index, _,
      .stop hGoes hCopy hEnd, _ => by
      exact
        ⟨count, index,
          Node.Counts.failed
            (Node.ne_some_of_atLimit hGoes)
            ⟨_, hCopy, hEnd⟩,
          Node.endCopies_cases min count index⟩
termination_by structural _ _ _ _ _ _ h => h

/- An iteration comes to what plain counting comes to. -/
theorem countsTo_iff_of_evaluatesCopies
    {min : Nat}
    {max : Option Nat}
    {body : Node}
    {index : Nat}
    {run : Run}
    (hRun :
      program.EvaluatesCopies input min max body 0 index run)
    (hBounds : ∀ limit, max = some limit → min ≤ limit)
    (outcome : Outcome) :
    Node.CountsTo (program.Ends input body)
        min max index outcome ↔
      run.outcome = outcome := by
  have hCounts :
      Node.CountsTo (program.Ends input body)
        min max index run.outcome := by
    rcases exists_counts hRun
        (fun limit hMax =>
          ⟨hBounds limit hMax, Nat.zero_le _⟩) with
      ⟨total, stop, hTotal, hOutcome⟩
    rcases hOutcome with ⟨hFew, hFailed⟩ | ⟨hMany, hStop⟩
    · rw [hFailed]
      exact Node.CountsTo.tooFew hTotal hFew
    · rw [hStop]
      exact Node.CountsTo.enough hTotal hMany
  constructor
  · intro hOutcome
    refine hCounts.unique ?_ hOutcome
    exact fun _ _ _ hEnds hEnds' => hEnds.unique hEnds'
  · rintro rfl
    exact hCounts

variable {rules : List Rule}

/- A part of a procedure ends at its start or in the text. -/
theorem Ends.range
    (hProgram : ofRules rules = .ok program)
    {procedure : Procedure}
    (hProcedure : procedure ∈ program.procedures)
    {node : Node}
    (hPart : node.IsPart procedure.body)
    {index stop : Nat}
    (hEnds : program.Ends input node index (.matched stop)) :
    index ≤ stop ∧ stop ≤ Max.max index input.size := by
  rcases hEnds with ⟨run, hRun, hStop⟩
  rcases exists_evaluates hProgram hProcedure hPart
      input index with
    ⟨run', hRun', hRange, _⟩
  rw [hRun.unique hRun'] at hStop
  exact hRange stop hStop

/-
  Each iteration in a program whose bounds are in order comes
  to an end at every offset. The end is that of the run at
  any depth that does not cut it off, and the one to which
  plain counting comes. Up to its last round, the iteration
  has counted at most one copy for each byte that it has
  taken, so the counter fits wherever the length of the text
  does.
-/
theorem exists_evaluates_iterate
    (hProgram : ofRules rules = .ok program)
    {procedure : Procedure}
    (hProcedure : procedure ∈ program.procedures)
    {min : Nat}
    {max : Option Nat}
    {body : Node}
    (hPart :
      (Node.iterate min max body).IsPart procedure.body)
    (hBounds : ∀ limit, max = some limit → min ≤ limit)
    (input : Array UInt8)
    (index : Nat) :
    ∃ run,
      program.EvaluatesCopies input
        min max body 0 index run ∧
      (∃ depth,
        (Node.iterate min max body).run input
          (program.invoke input depth) index = run) ∧
      (∀ depth,
        ((Node.iterate min max body).run input
          (program.invoke input depth)
            index).outcome.isSettled = true →
        (Node.iterate min max body).run input
          (program.invoke input depth) index = run) ∧
      (∀ outcome,
        Node.CountsTo (program.Ends input body)
          min max index outcome ↔
        run.outcome = outcome) ∧
      ∀ count current,
        Node.Rounds (program.Ends input body) max
          index count current →
        (∃ rest,
          program.EvaluatesCopies input
            min max body count current rest ∧
          rest.outcome = run.outcome) ∧
        index + count ≤ current ∧
        (current = index ∨ current ≤ input.size) ∧
        ∀ width, input.size < 2 ^ width →
          count < 2 ^ width := by
  rcases exists_evaluates hProgram hProcedure hPart
      input index with
    ⟨run, hRun, _, hSome, hAll⟩
  rcases hRun with _ | _ | _ | _ | _ | _ | hCopies
  refine
    ⟨run, hCopies, hSome, hAll,
      countsTo_iff_of_evaluatesCopies hCopies hBounds, ?_⟩
  intro count current hRounds
  have hRange :=
    hRounds.add_le
      (fun _ _ => Ends.range hProgram hProcedure
        (Node.isPart_body hPart))
  refine
    ⟨exists_evaluatesCopies_of_rounds hCopies hRounds,
      hRange.1, ?_, ?_⟩
  · omega
  · intro width hWidth
    have hPositive : 0 < 2 ^ width := by omega
    omega

/-
  Two or three times nothing or a letter: a copy that takes
  no input may come behind one that does.
-/
def paddedLetters : List Rule :=
  [⟨"letters",
    .repetition 2 (some 3)
      (.repetition 0 (some 1) (.chars "a"))⟩]

/- The letters of a text that ends within the bounds. -/
theorem exists_evaluates_iterate_paddedLetters :
    ∃ program procedure body,
      ofRules paddedLetters = .ok program ∧
      procedure ∈ program.procedures ∧
      (Node.iterate 2 (some 3) body).IsPart
        procedure.body ∧
      (∀ limit, some 3 = some limit → 2 ≤ limit) ∧
      ∃ run,
        program.EvaluatesCopies #[97]
          2 (some 3) body 0 0 run ∧
        ∀ outcome,
          Node.CountsTo (program.Ends #[97] body)
            2 (some 3) 0 outcome ↔
          run.outcome = outcome := by
  have hMade :
      ∃ test,
        ofRules paddedLetters =
          .ok ⟨[⟨"letters", true,
            .iterate 2 (some 3)
              (.iterate 0 (some 1) (.terminal test))⟩]⟩ :=
    ⟨_, rfl⟩
  rcases hMade with ⟨test, hProgram⟩
  have hBounds :
      ∀ limit, some 3 = some limit → 2 ≤ limit := by
    rintro limit hLimit
    cases hLimit
    decide
  rcases exists_evaluates_iterate hProgram
      List.mem_cons_self Node.IsPart.here hBounds
      #[97] 0 with
    ⟨run, hRun, _, _, hCounts, _⟩
  exact
    ⟨_, _, _, hProgram, List.mem_cons_self,
      Node.IsPart.here, hBounds, run, hRun, hCounts⟩

end Program

end Abnf
