import Abnf.Proofs.Rust.Running

/-
  What the code of an iteration does.

  A loop takes copy after copy. It counts them if some are
  due or there is a limit, and a copy that takes no input is
  the last one and makes up for all that are due.

  Key definitions include:
    * `Abnf.Source.loopVariables`
    * `Abnf.Source.copyBody`
    * `Abnf.Source.iterateBody`

  Main declarations:
    * `Abnf.Source.run_copies`
    * `Abnf.Source.run_loop`
    * `Abnf.Source.follows_iterate`
-/

------------------------------------------------------------
-- Iterations
------------------------------------------------------------

namespace Abnf

namespace Source

open Rust

variable {host : Host}
variable {rounds : Nat}
variable {input : Array UInt8}
variable {audience : Audience}
variable {machine : Rust.Machine}
variable {above base : List Variable}
variable {notices : List Notice}
variable {label : Label}
variable {min : Nat}
variable {counted : Bool}
variable {count index stop : Nat}

/- The variable for the number of copies, if it is used. -/
def counters
    (counted : Bool)
    (count : Nat) : List Variable :=
  if counted then [⟨"count", true, .size count⟩] else []

theorem areOwn_counters
    (counted : Bool)
    (count : Nat) :
    AreOwn (counters counted count) := by
  cases counted
  · exact areOwn_nil
  · exact areOwn_nil.count _

@[simp] theorem length_counters
    (counted : Bool)
    (count : Nat) :
    (counters counted count).length = counted.toNat := by
  cases counted <;> rfl

/- A copy without input makes up for those that are due. -/
theorem run_lastCopy
    (hAbove : ∀ other ∈ above, other.name ≠ "count")
    (hCounted : counted = false → min = 0)
    (label : Label)
    (count : Nat) :
    (lastCopyBody label min).run host rounds
        ⟨above ++ (counters counted count ++ base),
          notices⟩ =
      some
        (⟨above ++ (counters counted (max count min) ++
            base), notices⟩,
         .error ⟨label.name, .unit⟩) := by
  rw [lastCopyBody]
  by_cases hDue : 0 < min
  · cases counted with
    | false =>
        have hNone := hCounted rfl
        omega
    | true =>
        rw [if_pos hDue]
        have hGet :
            Machine.get?
                ⟨above ++ (counters true count ++ base),
                  notices⟩ "count" =
              some (.size count) :=
          (Machine.get?_append hAbove).trans
            (Machine.get?_cons_same true)
        have hMax :
            (Term.method (.name "count") "max"
                [.number min ""]).Gives host rounds
              ⟨above ++ (counters true count ++ base),
                notices⟩
              (.size (max count min)) :=
          (run_method (gives_name hGet)
            (.cons (gives_number rfl) .nil)).trans rfl
        have hAssign :
            (Term.assign "count"
                (.method (.name "count") "max"
                  [.number min ""])).run host rounds
                ⟨above ++ (counters true count ++ base),
                  notices⟩ =
              some
                (⟨above ++ (counters true (max count min) ++
                    base), notices⟩,
                 .ok .unit) := by
          rw [Term.run, Step.bind_eq_chain,
            Step.chain_of_ok hMax]
          exact
            Step.chain_of_ok (Step.assign_append hAbove) _
        rw [Body.run, Step.bind_eq_chain,
          Step.chain_of_ok hAssign]
        rfl
  · have hNone : min = 0 := by omega
    rw [if_neg hDue, hNone, Nat.max_zero]
    rfl

/- The index moves to the end of a copy. -/
theorem run_moveIndex
    (hAbove : AreOwn above)
    (hNext :
      ∀ below,
        Machine.get? ⟨above ++ below, notices⟩ "next" =
          some (.size stop)) :
    (Body.perform (.assign "index" (.name "next"))
        .done).run host rounds
        ⟨above ++ (counters counted count ++
            ⟨"index", true, .size index⟩ :: base),
          notices⟩ =
      some
        (⟨above ++ (counters counted count ++
            ⟨"index", true, .size stop⟩ :: base), notices⟩,
         .ok .unit) := by
  have hStop :
      (Term.name "next").Gives host rounds
        ⟨above ++ (counters counted count ++
            ⟨"index", true, .size index⟩ :: base),
          notices⟩
        (.size stop) := gives_name (hNext _)
  have hOwn : AreOwn (above ++ counters counted count) :=
    List.forall_mem_append.mpr
      ⟨hAbove, areOwn_counters counted count⟩
  have hAssign :
      Step.assign "index" (.size stop)
          ⟨above ++ (counters counted count ++
              ⟨"index", true, .size index⟩ :: base),
            notices⟩ =
        some
          (⟨above ++ (counters counted count ++
              ⟨"index", true, .size stop⟩ :: base),
            notices⟩,
           .ok ()) := by
    simp only [← List.append_assoc]
    exact Step.assign_append (hOwn.ne (by decide))
  have hTerm :
      (Term.assign "index" (.name "next")).run host rounds
          ⟨above ++ (counters counted count ++
              ⟨"index", true, .size index⟩ :: base),
            notices⟩ =
        some
          (⟨above ++ (counters counted count ++
              ⟨"index", true, .size stop⟩ :: base),
            notices⟩,
           .ok .unit) := by
    rw [Term.run, Step.bind_eq_chain,
      Step.chain_of_ok hStop]
    exact Step.chain_of_ok hAssign _
  rw [Body.run, Step.bind_eq_chain,
    Step.chain_of_ok hTerm]
  rfl

/- A copy with input is counted, and the index moves. -/
theorem run_countCopy
    (hAbove : AreOwn above)
    (hOther : ∀ other ∈ above, other.name ≠ "count")
    (hNext :
      ∀ below,
        Machine.get? ⟨above ++ below, notices⟩ "next" =
          some (.size stop)) :
    (countCopyBody counted).run host rounds
        ⟨above ++ (counters counted count ++
            ⟨"index", true, .size index⟩ :: base),
          notices⟩ =
      some
        (⟨above ++ (counters counted (count + 1) ++
            ⟨"index", true, .size stop⟩ :: base), notices⟩,
         .ok .unit) := by
  cases counted with
  | false => exact run_moveIndex hAbove hNext
  | true =>
      have hGet :
          Machine.get?
              ⟨above ++ (counters true count ++
                  ⟨"index", true, .size index⟩ :: base),
                notices⟩ "count" =
            some (.size count) :=
        (Machine.get?_append hOther).trans
          (Machine.get?_cons_same true)
      have hIncrease :
          (Term.increase "count" (.number 1 "")).run host
              rounds
              ⟨above ++ (counters true count ++
                  ⟨"index", true, .size index⟩ :: base),
                notices⟩ =
            some
              (⟨above ++ (counters true (count + 1) ++
                  ⟨"index", true, .size index⟩ :: base),
                notices⟩,
               .ok .unit) := by
        have hOne :
            (Term.number 1 "").Gives host rounds
              ⟨above ++ (counters true count ++
                  ⟨"index", true, .size index⟩ :: base),
                notices⟩
              (.number .literal 1) := gives_number rfl
        rw [Term.run, Step.bind_eq_chain,
          Step.chain_of_ok hOne, Step.bind_eq_chain,
          Step.chain_of_ok (Step.look_of_get? hGet)]
        exact Step.chain_of_ok (Step.assign_append hOther) _
      rw [countCopyBody, if_pos rfl, Body.run,
        Step.bind_eq_chain, Step.chain_of_ok hIncrease]
      exact run_moveIndex hAbove hNext

/- The variables of a loop, below the attempt in it. -/
def loopVariables
    (counted : Bool)
    (base : List Variable)
    (count index : Nat) : List Variable :=
  counters counted count ++
    ⟨"index", true, .size index⟩ :: base

@[simp] theorem length_loopVariables
    (counted : Bool)
    (base : List Variable)
    (count index : Nat) :
    (loopVariables counted base count index).length =
      counted.toNat + (base.length + 1) := by
  simp [loopVariables]

/- The copy ends where it starts. -/
theorem gives_isStill
    (counted : Bool)
    (base : List Variable)
    (count index stop : Nat) :
    (Term.operate .equal (.name "next")
        (.name "index")).Gives host rounds
      ⟨Pattern.locals (some ("next", .size stop)) ++
        ⟨"next", false, .ofStop (some stop)⟩ ::
          loopVariables counted base count index,
        notices⟩
      (.truth (stop == index)) := by
  have hOwn :
      AreOwn
        (⟨"next", false, .size stop⟩ ::
          ⟨"next", false, .ofStop (some stop)⟩ ::
            counters counted count) :=
    ((areOwn_counters counted count).next _).next _
  have hIndex :
      Machine.get?
          ⟨Pattern.locals (some ("next", .size stop)) ++
            ⟨"next", false, .ofStop (some stop)⟩ ::
              loopVariables counted base count index,
            notices⟩ "index" =
        some (.size index) :=
    (Machine.get?_append (hOwn.ne (by decide))).trans
      (Machine.get?_cons_same true)
  exact
    gives_operate (by decide) (gives_name rfl)
      (gives_name hIndex)
      (@compare_eq .usize .usize .usize stop index rfl rfl
        rfl (· == ·))

/- The last copy takes no input. -/
theorem run_takeCopy_still
    (hCounted : counted = false → min = 0)
    (label : Label)
    (count index : Nat) :
    (takeCopyTerm label min counted).run host rounds
        ⟨⟨"next", false, .ofStop (some index)⟩ ::
            loopVariables counted base count index,
          notices⟩ =
      some
        (⟨⟨"next", false, .ofStop (some index)⟩ ::
            loopVariables counted base (max count min) index,
          notices⟩,
         .error ⟨label.name, .unit⟩) := by
  have hNext :
      (Term.name "next").Gives host rounds
        ⟨⟨"next", false, .ofStop (some index)⟩ ::
            loopVariables counted base count index,
          notices⟩
        (.ofStop (some index)) := gives_name rfl
  have hBound :
      (Pattern.just "next").bind? (.ofStop (some index)) =
        some (some ("next", .size index)) := rfl
  have hGuard :=
    @gives_isStill host rounds notices counted base count
      index index
  rw [beq_self_eq_true] at hGuard
  have hLast :=
    @run_lastCopy host rounds
      [⟨"next", false, .size index⟩,
       ⟨"next", false, .ofStop (some index)⟩]
      (⟨"index", true, .size index⟩ :: base) notices min
      counted (by simp) hCounted label count
  have hBlock :
      (Term.block none (lastCopyBody label min)).run host
          rounds
          ⟨Pattern.locals (some ("next", .size index)) ++
            ⟨"next", false, .ofStop (some index)⟩ ::
              loopVariables counted base count index,
            notices⟩ =
        some
          (⟨Pattern.locals (some ("next", .size index)) ++
            ⟨"next", false, .ofStop (some index)⟩ ::
              loopVariables counted base (max count min)
                index, notices⟩,
           .error ⟨label.name, .unit⟩) :=
    @run_unlabelled _ _ _ _ [] _ _ _ hLast (by simp)
  rw [takeCopyTerm, Term.run, Step.bind_eq_chain,
    Step.chain_of_ok hNext]
  exact run_guarded hBound hGuard hBlock (by simp) _

/- A copy takes input. -/
theorem run_takeCopy_moved
    (hMoved : stop ≠ index)
    (label : Label)
    (min count : Nat) :
    (takeCopyTerm label min counted).run host rounds
        ⟨⟨"next", false, .ofStop (some stop)⟩ ::
            loopVariables counted base count index,
          notices⟩ =
      some
        (⟨⟨"next", false, .ofStop (some stop)⟩ ::
            loopVariables counted base (count + 1) stop,
          notices⟩,
         .ok .unit) := by
  have hNext :
      (Term.name "next").Gives host rounds
        ⟨⟨"next", false, .ofStop (some stop)⟩ ::
            loopVariables counted base count index,
          notices⟩
        (.ofStop (some stop)) := gives_name rfl
  have hBound :
      (Pattern.just "next").bind? (.ofStop (some stop)) =
        some (some ("next", .size stop)) := rfl
  have hGuard :=
    @gives_isStill host rounds notices counted base count
      index stop
  rw [beq_false_of_ne hMoved] at hGuard
  have hTaken :=
    @run_countCopy host rounds
      [⟨"next", false, .size stop⟩,
       ⟨"next", false, .ofStop (some stop)⟩]
      base notices counted count index stop
      ((areOwn_nil.next _).next _) (by simp) (fun _ => rfl)
  have hBlock :
      (Term.block none (countCopyBody counted)).run host
          rounds
          ⟨Pattern.locals (some ("next", .size stop)) ++
            ⟨"next", false, .ofStop (some stop)⟩ ::
              loopVariables counted base count index,
            notices⟩ =
        some
          (⟨Pattern.locals (some ("next", .size stop)) ++
            ⟨"next", false, .ofStop (some stop)⟩ ::
              loopVariables counted base (count + 1) stop,
            notices⟩,
           .ok .unit) :=
    @run_unlabelled _ _ _ _ [] _ _ _ hTaken (by simp)
  rw [takeCopyTerm, Term.run, Step.bind_eq_chain,
    Step.chain_of_ok hNext, run_guarded_of_not hBound hGuard]
  exact run_plain hBound hBlock (by simp) _

/- There is no further copy. -/
theorem run_takeCopy_failed
    (label : Label)
    (min : Nat)
    (counted : Bool) :
    (takeCopyTerm label min counted).run host rounds
        ⟨⟨"next", false, .ofStop none⟩ :: base, notices⟩ =
      some
        (⟨⟨"next", false, .ofStop none⟩ :: base, notices⟩,
         .error ⟨label.name, .unit⟩) := by
  have hNext :
      (Term.name "next").Gives host rounds
        ⟨⟨"next", false, .ofStop none⟩ :: base, notices⟩
        .nothing := gives_name rfl
  rw [takeCopyTerm, Term.run, Step.bind_eq_chain,
    Step.chain_of_ok hNext, run_guarded_of_none rfl,
    run_plain_of_none rfl]
  exact
    @run_plain host rounds _ .nothing .nothing none _ [] _ _
      _ rfl rfl rfl _

/- The body of a loop. -/
def copyBody
    (code : Expr)
    (label : Label)
    (min : Nat)
    (counted : Bool) : Body :=
  Stmt.beforeAll .done
    [.letNext code, .takeCopy label min counted]

/- An attempt, then what is done with the copy. -/
theorem run_copyBody
    {code : Expr}
    {notices' : List Notice}
    {value : Value}
    {after : List Variable}
    {result : Except Exit Value}
    (hCode :
      code.term.run host rounds machine =
        some (⟨machine.locals, notices'⟩, .ok value))
    (hTake :
      (takeCopyTerm label min counted).run host rounds
          ⟨⟨"next", false, value⟩ :: machine.locals,
            notices'⟩ =
        some
          (⟨⟨"next", false, value⟩ :: after, notices'⟩,
            result))
    (hLength : after.length = machine.locals.length) :
    Step.inside
        ((copyBody code label min counted).run host rounds)
        machine =
      some (⟨after, notices'⟩, result) := by
  refine
    Step.inside_eq [⟨"next", false, value⟩] ?_ hLength
  exact (run_bind hCode "next" false _).trans hTake

/- No copies are due where they are not counted. -/
theorem eq_zero_of_not_counted
    {max : Option Nat}
    (hCounted : counted = (0 < min || max.isSome))
    (hPlain : counted = false) :
    min = 0 := by
  rw [hPlain] at hCounted
  have hNone := (Bool.or_eq_false_iff.mp hCounted.symm).1
  have hZero := of_decide_eq_false hNone
  omega

/- A round in which a copy takes no input is the last one. -/
theorem run_round_still
    {code : Expr}
    {run : Nat → Run}
    (hCode : code.Follows host rounds input audience run)
    (hShows :
      Machine.Shows
        ⟨loopVariables counted base count index, notices⟩
        input audience index)
    (hCounted : counted = false → min = 0)
    (label : Label)
    (hOutcome : (run index).outcome = .matched index) :
    Step.inside
        ((copyBody code label min counted).run host rounds)
        ⟨loopVariables counted base count index, notices⟩ =
      some
        (⟨loopVariables counted base (max count min) index,
          notices ++
            audience.notices input (run index).events⟩,
         .error ⟨label.name, .unit⟩) := by
  have hRun := hCode _ index hShows
  rw [hOutcome] at hRun
  exact
    run_copyBody (hRun rfl)
      (run_takeCopy_still hCounted label count index)
      (by simp)

/- A round in which a copy takes input is not the last one. -/
theorem run_round_moved
    {code : Expr}
    {run : Nat → Run}
    (hCode : code.Follows host rounds input audience run)
    (hShows :
      Machine.Shows
        ⟨loopVariables counted base count index, notices⟩
        input audience index)
    (label : Label)
    (min : Nat)
    (hOutcome : (run index).outcome = .matched stop)
    (hMoved : stop ≠ index) :
    Step.inside
        ((copyBody code label min counted).run host rounds)
        ⟨loopVariables counted base count index, notices⟩ =
      some
        (⟨loopVariables counted base (count + 1) stop,
          notices ++
            audience.notices input (run index).events⟩,
         .ok .unit) := by
  have hRun := hCode _ index hShows
  rw [hOutcome] at hRun
  exact
    run_copyBody (hRun rfl)
      (run_takeCopy_moved hMoved label min count) (by simp)

/- A round without a copy is the last one. -/
theorem run_round_failed
    {code : Expr}
    {run : Nat → Run}
    (hCode : code.Follows host rounds input audience run)
    (hShows :
      Machine.Shows
        ⟨loopVariables counted base count index, notices⟩
        input audience index)
    (label : Label)
    (min : Nat)
    (hOutcome : (run index).outcome = .failed) :
    Step.inside
        ((copyBody code label min counted).run host rounds)
        ⟨loopVariables counted base count index, notices⟩ =
      some
        (⟨loopVariables counted base count index,
          notices ++
            audience.notices input (run index).events⟩,
         .error ⟨label.name, .unit⟩) := by
  have hRun := hCode _ index hShows
  rw [hOutcome] at hRun
  exact
    run_copyBody (hRun rfl)
      (run_takeCopy_failed label min counted) rfl

/-
  A loop takes the copies of an iteration. By induction on
  the number of copies allowed: a round takes a copy or is
  the last one.
-/
theorem run_copies
    {code : Expr}
    {run : Nat → Run}
    {max : Option Nat}
    {start : Nat}
    {test : Step Bool}
    (hCode : code.Follows host rounds input audience run)
    (hShows : machine.Shows input audience start)
    (hCounted : counted = (0 < min || max.isSome))
    (hTest :
      ∀ count index notices,
        test
            ⟨loopVariables counted machine.locals count
              index, notices⟩ =
          some
            (⟨loopVariables counted machine.locals count
              index, notices⟩,
             .ok (!Node.atLimit max count)))
    (label : Label)
    (allowance : Nat)
    (count index : Nat)
    (notices : List Notice)
    (hSettled :
      (Node.runCopies run min max allowance count
        index).outcome.isSettled = true)
    {limit : Nat}
    (hLimit : allowance ≤ limit) :
    ∃ count' index' result,
      Step.repeating test
          (Step.inside
            ((copyBody code label min counted).run host
              rounds)) limit
          ⟨loopVariables counted machine.locals count
            index, notices⟩ =
        some
          (⟨loopVariables counted machine.locals count'
              index',
            notices ++
              audience.notices input
                (Node.runCopies run min max allowance count
                  index).events⟩, result) ∧
      (result = .ok .unit ∨
        result = .error ⟨label.name, .unit⟩) ∧
      (Node.runCopies run min max allowance count
          index).outcome =
        Node.endCopies min count' index' := by
  induction allowance generalizing count index notices limit with
  | zero => cases hSettled
  | succ allowance ih =>
      obtain ⟨limit, rfl⟩ :=
        Nat.exists_eq_succ_of_ne_zero
          (show limit ≠ 0 by omega)
      have hInner :
          Machine.Shows
            ⟨loopVariables counted machine.locals count
              index, notices⟩
            input audience index :=
        hShows.moved (areOwn_counters counted count) index
      have hRound :=
        Node.round_runCopies run min max allowance
          count index
      generalize Node.runCopies run min max (allowance + 1)
        count index = whole at hSettled hRound ⊢
      rw [Step.repeating, Step.bind_eq_chain,
        Step.chain_of_ok (hTest count index notices)]
      cases hRound with
      | full hFull =>
          rw [hFull, audience.notices_quiet,
            List.append_nil]
          exact
            ⟨count, index, .ok .unit, rfl, .inl rfl, rfl⟩
      | still hBelow hStill =>
          have hLast :=
            run_round_still hCode hInner
              (eq_zero_of_not_counted hCounted) label hStill
          have hMany : ¬ Nat.max count min < min :=
            Nat.not_lt.mpr (Nat.le_max_right _ _)
          rw [hBelow, hStill]
          refine
            ⟨Nat.max count min, index,
              .error ⟨label.name, .unit⟩,
              Step.chain_of_error hLast _, .inr rfl, ?_⟩
          rw [Node.endCopies, if_neg hMany]
      | @moved next hBelow hMoved hNext =>
          have hCopy :=
            run_round_moved hCode hInner label min hMoved
              hNext
          rcases ih (count + 1) next _ hSettled
              (show allowance ≤ limit by omega) with
            ⟨count', index', result, hRest, hResult, hEnd⟩
          refine
            ⟨count', index', result, ?_, hResult, hEnd⟩
          rw [hBelow, audience.notices_after,
            ← List.append_assoc, ← hRest]
          exact Step.chain_of_ok hCopy _
      | ended hBelow hFailed =>
          have hLast :=
            run_round_failed hCode hInner label min hFailed
          rw [hBelow, audience.notices_after,
            audience.notices_quiet, List.append_nil]
          exact
            ⟨count, index, .error ⟨label.name, .unit⟩,
              Step.chain_of_error hLast _, .inr rfl, rfl⟩
      | broken hBelow hBroken =>
          rw [hBroken] at hSettled
          cases hSettled

/- The test of a loop holds below its limit. -/
theorem gives_belowLimit
    (limit count index : Nat) :
    (Term.operate .less (.name "count")
        (.number limit "")).Gives host rounds
      ⟨loopVariables true base count index, notices⟩
      (.truth (count < limit)) :=
  gives_operate (by decide) (gives_name rfl)
    (gives_number rfl)
    (@compare_eq .usize .literal .usize count limit rfl rfl
      rfl (fun m n => m < n))

/-
  A loop that is left at its last copy comes to the number
  of copies and their end, whatever way its test has of
  telling whether there may be a further copy.
-/
theorem catch_copies
    {code : Expr}
    {run : Nat → Run}
    {max : Option Nat}
    {start : Nat}
    {test : Step Bool}
    (hCode : code.Follows host rounds input audience run)
    (hShows : machine.Shows input audience start)
    (hCounted : counted = (0 < min || max.isSome))
    (hTest :
      ∀ count index notices,
        test
            ⟨loopVariables counted machine.locals count
              index, notices⟩ =
          some
            (⟨loopVariables counted machine.locals count
              index, notices⟩,
             .ok (!Node.atLimit max count)))
    (label : Label)
    {allowance : Nat}
    (index : Nat)
    (notices : List Notice)
    (hSettled :
      (Node.runCopies run min max allowance 0
        index).outcome.isSettled = true)
    (hRounds : allowance ≤ rounds) :
    ∃ count' index',
      Step.catching (some label.name)
          (Step.repeating test
            (Step.inside
              ((copyBody code label min counted).run host
                rounds)) rounds)
          ⟨loopVariables counted machine.locals 0 index,
            notices⟩ =
        some
          (⟨loopVariables counted machine.locals count'
              index',
            notices ++
              audience.notices input
                (Node.runCopies run min max allowance 0
                  index).events⟩, .ok .unit) ∧
      (Node.runCopies run min max allowance 0
          index).outcome =
        Node.endCopies min count' index' := by
  rcases run_copies hCode hShows hCounted hTest label
      allowance 0 index notices hSettled hRounds with
    ⟨count', index', result, hRun, hResult, hEnd⟩
  refine ⟨count', index', ?_, hEnd⟩
  rcases hResult with rfl | rfl
  · exact Step.catching_of_ok hRun _
  · exact Step.catching_of_error hRun

/- A loop ends with the number of copies and their end. -/
theorem run_loop
    {code : Expr}
    {run : Nat → Run}
    {max : Option Nat}
    {start : Nat}
    (hCode : code.Follows host rounds input audience run)
    (hShows : machine.Shows input audience start)
    (hCounted : counted = (0 < min || max.isSome))
    (label : Label)
    {allowance : Nat}
    (index : Nat)
    (notices : List Notice)
    (hSettled :
      (Node.runCopies run min max allowance 0
        index).outcome.isSettled = true)
    (hRounds : allowance ≤ rounds) :
    ∃ count' index',
      (loopTerm label (copyBody code label min counted)
          max).run host rounds
          ⟨loopVariables counted machine.locals 0 index,
            notices⟩ =
        some
          (⟨loopVariables counted machine.locals count'
              index',
            notices ++
              audience.notices input
                (Node.runCopies run min max allowance 0
                  index).events⟩, .ok .unit) ∧
      (Node.runCopies run min max allowance 0
          index).outcome =
        Node.endCopies min count' index' := by
  cases max with
  | none =>
      rw [loopTerm, Term.run]
      exact
        catch_copies hCode hShows hCounted
          (fun _ _ _ => rfl) label index notices hSettled
          hRounds
  | some limit =>
      rw [loopTerm, Term.run]
      refine
        catch_copies hCode hShows hCounted ?_ label index
          notices hSettled hRounds
      intro count index notices
      have hTrue : counted = true := by
        rw [hCounted]
        simp
      subst hTrue
      have hTest :=
        @gives_belowLimit host rounds machine.locals
          notices limit count index
      rw [Term.Gives] at hTest
      have hBelow :
          (!Node.atLimit (some limit) count) =
            decide (count < limit) := by
        simp [Node.atLimit, ← decide_not]
      rw [hBelow]
      exact Step.chain_of_ok hTest _

/- Too few copies are no match. -/
theorem run_demand
    (label : Label)
    (min count index : Nat) :
    (demandTerm min label).run host rounds
        ⟨loopVariables true base count index, notices⟩ =
      some
        (⟨loopVariables true base count index, notices⟩,
         if count < min then .error ⟨label.name, .nothing⟩
         else .ok .unit) := by
  have hTest :=
    @gives_belowLimit host rounds base notices min count
      index
  rw [demandTerm]
  by_cases hFew : count < min
  · rw [decide_eq_true hFew] at hTest
    rw [if_pos hFew]
    refine
      @run_when _ _ _ _ _ [] _ notices _ hTest ?_ rfl
    rfl
  · rw [decide_eq_false hFew] at hTest
    rw [if_neg hFew]
    exact run_when_of_not hTest _

/- The statements of an iteration, before its value. -/
def iterateBody
    (outer inner : Label)
    (min : Nat)
    (max : Option Nat)
    (counted : Bool)
    (code : Expr) : List Stmt :=
  [.letIndex] ++
    (if counted then [.letCount] else []) ++
    [.loop inner max
      [.letNext code, .takeCopy inner min counted]] ++
    (if 0 < min then [.demand min outer] else [])

theorem beforeAll_append
    (rest : Body)
    (body body' : List Stmt) :
    Stmt.beforeAll rest (body ++ body') =
      Stmt.beforeAll (Stmt.beforeAll rest body') body := by
  induction body with
  | nil => rw [List.nil_append, Stmt.beforeAll]
  | cons stmt body ih =>
      rw [List.cons_append, Stmt.beforeAll, ih,
        Stmt.beforeAll]

/- What stands behind the loop of an iteration. -/
theorem yields_endCopies
    (hCounted : counted = false → min = 0)
    (label : Label)
    (base : List Variable)
    (notices : List Notice)
    (count index : Nat) :
    Yields host rounds
      (Stmt.beforeAll (.value Expr.found.term)
        (if 0 < min then [.demand min label] else []))
      ⟨loopVariables counted base count index, notices⟩
      label.name base notices
      (.ofStop (Node.endCopies min count index).stop?) := by
  have hAdded :
      ∃ added, ∀ notices,
        Rust.Machine.mk (loopVariables counted base count index)
            notices =
          ⟨added ++ base, notices⟩ :=
    ⟨counters counted count ++
        [⟨"index", true, .size index⟩],
      fun _ => by simp [loopVariables]⟩
  rcases hAdded with ⟨added, hAdded⟩
  have hGet :
      Machine.get?
          ⟨loopVariables counted base count index, notices⟩
          "index" =
        some (.size index) :=
    (Machine.get?_append
      ((areOwn_counters counted count).ne
        (by decide))).trans
      (Machine.get?_cons_same true)
  have hFound :
      (Body.value Expr.found.term).run host rounds
          ⟨loopVariables counted base count index,
            notices⟩ =
        some
          (⟨loopVariables counted base count index,
            notices⟩, .ok (.just (.size index))) :=
    gives_just (gives_name hGet)
  have hMatched :
      Yields host rounds (.value Expr.found.term)
        ⟨loopVariables counted base count index, notices⟩
        label.name base notices (.just (.size index)) :=
    ⟨added, _, hFound.trans (by rw [hAdded]), .inl rfl⟩
  by_cases hDue : 0 < min
  · have hTrue : counted = true := by
      cases counted with
      | true => rfl
      | false =>
          have hNone := hCounted rfl
          omega
    subst hTrue
    have hDemand :=
      @run_demand host rounds base notices label min count
        index
    have hBody :
        Stmt.beforeAll (.value Expr.found.term)
            [.demand min label] =
          .behind (demandTerm min label)
            (.value Expr.found.term) := rfl
    rw [if_pos hDue, Node.endCopies, hBody]
    by_cases hFew : count < min
    · rw [if_pos hFew] at hDemand ⊢
      refine ⟨added, _, ?_, .inr rfl⟩
      rw [← hAdded]
      exact run_behind_of_error hDemand _
    · rw [if_neg hFew] at hDemand ⊢
      exact hMatched.ofEq (run_behind_of_ok hDemand _)
  · have hMany : ¬ count < min := by omega
    rw [if_neg hDue, Node.endCopies, if_neg hMany]
    exact hMatched

/- The code of an iteration takes its copies in a loop. -/
theorem follows_iterate
    {code : Expr}
    {run : Nat → Run}
    (hCode : code.Follows host rounds input audience run)
    (hRounds : input.size + 1 ≤ rounds)
    (outer inner : Label)
    (min : Nat)
    (max : Option Nat) :
    (Expr.block outer
        (iterateBody outer inner min max
          (0 < min || max.isSome) code)
        .found).Follows host rounds input audience
      (fun index =>
        Node.runCopies run min max (input.size - index + 1) 0
          index) := by
  intro machine index hShows hSettled
  obtain ⟨counted, hCounted⟩ :
      ∃ counted : Bool,
        counted = (0 < min || max.isSome) := ⟨_, rfl⟩
  have hIndex :
      (Term.name "index").Gives host rounds machine
        (.size index) := gives_name hShows.index
  dsimp only at hSettled
  rcases run_loop hCode hShows hCounted inner index
      machine.notices hSettled (by omega) with
    ⟨count', index', hLoop, hEnd⟩
  have hCount :
      ∀ body : Body,
        (Stmt.beforeAll body
            (if counted then [.letCount] else [])).run host
            rounds
            ⟨⟨"index", true, .size index⟩ ::
              machine.locals, machine.notices⟩ =
          body.run host rounds
            ⟨loopVariables counted machine.locals 0
              index, machine.notices⟩ := by
    intro body
    cases counted <;> rfl
  rw [← hCounted, Expr.term, iterateBody, beforeAll_append,
    beforeAll_append, beforeAll_append]
  apply run_block
  refine Yields.ofEq (run_bind hIndex "index" true _) ?_
  refine Yields.ofEq (hCount _) ?_
  refine Yields.ofEq (run_behind_of_ok hLoop _) ?_
  rw [hEnd]
  exact
    yields_endCopies (eq_zero_of_not_counted hCounted) outer
      _ _ count' index'

end Source

end Abnf
