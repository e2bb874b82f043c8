import Abnf.Proofs.GrammarSafety
import Abnf.Proofs.Pruning

/-
  Grammars that start inside a text.

  To read a text from a position on is to read what stands
  behind the position, with each offset moved by that of
  the position. A run on a text behind some bytes is the
  run on the text alone, moved; the assembly that follows a
  moved run differs from the other in the extent of the
  parse and its notes only.

  Key definitions include:
    * `Abnf.Outcome.moved`
    * `Abnf.Event.moved`
    * `Abnf.Call.moved`
    * `Abnf.Run.moved`
    * `Abnf.Grammar.Assembly.IsMoved`
    * `Abnf.ReadError.moved`

  Main declarations:
    * `Abnf.Node.run_append`
    * `Abnf.Program.trace_append`
    * `Abnf.Grammar.Assembly.isMoved_observe`
    * `Abnf.Grammar.readFrom_offset`
-/

------------------------------------------------------------
-- Moving
------------------------------------------------------------

namespace Abnf

/- The outcome with its offset moved. -/
def Outcome.moved
    (offset : Nat) : Outcome → Outcome
  | matched stop => matched (offset + stop)
  | other => other

theorem Outcome.stop?_moved
    (offset : Nat)
    (outcome : Outcome) :
    (outcome.moved offset).stop? =
      outcome.stop?.map (offset + ·) := by
  cases outcome with
  | matched stop => rfl
  | failed => rfl
  | noRoutine index => rfl
  | tooDeep => rfl

/- The event with its offsets moved. -/
def Event.moved
    (offset : Nat) : Event → Event
  | enter rule start => enter rule (offset + start)
  | exit rule start stop =>
      exit rule (offset + start) (stop.map (offset + ·))

namespace Call

mutual

/- The call with all its offsets moved. -/
def moved
    (offset : Nat) : Call → Call
  | call rule start stop inner =>
      call rule (offset + start) (stop.map (offset + ·))
        (movedAll offset inner)

/- The calls with all their offsets moved. -/
def movedAll
    (offset : Nat) : List Call → List Call
  | [] => []
  | first :: others =>
      moved offset first :: movedAll offset others

end

theorem movedAll_append
    (offset : Nat)
    (calls calls' : List Call) :
    movedAll offset (calls ++ calls') =
      movedAll offset calls ++ movedAll offset calls' := by
  induction calls with
  | nil => rfl
  | cons first others ih => simp [movedAll, ih]

mutual

/- A moved call reports the moved events. -/
theorem events_moved
    (offset : Nat) :
    ∀ first : Call,
      (first.moved offset).events =
        first.events.map (·.moved offset)
  | call rule start stop inner => by
      rw [moved, events_call, events_call,
        eventsOfAll_movedAll offset inner]
      simp [Event.moved]

/- Moved calls report the moved events. -/
theorem eventsOfAll_movedAll
    (offset : Nat) :
    ∀ calls : List Call,
      eventsOfAll (movedAll offset calls) =
        (eventsOfAll calls).map (·.moved offset)
  | [] => rfl
  | first :: others => by
      rw [movedAll, eventsOfAll_cons, eventsOfAll_cons,
        events_moved offset first,
        eventsOfAll_movedAll offset others,
        List.map_append]

end

end Call

end Abnf

------------------------------------------------------------
-- Moved Runs
------------------------------------------------------------

namespace Abnf

namespace Run

/- The run with all its offsets moved. -/
def moved
    (offset : Nat)
    (run : Run) : Run :=
  ⟨Call.movedAll offset run.calls,
   run.outcome.moved offset⟩

variable (offset : Nat)

theorem events_moved
    (run : Run) :
    (run.moved offset).events =
      run.events.map (·.moved offset) :=
  Call.eventsOfAll_movedAll offset run.calls

@[simp] theorem moved_quiet
    (outcome : Outcome) :
    (quiet outcome).moved offset =
      quiet (outcome.moved offset) :=
  rfl

theorem moved_silent
    (run : Run) :
    run.silent.moved offset = (run.moved offset).silent :=
  rfl

theorem moved_after
    (calls : List Call)
    (run : Run) :
    (after calls run).moved offset =
      after (Call.movedAll offset calls)
        (run.moved offset) := by
  simp [moved, after, Call.movedAll_append]

theorem moved_reported
    (rule : String)
    (start : Nat)
    (run : Run) :
    (run.reported rule start).moved offset =
      (run.moved offset).reported rule (offset + start) := by
  simp [moved, reported, Call.movedAll, Call.moved,
    Outcome.stop?_moved]

/- What follows a moved match starts at a moved offset. -/
theorem moved_andThen
    (run : Run)
    {next next' : Nat → Run}
    (h :
      ∀ stop,
        next (offset + stop) =
          (next' stop).moved offset) :
    (run.moved offset).andThen next =
      (run.andThen next').moved offset := by
  rcases run with ⟨calls, outcome⟩
  cases outcome with
  | matched stop =>
      exact
        (congrArg _ (h stop)).trans
          (moved_after offset calls _).symm
  | failed => rfl
  | noRoutine index => rfl
  | tooDeep => rfl

theorem moved_orElse
    (run : Run)
    {other other' : Unit → Run}
    (h : other () = (other' ()).moved offset) :
    (run.moved offset).orElse other =
      (run.orElse other').moved offset := by
  rcases run with ⟨calls, outcome⟩
  cases outcome with
  | failed =>
      exact
        (congrArg _ h).trans
          (moved_after offset calls _).symm
  | matched stop => rfl
  | noRoutine index => rfl
  | tooDeep => rfl

end Run

end Abnf

------------------------------------------------------------
-- Nodes Behind Some Bytes
------------------------------------------------------------

namespace Abnf

namespace Node

variable (front rest : Array UInt8)

theorem runTerminal_append
    (test : ByteTest)
    (index : Nat) :
    runTerminal (front ++ rest) test (front.size + index) =
      (runTerminal rest test index).moved front.size := by
  unfold runTerminal
  rw [Array.getElem?_append_right (Nat.le_add_right _ _),
    Nat.add_sub_cancel_left]
  cases rest[index]? with
  | none => rfl
  | some b =>
      dsimp only
      cases test.accepts b
      · rfl
      · rfl

theorem endCopies_moved
    (offset min count index : Nat) :
    endCopies min count (offset + index) =
      (endCopies min count index).moved offset := by
  unfold endCopies
  split
  · rfl
  · rfl

/- An iteration of moved copies is the iteration, moved. -/
theorem runCopies_moved
    (offset : Nat)
    {step step' : Nat → Run}
    (h :
      ∀ index,
        step (offset + index) = (step' index).moved offset)
    (min : Nat)
    (max : Option Nat)
    (allowance count index : Nat) :
    runCopies step min max allowance count
        (offset + index) =
      (runCopies step' min max allowance count
        index).moved offset := by
  induction allowance generalizing count index with
  | zero => rfl
  | succ allowance ih =>
      unfold runCopies
      by_cases hLimit : atLimit max count = true
      · rw [if_pos hLimit, if_pos hLimit, endCopies_moved]
        rfl
      · rw [if_neg hLimit, if_neg hLimit, h]
        rcases step' index with ⟨calls, outcome⟩
        cases outcome with
        | matched next =>
            by_cases hNext : next = index
            · simp [Run.moved, Outcome.moved, hNext,
                endCopies_moved]
            · have hMoved : offset + next ≠ offset + index :=
                fun hSame => hNext (Nat.add_left_cancel hSame)
              simp only [Run.moved, Outcome.moved,
                if_neg hNext, if_neg hMoved, ih]
              exact (Run.moved_after offset calls _).symm
        | failed =>
            simp [Run.moved, Outcome.moved,
              endCopies_moved]
        | noRoutine routine => rfl
        | tooDeep => rfl

/- The copies that a text allows for are those left of it. -/
theorem size_append_sub
    (index : Nat) :
    (front ++ rest).size - (front.size + index) =
      rest.size - index := by
  rw [Array.size_append, Nat.add_sub_add_left]

/- The runs of routines are those of others, moved. -/
def AreMoved
    (offset : Nat)
    (callee callee' : Nat → Nat → Run) : Prop :=
  ∀ routine index,
    callee routine (offset + index) =
      (callee' routine index).moved offset

variable
  {front rest : Array UInt8}
  {callee callee' : Nat → Nat → Run}

mutual

/-
  Behind some bytes a node runs as it does without them, and
  each offset is moved by their number.
-/
theorem run_append
    (h : AreMoved front.size callee callee') :
    ∀ (node : Node) (index : Nat),
      node.run (front ++ rest) callee
          (front.size + index) =
        (node.run rest callee' index).moved front.size
  | empty, _ => rfl
  | terminal test, index => by
      rw [run, run, runTerminal_append]
      rfl
  | call routine forward, index => by
      rw [run, run, h]
      cases forward
      · rfl
      · rfl
  | sequence parts, index => by
      rw [run, run]
      exact runSequence_append h parts index
  | choice parts, index => by
      rw [run, run]
      exact runChoice_append h parts index
  | iterate min max body, index => by
      rw [run, run, size_append_sub]
      exact
        runCopies_moved front.size
          (fun i => run_append h body i) min max _ 0 index

/- The same for nodes one after the other. -/
theorem runSequence_append
    (h : AreMoved front.size callee callee') :
    ∀ (parts : List Node) (index : Nat),
      runSequence (front ++ rest) callee parts
          (front.size + index) =
        (runSequence rest callee' parts index).moved
          front.size
  | [], _ => rfl
  | part :: parts, index => by
      rw [runSequence, runSequence, run_append h part index]
      apply Run.moved_andThen
      exact fun stop => runSequence_append h parts stop

/- The same for the first of some nodes that matches. -/
theorem runChoice_append
    (h : AreMoved front.size callee callee') :
    ∀ (parts : List Node) (index : Nat),
      runChoice (front ++ rest) callee parts
          (front.size + index) =
        (runChoice rest callee' parts index).moved
          front.size
  | [], _ => rfl
  | part :: parts, index => by
      rw [runChoice, runChoice, run_append h part index]
      apply Run.moved_orElse
      exact runChoice_append h parts index

end

end Node

end Abnf

------------------------------------------------------------
-- Programs Behind Some Bytes
------------------------------------------------------------

namespace Abnf

namespace Program

variable
  (program : Program)
  (front rest : Array UInt8)

theorem invoke_append
    (depth index start : Nat) :
    program.invoke (front ++ rest) depth index
        (front.size + start) =
      (program.invoke rest depth index start).moved
        front.size := by
  induction depth generalizing index start with
  | zero => rfl
  | succ depth ih =>
      rw [invoke, invoke]
      cases program.procedures[index]? with
      | none => rfl
      | some procedure =>
          have hBody :=
            @Node.run_append front rest _ _ ih
              procedure.body start
          cases hPublic : procedure.isPublic with
          | false =>
              simp only [hBody, hPublic, Bool.false_eq_true,
                if_false, Run.moved_silent]
          | true =>
              simp only [hBody, hPublic, if_true,
                Run.moved_reported]

/- A run behind some bytes is that without them, moved. -/
theorem trace_append
    (entry start : Nat) :
    program.trace entry (front ++ rest)
        (front.size + start) =
      (program.trace entry rest start).moved
        front.size := by
  rw [trace, trace, depthLimit, depthLimit,
    Node.size_append_sub, invoke_append]

end Program

end Abnf

------------------------------------------------------------
-- Assemblies Of Moved Runs
------------------------------------------------------------

namespace Abnf

namespace Grammar

/- A moved span of a text behind some bytes is the span. -/
theorem slice?_append
    (front rest : Array UInt8)
    (start stop : Nat) :
    slice? (front ++ rest) (front.size + start)
        (front.size + stop) =
      slice? rest start stop := by
  have hSpan :
      (front ++ rest).extract (front.size + start)
          (front.size + stop) =
        rest.extract start stop := by
    simp
  simp only [slice?, hSpan, Array.size_append,
    Nat.add_le_add_iff_left]

namespace Assembly

/-
  The assembly is that of a moved parse: it has the same
  rules, open frames and error, and the extent is moved.
-/
structure IsMoved
    (offset : Nat)
    (one other : Assembly) : Prop
    extends Alike one other where
  furthest : one.furthest = offset + other.furthest

theorem isMoved_begin
    (offset start : Nat) :
    IsMoved offset (begin (offset + start)) (begin start) :=
  ⟨⟨rfl, rfl, rfl⟩, rfl⟩

theorem furthest_close
    (assembly : Assembly)
    (part : Part) :
    (assembly.close part).2.furthest =
      assembly.furthest := by
  unfold close
  split
  · rfl
  · rfl

variable
  {front rest : Array UInt8}
  {one other : Assembly}

theorem isMoved_takeMatch
    (h : IsMoved front.size one other)
    (name : String)
    (frame : Option Frame)
    (start stop : Nat) :
    IsMoved front.size
      (one.takeMatch (front ++ rest) name frame
        (front.size + start) (front.size + stop))
      (other.takeMatch rest name frame start stop) := by
  have hSame :
      one.takeMatch (front ++ rest) name frame
          (front.size + start) (front.size + stop) =
        one.takeMatch rest name frame start stop := by
    simp only [takeMatch, slice?_append]
  rw [hSame]
  refine ⟨alike_takeMatch h.toAlike .., ?_⟩
  rw [furthest_takeMatch, furthest_takeMatch]
  exact h.furthest

/- To leave a part moves the extent to the moved end. -/
theorem isMoved_leave
    {offset : Nat}
    (h : IsMoved offset one other)
    (name : String)
    (stop : Nat) :
    IsMoved offset (one.leave name (offset + stop))
      (other.leave name stop) := by
  have hClosed := (alike_close h.toAlike (Part.ofName name)).2
  refine ⟨⟨hClosed.rules, hClosed.frames, hClosed.error⟩, ?_⟩
  simp only [leave, furthest_close, h.furthest]
  exact Nat.add_max_add_left ..

/- A moved event keeps an assembly moved. -/
theorem isMoved_observe
    (h : IsMoved front.size one other)
    (event : Event) :
    IsMoved front.size
      (one.observe (front ++ rest)
        (event.moved front.size))
      (other.observe rest event) := by
  cases event with
  | enter name start =>
      exact
        ⟨alike_observe h.toAlike rest (.enter name start),
          h.furthest⟩
  | exit name start stop =>
      have hClose :=
        alike_close h.toAlike (Part.ofName name)
      cases stop with
      | none =>
          refine ⟨hClose.2, ?_⟩
          simp only [Event.moved, Option.map_none, observe,
            furthest_close]
          exact h.furthest
      | some stop =>
          have hLeave := isMoved_leave h name stop
          simp only [Event.moved, Option.map_some,
            observe_exit, h.error, hClose.1]
          by_cases hError : other.error.isSome = true
          · rw [if_pos hError, if_pos hError]
            exact hLeave
          · rw [if_neg hError, if_neg hError]
            exact isMoved_takeMatch hLeave ..

/- Moved events keep an assembly moved. -/
theorem isMoved_foldl_observe
    (h : IsMoved front.size one other)
    (events : List Event) :
    IsMoved front.size
      ((events.map (·.moved front.size)).foldl
        (observe (front ++ rest)) one)
      (events.foldl (observe rest) other) := by
  induction events generalizing one other with
  | nil => exact h
  | cons event events ih =>
      exact ih (isMoved_observe h event)

end Assembly

end Grammar

end Abnf

------------------------------------------------------------
-- Reading Behind Some Bytes
------------------------------------------------------------

namespace Abnf

/-
  The error for a text in which the part that was read
  starts at an offset. Only the place behind which nothing
  matches depends on it.
-/
def ReadError.moved
    (input : Array UInt8)
    (offset : Nat) : ReadError → ReadError
  | incomplete index _ =>
      incomplete (offset + index)
        (Text.position input (offset + index))
  | other => other

namespace Grammar

section

variable (front rest : Array UInt8)

/- A parse behind some bytes is that without them, moved. -/
theorem parse_append
    (start : Nat) :
    parse (front ++ rest) (front.size + start) =
      (parse rest start).map (·.moved front.size) := by
  unfold parse
  cases program with
  | error cause => rfl
  | ok program =>
      dsimp only
      cases program.entry? "rulelist" with
      | none => rfl
      | some entry =>
          exact
            congrArg Except.ok
              (program.trace_append front rest entry start)

theorem isMoved_assembly
    (start : Nat)
    (run : Run) :
    Assembly.IsMoved front.size
      (assembly (front ++ rest) (front.size + start)
        (run.moved front.size))
      (assembly rest start run) := by
  rw [assembly, Run.events_moved]
  exact
    Assembly.isMoved_foldl_observe
      (Assembly.isMoved_begin front.size start) run.events

end

/- The result of a moved assembly is the result, moved. -/
theorem finish_moved
    {front : Array UInt8}
    (rest : Array UInt8)
    {one other : Assembly}
    (h : Assembly.IsMoved front.size one other)
    (hSound :
      ∀ error, other.error = some error →
        error.isOfPart = true)
    (outcome : Outcome) :
    one.finish (front ++ rest) (outcome.moved front.size) =
      (other.finish rest outcome).mapError
        (·.moved (front ++ rest) front.size) := by
  unfold Assembly.finish
  rw [h.error, h.rules, h.furthest]
  cases hError : other.error with
  | some error =>
      have hPart := hSound error hError
      cases error with
      | incomplete index place => cases hPart
      | redefinition name => rfl
      | undefinedIncremental name => rfl
      | element cause => rfl
      | charSet cause => rfl
      | invalidRange value => rfl
      | invalidNumber value => rfl
      | bootstrap cause => rfl
      | internal fault => rfl
  | none =>
      have hEnd :
          outcome.moved front.size =
              .matched (front ++ rest).size ↔
            outcome = .matched rest.size := by
        cases outcome with
        | matched stop => simp [Outcome.moved]
        | failed => simp [Outcome.moved]
        | noRoutine index => simp [Outcome.moved]
        | tooDeep => simp [Outcome.moved]
      dsimp only
      simp only [hEnd]
      split
      · rfl
      · rfl

/- Texts one after the other have their bytes so. -/
theorem bytes_append
    (first second : String) :
    Text.bytes (first ++ second) =
      Text.bytes first ++ Text.bytes second := by
  rw [Text.bytes, String.toUTF8, String.toByteArray_append,
    ByteArray.data_append]
  rfl

/- The bytes behind a position of a text. -/
theorem bytes_of_pos
    (text : String)
    (start : text.Pos) :
    ∃ front : Array UInt8,
      front.size = start.offset.byteIdx ∧
        Text.bytes text =
          front ++
            Text.bytes (text.sliceFrom start).copy := by
  refine ⟨Text.bytes (text.sliceTo start).copy, ?_, ?_⟩
  · rw [start.splits.offset_eq_rawEndPos]
    rfl
  · exact
      (congrArg Text.bytes start.splits.eq_append).trans
        (bytes_append _ _)

/-
  To read a text from a position on is to read what stands
  behind the position: the parse reports the same, moved,
  and there are the same rules or the same error. Only
  where nothing matches any more, the offset is counted
  from the start of the text, as are line and column.
-/
theorem readFrom_offset
    (text : String)
    (start : text.Pos) :
    (parse (Text.bytes text) start.offset.byteIdx =
      (parse (Text.bytes (text.sliceFrom start).copy) 0).map
        (·.moved start.offset.byteIdx)) ∧
    readFrom text start.offset.byteIdx =
      (read (text.sliceFrom start).copy).mapError
        (·.moved (Text.bytes text)
          start.offset.byteIdx) := by
  rcases bytes_of_pos text start with ⟨front, hSize, hBytes⟩
  rcases
      exists_readings_of_parse
        (Text.bytes (text.sliceFrom start).copy) 0 with
    ⟨callee, hRuns, hParse⟩
  have hMoved :=
    parse_append front
      (Text.bytes (text.sliceFrom start).copy) 0
  rw [← hBytes, hSize, Nat.add_zero] at hMoved
  refine ⟨hMoved, ?_⟩
  rw [hParse] at hMoved
  rw [read, readFrom_eq hMoved, readFrom_eq hParse]
  have hAssembly :=
    isMoved_assembly front
      (Text.bytes (text.sliceFrom start).copy) 0
      (callee "rulelist" 0)
  rw [← hBytes, Nat.add_zero] at hAssembly
  have hFinish :=
    finish_moved (Text.bytes (text.sliceFrom start).copy)
      hAssembly (hRuns.isSafe_rulelist 0).sound
      (callee "rulelist" 0).outcome
  rw [← hBytes, hSize] at hFinish
  exact hFinish

end Grammar

end Abnf
