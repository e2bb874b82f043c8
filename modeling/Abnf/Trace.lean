/-
  What a run of a parser reports.

  A run ends with an outcome. On the way, public routines
  are called; calls made in an attempt that is given up later
  are reported too. A `Run` holds the calls as a forest and
  the outcome, and `andThen` and `orElse` put runs together.
  The events of a run are the entries and exits of its calls
  in the order in which they happen.

  Key definitions include:
    * `Abnf.Event`
    * `Abnf.Call`
    * `Abnf.Call.events`
    * `Abnf.Outcome`
    * `Abnf.Run`
    * `Abnf.Run.andThen`
    * `Abnf.Run.orElse`
    * `Abnf.Run.silent`
    * `Abnf.Run.reported`
    * `Abnf.Run.events`
-/

------------------------------------------------------------
-- Calls And Events
------------------------------------------------------------

namespace Abnf

/- A report about a public routine. -/
inductive Event where
  /- The routine starts at an offset. -/
  | enter (rule : String) (start : Nat)
  /-
    The routine that started at an offset is left, with the
    end of the match if there is one.
  -/
  | exit (rule : String) (start : Nat) (stop : Option Nat)
deriving DecidableEq, Inhabited

/-
  A call of a public routine: where it starts, where its
  match ends if there is one, and the calls made in it.
-/
inductive Call where
  | call
      (rule : String)
      (start : Nat)
      (stop : Option Nat)
      (inner : List Call)
deriving Inhabited

namespace Call

mutual

/- The events of a call, before some others. -/
def eventsBefore
    (rest : List Event) : Call → List Event
  | call rule start stop inner =>
      .enter rule start ::
        eventsOfAllBefore
          (.exit rule start stop :: rest) inner

/- The events of some calls, before some others. -/
def eventsOfAllBefore
    (rest : List Event) : List Call → List Event
  | [] => rest
  | first :: others =>
      eventsBefore (eventsOfAllBefore rest others) first

end

/- The events of a call. -/
def events
    (call : Call) : List Event :=
  eventsBefore [] call

/- The events of some calls one after the other. -/
def eventsOfAll
    (calls : List Call) : List Event :=
  eventsOfAllBefore [] calls

mutual

/- Events before others are those of the call, then these. -/
theorem eventsBefore_eq_append
    (rest : List Event)
    (first : Call) :
    eventsBefore rest first = events first ++ rest := by
  cases first with
  | call rule start stop inner =>
      rw [events, eventsBefore, eventsBefore,
        eventsOfAllBefore_eq_append _ inner,
        eventsOfAllBefore_eq_append [_] inner]
      simp

/- The same for the events of some calls. -/
theorem eventsOfAllBefore_eq_append
    (rest : List Event)
    (calls : List Call) :
    eventsOfAllBefore rest calls =
      eventsOfAll calls ++ rest := by
  cases calls with
  | nil => rfl
  | cons first others =>
      rw [eventsOfAll, eventsOfAllBefore,
        eventsOfAllBefore, eventsBefore_eq_append,
        eventsBefore_eq_append
          (eventsOfAllBefore [] others),
        eventsOfAllBefore_eq_append rest others,
        List.append_assoc, eventsOfAll]

end

end Call

/- How a run ends. -/
inductive Outcome where
  /- The text matches up to an offset. -/
  | matched (stop : Nat)
  /- The text does not match. -/
  | failed
  /- A call had no routine to go to. -/
  | noRoutine (index : Nat)
  /- More calls were open at once than allowed. -/
  | tooDeep
deriving DecidableEq, Inhabited

/- The end of the match, if there is one. -/
def Outcome.stop? : Outcome → Option Nat
  | matched stop => some stop
  | _ => none

end Abnf

------------------------------------------------------------
-- Runs
------------------------------------------------------------

namespace Abnf

/- The calls of a run and its outcome. -/
structure Run where
  calls : List Call
  outcome : Outcome
deriving Inhabited

namespace Run

/- A run that reports nothing. -/
def quiet
    (outcome : Outcome) : Run :=
  ⟨[], outcome⟩

/- Keep the outcome and drop the reports. -/
def silent
    (run : Run) : Run :=
  quiet run.outcome

/- Put calls before those of a run. -/
def after
    (calls : List Call)
    (run : Run) : Run :=
  ⟨calls ++ run.calls, run.outcome⟩

/- Go on from the end of a match. -/
def andThen
    (run : Run)
    (next : Nat → Run) : Run :=
  match run.outcome with
  | .matched stop => after run.calls (next stop)
  | _ => run

/- Try something else if there is no match. -/
def orElse
    (run : Run)
    (other : Unit → Run) : Run :=
  match run.outcome with
  | .failed => after run.calls (other ())
  | _ => run

/- Report a run as that of a routine. -/
def reported
    (rule : String)
    (start : Nat)
    (run : Run) : Run :=
  ⟨[.call rule start run.outcome.stop? run.calls],
   run.outcome⟩

/- What a run reports, in order. -/
def events
    (run : Run) : List Event :=
  Call.eventsOfAll run.calls

end Run

end Abnf
