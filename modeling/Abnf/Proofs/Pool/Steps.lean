import Abnf.Pool

/-
  What the actions of a pool can do.

  `Pool.Step` lists what each action can do to a state, with
  the conditions that matter later on. A worker goes on by
  one of its moves.

  Key definitions include:
    * `Abnf.Pool.Move`
    * `Abnf.Pool.Step`

  Main declarations:
    * `Abnf.Pool.step_of_apply`
-/

------------------------------------------------------------
-- Steps
------------------------------------------------------------

namespace Abnf

namespace Pool

/-
  How the worker of an index can go on: what becomes of it,
  and what it reports, starts and ends by that.
-/
inductive Move
    (s : State)
    (index : Nat)
    (dies : Bool) :
    Worker → Worker →
    List Report → List Nat → List Nat → Prop
  /- There is nobody to report to. -/
  | leave {inbox : List Signal} :
      End.reports ∈ s.closed →
      Move s index dies ⟨inbox, .ready⟩ ⟨inbox, .gone⟩
        [] [] []
  | offer {inbox : List Signal} :
      End.reports ∉ s.closed →
      Move s index dies ⟨inbox, .ready⟩ ⟨inbox, .waiting⟩
        [.idle index] [] []
  | start {id : Nat} {inbox : List Signal} :
      Move s index dies ⟨.job id :: inbox, .waiting⟩
        ⟨inbox, .running id⟩ [] [id] []
  | obey {inbox : List Signal} :
      Move s index dies ⟨.stop :: inbox, .waiting⟩
        ⟨inbox, .stopping⟩ [] [] []
  /- No signal will come any more. -/
  | giveUp :
      End.signals index ∈ s.closed →
      Move s index dies ⟨[], .waiting⟩ ⟨[], .stopping⟩
        [] [] []
  | finish {id : Nat} {inbox : List Signal} :
      Move s index dies ⟨inbox, .running id⟩
        ⟨inbox, if dies then .gone else .ready⟩ [] [] [id]
  | report {inbox : List Signal} :
      End.reports ∉ s.closed →
      Move s index dies ⟨inbox, .stopping⟩ ⟨inbox, .gone⟩
        [.stopped] [] []
  | silence {inbox : List Signal} :
      End.reports ∈ s.closed →
      Move s index dies ⟨inbox, .stopping⟩ ⟨inbox, .gone⟩
        [] [] []

/- What an action can do to a pool. -/
inductive Step
    (capacity : Nat)
    (s : State) : Action → State → Prop
  | refuse {id : Nat} {rest : List Call} :
      s.calls = .enqueue id :: rest →
      End.queue ∈ s.closed →
      Step capacity s .call
        { s with
          calls := rest
          refused := s.refused ++ [id] }
  | accept {id : Nat} {rest : List Call} :
      s.calls = .enqueue id :: rest →
      Step capacity s .call
        { s with
          calls := rest
          queue := s.queue ++ [.job id]
          accepted := s.accepted ++ [id] }
  | joinLate {rest : List Call} :
      s.calls = .join :: rest →
      End.queue ∈ s.closed →
      Step capacity s .call
        { s with
          calls := rest
          joined := some (.error .queueClosed) }
  | join {rest : List Call} :
      s.calls = .join :: rest →
      Step capacity s .call
        { s with
          calls := rest
          queue := s.queue ++ [.stop]
          joining := true }
  | conclude :
      s.joining = true →
      s.dispatcher = .left true →
      Step capacity s .conclude
        { s with
          joining := false
          joined := some (.ok ()) }
  | despair :
      s.joining = true →
      s.dispatcher = .left false →
      Step capacity s .conclude
        { s with
          joining := false
          joined := some (.error .joinFailed) }
  | hearIdle {worker : Nat} {rest : List Report} :
      s.dispatcher = .handing none →
      s.reports = .idle worker :: rest →
      Step capacity s .hear
        { s with
          dispatcher := .handing (some worker)
          reports := rest }
  | hearStopped {rest : List Report} :
      s.dispatcher = .handing none →
      s.reports = .stopped :: rest →
      Step capacity s .hear { s with reports := rest }
  | countStopped {count : Nat} {rest : List Report} :
      s.dispatcher = .counting count →
      s.reports = .stopped :: rest →
      Step capacity s .hear
        { s with
          dispatcher :=
            .countFrom s.workers.length (count + 1)
          reports := rest }
  | countIdle
      {count worker : Nat} {rest : List Report} :
      s.dispatcher = .counting count →
      s.reports = .idle worker :: rest →
      Step capacity s .hear { s with reports := rest }
  | takeJob {worker id : Nat} {rest : List Signal} :
      s.dispatcher = .handing (some worker) →
      s.queue = .job id :: rest →
      Step capacity s .take
        { s with
          queue := rest
          dispatcher := .passing worker id }
  | takeStop {worker : Nat} {rest : List Signal} :
      s.dispatcher = .handing (some worker) →
      s.queue = .stop :: rest →
      Step capacity s .take
        { s with
          queue := rest
          dispatcher := .stopFrom s.workers.length 0 }
  | dropJob {worker id : Nat} :
      s.dispatcher = .passing worker id →
      End.inbox worker ∈ s.closed →
      Step capacity s .send
        { s with
          dispatcher := .handing none
          dropped := s.dropped ++ [id] }
  | sendJob {worker id : Nat} :
      s.dispatcher = .passing worker id →
      Step capacity s .send
        { s with
          workers :=
            s.workers.modify worker
              (Worker.receive (.job id))
          dispatcher := .handing none }
  | skip {next : Nat} :
      s.dispatcher = .stopping next →
      End.inbox next ∈ s.closed →
      Step capacity s .send
        { s with
          dispatcher :=
            .stopFrom s.workers.length (next + 1) }
  | sendStop {next : Nat} :
      s.dispatcher = .stopping next →
      Step capacity s .send
        { s with
          workers :=
            s.workers.modify next (Worker.receive .stop)
          dispatcher :=
            .stopFrom s.workers.length (next + 1) }
  | abandon :
      s.dispatcher = .handing none →
      s.isDeserted = true →
      Step capacity s .lose
        { s with dispatcher := .left false }
  | lose {count : Nat} :
      s.dispatcher = .counting count →
      s.isDeserted = true →
      Step capacity s .lose
        { s with dispatcher := .telling }
  | tell :
      s.dispatcher = .telling →
      Step capacity s .tell
        { s with dispatcher := .left true }
  | work
      {index : Nat} {dies : Bool} {worker next : Worker}
      {told : List Report} {begun done : List Nat} :
      s.workers[index]? = some worker →
      Move s index dies worker next told begun done →
      Step capacity s (.work index dies)
        { s with
          workers := s.workers.set index next
          reports := s.reports ++ told
          started := s.started ++ begun
          ended := s.ended ++ done }
  | drop {side : End} :
      s.isReleased side = true →
      Step capacity s (.drop side)
        { s with closed := side :: s.closed }

variable {capacity : Nat} {s s' : State}

theorem State.isClosed_iff
    {side : End} :
    s.isClosed side = true ↔ side ∈ s.closed :=
  List.contains_iff_mem

theorem step_of_applyCall
    (h : s.applyCall capacity = some s') :
    Step capacity s .call s' := by
  unfold State.applyCall at h
  split at h
  · cases h
  · rename_i id rest hCalls
    split at h
    · rename_i hClosed
      cases h
      exact .refuse hCalls (State.isClosed_iff.mp hClosed)
    · split at h
      · cases h
        exact .accept hCalls
      · cases h
  · rename_i rest hCalls
    split at h
    · rename_i hClosed
      cases h
      exact .joinLate hCalls (State.isClosed_iff.mp hClosed)
    · split at h
      · cases h
        exact .join hCalls
      · cases h

theorem step_of_applyConclude
    (h : s.applyConclude = some s') :
    Step capacity s .conclude s' := by
  unfold State.applyConclude at h
  split at h
  · rename_i hJoining hLeft
    cases h
    exact .conclude hJoining hLeft
  · rename_i hJoining hLeft
    split at h
    · cases h
      exact .despair hJoining hLeft
    · cases h
  · cases h

theorem step_of_applyHear
    (h : s.applyHear = some s') :
    Step capacity s .hear s' := by
  unfold State.applyHear at h
  split at h
  · rename_i hDispatcher hReports
    cases h
    exact .hearIdle hDispatcher hReports
  · rename_i hDispatcher hReports
    cases h
    exact .hearStopped hDispatcher hReports
  · rename_i hDispatcher hReports
    cases h
    exact .countStopped hDispatcher hReports
  · rename_i hDispatcher hReports
    cases h
    exact .countIdle hDispatcher hReports
  · cases h

theorem step_of_applyTake
    (h : s.applyTake = some s') :
    Step capacity s .take s' := by
  unfold State.applyTake at h
  split at h
  · rename_i hDispatcher hQueue
    cases h
    exact .takeJob hDispatcher hQueue
  · rename_i hDispatcher hQueue
    cases h
    exact .takeStop hDispatcher hQueue
  · cases h

theorem step_of_applySend
    (h : s.applySend = some s') :
    Step capacity s .send s' := by
  unfold State.applySend at h
  split at h
  · rename_i hDispatcher
    split at h
    · rename_i hClosed
      cases h
      exact
        .dropJob hDispatcher (State.isClosed_iff.mp hClosed)
    · cases h
      exact .sendJob hDispatcher
  · rename_i hDispatcher
    split at h
    · rename_i hClosed
      cases h
      exact
        .skip hDispatcher (State.isClosed_iff.mp hClosed)
    · cases h
      exact .sendStop hDispatcher
  · cases h

theorem step_of_applyLose
    (h : s.applyLose = some s') :
    Step capacity s .lose s' := by
  unfold State.applyLose at h
  split at h
  · rename_i hLost
    have hDeserted := (Bool.and_eq_true_iff.mp hLost).2
    split at h
    · rename_i hDispatcher
      cases h
      exact .abandon hDispatcher hDeserted
    · rename_i hDispatcher
      cases h
      exact .lose hDispatcher hDeserted
    · cases h
  · cases h

theorem step_of_applyTell
    (h : s.applyTell = some s') :
    Step capacity s .tell s' := by
  unfold State.applyTell at h
  split at h
  · rename_i hDispatcher
    cases h
    exact .tell hDispatcher
  · cases h

theorem step_of_applyWork
    {index : Nat}
    {dies : Bool}
    (h : s.applyWork index dies = some s') :
    Step capacity s (.work index dies) s' := by
  unfold State.applyWork at h
  split at h
  · cases h
  · rename_i worker hWorker
    rcases worker with ⟨inbox, activity⟩
    have hMove :
        ∀ {next told begun done},
          Move s index dies ⟨inbox, activity⟩ next told begun
            done →
          s' = { s with
            workers := s.workers.set index next
            reports := s.reports ++ told
            started := s.started ++ begun
            ended := s.ended ++ done } →
          Step capacity s (.work index dies) s' := by
      rintro next told begun done hMove rfl
      exact .work hWorker hMove
    split at h
    · rename_i hActivity
      cases hActivity
      split at h
      · rename_i hClosed
        cases h
        apply hMove (.leave (State.isClosed_iff.mp hClosed))
        simp [State.withWorker]
      · rename_i hOpen
        cases h
        rw [State.isClosed_iff] at hOpen
        apply hMove (.offer hOpen)
        simp [State.withWorker, State.report,
          State.isClosed_iff, hOpen]
    · rename_i hActivity hInbox
      cases hActivity
      cases hInbox
      cases h
      apply hMove .start
      simp [State.withWorker]
    · rename_i hActivity hInbox
      cases hActivity
      cases hInbox
      cases h
      apply hMove .obey
      simp [State.withWorker]
    · rename_i hActivity hInbox
      cases hActivity
      cases hInbox
      split at h
      · rename_i hClosed
        cases h
        apply hMove (.giveUp (State.isClosed_iff.mp hClosed))
        simp [State.withWorker]
      · cases h
    · rename_i hActivity
      cases hActivity
      cases h
      apply hMove .finish
      simp [State.withWorker]
    · rename_i hActivity
      cases hActivity
      cases h
      by_cases hOpen : End.reports ∈ s.closed
      · apply hMove (.silence hOpen)
        simp [State.withWorker, State.report,
          State.isClosed_iff, hOpen]
      · apply hMove (.report hOpen)
        simp [State.withWorker, State.report,
          State.isClosed_iff, hOpen]
    · cases h

theorem step_of_applyDrop
    {side : End}
    (h : s.applyDrop side = some s') :
    Step capacity s (.drop side) s' := by
  unfold State.applyDrop at h
  split at h
  · rename_i hDrop
    cases h
    exact .drop (Bool.and_eq_true_iff.mp hDrop).1
  · cases h

/- Whatever an action does is one of the steps. -/
theorem step_of_apply
    {action : Action}
    (h : s.apply capacity action = some s') :
    Step capacity s action s' := by
  cases action with
  | call => exact step_of_applyCall h
  | conclude => exact step_of_applyConclude h
  | hear => exact step_of_applyHear h
  | take => exact step_of_applyTake h
  | send => exact step_of_applySend h
  | lose => exact step_of_applyLose h
  | tell => exact step_of_applyTell h
  | work index dies => exact step_of_applyWork h
  | drop side => exact step_of_applyDrop h

end Pool

end Abnf
