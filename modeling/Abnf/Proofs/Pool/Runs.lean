import Abnf.Proofs.Pool.Jobs

/-
  Runs of a pool.

  A client puts some jobs into the queue of a new pool and
  then asks it to stop. Whatever the order of actions, if it
  hears that the pool has stopped, then each job that was
  taken has been started once and has ended. As long as no
  job dies, every job is taken, the pool stops well, and
  until then something can always happen.

  Key definitions include:
    * `Abnf.Pool.State.Stage`
    * `Abnf.Pool.State.IsCalm`
    * `Abnf.Pool.State.opened`
    * `Abnf.Pool.State.follow`

  Main declarations:
    * `Abnf.Pool.State.stage_step`
    * `Abnf.Pool.State.isCalm_step`
    * `Abnf.Pool.State.exists_enabled`
    * `Abnf.Pool.State.runs_accepted`
-/

------------------------------------------------------------
-- Stages Of The Client
------------------------------------------------------------

namespace Abnf

namespace Pool

namespace State

/-
  How far the client has come, and what is in the queue
  then.
-/
inductive Stage
    (s : State) : Prop
  /- It still has to join, and nobody was told to stop. -/
  | feeding (rest ids : List Nat) :
      s.calls = rest.map .enqueue ++ [.join] →
      s.joining = false →
      s.joined = none →
      s.dispatcher.isStopping = false →
      s.queue = ids.map .job →
      Stage s
  /- It waits, with the signal to stop as the last one. -/
  | joining (ids : List Nat) :
      s.calls = [] →
      s.joining = true →
      s.joined = none →
      (s.queue =
        if s.dispatcher.isStopping then []
        else ids.map .job ++ [.stop]) →
      Stage s
  /- It has an answer. -/
  | done (result : Except PoolError Unit) :
      s.calls = [] →
      s.joining = false →
      s.joined = some result →
      s.dispatcher.isLeft = true →
      (result = .ok () →
        s.dispatcher = .left true ∧ s.queue = []) →
      Stage s

/- A pool that is new, and what its client will do. -/
def opened
    (size : Nat)
    (jobs : List Nat) : State :=
  { start size with
    calls := jobs.map .enqueue ++ [.join] }

theorem stage_opened
    (size : Nat)
    (jobs : List Nat) : (opened size jobs).Stage :=
  .feeding jobs [] rfl rfl rfl rfl rfl

variable {s s' : State}

/-
  The stage stays while the client and the queue rest and
  the dispatcher is not told anything.
-/
theorem Stage.rest
    (h : s.Stage)
    {dispatcher : Dispatcher}
    {workers : List Worker}
    {reports : List Report}
    {closed : List End}
    {dropped started ended : List Nat}
    (hStopping :
      dispatcher.isStopping = s.dispatcher.isStopping)
    (hLeft :
      s.dispatcher.isLeft = true →
        dispatcher = s.dispatcher) :
    Stage { s with
      dispatcher := dispatcher
      workers := workers
      reports := reports
      closed := closed
      dropped := dropped
      started := started
      ended := ended } := by
  cases h with
  | feeding rest ids hCalls hJoining hJoined hOld hQueue =>
      exact
        .feeding rest ids hCalls hJoining hJoined
          (hStopping.trans hOld) hQueue
  | joining ids hCalls hJoining hJoined hQueue =>
      rw [← hStopping] at hQueue
      exact .joining ids hCalls hJoining hJoined hQueue
  | done result hCalls hJoining hJoined hOld hOk =>
      have hSame := hLeft hOld
      refine .done result hCalls hJoining hJoined ?_ ?_
      · rw [← hSame] at hOld
        exact hOld
      · intro hResult
        exact
          ⟨hSame.trans (hOk hResult).1, (hOk hResult).2⟩

/- The same for a dispatcher that goes on. -/
theorem Stage.turn
    (h : s.Stage)
    {dispatcher old : Dispatcher}
    {workers : List Worker}
    {reports : List Report}
    {dropped : List Nat}
    (hDispatcher : s.dispatcher = old)
    (hLeft : old.isLeft = false)
    (hStopping : dispatcher.isStopping = old.isStopping) :
    Stage { s with
      dispatcher := dispatcher
      workers := workers
      reports := reports
      dropped := dropped } := by
  subst hDispatcher
  apply h.rest hStopping
  rw [hLeft]
  exact fun hNo => Bool.noConfusion hNo

/- A client that still calls was not told anything yet. -/
theorem Stage.exists_feeding
    (h : s.Stage)
    {call : Call}
    {calls : List Call}
    (hCalls : s.calls = call :: calls) :
    ∃ rest ids : List Nat,
      call :: calls = rest.map .enqueue ++ [.join] ∧
        s.joining = false ∧ s.joined = none ∧
        s.dispatcher.isStopping = false ∧
        s.queue = ids.map .job := by
  cases h with
  | feeding rest ids hRest hJoining hJoined hOld hQueue =>
      rw [hCalls] at hRest
      exact ⟨rest, ids, hRest, hJoining, hJoined, hOld, hQueue⟩
  | joining ids hNone =>
      rw [hCalls] at hNone
      cases hNone
  | done result hNone =>
      rw [hCalls] at hNone
      cases hNone

theorem enqueue_cons
    {id : Nat}
    {calls : List Call}
    {rest : List Nat}
    (h :
      Call.enqueue id :: calls =
        rest.map .enqueue ++ [.join]) :
    ∃ rest', rest = id :: rest' ∧
      calls = rest'.map .enqueue ++ [.join] := by
  cases rest with
  | nil => cases h
  | cons first rest =>
      cases h
      exact ⟨rest, rfl, rfl⟩

theorem join_cons
    {calls : List Call}
    {rest : List Nat}
    (h :
      Call.join :: calls = rest.map .enqueue ++ [.join]) :
    calls = [] := by
  cases rest with
  | nil =>
      cases h
      rfl
  | cons first rest => cases h

theorem Stage.calls_eq_nil
    (h : s.Stage)
    {result : Except PoolError Unit}
    (hJoined : s.joined = some result) : s.calls = [] := by
  cases h with
  | feeding rest ids hCalls _ hNone =>
      rw [hJoined] at hNone
      cases hNone
  | joining ids hCalls => exact hCalls
  | done result hCalls => exact hCalls

/- Once the pool has stopped, the queue is empty. -/
theorem Stage.queue_eq_nil
    (h : s.Stage)
    (hStop : s.joined = some (.ok ())) :
    s.dispatcher = .left true ∧ s.queue = [] := by
  cases h with
  | feeding rest ids hCalls hJoining hJoined =>
      rw [hJoined] at hStop
      cases hStop
  | joining ids hCalls hJoining hJoined =>
      rw [hJoined] at hStop
      cases hStop
  | done result hCalls hJoining hJoined hLeft hOk =>
      rw [hJoined] at hStop
      cases hStop
      exact hOk rfl

theorem Stage.takeJob
    (h : s.Stage)
    {worker id : Nat}
    {queue : List Signal}
    (hDispatcher : s.dispatcher = .handing (some worker))
    (hQueue : s.queue = .job id :: queue) :
    Stage { s with
      queue := queue
      dispatcher := .passing worker id } := by
  cases h with
  | feeding rest ids hCalls hJoining hJoined _ hOld =>
      rw [hQueue] at hOld
      cases ids with
      | nil => cases hOld
      | cons first ids =>
          cases hOld
          exact
            .feeding rest ids hCalls hJoining hJoined rfl rfl
  | joining ids hCalls hJoining hJoined hOld =>
      rw [hQueue, hDispatcher] at hOld
      cases ids with
      | nil => cases hOld
      | cons first ids =>
          cases hOld
          exact .joining ids hCalls hJoining hJoined rfl
  | done result hCalls hJoining hJoined hLeft =>
      rw [hDispatcher] at hLeft
      cases hLeft

/- The signal to stop is the last one in the queue. -/
theorem Stage.takeStop
    (h : s.Stage)
    {worker : Nat}
    {queue : List Signal}
    (hDispatcher : s.dispatcher = .handing (some worker))
    (hQueue : s.queue = .stop :: queue) :
    Stage { s with
      queue := queue
      dispatcher := .stopFrom s.workers.length 0 } := by
  cases h with
  | feeding rest ids hCalls hJoining hJoined _ hOld =>
      rw [hQueue] at hOld
      cases ids with
      | nil => cases hOld
      | cons first ids => cases hOld
  | joining ids hCalls hJoining hJoined hOld =>
      rw [hQueue, hDispatcher] at hOld
      cases ids with
      | nil =>
          cases hOld
          refine .joining [] hCalls hJoining hJoined ?_
          rw [Dispatcher.isStopping_stopFrom, if_pos rfl]
      | cons first ids => cases hOld
  | done result hCalls hJoining hJoined hLeft =>
      rw [hDispatcher] at hLeft
      cases hLeft

/- The client gets its answer once it waits for one. -/
theorem Stage.answer
    (h : s.Stage)
    {told : Bool}
    (hJoining : s.joining = true)
    (hDispatcher : s.dispatcher = .left told)
    {result : Except PoolError Unit}
    (hResult : result = .ok () → told = true) :
    Stage { s with
      joining := false
      joined := some result } := by
  cases h with
  | feeding rest ids hCalls hNo =>
      rw [hJoining] at hNo
      cases hNo
  | joining ids hCalls _ hJoined hQueue =>
      refine .done result hCalls rfl rfl ?_ ?_
      · change s.dispatcher.isLeft = true
        rw [hDispatcher]
        rfl
      · intro hOk
        rw [hResult hOk] at hDispatcher
        rw [hDispatcher] at hQueue
        exact ⟨hDispatcher, hQueue⟩
  | done result hCalls hNo =>
      rw [hJoining] at hNo
      cases hNo

/- Each step leads to a stage again. -/
theorem stage_step
    {capacity : Nat}
    {action : Action}
    (hOrderly : s.IsOrderly)
    (h : s.Stage)
    (hStep : Step capacity s action s') : s'.Stage := by
  cases hStep with
  | refuse hCalls =>
      rcases h.exists_feeding hCalls with
        ⟨rest, ids, hRest, hJoining, hJoined, hOld, hQueue⟩
      rcases enqueue_cons hRest with ⟨rest', _, hRest'⟩
      exact
        .feeding rest' ids hRest' hJoining hJoined hOld hQueue
  | @accept id _ hCalls =>
      rcases h.exists_feeding hCalls with
        ⟨rest, ids, hRest, hJoining, hJoined, hOld, hQueue⟩
      rcases enqueue_cons hRest with ⟨rest', _, hRest'⟩
      refine
        .feeding rest' (ids ++ [id]) hRest' hJoining hJoined
          hOld ?_
      rw [hQueue, List.map_append]
      rfl
  | joinLate hCalls hClosed =>
      rcases h.exists_feeding hCalls with
        ⟨rest, ids, hRest, hJoining, hJoined, hOld, hQueue⟩
      exact
        .done _ (join_cons hRest) hJoining rfl
          (hOrderly.released _ hClosed)
          (fun hNo => by cases hNo)
  | join hCalls =>
      rcases h.exists_feeding hCalls with
        ⟨rest, ids, hRest, hJoining, hJoined, hOld, hQueue⟩
      refine .joining ids (join_cons hRest) rfl hJoined ?_
      rw [hOld, hQueue]
      rfl
  | conclude hJoining hDispatcher =>
      exact h.answer hJoining hDispatcher (fun _ => rfl)
  | despair hJoining hDispatcher =>
      apply h.answer hJoining hDispatcher
      intro hNo
      cases hNo
  | hearIdle hDispatcher => exact h.turn hDispatcher rfl rfl
  | hearStopped => exact h.rest rfl (fun _ => rfl)
  | countStopped hDispatcher =>
      exact
        h.turn hDispatcher rfl
          (Dispatcher.isStopping_countFrom ..)
  | countIdle => exact h.rest rfl (fun _ => rfl)
  | takeJob hDispatcher hQueue =>
      exact h.takeJob hDispatcher hQueue
  | takeStop hDispatcher hQueue =>
      exact h.takeStop hDispatcher hQueue
  | dropJob hDispatcher => exact h.turn hDispatcher rfl rfl
  | sendJob hDispatcher => exact h.turn hDispatcher rfl rfl
  | skip hDispatcher =>
      exact
        h.turn hDispatcher rfl
          (Dispatcher.isStopping_stopFrom ..)
  | sendStop hDispatcher =>
      exact
        h.turn hDispatcher rfl
          (Dispatcher.isStopping_stopFrom ..)
  | abandon hDispatcher => exact h.turn hDispatcher rfl rfl
  | lose hDispatcher => exact h.turn hDispatcher rfl rfl
  | tell hDispatcher => exact h.turn hDispatcher rfl rfl
  | work => exact h.rest rfl (fun _ => rfl)
  | drop => exact h.rest rfl (fun _ => rfl)

end State

end Pool

end Abnf

------------------------------------------------------------
-- Runs Without Deaths
------------------------------------------------------------

namespace Abnf

namespace Pool

/- No job dies by the action. -/
def Action.isCalm : Action → Bool
  | work _ dies => !dies
  | _ => true

/- The job that a call puts into the queue. -/
def Call.job? : Call → Option Nat
  | enqueue id => some id
  | join => none

namespace State

/- What holds as long as no job dies. -/
structure IsCalm
    (jobs : List Nat)
    (s : State) : Prop where
  refused : s.refused = []
  joined :
    ∀ result, s.joined = some result → result = .ok ()
  stays :
    s.dispatcher.isLeft = true →
      s.dispatcher.isStopping = true
  /- Workers are gone only if they were told to stop. -/
  asked :
    ∀ index, s.HasGone index →
      s.dispatcher.hasAsked index = true
  taken :
    s.accepted ++ s.calls.filterMap Call.job? = jobs

theorem isCalm_opened
    (size : Nat)
    (jobs : List Nat) :
    (opened size jobs).IsCalm jobs := by
  refine ⟨rfl, ?_, ?_, ?_, ?_⟩
  · intro result hNo
    cases hNo
  · intro hNo
    cases hNo
  · rintro index ⟨worker, hWorker, hActivity⟩
    rw [List.eq_of_mem_replicate (List.mem_of_getElem? hWorker)]
      at hActivity
    cases hActivity
  · have hJobs :
        (jobs.map Call.enqueue).filterMap Call.job? =
          jobs := by
      rw [List.filterMap_map]
      exact List.filterMap_some
    change (jobs.map Call.enqueue ++ [Call.join]).filterMap _ = _
    rw [List.filterMap_append, hJobs]
    exact List.append_nil jobs

section Move

variable
  {s : State}
  {index : Nat}
  {worker next : Worker}
  {told : List Report}
  {begun done : List Nat}
  (hMove :
    Move s index false worker next told begun done)

include hMove

/- A worker whose job returns stops when it is told to. -/
theorem asked_of_move
    (hReports : End.reports ∉ s.closed)
    {asked : Bool}
    (hFits : worker.Fits asked)
    (hActivity : next.activity = .gone) :
    asked = true := by
  cases hMove with
  | leave hClosed => exact absurd hClosed hReports
  | silence hClosed => exact absurd hClosed hReports
  | report =>
      cases hFits with
      | stopping hAsked => exact hAsked
  | offer => cases hActivity
  | start => cases hActivity
  | obey => cases hActivity
  | giveUp => cases hActivity
  | finish => cases hActivity

end Move

variable {s s' : State} {jobs : List Nat}

/- The queue stays open for a client that still calls. -/
theorem IsCalm.not_mem_closed_of_calls
    (h : s.IsCalm jobs)
    (hOrderly : s.IsOrderly)
    (hStage : s.Stage)
    {call : Call}
    {calls : List Call}
    (hCalls : s.calls = call :: calls) :
    End.queue ∉ s.closed := by
  intro hClosed
  rcases hStage.exists_feeding hCalls with
    ⟨_, _, _, _, _, hStopping, _⟩
  rw [h.stays (hOrderly.released _ hClosed)] at hStopping
  cases hStopping

/- The dispatcher goes on, and no worker goes. -/
theorem IsCalm.turn
    (h : s.IsCalm jobs)
    {dispatcher old : Dispatcher}
    {workers : List Worker}
    {queue : List Signal}
    {reports : List Report}
    {dropped : List Nat}
    (hDispatcher : s.dispatcher = old)
    (hStays :
      dispatcher.isLeft = true →
        dispatcher.isStopping = true)
    (hAsked :
      ∀ index, old.hasAsked index = true →
        dispatcher.hasAsked index = true)
    (hGone :
      ∀ index, HasGone { s with workers := workers } index →
        s.HasGone index) :
    IsCalm jobs { s with
      dispatcher := dispatcher
      workers := workers
      queue := queue
      reports := reports
      dropped := dropped } := by
  subst hDispatcher
  exact ⟨h.refused, h.joined, hStays,
    fun index hIndex =>
      hAsked index (h.asked index (hGone index hIndex)),
    h.taken⟩

theorem hasGone_of_receive
    {index target : Nat}
    {signal : Signal}
    (hGone :
      HasGone { s with
        workers :=
          s.workers.modify target (Worker.receive signal) }
        index) :
    s.HasGone index := by
  rcases hGone with ⟨worker, hWorker, hActivity⟩
  rw [List.getElem?_modify] at hWorker
  rcases Option.map_eq_some_iff.mp hWorker with
    ⟨old, hOld, rfl⟩
  refine ⟨old, hOld, ?_⟩
  split at hActivity
  · exact hActivity
  · exact hActivity

theorem hasAsked_stopFrom_succ
    {size next index : Nat}
    (h : (Dispatcher.stopping next).hasAsked index = true) :
    (Dispatcher.stopFrom size (next + 1)).hasAsked index =
      true := by
  unfold Dispatcher.stopFrom
  split
  · have hLess := of_decide_eq_true h
    exact decide_eq_true (Nat.lt_succ_of_lt hLess)
  · exact Dispatcher.hasAsked_countFrom ..

/- A worker that goes on leaves only if it was told to. -/
theorem IsCalm.work
    (h : s.IsCalm jobs)
    (hOrderly : s.IsOrderly)
    {index : Nat}
    {worker next : Worker}
    {told : List Report}
    {begun done : List Nat}
    (hWorker : s.workers[index]? = some worker)
    (hMove :
      Move s index false worker next told begun done) :
    IsCalm jobs { s with
      workers := s.workers.set index next
      reports := s.reports ++ told
      started := s.started ++ begun
      ended := s.ended ++ done } := by
  have hReports : End.reports ∉ s.closed := by
    intro hClosed
    have hReleased := hOrderly.released _ hClosed
    rw [isReleased,
      hOrderly.not_isLeft hWorker (activity_of_move hMove)]
      at hReleased
    cases hReleased
  refine ⟨h.refused, h.joined, h.stays, ?_, h.taken⟩
  rintro other ⟨gone, hGone, hActivity⟩
  rw [getElem?_set_worker hWorker] at hGone
  split at hGone
  · rename_i hSame
    subst hSame
    cases hGone
    exact
      asked_of_move hMove hReports
        (hOrderly.fits index worker hWorker) hActivity
  · exact h.asked other ⟨gone, hGone, hActivity⟩

/- A step by which no job dies keeps a run calm. -/
theorem isCalm_step
    {capacity : Nat}
    {action : Action}
    (hSize : 0 < s.workers.length)
    (hOrderly : s.IsOrderly)
    (hStage : s.Stage)
    (h : s.IsCalm jobs)
    (hStep : Step capacity s action s')
    (hAction : action.isCalm = true) :
    s'.IsCalm jobs := by
  cases hStep with
  | refuse hCalls hClosed =>
      exact
        absurd hClosed
          (h.not_mem_closed_of_calls hOrderly hStage hCalls)
  | accept hCalls =>
      refine ⟨h.refused, h.joined, h.stays, h.asked, ?_⟩
      have hTaken := h.taken
      rw [hCalls] at hTaken
      rw [List.append_assoc]
      exact hTaken
  | joinLate hCalls hClosed =>
      exact
        absurd hClosed
          (h.not_mem_closed_of_calls hOrderly hStage hCalls)
  | join hCalls =>
      refine ⟨h.refused, h.joined, h.stays, h.asked, ?_⟩
      have hTaken := h.taken
      rw [hCalls] at hTaken
      exact hTaken
  | conclude =>
      refine ⟨h.refused, ?_, h.stays, h.asked, h.taken⟩
      rintro result hResult
      cases hResult
      rfl
  | despair _ hDispatcher =>
      have hStays := h.stays
      rw [hDispatcher] at hStays
      cases hStays rfl
  | hearIdle hDispatcher =>
      exact
        h.turn hDispatcher (fun hNo => Bool.noConfusion hNo)
          (fun _ hNo => Bool.noConfusion hNo)
          (fun _ hGone => hGone)
  | hearStopped =>
      exact
        h.turn rfl h.stays (fun _ hAsked => hAsked)
          (fun _ hGone => hGone)
  | countStopped hDispatcher =>
      exact
        h.turn hDispatcher
          (fun _ => Dispatcher.isStopping_countFrom ..)
          (fun _ _ => Dispatcher.hasAsked_countFrom ..)
          (fun _ hGone => hGone)
  | countIdle =>
      exact
        h.turn rfl h.stays (fun _ hAsked => hAsked)
          (fun _ hGone => hGone)
  | takeJob hDispatcher =>
      exact
        h.turn hDispatcher (fun hNo => Bool.noConfusion hNo)
          (fun _ hNo => Bool.noConfusion hNo)
          (fun _ hGone => hGone)
  | takeStop hDispatcher =>
      exact
        h.turn hDispatcher
          (fun _ => Dispatcher.isStopping_stopFrom ..)
          (fun _ hNo => Bool.noConfusion hNo)
          (fun _ hGone => hGone)
  | dropJob hDispatcher =>
      exact
        h.turn hDispatcher (fun hNo => Bool.noConfusion hNo)
          (fun _ hNo => Bool.noConfusion hNo)
          (fun _ hGone => hGone)
  | sendJob hDispatcher =>
      exact
        h.turn hDispatcher (fun hNo => Bool.noConfusion hNo)
          (fun _ hNo => Bool.noConfusion hNo)
          (fun _ => hasGone_of_receive)
  | skip hDispatcher =>
      exact
        h.turn hDispatcher
          (fun _ => Dispatcher.isStopping_stopFrom ..)
          (fun _ => hasAsked_stopFrom_succ)
          (fun _ hGone => hGone)
  | sendStop hDispatcher =>
      exact
        h.turn hDispatcher
          (fun _ => Dispatcher.isStopping_stopFrom ..)
          (fun _ => hasAsked_stopFrom_succ)
          (fun _ => hasGone_of_receive)
  | abandon hDispatcher hDeserted =>
      -- The dispatcher would have told the first worker.
      have hFirst :=
        List.getElem?_eq_getElem hSize
      have hAsked :=
        h.asked 0
          ⟨_, hFirst,
            hOrderly.gone_of_isDeserted hDeserted 0 _
              hFirst⟩
      rw [hDispatcher] at hAsked
      cases hAsked
  | lose hDispatcher =>
      exact
        h.turn hDispatcher (fun hNo => Bool.noConfusion hNo)
          (fun _ _ => rfl) (fun _ hGone => hGone)
  | tell hDispatcher =>
      exact
        h.turn hDispatcher (fun _ => rfl) (fun _ _ => rfl)
          (fun _ hGone => hGone)
  | @work index dies _ _ _ _ _ hWorker hMove =>
      cases dies with
      | true => cases hAction
      | false => exact h.work hOrderly hWorker hMove
  | drop =>
      exact ⟨h.refused, h.joined, h.stays, h.asked, h.taken⟩

end State

end Pool

end Abnf

------------------------------------------------------------
-- Progress
------------------------------------------------------------

namespace Abnf

namespace Pool

namespace State

/- Something can happen by which no job dies. -/
def CanGoOn
    (capacity : Nat)
    (s : State) : Prop :=
  ∃ action, action.isCalm = true ∧
    (s.apply capacity action).isSome = true

variable {capacity : Nat} {s : State} {jobs : List Nat}

/- A worker that is there and has what it waits for. -/
theorem canGoOn_of_worker
    {index : Nat}
    {worker : Worker}
    (hWorker : s.workers[index]? = some worker)
    (hActivity : worker.activity ≠ .gone)
    (hFree : ¬ s.isFree index) : s.CanGoOn capacity := by
  refine ⟨.work index false, rfl, ?_⟩
  rw [isFree, hWorker] at hFree
  rcases worker with ⟨inbox, activity⟩
  rw [apply, applyWork, hWorker]
  cases activity with
  | ready =>
      dsimp only
      split
      · rfl
      · rfl
  | waiting =>
      cases inbox with
      | nil => exact absurd rfl hFree
      | cons signal rest =>
          cases signal with
          | job id => rfl
          | stop => rfl
  | running id => rfl
  | stopping => rfl
  | gone => exact absurd rfl hActivity

/- A dispatcher that listens takes the next report. -/
theorem canGoOn_of_report
    {report : Report}
    {rest : List Report}
    (hReports : s.reports = report :: rest)
    (hDispatcher :
      s.dispatcher = .handing none ∨
        ∃ count, s.dispatcher = .counting count) :
    s.CanGoOn capacity := by
  refine ⟨.hear, rfl, ?_⟩
  rcases hDispatcher with hHanding | ⟨count, hCounting⟩
  · rw [apply, applyHear, hHanding, hReports]
    cases report <;> rfl
  · rw [apply, applyHear, hCounting, hReports]
    cases report <;> rfl

/- While the dispatcher has no idle worker. -/
theorem IsCalm.canGoOn_of_none
    (h : s.IsCalm jobs)
    (hSize : 0 < s.workers.length)
    (hOrderly : s.IsOrderly)
    (hDispatcher : s.dispatcher = .handing none) :
    s.CanGoOn capacity := by
  cases hReports : s.reports with
  | cons report rest =>
      exact canGoOn_of_report hReports (.inl hDispatcher)
  | nil =>
      -- The first worker is there, and no token of it is.
      have hFirst := List.getElem?_eq_getElem hSize
      apply canGoOn_of_worker hFirst
      · intro hActivity
        have hAsked := h.asked 0 ⟨_, hFirst, hActivity⟩
        rw [hDispatcher] at hAsked
        cases hAsked
      · intro hFree
        have hTokens :=
          hOrderly.tokens (by rw [hDispatcher]; rfl) 0
        rw [if_pos hFree, State.tokens, hDispatcher,
          hReports] at hTokens
        cases hTokens

theorem isSome_applyCall
    {call : Call}
    {calls : List Call}
    (hCalls : s.calls = call :: calls)
    (hRoom : s.hasRoom capacity = true) :
    (s.applyCall capacity).isSome = true := by
  rw [applyCall, hCalls]
  cases call with
  | enqueue id =>
      dsimp only
      rw [if_pos hRoom]
      split
      · rfl
      · rfl
  | join =>
      dsimp only
      rw [if_pos hRoom]
      split
      · rfl
      · rfl

/- While the dispatcher has an idle worker. -/
theorem Stage.canGoOn_of_some
    (h : s.Stage)
    {worker : Nat}
    (hDispatcher : s.dispatcher = .handing (some worker))
    (hJoined : s.joined = none) : s.CanGoOn capacity := by
  cases hQueue : s.queue with
  | cons signal rest =>
      refine ⟨.take, rfl, ?_⟩
      rw [apply, applyTake, hDispatcher, hQueue]
      cases signal with
      | job id => rfl
      | stop => rfl
  | nil =>
      have hRoom : s.hasRoom capacity = true := by
        rw [hasRoom, hDispatcher, hQueue]
        split
        · rfl
        · rename_i hCapacity
          exact
            decide_eq_true (Nat.pos_of_ne_zero hCapacity)
      cases h with
      | feeding rest ids hCalls =>
          refine ⟨.call, rfl, ?_⟩
          cases rest with
          | nil => exact isSome_applyCall hCalls hRoom
          | cons id rest =>
              exact isSome_applyCall hCalls hRoom
      | joining ids _ _ _ hOld =>
          rw [hQueue, hDispatcher] at hOld
          cases ids with
          | nil => cases hOld
          | cons first ids => cases hOld
      | done result _ _ hAnswer =>
          rw [hJoined] at hAnswer
          cases hAnswer

/- While the dispatcher counts the workers that stop. -/
theorem IsOrderly.canGoOn_of_counting
    (h : s.IsOrderly)
    {count : Nat}
    (hDispatcher : s.dispatcher = .counting count) :
    s.CanGoOn capacity := by
  cases hReports : s.reports with
  | cons report rest =>
      exact
        canGoOn_of_report hReports (.inr ⟨_, hDispatcher⟩)
  | nil =>
      by_cases hDeserted : s.isDeserted = true
      · refine ⟨.lose, rfl, ?_⟩
        rw [apply, applyLose, hReports, hDeserted,
          hDispatcher]
        rfl
      · -- Some worker can still be heard of.
        rw [Bool.not_eq_true, isDeserted, List.all_eq_false]
          at hDeserted
        rcases hDeserted with ⟨index, hRange, hOpen⟩
        obtain ⟨worker, hWorker⟩ :
            ∃ worker, s.workers[index]? = some worker :=
          ⟨_, List.getElem?_eq_getElem
            (List.mem_range.mp hRange)⟩
        by_cases hActivity : worker.activity = .gone
        · refine ⟨.drop (.voice index), rfl, ?_⟩
          have hReleased :=
            isReleased_voice_iff.mpr
              ⟨worker, hWorker, hActivity⟩
          rw [apply, applyDrop, hReleased,
            Bool.eq_false_iff.mpr hOpen]
          rfl
        · apply canGoOn_of_worker hWorker hActivity
          intro hFree
          have hFits := h.fits index _ hFree
          rw [hDispatcher] at hFits
          rcases inbox_of_fits hFits with
            hInbox | ⟨_, hInbox⟩
          · cases hInbox
          · cases hInbox

/- Until the client has an answer, something can happen. -/
theorem exists_enabled
    (hSize : 0 < s.workers.length)
    (hOrderly : s.IsOrderly)
    (hStage : s.Stage)
    (h : s.IsCalm jobs)
    (hJoined : s.joined = none) : s.CanGoOn capacity := by
  cases hDispatcher : s.dispatcher with
  | handing idle =>
      cases idle with
      | none => exact h.canGoOn_of_none hSize hOrderly hDispatcher
      | some worker =>
          exact hStage.canGoOn_of_some hDispatcher hJoined
  | passing worker id =>
      refine ⟨.send, rfl, ?_⟩
      rw [apply, applySend, hDispatcher]
      dsimp only
      split
      · rfl
      · rfl
  | stopping next =>
      refine ⟨.send, rfl, ?_⟩
      rw [apply, applySend, hDispatcher]
      dsimp only
      split
      · rfl
      · rfl
  | counting count =>
      exact hOrderly.canGoOn_of_counting hDispatcher
  | telling =>
      refine ⟨.tell, rfl, ?_⟩
      rw [apply, applyTell, hDispatcher]
      rfl
  | left told =>
      have hStays := h.stays
      rw [hDispatcher] at hStays
      have hTold : told = true := hStays rfl
      subst hTold
      cases hStage with
      | feeding rest ids _ _ _ hStopping =>
          rw [hDispatcher] at hStopping
          cases hStopping
      | joining ids _ hJoining =>
          refine ⟨.conclude, rfl, ?_⟩
          rw [apply, applyConclude, hJoining, hDispatcher]
          rfl
      | done result _ _ hAnswer =>
          rw [hJoined] at hAnswer
          cases hAnswer

end State

end Pool

end Abnf

------------------------------------------------------------
-- Whole Runs
------------------------------------------------------------

namespace Abnf

namespace Pool

namespace State

/- The state after some actions, if each of them applies. -/
def follow
    (capacity : Nat) :
    State → List Action → Option State
  | s, [] => some s
  | s, action :: rest =>
      (s.apply capacity action).bind
        (fun next => follow capacity next rest)

/- What holds of a pool of some size at all times. -/
structure IsSound
    (size : Nat)
    (s : State) : Prop where
  length : s.workers.length = Nat.max size 1
  orderly : s.IsOrderly
  stage : s.Stage
  complete : s.IsComplete

theorem isSound_opened
    (size : Nat)
    (jobs : List Nat) : (opened size jobs).IsSound size := by
  have hOrderly := isOrderly_start size
  exact
    ⟨List.length_replicate,
      ⟨hOrderly.fits, hOrderly.tokens, hOrderly.released,
        hOrderly.gone, hOrderly.counted⟩,
      stage_opened size jobs, isComplete_start size _⟩

variable
  {capacity size : Nat}
  {s s' : State}
  {jobs : List Nat}

theorem length_step
    {action : Action}
    (h : Step capacity s action s') :
    s'.workers.length = s.workers.length := by
  cases h with
  | sendJob => exact List.length_modify ..
  | sendStop => exact List.length_modify ..
  | work => exact List.length_set ..
  | _ => rfl

theorem isSound_apply
    {action : Action}
    (h : s.IsSound size)
    (hApply : s.apply capacity action = some s') :
    s'.IsSound size := by
  have hStep := step_of_apply hApply
  exact
    ⟨(length_step hStep).trans h.length,
      isOrderly_step h.orderly hStep,
      stage_step h.orderly h.stage hStep,
      isComplete_step h.orderly h.complete hStep⟩

/- What each action of a run keeps holds at its end. -/
theorem follow_keeps
    {kept : State → Prop}
    {actions : List Action}
    (hKeeps :
      ∀ action ∈ actions, ∀ s s' : State,
        kept s → s.apply capacity action = some s' →
          kept s')
    (h : kept s)
    (hFollow : s.follow capacity actions = some s') :
    kept s' := by
  induction actions generalizing s with
  | nil =>
      cases hFollow
      exact h
  | cons action rest ih =>
      rw [List.forall_mem_cons] at hKeeps
      rcases Option.bind_eq_some_iff.mp hFollow with
        ⟨next, hApply, hRest⟩
      exact ih hKeeps.2 (hKeeps.1 s next h hApply) hRest

theorem isSound_follow
    {actions : List Action}
    (h : s.IsSound size)
    (hFollow : s.follow capacity actions = some s') :
    s'.IsSound size := by
  apply follow_keeps _ h hFollow
  intro action _ s s' hSound hApply
  exact isSound_apply hSound hApply

theorem IsSound.length_pos
    (h : s.IsSound size) : 0 < s.workers.length := by
  rw [h.length]
  exact Nat.lt_of_lt_of_le Nat.one_pos (Nat.le_max_right ..)

theorem isCalm_follow
    {actions : List Action}
    (hSound : s.IsSound size)
    (h : s.IsCalm jobs)
    (hFollow : s.follow capacity actions = some s')
    (hActions :
      ∀ action ∈ actions, action.isCalm = true) :
    s'.IsCalm jobs := by
  have hBoth : s'.IsSound size ∧ s'.IsCalm jobs := by
    apply follow_keeps _ ⟨hSound, h⟩ hFollow
    rintro action hMember s s' ⟨hSound, hCalm⟩ hApply
    exact
      ⟨isSound_apply hSound hApply,
        isCalm_step hSound.length_pos hSound.orderly
          hSound.stage hCalm (step_of_apply hApply)
          (hActions action hMember)⟩
  exact hBoth.2

/- Once the pool has stopped, no worker is left. -/
theorem IsSound.gone_of_joined
    (h : s.IsSound size)
    (hJoined : s.joined = some (.ok ()))
    (worker : Worker)
    (hWorker : worker ∈ s.workers) :
    worker.coming = [] ∧ worker.current = [] := by
  rcases List.getElem?_of_mem hWorker with ⟨index, hIndex⟩
  have hLeft := (h.stage.queue_eq_nil hJoined).1
  have hGone :=
    h.orderly.gone (by rw [hLeft]; rfl) index worker hIndex
  have hFits := h.orderly.fits index worker hIndex
  constructor
  · cases hFits with
    | gone hInbox => exact hInbox
    | ready => cases hGone
    | free => cases hGone
    | called id => cases hGone
    | running id => cases hGone
    | stopping hAsked => cases hGone
  · rw [Worker.current, hGone]
    rfl

/- Once the pool has stopped, all jobs it took are done. -/
theorem IsSound.perm_of_joined
    (h : s.IsSound size)
    (hJoined : s.joined = some (.ok ())) :
    s.started.Perm s.accepted ∧ s.ended.Perm s.accepted := by
  rcases h.stage.queue_eq_nil hJoined with ⟨hLeft, hQueue⟩
  have hGone := h.gone_of_joined hJoined
  have hDue : s.due = [] := by
    rw [due, hLeft, hQueue,
      List.flatMap_eq_nil_iff.mpr
        (fun worker hWorker => (hGone worker hWorker).1)]
    rfl
  have hStarted := h.complete.due.perm
  have hEnded := h.complete.current.perm
  rw [hDue, List.append_nil] at hStarted
  rw [List.flatMap_eq_nil_iff.mpr
    (fun worker hWorker => (hGone worker hWorker).2),
    List.append_nil] at hEnded
  exact ⟨hStarted, hEnded.trans hStarted⟩

/- A single worker takes the jobs in turn, one at a time. -/
theorem IsSound.inOrder
    (h : s.IsSound size)
    (hSize : size ≤ 1) :
    s.started <+: s.accepted ∧ s.ended <+: s.started ∧
      s.started.length ≤ s.ended.length + 1 := by
  have hLength : s.workers.length = 1 := by
    rw [h.length]
    exact Nat.max_eq_right hSize
  have hDue := h.complete.due.eq (Nat.le_of_eq hLength)
  have hCurrent :=
    h.complete.current.eq (Nat.le_of_eq hLength)
  refine ⟨⟨_, hDue⟩, ⟨_, hCurrent⟩, ?_⟩
  rcases List.length_eq_one_iff.mp hLength with
    ⟨worker, hWorkers⟩
  rw [← hCurrent, hWorkers, List.length_append,
    List.flatMap_singleton]
  apply Nat.add_le_add_left
  rw [Worker.current]
  cases worker.activity.job? with
  | none => exact Nat.zero_le _
  | some id => exact Nat.le_refl _

/-
  Take any run of a new pool whose client puts some jobs
  into the queue and then joins. No job gets lost on the way
  to a worker. When the client hears that the pool has
  stopped, each job that was taken has been started exactly
  once and has ended. If no job dies, each job is taken, the
  pool stops well, something can happen until it has
  stopped, and a single worker runs the jobs in turn.
-/
theorem runs_accepted
    {actions : List Action}
    (h :
      (opened size jobs).follow capacity actions = some s) :
    s.dropped = [] ∧
    (s.joined = some (.ok ()) →
      s.started.Perm s.accepted ∧
        s.ended.Perm s.accepted) ∧
    ((∀ action ∈ actions, action.isCalm = true) →
      s.refused = [] ∧
      (∀ result, s.joined = some result →
        result = .ok () ∧ s.accepted = jobs) ∧
      (s.joined = none → s.CanGoOn capacity) ∧
      (size ≤ 1 →
        s.started <+: jobs ∧ s.ended <+: s.started ∧
          s.started.length ≤ s.ended.length + 1)) := by
  have hOpened := isSound_opened size jobs
  have hSound := isSound_follow hOpened h
  refine
    ⟨hSound.complete.dropped, hSound.perm_of_joined, ?_⟩
  intro hActions
  have hCalm :=
    isCalm_follow hOpened (isCalm_opened size jobs) h hActions
  refine ⟨hCalm.refused, ?_, ?_, ?_⟩
  · intro result hResult
    refine ⟨hCalm.joined result hResult, ?_⟩
    have hTaken := hCalm.taken
    rw [hSound.stage.calls_eq_nil hResult] at hTaken
    exact (List.append_nil _).symm.trans hTaken
  · exact
      exists_enabled hSound.length_pos hSound.orderly
        hSound.stage hCalm
  · intro hSize
    have hOrder := hSound.inOrder hSize
    exact
      ⟨hOrder.1.trans ⟨_, hCalm.taken⟩, hOrder.2.1,
        hOrder.2.2⟩

/- One worker gets a job from hand to hand, and stops. -/
def singleRun : List Action :=
  [.work 0 false, .hear, .call, .take, .send,
   .work 0 false, .work 0 false, .work 0 false, .hear,
   .call, .take, .send, .work 0 false, .work 0 false,
   .hear, .tell, .conclude]

/- One of two workers dies by its job, the other stops. -/
def deadlyRun : List Action :=
  [.call, .work 0 false, .hear, .take, .send,
   .work 0 false, .work 0 true, .call,
   .work 1 false, .hear, .take, .send, .send,
   .drop (.voice 0), .work 1 false, .work 1 false, .hear,
   .drop (.voice 1), .lose, .tell, .conclude]

theorem runs_accepted_bothRuns :
    (∃ s,
      (opened 1 [7]).follow 0 singleRun = some s ∧
      s.joined = some (.ok ()) ∧
      s.accepted = [7] ∧
      s.started.Perm s.accepted ∧
      s.ended.Perm s.accepted ∧
      s.refused = []) ∧
    ∃ s,
      (opened 2 [7]).follow 1 deadlyRun = some s ∧
      s.joined = some (.ok ()) ∧
      s.accepted = [7] ∧
      s.started.Perm s.accepted ∧
      s.ended.Perm s.accepted := by
  constructor
  · refine ⟨_, rfl, rfl, rfl, ?_⟩
    have hRuns :=
      @runs_accepted 0 1 _ [7] singleRun rfl
    have hCalm := hRuns.2.2 (by decide)
    exact
      ⟨(hRuns.2.1 rfl).1, (hRuns.2.1 rfl).2, hCalm.1⟩
  · refine ⟨_, rfl, rfl, rfl, ?_⟩
    exact
      (@runs_accepted 1 2 _ [7] deadlyRun rfl).2.1 rfl

end State

end Pool

end Abnf
