/-
  Pools of workers fed from a bounded queue of jobs.

  A client puts jobs into the queue and at the end asks the
  pool to stop. A dispatcher waits until a worker reports
  that it is idle, takes the next job from the queue and
  hands it to that worker. A job may die and take its worker
  with it. When no worker is left the dispatcher leaves, and
  from then on nothing more can be put into the queue.

  What the parties can do is given by actions on a state,
  each with the condition under which it applies. An action
  sends or takes one message, finds that a channel has no
  other end, runs to the end of a job, or drops an end of a
  channel. Any order of actions is a possible run.

  Key definitions include:
    * `Abnf.Pool.End`
    * `Abnf.Pool.State`
    * `Abnf.Pool.Action`
    * `Abnf.Pool.State.apply`
    * `Abnf.Pool.State.settle`
    * `Abnf.Pool.trial`
-/

------------------------------------------------------------
-- Parties
------------------------------------------------------------

namespace Abnf

/- Why a pool does not take a job or does not stop well. -/
inductive PoolError where
  /- Nobody takes jobs from the queue any more. -/
  | queueClosed
  /- The dispatcher left without waiting for the workers. -/
  | joinFailed
deriving DecidableEq, Inhabited

/- The text that reports the error. -/
def PoolError.message : PoolError → String
  | queueClosed => "Thread pool job queue is closed"
  | joinFailed =>
      "Thread pool stopped before its workers joined"

namespace Pool

/- What travels to the dispatcher and to a worker. -/
inductive Signal where
  /- Run the job of a number. -/
  | job (id : Nat)
  /- Stop. -/
  | stop
deriving DecidableEq, Inhabited

/- What workers tell the dispatcher. -/
inductive Report where
  /- The worker of an index can take a job. -/
  | idle (worker : Nat)
  /- A worker has stopped as it was told. -/
  | stopped
deriving DecidableEq, Inhabited

/- What a worker is doing. -/
inductive Activity where
  /- It is about to report that it is idle. -/
  | ready
  /- It waits for a signal. -/
  | waiting
  /- It runs a job. -/
  | running (id : Nat)
  /- It is about to report that it has stopped. -/
  | stopping
  /- It is no more, only its ends of channels may be left. -/
  | gone
deriving DecidableEq, Inhabited

/- A worker and the signals on the way to it. -/
structure Worker where
  inbox : List Signal
  activity : Activity
deriving DecidableEq, Inhabited

/- Put a signal behind those on the way to a worker. -/
def Worker.receive
    (signal : Signal)
    (worker : Worker) : Worker :=
  { worker with inbox := worker.inbox ++ [signal] }

/- What the dispatcher is doing. -/
inductive Dispatcher where
  /-
    It waits for an idle worker, or for the next signal if
    it has one.
  -/
  | handing (idle : Option Nat)
  /- It is about to send a job to a worker. -/
  | passing (worker id : Nat)
  /- It is about to tell a worker to stop. -/
  | stopping (next : Nat)
  /- It counts the workers that have stopped. -/
  | counting (stopped : Nat)
  /- It is about to give the last word to the client. -/
  | telling
  /- It has left, with or without a word to the client. -/
  | left (told : Bool)
deriving DecidableEq, Inhabited

namespace Dispatcher

/- Count until all workers of a number have stopped. -/
def countFrom
    (size stopped : Nat) : Dispatcher :=
  if stopped < size then counting stopped else telling

/- Tell the workers of a number to stop, then count. -/
def stopFrom
    (size next : Nat) : Dispatcher :=
  if next < size then stopping next else countFrom size 0

/- The dispatcher has left. -/
def isLeft : Dispatcher → Bool
  | left _ => true
  | _ => false

end Dispatcher

/- An end of a channel that its owner drops once it stops. -/
inductive End where
  /- The dispatcher's end of the queue. -/
  | queue
  /- The dispatcher's end of the reports. -/
  | reports
  /- The dispatcher's end of the way to the client. -/
  | word
  /- The dispatcher's end of the signals to a worker. -/
  | signals (worker : Nat)
  /- A worker's end of the signals to it. -/
  | inbox (worker : Nat)
  /- A worker's end of the reports. -/
  | voice (worker : Nat)
deriving DecidableEq, Inhabited

/- What the client does next. -/
inductive Call where
  /- Put a job into the queue. -/
  | enqueue (id : Nat)
  /- Ask the pool to stop and wait for it. -/
  | join
deriving DecidableEq, Inhabited

/- The whole pool together with its client. -/
structure State where
  /- The calls of the client that are still to come. -/
  calls : List Call
  /- The client waits for the last word. -/
  joining : Bool
  /- How the join ended. -/
  joined : Option (Except PoolError Unit)
  /- The signals in the queue. -/
  queue : List Signal
  dispatcher : Dispatcher
  workers : List Worker
  /- The reports on the way to the dispatcher. -/
  reports : List Report
  /- The ends of channels that were dropped. -/
  closed : List End
  /- The jobs that were put into the queue. -/
  accepted : List Nat
  /- The jobs that could not be put into it. -/
  refused : List Nat
  /- The jobs that could not be sent to their worker. -/
  dropped : List Nat
  /- The jobs that were started. -/
  started : List Nat
  /- The jobs that ended, well or not. -/
  ended : List Nat

end Pool

end Abnf

------------------------------------------------------------
-- Actions
------------------------------------------------------------

namespace Abnf

namespace Pool

/- What can happen next. -/
inductive Action where
  /- The client makes its next call. -/
  | call
  /- The client gets the last word. -/
  | conclude
  /- The dispatcher takes a report. -/
  | hear
  /- The dispatcher takes a signal from the queue. -/
  | take
  /- The dispatcher sends a signal to a worker. -/
  | send
  /- The dispatcher finds no worker left. -/
  | lose
  /- The dispatcher gives the last word to the client. -/
  | tell
  /- A worker goes on; a job it runs ends, well or not. -/
  | work (worker : Nat) (dies : Bool)
  /- A party that has stopped drops an end of a channel. -/
  | drop (side : End)
deriving DecidableEq, Inhabited

namespace State

/- An end of a channel was dropped. -/
def isClosed
    (s : State)
    (side : End) : Bool :=
  s.closed.contains side

/-
  A signal fits into the queue. A queue without places
  passes signals from hand to hand, so the dispatcher has to
  wait at the other side.
-/
def hasRoom
    (capacity : Nat)
    (s : State) : Bool :=
  if capacity = 0 then
    match s.dispatcher with
    | .handing (some _) => s.queue.isEmpty
    | _ => false
  else
    s.queue.length < capacity

/- No worker has an end of the reports any more. -/
def isDeserted
    (s : State) : Bool :=
  (List.range s.workers.length).all
    (fun index => s.isClosed (.voice index))

/- Put a signal into the queue. -/
def push
    (s : State)
    (signal : Signal) : State :=
  { s with queue := s.queue ++ [signal] }

/- The client makes its next call. -/
def applyCall
    (capacity : Nat)
    (s : State) : Option State :=
  match s.calls with
  | [] => none
  | .enqueue id :: rest =>
      if s.isClosed .queue then
        some { s with
          calls := rest
          refused := s.refused ++ [id] }
      else if s.hasRoom capacity then
        some { s.push (.job id) with
          calls := rest
          accepted := s.accepted ++ [id] }
      else
        none
  | .join :: rest =>
      if s.isClosed .queue then
        some { s with
          calls := rest
          joined := some (.error .queueClosed) }
      else if s.hasRoom capacity then
        some { s.push .stop with
          calls := rest
          joining := true }
      else
        none

/- The client gets the last word, or there will be none. -/
def applyConclude
    (s : State) : Option State :=
  match s.joining, s.dispatcher with
  | true, .left true =>
      some { s with
        joining := false
        joined := some (.ok ()) }
  | true, .left false =>
      if s.isClosed .word then
        some { s with
          joining := false
          joined := some (.error .joinFailed) }
      else
        none
  | _, _ => none

/- The dispatcher takes a report. -/
def applyHear
    (s : State) : Option State :=
  match s.dispatcher, s.reports with
  | .handing none, .idle worker :: rest =>
      some { s with
        dispatcher := .handing (some worker)
        reports := rest }
  | .handing none, .stopped :: rest =>
      some { s with reports := rest }
  | .counting count, .stopped :: rest =>
      some { s with
        dispatcher :=
          .countFrom s.workers.length (count + 1)
        reports := rest }
  | .counting _, .idle _ :: rest =>
      some { s with reports := rest }
  | _, _ => none

/- The dispatcher takes a signal from the queue. -/
def applyTake
    (s : State) : Option State :=
  match s.dispatcher, s.queue with
  | .handing (some worker), .job id :: rest =>
      some { s with
        queue := rest
        dispatcher := .passing worker id }
  | .handing (some _), .stop :: rest =>
      some { s with
        queue := rest
        dispatcher := .stopFrom s.workers.length 0 }
  | _, _ => none

/- Send a signal to a worker. -/
def deliver
    (s : State)
    (worker : Nat)
    (signal : Signal) : State :=
  { s with
    workers :=
      s.workers.modify worker (Worker.receive signal) }

/-
  The dispatcher sends a signal to a worker. A worker that
  has dropped its end does not get it.
-/
def applySend
    (s : State) : Option State :=
  match s.dispatcher with
  | .passing worker id =>
      if s.isClosed (.inbox worker) then
        some { s with
          dispatcher := .handing none
          dropped := s.dropped ++ [id] }
      else
        some { s.deliver worker (.job id) with
          dispatcher := .handing none }
  | .stopping next =>
      if s.isClosed (.inbox next) then
        some { s with
          dispatcher :=
            .stopFrom s.workers.length (next + 1) }
      else
        some { s.deliver next .stop with
          dispatcher :=
            .stopFrom s.workers.length (next + 1) }
  | _ => none

/- The dispatcher finds no worker left. -/
def applyLose
    (s : State) : Option State :=
  if s.reports.isEmpty && s.isDeserted then
    match s.dispatcher with
    | .handing none =>
        some { s with dispatcher := .left false }
    | .counting _ =>
        some { s with dispatcher := .telling }
    | _ => none
  else
    none

/- The dispatcher gives the last word to the client. -/
def applyTell
    (s : State) : Option State :=
  match s.dispatcher with
  | .telling => some { s with dispatcher := .left true }
  | _ => none

/- Tell the dispatcher something, if it still listens. -/
def report
    (s : State)
    (message : Report) : State :=
  if s.isClosed .reports then
    s
  else
    { s with reports := s.reports ++ [message] }

/- Change what a worker does and has to read. -/
def withWorker
    (s : State)
    (index : Nat)
    (worker : Worker) : State :=
  { s with workers := s.workers.set index worker }

/- A worker goes on. -/
def applyWork
    (s : State)
    (index : Nat)
    (dies : Bool) : Option State :=
  match s.workers[index]? with
  | none => none
  | some worker =>
      match worker.activity, worker.inbox with
      | .ready, inbox =>
          if s.isClosed .reports then
            some (s.withWorker index ⟨inbox, .gone⟩)
          else
            some ((s.report (.idle index)).withWorker index
              ⟨inbox, .waiting⟩)
      | .waiting, .job id :: inbox =>
          some { s.withWorker index ⟨inbox, .running id⟩ with
            started := s.started ++ [id] }
      | .waiting, .stop :: inbox =>
          some (s.withWorker index ⟨inbox, .stopping⟩)
      | .waiting, [] =>
          if s.isClosed (.signals index) then
            some (s.withWorker index ⟨[], .stopping⟩)
          else
            none
      | .running id, inbox =>
          some { s.withWorker index
              ⟨inbox, if dies then .gone else .ready⟩ with
            ended := s.ended ++ [id] }
      | .stopping, inbox =>
          some ((s.report .stopped).withWorker index
            ⟨inbox, .gone⟩)
      | .gone, _ => none

/- The owner of an end of a channel has stopped. -/
def isReleased
    (s : State) : End → Bool
  | .queue => s.dispatcher.isLeft
  | .reports => s.dispatcher.isLeft
  | .word => s.dispatcher.isLeft
  | .signals worker =>
      s.dispatcher.isLeft && worker < s.workers.length
  | .inbox worker =>
      s.workers[worker]?.any (·.activity == .gone)
  | .voice worker =>
      s.workers[worker]?.any (·.activity == .gone)

/- A party that has stopped drops an end of a channel. -/
def applyDrop
    (s : State)
    (side : End) : Option State :=
  if s.isReleased side && !s.isClosed side then
    some { s with closed := side :: s.closed }
  else
    none

/- The state after an action, if the action applies. -/
def apply
    (capacity : Nat)
    (s : State) :
    Action → Option State
  | .call => s.applyCall capacity
  | .conclude => s.applyConclude
  | .hear => s.applyHear
  | .take => s.applyTake
  | .send => s.applySend
  | .lose => s.applyLose
  | .tell => s.applyTell
  | .work index dies => s.applyWork index dies
  | .drop side => s.applyDrop side

/- A pool of some workers, with no work yet. -/
def start
    (size : Nat) : State :=
  { calls := []
    joining := false
    joined := none
    queue := []
    dispatcher := .handing none
    workers :=
      List.replicate (Nat.max size 1) ⟨[], .ready⟩
    reports := []
    closed := []
    accepted := []
    refused := []
    dropped := []
    started := []
    ended := [] }

end State

end Pool

end Abnf

------------------------------------------------------------
-- Trials
------------------------------------------------------------

namespace Abnf

namespace Pool

/- How a job ends. -/
inductive Fate where
  /- It returns. -/
  | returns
  /- It dies. -/
  | dies
  /- It waits until the client joins, and dies then. -/
  | diesLate
deriving DecidableEq, Inhabited

namespace State

/- The client joins or wants to. -/
def isJoinDue
    (s : State) : Bool :=
  s.joining || s.joined.isSome ||
    s.calls.head? == some .join

/-
  How a worker goes on under given fates; a late job holds
  it until the join is due.
-/
def workOf
    (fates : List Fate)
    (s : State)
    (index : Nat) : List Action :=
  match s.workers[index]? with
  | some ⟨_, .running id⟩ =>
      match fates.getD id .returns with
      | .returns => [.work index false]
      | .dies => [.work index true]
      | .diesLate =>
          if s.isJoinDue then [.work index true] else []
  | _ => [.work index false]

/- The ends of all channels. -/
def ends
    (s : State) : List End :=
  [.queue, .reports, .word] ++
    (List.range s.workers.length).flatMap
      (fun index =>
        [.signals index, .inbox index, .voice index])

/- What may happen next, by priority. -/
def agenda
    (fates : List Fate)
    (s : State) : List Action :=
  [.call, .conclude, .hear, .take, .send, .lose, .tell] ++
    (List.range s.workers.length).flatMap
      (s.workOf fates) ++
    s.ends.map .drop

/- Act as long as something can happen. -/
def settleWithin
    (capacity : Nat)
    (fates : List Fate) :
    Nat → State → State
  | 0, s => s
  | limit + 1, s =>
      match (s.agenda fates).findSome? (s.apply capacity) with
      | some next =>
          settleWithin capacity fates limit next
      | none => s

/-
  Act as long as something can happen. A job takes at most
  seven actions, a worker nine, and the rest of a run eight.
-/
def settle
    (capacity : Nat)
    (fates : List Fate)
    (s : State) : State :=
  settleWithin capacity fates
    (7 * (fates.length + 1) + 9 * s.workers.length + 8) s

end State

/- What comes out of a trial. -/
structure Result where
  /- The error of an enqueue, if one failed. -/
  enqueue : Option PoolError
  /- The error of the join, if it failed. -/
  join : Option PoolError
  /- The jobs that returned, in the order of their start. -/
  returned : List Nat
deriving DecidableEq, Inhabited

/-
  Put one job for each fate into a pool. If that leaves no
  worker, try one job more. Then join.
-/
def trial
    (size capacity : Nat)
    (fates : List Fate) : Result :=
  let jobs := (List.range fates.length).map Call.enqueue
  let fed :=
    { State.start size with calls := jobs }.settle
      capacity fates
  let tried :=
    if fed.isDeserted then
      { fed with calls := [.enqueue fates.length] }.settle
        capacity fates
    else
      fed
  let final :=
    { tried with calls := [.join] }.settle capacity fates
  { enqueue :=
      if final.refused.isEmpty then
        none
      else
        some .queueClosed
    join :=
      match final.joined with
      | some (.error error) => some error
      | _ => none
    returned :=
      final.started.filter
        (fun id => fates.getD id .returns == .returns) }

end Pool

end Abnf
