import Abnf.Proofs.Pool.Order
import Mathlib.Data.List.Perm.Basic

/-
  Where the jobs of a pool are.

  A job that was put into the queue is in the queue, with
  the dispatcher, on its way to a worker or started; none
  gets lost and none is doubled. A started job has ended or
  is run by a worker. With a single worker the jobs are also
  in the order in which they came.

  Key definitions include:
    * `Abnf.Pool.Agrees`
    * `Abnf.Pool.State.flow`
    * `Abnf.Pool.State.IsComplete`

  Main declarations:
    * `Abnf.Pool.agrees_set`
    * `Abnf.Pool.State.isComplete_step`
-/

------------------------------------------------------------
-- Agreement
------------------------------------------------------------

namespace Abnf

namespace Pool

/-
  Two lists have the same members equally often, and in the
  same order if there is no more than one worker.
-/
structure Agrees
    (size : Nat)
    (one other : List Nat) : Prop where
  perm : one.Perm other
  eq : size ≤ 1 → one = other

namespace Agrees

variable {size : Nat} {one other third : List Nat}

theorem of_eq
    (h : one = other) : Agrees size one other :=
  ⟨.of_eq h, fun _ => h⟩

theorem trans
    (h : Agrees size one other)
    (h' : Agrees size other third) :
    Agrees size one third :=
  ⟨h.perm.trans h'.perm,
    fun hSize => (h.eq hSize).trans (h'.eq hSize)⟩

theorem append_right
    (h : Agrees size one other)
    (rest : List Nat) :
    Agrees size (one ++ rest) (other ++ rest) :=
  ⟨h.perm.append_right rest,
    fun hSize => by rw [h.eq hSize]⟩

theorem append_left
    (front : List Nat)
    (h : Agrees size one other) :
    Agrees size (front ++ one) (front ++ other) :=
  ⟨h.perm.append_left front,
    fun hSize => by rw [h.eq hSize]⟩

end Agrees

/-
  What a worker has may be taken from its front and put
  behind it. Among all workers the order may change by that.
-/
theorem agrees_set
    {workers : List Worker}
    {index : Nat}
    {worker : Worker}
    (hWorker : workers[index]? = some worker)
    (next : Worker)
    (f : Worker → List Nat)
    (front back : List Nat)
    (h : front ++ f next = f worker ++ back) :
    Agrees workers.length
      (front ++ (workers.set index next).flatMap f)
      (workers.flatMap f ++ back) := by
  rcases List.getElem?_eq_some_iff.mp hWorker with
    ⟨hIndex, hWorker⟩
  have hOld :
      workers =
        workers.take index ++
          worker :: workers.drop (index + 1) := by
    rw [← hWorker, ← List.drop_eq_getElem_cons hIndex,
      List.take_append_drop]
  have hNew :
      workers.set index next =
        workers.take index ++
          next :: workers.drop (index + 1) := by
    rw [List.set_eq_take_append_cons_drop, if_pos hIndex]
  generalize workers.take index = before at hOld hNew
  generalize workers.drop (index + 1) = behind at hOld hNew
  rw [hNew, hOld]
  simp only [List.flatMap_append, List.flatMap_cons]
  constructor
  · rw [List.perm_iff_count]
    intro id
    have hCount := congrArg (List.count id) h
    simp only [List.count_append] at hCount ⊢
    omega
  · intro hSize
    rw [List.length_append, List.length_cons] at hSize
    have hBefore : before = [] :=
      List.length_eq_zero_iff.mp (by omega)
    have hBehind : behind = [] :=
      List.length_eq_zero_iff.mp (by omega)
    simpa [hBefore, hBehind] using h

/- A signal to a worker that brings it nothing. -/
theorem flatMap_modify
    (workers : List Worker)
    (index : Nat)
    {change : Worker → Worker}
    {f : Worker → List Nat}
    (h : ∀ worker, f (change worker) = f worker) :
    (workers.modify index change).flatMap f =
      workers.flatMap f := by
  induction workers generalizing index with
  | nil => cases index <;> rfl
  | cons worker workers ih =>
      cases index with
      | zero => simp [h]
      | succ index => simp [ih]

end Pool

end Abnf

------------------------------------------------------------
-- The Flow Of Jobs
------------------------------------------------------------

namespace Abnf

namespace Pool

/- The job that the dispatcher is about to send. -/
def Dispatcher.job? : Dispatcher → Option Nat
  | passing _ id => some id
  | _ => none

/- The job that a worker runs. -/
def Activity.job? : Activity → Option Nat
  | running id => some id
  | _ => none

/- The jobs on their way to a worker. -/
def Worker.coming
    (worker : Worker) : List Nat :=
  jobsOf worker.inbox

/- The jobs that a worker runs. -/
def Worker.current
    (worker : Worker) : List Nat :=
  worker.activity.job?.toList

@[simp] theorem Dispatcher.job?_countFrom
    (size count : Nat) :
    (countFrom size count).job? = none := by
  unfold countFrom
  split
  · rfl
  · rfl

@[simp] theorem Dispatcher.job?_stopFrom
    (size next : Nat) :
    (stopFrom size next).job? = none := by
  unfold stopFrom
  split
  · rfl
  · exact job?_countFrom size 0

theorem jobsOf_append
    (signals signals' : List Signal) :
    jobsOf (signals ++ signals') =
      jobsOf signals ++ jobsOf signals' :=
  List.filterMap_append

@[simp] theorem jobsOf_job
    (id : Nat)
    (rest : List Signal) :
    jobsOf (.job id :: rest) = id :: jobsOf rest :=
  rfl

@[simp] theorem jobsOf_stop
    (rest : List Signal) :
    jobsOf (.stop :: rest) = jobsOf rest :=
  rfl

namespace State

/- The jobs that were not started yet, the oldest first. -/
def due
    (s : State) : List Nat :=
  s.workers.flatMap Worker.coming ++
    (s.dispatcher.job?.toList ++ jobsOf s.queue)

/- No job was lost or doubled. -/
structure IsComplete
    (s : State) : Prop where
  dropped : s.dropped = []
  due :
    Agrees s.workers.length (s.started ++ s.due) s.accepted
  current :
    Agrees s.workers.length
      (s.ended ++ s.workers.flatMap Worker.current) s.started

theorem isComplete_start
    (size : Nat)
    (calls : List Call) :
    IsComplete { start size with calls := calls } := by
  have hNone :
      ∀ f : Worker → List Nat,
        f ⟨[], .ready⟩ = [] →
        (start size).workers.flatMap f = [] := by
    intro f hReady
    rw [List.flatMap_eq_nil_iff]
    intro worker hWorker
    rw [List.eq_of_mem_replicate hWorker, hReady]
  refine ⟨rfl, .of_eq ?_, .of_eq ?_⟩
  · exact
      (List.append_nil _).trans (hNone Worker.coming rfl)
  · exact hNone Worker.current rfl

section Move

variable
  {s : State}
  {index : Nat}
  {dies : Bool}
  {worker next : Worker}
  {told : List Report}
  {begun done : List Nat}
  (hMove : Move s index dies worker next told begun done)

include hMove

theorem coming_of_move :
    begun ++ next.coming = worker.coming := by
  cases hMove with
  | leave => rfl
  | offer => rfl
  | start => rfl
  | obey => rfl
  | giveUp => rfl
  | finish => rfl
  | report => rfl
  | silence => rfl

theorem current_of_move :
    done ++ next.current = worker.current ++ begun := by
  cases hMove with
  | leave => rfl
  | offer => rfl
  | start => rfl
  | obey => rfl
  | giveUp => rfl
  | finish =>
      cases dies
      · rfl
      · rfl
  | report => rfl
  | silence => rfl

end Move

variable {s s' : State}

/- Where a job only changes hands, it is not lost. -/
theorem IsComplete.passOn
    (h : s.IsComplete)
    {calls : List Call}
    {joining : Bool}
    {queue : List Signal}
    {dispatcher : Dispatcher}
    {reports : List Report}
    (hDue :
      dispatcher.job?.toList ++ jobsOf queue =
        s.dispatcher.job?.toList ++ jobsOf s.queue) :
    IsComplete { s with
      calls := calls
      joining := joining
      queue := queue
      dispatcher := dispatcher
      reports := reports } := by
  refine ⟨h.dropped, ?_, h.current⟩
  have hOld := h.due
  rw [State.due, ← hDue] at hOld
  exact hOld

theorem IsComplete.accept
    (h : s.IsComplete)
    (id : Nat)
    (rest : List Call) :
    IsComplete { s with
      calls := rest
      queue := s.queue ++ [.job id]
      accepted := s.accepted ++ [id] } := by
  refine ⟨h.dropped, ?_, h.current⟩
  have hDue := h.due.append_right [id]
  rw [State.due, List.append_assoc, List.append_assoc,
    List.append_assoc] at hDue
  rw [State.due, jobsOf_append]
  exact hDue

/- A worker gets the job that the dispatcher has for it. -/
theorem IsComplete.sendJob
    (h : s.IsComplete)
    {worker id : Nat}
    (hDispatcher : s.dispatcher = .passing worker id)
    (hFree : s.isFree worker) :
    IsComplete { s with
      workers :=
        s.workers.modify worker (Worker.receive (.job id))
      dispatcher := .handing none } := by
  rw [modify_eq_set hFree]
  have hComing :=
    agrees_set hFree (Worker.receive (.job id) ⟨[], .waiting⟩)
      Worker.coming [] [id] rfl
  have hCurrent :=
    agrees_set hFree (Worker.receive (.job id) ⟨[], .waiting⟩)
      Worker.current [] [] rfl
  refine ⟨h.dropped, ?_, ?_⟩
  · rw [List.length_set]
    refine Agrees.trans ?_ h.due
    apply Agrees.append_left
    rw [State.due, State.due, hDispatcher]
    have hAll := hComing.append_right (jobsOf s.queue)
    rw [List.nil_append, List.append_assoc] at hAll
    exact hAll
  · rw [List.length_set]
    refine Agrees.trans ?_ h.current
    apply Agrees.append_left
    rw [List.append_nil] at hCurrent
    exact hCurrent

theorem IsComplete.sendStop
    (h : s.IsComplete)
    {next : Nat}
    (hDispatcher : s.dispatcher = .stopping next) :
    IsComplete { s with
      workers :=
        s.workers.modify next (Worker.receive .stop)
      dispatcher :=
        .stopFrom s.workers.length (next + 1) } := by
  have hComing :
      ∀ worker : Worker,
        (worker.receive .stop).coming = worker.coming := by
    intro worker
    exact (jobsOf_append ..).trans (List.append_nil _)
  refine ⟨h.dropped, ?_, ?_⟩
  · have hDue := h.due
    rw [State.due, hDispatcher] at hDue
    rw [State.due, List.length_modify,
      flatMap_modify _ _ hComing, Dispatcher.job?_stopFrom]
    exact hDue
  · rw [List.length_modify]
    have hCurrent :
        ∀ worker : Worker,
          (worker.receive .stop).current = worker.current :=
      fun _ => rfl
    rw [flatMap_modify _ _ hCurrent]
    exact h.current

/- A worker starts a job that has come, or ends its own. -/
theorem IsComplete.work
    (h : s.IsComplete)
    {index : Nat}
    {dies : Bool}
    {worker next : Worker}
    {told : List Report}
    {begun done : List Nat}
    (hWorker : s.workers[index]? = some worker)
    (hMove : Move s index dies worker next told begun done) :
    IsComplete { s with
      workers := s.workers.set index next
      reports := s.reports ++ told
      started := s.started ++ begun
      ended := s.ended ++ done } := by
  have hComing :=
    agrees_set hWorker next Worker.coming begun []
      ((coming_of_move hMove).trans (List.append_nil _).symm)
  have hCurrent :=
    agrees_set hWorker next Worker.current done begun
      (current_of_move hMove)
  refine ⟨h.dropped, ?_, ?_⟩
  · rw [List.length_set]
    refine Agrees.trans ?_ h.due
    rw [List.append_assoc]
    apply Agrees.append_left
    rw [State.due, State.due, ← List.append_assoc]
    apply Agrees.append_right
    rw [List.append_nil] at hComing
    exact hComing
  · rw [List.length_set]
    refine Agrees.trans ?_ (h.current.append_right begun)
    rw [List.append_assoc, List.append_assoc]
    exact hCurrent.append_left s.ended

/- Each step leaves no job out. -/
theorem isComplete_step
    {capacity : Nat}
    {action : Action}
    (hOrderly : s.IsOrderly)
    (h : s.IsComplete)
    (hStep : Step capacity s action s') : s'.IsComplete := by
  cases hStep with
  | refuse => exact ⟨h.dropped, h.due, h.current⟩
  | accept => exact h.accept _ _
  | joinLate => exact ⟨h.dropped, h.due, h.current⟩
  | join =>
      apply h.passOn
      rw [jobsOf_append]
      exact congrArg _ (List.append_nil _)
  | conclude => exact ⟨h.dropped, h.due, h.current⟩
  | despair => exact ⟨h.dropped, h.due, h.current⟩
  | hearIdle hDispatcher =>
      apply h.passOn
      rw [hDispatcher]
      rfl
  | hearStopped => exact h.passOn rfl
  | countStopped hDispatcher =>
      apply h.passOn
      rw [hDispatcher, Dispatcher.job?_countFrom]
      rfl
  | countIdle => exact h.passOn rfl
  | takeJob hDispatcher hQueue =>
      apply h.passOn
      rw [hDispatcher, hQueue]
      rfl
  | takeStop hDispatcher hQueue =>
      apply h.passOn
      rw [hDispatcher, hQueue, Dispatcher.job?_stopFrom]
      rfl
  | dropJob hDispatcher hClosed =>
      exact
        absurd hClosed
          (hOrderly.not_mem_closed_of_passing hDispatcher)
  | sendJob hDispatcher =>
      exact
        h.sendJob hDispatcher
          (hOrderly.isFree_of_passing hDispatcher)
  | skip hDispatcher =>
      apply h.passOn
      rw [hDispatcher, Dispatcher.job?_stopFrom]
      rfl
  | sendStop hDispatcher => exact h.sendStop hDispatcher
  | abandon hDispatcher =>
      apply h.passOn
      rw [hDispatcher]
      rfl
  | lose hDispatcher =>
      apply h.passOn
      rw [hDispatcher]
      rfl
  | tell hDispatcher =>
      apply h.passOn
      rw [hDispatcher]
      rfl
  | work hWorker hMove => exact h.work hWorker hMove
  | drop => exact ⟨h.dropped, h.due, h.current⟩

end State

end Pool

end Abnf
