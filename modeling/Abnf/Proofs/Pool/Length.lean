import Abnf.Proofs.Pool.Runs
import Mathlib.Algebra.GroupWithZero.Nat

/-
  How long the runs of a pool are.

  Each part of a pool can lead only to so many actions: a
  job to seven from the call of the client on, a worker to
  nine, and the client and the dispatcher to eight more.
  Each action uses up one of them at least, so that every
  run comes to an end.

  Key definitions include:
    * `Abnf.Pool.Worker.steps`
    * `Abnf.Pool.Dispatcher.steps`
    * `Abnf.Pool.State.steps`

  Main declarations:
    * `Abnf.Pool.State.steps_apply`
    * `Abnf.Pool.State.length_le_of_follow`
-/

------------------------------------------------------------
-- Steps To Come
------------------------------------------------------------

namespace Abnf

namespace Pool

/- The actions that a call can lead to, itself included. -/
def Call.steps : Call → Nat
  | enqueue _ => 7
  | join => 3

/- The actions that a signal in the queue can lead to. -/
def Signal.stepsInQueue : Signal → Nat
  | job _ => 6
  | stop => 1

/- The actions that a signal to a worker adds to its own. -/
def Signal.stepsInInbox : Signal → Nat
  | job _ => 4
  | stop => 0

/-
  The actions that a worker can do from now on, and those
  of the dispatcher that hears of them.
-/
def Activity.steps : Activity → Nat
  | ready => 5
  | waiting => 3
  | running _ => 6
  | stopping => 2
  | gone => 0

def Worker.steps
    (worker : Worker) : Nat :=
  worker.activity.steps +
    (worker.inbox.map Signal.stepsInInbox).sum

/- The actions that the dispatcher does to stop a pool. -/
def Dispatcher.steps
    (size : Nat) : Dispatcher → Nat
  | handing _ => size + 2
  | passing _ _ => size + 7
  | stopping next => max (size - next) 1 + 2
  | counting _ => 2
  | telling => 1
  | left _ => 0

namespace State

/- The ends of channels that were not dropped yet. -/
def openEnds
    (s : State) : List End :=
  s.ends.filter (fun side => !s.isClosed side)

/- The actions that can still happen, at most. -/
def steps
    (s : State) : Nat :=
  (s.calls.map Call.steps).sum +
    (if s.joining then 1 else 0) +
    (s.queue.map Signal.stepsInQueue).sum +
    s.dispatcher.steps s.workers.length +
    (s.workers.map Worker.steps).sum +
    s.reports.length +
    s.openEnds.length

end State

end Pool

end Abnf

------------------------------------------------------------
-- Each Action Uses Up A Step
------------------------------------------------------------

namespace Abnf

namespace Pool

@[simp] theorem Dispatcher.steps_handing
    (size : Nat)
    (idle : Option Nat) :
    (handing idle).steps size = size + 2 :=
  rfl

@[simp] theorem Dispatcher.steps_stopping
    (size next : Nat) :
    (stopping next).steps size =
      max (size - next) 1 + 2 :=
  rfl

@[simp] theorem Dispatcher.steps_counting
    (size count : Nat) :
    (counting count).steps size = 2 :=
  rfl

theorem Dispatcher.steps_countFrom_le
    (size count : Nat) :
    (countFrom size count).steps size ≤ 2 := by
  unfold countFrom
  split
  · exact Nat.le_refl 2
  · exact Nat.le_succ 1

theorem Dispatcher.steps_stopFrom_zero_le
    (size : Nat) :
    (stopFrom size 0).steps size ≤ size + 2 := by
  unfold stopFrom
  split
  · rename_i hSize
    rw [steps_stopping]
    omega
  · have hCount := steps_countFrom_le size 0
    omega

theorem Dispatcher.steps_stopFrom_succ_lt
    (size next : Nat) :
    (stopFrom size (next + 1)).steps size <
      max (size - next) 1 + 2 := by
  unfold stopFrom
  split
  · rw [steps_stopping]
    omega
  · have hCount := steps_countFrom_le size 0
    omega

/- What a move leaves to a worker, and what it adds. -/
theorem steps_of_move
    {s : State}
    {index : Nat}
    {dies : Bool}
    {worker next : Worker}
    {told : List Report}
    {begun done : List Nat}
    (hMove : Move s index dies worker next told begun done) :
    next.steps + told.length < worker.steps := by
  cases hMove with
  | finish =>
      cases dies with
      | true => simp [Worker.steps, Activity.steps]
      | false => simp [Worker.steps, Activity.steps]
  | _ =>
      simp [Worker.steps, Activity.steps,
        Signal.stepsInInbox]
      try omega

theorem sum_set_add
    (f : Worker → Nat)
    {workers : List Worker}
    {index : Nat}
    {worker : Worker}
    (hWorker : workers[index]? = some worker)
    (next : Worker) :
    ((workers.set index next).map f).sum + f worker =
      (workers.map f).sum + f next := by
  induction workers generalizing index with
  | nil => cases hWorker
  | cons first rest ih =>
      cases index with
      | zero =>
          cases hWorker
          simp
          omega
      | succ index =>
          have hRest := ih hWorker
          rw [List.set_cons_succ, List.map_cons,
            List.map_cons, List.sum_cons, List.sum_cons]
          omega

theorem sum_modify_le
    (f : Worker → Nat)
    {change : Worker → Worker}
    {extra : Nat}
    (hChange :
      ∀ worker, f (change worker) ≤ f worker + extra)
    (workers : List Worker)
    (index : Nat) :
    ((workers.modify index change).map f).sum ≤
      (workers.map f).sum + extra := by
  induction workers generalizing index with
  | nil => cases index <;> simp
  | cons first rest ih =>
      cases index with
      | zero =>
          have hFirst := hChange first
          simp
          omega
      | succ index =>
          have hRest := ih index
          simp
          omega

theorem Worker.steps_receive_le
    (signal : Signal)
    (worker : Worker) :
    (worker.receive signal).steps ≤
      worker.steps + signal.stepsInInbox := by
  simp [Worker.steps, Worker.receive]
  omega

namespace State

/- What the owner has stopped to use is an end to drop. -/
theorem mem_ends_of_isReleased
    {s : State}
    {side : End}
    (h : s.isReleased side = true) : side ∈ s.ends := by
  have hWorker :
      ∀ index : Nat,
        s.HasGone index → index < s.workers.length := by
    rintro index ⟨worker, hSome, _⟩
    exact (List.getElem?_eq_some_iff.mp hSome).1
  cases side with
  | queue => simp [ends]
  | reports => simp [ends]
  | word => simp [ends]
  | signals index =>
      have hIndex : index < s.workers.length :=
        of_decide_eq_true (Bool.and_eq_true_iff.mp h).2
      simp [ends, hIndex]
  | inbox index =>
      have hIndex := hWorker index (isReleased_inbox_iff.mp h)
      simp [ends, hIndex]
  | voice index =>
      have hIndex := hWorker index (isReleased_voice_iff.mp h)
      simp [ends, hIndex]

/- Dropping an end leaves fewer of them open. -/
theorem length_openEnds_drop_lt
    {s : State}
    {side : End}
    (hReleased : s.isReleased side = true)
    (hOpen : s.isClosed side = false) :
    (openEnds { s with closed := side :: s.closed }).length <
      s.openEnds.length := by
  have hFilter :
      openEnds { s with closed := side :: s.closed } =
        s.openEnds.filter (· != side) := by
    rw [openEnds, openEnds, List.filter_filter]
    congr 1
    funext other
    rw [isClosed, List.contains_cons, Bool.not_or]
    rfl
  rw [hFilter, List.length_filter_lt_length_iff_exists]
  refine ⟨side, ?_, by simp⟩
  rw [openEnds, List.mem_filter, hOpen]
  exact ⟨mem_ends_of_isReleased hReleased, rfl⟩

variable {capacity : Nat} {s s' : State} {action : Action}

/- Only a drop closes an end. -/
theorem openEnds_step
    (h : Step capacity s action s')
    (hDrop : ∀ side, action ≠ .drop side) :
    s'.openEnds = s.openEnds := by
  have hClosed : s'.closed = s.closed := by
    cases h with
    | drop => exact absurd rfl (hDrop _)
    | _ => rfl
  unfold openEnds ends isClosed
  rw [length_step h, hClosed]

/- Each step but a drop uses up one of those to come. -/
theorem steps_step
    (h : Step capacity s action s')
    (hDrop : ∀ side, action ≠ .drop side) :
    s'.steps < s.steps := by
  rw [steps, steps, openEnds_step h hDrop, length_step h]
  cases h with
  | refuse hCalls => simp [hCalls, Call.steps]
  | accept hCalls =>
      simp [hCalls, Call.steps, Signal.stepsInQueue]
      omega
  | joinLate hCalls => simp [hCalls, Call.steps]
  | join hCalls =>
      simp [hCalls, Call.steps, Signal.stepsInQueue]
      omega
  | conclude hJoining => simp [hJoining]
  | despair hJoining => simp [hJoining]
  | hearIdle hDispatcher hReports =>
      simp [hDispatcher, hReports]
  | hearStopped hDispatcher hReports => simp [hReports]
  | @countStopped count _ hDispatcher hReports =>
      have hCount :=
        Dispatcher.steps_countFrom_le s.workers.length
          (count + 1)
      simp [hDispatcher, hReports]
      omega
  | countIdle hDispatcher hReports => simp [hReports]
  | takeJob hDispatcher hQueue =>
      simp [hDispatcher, hQueue, Dispatcher.steps,
        Signal.stepsInQueue]
      omega
  | takeStop hDispatcher hQueue =>
      have hStop :=
        Dispatcher.steps_stopFrom_zero_le s.workers.length
      simp [hDispatcher, hQueue, Signal.stepsInQueue]
      omega
  | dropJob hDispatcher => simp [hDispatcher, Dispatcher.steps]
  | @sendJob worker id hDispatcher =>
      have hSend :=
        sum_modify_le Worker.steps
          (Worker.steps_receive_le (.job id)) s.workers worker
      simp only [Signal.stepsInInbox] at hSend
      simp [hDispatcher, Dispatcher.steps]
      omega
  | @skip next hDispatcher =>
      have hNext :=
        Dispatcher.steps_stopFrom_succ_lt s.workers.length
          next
      simp [hDispatcher, hNext]
  | @sendStop next hDispatcher =>
      have hNext :=
        Dispatcher.steps_stopFrom_succ_lt s.workers.length
          next
      have hSend :=
        sum_modify_le Worker.steps
          (Worker.steps_receive_le .stop) s.workers next
      simp only [Signal.stepsInInbox] at hSend
      simp [hDispatcher]
      omega
  | abandon hDispatcher => simp [hDispatcher, Dispatcher.steps]
  | lose hDispatcher => simp [hDispatcher, Dispatcher.steps]
  | tell hDispatcher => simp [hDispatcher, Dispatcher.steps]
  | @work index dies worker next told _ _ hWorker hMove =>
      have hNext := steps_of_move hMove
      have hSum := sum_set_add Worker.steps hWorker next
      simp only [List.length_append]
      omega
  | drop => exact absurd rfl (hDrop _)

/- Each action uses up a step of those to come. -/
theorem steps_apply
    (h : s.apply capacity action = some s') :
    s'.steps < s.steps := by
  by_cases hDrop : ∃ side, action = .drop side
  · rcases hDrop with ⟨side, rfl⟩
    rw [apply, applyDrop] at h
    split at h
    · rename_i hSide
      cases h
      rcases Bool.and_eq_true_iff.mp hSide with
        ⟨hReleased, hOpen⟩
      exact
        Nat.add_lt_add_left
          (length_openEnds_drop_lt hReleased
            ((Bool.not_eq_true' _).mp hOpen)) _
    · cases h
  · exact
      steps_step (step_of_apply h)
        (fun side hSide => hDrop ⟨side, hSide⟩)

/- So a run is no longer than what its start can lead to. -/
theorem length_le_of_follow
    {actions : List Action}
    (h : s.follow capacity actions = some s') :
    actions.length + s'.steps ≤ s.steps := by
  induction actions generalizing s with
  | nil =>
      cases h
      exact Nat.le_of_eq (Nat.zero_add _)
  | cons action rest ih =>
      rcases Option.bind_eq_some_iff.mp h with
        ⟨next, hApply, hRest⟩
      have hNext := steps_apply hApply
      have hLength := ih hRest
      rw [List.length_cons]
      omega

theorem length_ends
    (s : State) :
    s.ends.length = 3 * s.workers.length + 3 := by
  rw [ends, List.length_append, List.length_flatMap]
  simp [List.map_const']
  omega

/- A job leads to seven actions, a worker to nine. -/
theorem steps_opened
    (size : Nat)
    (jobs : List Nat) :
    (opened size jobs).steps =
      7 * jobs.length + 9 * Nat.max size 1 + 8 := by
  have hCalls :
      ((opened size jobs).calls.map Call.steps).sum =
        7 * jobs.length + 3 := by
    change
      ((jobs.map Call.enqueue ++ [Call.join]).map _).sum = _
    have hEach :
        (jobs.map Call.enqueue).map Call.steps =
          List.replicate jobs.length 7 := by
      rw [List.map_map]
      exact List.map_const'
    rw [List.map_append, List.sum_append, hEach,
      List.sum_replicate_nat, Nat.mul_comm]
    rfl
  have hWorkers :
      ((opened size jobs).workers.map Worker.steps).sum =
        5 * Nat.max size 1 := by
    change ((List.replicate _ _).map _).sum = _
    rw [List.map_replicate, List.sum_replicate_nat,
      Nat.mul_comm]
    rfl
  have hEnds :
      (opened size jobs).openEnds.length =
        3 * Nat.max size 1 + 3 := by
    have hAll :
        (opened size jobs).openEnds =
          (opened size jobs).ends :=
      List.filter_eq_self.mpr (fun _ _ => rfl)
    rw [hAll, length_ends, (isSound_opened size jobs).length]
  have hDispatcher :
      (opened size jobs).dispatcher.steps
          (opened size jobs).workers.length =
        Nat.max size 1 + 2 := by
    rw [(isSound_opened size jobs).length]
    rfl
  rw [steps, hCalls, hWorkers, hEnds, hDispatcher]
  simp [opened, start]
  omega

end State

end Pool

end Abnf
