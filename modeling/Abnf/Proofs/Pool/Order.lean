import Abnf.Proofs.Pool.Steps
import Mathlib.Data.List.Basic

/-
  The order among workers and dispatcher of a pool.

  What a worker still has to read fits what it does, there
  is one idle report on its way for each worker that waits
  for a job, an end of a channel is dropped only once its
  owner has stopped, and the dispatcher ends only when all
  workers are gone. Each step keeps this.

  Key definitions include:
    * `Abnf.Pool.Worker.Fits`
    * `Abnf.Pool.State.tokens`
    * `Abnf.Pool.State.IsOrderly`

  Main declarations:
    * `Abnf.Pool.State.isOrderly_start`
    * `Abnf.Pool.State.isOrderly_step`
-/

------------------------------------------------------------
-- Order
------------------------------------------------------------

namespace Abnf

namespace Pool

/- The dispatcher was told to stop. -/
def Dispatcher.isStopping : Dispatcher → Bool
  | stopping _ => true
  | counting _ => true
  | telling => true
  | left told => told
  | _ => false

/- The dispatcher has told the worker to stop. -/
def Dispatcher.hasAsked
    (index : Nat) : Dispatcher → Bool
  | stopping next => index < next
  | counting _ => true
  | telling => true
  | left told => told
  | _ => false

/- The dispatcher waits for workers no more. -/
def Dispatcher.isDone : Dispatcher → Bool
  | telling => true
  | left _ => true
  | _ => false

/- The workers counted so far. -/
def Dispatcher.counted : Dispatcher → Nat
  | counting count => count
  | _ => 0

/- How often the dispatcher has the worker for a job. -/
def Dispatcher.holds
    (index : Nat) : Dispatcher → Nat
  | handing (some worker) => if worker = index then 1 else 0
  | passing worker _ => if worker = index then 1 else 0
  | _ => 0

/- The signal to stop, if it was sent. -/
def stops
    (asked : Bool) : List Signal :=
  if asked then [.stop] else []

/- The number of a job that a signal asks for. -/
def Signal.job? : Signal → Option Nat
  | job id => some id
  | stop => none

/- The jobs that some signals ask for. -/
def jobsOf
    (signals : List Signal) : List Nat :=
  signals.filterMap Signal.job?

/-
  What a worker still has to read fits what it does and
  whether it was told to stop. Only a worker that waits has
  a job to read, and only one.
-/
inductive Worker.Fits
    (asked : Bool) : Worker → Prop
  | ready : Fits asked ⟨stops asked, .ready⟩
  | free : Fits asked ⟨stops asked, .waiting⟩
  | called (id : Nat) :
      Fits asked ⟨.job id :: stops asked, .waiting⟩
  | running (id : Nat) :
      Fits asked ⟨stops asked, .running id⟩
  | stopping :
      asked = true → Fits asked ⟨[], .stopping⟩
  | gone {inbox : List Signal} :
      jobsOf inbox = [] → Fits asked ⟨inbox, .gone⟩

namespace State

/-
  The idle reports of a worker that are on their way, or
  that the dispatcher has taken and not used yet.
-/
def tokens
    (s : State)
    (index : Nat) : Nat :=
  s.reports.count (.idle index) +
    s.dispatcher.holds index

/- The worker waits and has nothing to read. -/
def isFree
    (s : State)
    (index : Nat) : Prop :=
  s.workers[index]? = some ⟨[], .waiting⟩

instance
    (s : State)
    (index : Nat) : Decidable (s.isFree index) :=
  inferInstanceAs (Decidable (_ = _))

/- What holds of workers and dispatcher at all times. -/
structure IsOrderly
    (s : State) : Prop where
  fits :
    ∀ (index : Nat) (worker : Worker),
      s.workers[index]? = some worker →
      worker.Fits (s.dispatcher.hasAsked index)
  /- Each free worker has reported once. -/
  tokens :
    s.dispatcher.isStopping = false →
    ∀ index, s.tokens index = if s.isFree index then 1 else 0
  released :
    ∀ side ∈ s.closed, s.isReleased side = true
  gone :
    s.dispatcher.isDone = true →
    ∀ (index : Nat) (worker : Worker),
      s.workers[index]? = some worker →
      worker.activity = .gone
  /- A worker reports that it stops at most once. -/
  counted :
    s.dispatcher.counted + s.reports.count .stopped ≤
      s.workers.countP (·.activity == .gone)

theorem isOrderly_start
    (size : Nat) : (start size).IsOrderly := by
  have hWorker :
      ∀ (index : Nat) (worker : Worker),
        (start size).workers[index]? = some worker →
        worker = ⟨[], .ready⟩ := by
    intro index worker hWorker
    exact
      List.eq_of_mem_replicate (List.mem_of_getElem? hWorker)
  refine ⟨?_, ?_, ?_, ?_, ?_⟩
  · intro index worker hSome
    rw [hWorker index worker hSome]
    exact .ready
  · intro _ index
    have hFree : ¬ (start size).isFree index := by
      intro hFree
      cases hWorker index _ hFree
    rw [if_neg hFree]
    rfl
  · intro side hSide
    exact absurd hSide List.not_mem_nil
  · intro hDone
    cases hDone
  · exact Nat.zero_le _

end State

end Pool

end Abnf

------------------------------------------------------------
-- Ways Of The Dispatcher
------------------------------------------------------------

namespace Abnf

namespace Pool

namespace Dispatcher

theorem isDone_of_isLeft
    {dispatcher : Dispatcher}
    (h : dispatcher.isLeft = true) :
    dispatcher.isDone = true := by
  cases dispatcher with
  | left told => rfl
  | handing idle => cases h
  | passing worker id => cases h
  | stopping next => cases h
  | counting count => cases h
  | telling => cases h

theorem isStopping_of_hasAsked
    {dispatcher : Dispatcher}
    {index : Nat}
    (h : dispatcher.hasAsked index = true) :
    dispatcher.isStopping = true := by
  cases dispatcher with
  | left told => exact h
  | handing idle => cases h
  | passing worker id => cases h
  | stopping next => rfl
  | counting count => rfl
  | telling => rfl

variable (size : Nat)

@[simp] theorem isStopping_countFrom
    (count : Nat) :
    (countFrom size count).isStopping = true := by
  unfold countFrom
  split
  · rfl
  · rfl

@[simp] theorem isStopping_stopFrom
    (next : Nat) :
    (stopFrom size next).isStopping = true := by
  unfold stopFrom
  split
  · rfl
  · exact isStopping_countFrom size 0

@[simp] theorem hasAsked_countFrom
    (count index : Nat) :
    (countFrom size count).hasAsked index = true := by
  unfold countFrom
  split
  · rfl
  · rfl

theorem hasAsked_stopFrom
    {size index : Nat}
    (hIndex : index < size)
    (next : Nat) :
    (stopFrom size next).hasAsked index =
      decide (index < next) := by
  unfold stopFrom
  split
  · rfl
  · rw [hasAsked_countFrom, eq_comm, decide_eq_true_eq]
    omega

theorem counted_countFrom
    (count : Nat) :
    (countFrom size count).counted ≤ count := by
  unfold countFrom
  split
  · exact Nat.le_refl _
  · exact Nat.zero_le _

@[simp] theorem counted_stopFrom
    (next : Nat) :
    (stopFrom size next).counted = 0 := by
  unfold stopFrom
  split
  · rfl
  · exact Nat.le_zero.mp (counted_countFrom size 0)

theorem le_of_isDone_countFrom
    {size count : Nat}
    (h : (countFrom size count).isDone = true) :
    size ≤ count := by
  unfold countFrom at h
  split at h
  · cases h
  · omega

theorem eq_zero_of_isDone_stopFrom
    {size next : Nat}
    (h : (stopFrom size next).isDone = true) :
    size = 0 := by
  unfold stopFrom at h
  split at h
  · cases h
  · exact Nat.le_zero.mp (le_of_isDone_countFrom h)

end Dispatcher

theorem Worker.fits_receive_stop
    {worker : Worker}
    (h : worker.Fits false) :
    (worker.receive .stop).Fits true := by
  cases h with
  | ready => exact .ready
  | free => exact .free
  | called id => exact .called id
  | running id => exact .running id
  | stopping hAsked => cases hAsked
  | gone hInbox =>
      apply Worker.Fits.gone
      rw [jobsOf, List.filterMap_append]
      exact List.append_eq_nil_iff.mpr ⟨hInbox, rfl⟩

end Pool

end Abnf

------------------------------------------------------------
-- Steps Keep The Order
------------------------------------------------------------

namespace Abnf

namespace Pool

namespace State

/- The worker is there and gone. -/
def HasGone
    (s : State)
    (index : Nat) : Prop :=
  ∃ worker, s.workers[index]? = some worker ∧
    worker.activity = .gone

variable {s s' : State}

theorem isReleased_inbox_iff
    {index : Nat} :
    s.isReleased (.inbox index) = true ↔
      s.HasGone index := by
  simp only [isReleased, Option.any_eq_true, beq_iff_eq]
  rfl

theorem isReleased_voice_iff
    {index : Nat} :
    s.isReleased (.voice index) = true ↔
      s.HasGone index :=
  isReleased_inbox_iff

/- What was released stays so while parties only stop. -/
theorem isReleased_mono
    (hLeft :
      s.dispatcher.isLeft = true →
        s'.dispatcher.isLeft = true)
    (hLength : s'.workers.length = s.workers.length)
    (hGone : ∀ index, s.HasGone index → s'.HasGone index)
    (side : End)
    (h : s.isReleased side = true) :
    s'.isReleased side = true := by
  cases side with
  | queue => exact hLeft h
  | reports => exact hLeft h
  | word => exact hLeft h
  | signals index =>
      simp only [isReleased, Bool.and_eq_true] at h ⊢
      rw [hLength]
      exact ⟨hLeft h.1, h.2⟩
  | inbox index =>
      rw [isReleased_inbox_iff] at h ⊢
      exact hGone index h
  | voice index =>
      rw [isReleased_voice_iff] at h ⊢
      exact hGone index h

variable (h : s.IsOrderly)

include h

/- A worker that has dropped an end of its own is gone. -/
theorem IsOrderly.hasGone_of_inbox
    {index : Nat}
    (hClosed : End.inbox index ∈ s.closed) :
    s.HasGone index :=
  isReleased_inbox_iff.mp (h.released _ hClosed)

theorem IsOrderly.gone_of_isDeserted
    (hDeserted : s.isDeserted = true)
    (index : Nat)
    (worker : Worker)
    (hWorker : s.workers[index]? = some worker) :
    worker.activity = .gone := by
  have hIndex : index < s.workers.length :=
    (List.getElem?_eq_some_iff.mp hWorker).1
  have hClosed :=
    List.all_eq_true.mp hDeserted index
      (List.mem_range.mpr hIndex)
  rcases
      isReleased_voice_iff.mp
        (h.released _ (isClosed_iff.mp hClosed)) with
    ⟨worker', hSome, hGone⟩
  rw [hWorker] at hSome
  cases hSome
  exact hGone

/- While a worker is there, the dispatcher has not left. -/
theorem IsOrderly.not_isDone
    {index : Nat}
    {worker : Worker}
    (hWorker : s.workers[index]? = some worker)
    (hActivity : worker.activity ≠ .gone) :
    s.dispatcher.isDone = false :=
  Bool.eq_false_iff.mpr
    (fun hDone =>
      hActivity (h.gone hDone index worker hWorker))

theorem IsOrderly.not_isLeft
    {index : Nat}
    {worker : Worker}
    (hWorker : s.workers[index]? = some worker)
    (hActivity : worker.activity ≠ .gone) :
    s.dispatcher.isLeft = false := by
  apply Bool.eq_false_iff.mpr
  intro hLeft
  have hDone := h.not_isDone hWorker hActivity
  rw [Dispatcher.isDone_of_isLeft hLeft] at hDone
  cases hDone

/- A worker that the dispatcher has for a job is free. -/
theorem IsOrderly.isFree_of_holds
    {index : Nat}
    (hStopping : s.dispatcher.isStopping = false)
    (hHolds : 0 < s.dispatcher.holds index) :
    s.isFree index := by
  have hTokens := h.tokens hStopping index
  rw [State.tokens] at hTokens
  by_contra hNot
  rw [if_neg hNot] at hTokens
  omega

omit h

/- Parties that only talk release what they have. -/
theorem IsOrderly.released_of_same
    (h : s.IsOrderly)
    (hLeft : s.dispatcher.isLeft = false)
    (hClosed : s'.closed = s.closed)
    (hLength : s'.workers.length = s.workers.length)
    (hGone : ∀ index, s.HasGone index → s'.HasGone index)
    (side : End)
    (hSide : side ∈ s'.closed) :
    s'.isReleased side = true := by
  rw [hClosed] at hSide
  refine
    isReleased_mono ?_ hLength hGone side
      (h.released side hSide)
  rw [hLeft]
  exact fun hNo => Bool.noConfusion hNo

theorem count_idle_cons
    (worker index : Nat)
    (rest : List Report) :
    (Report.idle worker :: rest).count (.idle index) =
      rest.count (.idle index) +
        if worker = index then 1 else 0 := by
  simp [List.count_cons]

theorem count_idle_cons_stopped
    (index : Nat)
    (rest : List Report) :
    (Report.stopped :: rest).count (.idle index) =
      rest.count (.idle index) := by
  simp

theorem count_stopped_cons_idle
    (worker : Nat)
    (rest : List Report) :
    (Report.idle worker :: rest).count .stopped =
      rest.count .stopped := by
  simp

/- A worker that changes leaves the others as they are. -/
theorem getElem?_set_worker
    {index : Nat}
    {worker : Worker}
    (hWorker : s.workers[index]? = some worker)
    (next : Worker)
    (other : Nat) :
    (s.workers.set index next)[other]? =
      if index = other then some next
      else s.workers[other]? := by
  rw [List.getElem?_set,
    if_pos (List.getElem?_eq_some_iff.mp hWorker).1]

theorem countP_set_add
    {workers : List Worker}
    {index : Nat}
    {worker : Worker}
    (hWorker : workers[index]? = some worker)
    (next : Worker)
    (p : Worker → Bool) :
    (workers.set index next).countP p +
        (if p worker = true then 1 else 0) =
      workers.countP p + if p next = true then 1 else 0 := by
  rcases List.getElem?_eq_some_iff.mp hWorker with
    ⟨hIndex, hWorker⟩
  have hCount :
      (if p worker = true then 1 else 0) ≤
        workers.countP p := by
    split
    · rename_i hTrue
      rw [← hWorker] at hTrue
      exact
        List.countP_pos_iff.mpr
          ⟨_, List.getElem_mem hIndex, hTrue⟩
    · exact Nat.zero_le _
  rw [List.countP_set hIndex, hWorker]
  omega

theorem modify_eq_set
    {workers : List Worker}
    {index : Nat}
    {worker : Worker}
    (hWorker : workers[index]? = some worker)
    (f : Worker → Worker) :
    workers.modify index f =
      workers.set index (f worker) := by
  rw [List.modify_eq_set_getElem?, hWorker]
  rfl

/- A signal on its way does not change who is gone. -/
theorem countP_gone_receive
    (workers : List Worker)
    (index : Nat)
    (signal : Signal) :
    (workers.modify index (Worker.receive signal)).countP
        (·.activity == .gone) =
      workers.countP (·.activity == .gone) := by
  cases hWorker : workers[index]? with
  | none =>
      rw [List.modify_eq_set_getElem?, hWorker]
      rfl
  | some worker =>
      rw [modify_eq_set hWorker]
      exact
        Nat.add_right_cancel
          (countP_set_add hWorker (worker.receive signal)
            (·.activity == .gone))

theorem hasGone_receive
    {index : Nat}
    (target : Nat)
    (signal : Signal)
    (hGone : s.HasGone index) :
    HasGone { s with
      workers :=
        s.workers.modify target (Worker.receive signal) }
      index := by
  rcases hGone with ⟨worker, hWorker, hActivity⟩
  refine
    ⟨if target = index then worker.receive signal
      else worker, ?_, ?_⟩
  · refine (List.getElem?_modify ..).trans ?_
    rw [hWorker]
    rfl
  · split
    · exact hActivity
    · exact hActivity

section Dispatcher

variable {worker id next count : Nat}

/-
  The dispatcher goes on, and no worker goes. It leaves only
  the workers that are gone, tells none to stop, and has the
  workers for a job whose reports it takes.
-/
theorem IsOrderly.turn
    (h : s.IsOrderly)
    {dispatcher old : Dispatcher}
    {queue : List Signal}
    {reports : List Report}
    (hDispatcher : s.dispatcher = old)
    (hLeft : old.isLeft = false)
    (hAsked :
      ∀ index < s.workers.length,
        dispatcher.hasAsked index = old.hasAsked index)
    (hTokens :
      dispatcher.isStopping = false →
        old.isStopping = false ∧
          ∀ index,
            reports.count (.idle index) +
                dispatcher.holds index =
              s.reports.count (.idle index) +
                old.holds index)
    (hDone :
      dispatcher.isDone = true →
      ∀ (index : Nat) (worker : Worker),
        s.workers[index]? = some worker →
        worker.activity = .gone)
    (hCounted :
      dispatcher.counted + reports.count .stopped ≤
        old.counted + s.reports.count .stopped) :
    IsOrderly { s with
      dispatcher := dispatcher
      queue := queue
      reports := reports } := by
  subst hDispatcher
  refine
    ⟨?_, ?_, h.released_of_same hLeft rfl rfl
      (fun _ hGone => hGone), hDone,
      Nat.le_trans hCounted h.counted⟩
  · intro index worker hWorker
    rw [hAsked index (List.getElem?_eq_some_iff.mp hWorker).1]
    exact h.fits index worker hWorker
  · intro hStopping index
    rcases hTokens hStopping with ⟨hOpen, hSame⟩
    exact (hSame index).trans (h.tokens hOpen index)

/- The dispatcher takes the idle report of a worker. -/
theorem IsOrderly.hearIdle
    (h : s.IsOrderly)
    {rest : List Report}
    (hDispatcher : s.dispatcher = .handing none)
    (hReports : s.reports = .idle worker :: rest) :
    IsOrderly { s with
      dispatcher := .handing (some worker)
      reports := rest } := by
  apply h.turn hDispatcher rfl
  · exact fun _ _ => rfl
  · refine fun _ => ⟨rfl, fun index => ?_⟩
    rw [hReports, count_idle_cons]
    rfl
  · exact fun hNo => Bool.noConfusion hNo
  · rw [hReports, count_stopped_cons_idle]
    exact Nat.le_refl _

theorem IsOrderly.hearStopped
    (h : s.IsOrderly)
    {rest : List Report}
    (hReports : s.reports = .stopped :: rest) :
    IsOrderly { s with reports := rest } := by
  refine
    ⟨h.fits, ?_, h.released, h.gone, ?_⟩
  · intro hStopping index
    have hTokens := h.tokens hStopping index
    rw [State.tokens, hReports,
      count_idle_cons_stopped] at hTokens
    exact hTokens
  · have hCounted := h.counted
    rw [hReports, List.count_cons_self] at hCounted
    exact Nat.le_of_succ_le hCounted

/- A worker that has stopped is counted. -/
theorem IsOrderly.countStopped
    (h : s.IsOrderly)
    {rest : List Report}
    (hDispatcher : s.dispatcher = .counting count)
    (hReports : s.reports = .stopped :: rest) :
    IsOrderly { s with
      dispatcher :=
        .countFrom s.workers.length (count + 1)
      reports := rest } := by
  have hLe :=
    Dispatcher.counted_countFrom s.workers.length
      (count + 1)
  apply h.turn hDispatcher rfl
  · exact fun _ _ => Dispatcher.hasAsked_countFrom ..
  · intro hStopping
    rw [Dispatcher.isStopping_countFrom] at hStopping
    cases hStopping
  · intro hDone index worker hWorker
    have hSize := Dispatcher.le_of_isDone_countFrom hDone
    have hCounted := h.counted
    rw [hDispatcher, hReports, List.count_cons_self]
      at hCounted
    change count + _ ≤ _ at hCounted
    have hAll :
        s.workers.countP (·.activity == .gone) =
          s.workers.length := by
      have hMost :=
        List.countP_le_length
          (l := s.workers) (p := (·.activity == .gone))
      omega
    exact
      eq_of_beq
        (List.countP_eq_length.mp hAll worker
          (List.mem_of_getElem? hWorker))
  · rw [hReports, List.count_cons_self]
    change _ ≤ count + _
    omega

theorem IsOrderly.countIdle
    (h : s.IsOrderly)
    {rest : List Report}
    (hDispatcher : s.dispatcher = .counting count)
    (hReports : s.reports = .idle worker :: rest) :
    IsOrderly { s with reports := rest } := by
  refine ⟨h.fits, ?_, h.released, h.gone, ?_⟩
  · intro hStopping
    change s.dispatcher.isStopping = false at hStopping
    rw [hDispatcher] at hStopping
    cases hStopping
  · have hCounted := h.counted
    rw [hReports, count_stopped_cons_idle] at hCounted
    exact hCounted

theorem IsOrderly.takeJob
    (h : s.IsOrderly)
    {rest : List Signal}
    (hDispatcher : s.dispatcher = .handing (some worker)) :
    IsOrderly { s with
      queue := rest
      dispatcher := .passing worker id } :=
  h.turn hDispatcher rfl (fun _ _ => rfl)
    (fun _ => ⟨rfl, fun _ => rfl⟩)
    (fun hNo => Bool.noConfusion hNo) (Nat.le_refl _)

theorem IsOrderly.takeStop
    (h : s.IsOrderly)
    {rest : List Signal}
    (hDispatcher : s.dispatcher = .handing (some worker)) :
    IsOrderly { s with
      queue := rest
      dispatcher := .stopFrom s.workers.length 0 } := by
  apply h.turn hDispatcher rfl
  · intro index hIndex
    rw [Dispatcher.hasAsked_stopFrom hIndex]
    rfl
  · intro hStopping
    rw [Dispatcher.isStopping_stopFrom] at hStopping
    cases hStopping
  · intro hDone index worker hWorker
    have hIndex : index < s.workers.length :=
      (List.getElem?_eq_some_iff.mp hWorker).1
    have hSize :=
      Dispatcher.eq_zero_of_isDone_stopFrom hDone
    omega
  · rw [Dispatcher.counted_stopFrom]
    exact Nat.le_refl _

/- The worker that the dispatcher has a job for is free. -/
theorem IsOrderly.isFree_of_passing
    (h : s.IsOrderly)
    (hDispatcher : s.dispatcher = .passing worker id) :
    s.isFree worker := by
  apply h.isFree_of_holds
  · rw [hDispatcher]
    rfl
  · rw [hDispatcher]
    simp [Dispatcher.holds]

/- No worker that has a job coming has dropped its end. -/
theorem IsOrderly.not_mem_closed_of_passing
    (h : s.IsOrderly)
    (hDispatcher : s.dispatcher = .passing worker id) :
    End.inbox worker ∉ s.closed := by
  intro hClosed
  have hFree := h.isFree_of_passing hDispatcher
  rcases h.hasGone_of_inbox hClosed with
    ⟨gone, hWorker, hActivity⟩
  rw [isFree, hWorker] at hFree
  cases hFree
  cases hActivity

/- A free worker gets the job. -/
theorem IsOrderly.sendJob
    (h : s.IsOrderly)
    (hDispatcher : s.dispatcher = .passing worker id) :
    IsOrderly { s with
      workers :=
        s.workers.modify worker (Worker.receive (.job id))
      dispatcher := .handing none } := by
  have hStopping : s.dispatcher.isStopping = false := by
    rw [hDispatcher]
    rfl
  have hHolds :
      ∀ index, s.dispatcher.holds index =
        if worker = index then 1 else 0 := by
    intro index
    rw [hDispatcher]
    rfl
  have hFree := h.isFree_of_passing hDispatcher
  refine
    ⟨?_, ?_, ?_, ?_, ?_⟩
  · have hFits := h.fits
    rw [hDispatcher] at hFits
    intro index changed hChanged
    simp only [List.getElem?_modify] at hChanged
    by_cases hSame : worker = index
    · rw [← hSame, hFree] at hChanged
      simp only [if_pos] at hChanged
      cases hChanged
      exact .called id
    · simp only [if_neg hSame] at hChanged
      exact hFits index changed (by simpa using hChanged)
  · intro _ index
    have hTokens := h.tokens hStopping index
    rw [State.tokens, hHolds] at hTokens
    have hFree' :
        isFree { s with
          workers :=
            s.workers.modify worker
              (Worker.receive (.job id))
          dispatcher := .handing none } index ↔
          worker ≠ index ∧ s.isFree index := by
      rw [isFree, List.getElem?_modify]
      by_cases hSame : worker = index
      · rw [← hSame, hFree]
        simp [Worker.receive]
      · simp [hSame, isFree]
    rw [if_congr hFree' rfl rfl]
    change s.reports.count (.idle index) + 0 = _
    by_cases hSame : worker = index
    · rw [← hSame, if_pos rfl, if_pos hFree] at hTokens
      rw [if_neg (fun hNot => hNot.1 hSame), ← hSame]
      omega
    · rw [if_neg hSame] at hTokens
      rw [hTokens]
      exact if_congr (by simp [hSame]) rfl rfl
  · refine
      h.released_of_same (by rw [hDispatcher]; rfl) ?_ ?_ ?_
    · rfl
    · exact List.length_modify ..
    · exact fun index => hasGone_receive worker (.job id)
  · intro hDone
    cases hDone
  · have hCounted := h.counted
    rw [hDispatcher] at hCounted
    change 0 + s.reports.count .stopped ≤ _
    rw [countP_gone_receive]
    exact hCounted

/- A worker is told to stop, if it can still be reached. -/
theorem IsOrderly.ask
    (h : s.IsOrderly)
    (hDispatcher : s.dispatcher = .stopping next)
    {workers : List Worker}
    (hLength : workers.length = s.workers.length)
    (hFits :
      ∀ worker, workers[next]? = some worker →
        worker.Fits true)
    (hOther :
      ∀ index, index ≠ next →
        workers[index]? = s.workers[index]?)
    (hGone :
      ∀ index, s.HasGone index →
        HasGone { s with workers := workers } index)
    (hCount :
      workers.countP (·.activity == .gone) =
        s.workers.countP (·.activity == .gone)) :
    IsOrderly { s with
      workers := workers
      dispatcher :=
        .stopFrom s.workers.length (next + 1) } := by
  have hIndex :
      ∀ {index : Nat} {worker : Worker},
        workers[index]? = some worker →
        index < s.workers.length := by
    intro index worker hWorker
    rw [← hLength]
    exact (List.getElem?_eq_some_iff.mp hWorker).1
  refine
    ⟨?_, ?_, h.released_of_same (by rw [hDispatcher]; rfl) rfl
      hLength hGone, ?_, ?_⟩
  · intro index worker hWorker
    rw [Dispatcher.hasAsked_stopFrom (hIndex hWorker)]
    by_cases hNext : index = next
    · subst hNext
      rw [decide_eq_true (Nat.lt_succ_self index)]
      exact hFits worker hWorker
    · have hOld := h.fits index worker
      rw [hDispatcher, ← hOther index hNext] at hOld
      have hSame :
          decide (index < next + 1) =
            decide (index < next) := by
        apply decide_eq_decide.mpr
        omega
      rw [hSame]
      exact hOld hWorker
  · intro hStopping
    rw [Dispatcher.isStopping_stopFrom] at hStopping
    cases hStopping
  · intro hDone index worker hWorker
    have hLess := hIndex hWorker
    have hSize :=
      Dispatcher.eq_zero_of_isDone_stopFrom hDone
    omega
  · have hCounted := h.counted
    rw [hDispatcher] at hCounted
    rw [Dispatcher.counted_stopFrom]
    change _ ≤ workers.countP (·.activity == .gone)
    rw [hCount]
    exact hCounted

theorem IsOrderly.skip
    (h : s.IsOrderly)
    (hDispatcher : s.dispatcher = .stopping next)
    (hClosed : End.inbox next ∈ s.closed) :
    IsOrderly { s with
      dispatcher :=
        .stopFrom s.workers.length (next + 1) } := by
  apply h.ask hDispatcher rfl _ (fun _ _ => rfl)
    (fun _ hGone => hGone) rfl
  intro worker hWorker
  rcases h.hasGone_of_inbox hClosed with
    ⟨gone, hGone, hActivity⟩
  have hFits := h.fits next worker hWorker
  rw [hWorker] at hGone
  cases hGone
  cases hFits with
  | gone hInbox => exact .gone hInbox
  | ready => cases hActivity
  | free => cases hActivity
  | called id => cases hActivity
  | running id => cases hActivity
  | stopping hAsked => cases hActivity

theorem IsOrderly.sendStop
    (h : s.IsOrderly)
    (hDispatcher : s.dispatcher = .stopping next) :
    IsOrderly { s with
      workers :=
        s.workers.modify next (Worker.receive .stop)
      dispatcher :=
        .stopFrom s.workers.length (next + 1) } := by
  apply h.ask hDispatcher (List.length_modify ..) _ _
    (fun index => hasGone_receive next .stop)
    (countP_gone_receive ..)
  · intro worker hWorker
    rw [List.getElem?_modify] at hWorker
    simp only [if_pos] at hWorker
    rcases Option.map_eq_some_iff.mp hWorker with
      ⟨old, hOld, rfl⟩
    have hFits := h.fits next old hOld
    rw [hDispatcher, Dispatcher.hasAsked,
      decide_eq_false (Nat.lt_irrefl next)] at hFits
    exact Worker.fits_receive_stop hFits
  · intro index hIndex
    rw [List.getElem?_modify]
    simp [Ne.symm hIndex]

/- Without workers the dispatcher leaves its queue. -/
theorem IsOrderly.abandon
    (h : s.IsOrderly)
    (hDispatcher : s.dispatcher = .handing none)
    (hDeserted : s.isDeserted = true) :
    IsOrderly { s with dispatcher := .left false } :=
  h.turn hDispatcher rfl (fun _ _ => rfl)
    (fun _ => ⟨rfl, fun _ => rfl⟩)
    (fun _ => h.gone_of_isDeserted hDeserted)
    (Nat.le_refl _)

theorem IsOrderly.lose
    (h : s.IsOrderly)
    (hDispatcher : s.dispatcher = .counting count)
    (hDeserted : s.isDeserted = true) :
    IsOrderly { s with dispatcher := .telling } :=
  h.turn hDispatcher rfl (fun _ _ => rfl)
    (fun hNo => Bool.noConfusion hNo)
    (fun _ => h.gone_of_isDeserted hDeserted)
    (Nat.add_le_add_right (Nat.zero_le count) _)

theorem IsOrderly.tell
    (h : s.IsOrderly)
    (hDispatcher : s.dispatcher = .telling) :
    IsOrderly { s with dispatcher := .left true } :=
  h.turn hDispatcher rfl (fun _ _ => rfl)
    (fun hNo => Bool.noConfusion hNo)
    (fun _ => h.gone (by rw [hDispatcher]; rfl))
    (Nat.le_refl _)

end Dispatcher

section Worker

variable
  {index : Nat}
  {dies : Bool}
  {worker next : Worker}
  {told : List Report}
  {begun done : List Nat}
  (hMove : Move s index dies worker next told begun done)

include hMove

theorem activity_of_move :
    worker.activity ≠ .gone := by
  cases hMove with
  | leave => exact fun hNo => Activity.noConfusion hNo
  | offer => exact fun hNo => Activity.noConfusion hNo
  | start => exact fun hNo => Activity.noConfusion hNo
  | obey => exact fun hNo => Activity.noConfusion hNo
  | giveUp => exact fun hNo => Activity.noConfusion hNo
  | finish => exact fun hNo => Activity.noConfusion hNo
  | report => exact fun hNo => Activity.noConfusion hNo
  | silence => exact fun hNo => Activity.noConfusion hNo

omit hMove in
theorem inbox_of_fits
    {asked : Bool}
    {inbox : List Signal}
    (hFits : Worker.Fits asked ⟨inbox, .waiting⟩) :
    inbox = stops asked ∨
      ∃ id, inbox = .job id :: stops asked := by
  cases hFits with
  | free => exact Or.inl rfl
  | called id => exact Or.inr ⟨id, rfl⟩

/- A move that does not give up leaves what fits. -/
theorem fits_of_move
    {asked : Bool}
    (hSignals : End.signals index ∉ s.closed)
    (hFits : worker.Fits asked) :
    next.Fits asked := by
  have hStops : jobsOf (stops asked) = [] := by
    cases asked
    · rfl
    · rfl
  cases hMove with
  | leave =>
      cases hFits
      exact .gone hStops
  | offer =>
      cases hFits
      exact .free
  | start =>
      rcases inbox_of_fits hFits with hInbox | ⟨_, hInbox⟩
      · cases asked
        · cases hInbox
        · cases hInbox
      · cases hInbox
        exact .running _
  | obey =>
      rcases inbox_of_fits hFits with hInbox | ⟨_, hInbox⟩
      · cases asked
        · cases hInbox
        · cases hInbox
          exact .stopping rfl
      · cases hInbox
  | giveUp hClosed => exact absurd hClosed hSignals
  | finish =>
      cases hFits
      cases dies
      · exact .ready
      · exact .gone hStops
  | report =>
      cases hFits
      exact .gone rfl
  | silence =>
      cases hFits
      exact .gone rfl

/-
  Before a worker is told to stop, it becomes free just when
  it reports that it is idle.
-/
theorem tokens_of_move
    (hSignals : End.signals index ∉ s.closed)
    (hFits : worker.Fits false)
    (other : Nat) :
    told.count (.idle other) +
        (if index = other ∧ worker = ⟨[], .waiting⟩ then 1
          else 0) =
      if index = other ∧ next = ⟨[], .waiting⟩ then 1
        else 0 := by
  cases hMove with
  | leave => simp
  | offer =>
      cases hFits
      simp [stops, List.count_singleton]
  | start => simp
  | obey => simp
  | giveUp hClosed => exact absurd hClosed hSignals
  | finish =>
      cases dies
      · simp
      · simp
  | report => simp
  | silence => simp

theorem stopped_of_move :
    told.count .stopped ≤
      if next.activity == .gone then 1 else 0 := by
  cases hMove with
  | report => exact Nat.le_refl _
  | leave => exact Nat.zero_le _
  | offer => exact Nat.zero_le _
  | start => exact Nat.zero_le _
  | obey => exact Nat.zero_le _
  | giveUp => exact Nat.zero_le _
  | finish => exact Nat.zero_le _
  | silence => exact Nat.zero_le _

/-
  A state in which one worker has gone on. What it has said
  is behind the other reports.
-/
variable
  (h : s.IsOrderly)
  (hWorker : s.workers[index]? = some worker)
  (hWorkers : s'.workers = s.workers.set index next)
  (hReports : s'.reports = s.reports ++ told)
  (hDispatcher : s'.dispatcher = s.dispatcher)

include h hWorker

/- The signals to a worker that goes on are not cut off. -/
theorem IsOrderly.signals_of_move :
    End.signals index ∉ s.closed := by
  intro hClosed
  have hReleased := h.released _ hClosed
  rw [isReleased,
    h.not_isLeft hWorker (activity_of_move hMove)]
    at hReleased
  cases hReleased

include hWorkers

omit h in
theorem hasGone_of_move
    (other : Nat)
    (hOther : s.HasGone other) : s'.HasGone other := by
  rcases hOther with ⟨gone, hGone, hActivity⟩
  refine ⟨gone, ?_, hActivity⟩
  rw [hWorkers, getElem?_set_worker hWorker, if_neg]
  · exact hGone
  · rintro rfl
    rw [hWorker] at hGone
    cases hGone
    exact activity_of_move hMove hActivity

include hDispatcher

theorem IsOrderly.fits_of_move
    (other : Nat)
    (changed : Worker)
    (hChanged : s'.workers[other]? = some changed) :
    changed.Fits (s'.dispatcher.hasAsked other) := by
  rw [hDispatcher]
  rw [hWorkers, getElem?_set_worker hWorker]
    at hChanged
  split at hChanged
  · rename_i hSame
    cases hChanged
    subst hSame
    exact
      State.fits_of_move hMove
        (h.signals_of_move hMove hWorker)
        (h.fits index worker hWorker)
  · exact h.fits other changed hChanged

include hReports

theorem IsOrderly.tokens_of_move
    (hStopping : s'.dispatcher.isStopping = false)
    (other : Nat) :
    s'.tokens other = if s'.isFree other then 1 else 0 := by
  rw [hDispatcher] at hStopping
  have hTokens := h.tokens hStopping other
  have hAsked : s.dispatcher.hasAsked index = false := by
    apply Bool.eq_false_iff.mpr
    intro hAsked
    rw [Dispatcher.isStopping_of_hasAsked hAsked]
      at hStopping
    cases hStopping
  have hFits := h.fits index worker hWorker
  rw [hAsked] at hFits
  have hMoved :=
    State.tokens_of_move hMove
      (h.signals_of_move hMove hWorker) hFits other
  have hFree :
      s'.isFree other ↔
        if index = other then next = ⟨[], .waiting⟩
        else s.isFree other := by
    rw [isFree, hWorkers, getElem?_set_worker hWorker]
    split
    · rw [Option.some.injEq]
    · rfl
  rw [State.tokens] at hTokens
  rw [State.tokens, hReports, hDispatcher,
    List.count_append]
  by_cases hSame : index = other
  · subst hSame
    have hOld :
        s.isFree index ↔ worker = ⟨[], .waiting⟩ := by
      rw [isFree, hWorker, Option.some.injEq]
    rw [if_pos rfl] at hFree
    rw [if_congr hOld rfl rfl] at hTokens
    rw [if_congr hFree rfl rfl]
    simp only [true_and] at hMoved
    omega
  · rw [if_neg hSame] at hFree
    rw [if_congr hFree rfl rfl]
    simp only [hSame, false_and, if_false] at hMoved
    omega

theorem IsOrderly.counted_of_move :
    s'.dispatcher.counted + s'.reports.count .stopped ≤
      s'.workers.countP (·.activity == .gone) := by
  have hCounted := h.counted
  have hStopped := stopped_of_move hMove
  have hCount :=
    countP_set_add hWorker next (·.activity == .gone)
  rw [if_neg (by simpa using activity_of_move hMove)]
    at hCount
  rw [hDispatcher, hReports, hWorkers, List.count_append]
  omega

omit hWorkers hReports hDispatcher

/- A worker that goes on keeps the order. -/
theorem IsOrderly.work :
    IsOrderly { s with
      workers := s.workers.set index next
      reports := s.reports ++ told
      started := s.started ++ begun
      ended := s.ended ++ done } := by
  have hActivity := activity_of_move hMove
  exact
    { fits := h.fits_of_move hMove hWorker rfl rfl
      tokens := h.tokens_of_move hMove hWorker rfl rfl rfl
      released :=
        h.released_of_same (h.not_isLeft hWorker hActivity)
          rfl (List.length_set ..)
          (hasGone_of_move hMove hWorker rfl)
      gone := fun hDone =>
        absurd hDone
          (Bool.eq_false_iff.mp
            (h.not_isDone hWorker hActivity))
      counted :=
        h.counted_of_move hMove hWorker rfl rfl rfl }

end Worker

/- Each step keeps the order. -/
theorem isOrderly_step
    {capacity : Nat}
    {action : Action}
    (h : s.IsOrderly)
    (hStep : Step capacity s action s') : s'.IsOrderly := by
  cases hStep with
  | refuse =>
      exact
        ⟨h.fits, h.tokens, h.released, h.gone, h.counted⟩
  | accept =>
      exact
        ⟨h.fits, h.tokens, h.released, h.gone, h.counted⟩
  | joinLate =>
      exact
        ⟨h.fits, h.tokens, h.released, h.gone, h.counted⟩
  | join =>
      exact
        ⟨h.fits, h.tokens, h.released, h.gone, h.counted⟩
  | conclude =>
      exact
        ⟨h.fits, h.tokens, h.released, h.gone, h.counted⟩
  | despair =>
      exact
        ⟨h.fits, h.tokens, h.released, h.gone, h.counted⟩
  | hearIdle hDispatcher hReports =>
      exact h.hearIdle hDispatcher hReports
  | hearStopped _ hReports => exact h.hearStopped hReports
  | countStopped hDispatcher hReports =>
      exact h.countStopped hDispatcher hReports
  | countIdle hDispatcher hReports =>
      exact h.countIdle hDispatcher hReports
  | takeJob hDispatcher _ => exact h.takeJob hDispatcher
  | takeStop hDispatcher _ => exact h.takeStop hDispatcher
  | dropJob hDispatcher hClosed =>
      exact
        absurd hClosed
          (h.not_mem_closed_of_passing hDispatcher)
  | sendJob hDispatcher => exact h.sendJob hDispatcher
  | skip hDispatcher hClosed =>
      exact h.skip hDispatcher hClosed
  | sendStop hDispatcher => exact h.sendStop hDispatcher
  | abandon hDispatcher hDeserted =>
      exact h.abandon hDispatcher hDeserted
  | lose hDispatcher hDeserted =>
      exact h.lose hDispatcher hDeserted
  | tell hDispatcher => exact h.tell hDispatcher
  | work hWorker hMove => exact h.work hMove hWorker
  | drop hReleased =>
      refine ⟨h.fits, h.tokens, ?_, h.gone, h.counted⟩
      intro side hSide
      rcases List.mem_cons.mp hSide with rfl | hOld
      · exact hReleased
      · exact h.released side hOld

end State

end Pool

end Abnf
