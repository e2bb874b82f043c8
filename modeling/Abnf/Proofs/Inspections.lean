import Abnf.Proofs.Pool.Length
import Abnf.Proofs.Targets

/-
  Runs of an inspection.

  The numbers of an inspection always fit what its pool has
  done: each file in the queue was counted before, and each
  job that returned has had its verdict counted. When the
  client has its answer, each file was checked once, so that
  the result is the tally of all verdicts, for any number of
  workers and in any order of deeds.

  Key definitions include:
    * `Abnf.Inspection.done`
    * `Abnf.Inspection.IsKept`
    * `Abnf.Inspection.steps`

  Main declarations:
    * `Abnf.Inspection.isKept_apply`
    * `Abnf.Inspection.IsKept.canGoOn`
    * `Abnf.Inspection.steps_apply_lt`
    * `Abnf.Inspection.result_eq_tally`
-/

------------------------------------------------------------
-- What A Pool Tells The Inspection
------------------------------------------------------------

namespace Abnf

namespace Pool

namespace State

variable
  {capacity size worker : Nat}
  {s s' : State}
  {action : Action}
  {jobs : List Nat}

theorem jobOf?_eq
    (s : State)
    (worker : Nat) :
    s.jobOf? worker =
      s.workers[worker]?.bind (·.activity.job?) := by
  unfold jobOf?
  cases s.workers[worker]? with
  | none => rfl
  | some found =>
      rcases found with ⟨inbox, activity⟩
      cases activity with
      | running id => rfl
      | _ => rfl

theorem lt_length_of_jobOf?
    {id : Nat}
    (h : s.jobOf? worker = some id) :
    worker < s.workers.length := by
  rw [jobOf?_eq] at h
  rcases Option.bind_eq_some_iff.mp h with ⟨_, hWorker, _⟩
  exact (List.getElem?_eq_some_iff.mp hWorker).1

/- A worker keeps its job while another party acts. -/
theorem jobOf?_step
    (h : Step capacity s action s')
    (hOther : ∀ dies, action ≠ .work worker dies) :
    s'.jobOf? worker = s.jobOf? worker := by
  have hReceive :
      ∀ (target : Nat) (signal : Signal),
        (s.workers.modify target
            (Worker.receive signal))[worker]?.bind
              (·.activity.job?) =
          s.workers[worker]?.bind (·.activity.job?) := by
    intro target signal
    rw [List.getElem?_modify]
    cases s.workers[worker]? with
    | none => rfl
    | some found =>
        by_cases hTarget : target = worker
        · simp [hTarget, Worker.receive]
        · simp [hTarget]
  rw [jobOf?_eq, jobOf?_eq]
  cases h with
  | sendJob => exact hReceive _ _
  | sendStop => exact hReceive _ _
  | @work index dies =>
      have hIndex : index ≠ worker := by
        rintro rfl
        exact hOther dies rfl
      rw [List.getElem?_set_ne hIndex]
  | _ => rfl

/- A worker that goes on ends the job that it runs. -/
theorem ended_work
    {dies : Bool}
    (h : Step capacity s (.work worker dies) s') :
    s'.ended = s.ended ++ (s.jobOf? worker).toList := by
  rw [jobOf?_eq]
  cases h with
  | work hWorker hMove =>
      rw [hWorker]
      cases hMove with
      | _ => rfl

theorem ended_step
    (h : Step capacity s action s')
    (hOther : ∀ worker dies, action ≠ .work worker dies) :
    s'.ended = s.ended := by
  cases h with
  | work => exact absurd rfl (hOther _ _)
  | _ => rfl

/- Only the client changes what it calls and hands over. -/
theorem calls_step
    (h : Step capacity s action s')
    (hOther : action ≠ .call) :
    s'.calls = s.calls ∧ s'.accepted = s.accepted := by
  cases h with
  | refuse => exact absurd rfl hOther
  | accept => exact absurd rfl hOther
  | joinLate => exact absurd rfl hOther
  | join => exact absurd rfl hOther
  | _ => exact ⟨rfl, rfl⟩

theorem calls_call
    (h : Step capacity s .call s') :
    ∃ call, s.calls = call :: s'.calls := by
  cases h with
  | refuse hCalls => exact ⟨_, hCalls⟩
  | accept hCalls => exact ⟨_, hCalls⟩
  | joinLate hCalls => exact ⟨_, hCalls⟩
  | join hCalls => exact ⟨_, hCalls⟩

/- A call takes one job, unless it is the last one. -/
theorem length_accepted_call
    (h : Step capacity s .call s')
    (hRefused : s'.refused = s.refused) :
    s'.accepted.length =
      s.accepted.length +
        (s.calls.head?.bind Call.job?).toList.length := by
  cases h with
  | refuse => simp at hRefused
  | accept hCalls =>
      rw [hCalls]
      exact List.length_append
  | joinLate hCalls =>
      rw [hCalls]
      rfl
  | join hCalls =>
      rw [hCalls]
      rfl

/- A job in hand was started, and is among those to do. -/
theorem mem_of_jobOf?
    {id : Nat}
    (hSound : s.IsSound size)
    (hCalm : s.IsCalm jobs)
    (h : s.jobOf? worker = some id) : id ∈ jobs := by
  rw [jobOf?_eq] at h
  rcases Option.bind_eq_some_iff.mp h with
    ⟨found, hWorker, hJob⟩
  have hCurrent : id ∈ s.workers.flatMap Worker.current := by
    refine
      List.mem_flatMap.mpr
        ⟨found, List.mem_of_getElem? hWorker, ?_⟩
    rw [Worker.current, hJob]
    exact List.mem_singleton_self id
  have hStarted : id ∈ s.started :=
    hSound.complete.current.perm.mem_iff.mp
      (List.mem_append_right _ hCurrent)
  have hAccepted : id ∈ s.accepted :=
    hSound.complete.due.perm.mem_iff.mp
      (List.mem_append_left _ hStarted)
  rw [← hCalm.taken]
  exact List.mem_append_left _ hAccepted

/- No worker has a job once the client has its answer. -/
theorem jobOf?_of_joined
    (h : s.IsSound size)
    (hJoined : s.joined = some (.ok ()))
    (worker : Nat) : s.jobOf? worker = none := by
  rw [jobOf?_eq]
  cases hWorker : s.workers[worker]? with
  | none => rfl
  | some found =>
      have hCurrent :=
        (h.gone_of_joined hJoined found
          (List.mem_of_getElem? hWorker)).2
      exact Option.toList_eq_nil_iff.mp hCurrent

end State

end Pool

end Abnf

------------------------------------------------------------
-- Numbers That Fit The Pool
------------------------------------------------------------

namespace Abnf

/- The verdicts on all files, in their order. -/
def Assignment.verdicts
    (task : Assignment) : List Verdict :=
  task.paths.map
    (fun path =>
      .ofReading task.program task.entry (task.read path))

/- The jobs of all files. -/
def Assignment.jobs
    (task : Assignment) : List Nat :=
  List.range task.paths.length

theorem filterMap_getElem?_range
    {α : Type}
    (items : List α) :
    (List.range items.length).filterMap (items[·]?) =
      items := by
  induction items with
  | nil => rfl
  | cons item items ih =>
      simp only [List.length_cons, List.range_succ_eq_map,
        List.filterMap_cons, List.getElem?_cons_zero,
        List.filterMap_map]
      exact congrArg (item :: ·) ih

theorem Assignment.filterMap_verdict?_jobs
    (task : Assignment) :
    task.jobs.filterMap task.verdict? = task.verdicts := by
  have hVerdict :
      task.verdict? = (task.verdicts[·]?) := by
    funext id
    exact List.getElem?_map.symm
  have hLength :
      task.verdicts.length = task.paths.length :=
    List.length_map ..
  rw [hVerdict, jobs, ← hLength]
  exact filterMap_getElem?_range task.verdicts

theorem Assignment.exists_verdict
    (task : Assignment)
    {id : Nat}
    (h : id ∈ task.jobs) :
    ∃ verdict, task.verdict? id = some verdict := by
  have hLess := List.mem_range.mp h
  rw [verdict?, List.getElem?_eq_getElem hLess]
  exact ⟨_, rfl⟩

namespace Tally

variable (tally : Tally) (verdict : Verdict)

theorem total_countVerdict :
    (tally.countVerdict verdict).total = tally.total := by
  unfold countVerdict
  split
  · rfl
  · rfl

/- A verdict counts as it does before other verdicts. -/
theorem matched_countVerdict
    {verdicts : List Verdict}
    (h : tally.matched = verdicts.count .passed) :
    (tally.countVerdict verdict).matched =
      (verdict :: verdicts).count .passed := by
  unfold countVerdict
  split
  · rename_i hPassed
    rw [hPassed, List.count_cons_self, ← h]
  · rename_i hPassed
    rw [List.count_cons_of_ne hPassed, ← h]
    rfl

theorem failed_countVerdict
    {verdicts : List Verdict}
    (h : tally.failed = verdicts.countP (· != .passed)) :
    (tally.countVerdict verdict).failed =
      (verdict :: verdicts).countP (· != .passed) := by
  unfold countVerdict
  split
  · rename_i hPassed
    rw [List.countP_cons_of_neg (by simp [hPassed]), ← h]
  · rename_i hPassed
    rw [List.countP_cons_of_pos (by simp [hPassed]), ← h]
    rfl

end Tally

namespace Inspection

/- No job dies by the deed. -/
def Deed.isCalm : Deed → Bool
  | act action => action.isCalm
  | _ => true

/- The jobs whose verdicts were counted. -/
def done
    (s : Inspection) : List Nat :=
  s.pool.ended ++ s.judges.filterMap s.pool.jobOf?

/- The verdicts that were counted. -/
def verdicts
    (task : Assignment)
    (s : Inspection) : List Verdict :=
  s.done.filterMap task.verdict?

/- What holds of an inspection as long as no job dies. -/
structure IsKept
    (task : Assignment)
    (s : Inspection) : Prop where
  sound : s.pool.IsSound task.threads
  calm : s.pool.IsCalm task.jobs
  notConceding : s.walk ≠ .conceding
  /- A file that was counted is the next to hand over. -/
  next :
    s.walk = .counted →
      ∃ id rest, s.pool.calls = .enqueue id :: rest
  nodup : s.judges.Nodup
  running :
    ∀ worker ∈ s.judges,
      (s.pool.jobOf? worker).isSome = true
  total :
    s.tally.total =
      s.pool.accepted.length +
        if s.walk = .counted then 1 else 0
  matched :
    s.tally.matched = (s.verdicts task).count .passed
  failed :
    s.tally.failed =
      (s.verdicts task).countP (· != .passed)
  result :
    ∀ tally, s.result = some tally →
      tally = .ofVerdicts task.verdicts

variable
  {task : Assignment}
  {s s' : Inspection}
  {deed : Deed}

theorem isKept_opened
    (task : Assignment) : (opened task).IsKept task := by
  refine
    ⟨Pool.State.isSound_opened task.threads task.jobs,
      Pool.State.isCalm_opened task.threads task.jobs,
      ?_, ?_, List.nodup_nil, ?_, rfl, rfl, rfl, ?_⟩
  · intro hNo
    cases hNo
  · intro hNo
    cases hNo
  · intro worker hNo
    cases hNo
  · intro tally hNo
    cases hNo

/- The client counts a file that it hands over next. -/
theorem IsKept.count
    (h : s.IsKept task)
    (hCount : s.applyCount = some s') : s'.IsKept task := by
  unfold applyCount at hCount
  split at hCount
  · rename_i id rest hCalls hWalk
    cases hCount
    have hTotal := h.total
    rw [hWalk] at hTotal
    refine
      ⟨h.sound, h.calm, ?_, fun _ => ⟨id, rest, hCalls⟩,
        h.nodup, h.running, ?_, h.matched, h.failed,
        h.result⟩
    · intro hNo
      cases hNo
    · exact congrArg (· + 1) hTotal
  · cases hCount

/- What a worker has in hand moves to what has ended. -/
theorem perm_erase
    {judges : List Nat}
    {job? : Nat → Option Nat}
    {worker : Nat}
    (hWorker :
      (job? worker).isSome = true ↔ worker ∈ judges) :
    ((job? worker).toList ++
        (judges.erase worker).filterMap job?).Perm
      (judges.filterMap job?) := by
  by_cases hMember : worker ∈ judges
  · rcases Option.isSome_iff_exists.mp (hWorker.mpr hMember)
      with ⟨id, hId⟩
    have hPerm :=
      (List.perm_cons_erase hMember).filterMap job?
    rw [List.filterMap_cons_some hId] at hPerm
    rw [hId]
    exact hPerm.symm
  · have hNone : job? worker = none := by
      rw [← Option.not_isSome_iff_eq_none, hWorker]
      exact hMember
    rw [hNone, List.erase_of_not_mem hMember]
    exact .refl _

/- What is permitted to a worker that has a job in hand. -/
theorem IsKept.isSome_iff
    (h : s.IsKept task)
    {worker : Nat}
    (hPermits : s.permits (.work worker false) = true) :
    (s.pool.jobOf? worker).isSome = true ↔
      worker ∈ s.judges := by
  refine ⟨?_, h.running worker⟩
  intro hSome
  rw [permits, Bool.false_or, Bool.or_eq_true,
    List.contains_iff_mem] at hPermits
  rcases hPermits with hNone | hMember
  · rw [Option.isNone_iff_eq_none.mp hNone] at hSome
    cases hSome
  · exact hMember

/- An action of the pool leaves the counted jobs counted. -/
theorem IsKept.perm_done
    (h : s.IsKept task)
    {action : Pool.Action}
    {next : Pool.State}
    (hPermits : s.permits action = true)
    (hCalm : action.isCalm = true)
    (hStep :
      Pool.Step task.capacity s.pool action next) :
    (done { s with
      pool := next
      walk := s.walkAfter next action
      judges := s.judgesAfter action }).Perm s.done := by
  by_cases hWork : ∃ worker dies, action = .work worker dies
  · rcases hWork with ⟨worker, dies, rfl⟩
    have hDies : dies = false := by
      cases dies with
      | false => rfl
      | true => cases hCalm
    subst hDies
    have hRest :
        (s.judges.erase worker).filterMap next.jobOf? =
          (s.judges.erase worker).filterMap
            s.pool.jobOf? := by
      apply List.filterMap_congr
      intro other hOther
      apply Pool.State.jobOf?_step hStep
      rintro dies hSame
      cases hSame
      exact (h.nodup.mem_erase_iff.mp hOther).1 rfl
    rw [done, done, judgesAfter, hRest,
      Pool.State.ended_work hStep, List.append_assoc]
    exact
      (perm_erase (h.isSome_iff hPermits)).append_left _
  · have hSame :
        ∀ worker,
          next.jobOf? worker = s.pool.jobOf? worker := by
      intro worker
      apply Pool.State.jobOf?_step hStep
      rintro dies rfl
      exact hWork ⟨worker, dies, rfl⟩
    have hJudges : s.judgesAfter action = s.judges := by
      cases action with
      | work worker dies =>
          exact absurd ⟨worker, dies, rfl⟩ hWork
      | _ => rfl
    have hEnded : next.ended = s.pool.ended := by
      apply Pool.State.ended_step hStep
      rintro worker dies rfl
      exact hWork ⟨worker, dies, rfl⟩
    rw [done, done, hJudges, hEnded, funext hSame]

/- A file was counted before it is handed over. -/
theorem permits_call
    (h : s.permits .call = true) :
    (∃ id rest,
      s.pool.calls = .enqueue id :: rest ∧
        s.walk = .counted) ∨
      ∃ rest,
        s.pool.calls = .join :: rest ∧ s.walk = .seeking := by
  dsimp only [permits] at h
  split at h
  · rename_i id rest hCalls hCounted
    exact .inl ⟨id, rest, hCalls, hCounted⟩
  · rename_i rest hCalls hSeeking
    exact .inr ⟨rest, hCalls, hSeeking⟩
  · cases h

/- How far the client is after an action of the pool. -/
theorem IsKept.walk_act
    (h : s.IsKept task)
    {action : Pool.Action}
    {next : Pool.State}
    (hPermits : s.permits action = true)
    (hStep :
      Pool.Step task.capacity s.pool action next)
    (hNext : next.IsCalm task.jobs) :
    s.walkAfter next action ≠ .conceding ∧
      (s.walkAfter next action = .counted →
        ∃ id rest, next.calls = .enqueue id :: rest) ∧
      s.tally.total =
        next.accepted.length +
          if s.walkAfter next action = .counted then 1
          else 0 := by
  by_cases hCall : action = .call
  · subst hCall
    have hRefused : next.refused = s.pool.refused :=
      hNext.refused.trans h.calm.refused.symm
    have hWalk : s.walkAfter next .call = .seeking :=
      if_pos hRefused
    rw [hWalk, h.total,
      Pool.State.length_accepted_call hStep hRefused]
    refine ⟨Walk.noConfusion, Walk.noConfusion, ?_⟩
    rcases permits_call hPermits with
      ⟨id, rest, hCalls, hCounted⟩ |
      ⟨rest, hCalls, hSeeking⟩
    · rw [hCalls, hCounted]
      rfl
    · rw [hCalls, hSeeking]
      rfl
  · have hWalk : s.walkAfter next action = s.walk := by
      cases action with
      | call => exact absurd rfl hCall
      | _ => rfl
    rcases Pool.State.calls_step hStep hCall with
      ⟨hCalls, hAccepted⟩
    rw [hWalk, hCalls, hAccepted]
    exact ⟨h.notConceding, h.next, h.total⟩

/- Only workers that run a job have counted its file. -/
theorem IsKept.running_act
    (h : s.IsKept task)
    {action : Pool.Action}
    {next : Pool.State}
    (hStep :
      Pool.Step task.capacity s.pool action next) :
    (s.judgesAfter action).Nodup ∧
      ∀ worker ∈ s.judgesAfter action,
        (next.jobOf? worker).isSome = true := by
  have hOther :
      ∀ worker ∈ s.judgesAfter action,
        worker ∈ s.judges ∧
          ∀ dies, action ≠ .work worker dies := by
    intro worker hWorker
    cases action with
    | work index dies =>
        rcases h.nodup.mem_erase_iff.mp hWorker with
          ⟨hIndex, hMember⟩
        refine ⟨hMember, ?_⟩
        rintro _ hSame
        cases hSame
        exact hIndex rfl
    | _ => exact ⟨hWorker, fun _ => Pool.Action.noConfusion⟩
  constructor
  · cases action with
    | work index dies => exact h.nodup.erase index
    | _ => exact h.nodup
  · intro worker hWorker
    rcases hOther worker hWorker with ⟨hMember, hIdle⟩
    rw [Pool.State.jobOf?_step hStep hIdle]
    exact h.running worker hMember

/- A party of the pool acts. -/
theorem IsKept.act
    (h : s.IsKept task)
    {action : Pool.Action}
    (hCalm : action.isCalm = true)
    (hAct : s.applyAct task.capacity action = some s') :
    s'.IsKept task := by
  unfold applyAct at hAct
  split at hAct
  · rename_i hPermits
    rcases Option.map_eq_some_iff.mp hAct with
      ⟨next, hApply, rfl⟩
    have hStep := Pool.step_of_apply hApply
    have hSound := Pool.State.isSound_apply h.sound hApply
    have hNext :=
      Pool.State.isCalm_step h.sound.length_pos
        h.sound.orderly h.sound.stage h.calm hStep hCalm
    have hDone :=
      (h.perm_done hPermits hCalm hStep).filterMap
        task.verdict?
    rcases h.walk_act hPermits hStep hNext with
      ⟨hNot, hCounted, hTotal⟩
    have hKept := h.running_act hStep
    exact
      ⟨hSound, hNext, hNot, hCounted, hKept.1, hKept.2,
        hTotal, h.matched.trans (hDone.count_eq _).symm,
        h.failed.trans (hDone.countP_eq _).symm, h.result⟩
  · cases hAct

/- A worker counts the verdict on the file of its job. -/
theorem IsKept.judge
    (h : s.IsKept task)
    {worker : Nat}
    (hJudge : s.applyJudge task worker = some s') :
    s'.IsKept task := by
  unfold applyJudge at hJudge
  split at hJudge
  · cases hJudge
  · rename_i hContains
    rcases Option.map_eq_some_iff.mp hJudge with
      ⟨verdict, hBind, rfl⟩
    rcases Option.bind_eq_some_iff.mp hBind with
      ⟨id, hJob, hVerdict⟩
    have hNew : worker ∉ s.judges := by
      rw [← List.contains_iff_mem]
      exact hContains
    -- The job in hand is one more whose verdict counts.
    have hVerdicts :
        (verdicts task { s with
          tally := s.tally.countVerdict verdict
          judges := worker :: s.judges }).Perm
          (verdict :: s.verdicts task) := by
      have hDone :
          (s.pool.ended ++
              id :: s.judges.filterMap s.pool.jobOf?).Perm
            (id :: s.done) :=
        List.perm_middle
      have hPerm := hDone.filterMap task.verdict?
      rw [List.filterMap_cons_some hVerdict] at hPerm
      unfold verdicts done
      rw [List.filterMap_cons_some hJob]
      exact hPerm
    refine
      ⟨h.sound, h.calm, h.notConceding, h.next,
        List.nodup_cons.mpr ⟨hNew, h.nodup⟩, ?_, ?_, ?_, ?_,
        h.result⟩
    · intro other hOther
      rcases List.mem_cons.mp hOther with rfl | hOld
      · exact Option.isSome_iff_exists.mpr ⟨id, hJob⟩
      · exact h.running other hOld
    · rw [Tally.total_countVerdict]
      exact h.total
    · rw [hVerdicts.count_eq]
      exact Tally.matched_countVerdict _ _ h.matched
    · rw [hVerdicts.countP_eq]
      exact Tally.failed_countVerdict _ _ h.failed

/- With the answer, the tally is that of all verdicts. -/
theorem IsKept.tally_of_joined
    (h : s.IsKept task)
    (hJoined : s.pool.joined.isSome = true) :
    s.tally = .ofVerdicts task.verdicts := by
  rcases Option.isSome_iff_exists.mp hJoined with
    ⟨answer, hAnswer⟩
  have hOk := hAnswer
  rw [h.calm.joined answer hAnswer] at hOk
  have hCalls := h.sound.stage.calls_eq_nil hOk
  have hAccepted : s.pool.accepted = task.jobs := by
    have hTaken := h.calm.taken
    rw [hCalls] at hTaken
    exact (List.append_nil _).symm.trans hTaken
  have hJudges : s.judges = [] := by
    rw [List.eq_nil_iff_forall_not_mem]
    intro worker hWorker
    have hSome := h.running worker hWorker
    rw [Pool.State.jobOf?_of_joined h.sound hOk] at hSome
    cases hSome
  have hWalk : s.walk ≠ .counted := by
    intro hCounted
    rcases h.next hCounted with ⟨id, rest, hSome⟩
    rw [hCalls] at hSome
    cases hSome
  have hVerdicts :
      (s.verdicts task).Perm task.verdicts := by
    have hEnded := (h.sound.perm_of_joined hOk).2
    rw [hAccepted] at hEnded
    rw [verdicts, done, hJudges, List.filterMap_nil,
      List.append_nil, ← task.filterMap_verdict?_jobs]
    exact hEnded.filterMap task.verdict?
  have hTotal := h.total
  rw [if_neg hWalk, hAccepted, Nat.add_zero,
    Assignment.jobs, List.length_range] at hTotal
  have hMatched := h.matched
  rw [hVerdicts.count_eq] at hMatched
  have hFailed := h.failed
  rw [hVerdicts.countP_eq] at hFailed
  rw [Tally.ofVerdicts_eq, ← hMatched, ← hFailed,
    Assignment.verdicts, List.length_map, ← hTotal]

theorem IsKept.conclude
    (h : s.IsKept task)
    (hConclude : s.applyConclude = some s') :
    s'.IsKept task := by
  unfold applyConclude at hConclude
  split at hConclude
  · rename_i hJoined
    cases hConclude
    refine
      ⟨h.sound, h.calm, h.notConceding, h.next, h.nodup,
        h.running, h.total, h.matched, h.failed, ?_⟩
    rintro tally hTally
    cases hTally
    exact
      h.tally_of_joined (Bool.and_eq_true_iff.mp hJoined).1
  · cases hConclude

/- Each deed by which no job dies keeps the numbers. -/
theorem isKept_apply
    (h : s.IsKept task)
    (hCalm : deed.isCalm = true)
    (hApply : s.apply task deed = some s') :
    s'.IsKept task := by
  cases deed with
  | count => exact h.count hApply
  | act action => exact h.act hCalm hApply
  | concede =>
      rw [apply, applyConcede, if_neg h.notConceding]
        at hApply
      cases hApply
  | judge worker => exact h.judge hApply
  | conclude => exact h.conclude hApply

theorem isKept_follow
    {deeds : List Deed}
    (h : s.IsKept task)
    (hCalm : ∀ deed ∈ deeds, deed.isCalm = true)
    (hFollow : s.follow task deeds = some s') :
    s'.IsKept task := by
  induction deeds generalizing s with
  | nil =>
      cases hFollow
      exact h
  | cons deed rest ih =>
      rcases Option.bind_eq_some_iff.mp hFollow with
        ⟨next, hApply, hRest⟩
      exact
        ih
          (isKept_apply h (hCalm deed List.mem_cons_self)
            hApply)
          (fun other hOther =>
            hCalm other (List.mem_cons_of_mem deed hOther))
          hRest

end Inspection

end Abnf

------------------------------------------------------------
-- Progress
------------------------------------------------------------

namespace Abnf

namespace Inspection

/- Something can happen by which no job dies. -/
def CanGoOn
    (task : Assignment)
    (s : Inspection) : Prop :=
  ∃ deed : Deed, deed.isCalm = true ∧
    (s.apply task deed).isSome = true

variable
  {task : Assignment}
  {s s' : Inspection}
  {deed : Deed}

/- A call that has to wait waits for a file to be counted. -/
theorem IsKept.canGoOn_of_call
    (h : s.IsKept task)
    (hSome :
      (s.pool.applyCall task.capacity).isSome = true)
    (hPermits : s.permits .call ≠ true) :
    s.CanGoOn task := by
  refine ⟨.count, rfl, ?_⟩
  rw [apply, applyCount]
  rw [permits] at hPermits
  cases hCalls : s.pool.calls with
  | nil =>
      rw [Pool.State.applyCall, hCalls] at hSome
      cases hSome
  | cons call rest =>
      cases hWalk : s.walk with
      | conceding => exact absurd hWalk h.notConceding
      | seeking =>
          cases call with
          | enqueue id => rfl
          | join =>
              rw [hCalls, hWalk] at hPermits
              exact absurd rfl hPermits
      | counted =>
          rcases h.next hWalk with ⟨id, rest, hNext⟩
          rw [hNext, hWalk] at hPermits
          exact absurd rfl hPermits

/- A worker that has to wait has a verdict to count. -/
theorem IsKept.canGoOn_of_work
    (h : s.IsKept task)
    {worker : Nat}
    (hPermits : s.permits (.work worker false) ≠ true) :
    s.CanGoOn task := by
  rw [permits, Bool.false_or, Ne, Bool.or_eq_true, not_or]
    at hPermits
  rcases hPermits with ⟨hJob, hJudges⟩
  rw [Option.isNone_iff_eq_none] at hJob
  rcases Option.ne_none_iff_exists'.mp hJob with ⟨id, hId⟩
  rcases task.exists_verdict
      (Pool.State.mem_of_jobOf? h.sound h.calm hId) with
    ⟨verdict, hVerdict⟩
  refine ⟨.judge worker, rfl, ?_⟩
  rw [apply, applyJudge, if_neg hJudges, hId,
    Option.bind_some, hVerdict]
  rfl

/- Until there is a result, something can happen. -/
theorem IsKept.canGoOn
    (h : s.IsKept task)
    (hResult : s.result = none) : s.CanGoOn task := by
  cases hJoined : s.pool.joined with
  | some answer =>
      refine ⟨.conclude, rfl, ?_⟩
      rw [apply, applyConclude, hJoined, hResult]
      rfl
  | none =>
      rcases Pool.State.exists_enabled h.sound.length_pos
          h.sound.orderly h.sound.stage h.calm hJoined with
        ⟨action, hCalm, hSome⟩
      by_cases hPermits : s.permits action = true
      · refine ⟨.act action, hCalm, ?_⟩
        rw [apply, applyAct, if_pos hPermits,
          Option.isSome_map]
        exact hSome
      · cases action with
        | call => exact h.canGoOn_of_call hSome hPermits
        | work worker dies =>
            cases dies with
            | true => cases hCalm
            | false => exact h.canGoOn_of_work hPermits
        | _ => exact absurd rfl hPermits

end Inspection

end Abnf

------------------------------------------------------------
-- Length
------------------------------------------------------------

namespace Abnf

/- The deeds of the client before its next call, at most. -/
def Walk.steps : Walk → Nat
  | seeking => 1
  | counted => 0
  | conceding => 2

theorem Walk.steps_le
    (walk : Walk) : walk.steps ≤ 2 := by
  cases walk with
  | seeking => exact Nat.le_succ 1
  | counted => exact Nat.zero_le 2
  | conceding => exact Nat.le_refl 2

namespace Inspection

/-
  The deeds that can still happen, at most. Besides the
  actions of the pool these are one or two for each call and
  one for each time that a worker goes on.
-/
def steps
    (s : Inspection) : Nat :=
  2 * s.pool.steps + 2 * s.pool.calls.length +
    s.walk.steps +
    (s.pool.workers.length - s.judges.length) +
    if s.result.isNone then 1 else 0

variable
  {task : Assignment}
  {s s' : Inspection}
  {deed : Deed}

/- There are no more judges than workers. -/
theorem IsKept.length_judges_le
    (h : s.IsKept task) :
    s.judges.length ≤ s.pool.workers.length := by
  have hSubset :
      s.judges ⊆ List.range s.pool.workers.length := by
    intro worker hWorker
    rcases Option.isSome_iff_exists.mp
        (h.running worker hWorker) with ⟨id, hJob⟩
    exact
      List.mem_range.mpr (Pool.State.lt_length_of_jobOf? hJob)
  have hLength := h.nodup.length_le_of_subset hSubset
  rw [List.length_range] at hLength
  exact hLength

theorem steps_walkAfter_le
    {action : Pool.Action}
    {next : Pool.State}
    (hStep :
      Pool.Step task.capacity s.pool action next) :
    2 * next.calls.length +
        (s.walkAfter next action).steps ≤
      2 * s.pool.calls.length + s.walk.steps := by
  by_cases hCall : action = .call
  · subst hCall
    rcases Pool.State.calls_call hStep with ⟨call, hCalls⟩
    have hWalk := (s.walkAfter next .call).steps_le
    rw [hCalls, List.length_cons]
    omega
  · have hWalk : s.walkAfter next action = s.walk := by
      cases action with
      | call => exact absurd rfl hCall
      | _ => rfl
    have hCalls := (Pool.State.calls_step hStep hCall).1
    exact Nat.le_of_eq (by rw [hWalk, hCalls])

theorem steps_act_lt
    {action : Pool.Action}
    (hAct : s.applyAct task.capacity action = some s') :
    s'.steps < s.steps := by
  unfold applyAct at hAct
  split at hAct
  · rcases Option.map_eq_some_iff.mp hAct with
      ⟨next, hApply, rfl⟩
    have hStep := Pool.step_of_apply hApply
    have hPool := Pool.State.steps_apply hApply
    have hLength := Pool.State.length_step hStep
    have hClient := steps_walkAfter_le hStep
    have hJudges :
        s.judges.length - 1 ≤
          (s.judgesAfter action).length := by
      cases action with
      | work worker dies => exact List.le_length_erase
      | _ => exact Nat.sub_le _ 1
    dsimp only [steps]
    omega
  · cases hAct

/- Each deed uses up one of those to come. -/
theorem steps_apply_lt
    (h : s.IsKept task)
    (h' : s'.IsKept task)
    (hApply : s.apply task deed = some s') :
    s'.steps < s.steps := by
  cases deed with
  | count =>
      rw [apply, applyCount] at hApply
      split at hApply
      · rename_i hCalls hWalk
        cases hApply
        simp only [steps, hWalk, Walk.steps]
        omega
      · cases hApply
  | act action => exact steps_act_lt hApply
  | concede =>
      rw [apply, applyConcede, if_neg h.notConceding]
        at hApply
      cases hApply
  | judge worker =>
      rw [apply, applyJudge] at hApply
      split at hApply
      · cases hApply
      · rcases Option.map_eq_some_iff.mp hApply with
          ⟨verdict, _, rfl⟩
        have hJudges := h'.length_judges_le
        simp only [steps, List.length_cons] at hJudges ⊢
        omega
  | conclude =>
      rw [apply, applyConclude] at hApply
      split at hApply
      · rename_i hBoth
        cases hApply
        have hNone := (Bool.and_eq_true_iff.mp hBoth).2
        simp [steps, hNone]
      · cases hApply

/- So a run is no longer than what its start can lead to. -/
theorem length_le_of_follow
    {deeds : List Deed}
    (h : s.IsKept task)
    (hCalm : ∀ deed ∈ deeds, deed.isCalm = true)
    (hFollow : s.follow task deeds = some s') :
    deeds.length + s'.steps ≤ s.steps := by
  induction deeds generalizing s with
  | nil =>
      cases hFollow
      exact Nat.le_of_eq (Nat.zero_add _)
  | cons deed rest ih =>
      rcases Option.bind_eq_some_iff.mp hFollow with
        ⟨next, hApply, hRest⟩
      have hNext :=
        isKept_apply h (hCalm deed List.mem_cons_self) hApply
      have hStep := steps_apply_lt h hNext hApply
      have hLength :=
        ih hNext
          (fun other hOther =>
            hCalm other (List.mem_cons_of_mem deed hOther))
          hRest
      rw [List.length_cons]
      omega

theorem steps_opened
    (task : Assignment) :
    (opened task).steps =
      16 * task.paths.length +
        19 * Nat.max task.threads 1 + 20 := by
  have hPool :
      (opened task).pool.steps =
        7 * task.paths.length +
          9 * Nat.max task.threads 1 + 8 := by
    have hOpened :=
      Pool.State.steps_opened task.threads task.jobs
    rw [Assignment.jobs, List.length_range] at hOpened
    exact hOpened
  have hWorkers :
      (opened task).pool.workers.length =
        Nat.max task.threads 1 :=
    List.length_replicate
  have hCalls :
      (opened task).pool.calls.length =
        task.paths.length + 1 := by
    simp [opened]
  rw [steps, hPool, hWorkers, hCalls]
  simp [opened, Walk.steps]
  omega

end Inspection

end Abnf

------------------------------------------------------------
-- Results
------------------------------------------------------------

namespace Abnf

/- The check of some files by some workers. -/
def Session.assignment
    (session : Session Id)
    (program : Program)
    (entry : Nat)
    (paths : List String)
    (threads : Nat) : Assignment :=
  { program := program
    entry := entry
    read := session.world.read
    paths := paths
    threads := threads }

namespace Inspection

variable {session : Session Id} {target : Target}

theorem verdicts_assignment
    {depth : Nat}
    (hShows : session.world.Shows depth target)
    (program : Program)
    (entry threads : Nat)
    (pattern : Option Pattern) :
    (session.assignment program entry
        ((target.selected pattern).map (·.path))
        threads).verdicts =
      (target.selected pattern).map
        (fun file =>
          .ofText program entry file.text) := by
  rw [Assignment.verdicts, Session.assignment, List.map_map]
  apply List.map_congr_left
  intro file hFile
  have hRead :=
    hShows.read_of_mem (List.mem_filter.mp hFile).1
  simp only [Function.comp_apply]
  rw [hRead]
  rfl

/- How many verdicts are good, and how many are not. -/
theorem count_verdicts
    (program : Program)
    (entry : Nat)
    (files : List TextFile) :
    (files.map
        (fun file =>
          Verdict.ofText program entry file.text)).count
        .passed =
      files.countP
        (fun file => program.Consumes entry file.text) := by
  rw [List.count, List.countP_map]
  apply List.countP_congr
  intro file _
  simp [Verdict.ofText_eq_passed_iff]

theorem count_add_countP
    (verdicts : List Verdict) :
    verdicts.count .passed +
        verdicts.countP (· != .passed) =
      verdicts.length := by
  rw [List.length_eq_countP_add_countP (· == .passed)]
  refine congrArg _ (List.countP_congr ?_)
  intro verdict _
  simp

/-
  Take a target that the surroundings show and that does not
  change, with any pattern, program and rule. The files to
  check are those of the target that fit. Take any number of
  workers and any order of deeds by which no job dies. The
  run is not endless, something can happen until there is a
  result, and the result is always the same: it counts all
  files that fit, as matched if the rule consumes the whole
  file and as failed if it does not. A check without workers
  comes to the same numbers.
-/
theorem result_eq_tally
    (hShows :
      session.world.Shows session.world.depth target)
    (program : Program)
    (entry : Nat)
    (rule : String)
    (pattern : Option Pattern) :
    ∃ paths tally,
      session.resultOf
          (Script.select pattern target.path) =
        .ok paths ∧
      session.resultOf
          (Script.judgeAll program entry rule pattern
            target.path) =
        .ok tally ∧
      tally.total = (target.selected pattern).length ∧
      tally.matched + tally.failed = tally.total ∧
      tally.matched =
        (target.selected pattern).countP
          (fun file =>
            program.Consumes entry file.text) ∧
      ∀ (threads : Nat) (task : Assignment)
        (deeds : List Deed) (s : Inspection),
        task =
          session.assignment program entry paths threads →
        (∀ deed ∈ deeds, deed.isCalm = true) →
        (opened task).follow task deeds = some s →
        deeds.length ≤
          16 * paths.length + 19 * Nat.max threads 1 + 20 ∧
        (s.result = none → s.CanGoOn task) ∧
        ∀ numbers, s.result = some numbers →
          numbers = tally := by
  refine
    ⟨_, _, Session.resultOf_select hShows,
      Session.resultOf_judgeAll hShows program entry rule
        pattern, ?_, ?_, ?_, ?_⟩
  · rw [Tally.ofVerdicts_eq]
    exact List.length_map ..
  · rw [Tally.ofVerdicts_eq]
    exact count_add_countP _
  · rw [Tally.ofVerdicts_eq]
    exact count_verdicts program entry _
  · rintro threads task deeds s rfl hCalm hFollow
    have hOpened :=
      isKept_opened
        (session.assignment program entry
          ((target.selected pattern).map (·.path)) threads)
    have hKept := isKept_follow hOpened hCalm hFollow
    have hLength := length_le_of_follow hOpened hCalm hFollow
    rw [steps_opened] at hLength
    refine
      ⟨Nat.le_trans (Nat.le_add_right ..) hLength,
        hKept.canGoOn, ?_⟩
    intro numbers hNumbers
    rw [hKept.result numbers hNumbers,
      verdicts_assignment hShows]

/- A directory with a file, and a file further down. -/
def nestedTarget : Target :=
  .directory "d"
    [.file ⟨"d/a", ""⟩,
     .directory "d/e" [.file ⟨"d/e/b", "b"⟩]]

/- Surroundings that have the nested target and no more. -/
def nestedSession : Session Id where
  world :=
    { read := fun path =>
        if path = "d/a" then .ok ""
        else if path = "d/e/b" then .ok "b"
        else .error (.opening .notFound)
      isDirectory := fun path =>
        path = "d" || path = "d/e"
      list := fun path =>
        if path = "d" then .ok ["a", "e"]
        else if path = "d/e" then .ok ["b"]
        else .error .notDirectory
      depth := (2 : Nat)
      makeDirectory := fun _ => .error .notFound
      write := fun _ _ => .error .notFound
      append := fun _ _ => .error .notFound
      print := fun _ => ()
      stamp := ""
      elapsed := (0 : Nat) }
  coloured := false
  log := none

/- One rule, which consumes nothing. -/
def emptyProgram : Program :=
  ⟨[⟨"nothing", true, .empty⟩]⟩

/- One worker checks both files, one after the other. -/
def nestedRun : List Deed :=
  [.count, .act .call, .act (.work 0 false), .act .hear,
   .act .take, .act .send, .act (.work 0 false), .judge 0,
   .act (.work 0 false), .count, .act .call,
   .act (.work 0 false), .act .hear, .act .take, .act .send,
   .act (.work 0 false), .judge 0, .act (.work 0 false),
   .act (.work 0 false), .act .call, .act .hear, .act .take,
   .act .send, .act (.work 0 false), .act (.work 0 false),
   .act .hear, .act .tell, .act .conclude, .conclude]

theorem shows_nestedTarget :
    nestedSession.world.Shows nestedSession.world.depth
      nestedTarget := by
  have hInner :
      nestedSession.world.Shows 1
        (.directory "d/e" [.file ⟨"d/e/b", "b"⟩]) := by
    refine .directory rfl rfl rfl ?_
    intro entry hEntry
    rw [List.mem_singleton.mp hEntry]
    exact .file rfl rfl
  refine .directory rfl rfl rfl ?_
  intro entry hEntry
  rcases List.mem_cons.mp hEntry with rfl | hRest
  · exact .file rfl rfl
  · rw [List.mem_singleton.mp hRest]
    exact hInner

/- The rule without content consumes the first file only. -/
theorem result_eq_tally_nestedRun :
    (∀ deed ∈ nestedRun, deed.isCalm = true) ∧
    ∃ task tally s,
      task =
        nestedSession.assignment emptyProgram 0
          ["d/a", "d/e/b"] 1 ∧
      nestedSession.resultOf
          (Script.judgeAll emptyProgram 0 "nothing" none
            "d") =
        .ok tally ∧
      (opened task).follow task nestedRun = some s ∧
      s.result = some ⟨2, 1, 1⟩ ∧
      tally = ⟨2, 1, 1⟩ := by
  have hCalm : ∀ deed ∈ nestedRun, deed.isCalm = true := by
    decide
  rcases
      result_eq_tally shows_nestedTarget emptyProgram 0
        "nothing" none with
    ⟨paths, tally, hPaths, hTally, _, _, _, hRuns⟩
  cases hPaths
  have hResult :=
    (hRuns 1 _ nestedRun _ rfl hCalm rfl).2.2 _ rfl
  exact
    ⟨hCalm, _, tally, _, rfl, hTally, rfl, rfl,
      hResult.symm⟩

end Inspection

end Abnf
