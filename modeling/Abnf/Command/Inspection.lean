import Abnf.Command.Check
import Abnf.Pool

/-
  Inspections: checks of files by a pool of workers.

  The client goes through the files that were selected. It
  counts a file and puts it into the queue of a pool. The
  worker that gets the file reads it and counts the verdict.
  A file that the pool does not take counts as failed. At
  the end the client asks the pool to stop; the numbers that
  it finds then are the result.

  What can happen is given by deeds on a state, each with
  the condition under which it applies. Some deeds are the
  actions of the pool. Any order of deeds is a possible run.

  Key definitions include:
    * `Abnf.Assignment`
    * `Abnf.Inspection`
    * `Abnf.Inspection.Deed`
    * `Abnf.Inspection.apply`
-/

------------------------------------------------------------
-- Assignments
------------------------------------------------------------

namespace Abnf

/- The verdict on what the reading of a file gives. -/
def Verdict.ofReading
    (program : Program)
    (entry : Nat) :
    Except FileFault String → Verdict
  | .error fault => .unread fault
  | .ok text => .ofText program entry text

namespace Tally

/- Count a file that is to be checked. -/
def countFile
    (tally : Tally) : Tally :=
  { tally with total := tally.total + 1 }

/- Count a file that was not checked, or not with success. -/
def countFailed
    (tally : Tally) : Tally :=
  { tally with failed := tally.failed + 1 }

/- Count the verdict on a file. -/
def countVerdict
    (tally : Tally)
    (verdict : Verdict) : Tally :=
  if verdict = .passed then
    { tally with matched := tally.matched + 1 }
  else
    tally.countFailed

end Tally

/- Which files are to be checked, how, and by how many. -/
structure Assignment where
  program : Program
  /- Where the rule enters the program. -/
  entry : Nat
  /- What the reading of a file gives. -/
  read : String → Except FileFault String
  /- The files; the number of a job is a place in here. -/
  paths : List String
  /- The number of workers. -/
  threads : Nat

namespace Assignment

/- The queue has two places for each worker. -/
def capacity
    (task : Assignment) : Nat :=
  task.threads * 2

/- The verdict on the file of a job. -/
def verdict?
    (task : Assignment)
    (id : Nat) : Option Verdict :=
  task.paths[id]?.map
    (fun path =>
      .ofReading task.program task.entry (task.read path))

end Assignment

end Abnf

------------------------------------------------------------
-- Inspections
------------------------------------------------------------

namespace Abnf

/- The job that a worker of a pool runs. -/
def Pool.State.jobOf?
    (pool : Pool.State)
    (worker : Nat) : Option Nat :=
  match pool.workers[worker]? with
  | some ⟨_, .running id⟩ => some id
  | _ => none

/- What the client of a pool does between two calls. -/
inductive Walk where
  /- It goes on to its next call. -/
  | seeking
  /- It has counted the file that it puts into the queue. -/
  | counted
  /- The pool has not taken the file. -/
  | conceding
deriving DecidableEq, Inhabited

/- A check of files on its way. -/
structure Inspection where
  pool : Pool.State
  walk : Walk
  /- The numbers so far, which all parties change. -/
  tally : Tally
  /- The workers that have counted the file of their job. -/
  judges : List Nat
  result : Option Tally

namespace Inspection

/- What can happen next. -/
inductive Deed where
  /- The client counts the next file. -/
  | count
  /- A party of the pool acts. -/
  | act (action : Pool.Action)
  /- The client counts a file that the pool did not take. -/
  | concede
  /- A worker counts the verdict on the file of its job. -/
  | judge (worker : Nat)
  /- The client takes the numbers that it finds. -/
  | conclude
deriving DecidableEq, Inhabited

/-
  An action of the pool can come now. The client counts a
  file before it puts it into the queue. A job returns only
  after the verdict on its file was counted.
-/
def permits
    (s : Inspection) : Pool.Action → Bool
  | .call =>
      match s.pool.calls, s.walk with
      | .enqueue _ :: _, .counted => true
      | .join :: _, .seeking => true
      | _, _ => false
  | .work worker dies =>
      dies || (s.pool.jobOf? worker).isNone ||
        s.judges.contains worker
  | _ => true

/- How the client goes on after an action of the pool. -/
def walkAfter
    (s : Inspection)
    (next : Pool.State) : Pool.Action → Walk
  | .call =>
      if next.refused = s.pool.refused then
        .seeking
      else
        .conceding
  | _ => s.walk

/- A worker that goes on has not counted its next file. -/
def judgesAfter
    (s : Inspection) : Pool.Action → List Nat
  | .work worker _ => s.judges.erase worker
  | _ => s.judges

/- The client counts the next file. -/
def applyCount
    (s : Inspection) : Option Inspection :=
  match s.pool.calls, s.walk with
  | .enqueue _ :: _, .seeking =>
      some { s with
        walk := .counted
        tally := s.tally.countFile }
  | _, _ => none

/- A party of the pool acts. -/
def applyAct
    (capacity : Nat)
    (s : Inspection)
    (action : Pool.Action) : Option Inspection :=
  if s.permits action then
    (s.pool.apply capacity action).map
      (fun next => { s with
        pool := next
        walk := s.walkAfter next action
        judges := s.judgesAfter action })
  else
    none

/- The client counts a file that the pool did not take. -/
def applyConcede
    (s : Inspection) : Option Inspection :=
  if s.walk = .conceding then
    some { s with
      walk := .seeking
      tally := s.tally.countFailed }
  else
    none

/- A worker counts the verdict on the file of its job. -/
def applyJudge
    (task : Assignment)
    (s : Inspection)
    (worker : Nat) : Option Inspection :=
  if s.judges.contains worker then
    none
  else
    ((s.pool.jobOf? worker).bind task.verdict?).map
      (fun verdict => { s with
        tally := s.tally.countVerdict verdict
        judges := worker :: s.judges })

/- The client takes the numbers once it has an answer. -/
def applyConclude
    (s : Inspection) : Option Inspection :=
  if s.pool.joined.isSome && s.result.isNone then
    some { s with result := some s.tally }
  else
    none

/- The state after a deed, if the deed applies. -/
def apply
    (task : Assignment)
    (s : Inspection) :
    Deed → Option Inspection
  | .count => s.applyCount
  | .act action => s.applyAct task.capacity action
  | .concede => s.applyConcede
  | .judge worker => s.applyJudge task worker
  | .conclude => s.applyConclude

/- The state after some deeds, if each of them applies. -/
def follow
    (task : Assignment) :
    Inspection → List Deed → Option Inspection
  | s, [] => some s
  | s, deed :: rest =>
      (s.apply task deed).bind
        (fun next => follow task next rest)

/- A new pool, and a client with all files before it. -/
def opened
    (task : Assignment) : Inspection :=
  { pool :=
      { Pool.State.start task.threads with
        calls :=
          (List.range task.paths.length).map .enqueue ++
            [.join] }
    walk := .seeking
    tally := ⟨0, 0, 0⟩
    judges := []
    result := none }

end Inspection

end Abnf
