import Abnf.Command.Report
import Abnf.Command.World

/-
  Sessions: the surroundings of a command, with its terminal
  and its log.

  A script is a computation in a session. It can end early;
  the reason has been reported by then.

  Key definitions include:
    * `Abnf.Session`
    * `Abnf.Script`
    * `Abnf.Script.report`
    * `Abnf.Script.fatal`
-/

------------------------------------------------------------
-- Sessions
------------------------------------------------------------

namespace Abnf

/- A file that keeps the records up to a level. -/
structure LogFile where
  path : String
  level : Level
deriving DecidableEq, Inhabited

namespace LogFile

/- The log keeps a record. -/
def keeps
    (log : LogFile)
    (record : Record) : Bool :=
  record.level.rank ≤ log.level.rank

/- The text of a record in a log. -/
def entry
    (stamp : String)
    (record : Record) : String :=
  Text.plain
    (stamp ++ " " ++ record.level.word ++ " - " ++
      record.message ++ "\n")

end LogFile

/- The surroundings of a command, its terminal, its log. -/
structure Session (m : Type → Type) where
  world : World m
  /- The terminal shows colours. -/
  coloured : Bool
  log : Option LogFile

/- Why a command has ended early. -/
inductive Aborted where
  /- An error was reported that ends commands. -/
  | fatal
  /- The system cannot give what the command takes. -/
  | exhausted
deriving DecidableEq, Inhabited

/- A computation in a session. -/
abbrev Script (m : Type → Type) : Type → Type :=
  ReaderT (Session m) (ExceptT Aborted m)

end Abnf

------------------------------------------------------------
-- Steps
------------------------------------------------------------

namespace Abnf

namespace Script

variable {m : Type → Type} [Monad m]

/- Do something with the surroundings. -/
def ask
    {α : Type}
    (step : World m → m α) : Script m α :=
  fun session => ExceptT.lift (step session.world)

/- The terminal shows colours. -/
def isColoured : Script m Bool :=
  fun session => pure session.coloured

/- Print a line. -/
def print
    (line : String) : Script m Unit :=
  ask (·.print (line ++ "\n"))

/- Put a record into the log, if there is one. -/
def record
    (record : Record) : Script m Unit := do
  match (← read).log with
  | none => return
  | some log =>
      if log.keeps record then
        let stamp ← ask (·.stamp)
        let _ ← ask
          (·.append log.path (LogFile.entry stamp record))

/- Put a debugging message into the log. -/
def debug
    (message : String) : Script m Unit :=
  record ⟨.debug, message⟩

/- Make a report. -/
def report
    (report : Report) : Script m Unit := do
  print (report.line (← isColoured))
  record report.record

/- Report an error that ends the command. -/
def fatal
    {α : Type}
    (text : String) : Script m α := do
  report (.fatal text)
  throw .fatal

/- End a command for which the system is too small. -/
def exhaust
    {α : Type} : Script m α := do
  print
    "abnfgen crashed unexpectedly, please report this as a bug"
  throw .exhausted

/- Make the last report of a command that counted. -/
def summarize
    (total passed : Nat)
    (label : String)
    (failed : Nat) : Script m Unit := do
  let coloured ← isColoured
  let elapsed ← ask (·.elapsed)
  print ""
  report
    (.info
      ("COMPLETE: " ++ toString elapsed ++ "ms : " ++
        toString total ++ " processed, " ++
        Style.green.paintCount coloured passed label ++
        ", " ++
        Style.red.paintCount coloured failed "failed"))

end Script

end Abnf
