import Abnf.Command.Arguments
import Abnf.Command.Check

/-
  Running what the command line asks for.

  Key definitions include:
    * `Abnf.Command.script`
    * `Abnf.Invocation.run`
-/

------------------------------------------------------------
-- Scripts
------------------------------------------------------------

namespace Abnf

variable {m : Type → Type} [Monad m]

/- What a command does. -/
def Command.script : Command → Script m Unit
  | generate grammar name doc output =>
      Script.generateOne ⟨grammar, name, doc, output⟩
  | check grammar rule target matching threads =>
      Script.checkTarget grammar rule target matching
        threads
  | build config => Script.generateAll config

end Abnf

------------------------------------------------------------
-- Invocations
------------------------------------------------------------

namespace Abnf

namespace Invocation

variable {m : Type → Type} [Monad m]

/- The sign of the tool, which opens a log. -/
def banner : String :=
  "
        _            __
  __ _ | |__  _ _   / _| __ _  ___  _ _
 / _` || '_ \\| ' \\ |  _|/ _` |/ -_)| ' \\
 \\__,_||_.__/|_||_||_|  \\__, |\\___||_||_|
                        |___/
"

/- Make sure that there is a file for the log. -/
def openLog
    (path : String) :
    Script m Unit := do
  let refuse (error : SystemError) : Script m Unit :=
    Script.fatal
      ("Failed to open log file " ++ path ++ ": " ++
        error.message)
  if let some parent := Path.parent? path then
    if let .error error ←
        Script.ask (·.makeDirectories parent) then
      refuse error
  if let .error error ← Script.ask (·.append path "") then
    refuse error

/- Open the log, if there is one, and run the command. -/
def script
    (invocation : Invocation) : Script m Unit := do
  let log ←
    match invocation.logFile with
    | none => pure none
    | some path => do
        openLog path
        pure (some ⟨path, invocation.logLevel⟩)
  withReader
    (fun session => { session with log := log })
    (do
      Script.record ⟨.info, banner⟩
      invocation.command.script)

/-
  Run what the command line asks for. The result is the
  status to exit with, which says how the command ended.
-/
def run
    (world : World m)
    (coloured : Bool)
    (invocation : Invocation) : m UInt32 := do
  let session : Session m := ⟨world, coloured, none⟩
  match ← (invocation.script.run session).run with
  | .ok _ => return 0
  | .error .fatal => return 1
  | .error .exhausted => return 101

end Invocation

end Abnf
