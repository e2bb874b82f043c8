import Abnf.Command
import Std.Time

/-
  The command line tool.

  Key definitions include:
    * `Abnf.Host.world`
    * `main`
-/

------------------------------------------------------------
-- The Operating System
------------------------------------------------------------

namespace Abnf

namespace Host

/- Why an operation failed. -/
def errorOf
    (error : IO.Error) : SystemError :=
  match error with
  | .noFileOrDirectory _ _ _ => .notFound
  | .alreadyExists _ _ _ => .occupied
  | .inappropriateType _ code _ =>
      if code = 20 then .notDirectory
      else if code = 21 then .isDirectory
      else .other (toString error)
  | .invalidArgument _ code _ =>
      if code = 36 then .nameTooLong
      else .other (toString error)
  | _ => .other (toString error)

/- Do something that can fail. -/
def attempt
    {α : Type}
    (action : IO α) : IO (Except SystemError α) := do
  try
    return .ok (← action)
  catch error =>
    return .error (errorOf error)

/- The text of a file. -/
def read
    (path : String) : IO (Except FileFault String) := do
  match ← attempt (IO.FS.Handle.mk path .read) with
  | .error error => return .error (.opening error)
  | .ok file =>
      match ← attempt file.readBinToEnd with
      | .error error => return .error (.reading error)
      | .ok bytes =>
          match String.fromUTF8? bytes with
          | some text => return .ok text
          | none => return .error (.reading .notText)

/- There is a directory at the path. -/
def isDirectory
    (path : String) : IO Bool := do
  try
    (← IO.FS.realPath path).isDir
  catch _ =>
    return false

/- The names in a directory. -/
def list
    (path : String) :
    IO (Except SystemError (List String)) :=
  attempt do
    let entries ← (← IO.FS.realPath path).readDir
    return entries.toList.map (·.fileName)

/- Put a text at the end of a file. -/
def append
    (path text : String) :
    IO (Except SystemError Unit) :=
  attempt do
    let file ← IO.FS.Handle.mk path .append
    file.putStr text

/- A number with two digits. -/
def twoDigits
    (n : Int) : String :=
  if n < 10 then "0" ++ toString n else toString n

/- Date and time. -/
def stamp : IO String := do
  let now ← Std.Time.PlainDateTime.now
  return toString now.year.toInt ++ "-" ++
    twoDigits now.month.val ++ "-" ++
    twoDigits now.day.val ++ " " ++
    twoDigits now.hour.val ++ ":" ++
    twoDigits now.minute.val ++ ":" ++
    twoDigits now.second.val

/- The operating system as the surroundings of a command. -/
def world : IO (World IO) := do
  let start ← IO.monoMsNow
  return {
    read := read
    isDirectory := isDirectory
    list := list
    -- Paths are shorter than this.
    depth := return 4096
    makeDirectory := fun path =>
      attempt (IO.FS.createDir path)
    write := fun path text =>
      attempt (IO.FS.writeFile path text)
    append := append
    print := IO.print
    stamp := stamp
    elapsed := do return (← IO.monoMsNow) - start }

/- The terminal shows colours. -/
def isColoured : IO Bool := do
  if (← IO.getEnv "NO_COLOR").isSome then
    return false
  else
    (← IO.getStdout).isTty

end Host

end Abnf

------------------------------------------------------------
-- Entry
------------------------------------------------------------

/- Run the tool on the arguments it was started with. -/
def main
    (args : List String) : IO UInt32 := do
  match Abnf.Invocation.ofArguments args with
  | .error error =>
      if error.isRequest then
        IO.println error.message
        return 0
      else
        IO.eprintln error.message
        return 1
  | .ok invocation =>
      invocation.run (← Abnf.Host.world)
        (← Abnf.Host.isColoured)
