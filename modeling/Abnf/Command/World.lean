import Abnf.Command.Path

/-
  What commands need from their surroundings: files,
  directories, a place to print and a clock.

  Commands are written for any surroundings of this form. A
  file tree in memory is one, the operating system another.

  Key definitions include:
    * `Abnf.SystemError`
    * `Abnf.FileFault`
    * `Abnf.World`
    * `Abnf.World.makeDirectories`
-/

------------------------------------------------------------
-- Surroundings
------------------------------------------------------------

namespace Abnf

/- Why an operation on files fails. -/
inductive SystemError where
  | notFound
  | occupied
  | notDirectory
  | isDirectory
  /- A name, or a path as a whole, is too long. -/
  | nameTooLong
  /- A name has a zero in it. -/
  | zeroInName
  /- The bytes of a file are no text. -/
  | notText
  /- Any other reason, in its own words. -/
  | other (text : String)
deriving DecidableEq, Inhabited

/- The text that reports the error. -/
def SystemError.message : SystemError → String
  | notFound => "No such file or directory (os error 2)"
  | occupied => "File exists (os error 17)"
  | notDirectory => "Not a directory (os error 20)"
  | isDirectory => "Is a directory (os error 21)"
  | nameTooLong => "File name too long (os error 36)"
  | zeroInName =>
      "file name contained an unexpected NUL byte"
  | notText => "stream did not contain valid UTF-8"
  | other text => text

/- At which step the reading of a file fails. -/
inductive FileFault where
  | opening (error : SystemError)
  | reading (error : SystemError)
deriving DecidableEq, Inhabited

/- The text that reports the fault of a kind of file. -/
def FileFault.message
    (kind path : String) : FileFault → String
  | opening error =>
      "Could not find " ++ kind ++ " file \"" ++ path ++
        "\": " ++ error.message
  | reading error =>
      "Could not read " ++ kind ++ " file \"" ++ path ++
        "\": " ++ error.message

/- The surroundings of a command. -/
structure World (m : Type → Type) where
  /- The text of a file. -/
  read : String → m (Except FileFault String)
  /- There is a directory at the path. -/
  isDirectory : String → m Bool
  /- The names in a directory. -/
  list : String → m (Except SystemError (List String))
  /- No way down has more names than this. -/
  depth : m Nat
  /- Make a directory in one that is there. -/
  makeDirectory : String → m (Except SystemError Unit)
  /- Put a text into a file in place of what it has. -/
  write : String → String → m (Except SystemError Unit)
  /- Put a text at the end of a file. -/
  append : String → String → m (Except SystemError Unit)
  /- Print a text. -/
  print : String → m Unit
  /- Date and time, to stand before a record. -/
  stamp : m String
  /- The milliseconds since the command started. -/
  elapsed : m Nat

end Abnf

------------------------------------------------------------
-- Directories
------------------------------------------------------------

namespace Abnf

namespace World

variable {m : Type → Type} [Monad m]

/- Make a directory, which may be there already. -/
def ensureDirectory
    (world : World m)
    (path : String) : m (Except SystemError Unit) := do
  match ← world.makeDirectory path with
  | .ok _ => return .ok ()
  | .error error =>
      if ← world.isDirectory path then
        return .ok ()
      else
        return .error error

/-
  Make the first directory of a list. If the one above it is
  not there, make that one first, which is next in the list.
-/
def makeAll
    (world : World m) :
    List String → m (Except SystemError Unit)
  | [] => return .error .notFound
  | path :: above => do
      if path.isEmpty then
        return .ok ()
      match ← world.ensureDirectory path with
      | .error .notFound =>
          match ← makeAll world above with
          | .error error => return .error error
          | .ok _ => world.ensureDirectory path
      | result => return result

/- Make a directory, and those above it. -/
def makeDirectories
    (world : World m)
    (path : String) : m (Except SystemError Unit) :=
  world.makeAll (Path.ancestors path)

end World

end Abnf
