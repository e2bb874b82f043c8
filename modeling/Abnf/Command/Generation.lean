import Abnf.Build
import Abnf.Command.Configuration
import Abnf.Command.Session

/-
  Making parsers of grammar files.

  Key definitions include:
    * `Abnf.JobError`
    * `Abnf.Script.loadProgram`
    * `Abnf.Script.generate`
    * `Abnf.Script.generateOne`
    * `Abnf.Script.generateAll`
-/

------------------------------------------------------------
-- Errors
------------------------------------------------------------

namespace Abnf

/- Why nothing can be made of a grammar file. -/
inductive JobError where
  /- The grammar file cannot be read. -/
  | grammarFile (path : String) (fault : FileFault)
  /- The directory for the parser cannot be made. -/
  | directory (path : String) (error : SystemError)
  /- The parser cannot be written. -/
  | outputFile (path : String) (error : SystemError)
  /- The grammar makes no parser. -/
  | build (cause : BuildError)
deriving DecidableEq, Inhabited

/- The text that reports the error. -/
def JobError.message : JobError → String
  | grammarFile path fault => fault.message "grammar" path
  | directory path error =>
      "Could not create output directory \"" ++ path ++
        "\": " ++ error.message
  | outputFile path error =>
      "Could not write output file \"" ++ path ++
        "\": " ++ error.message
  | build cause => cause.message

end Abnf

------------------------------------------------------------
-- Jobs
------------------------------------------------------------

namespace Abnf

namespace Script

variable {m : Type → Type} [Monad m]

/-
  Read a grammar file and build something of its text, which
  gets the line ends of grammar texts first. The notes go to
  the log.
-/
def buildFrom
    {α : Type}
    (build : String → Except BuildError α × List Note)
    (path : String) : Script m (Except JobError α) := do
  match ← ask (·.read path) with
  | .error fault => return .error (.grammarFile path fault)
  | .ok text =>
      let (built, notes) := build (Text.endLines text)
      for note in notes do
        record note.record
      match built with
      | .error cause => return .error (.build cause)
      | .ok made => return .ok made

/- A list of names in brackets. -/
def bracketed
    (names : List String) : String :=
  "[" ++
    ", ".intercalate
      (names.map (fun name => "\"" ++ name ++ "\"")) ++
    "]"

/- The program of a grammar file. -/
def loadProgram
    (path : String) :
    Script m (Except JobError Program) := do
  match ← buildFrom Build.programNoting path with
  | .error error => return .error error
  | .ok program =>
      debug
        ("Built program for " ++ path ++ " with rules " ++
          bracketed program.ruleNames)
      return .ok program

/- Make the directory that a file is going to be in. -/
def makeRoom
    (path : String) :
    Script m (Except JobError Unit) := do
  match Path.parent? path with
  | none => return .ok ()
  | some parent =>
      if parent.isEmpty then
        return .ok ()
      else
        match ← ask (·.makeDirectories parent) with
        | .ok _ => return .ok ()
        | .error error =>
            return .error (.directory parent error)

/- Write the source of a parser into a file. -/
def writeSource
    (path source : String) :
    Script m (Except JobError Unit) := do
  match ← makeRoom path with
  | .error error => return .error error
  | .ok _ =>
      match ← ask (·.write path source) with
      | .error error =>
          return .error (.outputFile path error)
      | .ok _ =>
          debug
            ("Wrote " ++ toString source.utf8ByteSize ++
              " bytes of parser source to " ++ path)
          return .ok ()

/-
  Make a parser. Its source is written, or it is the result
  if there is no file for it.
-/
def generate
    (job : Job) :
    Script m (Except JobError (Option String)) := do
  match ← buildFrom (Build.sourceNoting job.name job.doc)
      job.grammarPath with
  | .error error => return .error error
  | .ok source =>
      match job.outputPath with
      | none => return .ok (some source)
      | some path =>
          match ← writeSource path source with
          | .error error => return .error error
          | .ok _ => return .ok none

/- The text that reports a failed job. -/
def failureText
    (job : Job)
    (error : JobError) : String :=
  "Error generating parser from " ++ job.grammarPath ++
    ": " ++ error.message

end Script

end Abnf

------------------------------------------------------------
-- Commands
------------------------------------------------------------

namespace Abnf

namespace Script

variable {m : Type → Type} [Monad m]

/- Make one parser, and print it if it has no file. -/
def generateOne
    (job : Job) : Script m Unit := do
  match ← generate job with
  | .ok (some source) => ask (·.print source)
  | .ok none => report (.generated job.grammarPath)
  | .error error => fatal (failureText job error)

/- Make one parser of many; the result says if it worked. -/
def generateListed
    (job : Job) : Script m Bool := do
  report (.generating job.grammarPath)
  match ← generate job with
  | .ok _ =>
      report (.generated job.grammarPath)
      return true
  | .error error =>
      report (.notGenerated (failureText job error))
      return false

/- The grammars that a configuration file lists. -/
def loadConfiguration
    (path : String) : Script m (List GrammarEntry) := do
  let refuse (reason : String) :
      Script m (List GrammarEntry) :=
    fatal
      ("Error loading build configuration " ++ path ++
        ": " ++ reason)
  match ← ask (·.read path) with
  | .error fault =>
      refuse
        ("IO Error: " ++ fault.message "configuration" path)
  | .ok text =>
      match Configuration.parse text with
      | .ok entries => return entries
      | .error fault =>
          refuse
            ("Failed to parse configuration file: " ++
              fault.message)

/- Make all parsers that a configuration file lists. -/
def generateAll
    (path : String) : Script m Unit := do
  let entries ← loadConfiguration path
  let base := (Path.parent? path).getD ""
  print ""
  let results ← entries.mapM
    (fun entry => generateListed (entry.job base))
  let failed := results.count false
  summarize results.length (results.count true) "generated"
    failed
  if 0 < failed then
    fatal
      (toString failed ++ " grammars failed to generate")

end Script

end Abnf
