import Abnf.Command.Generation
import Abnf.Pattern

/-
  Checking files against a rule of a grammar.

  A target is a file or a directory with all files below it.
  The files whose names fit a pattern are selected. A file
  passes only if the rule consumes all of it.

  Key definitions include:
    * `Abnf.Verdict`
    * `Abnf.Tally`
    * `Abnf.Script.select`
    * `Abnf.Script.judge`
    * `Abnf.Script.checkTarget`
-/

------------------------------------------------------------
-- Verdicts
------------------------------------------------------------

namespace Abnf

/- What comes out of the check of a file. -/
inductive Verdict where
  | passed
  /- The file cannot be read. -/
  | unread (fault : FileFault)
  /- The rule does not match. -/
  | unmatched
  /- The rule ends before the end of the file. -/
  | partly (position : Text.Position)
deriving DecidableEq, Inhabited

namespace Verdict

/- The verdict on a text by the rule at an entry. -/
def ofText
    (program : Program)
    (entry : Nat)
    (text : String) : Verdict :=
  let input := Text.bytes text
  match (program.run entry input 0).stop? with
  | none => unmatched
  | some stop =>
      if stop = input.size then
        passed
      else
        partly (Text.position input stop)

/- The report on a file. -/
def report
    (rule path : String) : Verdict → Report
  | passed => .matched path
  | unread fault => .unmatched (fault.message "target" path)
  | unmatched =>
      .unmatched
        (path ++ " does not match rule \"" ++ rule ++ "\"")
  | partly position =>
      .unmatched
        (path ++ " only matches rule \"" ++ rule ++
          "\" up to " ++ toString position.line ++ ":" ++
          toString position.column)

end Verdict

/- The numbers of files in a check. -/
structure Tally where
  total : Nat
  matched : Nat
  failed : Nat
deriving DecidableEq, Inhabited

namespace Tally

/- Count a verdict. -/
def add
    (tally : Tally)
    (verdict : Verdict) : Tally :=
  if verdict = .passed then
    { tally with
      total := tally.total + 1
      matched := tally.matched + 1 }
  else
    { tally with
      total := tally.total + 1
      failed := tally.failed + 1 }

/- The tally of some verdicts. -/
def ofVerdicts
    (verdicts : List Verdict) : Tally :=
  verdicts.foldl add ⟨0, 0, 0⟩

end Tally

end Abnf

------------------------------------------------------------
-- Targets
------------------------------------------------------------

namespace Abnf

namespace Script

variable {m : Type → Type} [Monad m]

/- The file at a path, if its name fits. -/
def selectFile
    (pattern : Option Pattern)
    (path : String) : List String :=
  match Path.fileName? path with
  | none => []
  | some name =>
      if pattern.all (·.isMatch name) then [path] else []

/- The files to check at a path, down to some depth. -/
def selectWithin
    (pattern : Option Pattern) :
    Nat → String → Script m (List String)
  | 0, _ => return []
  | depth + 1, path => do
      if ← ask (·.isDirectory path) then
        match ← ask (·.list path) with
        | .error error =>
            report
              (.error
                ("Could not read directory " ++ path ++
                  ": " ++ error.message))
            return []
        | .ok names =>
            let found ← names.mapM
              (fun name =>
                selectWithin pattern depth
                  (Path.join path name))
            return found.flatten
      else
        return selectFile pattern path

/- The files to check at a path. -/
def select
    (pattern : Option Pattern)
    (path : String) : Script m (List String) := do
  selectWithin pattern ((← ask (·.depth)) + 1) path

/- Check a file and report on it. -/
def judge
    (program : Program)
    (entry : Nat)
    (rule path : String) : Script m Verdict := do
  let verdict : Verdict :=
    match ← ask (·.read path) with
    | .error fault => .unread fault
    | .ok text => .ofText program entry text
  report (verdict.report rule path)
  return verdict

/- Check all files at a path that fit. -/
def judgeAll
    (program : Program)
    (entry : Nat)
    (rule : String)
    (pattern : Option Pattern)
    (path : String) : Script m Tally := do
  let files ← select pattern path
  let verdicts ← files.mapM (judge program entry rule)
  return .ofVerdicts verdicts

end Script

end Abnf

------------------------------------------------------------
-- Commands
------------------------------------------------------------

namespace Abnf

namespace Script

variable {m : Type → Type} [Monad m]

/- A number of workers, which is not zero. -/
def parseThreads?
    (text : String) : Option Nat :=
  let digits :=
    match text.toList with
    | '+' :: rest => rest
    | all => all
  (Grammar.numberBelow? Grammar.countLimit 10 digits).filter
    (· != 0)

/- The number of workers, which is one if none is given. -/
def threadsOf
    (text : Option String) : Script m Nat :=
  match text with
  | none => return 1
  | some text =>
      match parseThreads? text with
      | some count => return count
      | none => do
          report
            (.error
              ("Invalid number of threads: '" ++ text ++
                "'. Falling back to one thread"))
          return 1

/- No system runs as many workers as this. -/
def workerLimit : Nat := 1 <<< 15

/- The pattern for file names, if one is given. -/
def patternOf
    (text : Option String) :
    Script m (Option Pattern) :=
  match text with
  | none => return none
  | some text =>
      match Pattern.parse? text with
      | some pattern => return some pattern
      | none =>
          fatal
            ("Failed to build file name regex: " ++ text)

/- The program of a grammar file that has to be there. -/
def needProgram
    (grammar : String) : Script m Program := do
  match ← loadProgram grammar with
  | .ok program => return program
  | .error error =>
      fatal
        ("Error loading grammar " ++ grammar ++ ": " ++
          error.message)

/- Where a rule that has to be there enters a program. -/
def needEntry
    (program : Program)
    (grammar rule : String) : Script m Nat :=
  match program.entry? rule with
  | some entry => return entry
  | none =>
      fatal
        ("Grammar " ++ grammar ++ " has no rule \"" ++
          rule ++ "\", expected one of: " ++
          ", ".intercalate program.ruleNames)

/- Check the files of a target against a rule. -/
def checkTarget
    (grammar rule target : String)
    (matching threads : Option String) :
    Script m Unit := do
  report (.info ("Loading grammar " ++ grammar ++ " ..."))
  let program ← needProgram grammar
  let entry ← needEntry program grammar rule
  report
    (.info
      ("Successfully loaded grammar: " ++
        toString program.ruleNames.length ++ " rules"))
  let pattern ← patternOf matching
  let threads ← threadsOf threads
  print ""
  if workerLimit ≤ threads then
    exhaust
  debug
    ("Spawned thread pool with " ++ toString threads ++
      " workers")
  let tally ← judgeAll program entry rule pattern target
  summarize tally.total tally.matched "matched" tally.failed
  if 0 < tally.failed then
    fatal (toString tally.failed ++ " files did not match")

end Script

end Abnf
