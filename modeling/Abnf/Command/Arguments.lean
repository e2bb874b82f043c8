import Abnf.Command.Likeness
import Abnf.Log

/-
  The arguments of the command line.

  Arguments are read from left to right. An option takes its
  value from the same argument or from the next one, unless
  that one starts an option itself. Before a command come
  the options of the tool, behind it those of the command.
  What was given is checked when all of it has been read:
  the command's part first, then the tool's.

  Key definitions include:
    * `Abnf.Arguments.Usage`
    * `Abnf.Arguments.UsageError`
    * `Abnf.Arguments.UsageError.message`
    * `Abnf.Arguments.scan`
    * `Abnf.Arguments.check`
    * `Abnf.Invocation`
    * `Abnf.Invocation.ofArguments`
-/

------------------------------------------------------------
-- Usage
------------------------------------------------------------

namespace Abnf

namespace Arguments

/- An option with a value. -/
structure Opt where
  name : String
  short : Option Char
  /- The values it can take, if not all. -/
  values : List String
deriving DecidableEq, Inhabited

/- What can be given to the tool or to a command. -/
structure Usage where
  options : List Opt
  /- The names of the arguments that are no options. -/
  operands : List String
  /- The names of all that has to be given. -/
  required : List String
  /- The commands that can follow. -/
  commands : List String
deriving DecidableEq, Inhabited

/- Why arguments are refused. -/
inductive UsageError where
  /- Help was asked for. -/
  | help
  /- The version was asked for. -/
  | version
  /- There is no command. -/
  | noCommand
  /- Help was asked for on a command that is not known. -/
  | unknownCommand
  /- A word stands where a command could, and is like one. -/
  | misspelled
  /- Something that has to be given is not. -/
  | missing
  /- An argument is not known. -/
  | unknown
  /- An option has no value. -/
  | noValue
  /- An option has a value that it cannot take. -/
  | invalidValue
  /- An option is given twice. -/
  | repeated
deriving DecidableEq, Inhabited

namespace UsageError

/- What the tool can do and what has to be given. -/
def helpText : String :=
  "Compiles ABNF grammars into recursive-descent parsers\n" ++
  "\n" ++
  "[--logfile FILE] [--loglevel LEVEL] COMMAND\n" ++
  "\n" ++
  "gen -g GRAMMAR -n NAME [-d DOC] [-o FILE]\n" ++
  "    Generates Rust source for a parser of every rule" ++
  " in a grammar\n" ++
  "check -g GRAMMAR -r RULE [-m REGEX] [-t COUNT] TARGET\n" ++
  "    Checks that files match a rule of a grammar\n" ++
  "build CONFIG\n" ++
  "    Generates every parser listed in a build" ++
  " configuration"

/- The text that answers the arguments. -/
def message : UsageError → String
  | help => helpText
  | version => "0.1.0"
  | noCommand => helpText
  | unknownCommand => "The command is not known"
  | misspelled => "An argument is almost a command"
  | missing => "A required argument was not given"
  | unknown => "An argument was not expected"
  | noValue => "An option was given without a value"
  | invalidValue => "An option was given an invalid value"
  | repeated => "An option was given more than once"

/- The arguments asked for the answer. -/
def isRequest : UsageError → Bool
  | help => true
  | version => true
  | _ => false

end UsageError

/- What was given. -/
structure Given where
  /- Names and values, in the order given. -/
  items : List (String × Option String)
  /- The number of operands among them. -/
  operands : Nat
  /- The option that still waits for its value. -/
  pending : Option String
deriving DecidableEq, Inhabited

namespace Given

/- Nothing was given. -/
def nothing : Given :=
  ⟨[], 0, none⟩

/- Take an option, with its value or waiting for it. -/
def withOption
    (given : Given)
    (name : String)
    (value : Option String) : Given :=
  { given with
    items := given.items ++ [(name, value)]
    pending := if value.isSome then none else some name }

/- Take the value that an option waits for. -/
def withValue
    (given : Given)
    (name value : String) : Given :=
  { given with
    items := given.items.dropLast ++ [(name, some value)]
    pending := none }

/- Take an operand. -/
def withOperand
    (given : Given)
    (name value : String) : Given :=
  { given with
    items := given.items ++ [(name, some value)]
    operands := given.operands + 1 }

/- Something was given under a name. -/
def has
    (given : Given)
    (name : String) : Bool :=
  given.items.any (·.1 == name)

/- The values given under a name. -/
def values
    (given : Given)
    (name : String) : List String :=
  given.items.filterMap
    (fun item => if item.1 = name then item.2 else none)

/- The value given under a name. -/
def value?
    (given : Given)
    (name : String) : Option String :=
  (given.values name).head?

end Given

end Arguments

end Abnf

------------------------------------------------------------
-- Scanning
------------------------------------------------------------

namespace Abnf

namespace Arguments

/- How the scan of some arguments ends. -/
inductive Scanned where
  /- All arguments are read. -/
  | whole (given : Given)
  /- A command stands before the rest. -/
  | command
      (name : String)
      (rest : List String)
      (given : Given)
deriving DecidableEq, Inhabited

/- Drop equals signs before a value. -/
def trimValue
    (value : List Char) : String :=
  String.ofList (value.dropWhile (· == '='))

/- An argument that starts with two dashes. -/
def takeLong
    (usage : Usage)
    (given : Given)
    (arg : List Char) : Except UsageError Given :=
  let body := arg.dropWhile (· == '-')
  let name := String.ofList (body.takeWhile (· != '='))
  let value :=
    match body.dropWhile (· != '=') with
    | [] => none
    | value => some (trimValue value)
  if usage.options.any (·.name == name) then
    .ok (given.withOption name value)
  else if name = "help" then
    .error .help
  else if name = "version" then
    .error .version
  else
    .error .unknown

/- An argument that starts with one dash. -/
def takeShort
    (usage : Usage)
    (given : Given)
    (arg : List Char) : Except UsageError Given :=
  match arg.dropWhile (· == '-') with
  | [] => .error .unknown
  | c :: value =>
      match usage.options.find? (·.short == some c) with
      | some opt =>
          .ok
            (given.withOption opt.name
              (if value.isEmpty then
                none
               else
                some (trimValue value)))
      | none =>
          if c = 'h' then .error .help
          else if c = 'V' then .error .version
          else .error .unknown

/-
  An argument that is no option. Where commands can follow,
  a word that is much like one is taken for a slip.
-/
def takeOperand
    (usage : Usage)
    (given : Given)
    (arg : String) : Except UsageError Given :=
  if usage.commands.any (Likeness.isClose arg) then
    .error .misspelled
  else
    match usage.operands[given.operands]? with
    | some name => .ok (given.withOperand name arg)
    | none => .error .unknown

/- The argument starts an option. -/
def startsOption
    (arg : List Char) : Bool :=
  arg.head? == some '-' && 1 < arg.length

/-
  Read arguments until a command comes. Behind two dashes
  alone, all arguments are operands.
-/
def scan
    (usage : Usage) :
    Bool → Given → List String →
      Except UsageError Scanned
  | _, given, [] => .ok (.whole given)
  | true, given, arg :: rest => do
      let given ← takeOperand usage given arg
      scan usage true given rest
  | false, given, arg :: rest =>
      let chars := arg.toList
      if arg = "--" then
        scan usage true given rest
      else if given.pending.isNone &&
          usage.commands.contains arg then
        .ok (.command arg rest given)
      else if startsOption chars then do
        let given ←
          if chars.take 2 = ['-', '-'] then
            takeLong usage given chars
          else
            takeShort usage given chars
        scan usage false given rest
      else
        match given.pending with
        | some name =>
            scan usage false (given.withValue name arg) rest
        | none => do
            let given ← takeOperand usage given arg
            scan usage false given rest

end Arguments

end Abnf

------------------------------------------------------------
-- Checks
------------------------------------------------------------

namespace Abnf

namespace Arguments

/- All that has to be given is given. -/
def checkRequired
    (usage : Usage)
    (given : Given) : Except UsageError Unit :=
  if usage.required.all given.has then
    .ok ()
  else
    .error .missing

/- What is given under a name has a value. -/
def checkPresent
    (given : Given)
    (name : String) : Except UsageError Unit :=
  if given.has name && (given.values name).isEmpty then
    .error .noValue
  else
    .ok ()

/- The values of an option are such as it can take. -/
def checkValues
    (given : Given)
    (opt : Opt) : Except UsageError Unit :=
  if opt.values.isEmpty ||
      (given.values opt.name).all opt.values.contains then
    .ok ()
  else
    .error .invalidValue

/- An option is given once at most. -/
def checkOnce
    (given : Given)
    (opt : Opt) : Except UsageError Unit :=
  if 1 < given.items.countP (·.1 == opt.name) then
    .error .repeated
  else
    .ok ()

/- What was given can be used. -/
def check
    (usage : Usage)
    (given : Given) : Except UsageError Unit := do
  checkRequired usage given
  for name in given.pending do
    checkPresent given name
  for opt in usage.options do
    checkPresent given opt.name
    checkValues given opt
    checkOnce given opt

end Arguments

end Abnf

------------------------------------------------------------
-- Commands
------------------------------------------------------------

namespace Abnf

/- What the tool is asked to do. -/
inductive Command where
  /- Make a parser of a grammar. -/
  | generate
      (grammar name : String)
      (doc output : Option String)
  /- Check files against a rule of a grammar. -/
  | check
      (grammar rule target : String)
      (matching threads : Option String)
  /- Make the parsers that a configuration lists. -/
  | build (config : String)
deriving DecidableEq, Inhabited

/- A command and where to keep the log. -/
structure Invocation where
  logFile : Option String
  logLevel : Level
  command : Command
deriving DecidableEq, Inhabited

namespace Invocation

open Arguments

/- The words for the levels of the log. -/
def levelWords : List (String × Level) :=
  [("error", .error), ("warn", .warn), ("info", .info),
   ("debug", .debug), ("trace", .trace)]

/- What can be given to the tool itself. -/
def toolUsage : Usage :=
  { options :=
      [⟨"logfile", none, []⟩,
       ⟨"loglevel", none, levelWords.map (·.1)⟩]
    operands := []
    required := []
    commands := ["gen", "check", "build", "help"] }

/- What can be given to make a parser. -/
def generateUsage : Usage :=
  { options :=
      [⟨"grammar", some 'g', []⟩,
       ⟨"name", some 'n', []⟩,
       ⟨"doc", some 'd', []⟩,
       ⟨"output", some 'o', []⟩]
    operands := []
    required := ["grammar", "name"]
    commands := [] }

/- What can be given to check files. -/
def checkUsage : Usage :=
  { options :=
      [⟨"grammar", some 'g', []⟩,
       ⟨"rule", some 'r', []⟩,
       ⟨"matching", some 'm', []⟩,
       ⟨"threads", some 't', []⟩]
    operands := ["target"]
    required := ["grammar", "rule", "target"]
    commands := [] }

/- What can be given to build by a configuration. -/
def buildUsage : Usage :=
  { options := []
    operands := ["config"]
    required := ["config"]
    commands := [] }

/- Read and check the arguments of a command. -/
def givenTo
    (usage : Usage)
    (args : List String) : Except UsageError Given := do
  match ← scan usage false .nothing args with
  | .whole given =>
      check usage given
      return given
  | .command _ _ _ => throw .unknown

/- The value given under a name that has to be given. -/
def needed
    (given : Given)
    (name : String) : Except UsageError String :=
  match given.value? name with
  | some value => .ok value
  | none => .error .missing

/- The command of a name with its arguments. -/
def commandOf
    (name : String)
    (args : List String) : Except UsageError Command := do
  match name with
  | "gen" =>
      let given ← givenTo generateUsage args
      return .generate (← needed given "grammar")
        (← needed given "name") (given.value? "doc")
        (given.value? "output")
  | "check" =>
      let given ← givenTo checkUsage args
      return .check (← needed given "grammar")
        (← needed given "rule") (← needed given "target")
        (given.value? "matching") (given.value? "threads")
  | "build" =>
      let given ← givenTo buildUsage args
      return .build (← needed given "config")
  | _ =>
      -- The help command names a command at most.
      match args with
      | [] => throw .help
      | [topic] =>
          if toolUsage.commands.contains topic then
            throw .help
          else
            throw .unknownCommand
      | _ => throw .unknownCommand

/- What some arguments ask for. -/
def ofArguments
    (args : List String) :
    Except UsageError Invocation := do
  match ← scan toolUsage false .nothing args with
  | .whole _ => throw .noCommand
  | .command name rest given =>
      let command ← commandOf name rest
      check toolUsage given
      let level :=
        (given.value? "loglevel").bind
          (fun word => levelWords.lookup word)
      return ⟨given.value? "logfile", level.getD .info,
        command⟩

end Invocation

end Abnf
