import Abnf.Command.Inspection

/-
  Checks of a file tree that stays as it is.

  A target is a text file, or a directory with the targets
  in it. Where the surroundings show a target and do not
  change, the files to check are the text files of the
  target whose names fit, in the order of the directories.
  The tally counts the files and those that the rule
  consumes.

  Key definitions include:
    * `Abnf.Target`
    * `Abnf.World.Shows`
    * `Abnf.Session.resultOf`
    * `Abnf.Program.Consumes`

  Main declarations:
    * `Abnf.Session.resultOf_select`
    * `Abnf.Session.resultOf_judgeAll`
-/

------------------------------------------------------------
-- Targets
------------------------------------------------------------

namespace Abnf

/- A file that can be read. -/
structure TextFile where
  path : String
  text : String
deriving DecidableEq, Inhabited

/- What a check is about. -/
inductive Target where
  | file (leaf : TextFile)
  /- A directory, with what is in it. -/
  | directory (path : String) (entries : List Target)

namespace Target

/- The path of a target. -/
def path : Target → String
  | file leaf => leaf.path
  | directory path _ => path

mutual

/- All files of a target. -/
def files : Target → List TextFile
  | file leaf => [leaf]
  | directory _ entries => filesOfAll entries

/- All files of some targets. -/
def filesOfAll : List Target → List TextFile
  | [] => []
  | entry :: entries => entry.files ++ filesOfAll entries

end

end Target

/- The name of a file fits, if a pattern is given. -/
def TextFile.fits
    (pattern : Option Pattern)
    (file : TextFile) : Bool :=
  (Path.fileName? file.path).any
    (fun name => pattern.all (·.isMatch name))

/- The files of a target whose names fit. -/
def Target.selected
    (pattern : Option Pattern)
    (target : Target) : List TextFile :=
  target.files.filter (·.fits pattern)

/-
  There is a target, whose ways down have at most a number
  of names, and all of it can be read.
-/
inductive World.Shows
    (world : World Id) : Nat → Target → Prop
  | file {depth : Nat} {file : TextFile} :
      world.isDirectory file.path = false →
      world.read file.path = .ok file.text →
      Shows world depth (.file file)
  | directory
      {depth : Nat} {path : String} {names : List String}
      {entries : List Target} :
      world.isDirectory path = true →
      world.list path = .ok names →
      entries.map Target.path =
        names.map (Path.join path) →
      (∀ entry ∈ entries, Shows world depth entry) →
      Shows world (depth + 1) (.directory path entries)

/- What a script gives in surroundings that do not change. -/
def Session.resultOf
    {α : Type}
    (session : Session Id)
    (script : Script Id α) : Except Aborted α :=
  script session

/- The rule at an entry consumes all of a text. -/
def Program.Consumes
    (program : Program)
    (entry : Nat)
    (text : String) : Prop :=
  (program.run entry (Text.bytes text) 0).stop? =
    some (Text.bytes text).size

instance
    (program : Program)
    (entry : Nat)
    (text : String) :
    Decidable (program.Consumes entry text) :=
  inferInstanceAs (Decidable (_ = _))

end Abnf

------------------------------------------------------------
-- The Files To Check
------------------------------------------------------------

namespace Abnf

namespace Target

theorem filesOfAll_eq_flatMap
    (entries : List Target) :
    filesOfAll entries = entries.flatMap files := by
  induction entries with
  | nil => rfl
  | cons entry entries ih =>
      rw [filesOfAll, ih, List.flatMap_cons]

theorem selected_directory
    (pattern : Option Pattern)
    (path : String)
    (entries : List Target) :
    (directory path entries).selected pattern =
      entries.flatMap (selected pattern) := by
  rw [selected, files, filesOfAll_eq_flatMap,
    List.filter_flatMap]
  rfl

end Target

/- The surroundings show each file with its text. -/
theorem World.Shows.read_of_mem
    {world : World Id}
    {depth : Nat}
    {target : Target}
    (h : world.Shows depth target)
    {file : TextFile}
    (hFile : file ∈ target.files) :
    world.read file.path = .ok file.text := by
  induction h with
  | file _ hRead =>
      rw [Target.files, List.mem_singleton] at hFile
      rw [hFile]
      exact hRead
  | directory _ _ _ _ ih =>
      rw [Target.files, Target.filesOfAll_eq_flatMap]
        at hFile
      rcases List.mem_flatMap.mp hFile with
        ⟨entry, hEntry, hInside⟩
      exact ih entry hEntry hInside

namespace Session

variable
  {session : Session Id}
  {pattern : Option Pattern}

section Results

variable {α β : Type}

theorem resultOf_bind
    {script : Script Id α}
    {next : α → Script Id β}
    {value : α}
    (h : session.resultOf script = .ok value) :
    session.resultOf (script >>= next) =
      session.resultOf (next value) := by
  change
    ExceptT.bindCont (fun value => next value session)
      (session.resultOf script) = _
  rw [h]
  rfl

theorem resultOf_ask
    {step : World Id → Id α}
    {value : α}
    (h : step session.world = value) :
    session.resultOf (Script.ask step) = .ok value :=
  congrArg Except.ok h

theorem resultOf_mapM
    {f : α → Script Id β}
    {g : α → β}
    (items : List α)
    (h :
      ∀ item ∈ items,
        session.resultOf (f item) = .ok (g item)) :
    session.resultOf (items.mapM f) = .ok (items.map g) := by
  induction items with
  | nil => rfl
  | cons item items ih =>
      rw [List.mapM_cons,
        resultOf_bind (h item List.mem_cons_self),
        resultOf_bind
          (ih (fun other hOther =>
            h other (List.mem_cons_of_mem item hOther)))]
      rfl

end Results

theorem selectFile_eq
    (file : TextFile) :
    Script.selectFile pattern file.path =
      ([file].filter (·.fits pattern)).map (·.path) := by
  unfold Script.selectFile TextFile.fits
  cases hName : Path.fileName? file.path with
  | none => simp [hName]
  | some name =>
      by_cases hFits : pattern.all (·.isMatch name)
      · simp [hName, hFits]
      · simp [hName, hFits]

/- The files to check are those of the target that fit. -/
theorem resultOf_selectWithin
    {depth : Nat}
    {target : Target}
    (h : session.world.Shows depth target) :
    session.resultOf
        (Script.selectWithin pattern (depth + 1)
          target.path) =
      .ok ((target.selected pattern).map (·.path)) := by
  induction h with
  | @file depth leaf hFile hRead =>
      rw [Script.selectWithin,
        resultOf_bind (resultOf_ask hFile),
        if_neg Bool.false_ne_true]
      exact congrArg Except.ok (selectFile_eq leaf)
  | @directory depth path names entries hDirectory hList
      hNames hShows ih =>
      rw [Script.selectWithin,
        resultOf_bind (resultOf_ask hDirectory),
        if_pos rfl, resultOf_bind (resultOf_ask hList)]
      -- The names stand for the targets in the directory.
      have hFound :
          session.resultOf
              ((names.map (Path.join path)).mapM
                (Script.selectWithin pattern (depth + 1))) =
            .ok
              (entries.map
                (fun entry =>
                  (entry.selected pattern).map (·.path))) := by
        rw [← hNames, List.mapM_map]
        exact resultOf_mapM entries ih
      rw [List.mapM_map] at hFound
      refine (resultOf_bind hFound).trans ?_
      refine congrArg Except.ok ?_
      rw [Target.selected_directory, List.map_flatMap,
        List.flatMap_def]

/- The same at the start, where all ways down are allowed. -/
theorem resultOf_select
    {target : Target}
    (h : session.world.Shows session.world.depth target) :
    session.resultOf (Script.select pattern target.path) =
      .ok ((target.selected pattern).map (·.path)) :=
  (resultOf_bind (resultOf_ask rfl)).trans
    (resultOf_selectWithin h)

end Session

end Abnf

------------------------------------------------------------
-- Verdicts On The Files
------------------------------------------------------------

namespace Abnf

theorem Verdict.ofText_eq_passed_iff
    {program : Program}
    {entry : Nat}
    {text : String} :
    Verdict.ofText program entry text = .passed ↔
      program.Consumes entry text := by
  unfold Verdict.ofText Program.Consumes
  dsimp only
  cases (program.run entry (Text.bytes text) 0).stop? with
  | none => simp
  | some stop =>
      by_cases hStop : stop = (Text.bytes text).size
      · simp [hStop]
      · simp [hStop]

namespace Tally

/- What is counted in a list of verdicts. -/
theorem foldl_add
    (verdicts : List Verdict)
    (tally : Tally) :
    verdicts.foldl add tally =
      ⟨tally.total + verdicts.length,
       tally.matched + verdicts.count .passed,
       tally.failed + verdicts.countP (· != .passed)⟩ := by
  induction verdicts generalizing tally with
  | nil => rfl
  | cons verdict verdicts ih =>
      rw [List.foldl_cons, ih]
      by_cases hVerdict : verdict = .passed
      · simp [add, hVerdict]
        omega
      · simp [add, hVerdict]
        omega

theorem ofVerdicts_eq
    (verdicts : List Verdict) :
    ofVerdicts verdicts =
      ⟨verdicts.length, verdicts.count .passed,
       verdicts.countP (· != .passed)⟩ := by
  rw [ofVerdicts, foldl_add]
  simp

end Tally

namespace Session

variable {session : Session Id}

/- The log gets what it keeps, and nothing else happens. -/
theorem resultOf_record
    (record : Record) :
    session.resultOf (Script.record record) = .ok () := by
  rw [Script.record,
    resultOf_bind (rfl : session.resultOf read = .ok session)]
  cases session.log with
  | none => rfl
  | some log =>
      by_cases hKeeps : log.keeps record
      · dsimp only
        rw [if_pos hKeeps]
        rfl
      · dsimp only
        rw [if_neg hKeeps]
        rfl

theorem resultOf_report
    (report : Report) :
    session.resultOf (Script.report report) = .ok () := by
  have hColoured :
      session.resultOf Script.isColoured =
        .ok session.coloured :=
    rfl
  rw [Script.report, resultOf_bind hColoured, Script.print,
    resultOf_bind (resultOf_ask rfl)]
  exact resultOf_record report.record

theorem resultOf_judge
    (program : Program)
    (entry : Nat)
    (rule path : String) :
    session.resultOf
        (Script.judge program entry rule path) =
      .ok
        (.ofReading program entry
          (session.world.read path)) := by
  rw [Script.judge, resultOf_bind (resultOf_ask rfl),
    resultOf_bind (resultOf_report _)]
  refine congrArg Except.ok ?_
  cases session.world.read path with
  | error fault => rfl
  | ok text => rfl

/-
  The tally of a target counts the files that fit, and those
  that the rule consumes.
-/
theorem resultOf_judgeAll
    {target : Target}
    (h : session.world.Shows session.world.depth target)
    (program : Program)
    (entry : Nat)
    (rule : String)
    (pattern : Option Pattern) :
    session.resultOf
        (Script.judgeAll program entry rule pattern
          target.path) =
      .ok
        (.ofVerdicts
          ((target.selected pattern).map
            (fun file =>
              .ofText program entry file.text))) := by
  have hVerdicts :
      session.resultOf
          (((target.selected pattern).map (·.path)).mapM
            (Script.judge program entry rule)) =
        .ok
          ((target.selected pattern).map
            (fun file =>
              .ofText program entry file.text)) := by
    rw [List.mapM_map]
    refine resultOf_mapM _ ?_
    intro file hFile
    have hRead :=
      h.read_of_mem (List.mem_filter.mp hFile).1
    rw [Function.comp_apply, resultOf_judge, hRead]
    rfl
  rw [Script.judgeAll, resultOf_bind (resultOf_select h),
    resultOf_bind hVerdicts]
  rfl

end Session

end Abnf
