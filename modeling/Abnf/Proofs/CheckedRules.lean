import Abnf.Proofs.Acceptance
import Abnf.Proofs.GrammarSafety
import Abnf.Proofs.GrammarTrees

/-
  Rules that are read from a text are well formed.

  Quoted texts, character numbers, options and further
  alternatives are built without a check. That they pass it
  is kept by every part that is taken: the elements in the
  frames are well formed, and so are the rules that are
  complete. Bounds fit into counts since they were read as
  counts. Names are new when a rule is defined, and start
  with a letter since the grammar says so. Only names in
  angle brackets may start in another way.

  Key definitions include:
    * `Abnf.Element.IsSound`
    * `Abnf.Rule.IsProper`
    * `Abnf.Grammar.Frame.IsSound`
    * `Abnf.Grammar.Assembly.IsSound`

  Main declarations:
    * `Abnf.Grammar.isSound_of_readCharVal`
    * `Abnf.Grammar.isSound_of_readNumVal`
    * `Abnf.Grammar.areProper_define`
    * `Abnf.Grammar.Assembly.isSound_foldl_observe`
    * `Abnf.Grammar.areProper_of_readFrom`
    * `Abnf.Grammar.areProper_readFrom`
-/

------------------------------------------------------------
-- Sound Elements
------------------------------------------------------------

namespace Abnf

namespace Element

/-
  The element is well formed, its bounds fit into counts and
  the names in it are good ones.
-/
structure IsSound
    (element : Element)
    (good : String → Prop) : Prop where
  check : element.check = .ok ()
  counts : element.countsFit = true
  names : ∀ name ∈ element.names, good name

variable {good : String → Prop}
variable {parts : List Element}

theorem allCountsFit_iff :
    allCountsFit parts = true ↔
      ∀ part ∈ parts, part.countsFit = true := by
  induction parts with
  | nil => simp [allCountsFit]
  | cons part parts ih =>
      rw [allCountsFit, Bool.and_eq_true, ih,
        List.forall_mem_cons]

theorem forall_mem_namesOfAll_iff :
    (∀ name ∈ namesOfAll parts, good name) ↔
      ∀ part ∈ parts, ∀ name ∈ part.names, good name := by
  induction parts with
  | nil => simp [namesOfAll]
  | cons part parts ih =>
      rw [namesOfAll, List.forall_mem_append, ih,
        List.forall_mem_cons]

theorem forall_isSound_iff :
    (∀ part ∈ parts, part.IsSound good) ↔
      (∀ part ∈ parts, part.check = .ok ()) ∧
        allCountsFit parts = true ∧
        ∀ name ∈ namesOfAll parts, good name := by
  rw [allCountsFit_iff, forall_mem_namesOfAll_iff]
  constructor
  · intro h
    exact
      ⟨fun part hPart => (h part hPart).check,
        fun part hPart => (h part hPart).counts,
        fun part hPart => (h part hPart).names⟩
  · intro h part hPart
    exact
      ⟨h.1 part hPart, h.2.1 part hPart, h.2.2 part hPart⟩

theorem isSound_terminal
    (set : CharSet) : (terminal set).IsSound good :=
  ⟨rfl, rfl, List.forall_mem_nil _⟩

theorem isSound_repetition
    {min : Nat}
    {max : Option Nat}
    {body : Element}
    (hOrder : ∀ limit, max = some limit → min ≤ limit)
    (hFit : Grammar.boundsFit min max = true)
    (hBody : body.IsSound good) :
    (repetition min max body).IsSound good :=
  ⟨check_repetition_iff.mpr ⟨hOrder, hBody.check⟩,
    by rw [countsFit, hFit, hBody.counts]; rfl,
    hBody.names⟩

theorem isSound_concatenation_iff :
    (concatenation parts).IsSound good ↔
      2 ≤ parts.length ∧
        ∀ part ∈ parts, part.IsSound good := by
  rw [forall_isSound_iff, ← and_assoc,
    ← check_concatenation_iff]
  exact
    ⟨fun h => ⟨h.check, h.counts, h.names⟩,
      fun h => ⟨h.1, h.2.1, h.2.2⟩⟩

theorem isSound_alternation_iff :
    (alternation parts).IsSound good ↔
      2 ≤ parts.length ∧
        ∀ part ∈ parts, part.IsSound good := by
  rw [forall_isSound_iff, ← and_assoc,
    ← check_alternation_iff]
  exact
    ⟨fun h => ⟨h.check, h.counts, h.names⟩,
      fun h => ⟨h.1, h.2.1, h.2.2⟩⟩

end Element

end Abnf

------------------------------------------------------------
-- Elements Without A Check
------------------------------------------------------------

namespace Abnf

namespace Grammar

open Element

variable {good : String → Prop}

/- A series of terminals has as many as it needs. -/
theorem isSound_seriesOf
    {sets : List CharSet}
    (hSome : sets ≠ []) :
    (seriesOf (sets.map .terminal)).IsSound good := by
  cases sets with
  | nil => exact absurd rfl hSome
  | cons s rest =>
      cases rest with
      | nil => exact isSound_terminal s
      | cons t rest =>
          change
            (concatenation
              ((s :: t :: rest).map .terminal)).IsSound good
          rw [isSound_concatenation_iff]
          refine ⟨by simp, ?_⟩
          intro part hPart
          rcases List.mem_map.mp hPart with ⟨set, _, rfl⟩
          exact isSound_terminal set

theorem liftElement_eq_ok_iff
    {α : Type}
    {value : Except ElementError α}
    {a : α} :
    ReadError.liftElement value = .ok a ↔ value = .ok a := by
  cases value with
  | error cause => simp [ReadError.liftElement]
  | ok a' => simp [ReadError.liftElement]

theorem isSound_of_checkedRuleName
    {name : String}
    {element : Element}
    (hGood : good name)
    (h : checkedRuleName name = .ok element) :
    element.IsSound good := by
  rcases bind_eq_ok_iff.mp h with ⟨_, hName, hElement⟩
  cases hElement
  exact ⟨hName, rfl, List.forall_mem_singleton.mpr hGood⟩

/- The name in angle brackets. -/
def proseName
    (text : List Char) : String :=
  String.ofList (trimBlanks (inner text))

theorem isSound_of_readProseVal
    {text : List Char}
    {element : Element}
    (hGood : good (proseName text))
    (h : readProseVal text = .ok element) :
    element.IsSound good := by
  unfold readProseVal at h
  split at h
  · cases h
  · exact
      isSound_of_checkedRuleName hGood
        (liftElement_eq_ok_iff.mp h)

theorem isSound_of_readCharVal
    {text : List Char}
    {element : Element}
    (h : readCharVal text = .ok element) :
    element.IsSound good := by
  unfold readCharVal at h
  dsimp only at h
  split at h
  · cases h
  · rcases bind_eq_ok_iff.mp h with ⟨sets, _, hSets⟩
    split at hSets
    · cases hSets
      exact isSound_terminal CharSet.empty
    · rename_i hSome
      cases hSets
      exact isSound_seriesOf hSome

theorem splitDots_ne_nil
    (text : List Char) : splitDots text ≠ [] := by
  cases text with
  | nil => exact List.cons_ne_nil _ _
  | cons c text =>
      rw [splitDots, List.foldr_cons]
      split
      · exact List.cons_ne_nil _ _
      · split
        · exact List.cons_ne_nil _ _
        · exact List.cons_ne_nil _ _

theorem isSound_of_readNumVal
    {base : Nat}
    {text : List Char}
    {element : Element}
    (h : readNumVal base text = .ok element) :
    element.IsSound good := by
  unfold readNumVal at h
  split at h
  · rcases bind_eq_ok_iff.mp h with ⟨first, _, h⟩
    rcases bind_eq_ok_iff.mp h with ⟨last, _, h⟩
    split at h
    · cases h
    · cases h
      exact isSound_terminal _
  · rename_i digits _
    rcases bind_eq_ok_iff.mp h with ⟨sets, hSets, h⟩
    cases h
    apply isSound_seriesOf
    rintro rfl
    have hLength := length_of_mapM_eq_ok hSets
    exact
      splitDots_ne_nil digits
        (List.length_eq_zero_iff.mp hLength.symm)

/- A count that is read is below the limit of counts. -/
theorem readCount_below
    {digits : List Char}
    {count : Option Nat}
    (h : readCount digits = .ok count) :
    count.all (· < countLimit) = true := by
  unfold readCount at h
  split at h
  · cases h
    rfl
  · split at h
    · rename_i value hValue
      cases h
      unfold numberBelow? at hValue
      split at hValue
      · cases hValue
      · exact (Option.filter_eq_some_iff.mp hValue).2
    · cases h

/- Bounds that are read fit into counts. -/
theorem boundsFit_of_readRepeat
    {text : List Char}
    {min : Nat}
    {max : Option Nat}
    (h : readRepeat text = .ok (min, max)) :
    boundsFit min max = true := by
  rw [boundsFit, Bool.and_eq_true]
  unfold readRepeat at h
  split at h
  · rcases bind_eq_ok_iff.mp h with ⟨low, hLow, h⟩
    rcases bind_eq_ok_iff.mp h with ⟨high, hHigh, h⟩
    cases h
    refine ⟨?_, readCount_below hHigh⟩
    cases low with
    | none => rfl
    | some count => exact readCount_below hLow
  · rcases bind_eq_ok_iff.mp h with ⟨count, hCount, h⟩
    split at h
    · cases h
      exact ⟨readCount_below hCount, readCount_below hCount⟩
    · cases h

end Grammar

end Abnf

------------------------------------------------------------
-- Definitions
------------------------------------------------------------

namespace Abnf

/-
  A rule is well formed, its name starts with a letter, its
  bounds fit into counts, and it refers to good names.
-/
structure Rule.IsProper
    (good : String → Prop)
    (rule : Rule) : Prop where
  check : rule.check = .ok ()
  letter : startsWithLetter rule.name = true
  counts : rule.element.countsFit = true
  names : ∀ name ∈ rule.element.names, good name

/- Such rules under different names. -/
structure AreProper
    (good : String → Prop)
    (rules : List Rule) : Prop where
  proper : ∀ rule ∈ rules, rule.IsProper good
  nodup : (rules.map (·.name)).Nodup

variable {good : String → Prop}

theorem areProper_nil : AreProper good [] :=
  ⟨List.forall_mem_nil _, List.nodup_nil⟩

namespace Grammar

open Element

variable {rules rules' : List Rule}
variable {name : String}
variable {element addition : Element}

theorem isSound_addAlternative
    (hElement : element.IsSound good)
    (hAddition : addition.IsSound good) :
    (addAlternative element addition).IsSound good := by
  unfold addAlternative
  split
  · rw [isSound_alternation_iff] at hElement ⊢
    refine ⟨?_, ?_⟩
    · rw [List.length_append]
      omega
    · intro part hPart
      rcases List.mem_append.mp hPart with hOld | hNew
      · exact hElement.2 part hOld
      · rw [List.mem_singleton.mp hNew]
        exact hAddition
  · rw [isSound_alternation_iff]
    refine ⟨Nat.le_refl 2, ?_⟩
    rw [List.forall_mem_cons, List.forall_mem_singleton]
    exact ⟨hElement, hAddition⟩

@[simp] theorem map_name_extendRule
    (name : String)
    (addition : Element)
    (rules : List Rule) :
    (extendRule name addition rules).map (·.name) =
      rules.map (·.name) := by
  induction rules with
  | nil => rfl
  | cons rule rest ih =>
      rw [extendRule]
      split
      · rfl
      · rw [List.map_cons, ih, List.map_cons]

theorem Rule.check_eq_ok_iff
    {rule : Rule} :
    rule.check = .ok () ↔
      checkName rule.name = .ok () ∧
        rule.element.check = .ok () := by
  rw [Rule.check, bind_eq_ok_iff]
  exact
    ⟨fun h => ⟨h.choose_spec.1, h.choose_spec.2⟩,
      fun h => ⟨(), h.1, h.2⟩⟩

theorem areProper_extendRule
    (h : AreProper good rules)
    (hAddition : addition.IsSound good) :
    AreProper good (extendRule name addition rules) := by
  refine ⟨?_, by rw [map_name_extendRule]; exact h.nodup⟩
  have hProper := h.proper
  clear h
  induction rules with
  | nil => exact List.forall_mem_nil _
  | cons rule rest ih =>
      rw [List.forall_mem_cons] at hProper
      rw [extendRule]
      split
      · rw [List.forall_mem_cons]
        have hCheck :=
          Rule.check_eq_ok_iff.mp hProper.1.check
        have hAll :=
          isSound_addAlternative
            ⟨hCheck.2, hProper.1.counts, hProper.1.names⟩
            hAddition
        exact
          ⟨⟨Rule.check_eq_ok_iff.mpr ⟨hCheck.1, hAll.check⟩,
              hProper.1.letter, hAll.counts, hAll.names⟩,
            hProper.2⟩
      · rw [List.forall_mem_cons]
        exact ⟨hProper.1, ih hProper.2⟩

/- A definition that is taken leaves the rules proper. -/
theorem areProper_define
    {incremental : Bool}
    (h : AreProper good rules)
    (hLetter : startsWithLetter name = true)
    (hElement : element.IsSound good)
    (hDefine :
      define rules name incremental element = .ok rules') :
    AreProper good rules' := by
  unfold define at hDefine
  split at hDefine
  · cases hDefine
    exact areProper_extendRule h hElement
  · cases hDefine
  · cases hDefine
  · rename_i hNew
    rcases bind_eq_ok_iff.mp hDefine with ⟨rule, hRule, hEq⟩
    cases hEq
    rcases bind_eq_ok_iff.mp (liftElement_eq_ok_iff.mp hRule)
      with ⟨_, hName, hEq⟩
    cases hEq
    constructor
    · intro rule hMember
      rcases List.mem_append.mp hMember with hOld | hLast
      · exact h.proper rule hOld
      · rw [List.mem_singleton.mp hLast]
        exact
          ⟨Rule.check_eq_ok_iff.mpr ⟨hName, hElement.check⟩,
            hLetter, hElement.counts, hElement.names⟩
    · rw [List.map_append, List.nodup_append]
      refine ⟨h.nodup, List.nodup_singleton _, ?_⟩
      rintro other hOther _ hSame rfl
      rw [List.map_singleton, List.mem_singleton] at hSame
      rcases List.mem_map.mp hOther with
        ⟨rule, hRule, hName⟩
      refine Bool.eq_false_iff.mp hNew ?_
      rw [List.any_eq_true]
      exact
        ⟨rule, hRule, by rw [hName, hSame, beq_self_eq_true]⟩

end Grammar

end Abnf

------------------------------------------------------------
-- Sound Assemblies
------------------------------------------------------------

namespace Abnf

namespace Grammar

variable {good : String → Prop}

/-
  What a frame holds is well formed, a rule has a name that
  starts with a letter, and bounds fit into counts.
-/
def Frame.IsSound
    (good : String → Prop) : Frame → Prop
  | rule name _ element =>
      (∀ given, name = some given →
        startsWithLetter given = true) ∧
      ∀ whole, element = some whole → whole.IsSound good
  | elements parts => ∀ part ∈ parts, part.IsSound good
  | repetition bounds parts =>
      (∀ min max, bounds = some (min, max) →
        boundsFit min max = true) ∧
      ∀ part ∈ parts, part.IsSound good

namespace Assembly

/- All that has been made so far is well formed. -/
structure IsSound
    (good : String → Prop)
    (made : Assembly) : Prop where
  frames : ∀ frame ∈ made.frames, frame.IsSound good
  rules : AreProper good made.rules

theorem isSound_begin
    (start : Nat) : (begin start).IsSound good :=
  ⟨List.forall_mem_nil _, areProper_nil⟩

/- The step makes a sound assembly, if it makes one. -/
def MakesSound
    (good : String → Prop)
    (step : Except ReadError Assembly) : Prop :=
  ∀ next, step = .ok next → next.IsSound good

variable {made : Assembly}
variable {element : Element}

theorem makesSound_ok
    {next : Assembly}
    (h : next.IsSound good) : MakesSound good (.ok next) := by
  rintro next ⟨⟩
  exact h

theorem makesSound_error
    (error : ReadError) : MakesSound good (.error error) := by
  rintro next ⟨⟩

theorem makesSound_bind
    {α : Type}
    {value : Except ReadError α}
    {step : α → Except ReadError Assembly}
    (h : ∀ a, value = .ok a → MakesSound good (step a)) :
    MakesSound good (value >>= step) := by
  cases value with
  | error error => exact makesSound_error error
  | ok a => exact h a rfl

/- The innermost frame gives way to another one. -/
theorem makesSound_cons
    {frame frame' : Frame}
    {rest : List Frame}
    (h : made.IsSound good)
    (hFrames : made.frames = frame :: rest)
    (hFrame : frame.IsSound good → frame'.IsSound good) :
    MakesSound good
      (.ok { made with frames := frame' :: rest }) := by
  have hAll := h.frames
  rw [hFrames, List.forall_mem_cons] at hAll
  refine makesSound_ok ⟨?_, h.rules⟩
  rw [List.forall_mem_cons]
  exact ⟨hFrame hAll.1, hAll.2⟩

theorem makesSound_push
    (h : made.IsSound good)
    (hElement : element.IsSound good) :
    MakesSound good (made.push element) := by
  have hMore :
      ∀ parts : List Element,
        (∀ part ∈ parts, part.IsSound good) →
        ∀ part ∈ parts ++ [element], part.IsSound good := by
    intro parts hParts
    rw [List.forall_mem_append, List.forall_mem_singleton]
    exact ⟨hParts, hElement⟩
  unfold push
  split
  · rename_i hFrames
    exact makesSound_cons h hFrames (hMore _)
  · rename_i hFrames
    exact
      makesSound_cons h hFrames
        (fun hOld => ⟨hOld.1, hMore _ hOld.2⟩)
  · exact makesSound_error _

theorem makesSound_closeRule
    {frame : Option Frame}
    (h : made.IsSound good)
    (hFrame : ∀ closed ∈ frame, closed.IsSound good) :
    MakesSound good (made.closeRule frame) := by
  unfold closeRule
  split
  · have hClosed := hFrame _ rfl
    apply makesSound_bind
    intro rules hDefine
    refine makesSound_ok ⟨h.frames, ?_⟩
    exact
      areProper_define h.rules (hClosed.1 _ rfl)
        (hClosed.2 _ rfl) hDefine
  · exact makesSound_error _

theorem makesSound_takeName
    {name : String}
    (h : made.IsSound good)
    (hLetter : startsWithLetter name = true)
    (hGood : good name) :
    MakesSound good (made.takeName name) := by
  unfold takeName
  split
  · rename_i hFrames
    refine makesSound_cons h hFrames (fun hOld => ⟨?_, hOld.2⟩)
    rintro given ⟨⟩
    exact hLetter
  · apply makesSound_bind
    intro element hElement
    exact
      makesSound_push h
        (isSound_of_checkedRuleName hGood
          (liftElement_eq_ok_iff.mp hElement))

theorem makesSound_takeSign
    (h : made.IsSound good)
    (incremental : Bool) :
    MakesSound good (made.takeSign incremental) := by
  unfold takeSign
  split
  · rename_i hFrames
    exact makesSound_cons h hFrames id
  · exact makesSound_error _

/- What a closed frame holds is well formed. -/
theorem isSound_of_partsOf
    {frame : Option Frame}
    {parts : List Element}
    (hFrame : ∀ closed ∈ frame, closed.IsSound good)
    (hParts : Frame.partsOf frame = .ok parts) :
    ∀ part ∈ parts, part.IsSound good := by
  unfold Frame.partsOf at hParts
  split at hParts
  · cases hParts
    exact hFrame _ rfl
  · cases hParts

theorem isSound_of_onlyOf
    {parts : List Element}
    (hParts : ∀ part ∈ parts, part.IsSound good)
    (hOnly : onlyOf parts = .ok element) :
    element.IsSound good := by
  unfold onlyOf at hOnly
  split at hOnly
  · cases hOnly
    exact hParts element List.mem_cons_self
  · cases hOnly

theorem makesSound_takeElements
    {frame : Option Frame}
    (h : made.IsSound good)
    (hFrame : ∀ closed ∈ frame, closed.IsSound good) :
    MakesSound good (made.takeElements frame) := by
  unfold takeElements
  apply makesSound_bind
  intro parts hParts
  apply makesSound_bind
  intro element hOnly
  split
  · rename_i hFrames
    refine makesSound_cons h hFrames (fun hOld => ⟨hOld.1, ?_⟩)
    rintro whole ⟨⟩
    exact
      isSound_of_onlyOf (isSound_of_partsOf hFrame hParts)
        hOnly
  · exact makesSound_error _

theorem makesSound_takeSeries
    {frame : Option Frame}
    {series : List Element → Except ElementError Element}
    (h : made.IsSound good)
    (hFrame : ∀ closed ∈ frame, closed.IsSound good)
    (hSeries :
      ∀ parts element,
        (∀ part ∈ parts, part.IsSound good) →
        series parts = .ok element →
        element.IsSound good) :
    MakesSound good (made.takeSeries frame series) := by
  unfold takeSeries
  apply makesSound_bind
  intro parts hParts
  have hAll := isSound_of_partsOf hFrame hParts
  split
  · exact makesSound_push h (hAll _ List.mem_cons_self)
  · apply makesSound_bind
    intro element hElement
    exact
      makesSound_push h
        (hSeries parts element hAll
          (liftElement_eq_ok_iff.mp hElement))

theorem isSound_of_checkedConcatenation
    (parts : List Element)
    (element : Element)
    (hParts : ∀ part ∈ parts, part.IsSound good)
    (h : Element.checkedConcatenation parts = .ok element) :
    element.IsSound good := by
  rcases bind_eq_ok_iff.mp h with ⟨_, hCount, hElement⟩
  cases hElement
  rw [Element.isSound_concatenation_iff]
  exact ⟨Element.checkCount_eq_ok_iff.mp hCount, hParts⟩

theorem isSound_of_checkedAlternation
    (parts : List Element)
    (element : Element)
    (hParts : ∀ part ∈ parts, part.IsSound good)
    (h : Element.checkedAlternation parts = .ok element) :
    element.IsSound good := by
  rcases bind_eq_ok_iff.mp h with ⟨_, hCount, hElement⟩
  cases hElement
  rw [Element.isSound_alternation_iff]
  exact ⟨Element.checkCount_eq_ok_iff.mp hCount, hParts⟩

theorem makesSound_takeRepetition
    {frame : Option Frame}
    (h : made.IsSound good)
    (hFrame : ∀ closed ∈ frame, closed.IsSound good) :
    MakesSound good (made.takeRepetition frame) := by
  unfold takeRepetition
  split
  · apply makesSound_bind
    intro element hOnly
    have hClosed := hFrame _ rfl
    have hElement := isSound_of_onlyOf hClosed.2 hOnly
    split
    · exact makesSound_push h hElement
    · apply makesSound_bind
      intro repeated hRepeated
      rcases
          bind_eq_ok_iff.mp
            (liftElement_eq_ok_iff.mp hRepeated) with
        ⟨_, hBounds, hEq⟩
      cases hEq
      apply makesSound_push h
      exact
        Element.isSound_repetition
          (Element.checkBounds_eq_ok_iff.mp hBounds)
          (hClosed.1 _ _ rfl) hElement
  · exact makesSound_error _

theorem makesSound_takeBounds
    (h : made.IsSound good)
    (text : List Char) :
    MakesSound good (made.takeBounds text) := by
  unfold takeBounds
  apply makesSound_bind
  intro bounds hBounds
  split
  · rename_i hFrames
    refine makesSound_cons h hFrames (fun hOld => ⟨?_, hOld.2⟩)
    rintro min max ⟨⟩
    exact boundsFit_of_readRepeat hBounds
  · exact makesSound_error _

theorem makesSound_takeOption
    {frame : Option Frame}
    (h : made.IsSound good)
    (hFrame : ∀ closed ∈ frame, closed.IsSound good) :
    MakesSound good (made.takeOption frame) := by
  unfold takeOption
  apply makesSound_bind
  intro parts hParts
  apply makesSound_bind
  intro element hOnly
  apply makesSound_push h
  exact
    Element.isSound_repetition (fun _ _ => Nat.zero_le _) rfl
      (isSound_of_onlyOf (isSound_of_partsOf hFrame hParts)
        hOnly)

theorem makesSound_takeValue
    {value : Except ReadError Element}
    (h : made.IsSound good)
    (hValue :
      ∀ element, value = .ok element →
        element.IsSound good) :
    MakesSound good (made.takeValue value) := by
  unfold takeValue
  apply makesSound_bind
  intro element hElement
  exact makesSound_push h (hValue element hElement)

/-
  Whatever part has matched, what it makes is sound. Only of
  names something has to be known: that they are good, and
  start with a letter unless they stand in brackets.
-/
theorem makesSound_assemble
    {part : Part}
    {text : List Char}
    {frame : Option Frame}
    (h : made.IsSound good)
    (hFrame : ∀ closed ∈ frame, closed.IsSound good)
    (hName :
      part = .rulename →
        startsWithLetter (String.ofList text) = true ∧
          good (String.ofList text))
    (hProse : part = .proseVal → good (proseName text)) :
    MakesSound good (made.assemble part text frame) := by
  cases part with
  | rule => exact makesSound_closeRule h hFrame
  | rulename =>
      have hBoth := hName rfl
      exact makesSound_takeName h hBoth.1 hBoth.2
  | definedAs => exact makesSound_takeSign h _
  | elements => exact makesSound_takeElements h hFrame
  | alternation =>
      exact
        makesSound_takeSeries h hFrame
          isSound_of_checkedAlternation
  | concatenation =>
      exact
        makesSound_takeSeries h hFrame
          isSound_of_checkedConcatenation
  | repetition => exact makesSound_takeRepetition h hFrame
  | repeatCount => exact makesSound_takeBounds h text
  | option => exact makesSound_takeOption h hFrame
  | charVal =>
      exact
        makesSound_takeValue h
          (fun _ => isSound_of_readCharVal)
  | binVal =>
      exact
        makesSound_takeValue h
          (fun _ => isSound_of_readNumVal)
  | decVal =>
      exact
        makesSound_takeValue h
          (fun _ => isSound_of_readNumVal)
  | hexVal =>
      exact
        makesSound_takeValue h
          (fun _ => isSound_of_readNumVal)
  | proseVal =>
      exact
        makesSound_takeValue h
          (fun _ => isSound_of_readProseVal (hProse rfl))
  | other => exact makesSound_ok h

/- A frame that is closed was sound, and the rest stays so. -/
theorem isSound_close
    (h : made.IsSound good)
    (part : Part) :
    (∀ closed ∈ (made.close part).1, closed.IsSound good) ∧
    (made.close part).2.IsSound good := by
  unfold close
  split
  · rename_i frame rest _ hFrames
    have hAll := h.frames
    rw [hFrames, List.forall_mem_cons] at hAll
    refine ⟨?_, hAll.2, h.rules⟩
    rintro closed ⟨⟩
    exact hAll.1
  · exact ⟨by rintro _ ⟨⟩, h⟩

/-
  Names that have matched start with a letter, and they are
  good. So are those in angle brackets.
-/
structure NamesAreGood
    (good : String → Prop)
    (input : Array UInt8)
    (event : Event) : Prop where
  plain :
    ∀ start stop text,
      event = .exit "rulename" start (some stop) →
      slice? input start stop = some text →
      startsWithLetter (String.ofList text) = true ∧
        good (String.ofList text)
  bracketed :
    ∀ start stop text,
      event = .exit "prose-val" start (some stop) →
      slice? input start stop = some text →
      good (proseName text)

theorem eq_of_ofName_eq_rulename
    {name : String}
    (h : Part.ofName name = .rulename) :
    name = "rulename" := by
  unfold Part.ofName at h
  split at h <;> first | rfl | cases h

theorem eq_of_ofName_eq_proseVal
    {name : String}
    (h : Part.ofName name = .proseVal) :
    name = "prose-val" := by
  unfold Part.ofName at h
  split at h <;> first | rfl | cases h

/- There is nothing in a frame that is opened. -/
theorem isSound_of_frame?
    {part : Part}
    {frame : Frame}
    (h : part.frame? = some frame) : frame.IsSound good := by
  unfold Part.frame? at h
  split at h
  · cases h
    exact ⟨by rintro _ ⟨⟩, by rintro _ ⟨⟩⟩
  · cases h
    exact List.forall_mem_nil _
  · cases h
    exact List.forall_mem_nil _
  · cases h
    exact List.forall_mem_nil _
  · cases h
    exact List.forall_mem_nil _
  · cases h
    exact ⟨by rintro _ _ ⟨⟩, List.forall_mem_nil _⟩
  · cases h

/- One event keeps what has been made sound. -/
theorem isSound_observe
    {input : Array UInt8}
    {event : Event}
    (h : made.IsSound good)
    (hNames : NamesAreGood good input event) :
    (made.observe input event).IsSound good := by
  cases event with
  | enter name start =>
      refine ⟨?_, h.rules⟩
      intro frame hFrame
      rcases List.mem_append.mp hFrame with hNew | hOld
      · exact isSound_of_frame? (Option.mem_toList.mp hNew)
      · exact h.frames frame hOld
  | exit name start stop =>
      have hClosed := isSound_close h (Part.ofName name)
      cases stop with
      | none => exact hClosed.2
      | some stop =>
          have hLeave : (made.leave name stop).IsSound good :=
            ⟨hClosed.2.frames, hClosed.2.rules⟩
          rw [observe_exit]
          split
          · exact hLeave
          · rw [takeMatch_eq]
            split
            · rename_i next hNext
              unfold matchResult at hNext
              split at hNext
              · rename_i text hText
                refine
                  makesSound_assemble hLeave hClosed.1 ?_ ?_
                    next hNext
                · intro hPart
                  cases eq_of_ofName_eq_rulename hPart
                  exact hNames.plain start stop text rfl hText
                · intro hPart
                  cases eq_of_ofName_eq_proseVal hPart
                  exact
                    hNames.bracketed start stop text rfl hText
              · cases hNext
            · exact ⟨hLeave.frames, hLeave.rules⟩

/- By induction on the events, a run keeps it sound. -/
theorem isSound_foldl_observe
    {input : Array UInt8}
    {events : List Event}
    (h : made.IsSound good)
    (hNames :
      ∀ event ∈ events, NamesAreGood good input event) :
    (events.foldl (observe input) made).IsSound good := by
  induction events generalizing made with
  | nil => exact h
  | cons event events ih =>
      rw [List.forall_mem_cons] at hNames
      exact ih (isSound_observe h hNames.1) hNames.2

end Assembly

end Grammar

end Abnf

------------------------------------------------------------
-- Rules That Are Read
------------------------------------------------------------

namespace Abnf

namespace Entry

/- Without a repeated name, none is reported. -/
theorem accept_ne_duplicateRule
    {rules : List Rule}
    (hNodup : (rules.map (·.name)).Nodup)
    (name : String) :
    accept rules ≠ .error (.duplicateRule name) := by
  intro h
  have hRefuses := refuses_of_accept h
  generalize hCause : GenerationError.duplicateRule name = cause
    at hRefuses
  cases hRefuses with
  | duplicate _ hRepeated =>
      rw [List.map_append, List.nodup_append] at hNodup
      exact
        hNodup.2.2 _ hRepeated _
          (List.mem_map_of_mem List.mem_cons_self) rfl
  | undefined _ _ _ _ => cases hCause
  | leftRecursion _ _ _ _ => cases hCause

end Entry

namespace Grammar

open Assembly

variable {good : String → Prop}
variable {input : Array UInt8}
variable {callee : String → Nat → Run}

/- The bytes that can start a name are letters. -/
theorem isAlpha_of_starts :
    ∀ byte, starts "rulename" byte = true →
      byte.any
        (fun b => (Char.ofNat b.toNat).isAlpha) = true :=
  forall_byte (by decide)
    (by set_option maxRecDepth 8000 in decide)

/- A name in angle brackets starts with the bracket. -/
theorem eq_of_starts_proseVal :
    ∀ byte, starts "prose-val" byte = true →
      byte = some (byteOf '<') :=
  forall_byte (by decide)
    (by set_option maxRecDepth 8000 in decide)

namespace Readings

/- A name that has matched starts with a letter. -/
theorem startsWithLetter_of_matched
    (hRuns : Readings input callee)
    {start stop : Nat}
    {text : List Char}
    (hStop :
      (callee "rulename" start).outcome = .matched stop)
    (hText : slice? input start stop = some text) :
    startsWithLetter (String.ofList text) = true := by
  have hName : "rulename" ∈ rules.map (·.name) := by decide
  have hSlice := hRuns.exists_slice hName hStop
  rcases hRuns.exists_parses_of_matched hName hStop with
    ⟨hSize, _, _, hParses⟩
  have hByte : input[start]? = some input[start] :=
    Array.getElem?_eq_getElem hSize
  have hStarts :=
    isAlpha_of_starts _
      (starts_of_parses (by decide) hParses)
  rw [hByte] at hStarts
  rw [hSlice.2, between_eq_cons hByte hSlice.1] at hText
  cases hText
  rw [startsWithLetter, String.toList_ofList]
  exact hStarts

/- There is a bracket where a name in brackets matches. -/
theorem mem_of_matched_proseVal
    (hRuns : Readings input callee)
    {start stop : Nat}
    (hStop :
      (callee "prose-val" start).outcome = .matched stop) :
    byteOf '<' ∈ input := by
  have hName : "prose-val" ∈ rules.map (·.name) := by decide
  rcases hRuns.exists_parses_of_matched hName hStop with
    ⟨_, _, _, hParses⟩
  have hByte :=
    eq_of_starts_proseVal _
      (starts_of_parses (by decide) hParses)
  exact Array.mem_of_getElem? hByte

/-
  Names are good if all are that start with a letter, and if
  names in angle brackets are good where there are any.
-/
theorem isSound_rulelist
    (hRuns : Readings input callee)
    (hGood :
      ∀ name,
        startsWithLetter name = true ∨ byteOf '<' ∈ input →
        good name)
    (start : Nat) :
    (assembly input start
      (callee "rulelist" start)).IsSound good := by
  apply isSound_foldl_observe (isSound_begin start)
  intro event hEvent
  have hMatched :=
    fun name first last hExit =>
      @matched_of_exits _ _ hRuns name first last _
        (fun call hCall => ⟨"rulelist", start, hCall⟩) hExit
  constructor
  · rintro first last text rfl hText
    have hLetter :=
      hRuns.startsWithLetter_of_matched
        (hMatched _ _ _ hEvent).2 hText
    exact ⟨hLetter, hGood _ (Or.inl hLetter)⟩
  · rintro first last text rfl _
    have hBracket :=
      hRuns.mem_of_matched_proseVal (hMatched _ _ _ hEvent).2
    exact hGood _ (Or.inr hBracket)

end Readings

/-
  Rules that are read from a text are proper. Any name may
  stand in angle brackets; a text without such a bracket has
  none but names that start with a letter.
-/
theorem areProper_of_readFrom
    {text : String}
    {start : Nat}
    {rules : List Rule}
    (hGood :
      ∀ name,
        startsWithLetter name = true ∨
          byteOf '<' ∈ Text.bytes text →
        good name)
    (h : readFrom text start = .ok rules) :
    AreProper good rules := by
  rcases exists_readings_of_parse (Text.bytes text) start with
    ⟨callee, hRuns, hParse⟩
  have hSound := hRuns.isSound_rulelist hGood start
  rw [readFrom_eq hParse, finish] at h
  split at h
  · cases h
  · split at h
    · cases h
      exact hSound.rules
    · cases h

/-
  The rules that are read from a text are well formed and
  have different names, each of which starts with a letter.
  So no parser is refused because of a repeated name.
-/
theorem areProper_readFrom
    {text : String}
    {start : Nat}
    {rules : List Rule}
    (h : readFrom text start = .ok rules) :
    (∀ rule ∈ rules,
      rule.check = .ok () ∧
        startsWithLetter rule.name = true) ∧
    (rules.map (·.name)).Nodup ∧
    ∀ name,
      Program.ofRules rules ≠
        .error (.duplicateRule name) := by
  have hRules : AreProper (fun _ => True) rules :=
    areProper_of_readFrom (fun _ _ => trivial) h
  refine
    ⟨fun rule hRule =>
        ⟨(hRules.proper rule hRule).check,
          (hRules.proper rule hRule).letter⟩,
      hRules.nodup, ?_⟩
  intro name hRefused
  rcases
      Program.ofRulesWith_eq Rule.isRewrite_normalize rules with
    ⟨cause, hAccept, hOther⟩ | ⟨_, _, _, hOther⟩
  · rw [Program.ofRules, hOther] at hRefused
    cases hRefused
    exact
      Entry.accept_ne_duplicateRule hRules.nodup name hAccept
  · rw [Program.ofRules, hOther] at hRefused
    cases hRefused

/-
  A rule with a series in brackets, a count and a quoted text
  that gets a further alternative, and another rule.
-/
def extendedRules : String :=
  "a=(b/2b)\r\nb=\"x\"\r\na=/[\"yz\"]\r\n"

theorem areProper_readFrom_extendedRules :
    ∃ rules,
      readFrom extendedRules 0 = .ok rules ∧
      rules.length = 2 ∧
      (∀ rule ∈ rules,
        rule.check = .ok () ∧
          startsWithLetter rule.name = true) ∧
      (rules.map (·.name)).Nodup := by
  have hRead :
      (readFrom extendedRules 0).toOption.any
        (fun rules => rules.length = 2) = true := by
    decide +kernel
  cases hRules : readFrom extendedRules 0 with
  | error error =>
      rw [hRules] at hRead
      cases hRead
  | ok rules =>
      rw [hRules] at hRead
      have hProper := areProper_readFrom hRules
      exact
        ⟨rules, rfl, of_decide_eq_true hRead, hProper.1,
          hProper.2.1⟩

end Grammar

end Abnf
