import Abnf.Proofs.GrammarFrames

/-
  Parses of grammar texts make no faults.

  Every rule for grammar texts that matches adds what it
  should to the frames. A bracket that is not closed may
  leave an element behind, which goes with the frame of the
  repetition that it is in, since no other element starts
  with a bracket. So the reader of grammar texts never has
  to report a fault of its own.

  Key definitions include:
    * `Abnf.Grammar.GainsAt`
    * `Abnf.Grammar.HoldsElements`
    * `Abnf.Grammar.GainsBehind`
    * `Abnf.Grammar.IsSafe`

  Main declarations:
    * `Abnf.Grammar.Readings.does_element`
    * `Abnf.Grammar.Readings.gains_alternation`
    * `Abnf.Grammar.Readings.does_rulelist`
    * `Abnf.Grammar.Readings.isSafe_rulelist`
    * `Abnf.Grammar.readFrom_isSafe`
-/

------------------------------------------------------------
-- Values And Names
------------------------------------------------------------

namespace Abnf

namespace Grammar

open Element

variable {input : Array UInt8}
variable {callee : String → Nat → Run}
variable {frames : List Frame}
variable {good bad : List Frame → Prop}
variable {start : Nat}

/- A match at an offset adds one element to the frames. -/
def GainsAt
    (input : Array UInt8)
    (callee : String → Nat → Run)
    (name : String)
    (index : Nat) : Prop :=
  ∀ top rest, top.kind ≠ .rule →
    Does input (top :: rest) (Gains top rest)
      (· = top :: rest) (callee name index)

/- The frame on top holds the elements of a series. -/
def HoldsElements
    (rest frames : List Frame) : Prop :=
  ∃ parts, frames = .elements parts :: rest

/- What adds one element adds it to those of a series. -/
theorem GainsAt.adds
    {name : String}
    (h : GainsAt input callee name start)
    {rest : List Frame}
    (hFrames : HoldsElements rest frames) :
    Does input frames (HoldsElements rest)
      (HoldsElements rest) (callee name start) := by
  rcases hFrames with ⟨parts, rfl⟩
  apply (h (.elements parts) rest (by rintro ⟨⟩)).mono
  · rintro _ ⟨element, rfl⟩
    exact ⟨parts ++ [element], rfl⟩
  · rintro _ rfl
    exact ⟨parts, rfl⟩

/- The alternations behind an offset add one element. -/
def GainsBehind
    (input : Array UInt8)
    (callee : String → Nat → Run)
    (index : Nat) : Prop :=
  ∀ i, index < i → GainsAt input callee "alternation" i

theorem GainsBehind.mono
    {index index' : Nat}
    (h : GainsBehind input callee index)
    (hLow : index ≤ index') :
    GainsBehind input callee index' :=
  fun i hLess => h i (Nat.lt_of_le_of_lt hLow hLess)

theorem isRead_of_mem_readNames :
    ∀ name ∈ readNames,
      name ∈ rules.map (·.name) ∧
        (Part.ofName name).frame? = none := by
  decide

/- A part without a meaning of its own does as its body. -/
theorem Does.reported_of_other
    {run : Run}
    {name : String}
    (hOther : Part.ofName name = .other)
    (h : Does input frames good bad run) :
    Does input frames good bad
      (run.reported name start) := by
  apply h.reported_of_none (by rw [hOther]; rfl)
  intro stop _ f hGood
  apply (takes_other hOther f none).mono
  rintro _ rfl
  exact hGood

/- A first part that is hushed leaves the frames alone. -/
theorem does_runSeries_of_hushed
    {part : Element}
    {parts : List Element}
    (hHushed : (part.run input callee start).Hushed makes)
    (hRest :
      ∀ mid,
        (part.run input callee start).outcome =
          .matched mid →
        Does input frames good bad
          (runSeries input callee parts mid))
    (hBad : bad frames) :
    Does input frames good bad
      (runSeries input callee (part :: parts) start) := by
  rw [runSeries]
  apply (Does.of_hushed hHushed frames).andThen
  · rintro mid hMid f rfl
    exact hRest mid hMid
  · rintro f rfl
    exact hBad

/- A series of one part does what the part does. -/
theorem does_runSeries_last
    {part : Element}
    (h :
      Does input frames good bad
        (part.run input callee start)) :
    Does input frames good bad
      (runSeries input callee [part] start) := by
  rw [runSeries]
  refine h.andThen ?_ (fun _ hBad => hBad)
  intro mid _ f hGood
  rw [runSeries]
  exact .quiet (fun _ _ => hGood) (fun hNo => (nomatch hNo))

/- A choice of parts that leave nothing if they fail. -/
theorem does_runFirst
    {parts : List Element}
    (h :
      ∀ part ∈ parts,
        Does input frames good (· = frames)
          (part.run input callee start)) :
    Does input frames good (· = frames)
      (runFirst input callee parts start) := by
  induction parts with
  | nil =>
      rw [runFirst]
      exact .quiet (fun _ hNo => (nomatch hNo)) (fun _ => rfl)
  | cons part parts ih =>
      rw [List.forall_mem_cons] at h
      rw [runFirst]
      apply h.1.orElse
      rintro _ f rfl
      exact ih h.2

namespace Readings

/- A rule that cannot start leaves the frames alone. -/
theorem does_idle
    (hRuns : Readings input callee)
    {name : String}
    (hStarts : starts name input[start]? = false)
    (frames : List Frame) :
    Does input frames good (· = frames)
      (callee name start) := by
  have hIdle := hRuns.idle name start hStarts
  exact
    (Does.of_hushed hIdle.hushed frames).of_failed
      hIdle.failed

/- A part that is read takes its text, or nothing. -/
theorem does_read
    (hRuns : Readings input callee)
    {name : String}
    (hName : name ∈ readNames)
    (hTakes :
      ∀ stop, (callee name start).outcome = .matched stop →
        Takes input frames good name none start stop) :
    Does input frames good (· = frames)
      (callee name start) := by
  rcases exists_rule_of_mem_readNames name hName with
    ⟨rule, hRule, rfl, hNames⟩
  rw [hRuns.body rule hRule start] at hTakes ⊢
  apply
    (Does.of_hushed (hRuns.hushed_of_names hNames start)
      frames).reported_of_none
  · exact (isRead_of_mem_readNames _ hName).2
  · rintro stop hStop f rfl
    exact hTakes stop hStop

theorem does_rulename
    (hRuns : Readings input callee)
    (old : Option String)
    (incremental : Bool)
    (element : Option Element)
    (rest : List Frame) :
    Does input (.rule old incremental element :: rest)
      (fun f =>
        ∃ rule,
          f = .rule (some rule) incremental element :: rest)
      (· = .rule old incremental element :: rest)
      (callee "rulename" start) := by
  apply hRuns.does_read (by decide)
  intro stop hStop
  have hSlice := hRuns.exists_slice (by decide) hStop
  exact
    (takes_rulename hSlice.2).mono (fun _ hF => ⟨_, hF⟩)

theorem does_definedAs
    (hRuns : Readings input callee)
    (rule : Option String)
    (old : Bool)
    (element : Option Element)
    (rest : List Frame) :
    Does input (.rule rule old element :: rest)
      (fun f =>
        ∃ incremental,
          f = .rule rule incremental element :: rest)
      (· = .rule rule old element :: rest)
      (callee "defined-as" start) := by
  apply hRuns.does_read (by decide)
  intro stop hStop
  have hSlice := hRuns.exists_slice (by decide) hStop
  exact
    (takes_definedAs hSlice.2).mono (fun _ hF => ⟨_, hF⟩)

theorem does_repeat
    (hRuns : Readings input callee)
    (old : Option (Nat × Option Nat))
    (parts : List Element)
    (rest : List Frame) :
    Does input (.repetition old parts :: rest)
      (fun f =>
        ∃ bounds, f = .repetition bounds parts :: rest)
      (· = .repetition old parts :: rest)
      (callee "repeat" start) := by
  apply hRuns.does_read (by decide)
  intro stop hStop
  have hSlice := hRuns.exists_slice (by decide) hStop
  rcases hRuns.exists_parses_of_matched
      (by decide : "repeat" ∈ rules.map (·.name)) hStop with
    ⟨_, hSize, _⟩
  apply takes_repeat hSlice.2
  intro hNil
  have hLength := congrArg List.length hNil
  rw [List.length_map, length_between hSize,
    List.length_nil] at hLength
  omega

theorem gains_reference
    (hRuns : Readings input callee) :
    GainsAt input callee "rulename" start := by
  intro top rest hTop
  apply hRuns.does_read (by decide)
  intro stop hStop
  have hSlice := hRuns.exists_slice (by decide) hStop
  exact takes_reference hTop hSlice.2

theorem gains_value
    (hRuns : Readings input callee)
    {name : String}
    (hName :
      name ∈
        ["char-val", "bin-val", "dec-val", "hex-val",
         "prose-val"]) :
    GainsAt input callee name start := by
  intro top rest hTop
  have hMember :
      name ∈ readNames ∧ name ∈ rules.map (·.name) :=
    (by decide :
      ∀ name ∈
        ["char-val", "bin-val", "dec-val", "hex-val",
         "prose-val"],
        name ∈ readNames ∧ name ∈ rules.map (·.name))
      name hName
  apply hRuns.does_read hMember.1
  intro stop hStop
  have hSlice := hRuns.exists_slice hMember.2 hStop
  rcases hRuns.exists_parses_of_matched hMember.2 hStop with
    ⟨_, hSize, _, hSpan⟩
  apply takes_value hName hTop hSlice.2
  simp only [List.mem_cons, List.not_mem_nil,
    or_false] at hName
  rcases hName with rfl | rfl | rfl | rfl | rfl
  · exact
      noFault_readCharVal
        (two_le_length_readMark hSize hSpan)
  · exact noFault_readNumVal _ _
  · exact noFault_readNumVal _ _
  · exact noFault_readNumVal _ _
  · apply noFault_readProseVal
    have hLength := le_of_parses_proseVal hSpan
    rw [List.length_map, length_between hSize]
    omega

/- A character number is that of one of its bases. -/
theorem gains_numVal
    (hRuns : Readings input callee) :
    GainsAt input callee "num-val" start := by
  intro top rest hTop
  have hRule :
      (⟨"num-val",
        concatenation
          [chars "%",
           alternation
             [ruleName "bin-val",
              ruleName "dec-val",
              ruleName "hex-val"]]⟩ : Rule) ∈ rules := by
    decide
  rw [hRuns.body _ hRule]
  apply Does.reported_of_other rfl
  rw [run]
  refine
    does_runSeries_of_hushed
      (hRuns.hushed_of_names (by decide) start) ?_ rfl
  intro mid _
  apply does_runSeries_last
  rw [run]
  apply does_runFirst
  intro part hPart
  simp only [List.mem_cons, List.not_mem_nil,
    or_false] at hPart
  rcases hPart with rfl | rfl | rfl
  · exact hRuns.gains_value (by decide) top rest hTop
  · exact hRuns.gains_value (by decide) top rest hTop
  · exact hRuns.gains_value (by decide) top rest hTop

end Readings

end Grammar

end Abnf

------------------------------------------------------------
-- Brackets And Elements
------------------------------------------------------------

namespace Abnf

namespace Grammar

open Element

variable {input : Array UInt8}
variable {callee : String → Nat → Run}
variable {start : Nat}

/- No other element starts with an opening bracket. -/
theorem apart_group :
    ∀ byte, starts "group" byte = true →
      ∀ name ∈ elementNames, name ≠ "group" →
        starts name byte = false :=
  forall_byte (by decide)
    (by set_option maxRecDepth 8000 in decide)

namespace Readings

/- An alternation in brackets adds an element. -/
theorem does_enclosed
    (hRuns : Readings input callee)
    {first last : Char}
    (hFirst : (CharSet.ofRange first first).isEmpty = false)
    (hInner : GainsBehind input callee start)
    {top : Frame}
    (hTop : top.kind ≠ .rule)
    (rest : List Frame) :
    Does input (top :: rest) (Gains top rest)
      (fun _ => True)
      ((enclosed first last).run input callee start) := by
  rw [enclosed, run]
  apply
    does_runSeries_of_hushed
      (hRuns.hushed_of_names (by simp [range, names]) start)
      _ trivial
  intro opened hOpened
  have hOpen := (matched_of_range hOpened hFirst).1
  apply
    does_runSeries_of_hushed
      (hRuns.hushed_of_names (by decide) opened) _ trivial
  intro begun hBegun
  have hOrder :=
    (run_staysIn hRuns.stays blanks opened begun hBegun).1
  rw [runSeries, run]
  apply (hInner begun (by omega) top rest hTop).andThen
  · intro ended _ f hGains
    have hNames :
        (concatenation [blanks, range last last]).names ⊆
          hushedNames := by
      change ["c-wsp"] ⊆ hushedNames
      decide
    have hHushed := hRuns.hushed_of_names hNames ended
    rw [run] at hHushed
    apply (Does.of_hushed hHushed f).mono
    · rintro _ rfl
      exact hGains
    · intro _ _
      trivial
  · intro _ _
    trivial

theorem does_group
    (hRuns : Readings input callee)
    (hInner : GainsBehind input callee start)
    {top : Frame}
    (hTop : top.kind ≠ .rule)
    (rest : List Frame) :
    Does input (top :: rest) (Gains top rest)
      (fun _ => True) (callee "group" start) := by
  rw [hRuns.body _ isBracket_group.rule]
  exact
    (hRuns.does_enclosed isBracket_group.firstSome hInner
      hTop rest).reported_of_other rfl

theorem gains_option
    (hRuns : Readings input callee)
    (hInner : GainsBehind input callee start) :
    GainsAt input callee "option" start := by
  intro top rest hTop
  rw [hRuns.body _ isBracket_option.rule]
  apply
    (hRuns.does_enclosed isBracket_option.firstSome hInner
      (by decide) (top :: rest)).reported_of_frame rfl
  rintro stop _ frame ⟨element, hFrame⟩
  cases hFrame
  exact takes_option hTop element

/-
  An element adds one to the frames. A bracket that is not
  closed may leave one behind, but nothing else can match
  where it stands.
-/
theorem does_element
    (hRuns : Readings input callee)
    (hInner : GainsBehind input callee start)
    {top : Frame}
    (hTop : top.kind ≠ .rule)
    (rest : List Frame) :
    Does input (top :: rest) (Gains top rest)
      (fun _ => True) (callee "element" start) := by
  have hRule :
      (⟨"element",
        alternation (elementNames.map ruleName)⟩ : Rule) ∈
        rules := by
    decide
  rw [hRuns.body _ hRule]
  apply Does.reported_of_other rfl
  rw [run]
  by_cases hStarts : starts "group" input[start]? = true
  · have hApart := apart_group _ hStarts
    rw [elementNames, List.map_cons, List.map_cons,
      runFirst, run]
    apply
      (hRuns.does_idle (hApart "rulename" (by decide)
        (by decide)) (top :: rest)).orElse
    rintro _ f rfl
    rw [runFirst, run]
    apply (hRuns.does_group hInner hTop rest).orElse
    intro _ f _
    apply Does.mono _ (fun _ hF => hF) (fun _ _ => trivial)
    · exact (· = f)
    apply does_runFirst
    intro part hPart
    rcases List.mem_map.mp hPart with ⟨name, hName, rfl⟩
    rw [run]
    apply hRuns.does_idle
    apply hApart name
    · exact
        List.mem_cons_of_mem _ (List.mem_cons_of_mem _ hName)
    · rintro rfl
      exact absurd hName (by decide)
  · have hNot : starts "group" input[start]? = false :=
      Bool.not_eq_true _ ▸ hStarts
    apply Does.mono _ (fun _ hF => hF) (fun _ _ => trivial)
    · exact (· = top :: rest)
    apply does_runFirst
    intro part hPart
    rcases List.mem_map.mp hPart with ⟨name, hName, rfl⟩
    rw [run]
    simp only [elementNames, List.mem_cons,
      List.not_mem_nil, or_false] at hName
    rcases hName with rfl | rfl | rfl | rfl | rfl | rfl
    · exact hRuns.gains_reference top rest hTop
    · exact hRuns.does_idle hNot (top :: rest)
    · exact hRuns.gains_option hInner top rest hTop
    · exact hRuns.gains_value (by decide) top rest hTop
    · exact hRuns.gains_numVal top rest hTop
    · exact hRuns.gains_value (by decide) top rest hTop

/- An element with its count adds one to the frames. -/
theorem gains_repetition
    (hRuns : Readings input callee)
    (hInner : GainsBehind input callee start) :
    GainsAt input callee "repetition" start := by
  intro top rest hTop
  have hRule :
      (⟨"repetition",
        concatenation
          [optional (ruleName "repeat"),
           ruleName "element"]⟩ : Rule) ∈ rules := by
    decide
  have hCount :
      Does input (.repetition none [] :: top :: rest)
        (fun f =>
          ∃ bounds,
            f = .repetition bounds [] :: top :: rest)
        (fun f =>
          ∃ bounds,
            f = .repetition bounds [] :: top :: rest)
        ((optional (ruleName "repeat")).run input callee
          start) := by
    rw [Element.optional, run]
    apply Does.runCopies
      (run_staysIn hRuns.stays (ruleName "repeat"))
      _ (Nat.zero_le _) ⟨none, rfl⟩
    rintro index _ f ⟨bounds, rfl⟩
    rw [run]
    apply (hRuns.does_repeat bounds [] (top :: rest)).mono
    · exact fun _ hF => hF
    · exact fun _ hF => ⟨bounds, hF⟩
  have hBody :
      Does input (.repetition none [] :: top :: rest)
        (fun f =>
          ∃ bounds element,
            f =
              .repetition bounds [element] :: top :: rest)
        (fun _ => True)
        ((concatenation
          [optional (ruleName "repeat"),
           ruleName "element"]).run input callee start) := by
    rw [run, runSeries]
    apply hCount.andThen _ (fun _ _ => trivial)
    rintro mid hMid f ⟨bounds, rfl⟩
    have hOrder :=
      (run_staysIn hRuns.stays _ start mid hMid).1
    apply does_runSeries_last
    rw [run]
    apply
      (hRuns.does_element (hInner.mono hOrder)
        (by rintro ⟨⟩) (top :: rest)).mono
    · rintro _ ⟨element, rfl⟩
      exact ⟨bounds, element, rfl⟩
    · exact fun _ _ => trivial
  rw [hRuns.body _ hRule]
  apply hBody.reported_of_frame rfl
  rintro stop _ frame ⟨bounds, element, hFrame⟩
  cases hFrame
  exact takes_repetition hTop bounds element

end Readings

end Grammar

end Abnf

------------------------------------------------------------
-- Alternations
------------------------------------------------------------

namespace Abnf

namespace Grammar

open Element

variable {input : Array UInt8}
variable {callee : String → Nat → Run}
variable {start : Nat}

namespace Readings

/- A part behind hushed ones does what it does alone. -/
theorem does_runSeries_append
    (hRuns : Readings input callee)
    {frames : List Frame}
    {good bad : List Frame → Prop}
    {before : List Element}
    {part : Element}
    (hNames :
      ∀ other ∈ before, other.names ⊆ hushedNames)
    (hPart :
      ∀ index, start ≤ index →
        Does input frames good bad
          (part.run input callee index))
    (hBad : bad frames) :
    Does input frames good bad
      (runSeries input callee (before ++ [part]) start) := by
  induction before generalizing start with
  | nil =>
      exact
        does_runSeries_last (hPart start (Nat.le_refl _))
  | cons other before ih =>
      rw [List.forall_mem_cons] at hNames
      refine
        does_runSeries_of_hushed
          (hRuns.hushed_of_names hNames.1 start) ?_ hBad
      intro mid hMid
      have hOrder :=
        (run_staysIn hRuns.stays other start mid hMid).1
      apply ih hNames.2
      intro index hIndex
      exact hPart index (by omega)

/- A row of items adds to the elements on top. -/
theorem does_items
    (hRuns : Readings input callee)
    {item : String}
    {between : List Element}
    (hNames :
      ∀ other ∈ between, other.names ⊆ hushedNames)
    (hItem :
      ∀ index, start ≤ index →
        GainsAt input callee item index)
    (rest : List Frame) :
    Does input (.elements [] :: rest) (HoldsElements rest)
      (fun _ => True)
      ((concatenation
        [ruleName item,
         any
           (concatenation
             (between ++ [ruleName item]))]).run input
              callee start) := by
  rw [run, runSeries, run]
  apply
    ((hItem start (Nat.le_refl _)).adds ⟨[], rfl⟩).andThen _
      (fun _ _ => trivial)
  intro mid hMid frames hKept
  have hOrder := (hRuns.stays item start mid hMid).1
  apply does_runSeries_last
  rw [any, atLeast, run]
  apply
    @Does.mono _ _ (HoldsElements rest)
      (HoldsElements rest) _ _ _ _ (fun _ hF => hF)
      (fun _ _ => trivial)
  apply
    Does.runCopies
      (run_staysIn hRuns.stays
        (concatenation (between ++ [ruleName item])))
      _ (Nat.le_refl mid) hKept
  intro index hIndex frames hFrames
  rw [run]
  apply hRuns.does_runSeries_append hNames _ hFrames
  intro index' hIndex'
  rw [run]
  exact (hItem index' (by omega)).adds hFrames

/-
  A series of items adds one element to the frames if each
  of its items does. What stands between them is hushed.
-/
theorem gains_series
    (hRuns : Readings input callee)
    {name item : String}
    {between : List Element}
    (hName : name ∈ ["alternation", "concatenation"])
    (hRule :
      ⟨name,
        concatenation
          [ruleName item,
           any
             (concatenation
               (between ++ [ruleName item]))]⟩ ∈ rules)
    (hNames :
      ∀ other ∈ between, other.names ⊆ hushedNames)
    (hItem :
      ∀ index, start ≤ index →
        GainsAt input callee item index) :
    GainsAt input callee name start := by
  intro top rest hTop
  have hFrame :
      (Part.ofName name).frame? = some (.elements []) := by
    simp only [List.mem_cons, List.not_mem_nil,
      or_false] at hName
    rcases hName with rfl | rfl
    · rfl
    · rfl
  have hBody := hRuns.does_items hNames hItem (top :: rest)
  rw [hRuns.body _ hRule]
  apply hBody.reported_of_frame hFrame
  rintro stop _ frame ⟨parts, hParts⟩
  cases hParts
  exact takes_series hName hTop parts

theorem gains_concatenation
    (hRuns : Readings input callee)
    (hInner : GainsBehind input callee start) :
    GainsAt input callee "concatenation" start := by
  apply
    @gains_series _ _ _ hRuns "concatenation" "repetition"
      [atLeast 1 (ruleName "c-wsp")] (by decide) (by decide)
      (by decide)
  intro index hIndex
  exact hRuns.gains_repetition (hInner.mono hIndex)

/-
  An alternation adds one element to the frames. The
  induction is on the bytes that are left, as alternations
  in brackets are further on in the text.
-/
theorem gains_alternation
    (hRuns : Readings input callee)
    (start : Nat) :
    GainsAt input callee "alternation" start := by
  by_cases hStart : start < input.size
  · have hInner : GainsBehind input callee start :=
      fun i hLess => hRuns.gains_alternation i
    apply
      @gains_series _ _ _ hRuns "alternation"
        "concatenation" [blanks, chars "/", blanks]
        (by decide) (by decide) (by decide)
    intro index hIndex
    exact hRuns.gains_concatenation (hInner.mono hIndex)
  · have hNone : input[start]? = none :=
      Array.getElem?_eq_none (Nat.not_lt.mp hStart)
    intro top rest hTop
    apply hRuns.does_idle
    rw [hNone]
    decide
termination_by input.size - start

end Readings

end Grammar

end Abnf

------------------------------------------------------------
-- Rules
------------------------------------------------------------

namespace Abnf

namespace Grammar

open Element

variable {input : Array UInt8}
variable {callee : String → Nat → Run}
variable {start : Nat}

namespace Readings

/- The elements of a rule are taken into its frame. -/
theorem does_elements
    (hRuns : Readings input callee)
    (rule : Option String)
    (incremental : Bool)
    (old : Option Element)
    (rest : List Frame) :
    Does input (.rule rule incremental old :: rest)
      (fun f =>
        ∃ element,
          f = .rule rule incremental (some element) :: rest)
      (· = .rule rule incremental old :: rest)
      (callee "elements" start) := by
  have hRule :
      (⟨"elements",
        concatenation [ruleName "alternation", blanks]⟩ :
          Rule) ∈ rules := by
    decide
  have hBody :
      Does input
        (.elements [] :: .rule rule incremental old :: rest)
        (fun f =>
          ∃ element,
            f =
              .elements [element] ::
                .rule rule incremental old :: rest)
        (fun _ => True)
        ((concatenation
          [ruleName "alternation", blanks]).run input callee
            start) := by
    rw [run, runSeries, run]
    apply
      (hRuns.gains_alternation start (.elements [])
        (.rule rule incremental old :: rest)
        (by rintro ⟨⟩)).andThen _ (fun _ _ => trivial)
    rintro mid _ f ⟨element, rfl⟩
    apply does_runSeries_last
    apply
      (Does.of_hushed
        (hRuns.hushed_of_names (by decide) mid) _).mono
    · rintro _ rfl
      exact ⟨element, rfl⟩
    · exact fun _ _ => trivial
  rw [hRuns.body _ hRule]
  apply hBody.reported_of_frame rfl
  rintro stop _ frame ⟨element, hFrame⟩
  cases hFrame
  exact
    (takes_elements element).mono
      (fun _ hF => ⟨element, hF⟩)

/- A rule has its frame complete when it is left. -/
theorem does_rule
    (hRuns : Readings input callee)
    (frames : List Frame) :
    Does input frames (· = frames) (· = frames)
      (callee "rule" start) := by
  have hRule :
      (⟨"rule",
        concatenation
          [ruleName "rulename", ruleName "defined-as",
           ruleName "elements", ruleName "c-nl"]⟩ :
            Rule) ∈ rules := by
    decide
  have hBody :
      Does input (.rule none false none :: frames)
        (fun f =>
          ∃ rule incremental element,
            f =
              .rule (some rule) incremental
                (some element) :: frames)
        (fun _ => True)
        ((concatenation
          [ruleName "rulename", ruleName "defined-as",
           ruleName "elements", ruleName "c-nl"]).run input
            callee start) := by
    rw [run, runSeries, run]
    apply
      (hRuns.does_rulename none false none frames).andThen _
        (fun _ _ => trivial)
    rintro sign _ f ⟨rule, rfl⟩
    rw [runSeries, run]
    apply
      (hRuns.does_definedAs (some rule) false none
        frames).andThen _ (fun _ _ => trivial)
    rintro begun _ f ⟨incremental, rfl⟩
    rw [runSeries, run]
    apply
      (hRuns.does_elements (some rule) incremental none
        frames).andThen _ (fun _ _ => trivial)
    rintro ended _ f ⟨element, rfl⟩
    apply does_runSeries_last
    rw [run]
    apply
      (Does.of_hushed
        (hRuns.hushed "c-nl" (by decide) ended) _).mono
    · rintro _ rfl
      exact ⟨rule, incremental, element, rfl⟩
    · exact fun _ _ => trivial
  rw [hRuns.body _ hRule]
  apply hBody.reported_of_frame rfl
  rintro stop _ frame ⟨rule, incremental, element, hFrame⟩
  cases hFrame
  exact takes_rule rule incremental element frames

/- A list of rules leaves no frame behind. -/
theorem does_rulelist
    (hRuns : Readings input callee)
    (frames : List Frame) :
    Does input frames (· = frames) (· = frames)
      (callee "rulelist" start) := by
  have hRule :
      (⟨"rulelist",
        atLeast 1
          (alternation [ruleName "rule", blankLine])⟩ :
            Rule) ∈ rules := by
    decide
  rw [hRuns.body _ hRule]
  apply Does.reported_of_other rfl
  rw [atLeast, run]
  refine
    Does.runCopies
      (run_staysIn hRuns.stays
        (alternation [ruleName "rule", blankLine]))
      ?_ (Nat.zero_le start) rfl
  rintro index _ f rfl
  rw [run]
  apply does_runFirst
  intro part hPart
  simp only [List.mem_cons, List.not_mem_nil,
    or_false] at hPart
  rcases hPart with rfl | rfl
  · rw [run]
    exact hRuns.does_rule f
  · exact
      Does.of_hushed
        (hRuns.hushed_of_names (by decide) index) f

end Readings

end Grammar

end Abnf

------------------------------------------------------------
-- Events Of Parses
------------------------------------------------------------

namespace Abnf

namespace Grammar

open Element Assembly

variable {input : Array UInt8}
variable {callee : String → Nat → Run}

/- The rules whose frames hold a single element in the end. -/
def oneNames : List String :=
  ["elements", "option", "repetition"]

/- Without a fault, a list has the one element wanted. -/
theorem exists_only_of_onlyOf
    (parts : List Element) :
    (∃ element, parts = [element]) ∨
      ∃ fault, onlyOf parts = .error (.internal fault) := by
  unfold onlyOf
  split
  · exact Or.inl ⟨_, rfl⟩
  · exact Or.inr ⟨_, rfl⟩

/-
  If no fault is made when a rule is left whose frame should
  hold one element, then it holds one element.
-/
theorem exists_only_part
    {name : String}
    (hName : name ∈ oneNames)
    {assembly : Assembly}
    (hError : assembly.error = none)
    {frame : Frame}
    {rest : List Frame}
    (hFrames : assembly.frames = frame :: rest)
    (hKind : kindOf? name = some frame.kind)
    {start stop : Nat}
    (hSound :
      ∀ error,
        (assembly.observe input
            (.exit name start (some stop))).error =
          some error →
        error.isOfPart = true) :
    ∃ element, frame.parts = [element] := by
  rcases exists_only_of_onlyOf frame.parts with
    hOne | ⟨fault, hFault⟩
  · exact hOne
  have hMade :
      (assembly.leave name stop).matchResult input name
          (some frame) start stop =
        .error (.internal fault) := by
    simp only [oneNames, List.mem_cons, List.not_mem_nil,
      or_false] at hName
    rcases hName with rfl | rfl | rfl
    · cases frame with
      | rule _ _ _ => cases hKind
      | repetition _ _ => cases hKind
      | elements parts =>
          rw [matchResult_of_not_read rfl]
          change (onlyOf parts >>= _) = _
          rw [show onlyOf parts = _ from hFault]
          rfl
    · cases frame with
      | rule _ _ _ => cases hKind
      | repetition _ _ => cases hKind
      | elements parts =>
          rw [matchResult_of_not_read rfl]
          change (onlyOf parts >>= _) = _
          rw [show onlyOf parts = _ from hFault]
          rfl
    · cases frame with
      | rule _ _ _ => cases hKind
      | elements _ => cases hKind
      | repetition bounds parts =>
          rw [matchResult_of_not_read rfl]
          change (onlyOf parts >>= _) = _
          rw [show onlyOf parts = _ from hFault]
          rfl
  rcases Option.map_eq_some_iff.mp
      ((kind_frame? name).trans hKind) with
    ⟨fresh, hFresh, _⟩
  have hSome :
      (assembly.observe input
          (.exit name start (some stop))).error =
        some (.internal fault) := by
    rw [observe_exit, hError, close_of_some hFresh hFrames,
      takeMatch_eq, hMade]
    rfl
  exact absurd (hSound _ hSome) (by simp [ReadError.isOfPart])

/- The calls in a run are calls of rules. -/
theorem mem_calls_of_run
    (element : Element)
    (index : Nat)
    {call : Call}
    (hCall :
      call ∈ (element.run input callee index).calls) :
    ∃ name i, call ∈ (callee name i).calls := by
  have hQuiet :
      ∀ outcome : Outcome,
        ∀ call ∈ (Run.quiet outcome).calls,
          ∃ name i, call ∈ (callee name i).calls :=
    fun _ _ hNo => nomatch hNo
  have hAfter :
      ∀ {calls : List Call} {run : Run},
        (∀ call ∈ calls,
          ∃ name i, call ∈ (callee name i).calls) →
        (∀ call ∈ run.calls,
          ∃ name i, call ∈ (callee name i).calls) →
        ∀ call ∈ (Run.after calls run).calls,
          ∃ name i, call ∈ (callee name i).calls := by
    intro calls run hCalls hRun call hMember
    rcases List.mem_append.mp hMember with hOne | hOther
    · exact hCalls call hOne
    · exact hRun call hOther
  have hRel :
      Run.Congruence input.size
        (fun _ run _ =>
          ∀ call ∈ run.calls,
            ∃ name i, call ∈ (callee name i).calls) := by
    refine
      ⟨⟨fun _ => hQuiet _, fun _ => hQuiet _,
        fun _ => hQuiet _, ?_⟩, fun _ _ => hQuiet _⟩
    intro _ run _ onMatch _ onFailure _ hRun hMatch hFailure
    rcases run.matched_or_failed_or_not with
      ⟨stop, hOutcome⟩ | hOutcome | hSettled
    · rw [Run.resume_of_matched hOutcome]
      exact hAfter hRun (hMatch stop hOutcome)
    · rw [Run.resume_of_failed hOutcome]
      exact hAfter hRun hFailure
    · rw [Run.resume_of_not_isSettled hSettled]
      exact hRun
  exact
    @run_congruence input _ callee callee hRel element index
      (fun name _ i call hMember => ⟨name, i, hMember⟩) call
      hCall

namespace Readings

/- A call of a rule is that of its body. -/
theorem eq_of_mem_calls
    (hRuns : Readings input callee)
    {name : String}
    {index : Nat}
    {call : Call}
    (hCall : call ∈ (callee name index).calls) :
    ∃ rule ∈ rules,
      call =
        .call rule.name index
          (callee rule.name index).outcome.stop?
          (rule.element.run input callee index).calls := by
  cases hOwn : Scope.hasName scope.own name with
  | false =>
      rw [hRuns.unreported name hOwn index] at hCall
      cases hCall
  | true =>
      rcases Scope.hasName_iff.mp hOwn with
        ⟨rule, hRule, rfl⟩
      refine ⟨rule, hRule, ?_⟩
      have hBody := hRuns.body rule hRule index
      rw [hBody] at hCall ⊢
      rw [Run.outcome_reported]
      exact List.mem_singleton.mp hCall

mutual

/- A match that is reported in a call is one of a rule. -/
theorem matched_of_exit
    (hRuns : Readings input callee)
    {name : String}
    {start stop : Nat} :
    ∀ call : Call,
      (∃ name i, call ∈ (callee name i).calls) →
      .exit name start (some stop) ∈ call.events →
      name ∈ rules.map (·.name) ∧
        (callee name start).outcome = .matched stop
  | .call other index end? inner, hCall, hExit => by
      rcases hCall with ⟨_, i, hMember⟩
      rcases hRuns.eq_of_mem_calls hMember with
        ⟨rule, hRule, hEq⟩
      cases hEq
      rw [Call.events_call, List.mem_cons, List.mem_append,
        List.mem_singleton] at hExit
      rcases hExit with hEnter | hInner | hLast
      · cases hEnter
      · apply hRuns.matched_of_exits _ _ hInner
        intro call hMember
        exact mem_calls_of_run rule.element index hMember
      · cases hOutcome : (callee rule.name index).outcome with
        | matched found =>
            rw [hOutcome] at hLast
            cases hLast
            exact
              ⟨List.mem_map_of_mem hRule, hOutcome⟩
        | failed => simp [hOutcome, Outcome.stop?] at hLast
        | noRoutine _ => simp [hOutcome, Outcome.stop?] at hLast
        | tooDeep => simp [hOutcome, Outcome.stop?] at hLast

/- The same for a match that is reported in some calls. -/
theorem matched_of_exits
    (hRuns : Readings input callee)
    {name : String}
    {start stop : Nat} :
    ∀ calls : List Call,
      (∀ call ∈ calls,
        ∃ name i, call ∈ (callee name i).calls) →
      .exit name start (some stop) ∈
        Call.eventsOfAll calls →
      name ∈ rules.map (·.name) ∧
        (callee name start).outcome = .matched stop
  | [], _, hExit => nomatch hExit
  | first :: others, hCalls, hExit => by
      rw [List.forall_mem_cons] at hCalls
      rw [Call.eventsOfAll_cons, List.mem_append] at hExit
      rcases hExit with hFirst | hOthers
      · exact hRuns.matched_of_exit first hCalls.1 hFirst
      · exact hRuns.matched_of_exits others hCalls.2 hOthers

end

end Readings

end Grammar

end Abnf

------------------------------------------------------------
-- Safe Parses
------------------------------------------------------------

namespace Abnf

namespace Grammar

open Element Assembly

variable {input : Array UInt8}
variable {callee : String → Nat → Run}
variable {start : Nat}

/- The assembly after the first events of a parse. -/
def assemblyAfter
    (input : Array UInt8)
    (start : Nat)
    (events : List Event) : Assembly :=
  events.foldl (observe input) (begin start)

/-
  What a parse of a text from an offset keeps to: the calls
  end in a match or a failure, there is a frame of the right
  kind for each open call, all that is matched is a span of
  characters in the text, and where one element is wanted,
  there is one, unless an error was made before.
-/
structure IsSafe
    (input : Array UInt8)
    (start : Nat)
    (run : Run) : Prop where
  settled : run.outcome.isSettled = true
  frames :
    ∀ before behind, run.events = before ++ behind →
      (assemblyAfter input start before).frames.map
          Frame.kind =
        (before.foldl Event.follow []).filterMap kindOf?
  spans :
    ∀ name first last,
      .exit name first (some last) ∈ run.events →
      first < last ∧ last ≤ input.size ∧
        (slice? input first last).isSome = true
  single :
    ∀ before behind name first last,
      run.events =
        before ++ .exit name first (some last) :: behind →
      (assemblyAfter input start before).error = none →
      name ∈ oneNames →
      ∃ frame rest element,
        (assemblyAfter input start before).frames =
          frame :: rest ∧
        frame.parts = [element]
  sound :
    ∀ error,
      (assembly input start run).error = some error →
      error.isOfPart = true

namespace Readings

theorem isSafe_rulelist
    (hRuns : Readings input callee)
    (start : Nat) :
    IsSafe input start (callee "rulelist" start) := by
  have hEnds :=
    @does_rulelist _ _ start hRuns [] (begin start) rfl rfl
  have hSpans :
      ∀ name first last,
        .exit name first (some last) ∈
          (callee "rulelist" start).events →
        name ∈ rules.map (·.name) ∧
          (callee name first).outcome = .matched last := by
    intro name first last hExit
    apply hRuns.matched_of_exits _ _ hExit
    exact fun call hCall => ⟨"rulelist", start, hCall⟩
  refine ⟨?_, ?_, ?_, ?_, hEnds.sound⟩
  · exact hRuns.settled "rulelist" (by decide) start
  · intro before behind hEvents
    exact kinds_of_calls rfl _ hEvents
  · intro name first last hExit
    rcases hSpans name first last hExit with
      ⟨hName, hStop⟩
    rcases hRuns.exists_parses_of_matched hName hStop with
      ⟨_, hSize, _⟩
    have hSlice := hRuns.exists_slice hName hStop
    exact ⟨hSlice.1, hSize, by rw [hSlice.2]; rfl⟩
  · intro before behind name first last hEvents hError hName
    rcases Call.exists_follow_of_exits [] _ hEvents with
      ⟨outer, hOpen⟩
    have hKinds :
        (assemblyAfter input start before).frames.map
            Frame.kind =
          (before.foldl Event.follow []).filterMap
            kindOf? :=
      kinds_of_calls rfl _ hEvents
    have hKind :
        ∃ kind, kindOf? name = some kind :=
      (by
        simp only [oneNames, List.mem_cons,
          List.not_mem_nil, or_false] at hName
        rcases hName with rfl | rfl | rfl
        · exact ⟨_, rfl⟩
        · exact ⟨_, rfl⟩
        · exact ⟨_, rfl⟩)
    rcases hKind with ⟨kind, hKind⟩
    rw [hOpen, List.filterMap_cons, hKind] at hKinds
    cases hFrames :
        (assemblyAfter input start before).frames with
    | nil =>
        rw [hFrames] at hKinds
        cases hKinds
    | cons frame rest =>
        rw [hFrames, List.map_cons, List.cons.injEq]
          at hKinds
        rw [← hKinds.1] at hKind
        have hOne :
            ∃ element, frame.parts = [element] := by
          apply
            @exists_only_part input name hName _ hError
              frame rest hFrames hKind first last
          intro error hSome
          apply hEnds.sound error
          rw [afterRun, hEvents, List.foldl_append,
            List.foldl_cons]
          exact error_foldl_observe hSome input behind
        rcases hOne with ⟨element, hParts⟩
        exact ⟨frame, rest, element, rfl, hParts⟩

end Readings

/- The column of an offset in a text of usual size. -/
theorem lineStart_add_column
    {index : Nat}
    (hIndex : index + 1 < Text.columnLimit) :
    Text.lineStart (input.toList.take index) +
        (Text.position input index).column =
      index + 1 := by
  have hLine :
      Text.lineStart (input.toList.take index) ≤ index := by
    have hLength := List.length_take_le index input.toList
    unfold Text.lineStart
    omega
  unfold Text.position
  dsimp only
  rw [Nat.mod_eq_of_lt (by omega)]
  omega

/- What reading makes of a parse. -/
theorem readFrom_eq
    {text : String}
    {run : Run}
    (hParse : parse (Text.bytes text) start = .ok run) :
    readFrom text start =
      (assembly (Text.bytes text) start run).finish
        (Text.bytes text) run.outcome := by
  unfold readFrom readNoting
  dsimp only
  rewrite [hParse]
  dsimp only
  cases
      (assembly (Text.bytes text) start run).finish
        (Text.bytes text) run.outcome with
  | error error => rfl
  | ok rules => rfl

/- The parse of a text is the reading of a list of rules. -/
theorem exists_readings_of_parse
    (input : Array UInt8)
    (start : Nat) :
    ∃ callee,
      Readings input callee ∧
        parse input start =
          .ok (callee "rulelist" start) := by
  rcases exists_readings with
    ⟨matcher, entry, hProgram, hEntry, hReadings⟩
  rcases hReadings input with ⟨callee, hRuns, hTrace⟩
  refine ⟨callee, hRuns, ?_⟩
  rw [parse_eq_trace hProgram hEntry, hTrace]

/- An error is due to a part, or the whole is not matched. -/
theorem isOfPart_or_incomplete
    {text : String}
    (hRuns : Readings (Text.bytes text) callee)
    (hParse :
      parse (Text.bytes text) start =
        .ok (callee "rulelist" start))
    (error : ReadError)
    (hError : readFrom text start = .error error) :
    error.isOfPart = true ∨
      error =
        .incomplete
          (assembly (Text.bytes text) start
            (callee "rulelist" start)).furthest
          (Text.position (Text.bytes text)
            (assembly (Text.bytes text) start
              (callee "rulelist" start)).furthest) := by
  rw [readFrom_eq hParse, finish] at hError
  split at hError
  · rename_i hMade
    cases hError
    exact
      Or.inl ((hRuns.isSafe_rulelist start).sound error hMade)
  · split at hError
    · cases hError
    · cases hError
      exact Or.inr rfl

/-
  A grammar text can be read from any offset without a fault
  of the reader. The parse is safe, and what is found wrong
  is due to the text. Neither the number of bytes that were
  read nor the column of an error leaves the range of words.
-/
theorem readFrom_isSafe
    (text : String)
    (start : Nat)
    (hStart : start < Text.columnLimit - 1) :
    (∃ run,
      parse (Text.bytes text) start = .ok run ∧
        IsSafe (Text.bytes text) start run) ∧
    (∀ fault,
      readFrom text start ≠ .error (.internal fault)) ∧
    (∀ cause,
      readFrom text start ≠ .error (.bootstrap cause)) ∧
    (∀ rules, readFrom text start = .ok rules →
      start ≤ (Text.bytes text).size) ∧
    (∀ index place,
      readFrom text start = .error (.incomplete index place) →
      (Text.bytes text).size < Text.columnLimit - 1 →
      Text.lineStart
          ((Text.bytes text).toList.take index) +
          place.column =
        index + 1) := by
  rcases exists_readings_of_parse (Text.bytes text) start with
    ⟨callee, hRuns, hParse⟩
  have hSafe := hRuns.isSafe_rulelist start
  have hErrors :=
    @isOfPart_or_incomplete _ start _ hRuns hParse
  refine ⟨⟨_, hParse, hSafe⟩, ?_, ?_, ?_, ?_⟩
  · intro fault hFault
    rcases hErrors _ hFault with hPart | hEnd
    · cases hPart
    · cases hEnd
  · intro cause hCause
    rcases hErrors _ hCause with hPart | hEnd
    · cases hPart
    · cases hEnd
  · intro rules hRules
    rw [readFrom_eq hParse, finish] at hRules
    split at hRules
    · cases hRules
    · split at hRules
      · rename_i hOutcome
        exact (hRuns.stays _ _ _ hOutcome).1
      · cases hRules
  · intro index place hIncomplete hSize
    have hFurthest :
        (assembly (Text.bytes text) start
            (callee "rulelist" start)).furthest ≤
          Nat.max start (Text.bytes text).size := by
      apply furthest_foldl_observe
      · intro name first last hExit
        have hSpan := hSafe.spans name first last hExit
        exact Nat.le_trans hSpan.2.1 (Nat.le_max_right _ _)
      · exact Nat.le_max_left _ _
    have hMax :
        Nat.max start (Text.bytes text).size <
          Text.columnLimit - 1 :=
      Nat.max_lt.mpr ⟨hStart, hSize⟩
    rcases hErrors _ hIncomplete with hPart | hEnd
    · cases hPart
    · cases hEnd
      exact lineStart_add_column (by omega)

/- An offset may lie inside a character of the text. -/
theorem readFrom_isSafe_insideCharacter :
    1 < Text.columnLimit - 1 ∧
      (∃ run,
        parse (Text.bytes "\u00e9 = (a\r\n") 1 = .ok run ∧
          IsSafe (Text.bytes "\u00e9 = (a\r\n") 1 run) ∧
      (∀ fault,
        readFrom "\u00e9 = (a\r\n" 1 ≠
          .error (.internal fault)) := by
  have hStart : 1 < Text.columnLimit - 1 := by decide
  rcases readFrom_isSafe "\u00e9 = (a\r\n" 1 hStart with
    ⟨hParse, hInternal, _⟩
  exact ⟨hStart, hParse, hInternal⟩

end Grammar

end Abnf
