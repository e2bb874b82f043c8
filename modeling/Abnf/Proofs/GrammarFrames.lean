import Abnf.Proofs.Frames
import Abnf.Proofs.GrammarDerivations

/-
  What matches in grammar texts make of frames.

  A part of a grammar text that has matched adds to the
  innermost frame, or makes an error that is due to the
  text. The faults that could be made instead are ruled out
  by the kind of the frame and by the form of the text.

  Key definitions include:
    * `Abnf.Grammar.NoFault`
    * `Abnf.Grammar.Gains`

  Main declarations:
    * `Abnf.Grammar.Readings.exists_slice`
    * `Abnf.Grammar.takes_series`
    * `Abnf.Grammar.takes_value`
-/

------------------------------------------------------------
-- Values
------------------------------------------------------------

namespace Abnf

namespace Grammar

/- The error, if there is one, is due to the text. -/
def NoFault
    {α : Type}
    (value : Except ReadError α) : Prop :=
  ∀ error, value = .error error → error.isOfPart = true

theorem noFault_ok
    {α : Type}
    (a : α) :
    NoFault (.ok a : Except ReadError α) :=
  fun _ hNo => nomatch hNo

theorem noFault_error
    {α : Type}
    {error : ReadError}
    (h : error.isOfPart = true) :
    NoFault (.error error : Except ReadError α) := by
  rintro _ ⟨⟩
  exact h

theorem noFault_bind
    {α β : Type}
    {value : Except ReadError α}
    {next : α → Except ReadError β}
    (h : NoFault value)
    (hNext : ∀ a, NoFault (next a)) :
    NoFault (value >>= next) := by
  cases value with
  | error cause => exact noFault_error (h cause rfl)
  | ok a => exact hNext a

theorem noFault_liftElement
    {α : Type}
    (value : Except ElementError α) :
    NoFault (ReadError.liftElement value) := by
  cases value with
  | error cause => exact noFault_error rfl
  | ok a => exact noFault_ok a

theorem noFault_liftCharSet
    {α : Type}
    (value : Except CharSetError α) :
    NoFault (ReadError.liftCharSet value) := by
  cases value with
  | error cause => exact noFault_error rfl
  | ok a => exact noFault_ok a

theorem noFault_mapM
    {α β : Type}
    {f : α → Except ReadError β}
    (h : ∀ a, NoFault (f a))
    (items : List α) :
    NoFault (items.mapM f) := by
  induction items with
  | nil => exact noFault_ok []
  | cons item items ih =>
      rw [List.mapM_cons]
      apply noFault_bind (h item)
      intro b
      apply noFault_bind ih
      intro bs
      exact noFault_ok _

theorem noFault_readCount
    (digits : List Char) :
    NoFault (readCount digits) := by
  unfold readCount
  split
  · exact noFault_ok _
  · split
    · exact noFault_ok _
    · exact noFault_error rfl

/- Only a text without characters is no count. -/
theorem noFault_readRepeat
    {text : List Char}
    (hText : text ≠ []) :
    NoFault (readRepeat text) := by
  unfold readRepeat
  split
  · apply noFault_bind (noFault_readCount _)
    intro min
    apply noFault_bind (noFault_readCount _)
    intro max
    exact noFault_ok _
  · rename_i before hSpan
    have hBefore : before ≠ [] := by
      rintro rfl
      rw [List.span_eq_takeWhile_dropWhile,
        Prod.mk.injEq] at hSpan
      apply hText
      rw [← @List.takeWhile_append_dropWhile _ (· != '*')
        text, hSpan.1, hSpan.2]
      rfl
    have hSome :
        ∀ count, readCount before = .ok count →
          count.isSome = true := by
      intro count hCount
      unfold readCount at hCount
      rw [if_neg (by simpa using hBefore)] at hCount
      split at hCount
      · cases hCount
        rfl
      · cases hCount
    cases hCount : readCount before with
    | error cause =>
        exact
          noFault_error (noFault_readCount before cause hCount)
    | ok count =>
        cases count with
        | none => cases hSome none hCount
        | some count => exact noFault_ok _

theorem noFault_readCode
    (base : Nat)
    (digits : List Char) :
    NoFault (readCode base digits) := by
  unfold readCode
  split
  · exact noFault_error rfl
  · split
    · apply noFault_bind (noFault_liftCharSet _)
      intro _
      exact noFault_ok _
    · exact noFault_error rfl

theorem noFault_readNumVal
    (base : Nat)
    (text : List Char) :
    NoFault (readNumVal base text) := by
  unfold readNumVal
  split
  · apply noFault_bind (noFault_readCode _ _)
    intro first
    apply noFault_bind (noFault_readCode _ _)
    intro last
    split
    · exact noFault_error rfl
    · exact noFault_ok _
  · apply noFault_bind
    · apply noFault_mapM
      intro digits
      apply noFault_bind (noFault_readCode _ _)
      intro c
      exact noFault_liftCharSet _
    · intro sets
      exact noFault_ok _

/- A quoted text has its two quotes. -/
theorem noFault_readCharVal
    {text : List Char}
    (hText : 2 ≤ (readMark text).2.length) :
    NoFault (readCharVal text) := by
  unfold readCharVal
  cases hMark : readMark text with
  | mk sensitive quoted =>
      rw [hMark] at hText
      dsimp only at hText ⊢
      rw [if_neg (Nat.not_lt.mpr hText)]
      apply noFault_bind (noFault_liftCharSet _)
      intro sets
      split
      · exact noFault_ok _
      · exact noFault_ok _

theorem noFault_readProseVal
    {text : List Char}
    (hText : 2 ≤ text.length) :
    NoFault (readProseVal text) := by
  unfold readProseVal
  rw [if_neg (by omega)]
  exact noFault_liftElement _

theorem noFault_define
    (rules : List Rule)
    (name : String)
    (incremental : Bool)
    (element : Element) :
    NoFault (define rules name incremental element) := by
  unfold define
  split
  · exact noFault_ok _
  · exact noFault_error rfl
  · exact noFault_error rfl
  · apply noFault_bind (noFault_liftElement _)
    intro rule
    exact noFault_ok _

end Grammar

end Abnf

------------------------------------------------------------
-- Spans Of Matches
------------------------------------------------------------

namespace Abnf

/- The members of sets are ASCII. -/
theorem CharSet.lt_of_containsByte
    {s : CharSet}
    {b : UInt8}
    (h : s.containsByte b = true) : b < 128 := by
  unfold containsByte hasCode at h
  rw [UInt8.lt_iff_toNat_lt]
  split at h
  · rename_i hLow
    exact Nat.lt_trans hLow (by decide)
  · split at h
    · rename_i hHigh
      exact hHigh
    · cases h

/- A word stands in a text between its ends. -/
theorem Text.occurs_between
    {input : Array UInt8}
    (start stop : Nat) :
    Occurs input start (between input start stop) := by
  have hDrop := @occurs_drop input start
  rw [← List.take_append_drop (stop - start)
    (input.toList.drop start), occurs_append_iff] at hDrop
  exact hDrop.1

/- All that is derived is ASCII. -/
theorem Scope.Parses.ascii
    {scope : Scope}
    {loud : String → Bool}
    {input : Array UInt8}
    {task : Task}
    {start stop : Nat}
    {calls : List Call}
    (h : scope.Parses loud input task start stop calls)
    (index : Nat)
    (hStart : start ≤ index)
    (hStop : index < stop) :
    ∃ b, input[index]? = some b ∧ b < 128 := by
  induction h with
  | ruleName _ _ ih => exact ih hStart hStop
  | nothing _ => omega
  | @member s start b hByte hMember =>
      have hIndex : index = start := by omega
      rw [hIndex]
      exact ⟨b, hByte, CharSet.lt_of_containsByte hMember⟩
  | repetition _ _ _ ih => exact ih hStart hStop
  | concatenation _ ih => exact ih hStart hStop
  | alternation _ _ ih => exact ih hStart hStop
  | allNone => omega
  | @allNext _ _ _ mid _ _ _ _ _ ih ih' =>
      by_cases hMid : index < mid
      · exact ih hStart hMid
      · exact ih' (Nat.not_lt.mp hMid) hStop
  | copiesNone => omega
  | @copiesNext _ _ _ mid _ _ _ _ _ ih ih' =>
      by_cases hMid : index < mid
      · exact ih hStart hMid
      · exact ih' (Nat.not_lt.mp hMid) hStop

namespace Grammar

open Element

variable {input : Array UInt8}
variable {callee : String → Nat → Run}
variable {start stop : Nat}

theorem length_between
    (hSize : stop ≤ input.size) :
    (Text.between input start stop).length =
      stop - start := by
  rw [Text.between, List.length_take, List.length_drop,
    Array.length_toList]
  omega

/- At the end of a text there is no match of a rule. -/
theorem not_opens_none :
    ∀ rule ∈ rules,
      rule.element.opens none (starts · none) = false ∧
        rule.element.isNullable [] = false := by
  decide

/- The span of ASCII bytes in a text has characters. -/
theorem slice?_of_ascii
    (hOrder : start ≤ stop)
    (hSize : stop ≤ input.size)
    (hAscii :
      ∀ index, start ≤ index → index < stop →
        ∃ b, input[index]? = some b ∧ b < 128) :
    slice? input start stop =
      some
        ((Text.between input start stop).map
          (fun b => Char.ofNat b.toNat)) := by
  have hSpan :
      (input.extract start stop).toList =
        Text.between input start stop := by
    rw [Array.toList_extract, List.extract_eq_take_drop]
    rfl
  have hAll :
      (Text.between input start stop).all (· < 128) =
        true := by
    rw [List.all_eq_true]
    intro b hMember
    rcases List.mem_iff_getElem?.mp hMember with ⟨i, hByte⟩
    rw [Text.between, List.getElem?_take] at hByte
    split at hByte
    · rw [List.getElem?_drop] at hByte
      rcases hAscii (start + i) (by omega) (by omega) with
        ⟨b', hByte', hLess⟩
      rw [← Array.getElem?_toList, hByte] at hByte'
      cases hByte'
      exact decide_eq_true hLess
    · cases hByte
  rw [slice?, hSpan]
  exact if_pos ⟨hOrder, hSize, hAll⟩

namespace Readings

/- What a rule matches, it derives. -/
theorem exists_parses_of_matched
    (hRuns : Readings input callee)
    {name : String}
    (hName : name ∈ rules.map (·.name))
    (hStop : (callee name start).outcome = .matched stop) :
    start < input.size ∧ stop ≤ input.size ∧
      ∃ calls,
        scope.Parses makes input
          (.one (.ruleName name)) start stop calls := by
  rcases List.mem_map.mp hName with ⟨rule, hRule, rfl⟩
  have hSize : start < input.size := by
    by_contra hNot
    have hNone : input[start]? = none :=
      Array.getElem?_eq_none (Nat.not_lt.mp hNot)
    have hEnd := not_opens_none rule hRule
    have hIdle :=
      @Element.run_of_not_opens makes input start callee
        (starts · none)
        (fun name hStarts =>
          hRuns.idle name start (hNone ▸ hStarts))
        rule.element (hNone ▸ hEnd.1)
    rw [hEnd.2] at hIdle
    rw [hRuns.body rule hRule, Run.outcome_reported,
      hIdle.failed] at hStop
    cases hStop
  have hStays := hRuns.stays rule.name start stop hStop
  have hEnd : stop ≤ input.size := by omega
  have hWord :=
    hRuns.generates rule.name start stop
      (Nat.le_of_lt hSize) hStop
  rcases hWord.exists_parses
      (Text.occurs_between start stop) with
    ⟨calls, hSpan⟩
  rw [length_between hEnd,
    Nat.add_sub_cancel' hStays.1] at hSpan
  exact ⟨hSize, hEnd, calls, hSpan⟩

/- The characters of a match can be looked at. -/
theorem exists_slice
    (hRuns : Readings input callee)
    {name : String}
    (hName : name ∈ rules.map (·.name))
    (hStop : (callee name start).outcome = .matched stop) :
    start < stop ∧
      slice? input start stop =
        some
          ((Text.between input start stop).map
            (fun b => Char.ofNat b.toNat)) := by
  rcases hRuns.exists_parses_of_matched hName hStop with
    ⟨_, hSize, calls, hSpan⟩
  have hMoves : start < stop := by
    apply hSpan.lt
    rw [isNullable, nullable_scope]
    exact
      (by decide :
        ∀ name ∈ rules.map (·.name),
          (["LWSP"].contains name) = false) name hName
  exact
    ⟨hMoves,
      slice?_of_ascii (Nat.le_of_lt hMoves) hSize
        hSpan.ascii⟩

end Readings

/- The first character of a span. -/
theorem between_eq_cons
    {b : UInt8}
    (hByte : input[start]? = some b)
    (hLess : start < stop) :
    Text.between input start stop =
      b :: Text.between input (start + 1) stop := by
  rw [← Text.between_append (Nat.le_succ start) hLess,
    Text.between_succ hByte]
  rfl

variable {calls : List Call}

theorem starts_quote :
    ∀ byte, starts "quoted-string" byte = true →
      byte = some (byteOf '"') :=
  forall_byte (by decide)
    (by set_option maxRecDepth 8000 in decide)

/- A mark is a percent sign and a letter. -/
theorem eq_of_parses_mark
    {letters : String}
    (hSome : (letterSet letters).isEmpty = false)
    (h :
      scope.Parses makes input (.one (mark letters))
        start stop calls) :
    stop = start + 2 ∧
      input[start]? = some (byteOf '%') := by
  rcases Scope.Parses.series h with
    ⟨mid, _, _, hSign, hLetter, _⟩
  rw [chars_percent] at hSign
  rcases eq_of_parses_range (by decide) hSign with
    ⟨rfl, hByte, _⟩
  refine ⟨?_, hByte⟩
  cases hLetter.series_last with
  | nothing hEmpty =>
      exact absurd (hEmpty.symm.trans hSome) (by decide)
  | member _ _ => rfl

/- A quoted text starts with a quote and ends with another. -/
theorem le_of_parses_quoted
    (h :
      scope.Parses makes input
        (.one (ruleName "quoted-string"))
        start stop calls) :
    start + 2 ≤ stop ∧
      input[start]? = some (byteOf '"') := by
  have hRule :
      (⟨"quoted-string",
        concatenation
          [ruleName "DQUOTE",
           any
             (alternation
               [range '\x20' '\x21', range '\x23' '\x7e']),
           ruleName "DQUOTE"]⟩ : Rule) ∈ rules := by
    decide
  refine
    ⟨?_, starts_quote _ (starts_of_parses (by decide) h)⟩
  rcases exists_parses_of_mem hRule h with ⟨_, hBody, _⟩
  rcases Scope.Parses.series hBody with
    ⟨begun, _, _, hFirst, hTwo, _⟩
  rcases hTwo.series with ⟨ended, _, _, hInner, hOne, _⟩
  have hQuote := hFirst.lt (by
    rw [isNullable, nullable_scope]
    decide)
  have hQuote' := hOne.series_last.lt (by
    rw [isNullable, nullable_scope]
    decide)
  have hOrder := hInner.isNullable.1
  omega

/- The two forms of quoted texts. -/
theorem le_of_parses_charVal
    (h :
      scope.Parses makes input (.one (ruleName "char-val"))
        start stop calls) :
    (start + 4 ≤ stop ∧
        input[start]? = some (byteOf '%')) ∨
      (start + 2 ≤ stop ∧
        input[start]? = some (byteOf '"')) := by
  have hRule :
      (⟨"char-val",
        alternation
          [ruleName "case-insensitive-string",
           ruleName "case-sensitive-string"]⟩ : Rule) ∈
        rules := by
    decide
  rcases exists_parses_of_mem hRule h with ⟨_, hBody, _⟩
  rcases exists_mem_of_parses hBody with
    ⟨part, hPart, hSpan⟩
  simp only [List.mem_cons, List.not_mem_nil,
    or_false] at hPart
  rcases hPart with rfl | rfl
  · have hRule :
        (⟨"case-insensitive-string",
          concatenation
            [optional (mark "Ii"),
             ruleName "quoted-string"]⟩ : Rule) ∈ rules := by
      decide
    rcases exists_parses_of_mem hRule hSpan with
      ⟨_, hSeries, _⟩
    rcases Scope.Parses.series hSeries with
      ⟨mid, _, _, hMark, hOne, _⟩
    have hQuoted := le_of_parses_quoted hOne.series_last
    cases hMark with
    | repetition _ hMax hCopies =>
        cases hCopies with
        | copiesNone => exact Or.inr hQuoted
        | copiesNext hFirst hRest =>
            have hMark :=
              eq_of_parses_mark (by decide) hFirst
            have hOrder := hRest.isNullable.1
            exact Or.inl ⟨by omega, hMark.2⟩
  · have hRule :
        (⟨"case-sensitive-string",
          concatenation
            [mark "Ss", ruleName "quoted-string"]⟩ :
              Rule) ∈ rules := by
      decide
    rcases exists_parses_of_mem hRule hSpan with
      ⟨_, hSeries, _⟩
    rcases Scope.Parses.series hSeries with
      ⟨mid, _, _, hMark, hOne, _⟩
    have hQuoted := le_of_parses_quoted hOne.series_last
    have hMark := eq_of_parses_mark (by decide) hMark
    exact Or.inl ⟨by omega, hMark.2⟩

/- Behind its mark a quoted text has room for two quotes. -/
theorem two_le_length_readMark
    (hSize : stop ≤ input.size)
    (h :
      scope.Parses makes input (.one (ruleName "char-val"))
        start stop calls) :
    2 ≤
      (readMark
        ((Text.between input start stop).map
          (fun b => Char.ofNat b.toNat))).2.length := by
  rcases le_of_parses_charVal h with
    ⟨hLength, hByte⟩ | ⟨hLength, hByte⟩
  · have hNext :
        ∃ b, input[start + 1]? = some b := by
      rcases h.ascii (start + 1) (by omega) (by omega) with
        ⟨b, hByte', _⟩
      exact ⟨b, hByte'⟩
    rcases hNext with ⟨b, hByte'⟩
    rw [between_eq_cons hByte (by omega),
      between_eq_cons hByte' (by omega), List.map_cons,
      List.map_cons]
    change 2 ≤ (List.map _ _).length
    rw [List.length_map, length_between hSize]
    omega
  · have hMark :
        ∀ rest : List Char,
          readMark
              (Char.ofNat (byteOf '"').toNat :: rest) =
            (false,
              Char.ofNat (byteOf '"').toNat :: rest) := by
      intro rest
      rfl
    rw [between_eq_cons hByte (by omega), List.map_cons,
      hMark, List.length_cons, List.length_map,
      length_between hSize]
    omega

/- A text in angle brackets has both of them. -/
theorem le_of_parses_proseVal
    (h :
      scope.Parses makes input (.one (ruleName "prose-val"))
        start stop calls) :
    start + 2 ≤ stop := by
  have hRule :
      (⟨"prose-val",
        concatenation
          [chars "<",
           any
             (alternation
               [range '\x20' '\x3d', range '\x3f' '\x7e']),
           chars ">"]⟩ : Rule) ∈ rules := by
    decide
  rcases exists_parses_of_mem hRule h with ⟨_, hBody, _⟩
  rcases Scope.Parses.series hBody with
    ⟨begun, _, _, hFirst, hTwo, _⟩
  rcases hTwo.series with ⟨ended, _, _, hInner, hOne, _⟩
  have hOpen := hFirst.lt (by decide)
  have hClose := hOne.series_last.lt (by decide)
  have hOrder := hInner.isNullable.1
  omega

end Grammar

end Abnf

------------------------------------------------------------
-- Matches And Frames
------------------------------------------------------------

namespace Abnf

namespace Grammar

open Assembly

variable {input : Array UInt8}
variable {frames : List Frame}
variable {good : List Frame → Prop}
variable {name : String}
variable {start stop : Nat}
variable {assembly : Assembly}
variable {top : Frame}
variable {rest : List Frame}

/- There is one element more in the innermost frame. -/
def Gains
    (top : Frame)
    (rest frames : List Frame) : Prop :=
  ∃ element, frames = top.add element :: rest

theorem yields_bind
    {α : Type}
    {value : Except ReadError α}
    {step : α → Except ReadError Assembly}
    (hValue : NoFault value)
    (hStep : ∀ a, value = .ok a → Yields good (step a)) :
    Yields good (value >>= step) := by
  cases value with
  | error cause => exact hValue cause rfl
  | ok a => exact hStep a rfl

/- An element can be put into a frame that holds some. -/
theorem yields_push
    (hTop : top.kind ≠ .rule)
    (hFrames : assembly.frames = top :: rest)
    (element : Element) :
    Yields (Gains top rest) (assembly.push element) := by
  unfold push
  rw [hFrames]
  cases top with
  | rule _ _ _ => exact absurd rfl hTop
  | elements parts => exact ⟨element, rfl⟩
  | repetition bounds parts => exact ⟨element, rfl⟩

theorem yields_takeValue
    (hTop : top.kind ≠ .rule)
    (hFrames : assembly.frames = top :: rest)
    {value : Except ReadError Element}
    (hValue : NoFault value) :
    Yields (Gains top rest) (assembly.takeValue value) :=
  yields_bind hValue
    (fun element _ => yields_push hTop hFrames element)

/- The only element of a frame is put into the next one. -/
theorem yields_takeSeries
    (hTop : top.kind ≠ .rule)
    (hFrames : assembly.frames = top :: rest)
    (parts : List Element)
    (series :
      List Element → Except ElementError Element) :
    Yields (Gains top rest)
      (assembly.takeSeries (some (.elements parts))
        series) := by
  unfold takeSeries
  apply yields_bind (noFault_ok _)
  intro found hFound
  split
  · exact yields_push hTop hFrames _
  · apply yields_bind (noFault_liftElement _)
    intro element _
    exact yields_push hTop hFrames element

theorem matchResult_of_read
    {text : List Char}
    (hRead : (Part.ofName name).isRead = true)
    (hSlice : slice? input start stop = some text)
    (frame : Option Frame) :
    assembly.matchResult input name frame start stop =
      assembly.assemble (Part.ofName name) text frame := by
  rw [matchResult, if_pos hRead, hSlice]

theorem matchResult_of_not_read
    (hRead : (Part.ofName name).isRead = false)
    (frame : Option Frame) :
    assembly.matchResult input name frame start stop =
      assembly.assemble (Part.ofName name) [] frame := by
  rw [matchResult, if_neg (by rw [hRead]; decide)]

/- A part without a meaning of its own changes nothing. -/
theorem takes_other
    (hOther : Part.ofName name = .other)
    (frames : List Frame)
    (frame : Option Frame) :
    Takes input frames (· = frames) name frame start
      stop := by
  intro assembly hFrames
  rw [matchResult_of_not_read (by rw [hOther]; rfl), hOther]
  exact hFrames

theorem takes_rule
    (rule : String)
    (incremental : Bool)
    (element : Element)
    (frames : List Frame) :
    Takes input frames (· = frames) "rule"
      (some (.rule (some rule) incremental (some element)))
      start stop := by
  intro assembly hFrames
  rw [matchResult_of_not_read rfl]
  apply yields_bind (noFault_define _ _ _ _)
  intro rules _
  exact hFrames

theorem takes_elements
    {rule : Option String}
    {incremental : Bool}
    {old : Option Element}
    (element : Element) :
    Takes input (.rule rule incremental old :: rest)
      (· = .rule rule incremental (some element) :: rest)
      "elements" (some (.elements [element])) start
      stop := by
  intro assembly hFrames
  rw [matchResult_of_not_read rfl]
  change Yields _ (assembly.takeElements _)
  unfold takeElements
  rw [hFrames]
  rfl

theorem takes_series
    (hName : name ∈ ["alternation", "concatenation"])
    (hTop : top.kind ≠ .rule)
    (parts : List Element) :
    Takes input (top :: rest) (Gains top rest) name
      (some (.elements parts)) start stop := by
  intro assembly hFrames
  simp only [List.mem_cons, List.not_mem_nil,
    or_false] at hName
  rcases hName with rfl | rfl
  · rw [matchResult_of_not_read rfl]
    exact yields_takeSeries hTop hFrames parts _
  · rw [matchResult_of_not_read rfl]
    exact yields_takeSeries hTop hFrames parts _

theorem takes_repetition
    (hTop : top.kind ≠ .rule)
    (bounds : Option (Nat × Option Nat))
    (element : Element) :
    Takes input (top :: rest) (Gains top rest) "repetition"
      (some (.repetition bounds [element])) start stop := by
  intro assembly hFrames
  rw [matchResult_of_not_read rfl]
  change
    Yields _
      (assembly.takeRepetition
        (some (.repetition bounds [element])))
  unfold takeRepetition
  apply yields_bind (noFault_ok _)
  intro only _
  cases bounds with
  | none => exact yields_push hTop hFrames only
  | some bounds =>
      apply yields_bind (noFault_liftElement _)
      intro repeated _
      exact yields_push hTop hFrames repeated

theorem takes_option
    (hTop : top.kind ≠ .rule)
    (element : Element) :
    Takes input (top :: rest) (Gains top rest) "option"
      (some (.elements [element])) start stop := by
  intro assembly hFrames
  rw [matchResult_of_not_read rfl]
  exact yields_push hTop hFrames _

/- The name at the start of a rule. -/
theorem takes_rulename
    {old : Option String}
    {incremental : Bool}
    {element : Option Element}
    {text : List Char}
    (hSlice : slice? input start stop = some text) :
    Takes input (.rule old incremental element :: rest)
      (· =
        .rule (some (String.ofList text)) incremental
          element :: rest)
      "rulename" none start stop := by
  intro assembly hFrames
  rw [matchResult_of_read rfl hSlice]
  change Yields _ (assembly.takeName _)
  unfold takeName
  rw [hFrames]
  rfl

/- The name of another rule in an element. -/
theorem takes_reference
    (hTop : top.kind ≠ .rule)
    {text : List Char}
    (hSlice : slice? input start stop = some text) :
    Takes input (top :: rest) (Gains top rest) "rulename"
      none start stop := by
  intro assembly hFrames
  rw [matchResult_of_read rfl hSlice]
  change Yields _ (assembly.takeName _)
  unfold takeName
  rw [hFrames]
  cases top with
  | rule _ _ _ => exact absurd rfl hTop
  | elements parts =>
      apply yields_bind (noFault_liftElement _)
      intro element _
      exact yields_push hTop hFrames element
  | repetition bounds parts =>
      apply yields_bind (noFault_liftElement _)
      intro element _
      exact yields_push hTop hFrames element

theorem takes_definedAs
    {rule : Option String}
    {old : Bool}
    {element : Option Element}
    {text : List Char}
    (hSlice : slice? input start stop = some text) :
    Takes input (.rule rule old element :: rest)
      (· =
        .rule rule (isIncremental text) element :: rest)
      "defined-as" none start stop := by
  intro assembly hFrames
  rw [matchResult_of_read rfl hSlice]
  change Yields _ (assembly.takeSign _)
  unfold takeSign
  rw [hFrames]
  rfl

theorem takes_repeat
    {old : Option (Nat × Option Nat)}
    {parts : List Element}
    {text : List Char}
    (hSlice : slice? input start stop = some text)
    (hText : text ≠ []) :
    Takes input (.repetition old parts :: rest)
      (fun f =>
        ∃ bounds, f = .repetition bounds parts :: rest)
      "repeat" none start stop := by
  intro assembly hFrames
  rw [matchResult_of_read rfl hSlice]
  change Yields _ (assembly.takeBounds _)
  unfold takeBounds
  apply yields_bind (noFault_readRepeat hText)
  intro bounds _
  rw [hFrames]
  exact ⟨some bounds, rfl⟩

/- The rules of values and how these are read. -/
def valueOf
    (name : String)
    (text : List Char) : Except ReadError Element :=
  match name with
  | "char-val" => readCharVal text
  | "bin-val" => readNumVal 2 text
  | "dec-val" => readNumVal 10 text
  | "hex-val" => readNumVal 16 text
  | _ => readProseVal text

theorem takes_value
    (hName :
      name ∈
        ["char-val", "bin-val", "dec-val", "hex-val",
         "prose-val"])
    (hTop : top.kind ≠ .rule)
    {text : List Char}
    (hSlice : slice? input start stop = some text)
    (hValue : NoFault (valueOf name text)) :
    Takes input (top :: rest) (Gains top rest) name none
      start stop := by
  intro assembly hFrames
  simp only [List.mem_cons, List.not_mem_nil,
    or_false] at hName
  rcases hName with rfl | rfl | rfl | rfl | rfl
  all_goals
    rw [matchResult_of_read rfl hSlice]
    exact yields_takeValue hTop hFrames hValue

end Grammar

end Abnf
