import Abnf.Proofs.GrammarReading

/-
  Derivations of single elements.

  An element of a grammar text that is derived is found by
  the matcher, with the same calls. Values need two bytes to
  be told apart, for most of them start with a percent sign.
  An element in brackets holds an alternation, which is read
  if all those further on in the text are.

  Key definitions include:
    * `Abnf.Grammar.ReadsBehind`

  Main declarations:
    * `Abnf.Grammar.Readings.reads_charVal`
    * `Abnf.Grammar.Readings.reads_repeat`
    * `Abnf.Grammar.Readings.reads_element`
-/

------------------------------------------------------------
-- Literal Values
------------------------------------------------------------

namespace Abnf

namespace Grammar

open Element

variable {input : Array UInt8}
variable {callee : String → Nat → Run}
variable {start stop : Nat}
variable {calls : List Call}

theorem predicts_literals :
    ∀ name ∈
      ["quoted-string", "case-insensitive-string",
       "case-sensitive-string", "prose-val"],
      scope.predicts 8 8 anyByte name = true := by
  set_option maxRecDepth 8000 in decide

theorem predicts_words :
    ∀ name ∈ ["rulename", "num-val"],
      scope.predicts 8 8 endsWord name = true := by
  set_option maxRecDepth 8000 in decide

theorem chars_percent :
    chars "%" = range '%' '%' := by
  decide

/- The letters that stand behind a percent sign. -/
def letterSet
    (letters : String) : CharSet :=
  letters.toList.foldl
    (fun s c => s ∪ CharSet.ofRange c c) CharSet.empty

/- The letters behind a percent sign tell what follows. -/
theorem letterSet_apart :
    ∀ byte : Option UInt8,
      (byte.any (letterSet "Ss").containsByte = true →
        byte.any (letterSet "Ii").containsByte = false) ∧
      (∀ name ∈ ["bin-val", "dec-val", "hex-val"],
        starts name byte = true →
        byte.any (letterSet "Ii").containsByte = false ∧
        byte.any (letterSet "Ss").containsByte = false) :=
  forall_byte (by decide)
    (by set_option maxRecDepth 8000 in decide)

/- A percent sign alone makes no mark. -/
theorem refuses_mark
    {letters : String}
    (hSome : (letterSet letters).isEmpty = false)
    (hSign : input[start]? = some (byteOf '%'))
    (hLetter :
      input[start + 1]?.any
        (letterSet letters).containsByte = false) :
    ((mark letters).run input callee start).Refuses
      makes := by
  have hPercent :
      ((chars "%").run input callee start).Reads makes
        (start + 1) [] := by
    rw [chars_percent, range]
    exact
      @reads_terminal scope makes input callee _ _ _ _
        (.member hSign (by decide))
  rw [mark, run, runSeries]
  apply hPercent.andThen_refuses
  rw [runSeries]
  apply Run.Refuses.andThen
  exact refuses_terminal hSome hLetter

namespace Readings

theorem refuses_insensitive
    (hRuns : Readings input callee)
    (hSign : input[start]? = some (byteOf '%'))
    (hLetter :
      input[start + 1]?.any
        (letterSet "Ii").containsByte = false) :
    (callee "case-insensitive-string" start).Refuses
      makes := by
  have hBody :=
    hRuns.body
      ⟨"case-insensitive-string",
        concatenation
          [optional (mark "Ii"), ruleName "quoted-string"]⟩
      (by decide) start
  have hMark :=
    @refuses_mark input callee start "Ii" (by decide) hSign
      hLetter
  have hOptional :
      ((optional (mark "Ii")).run input callee start).Reads
        makes start [] := by
    rw [Element.optional, run]
    exact
      Node.reads_runCopies .none (Nat.zero_le _)
        (fun _ _ => Nat.zero_le _) (Or.inl hMark)
        (Nat.succ_pos _)
  have hQuoted :
      (callee "quoted-string" start).Refuses makes := by
    apply hRuns.refuses
    rw [hSign]
    decide
  have hSeries :
      ((concatenation
        [optional (mark "Ii"),
         ruleName "quoted-string"]).run input callee
          start).Refuses makes := by
    rw [run, runSeries]
    apply hOptional.andThen_refuses
    rw [runSeries, run]
    exact hQuoted.andThen
  rw [hBody]
  exact Run.refuses_reported hSeries.outcome _ _

theorem refuses_sensitive
    (hRuns : Readings input callee)
    (hSign : input[start]? = some (byteOf '%'))
    (hLetter :
      input[start + 1]?.any
        (letterSet "Ss").containsByte = false) :
    (callee "case-sensitive-string" start).Refuses
      makes := by
  have hBody :=
    hRuns.body
      ⟨"case-sensitive-string",
        concatenation
          [mark "Ss", ruleName "quoted-string"]⟩
      (by decide) start
  have hSeries :
      ((concatenation
        [mark "Ss", ruleName "quoted-string"]).run input
          callee start).Refuses makes := by
    rw [run, runSeries]
    exact
      (refuses_mark (by decide) hSign hLetter).andThen
  rw [hBody]
  exact Run.refuses_reported hSeries.outcome _ _

/- A quoted text is read, with a mark or without. -/
theorem reads_charVal
    (hRuns : Readings input callee)
    (h :
      scope.Parses makes input (.one (ruleName "char-val"))
        start stop calls) :
    (callee "char-val" start).Reads makes stop calls := by
  have hRule :
      (⟨"char-val",
        alternation
          [ruleName "case-insensitive-string",
           ruleName "case-sensitive-string"]⟩ : Rule) ∈
        rules := by
    decide
  apply hRuns.reads_of_body hRule h
  intro inner hInner
  rcases exists_mem_of_parses hInner with
    ⟨part, hPart, hSpan⟩
  simp only [List.mem_cons, List.not_mem_nil,
    or_false] at hPart
  rw [run]
  rcases hPart with rfl | rfl
  · apply @reads_runFirst _ _ _ _ _ []
    · intro other hOther
      cases hOther
    · rw [run]
      exact
        hRuns.reads anyByte _
          (predicts_literals _ (by decide)) _ _ _ hSpan rfl
  · have hRule :
        (⟨"case-sensitive-string",
          concatenation
            [mark "Ss", ruleName "quoted-string"]⟩ : Rule) ∈
          rules := by
      decide
    rcases exists_parses_of_mem hRule hSpan with
      ⟨_, hSeries, _⟩
    rcases hSeries.series with ⟨_, _, _, hMark, _, _⟩
    rcases Scope.Parses.series hMark with
      ⟨next, _, _, hSign, hLetter, _⟩
    rw [chars_percent] at hSign
    rcases eq_of_parses_range (by decide) hSign with
      ⟨rfl, hByte, _⟩
    have hMember :
        input[start + 1]?.any
          (letterSet "Ss").containsByte = true := by
      cases hLetter.series_last with
      | nothing hEmpty => exact absurd hEmpty (by decide)
      | member hNext hIn =>
          rw [hNext]
          exact hIn
    apply @reads_runFirst _ _ _ _ _
      [ruleName "case-insensitive-string"]
    · intro other hOther
      rw [List.mem_singleton.mp hOther, run]
      exact
        hRuns.refuses_insensitive hByte
          ((letterSet_apart _).1 hMember)
    · rw [run]
      exact
        hRuns.reads anyByte _
          (predicts_literals _ (by decide)) _ _ _ hSpan rfl

/- Where there is a character number, there is no quote. -/
theorem refuses_charVal
    (hRuns : Readings input callee)
    (h :
      scope.Parses makes input (.one (ruleName "num-val"))
        start stop calls) :
    (callee "char-val" start).Refuses makes := by
  have hRule :
      (⟨"num-val",
        concatenation
          [chars "%",
           alternation
             [ruleName "bin-val",
              ruleName "dec-val",
              ruleName "hex-val"]]⟩ : Rule) ∈ rules := by
    decide
  rcases exists_parses_of_mem hRule h with
    ⟨inner, hInner, _⟩
  rcases Scope.Parses.series hInner with
    ⟨next, _, _, hSign, hValue, _⟩
  rw [chars_percent] at hSign
  rcases eq_of_parses_range (by decide) hSign with
    ⟨rfl, hByte, _⟩
  rcases exists_mem_of_parses hValue.series_last with
    ⟨part, hPart, hSpan⟩
  have hLetter :
      input[start + 1]?.any
          (letterSet "Ii").containsByte = false ∧
        input[start + 1]?.any
          (letterSet "Ss").containsByte = false := by
    simp only [List.mem_cons, List.not_mem_nil,
      or_false] at hPart
    rcases hPart with rfl | rfl | rfl
    · exact
        (letterSet_apart _).2 _ (by decide)
          (starts_of_parses (by decide) hSpan)
    · exact
        (letterSet_apart _).2 _ (by decide)
          (starts_of_parses (by decide) hSpan)
    · exact
        (letterSet_apart _).2 _ (by decide)
          (starts_of_parses (by decide) hSpan)
  have hBody :=
    hRuns.body
      ⟨"char-val",
        alternation
          [ruleName "case-insensitive-string",
           ruleName "case-sensitive-string"]⟩
      (by decide) start
  have hFirst :
      ((alternation
        [ruleName "case-insensitive-string",
         ruleName "case-sensitive-string"]).run input callee
          start).Refuses makes := by
    rw [run]
    apply refuses_runFirst
    intro part hPart
    simp only [List.mem_cons, List.not_mem_nil,
      or_false] at hPart
    rcases hPart with rfl | rfl
    · rw [run]
      exact hRuns.refuses_insensitive hByte hLetter.1
    · rw [run]
      exact hRuns.refuses_sensitive hByte hLetter.2
  rw [hBody]
  exact Run.refuses_reported hFirst.outcome _ _

end Readings

end Grammar

end Abnf

------------------------------------------------------------
-- Counts, Brackets And Elements
------------------------------------------------------------

namespace Abnf

namespace Grammar

open Element

variable {input : Array UInt8}
variable {callee : String → Nat → Run}
variable {start stop : Nat}
variable {calls : List Call}

/- A count with a star between its bounds. -/
def starredCount : Element :=
  concatenation
    [any (ruleName "DIGIT"), chars "*",
     any (ruleName "DIGIT")]

/- The byte goes on with no count. -/
def endsCount
    (byte : Option UInt8) : Bool :=
  !starts "repeat" byte

theorem predicts_count :
    ∀ element ∈
      [starredCount, any (ruleName "DIGIT"),
       digits "DIGIT"],
      element.predicts (fun b => scope.opens b 8)
        (scope.predicts 8 8) endsCount = true := by
  set_option maxRecDepth 8000 in decide

theorem names_count :
    ∀ element ∈
      [starredCount, any (ruleName "DIGIT"),
       digits "DIGIT"],
      ∀ name ∈ element.names, name ∉ scope.nullable := by
  rw [nullable_scope]
  decide

theorem not_star_of_endsCount :
    ∀ byte, endsCount byte = true →
      byte.any (letterSet "*").containsByte = false :=
  forall_byte (by decide)
    (by set_option maxRecDepth 8000 in decide)

/- The byte goes on with no alternation. -/
def endsAll
    (byte : Option UInt8) : Bool :=
  !startsMore byte

/-
  The alternations behind an offset are read, if no word and
  nothing else that can go on with them follows.
-/
def ReadsBehind
    (input : Array UInt8)
    (callee : String → Nat → Run)
    (index : Nat) : Prop :=
  ∀ i, index < i → ∀ stop calls,
    scope.Parses makes input (.one (ruleName "alternation"))
      i stop calls →
    endsWord input[stop]? = true →
    Precedes input callee endsAll stop →
    (callee "alternation" i).Reads makes stop calls

theorem ReadsBehind.mono
    {index index' : Nat}
    (h : ReadsBehind input callee index)
    (hLow : index ≤ index') :
    ReadsBehind input callee index' :=
  fun i hLess => h i (Nat.lt_of_le_of_lt hLow hLess)

/- What is used of the closing bracket of a pair. -/
theorem closing_bracket :
    ∀ last ∈ [')', ']'],
      starts "c-wsp" (some (byteOf last)) = false ∧
      endsWord (some (byteOf last)) = true ∧
      startsMore (some (byteOf last)) = false := by
  intro last hLast
  simp only [List.mem_cons, List.not_mem_nil,
    or_false] at hLast
  rcases hLast with rfl | rfl
  all_goals decide

theorem not_starts_blank_of_starts :
    ∀ byte, ∀ name ∈
      ["repetition", "concatenation", "alternation"],
      starts name byte = true →
      starts "c-wsp" byte = false :=
  forall_byte (by decide)
    (by set_option maxRecDepth 8000 in decide)

/- The parts of the rule for elements start differently. -/
theorem apart_elements :
    ∀ byte, ∀ found ∈ elementNames,
      ∀ other ∈ elementNames.takeWhile (· != found),
        starts found byte = true →
        starts other byte = false ∨
          (found = "num-val" ∧ other = "char-val") :=
  forall_byte (by decide)
    (by set_option maxRecDepth 8000 in decide)

namespace Readings

/- A count is read up to where no digit or star follows. -/
theorem reads_repeat
    (hRuns : Readings input callee)
    (h :
      scope.Parses makes input (.one (ruleName "repeat"))
        start stop calls)
    (hEnds : endsCount input[stop]? = true) :
    (callee "repeat" start).Reads makes stop calls := by
  have hRule :
      (⟨"repeat",
        alternation [starredCount, digits "DIGIT"]⟩ :
          Rule) ∈ rules := by
    decide
  have hReads :
      ∀ element ∈
        [starredCount, any (ruleName "DIGIT"),
         digits "DIGIT"],
        ∀ inner,
          scope.Parses makes input (.one element)
            start stop inner →
          (element.run input callee start).Reads makes
            stop inner :=
    fun element hElement inner hSpan =>
      element.reads_of_predicts isFirm_scope
        hRuns.foresees endsCount
        (names_count element hElement)
        (predicts_count element hElement) start stop inner
        hSpan hEnds
  apply hRuns.reads_of_body hRule h
  intro inner hInner
  rcases exists_mem_of_parses hInner with
    ⟨part, hPart, hSpan⟩
  simp only [List.mem_cons, List.not_mem_nil,
    or_false] at hPart
  rw [run]
  rcases hPart with rfl | rfl
  · apply @reads_runFirst _ _ _ _ _ []
    · intro other hOther
      cases hOther
    · exact hReads _ (by decide) inner hSpan
  · -- The digits are taken for a lower bound first.
    have hDigits :
        ((any (ruleName "DIGIT")).run input callee
          start).Reads makes stop inner := by
      cases hSpan with
      | repetition _ _ hCopies =>
          exact
            hReads _ (by decide) _
              (.repetition (Nat.zero_le _)
                (fun _ hNone => nomatch hNone) hCopies)
    have hNone : inner = [] :=
      calls_eq_nil_of_names (by decide) hSpan
    apply @reads_runFirst _ _ _ _ _ [starredCount]
    · intro other hOther
      rw [List.mem_singleton.mp hOther, starredCount, run,
        runSeries]
      rw [hNone] at hDigits
      apply hDigits.andThen_refuses
      rw [runSeries]
      apply Run.Refuses.andThen
      exact
        refuses_terminal (by decide)
          (not_star_of_endsCount _ hEnds)
    · exact hReads _ (by decide) inner hSpan

/- An alternation between brackets is read. -/
theorem reads_enclosed
    (hRuns : Readings input callee)
    {first last : Char}
    (hFirst : (CharSet.ofRange first first).isEmpty = false)
    (hLast : (CharSet.ofRange last last).isEmpty = false)
    (hClosing : last ∈ [')', ']'])
    (hInner : ReadsBehind input callee start)
    (h :
      scope.Parses makes input (.one (enclosed first last))
        start stop calls) :
    ((enclosed first last).run input callee start).Reads
      makes stop calls := by
  rcases closing_bracket last hClosing with
    ⟨hBlank, hEnds, hMore⟩
  rcases Scope.Parses.series h with
    ⟨opened, _, _, hOpen, hFour, rfl⟩
  rcases hFour.series with
    ⟨begun, _, _, hBefore, hThree, rfl⟩
  rcases hThree.series with
    ⟨ended, inside, _, hInside, hTwo, rfl⟩
  rcases hTwo.series with
    ⟨closing, _, _, hBehind, hOne, rfl⟩
  have hClose := hOne.series_last
  have hOpened := (eq_of_parses_range hFirst hOpen).1
  have hByte := (eq_of_parses_range hLast hClose).2.1
  have hNoBlank :
      (callee "c-wsp" closing).Refuses makes := by
    apply hRuns.refuses
    rw [hByte]
    exact hBlank
  have hNoBlank' :
      (callee "c-wsp" begun).Refuses makes := by
    apply hRuns.refuses
    apply not_starts_blank_of_starts _ "alternation"
      (by decide)
    exact starts_of_parses (by decide) hInside
  have hBegun := hBefore.isNullable.1
  have hReads :
      (callee "alternation" begun).Reads makes ended
        inside := by
    apply hInner begun (by omega) ended inside hInside
    · cases hBehind with
      | repetition _ _ hCopies =>
          apply
            hRuns.endsWord_of_skips
              (hRuns.skips_of_parses hCopies).1
          rw [hByte]
          exact hEnds
    · cases hBehind with
      | repetition _ _ hCopies =>
          refine
            ⟨_, closing,
              (hRuns.skips_of_parses hCopies).1,
              hNoBlank, ?_⟩
          simp [endsAll, hByte, hMore]
  rw [enclosed, run, runSeries]
  refine (reads_terminal hOpen).andThen ?_
  rw [runSeries]
  refine
    (hRuns.reads_blanks_of_parses hBefore
      hNoBlank').andThen ?_
  rw [runSeries, run]
  refine hReads.andThen ?_
  rw [runSeries]
  refine
    (hRuns.reads_blanks_of_parses hBehind hNoBlank).andThen
      ?_
  exact reads_runSeries_last (reads_terminal hClose)

theorem reads_bracket
    (hRuns : Readings input callee)
    {name : String}
    {first last : Char}
    (hBracket : IsBracket name first last)
    (hClosing : last ∈ [')', ']'])
    (hInner : ReadsBehind input callee start)
    (h :
      scope.Parses makes input (.one (ruleName name))
        start stop calls) :
    (callee name start).Reads makes stop calls := by
  apply hRuns.reads_of_body hBracket.rule h
  intro inner hSpan
  exact
    hRuns.reads_enclosed hBracket.firstSome
      hBracket.lastSome hClosing hInner hSpan

/- An element is read, if no word goes on behind it. -/
theorem reads_element
    (hRuns : Readings input callee)
    (hInner : ReadsBehind input callee start)
    (h :
      scope.Parses makes input (.one (ruleName "element"))
        start stop calls)
    (hEnds : endsWord input[stop]? = true) :
    (callee "element" start).Reads makes stop calls := by
  have hRule :
      (⟨"element",
        alternation (elementNames.map ruleName)⟩ : Rule) ∈
        rules := by
    decide
  apply hRuns.reads_of_body hRule h
  intro inner hBody
  rcases exists_mem_of_parses hBody with
    ⟨part, hPart, hSpan⟩
  rcases List.mem_map.mp hPart with ⟨found, hFound, rfl⟩
  have hStarts : starts found input[start]? = true := by
    apply starts_of_parses _ hSpan
    rintro rfl
    exact absurd hFound (by decide)
  have hReads : (callee found start).Reads makes stop inner := by
    simp only [elementNames, List.mem_cons,
      List.not_mem_nil, or_false] at hFound
    rcases hFound with rfl | rfl | rfl | rfl | rfl | rfl
    · exact
        hRuns.reads endsWord _
          (predicts_words _ (by decide)) _ _ _ hSpan hEnds
    · exact
        hRuns.reads_bracket isBracket_group (by decide)
          hInner hSpan
    · exact
        hRuns.reads_bracket isBracket_option (by decide)
          hInner hSpan
    · exact hRuns.reads_charVal hSpan
    · exact
        hRuns.reads endsWord _
          (predicts_words _ (by decide)) _ _ _ hSpan hEnds
    · exact
        hRuns.reads anyByte _
          (predicts_literals _ (by decide)) _ _ _ hSpan rfl
  have hSplit :
      elementNames =
        elementNames.takeWhile (· != found) ++
          found ::
            (elementNames.dropWhile (· != found)).tail := by
    exact
      (by decide :
        ∀ name ∈ elementNames,
          elementNames =
            elementNames.takeWhile (· != name) ++
              name ::
                (elementNames.dropWhile (· != name)).tail)
        found hFound
  rw [run, hSplit, List.map_append, List.map_cons]
  apply reads_runFirst
  · intro other hOther
    rcases List.mem_map.mp hOther with ⟨name, hName, rfl⟩
    rw [run]
    rcases apart_elements _ found hFound name hName
        hStarts with
      hNot | ⟨rfl, rfl⟩
    · exact hRuns.refuses hNot
    · exact hRuns.refuses_charVal hSpan
  · rw [run]
    exact hReads

end Readings

end Grammar

end Abnf
