import Abnf.Proofs.GrammarDerivations

/-
  Whole grammar texts.

  Alternations that are derived are read, if nothing follows
  that goes on with them. At the end of a rule the matcher
  may take more for blanks than a derivation does, namely
  the end of the line and the empty lines behind it up to
  the last one. What is left of the text after that can be
  derived all the same.

  Key definitions include:
    * `Abnf.Grammar.line`
    * `Abnf.Grammar.Rest`

  Main declarations:
    * `Abnf.Grammar.Readings.reads_alternation`
    * `Abnf.Grammar.Readings.exists_reads_rule`
    * `Abnf.Grammar.Readings.exists_rest_of_lineEnd`
    * `Abnf.Grammar.matchesFully_iff_generates`
-/

------------------------------------------------------------
-- Series Of Elements
------------------------------------------------------------

namespace Abnf

namespace Grammar

open Element

variable {input : Array UInt8}
variable {callee : String → Nat → Run}
variable {start stop : Nat}
variable {calls : List Call}

/- The byte starts no element with its count. -/
def endsParts
    (byte : Option UInt8) : Bool :=
  !starts "repetition" byte

theorem endsParts_of_endsAll
    (byte : Option UInt8)
    (h : endsAll byte = true) :
    endsParts byte = true := by
  simp only [endsAll, startsMore, Bool.not_or,
    Bool.and_eq_true] at h
  exact h.1

theorem not_slash_of_endsAll
    {byte : Option UInt8}
    (h : endsAll byte = true) :
    byte ≠ some (byteOf '/') := by
  rintro rfl
  exact absurd h (by simp [endsAll, startsMore])

/- No count stands where an element starts. -/
theorem endsCount_of_starts :
    ∀ byte, starts "element" byte = true →
      endsCount byte = true :=
  forall_byte (by decide)
    (by set_option maxRecDepth 8000 in decide)

/- What is used of the slash between alternatives. -/
theorem slash_byte :
    starts "c-wsp" (some (byteOf '/')) = false ∧
    endsWord (some (byteOf '/')) = true ∧
    endsParts (some (byteOf '/')) = true := by
  decide

namespace Readings

/- An element with its count is read. -/
theorem reads_repetition
    (hRuns : Readings input callee)
    (hInner : ReadsBehind input callee start)
    (h :
      scope.Parses makes input (.one (ruleName "repetition"))
        start stop calls)
    (hEnds : endsWord input[stop]? = true) :
    (callee "repetition" start).Reads makes stop calls := by
  have hRule :
      (⟨"repetition",
        concatenation
          [optional (ruleName "repeat"),
           ruleName "element"]⟩ : Rule) ∈ rules := by
    decide
  apply hRuns.reads_of_body hRule h
  intro inner hBody
  rcases Scope.Parses.series hBody with
    ⟨mid, counted, _, hCount, hRest, rfl⟩
  have hElement := hRest.series_last
  have hMid := hCount.isNullable.1
  have hEndsCount : endsCount input[mid]? = true :=
    endsCount_of_starts _
      (starts_of_parses (by decide) hElement)
  have hOptional :
      ((optional (ruleName "repeat")).run input callee
        start).Reads makes mid counted := by
    rw [Element.optional, run]
    cases hCount with
    | @repetition _ _ _ count _ _ _ _ hMax hCopies =>
        have hOnce := hMax 1 rfl
        cases hCopies with
        | copiesNone =>
            refine
              Node.reads_runCopies .none (Nat.zero_le _)
                (fun _ _ => Nat.zero_le _) (Or.inl ?_)
                (Nat.succ_pos _)
            rw [run]
            apply hRuns.refuses
            simpa [endsCount] using hEndsCount
        | @copiesNext rest _ _ _ _ _ _ hRepeat hNone =>
            have hZero : rest = 0 := by omega
            subst hZero
            cases hNone with
            | copiesNone =>
                have hMoves := hRepeat.lt (by
                  rw [isNullable, nullable_scope]
                  decide)
                have hReads :=
                  hRuns.reads_repeat hRepeat hEndsCount
                have hChain :=
                  @Node.Copies.next makes
                    (fun i =>
                      (ruleName "repeat").run input callee i)
                    0 start mid mid _ []
                    (by rw [run]; exact hReads) hMoves .none
                have hRoom :=
                  hChain.count_le
                    (run_staysIn hRuns.stays
                      (ruleName "repeat"))
                apply Node.reads_runCopies hChain
                · omega
                · intro limit hLimit
                  cases hLimit
                  omega
                · exact Or.inr rfl
                · omega
  rw [run, runSeries]
  refine hOptional.andThen ?_
  apply reads_runSeries_last
  rw [run]
  exact hRuns.reads_element (hInner.mono hMid) hElement hEnds

/- A first part and further ones are read. -/
theorem reads_separated
    (hRuns : Readings input callee)
    {name : String}
    {further : Element}
    {mid count : Nat}
    {first others : List Call}
    (hFirst : (callee name start).Reads makes mid first)
    (hOthers :
      Node.Copies makes (fun i => further.run input callee i)
        count mid stop others)
    (hLast :
      (further.run input callee stop).Refuses makes) :
    ((concatenation [ruleName name, any further]).run input
      callee start).Reads makes stop (first ++ others) := by
  rw [run, runSeries, run]
  refine hFirst.andThen ?_
  apply reads_runSeries_last
  exact hRuns.reads_copies hOthers (Nat.zero_le _) hLast

/- No further part of a concatenation can be read. -/
theorem refuses_nextRepetition
    (hRuns : Readings input callee)
    (h : Precedes input callee endsParts start) :
    (nextRepetition.run input callee start).Refuses
      makes := by
  rcases h with ⟨count, next, hSkips, hLast, hNext⟩
  rw [nextRepetition, run, runSeries]
  cases count with
  | zero =>
      cases hSkips
      apply Run.Refuses.andThen
      rw [atLeast, run]
      apply Node.refuses_runCopies _ Nat.one_pos
      rw [run]
      exact hLast
  | succ count =>
      refine
        (hRuns.reads_atLeast hSkips (by omega)
          hLast).andThen_refuses ?_
      rw [runSeries, run]
      apply Run.Refuses.andThen
      apply hRuns.refuses
      simpa [endsParts] using hNext

/- A further part of a concatenation is read. -/
theorem reads_nextRepetition
    (hRuns : Readings input callee)
    {low : Nat}
    (hInner : ReadsBehind input callee low)
    (hLow : low ≤ start)
    (h :
      scope.Parses makes input (.one nextRepetition)
        start stop calls)
    (hEnds : endsWord input[stop]? = true) :
    (nextRepetition.run input callee start).Reads makes stop
        calls ∧
      start < stop ∧
      endsWord input[start]? = true := by
  rcases Scope.Parses.series h with
    ⟨begun, blanks, part, hBlanks, hOne, rfl⟩
  have hPart := hOne.series_last
  have hBegun := hBlanks.isNullable.1
  have hStop := hPart.isNullable.1
  have hNoBlank : (callee "c-wsp" begun).Refuses makes :=
    hRuns.refuses
      (not_starts_blank_of_starts _ "repetition"
        (by decide) (starts_of_parses (by decide) hPart))
  have hReads :
      (nextRepetition.run input callee start).Reads makes
        stop (blanks ++ part) := by
    rw [nextRepetition, run, runSeries]
    refine
      (hRuns.reads_blanks_of_parses hBlanks
        hNoBlank).andThen ?_
    apply reads_runSeries_last
    rw [run]
    exact
      hRuns.reads_repetition (hInner.mono (by omega)) hPart
        hEnds
  cases hBlanks with
  | repetition hMin _ hCopies =>
      cases hCopies with
      | copiesNone => omega
      | copiesNext hBlank hMore =>
          have hMoves := hBlank.lt (by
            rw [isNullable, nullable_scope]
            decide)
          have hOrder := hMore.isNullable.1
          exact
            ⟨hReads, by omega,
              endsWord_of_starts_blank _
                (starts_of_parses (by decide) hBlank)⟩

/- The further parts of a concatenation are read. -/
theorem copies_nextRepetition
    (hRuns : Readings input callee)
    {low : Nat}
    (hInner : ReadsBehind input callee low)
    {count : Nat}
    (hLow : low ≤ start)
    (h :
      scope.Parses makes input (.copies count nextRepetition)
        start stop calls)
    (hEnds : endsWord input[stop]? = true) :
    Node.Copies makes
        (fun i => nextRepetition.run input callee i)
        count start stop calls ∧
      endsWord input[start]? = true := by
  induction count generalizing start calls with
  | zero =>
      cases h
      exact ⟨.none, hEnds⟩
  | succ count ih =>
      cases h with
      | copiesNext hFirst hRest =>
          have hOrder := hFirst.isNullable.1
          have hLater := ih (by omega) hRest
          have hPart :=
            hRuns.reads_nextRepetition hInner hLow hFirst
              hLater.2
          exact
            ⟨.next hPart.1 hPart.2.1 hLater.1, hPart.2.2⟩

/- A concatenation is read. -/
theorem reads_concatenation
    (hRuns : Readings input callee)
    (hInner : ReadsBehind input callee start)
    (h :
      scope.Parses makes input
        (.one (ruleName "concatenation")) start stop calls)
    (hEnds : endsWord input[stop]? = true)
    (hNext : Precedes input callee endsParts stop) :
    (callee "concatenation" start).Reads makes stop
      calls := by
  have hRule :
      (⟨"concatenation",
        concatenation
          [ruleName "repetition", any nextRepetition]⟩ :
            Rule) ∈ rules := by
    decide
  apply hRuns.reads_of_body hRule h
  intro inner hBody
  rcases Scope.Parses.series hBody with
    ⟨mid, _, _, hFirst, hOthers, rfl⟩
  have hMid := hFirst.isNullable.1
  cases hOthers.series_last with
  | repetition _ _ hCopies =>
      have hChain :=
        hRuns.copies_nextRepetition hInner hMid hCopies
          hEnds
      exact
        hRuns.reads_separated
          (hRuns.reads_repetition hInner hFirst hChain.2)
          hChain.1 (hRuns.refuses_nextRepetition hNext)

/- No further part of an alternation can be read. -/
theorem refuses_nextConcatenation
    (hRuns : Readings input callee)
    (h : Precedes input callee endsAll start) :
    (nextConcatenation.run input callee start).Refuses
      makes := by
  rcases h with ⟨count, next, hSkips, hLast, hNext⟩
  rw [nextConcatenation, run, runSeries]
  refine
    (hRuns.reads_atLeast hSkips (Nat.zero_le _)
      hLast).andThen_refuses ?_
  rw [runSeries, chars_slash]
  apply Run.Refuses.andThen
  exact
    refuses_terminal (by decide)
      (not_any_containsByte (not_slash_of_endsAll hNext))

/- A further part of an alternation is read. -/
theorem reads_nextConcatenation
    (hRuns : Readings input callee)
    {low : Nat}
    (hInner : ReadsBehind input callee low)
    (hLow : low ≤ start)
    (h :
      scope.Parses makes input (.one nextConcatenation)
        start stop calls)
    (hEnds : endsWord input[stop]? = true)
    (hNext : Precedes input callee endsParts stop) :
    (nextConcatenation.run input callee start).Reads makes
        stop calls ∧
      start < stop ∧
      endsWord input[start]? = true ∧
      Precedes input callee endsParts start := by
  rcases Scope.Parses.series h with
    ⟨slash, blanks, _, hBefore, hThree, rfl⟩
  rcases hThree.series with
    ⟨behind, mark, _, hSlash, hTwo, rfl⟩
  rcases hTwo.series with
    ⟨begun, blanks', part, hBehind, hOne, rfl⟩
  have hPart := hOne.series_last
  rw [chars_slash] at hSlash
  have hByte := eq_of_parses_range (by decide) hSlash
  have hOrder := hBefore.isNullable.1
  have hOrder' := hBehind.isNullable.1
  have hOrder'' := hPart.isNullable.1
  have hNoBlank : (callee "c-wsp" slash).Refuses makes := by
    apply hRuns.refuses
    rw [hByte.2.1]
    exact slash_byte.1
  have hNoBlank' : (callee "c-wsp" begun).Refuses makes :=
    hRuns.refuses
      (not_starts_blank_of_starts _ "concatenation"
        (by decide) (starts_of_parses (by decide) hPart))
  have hReads :
      (nextConcatenation.run input callee start).Reads makes
        stop (blanks ++ (mark ++ (blanks' ++ part))) := by
    rw [nextConcatenation, run, runSeries]
    refine
      (hRuns.reads_blanks_of_parses hBefore
        hNoBlank).andThen ?_
    rw [runSeries, chars_slash]
    refine (reads_terminal hSlash).andThen ?_
    rw [runSeries]
    refine
      (hRuns.reads_blanks_of_parses hBehind
        hNoBlank').andThen ?_
    apply reads_runSeries_last
    rw [run]
    exact
      hRuns.reads_concatenation (hInner.mono (by omega))
        hPart hEnds hNext
  cases hBefore with
  | repetition _ _ hCopies =>
      have hSkips := (hRuns.skips_of_parses hCopies).1
      refine
        ⟨hReads, by omega, hRuns.endsWord_of_skips hSkips ?_,
          _, slash, hSkips, hNoBlank, ?_⟩
      · rw [hByte.2.1]
        exact slash_byte.2.1
      · rw [hByte.2.1]
        exact slash_byte.2.2

/- The further parts of an alternation are read. -/
theorem copies_nextConcatenation
    (hRuns : Readings input callee)
    {low : Nat}
    (hInner : ReadsBehind input callee low)
    {count : Nat}
    (hLow : low ≤ start)
    (h :
      scope.Parses makes input
        (.copies count nextConcatenation) start stop calls)
    (hEnds : endsWord input[stop]? = true)
    (hNext : Precedes input callee endsAll stop) :
    Node.Copies makes
        (fun i => nextConcatenation.run input callee i)
        count start stop calls ∧
      endsWord input[start]? = true ∧
      Precedes input callee endsParts start := by
  induction count generalizing start calls with
  | zero =>
      cases h
      exact ⟨.none, hEnds, hNext.mono endsParts_of_endsAll⟩
  | succ count ih =>
      cases h with
      | copiesNext hFirst hRest =>
          have hOrder := hFirst.isNullable.1
          have hLater := ih (by omega) hRest
          have hPart :=
            hRuns.reads_nextConcatenation hInner hLow hFirst
              hLater.2.1 hLater.2.2
          exact
            ⟨.next hPart.1 hPart.2.1 hLater.1, hPart.2.2⟩

/- The step of the induction on the rest of the text. -/
theorem reads_alternation_of_readsBehind
    (hRuns : Readings input callee)
    (hInner : ReadsBehind input callee start)
    (h :
      scope.Parses makes input
        (.one (ruleName "alternation")) start stop calls)
    (hEnds : endsWord input[stop]? = true)
    (hNext : Precedes input callee endsAll stop) :
    (callee "alternation" start).Reads makes stop calls := by
  have hRule :
      (⟨"alternation",
        concatenation
          [ruleName "concatenation",
           any nextConcatenation]⟩ : Rule) ∈ rules := by
    decide
  apply hRuns.reads_of_body hRule h
  intro inner hBody
  rcases Scope.Parses.series hBody with
    ⟨mid, _, _, hFirst, hOthers, rfl⟩
  have hMid := hFirst.isNullable.1
  cases hOthers.series_last with
  | repetition _ _ hCopies =>
      have hChain :=
        hRuns.copies_nextConcatenation hInner hMid hCopies
          hEnds hNext
      exact
        hRuns.reads_separated
          (hRuns.reads_concatenation hInner hFirst
            hChain.2.1 hChain.2.2)
          hChain.1 (hRuns.refuses_nextConcatenation hNext)

/-
  An alternation is read, if nothing follows that goes on
  with it. The induction is on the bytes that are left: an
  alternation in brackets has fewer.
-/
theorem reads_alternation
    (hRuns : Readings input callee)
    (start stop : Nat)
    (calls : List Call)
    (h :
      scope.Parses makes input
        (.one (ruleName "alternation")) start stop calls)
    (hEnds : endsWord input[stop]? = true)
    (hNext : Precedes input callee endsAll stop) :
    (callee "alternation" start).Reads makes stop calls := by
  by_cases hStart : start < input.size
  · apply hRuns.reads_alternation_of_readsBehind _ h hEnds
      hNext
    intro i hLess stop calls h hEnds hNext
    exact hRuns.reads_alternation i stop calls h hEnds hNext
  · have hByte : input[start]? = none :=
      Array.getElem?_eq_none (Nat.not_lt.mp hStart)
    have hStarts :=
      starts_of_parses
        (by decide : "alternation" ≠ "LWSP") h
    rw [hByte] at hStarts
    exact absurd hStarts (by decide)
termination_by input.size - start

end Readings

end Grammar

end Abnf

------------------------------------------------------------
-- Rules
------------------------------------------------------------

namespace Abnf

namespace Grammar

open Element

variable {input : Array UInt8}
variable {callee : String → Nat → Run}
variable {start stop : Nat}
variable {calls : List Call}

theorem predicts_lineEnd :
    scope.predicts 8 8 anyByte "c-nl" = true := by
  set_option maxRecDepth 8000 in decide

theorem chars_equals :
    chars "=" = range '=' '=' := by
  decide

theorem not_starts_equals :
    starts "c-wsp" (some (byteOf '=')) = false := by
  decide

/- What is used of the bytes a rule goes on with. -/
theorem starts_in_rule :
    ∀ byte : Option UInt8,
      (starts "defined-as" byte = true →
        endsWord byte = true) ∧
      (starts "alternation" byte = true →
        byte ≠ some (byteOf '/')) ∧
      (starts "c-wsp" byte = true →
        byte ≠ some (byteOf '/')) ∧
      (starts "c-nl" byte = true →
        endsWord byte = true ∧ endsAll byte = true) :=
  forall_byte (by decide)
    (by set_option maxRecDepth 8000 in decide)

namespace Readings

/- The sign of a definition is read. -/
theorem reads_sign
    (hRuns : Readings input callee)
    (hNext : input[stop]? ≠ some (byteOf '/'))
    (h :
      scope.Parses makes input
        (.one
          (alternation
            [concatenation [chars "=", chars "/"],
             chars "="]))
        start stop calls) :
    ((alternation
      [concatenation [chars "=", chars "/"],
       chars "="]).run input callee start).Reads makes stop
        calls ∧
      input[start]? = some (byteOf '=') := by
  rcases exists_mem_of_parses h with ⟨part, hPart, hSpan⟩
  simp only [List.mem_cons, List.not_mem_nil,
    or_false] at hPart
  rw [run]
  rcases hPart with rfl | rfl
  · rcases Scope.Parses.series hSpan with
      ⟨_, _, _, hEquals, _, _⟩
    rw [chars_equals] at hEquals
    refine
      ⟨?_, (eq_of_parses_range (by decide) hEquals).2.1⟩
    apply @reads_runFirst _ _ _ _ _ []
    · intro other hOther
      cases hOther
    · exact
        reads_of_predicts isFirm_scope hRuns.foresees _
          anyByte (by decide) (by decide) _ _ _ hSpan rfl
  · have hEquals := hSpan
    rw [chars_equals] at hEquals
    rcases eq_of_parses_range (by decide) hEquals with
      ⟨rfl, hByte, rfl⟩
    refine ⟨?_, hByte⟩
    apply @reads_runFirst _ _ _ _ _
      [concatenation [chars "=", chars "/"]]
    · intro other hOther
      rw [List.mem_singleton.mp hOther, run, runSeries]
      refine (reads_terminal hSpan).andThen_refuses ?_
      rw [runSeries, chars_slash]
      apply Run.Refuses.andThen
      exact
        refuses_terminal (by decide)
          (not_any_containsByte hNext)
    · exact reads_terminal hSpan

/- What stands between a name and its elements is read. -/
theorem reads_definedAs
    (hRuns : Readings input callee)
    (h :
      scope.Parses makes input (.one (ruleName "defined-as"))
        start stop calls)
    (hStarts : starts "alternation" input[stop]? = true) :
    (callee "defined-as" start).Reads makes stop calls := by
  have hRule :
      (⟨"defined-as",
        concatenation
          [blanks,
           alternation
             [concatenation [chars "=", chars "/"],
              chars "="],
           blanks]⟩ : Rule) ∈ rules := by
    decide
  apply hRuns.reads_of_body hRule h
  intro inner hBody
  rcases Scope.Parses.series hBody with
    ⟨sign, _, _, hBefore, hTwo, rfl⟩
  rcases hTwo.series with ⟨behind, _, _, hSign, hOne, rfl⟩
  have hBehind := hOne.series_last
  have hNext : input[behind]? ≠ some (byteOf '/') := by
    cases hBehind with
    | repetition _ _ hCopies =>
        cases hCopies with
        | copiesNone =>
            exact (starts_in_rule _).2.1 hStarts
        | copiesNext hFirst _ =>
            exact
              (starts_in_rule _).2.2.1
                (starts_of_parses (by decide) hFirst)
  have hReads := hRuns.reads_sign hNext hSign
  have hNoBlank : (callee "c-wsp" sign).Refuses makes := by
    apply hRuns.refuses
    rw [hReads.2]
    exact not_starts_equals
  have hNoBlank' : (callee "c-wsp" stop).Refuses makes :=
    hRuns.refuses
      (not_starts_blank_of_starts _ "alternation"
        (by decide) hStarts)
  rw [run, runSeries]
  refine
    (hRuns.reads_blanks_of_parses hBefore
      hNoBlank).andThen ?_
  rw [runSeries]
  refine hReads.1.andThen ?_
  exact
    reads_runSeries_last
      (hRuns.reads_blanks_of_parses hBehind hNoBlank')

/- The elements of a rule start as an alternation does. -/
theorem starts_of_parses_elements
    (h :
      scope.Parses makes input (.one (ruleName "elements"))
        start stop calls) :
    starts "alternation" input[start]? = true := by
  have hRule :
      (⟨"elements",
        concatenation [ruleName "alternation", blanks]⟩ :
          Rule) ∈ rules := by
    decide
  rcases exists_parses_of_mem hRule h with ⟨_, hBody, _⟩
  rcases Scope.Parses.series hBody with
    ⟨_, _, _, hFirst, _, _⟩
  exact starts_of_parses (by decide) hFirst

/-
  The elements of a rule are read, with all the blanks that
  follow.
-/
theorem exists_reads_elements
    (hRuns : Readings input callee)
    (h :
      scope.Parses makes input (.one (ruleName "elements"))
        start stop calls)
    {count ended : Nat}
    (hSkips : Skips input callee count stop ended)
    (hLast : (callee "c-wsp" ended).Refuses makes)
    (hEnd : starts "c-nl" input[ended]? = true) :
    ∃ calls',
      (callee "elements" start).Reads makes ended calls' ∧
      (ended = stop → calls' = calls) := by
  have hRule :
      (⟨"elements",
        concatenation [ruleName "alternation", blanks]⟩ :
          Rule) ∈ rules := by
    decide
  rcases exists_parses_of_mem hRule h with
    ⟨inner, hBody, hCalls⟩
  rcases Scope.Parses.series hBody with
    ⟨mid, inside, _, hFirst, hOne, rfl⟩
  cases hOne.series_last with
  | repetition _ _ hCopies =>
      rcases hRuns.skips_of_parses hCopies with
        ⟨hBlanks, rfl⟩
      have hAll : Skips input callee _ mid ended :=
        hBlanks.append hSkips
      have hFollow := (starts_in_rule _).2.2.2 hEnd
      have hReads :=
        hRuns.reads_alternation start mid _ hFirst
          (hRuns.endsWord_of_skips hAll hFollow.1)
          ⟨_, ended, hAll, hLast, hFollow.2⟩
      have hSeries :
          ((concatenation
            [ruleName "alternation", blanks]).run input
              callee start).Reads makes ended
                (inside ++ []) := by
        rw [run, runSeries, run]
        exact
          hReads.andThen
            (reads_runSeries_last
              (hRuns.reads_atLeast hAll (Nat.zero_le _)
                hLast))
      refine
        ⟨_, hRuns.body _ hRule start ▸
          hSeries.reported "elements" start, ?_⟩
      rintro rfl
      exact hCalls.symm

/- An end of a line is read. -/
theorem reads_lineEnd
    (hRuns : Readings input callee)
    (h :
      scope.Parses makes input (.one (ruleName "c-nl"))
        start stop calls) :
    (callee "c-nl" start).Reads makes stop calls :=
  hRuns.reads anyByte _ predicts_lineEnd _ _ _ h rfl

/-
  A rule is read up to the end of some line, if there are
  only blanks between this and the end of the rule.
-/
theorem exists_reads_rule
    (hRuns : Readings input callee)
    (h :
      scope.Parses makes input (.one (ruleName "rule"))
        start stop calls) :
    ∃ ended,
      start ≤ ended ∧
      scope.Parses makes input (.one (ruleName "c-nl"))
        ended stop [] ∧
      ∀ count ended' stop',
        Skips input callee count ended ended' →
        (callee "c-wsp" ended').Refuses makes →
        scope.Parses makes input (.one (ruleName "c-nl"))
          ended' stop' [] →
        ∃ calls',
          (callee "rule" start).Reads makes stop' calls' ∧
          (ended' = ended → calls' = calls) := by
  have hRule :
      (⟨"rule",
        concatenation
          [ruleName "rulename", ruleName "defined-as",
           ruleName "elements", ruleName "c-nl"]⟩ :
            Rule) ∈ rules := by
    decide
  rcases exists_parses_of_mem hRule h with
    ⟨inner, hBody, hCalls⟩
  rcases Scope.Parses.series hBody with
    ⟨sign, named, _, hName, hThree, rfl⟩
  rcases hThree.series with
    ⟨begun, defined, _, hSign, hTwo, rfl⟩
  rcases hTwo.series with
    ⟨ended, elements, _, hElements, hOne, rfl⟩
  have hEnd := hOne.series_last
  have hNone := calls_eq_nil_of_names (by decide) hEnd
  subst hNone
  have hOrder := hName.isNullable.1
  have hOrder' := hSign.isNullable.1
  have hOrder'' := hElements.isNullable.1
  refine ⟨ended, by omega, hEnd, ?_⟩
  intro count ended' stop' hSkips hLast hEnd'
  have hReadsName :
      (callee "rulename" start).Reads makes sign named :=
    hRuns.reads endsWord _
      (predicts_words _ (by decide)) _ _ _ hName
      ((starts_in_rule _).1
        (starts_of_parses (by decide) hSign))
  have hStarts := starts_of_parses_elements hElements
  have hReadsSign := hRuns.reads_definedAs hSign hStarts
  rcases hRuns.exists_reads_elements hElements hSkips hLast
      (starts_of_parses (by decide) hEnd') with
    ⟨elements', hReadsElements, hSame⟩
  have hSeries :
      ((concatenation
        [ruleName "rulename", ruleName "defined-as",
         ruleName "elements", ruleName "c-nl"]).run input
          callee start).Reads makes stop'
            (named ++ (defined ++ (elements' ++ []))) := by
    rw [run, runSeries, run]
    refine hReadsName.andThen ?_
    rw [runSeries, run]
    refine hReadsSign.andThen ?_
    rw [runSeries, run]
    refine hReadsElements.andThen ?_
    apply reads_runSeries_last
    rw [run]
    exact hRuns.reads_lineEnd hEnd'
  refine
    ⟨_, hRuns.body _ hRule start ▸
      hSeries.reported "rule" start, ?_⟩
  rintro rfl
  have hOutcome := (hRuns.reads_lineEnd hEnd).outcome
  rw [(hRuns.reads_lineEnd hEnd').outcome] at hOutcome
  cases hOutcome
  rw [hSame rfl]
  exact hCalls.symm

end Readings

end Grammar

end Abnf

------------------------------------------------------------
-- Lists Of Rules
------------------------------------------------------------

namespace Abnf

namespace Grammar

open Element

variable {input : Array UInt8}
variable {callee : String → Nat → Run}
variable {start stop : Nat}
variable {calls : List Call}

/- A rule or an empty line of a list of rules. -/
def line : Element :=
  alternation [ruleName "rule", blankLine]

/- The text can be derived as lines from an offset on. -/
def Rest
    (input : Array UInt8)
    (index count : Nat) : Prop :=
  ∃ calls,
    scope.Parses makes input (.copies count line)
      index input.size calls

/- What is used of the bytes that lines start with. -/
theorem starts_in_list :
    ∀ byte : Option UInt8,
      (starts "WSP" byte = true →
        starts "c-nl" byte = false ∧
        starts "rule" byte = false) ∧
      (starts "c-wsp" byte = true →
        starts "rule" byte = false) ∧
      (starts "c-nl" byte = true →
        starts "rule" byte = false) :=
  forall_byte (by decide)
    (by set_option maxRecDepth 8000 in decide)

theorem opens_line_none :
    line.opens none (fun name => starts name none) =
      false := by
  decide

theorem rule_blank :
    (⟨"c-wsp",
      alternation
        [ruleName "WSP",
         concatenation
           [ruleName "c-nl", ruleName "WSP"]]⟩ : Rule) ∈
      rules := by
  decide

/- The end of a line with a blank behind it is a blank. -/
theorem parses_blank_of_lineEnd
    {mid : Nat}
    (hEnd :
      scope.Parses makes input (.one (ruleName "c-nl"))
        start mid [])
    (hBlank :
      scope.Parses makes input (.one (ruleName "WSP"))
        mid stop []) :
    scope.Parses makes input (.one (ruleName "c-wsp"))
      start stop [] := by
  have hPart :
      scope.Parses makes input
        (.one
          (concatenation
            [ruleName "c-nl", ruleName "WSP"]))
        start stop [] :=
    .concatenation
      (.allNext hEnd (.allNext hBlank .allNone))
  exact
    .ruleName (find?_of_mem_rules rule_blank)
      (.alternation
        (List.mem_cons_of_mem _ List.mem_cons_self) hPart)

/- A blank that starts with a space or a tab is just this. -/
theorem parses_space_of_blank
    (hStarts : starts "WSP" input[start]? = true)
    (h :
      scope.Parses makes input (.one (ruleName "c-wsp"))
        start stop calls) :
    scope.Parses makes input (.one (ruleName "WSP"))
      start stop [] := by
  rcases exists_parses_of_mem rule_blank h with
    ⟨_, hBody, _⟩
  rcases exists_mem_of_parses hBody with
    ⟨part, hPart, hSpan⟩
  simp only [List.mem_cons, List.not_mem_nil,
    or_false] at hPart
  rcases hPart with rfl | rfl
  · have hNone := calls_eq_nil_of_names (by decide) hSpan
    subst hNone
    exact hSpan
  · rcases Scope.Parses.series hSpan with
      ⟨_, _, _, hEnd, _, _⟩
    have hOther := (starts_in_list _).1 hStarts
    rw [starts_of_parses (by decide) hEnd] at hOther
    cases hOther.1

namespace Readings

/- Without a blank behind it the end of a line is none. -/
theorem refuses_blank_of_lineEnd
    (hRuns : Readings input callee)
    (hEnd :
      scope.Parses makes input (.one (ruleName "c-nl"))
        start stop [])
    (hNot : starts "WSP" input[stop]? = false) :
    (callee "c-wsp" start).Refuses makes := by
  have hStarts : starts "WSP" input[start]? = false := by
    by_contra hWsp
    have hOther :=
      (starts_in_list _).1 (Bool.not_eq_false _ ▸ hWsp)
    rw [starts_of_parses (by decide) hEnd] at hOther
    cases hOther.1
  have hFirst :
      ((alternation
        [ruleName "WSP",
         concatenation
           [ruleName "c-nl", ruleName "WSP"]]).run input
            callee start).Refuses makes := by
    rw [run]
    apply refuses_runFirst
    intro part hPart
    simp only [List.mem_cons, List.not_mem_nil,
      or_false] at hPart
    rcases hPart with rfl | rfl
    · rw [run]
      exact hRuns.refuses hStarts
    · rw [run, runSeries, run]
      apply (hRuns.reads_lineEnd hEnd).andThen_refuses
      rw [runSeries, run]
      exact (hRuns.refuses hNot).andThen
  rw [hRuns.body _ rule_blank]
  exact Run.refuses_reported hFirst.outcome _ _

/-
  Behind the end of a line there may be blank lines that the
  matcher takes for blanks. It stops at the end of the last
  of them, from where on the text can still be derived. The
  induction is on the lines that are left.
-/
theorem exists_rest_of_lineEnd
    (hRuns : Readings input callee)
    {count : Nat}
    (hEnd :
      scope.Parses makes input (.one (ruleName "c-nl"))
        start stop [])
    (hRest : Rest input stop count) :
    ∃ skipped ended next count',
      Skips input callee skipped start ended ∧
      (callee "c-wsp" ended).Refuses makes ∧
      scope.Parses makes input (.one (ruleName "c-nl"))
        ended next [] ∧
      Rest input next count' := by
  induction count generalizing start stop with
  | zero =>
      refine ⟨0, start, stop, 0, .none, ?_, hEnd, hRest⟩
      rcases hRest with ⟨_, hNone⟩
      cases hNone
      apply hRuns.refuses_blank_of_lineEnd hEnd
      rw [Array.getElem?_eq_none (Nat.le_refl _)]
      decide
  | succ count ih =>
      by_cases hStarts : starts "WSP" input[stop]? = true
      · rcases hRest with ⟨_, hLines⟩
        cases hLines with
        | copiesNext hLine hLines =>
            rcases exists_mem_of_parses hLine with
              ⟨part, hPart, hSpan⟩
            simp only [List.mem_cons, List.not_mem_nil,
              or_false] at hPart
            rcases hPart with rfl | rfl
            · have hNot := ((starts_in_list _).1 hStarts).2
              rw [starts_of_parses (by decide) hSpan] at hNot
              cases hNot
            · rcases Scope.Parses.series hSpan with
                ⟨ended, _, _, hBlanks, hOne, _⟩
              have hEnd' := hOne.series_last
              have hNone :=
                calls_eq_nil_of_names (by decide) hEnd'
              subst hNone
              rcases ih hEnd' ⟨_, hLines⟩ with
                ⟨skipped, ended', next, count', hSkips,
                  hFound⟩
              cases hBlanks with
              | repetition _ _ hCopies =>
                  cases hCopies with
                  | copiesNone =>
                      have hNot :=
                        ((starts_in_list _).1 hStarts).1
                      rw [starts_of_parses (by decide)
                        hEnd'] at hNot
                      cases hNot
                  | copiesNext hFirst hOthers =>
                      have hBlank :=
                        parses_blank_of_lineEnd hEnd
                          (parses_space_of_blank hStarts
                            hFirst)
                      have hAll :=
                        hRuns.skips_of_parses
                          (.copiesNext hBlank hOthers)
                      exact
                        ⟨_, ended', next, count',
                          hAll.1.append hSkips, hFound⟩
      · refine
          ⟨0, start, stop, count + 1, .none, ?_, hEnd, hRest⟩
        exact
          hRuns.refuses_blank_of_lineEnd hEnd
            (Bool.not_eq_true _ ▸ hStarts)

/-
  The blanks and the end of a line are read, and the rest
  can be derived behind what is read.
-/
theorem exists_reads_blankLine
    (hRuns : Readings input callee)
    {count : Nat}
    (h :
      scope.Parses makes input (.one blankLine)
        start stop calls)
    (hRest : Rest input stop count) :
    ∃ next count',
      (blankLine.run input callee start).Reads makes next
        [] ∧
      start < next ∧
      Rest input next count' := by
  rcases Scope.Parses.series h with
    ⟨ended, _, _, hBlanks, hOne, _⟩
  have hEnd := hOne.series_last
  have hNone := calls_eq_nil_of_names (by decide) hEnd
  subst hNone
  rcases hRuns.exists_rest_of_lineEnd hEnd hRest with
    ⟨skipped, ended', next, count', hSkips, hLast, hEnd',
      hRest'⟩
  have hMoves := hEnd'.lt (by
    rw [isNullable, nullable_scope]
    decide)
  cases hBlanks with
  | repetition _ _ hCopies =>
      have hAll : Skips input callee _ start ended' :=
        (hRuns.skips_of_parses hCopies).1.append hSkips
      have hOrder := hAll.le
      refine ⟨next, count', ?_, by omega, hRest'⟩
      rw [blankLine, run, runSeries]
      refine
        (hRuns.reads_atLeast hAll (Nat.zero_le _)
          hLast).andThen ?_
      apply reads_runSeries_last
      rw [run]
      exact hRuns.reads_lineEnd hEnd'

/- A rule is read, and the rest can be derived. -/
theorem exists_reads_rule_of_rest
    (hRuns : Readings input callee)
    {count : Nat}
    (h :
      scope.Parses makes input (.one (ruleName "rule"))
        start stop calls)
    (hRest : Rest input stop count) :
    ∃ next count' calls',
      (callee "rule" start).Reads makes next calls' ∧
      start < next ∧
      Rest input next count' := by
  rcases hRuns.exists_reads_rule h with
    ⟨ended, hOrder, hEnd, hReads⟩
  rcases hRuns.exists_rest_of_lineEnd hEnd hRest with
    ⟨skipped, ended', next, count', hSkips, hLast, hEnd',
      hRest'⟩
  rcases hReads skipped ended' next hSkips hLast hEnd' with
    ⟨calls', hRead, _⟩
  have hOrder' := hSkips.le
  have hMoves := hEnd'.lt (by
    rw [isNullable, nullable_scope]
    decide)
  exact ⟨next, count', calls', hRead, by omega, hRest'⟩

/- Where a blank line starts, there is no rule. -/
theorem refuses_rule
    (hRuns : Readings input callee)
    (h :
      scope.Parses makes input (.one blankLine)
        start stop calls) :
    (callee "rule" start).Refuses makes := by
  apply hRuns.refuses
  rcases Scope.Parses.series h with
    ⟨ended, _, _, hBlanks, hOne, _⟩
  cases hBlanks with
  | repetition _ _ hCopies =>
      cases hCopies with
      | copiesNone =>
          exact
            (starts_in_list _).2.2
              (starts_of_parses (by decide) hOne.series_last)
      | copiesNext hFirst _ =>
          exact
            (starts_in_list _).2.1
              (starts_of_parses (by decide) hFirst)

/- A line is read, and the rest can be derived. -/
theorem exists_reads_line
    (hRuns : Readings input callee)
    {count : Nat}
    (h :
      scope.Parses makes input (.one line) start stop calls)
    (hRest : Rest input stop count) :
    ∃ next count' calls',
      (line.run input callee start).Reads makes next
        calls' ∧
      start < next ∧
      Rest input next count' := by
  rcases exists_mem_of_parses h with ⟨part, hPart, hSpan⟩
  simp only [List.mem_cons, List.not_mem_nil,
    or_false] at hPart
  rw [line, run]
  rcases hPart with rfl | rfl
  · rcases hRuns.exists_reads_rule_of_rest hSpan hRest with
      ⟨next, count', calls', hRead, hFound⟩
    refine ⟨next, count', calls', ?_, hFound⟩
    apply @reads_runFirst _ _ _ _ _ []
    · intro other hOther
      cases hOther
    · rw [run]
      exact hRead
  · rcases hRuns.exists_reads_blankLine hSpan hRest with
      ⟨next, count', hRead, hFound⟩
    refine ⟨next, count', [], ?_, hFound⟩
    apply @reads_runFirst _ _ _ _ _ [ruleName "rule"]
    · intro other hOther
      rw [List.mem_singleton.mp hOther, run]
      exact hRuns.refuses_rule hSpan
    · exact hRead

/- No line is read at the end of the text. -/
theorem refuses_line_at_end
    (hRuns : Readings input callee) :
    (line.run input callee input.size).Refuses makes := by
  have hNone : input[input.size]? = none :=
    Array.getElem?_eq_none (Nat.le_refl _)
  have hNeeds : line.isNullable [] = false := by
    decide
  have hIdle :=
    @run_of_not_opens makes input input.size callee
      (fun name => starts name none)
      (fun name hStarts =>
        hRuns.idle name _ (hNone ▸ hStarts))
      line (hNone ▸ opens_line_none)
  rw [hNeeds] at hIdle
  exact hIdle.refuses

/-
  Lines are read up to the end of the text, if there are
  some that can be derived. They need not be the same.
-/
theorem exists_copies_line
    (hRuns : Readings input callee)
    (start : Nat)
    {count : Nat}
    (hRest : Rest input start count) :
    ∃ count' calls,
      Node.Copies makes (fun i => line.run input callee i)
        count' start input.size calls := by
  rcases hRest with ⟨_, hLines⟩
  cases hLines with
  | copiesNone => exact ⟨0, [], .none⟩
  | copiesNext hLine hLines =>
      rcases hRuns.exists_reads_line hLine ⟨_, hLines⟩ with
        ⟨next, count', calls', hRead, hMoves, hRest'⟩
      have hStays :=
        run_staysIn hRuns.stays line start next hRead.outcome
      rcases hRuns.exists_copies_line next hRest' with
        ⟨count'', calls'', hChain⟩
      exact ⟨_, _, .next hRead hMoves hChain⟩
termination_by input.size - start

/- A list of rules that is derived is read to its end. -/
theorem matched_of_parses_rulelist
    (hRuns : Readings input callee)
    (h :
      scope.Parses makes input (.one (ruleName "rulelist"))
        start input.size calls) :
    (callee "rulelist" start).outcome =
      .matched input.size := by
  have hRule :
      (⟨"rulelist", atLeast 1 line⟩ : Rule) ∈ rules := by
    decide
  have hMoves := h.lt (by
    rw [isNullable, nullable_scope]
    decide)
  rcases exists_parses_of_mem hRule h with ⟨_, hBody, _⟩
  cases hBody with
  | repetition _ _ hLines =>
      rcases hRuns.exists_copies_line start ⟨_, hLines⟩ with
        ⟨count, calls, hChain⟩
      have hSome : 1 ≤ count := by
        cases hChain with
        | none => omega
        | next _ _ _ => omega
      rw [hRuns.body _ hRule]
      exact
        (hRuns.reads_copies hChain hSome
          hRuns.refuses_line_at_end).outcome

end Readings

/-
  The matcher for grammar texts takes a whole text exactly
  when the rules generate it as a context-free grammar.
-/
theorem matchesFully_iff_generates :
    ∃ matcher entry,
      program = .ok matcher ∧
      matcher.entry? "rulelist" = some entry ∧
      ∀ input,
        matcher.matchesFully entry input = true ↔
          scope.Generates (ruleName "rulelist")
            input.toList := by
  rcases exists_readings with
    ⟨matcher, entry, hProgram, hEntry, hReadings⟩
  refine ⟨matcher, entry, hProgram, hEntry, ?_⟩
  intro input
  rcases hReadings input with ⟨callee, hRuns, hTrace⟩
  rw [Program.matchesFully, Program.run, hTrace, beq_iff_eq]
  constructor
  · intro hMatched
    rw [← Text.between_all]
    exact
      hRuns.generates _ _ _ (Nat.zero_le _) hMatched
  · intro hWord
    rcases hWord.exists_parses (Text.occurs_drop 0) with
      ⟨calls, hSpan⟩
    rw [Nat.zero_add, Array.length_toList] at hSpan
    exact hRuns.matched_of_parses_rulelist hSpan

end Grammar

end Abnf
