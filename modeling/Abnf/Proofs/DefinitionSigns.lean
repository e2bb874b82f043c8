import Abnf.Proofs.BigStep
import Abnf.Proofs.GrammarForms

/-
  Definition signs.

  Which sign defines a rule is found by a scan that keeps
  track of comments by itself. The scan goes over all blanks
  before the sign, with the comments in them, and what it
  finds is the part that the choice between the signs takes.

  Key definitions include:
    * `Abnf.Grammar.Passes`
    * `Abnf.Grammar.IsGap`
    * `Abnf.Grammar.addSign`
    * `Abnf.Grammar.plainSign`

  Main declarations:
    * `Abnf.Grammar.isGap_of_blanks`
    * `Abnf.Grammar.isIncremental_iff_derives`
-/

------------------------------------------------------------
-- Steps Of The Scan
------------------------------------------------------------

namespace Abnf

namespace Grammar

/-
  The scan goes over a text, in a comment or not before it
  and behind it.
-/
def Passes
    (before after : Bool)
    (text : List Char) : Prop :=
  ∀ rest,
    isIncrementalWithin before (text ++ rest) =
      isIncrementalWithin after rest

namespace Passes

variable {before mid after : Bool}

theorem append
    {text text' : List Char}
    (h : Passes before mid text)
    (h' : Passes mid after text') :
    Passes before after (text ++ text') := by
  intro rest
  rw [List.append_assoc, h, h']

/- A comment can start anywhere. -/
theorem semicolon : Passes before true [';'] := by
  intro rest
  simp [isIncrementalWithin]

/- A line feed ends all comments. -/
theorem lineFeed : Passes before false ['\n'] := by
  intro rest
  simp [isIncrementalWithin]

/- Of other characters, the scan stops at a sign only. -/
theorem other
    {c : Char}
    (hStart : c ≠ ';')
    (hEnd : c ≠ '\n')
    (hSign : c ≠ '=' ∨ before = true) :
    Passes before before [c] := by
  intro rest
  rw [List.singleton_append, isIncrementalWithin,
    if_neg hStart, if_neg hEnd, if_neg]
  rcases hSign with hSign | rfl
  · simp [hSign]
  · simp

/- In a comment, the scan goes over all of a line. -/
theorem line
    {text : List Char}
    (h : ∀ c ∈ text, c ≠ '\n') :
    Passes true true text := by
  induction text with
  | nil => exact fun _ => rfl
  | cons c text ih =>
      rw [List.forall_mem_cons] at h
      rw [← List.singleton_append]
      apply Passes.append _ (ih h.2)
      by_cases hStart : c = ';'
      · subst hStart
        exact semicolon
      · exact other hStart h.1 (Or.inr rfl)

end Passes

/-
  A text without a definition sign, as far as the scan goes,
  which does not turn a sign before it into another.
-/
structure IsGap
    (text : List Char) : Prop where
  passes : Passes false false text
  head : text.head? ≠ some '/'

namespace IsGap

theorem nil : IsGap [] :=
  ⟨fun _ => rfl, by simp⟩

theorem append
    {text text' : List Char}
    (h : IsGap text)
    (h' : IsGap text') :
    IsGap (text ++ text') := by
  refine ⟨h.passes.append h'.passes, ?_⟩
  cases text with
  | nil => exact h'.head
  | cons c text => exact h.head

theorem flatten
    {texts : List (List Char)}
    (h : ∀ text ∈ texts, IsGap text) :
    IsGap texts.flatten := by
  induction texts with
  | nil => exact nil
  | cons text texts ih =>
      rw [List.forall_mem_cons] at h
      exact h.1.append (ih h.2)

end IsGap

end Grammar

end Abnf

------------------------------------------------------------
-- Blanks Are Gaps
------------------------------------------------------------

namespace Abnf

namespace Grammar

open Element

variable {bytes : List UInt8}

/- A space or a tabulator. -/
def isBlank
    (c : Char) : Bool :=
  c == ' ' || c == '\t'

theorem isChar_blank :
    IsChar (ruleName "WSP") isBlank := by
  have hRule :
      (⟨"WSP",
        alternation [ruleName "SP", ruleName "HTAB"]⟩ :
          Rule) ∈ coreRules := by
    decide
  have hSpace :
      (⟨"SP", chars " "⟩ : Rule) ∈ coreRules := by
    decide
  have hTab :
      (⟨"HTAB", chars "\t"⟩ : Rule) ∈ coreRules := by
    decide
  apply IsChar.core hRule (by decide)
  apply IsChar.alternation
  rw [List.forall_mem_cons, List.forall_mem_singleton]
  exact
    ⟨.core hSpace (by decide)
      (.terminal (by decide) (by decide)),
     .core hTab (by decide)
      (.terminal (by decide) (by decide))⟩

theorem isChar_visible :
    IsChar (ruleName "VCHAR") (· != '\n') := by
  have hRule :
      (⟨"VCHAR", range '\x21' '\x7e'⟩ : Rule) ∈
        coreRules := by
    decide
  exact
    .core hRule (by decide)
      (.terminal (by decide) (by decide))

theorem isGap_of_blank
    (h : scope.Generates (ruleName "WSP") bytes) :
    IsGap (charsOf bytes) := by
  rcases isChar_blank bytes h with ⟨c, hChar, hBlank⟩
  rw [hChar]
  rw [isBlank, Bool.or_eq_true, beq_iff_eq, beq_iff_eq]
    at hBlank
  rcases hBlank with rfl | rfl
  · exact
      ⟨.other (by decide) (by decide) (by decide),
        by decide⟩
  · exact
      ⟨.other (by decide) (by decide) (by decide),
        by decide⟩

/- The characters of a line end. -/
theorem charsOf_lineEnd
    (h : scope.Generates (ruleName "CRLF") bytes) :
    charsOf bytes = ['\r', '\n'] := by
  have hRule :
      (⟨"CRLF",
        concatenation [ruleName "CR", ruleName "LF"]⟩ :
          Rule) ∈ coreRules := by
    decide
  have hReturn :
      (⟨"CR", chars "\r"⟩ : Rule) ∈ coreRules := by
    decide
  have hFeed :
      (⟨"LF", chars "\n"⟩ : Rule) ∈ coreRules := by
    decide
  have hFirst : IsChar (ruleName "CR") (· == '\r') :=
    .core hReturn (by decide)
      (.terminal (by decide) (by decide))
  have hSecond : IsChar (ruleName "LF") (· == '\n') :=
    .core hFeed (by decide)
      (.terminal (by decide) (by decide))
  rcases (generates_of_core hRule (by decide) h).series with
    ⟨first, second, rfl, hReturn, hFeed⟩
  rcases hFirst first hReturn with ⟨c, hc, hIs⟩
  rcases hSecond second hFeed.series_last with
    ⟨d, hd, hIs'⟩
  rw [beq_iff_eq] at hIs hIs'
  rw [charsOf_append, hc, hd, hIs, hIs']
  rfl

theorem isGap_of_lineEnd
    (h : scope.Generates (ruleName "CRLF") bytes) :
    IsGap (charsOf bytes) := by
  rw [charsOf_lineEnd h]
  refine ⟨?_, by decide⟩
  exact
    @Passes.append false false false ['\r'] ['\n']
      (.other (by decide) (by decide) (by decide))
      .lineFeed

/- What is in a comment does not count. -/
theorem isGap_of_comment
    (h : scope.Generates (ruleName "comment") bytes) :
    IsGap (charsOf bytes) := by
  have hRule :
      (⟨"comment",
        concatenation
          [chars ";",
           any
             (alternation
               [ruleName "WSP", ruleName "VCHAR"]),
           ruleName "CRLF"]⟩ : Rule) ∈ rules := by
    decide
  have hMark : IsChar (chars ";") (· == ';') :=
    .terminal (by decide) (by decide)
  have hInside :
      IsChar
        (alternation [ruleName "WSP", ruleName "VCHAR"])
        (· != '\n') := by
    apply IsChar.alternation
    rw [List.forall_mem_cons, List.forall_mem_singleton]
    refine ⟨isChar_blank.mono ?_, isChar_visible⟩
    intro c hBlank
    rw [isBlank, Bool.or_eq_true, beq_iff_eq, beq_iff_eq]
      at hBlank
    rcases hBlank with rfl | rfl <;> decide
  rcases (generates_of_rule hRule h).series with
    ⟨first, rest, rfl, hFirst, hRest⟩
  rcases hRest.series with ⟨body, last, rfl, hBody, hLast⟩
  rcases hMark first hFirst with ⟨c, hChar, hIs⟩
  rw [beq_iff_eq] at hIs
  subst hIs
  have hLine : Passes true true (charsOf body) := by
    apply Passes.line
    intro c hc
    exact bne_iff_ne.mp ((hInside.of_repetition hBody).2 c hc)
  have hEnd : Passes true false (charsOf last) := by
    rw [charsOf_lineEnd hLast.series_last]
    exact
      @Passes.append true true false ['\r'] ['\n']
        (.other (by decide) (by decide) (by decide))
        .lineFeed
  rw [charsOf_append, charsOf_append, hChar]
  exact
    ⟨Passes.semicolon.append (hLine.append hEnd), by simp⟩

/- So are blanks, each of which may be behind a comment. -/
theorem isGap_of_blanks
    (h : scope.Generates blanks bytes) :
    IsGap (charsOf bytes) := by
  have hBlankRule :
      (⟨"c-wsp",
        alternation
          [ruleName "WSP",
           concatenation
             [ruleName "c-nl", ruleName "WSP"]]⟩ : Rule) ∈
        rules := by
    decide
  have hLineRule :
      (⟨"c-nl",
        alternation [ruleName "comment", ruleName "CRLF"]⟩ :
          Rule) ∈ rules := by
    decide
  have hLine :
      ∀ word, scope.Generates (ruleName "c-nl") word →
        IsGap (charsOf word) := by
    intro word hWord
    rcases (generates_of_rule hLineRule hWord).exists_mem
      with ⟨part, hPart, hWord⟩
    rw [List.mem_cons, List.mem_singleton] at hPart
    rcases hPart with rfl | rfl
    · exact isGap_of_comment hWord
    · exact isGap_of_lineEnd hWord
  have hCopy :
      ∀ word, scope.Generates (ruleName "c-wsp") word →
        IsGap (charsOf word) := by
    intro word hWord
    rcases (generates_of_rule hBlankRule hWord).exists_mem
      with ⟨part, hPart, hWord⟩
    rw [List.mem_cons, List.mem_singleton] at hPart
    rcases hPart with rfl | rfl
    · exact isGap_of_blank hWord
    · rcases hWord.series with
        ⟨first, last, rfl, hFirst, hLast⟩
      rw [charsOf_append]
      exact
        (hLine first hFirst).append
          (isGap_of_blank hLast.series_last)
  cases h with
  | repetition _ _ hCopies =>
      rw [charsOf_flatten]
      apply IsGap.flatten
      intro text hText
      rcases List.mem_map.mp hText with ⟨word, hWord, rfl⟩
      exact hCopy word (hCopies word hWord)

end Grammar

end Abnf

------------------------------------------------------------
-- The Sign That Is Taken
------------------------------------------------------------

namespace Abnf

namespace Grammar

open Element

/- The sign that adds to a rule. -/
def addSign : Element :=
  concatenation [chars "=", chars "/"]

/- The sign of a new rule. -/
def plainSign : Element :=
  chars "="

/- Blanks, the first sign that matches, and blanks again. -/
theorem signs_mem_rules :
    (⟨"defined-as",
      concatenation
        [blanks, alternation [addSign, plainSign],
         blanks]⟩ : Rule) ∈ rules := by
  decide

theorem charsOf_addSign
    {bytes : List UInt8}
    (h : scope.Generates addSign bytes) :
    charsOf bytes = ['=', '/'] := by
  have hFirst : IsChar (chars "=") (· == '=') :=
    .terminal (by decide) (by decide)
  have hSecond : IsChar (chars "/") (· == '/') :=
    .terminal (by decide) (by decide)
  rcases h.series with ⟨first, second, rfl, hHere, hThere⟩
  rcases hFirst first hHere with ⟨c, hc, hIs⟩
  rcases hSecond second hThere.series_last with
    ⟨d, hd, hIs'⟩
  rw [beq_iff_eq] at hIs hIs'
  rw [charsOf_append, hc, hd, hIs, hIs']
  rfl

theorem charsOf_plainSign
    {bytes : List UInt8}
    (h : scope.Generates plainSign bytes) :
    charsOf bytes = ['='] := by
  have hChar : IsChar plainSign (· == '=') :=
    .terminal (by decide) (by decide)
  rcases hChar bytes h with ⟨c, hc, hIs⟩
  rw [beq_iff_eq] at hIs
  rw [hc, hIs]

/- Behind a gap, the scan stops at the sign it meets. -/
theorem isIncremental_of_isGap
    {before behind : List Char}
    (hBefore : IsGap before) :
    isIncremental (before ++ '=' :: behind) =
      (behind.head? == some '/') := by
  rw [isIncremental, hBefore.passes]
  simp [isIncrementalWithin]

/-
  The scan tells the signs apart. No blanks behind a plain
  sign can make it look like the other one.
-/
theorem isIncremental_of_words
    {before sign behind : List UInt8}
    (hBefore : scope.Generates blanks before)
    (hBehind : scope.Generates blanks behind) :
    (scope.Generates addSign sign →
      isIncremental
        (charsOf (before ++ (sign ++ behind))) = true) ∧
    (scope.Generates plainSign sign →
      isIncremental
        (charsOf (before ++ (sign ++ behind))) = false) := by
  have hGap := isGap_of_blanks hBefore
  rw [charsOf_append, charsOf_append]
  constructor
  · intro hSign
    rw [charsOf_addSign hSign]
    exact isIncremental_of_isGap hGap
  · intro hSign
    rw [charsOf_plainSign hSign, List.singleton_append,
      isIncremental_of_isGap hGap, beq_eq_false_iff_ne]
    exact (isGap_of_blanks hBehind).head

/- The parts of a definition sign matched as a whole. -/
theorem Readings.exists_sign
    {input : Array UInt8}
    {callee : String → Nat → Run}
    (hRuns : Readings input callee)
    (h :
      (callee "defined-as" 0).outcome =
        .matched input.size) :
    ∃ sign stop,
      (blanks.run input callee 0).outcome = .matched sign ∧
      ((addSign.run input callee sign).outcome =
          .matched stop ∨
        (addSign.run input callee sign).outcome = .failed ∧
          (plainSign.run input callee sign).outcome =
            .matched stop) ∧
      (blanks.run input callee stop).outcome =
        .matched input.size := by
  rw [hRuns.body _ signs_mem_rules, Run.outcome_reported,
    run] at h
  rcases @matched_of_runSeries makes input callee _ _ _ _ h
    with ⟨sign, hBefore, h, _⟩
  rcases @matched_of_runSeries makes input callee _ _ _ _ h
    with ⟨stop, hSign, h, _⟩
  rcases @matched_of_runSeries makes input callee _ _ _ _ h
    with ⟨last, hBehind, h, _⟩
  rw [runSeries] at h
  cases h
  refine ⟨sign, stop, hBefore, ?_, hBehind⟩
  rw [run, runFirst, Run.orElse_eq_resume] at hSign
  rcases @Run.resume_eq_ofStop _ _ _ (some stop) hSign with
    ⟨next, hAdd, hEnd⟩ | ⟨hNone, hNext⟩
  · cases hEnd
    exact Or.inl hAdd
  · rw [runFirst, Run.orElse_eq_resume] at hNext
    rcases @Run.resume_eq_ofStop _ _ _ (some stop) hNext
      with ⟨next, hPlain, hEnd⟩ | ⟨_, hNever⟩
    · cases hEnd
      exact Or.inr ⟨hNone, hPlain⟩
    · cases hNever

/- What the scan finds is the sign that is matched. -/
theorem Readings.isIncremental_of_sign
    {text : String}
    {callee : String → Nat → Run}
    (hRuns : Readings (Text.bytes text) callee)
    (hFully :
      (callee "defined-as" 0).outcome =
        .matched (Text.bytes text).size)
    {sign stop : Nat}
    (hBefore :
      (blanks.run (Text.bytes text) callee 0).outcome =
        .matched sign)
    (hBehind :
      (blanks.run (Text.bytes text) callee stop).outcome =
        .matched (Text.bytes text).size) :
    ((addSign.run (Text.bytes text) callee sign).outcome =
        .matched stop →
      isIncremental text.toList = true) ∧
    ((plainSign.run (Text.bytes text) callee
          sign).outcome = .matched stop →
      isIncremental text.toList = false) := by
  have hWord := @generates_of_run scope _ _
    hRuns.stays hRuns.generates
  have hStays := run_staysIn hRuns.stays
  have hLow : sign ≤ (Text.bytes text).size := by
    have hStay := hStays _ _ _ hBefore
    omega
  have hHigh := (hStays _ _ _ hBehind).1
  have hAll :=
    hRuns.generates _ _ _ (Nat.zero_le _) hFully
  rw [Text.between_all] at hAll
  have hText :
      ∀ element : Element,
        (element.run (Text.bytes text) callee
          sign).outcome = .matched stop →
        text.toList =
          charsOf
            (Text.between (Text.bytes text) 0 sign ++
              (Text.between (Text.bytes text) sign stop ++
                Text.between (Text.bytes text) stop
                  (Text.bytes text).size)) := by
    intro element hSign
    rw [Text.between_append (hStays _ _ _ hSign).1 hHigh,
      Text.between_append (Nat.zero_le _) hLow,
      Text.between_all]
    exact toList_of_generates hAll
  have hWords :=
    @isIncremental_of_words
      (Text.between (Text.bytes text) 0 sign)
      (Text.between (Text.bytes text) sign stop)
      (Text.between (Text.bytes text) stop
        (Text.bytes text).size)
      (hWord _ _ _ rfl (Nat.zero_le _) hBefore)
      (hWord _ _ _ rfl hHigh hBehind)
  constructor
  · intro hSign
    rw [hText _ hSign]
    exact hWords.1 (hWord _ _ _ rfl hLow hSign)
  · intro hSign
    rw [hText _ hSign]
    exact hWords.2 (hWord _ _ _ rfl hLow hSign)

/-
  Of all texts that are matched as definition signs, those
  add to a rule of which the sign is taken to do so. The sign
  is the one part between the blanks, whatever is in the
  comments on both sides of it.
-/
theorem isIncremental_iff_derives
    {text : String}
    (h : Matches "defined-as" text) :
    ∃ sign stop,
      scope.Derives (Text.bytes text) (.one blanks) 0
        (some sign) ∧
      scope.Derives (Text.bytes text)
        (.one (alternation [addSign, plainSign])) sign
        (some stop) ∧
      scope.Derives (Text.bytes text) (.one blanks) stop
        (some (Text.bytes text).size) ∧
      (isIncremental text.toList = true ↔
        scope.Derives (Text.bytes text) (.one addSign) sign
          (some stop)) ∧
      (isIncremental text.toList = false ↔
        scope.Derives (Text.bytes text) (.one addSign) sign
          none ∧
        scope.Derives (Text.bytes text) (.one plainSign)
          sign (some stop)) := by
  rcases exists_run_of_matches signs_mem_rules h with
    ⟨depth, hRuns, hFully⟩
  rcases hRuns.exists_sign hFully with
    ⟨sign, stop, hBefore, hSign, hBehind⟩
  have hDerives := @Scope.derives_of_run scope _ _
    (Scope.derives_of_invoke scope (Text.bytes text) depth)
  refine
    ⟨sign, stop, hDerives _ _ (some _) hBefore, ?_⟩
  have hScan :=
    hRuns.isIncremental_of_sign hFully hBefore hBehind
  rcases hSign with hAdd | ⟨hNone, hPlain⟩
  · have hTaken := hDerives _ _ (some _) hAdd
    have hTrue := hScan.1 hAdd
    refine
      ⟨.alternation (.firstHere hTaken),
        hDerives _ _ (some _) hBehind, ?_, ?_⟩
    · exact iff_of_true hTrue hTaken
    · rw [hTrue]
      refine iff_of_false nofun ?_
      rintro ⟨hNone, -⟩
      cases hNone.unique hTaken
  · have hLeft := hDerives _ _ none hNone
    have hTaken := hDerives _ _ (some _) hPlain
    have hFalse := hScan.2 hPlain
    refine
      ⟨.alternation (.firstNext hLeft (.firstHere hTaken)),
        hDerives _ _ (some _) hBehind, ?_, ?_⟩
    · rw [hFalse]
      refine iff_of_false nofun ?_
      intro hAdd
      cases hLeft.unique hAdd
    · exact iff_of_true hFalse ⟨hLeft, hTaken⟩

/- A sign with another one in a comment on either side. -/
theorem isIncremental_betweenComments :
    Matches "defined-as" " ;=\r\n\t=/ ;/=;\r\n " ∧
      ∃ sign stop,
        scope.Derives
            (Text.bytes " ;=\r\n\t=/ ;/=;\r\n ")
            (.one blanks) 0 (some sign) ∧
          scope.Derives
            (Text.bytes " ;=\r\n\t=/ ;/=;\r\n ")
            (.one addSign) sign (some stop) := by
  have hMatches :
      Matches "defined-as" " ;=\r\n\t=/ ;/=;\r\n " :=
    matches_of_run (by decide +kernel)
  rcases isIncremental_iff_derives hMatches with
    ⟨sign, stop, hBefore, _, _, hAdds, _⟩
  exact
    ⟨hMatches, sign, stop, hBefore, hAdds.mp (by decide)⟩

end Grammar

end Abnf
