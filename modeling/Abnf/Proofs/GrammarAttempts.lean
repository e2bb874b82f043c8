import Abnf.Proofs.GrammarRuns

/-
  Failed attempts in parses of grammar texts.

  The parse of a grammar text tries parts that fail after
  some of what is in them has matched. Where that happens,
  the byte behind the blanks at the end of the match before
  it can start a further part. If the text is matched as a
  whole, such a byte never follows: a bracket is closed
  there, or a rule ends. So the parse of a grammar text is
  tidy, and the attempts that failed made nothing.

  Key definitions include:
    * `Abnf.Grammar.Follows`
    * `Abnf.Grammar.TidyBehind`
    * `Abnf.Grammar.IsBracket`

  Main declarations:
    * `Abnf.Grammar.Runs.tidy_enclosed`
    * `Abnf.Grammar.Runs.tidy_alternation`
    * `Abnf.Grammar.Runs.tidy_rulelist`
    * `Abnf.Grammar.finish_prune`
-/

------------------------------------------------------------
-- Parts Without Attempts Of Note
------------------------------------------------------------

namespace Abnf

namespace Grammar

open Element

variable {input : Array UInt8}
variable {callee : String → Nat → Run}

/- The rules that are read from their text. -/
def readNames : List String :=
  ["rulename", "defined-as", "repeat", "char-val",
   "bin-val", "dec-val", "hex-val", "prose-val"]

theorem exists_rule_of_mem_readNames :
    ∀ name ∈ readNames, ∃ rule ∈ rules,
      rule.name = name ∧
        rule.element.names ⊆ hushedNames := by
  decide

namespace Runs

theorem hushed_of_names
    (hRuns : Runs input callee)
    {element : Element}
    (hNames : element.names ⊆ hushedNames)
    (index : Nat) :
    (element.run input callee index).Hushed makes :=
  element.run_hushed
    (fun name hName => hRuns.hushed name (hNames hName))
    index

theorem tidy_blanks
    (hRuns : Runs input callee)
    (index : Nat) :
    (blanks.run input callee index).Tidy makes :=
  (hRuns.hushed_of_names (by decide) index).tidy

/- A part that is read from its text is calm. -/
theorem calm_read
    (hRuns : Runs input callee)
    {name : String}
    (hName : name ∈ readNames)
    (index : Nat) :
    (callee name index).Calm makes := by
  rcases exists_rule_of_mem_readNames name hName with
    ⟨rule, hRule, rfl, hNames⟩
  rw [hRuns.body rule hRule index]
  exact
    (hRuns.hushed_of_names hNames index).calm.reported
      rule.name index

/- A character number is calm: one base at most matches. -/
theorem calm_numVal
    (hRuns : Runs input callee)
    (index : Nat) :
    (callee "num-val" index).Calm makes := by
  have hBody :=
    hRuns.body
      ⟨"num-val",
        concatenation
          [chars "%",
           alternation
             [ruleName "bin-val",
              ruleName "dec-val",
              ruleName "hex-val"]]⟩
      (by decide) index
  rw [hBody]
  apply Run.Calm.reported
  rw [run, runSeries]
  apply Run.Hushed.calm_andThen
    (hRuns.hushed_of_names (by decide) index)
  intro mid _
  rw [runSeries]
  simp only [runSeries, Run.andThen_matched]
  rw [run]
  apply calm_runFirst
  intro part hPart
  simp only [List.mem_cons, List.not_mem_nil,
    or_false] at hPart
  rcases hPart with rfl | rfl | rfl
  · exact hRuns.calm_read (by decide) mid
  · exact hRuns.calm_read (by decide) mid
  · exact hRuns.calm_read (by decide) mid

end Runs

end Grammar

end Abnf

------------------------------------------------------------
-- Brackets And Elements
------------------------------------------------------------

namespace Abnf

namespace Grammar

open Element

variable {input : Array UInt8}
variable {callee : String → Nat → Run}

/- Behind the blanks at an offset is a byte of some kind. -/
def Follows
    (input : Array UInt8)
    (callee : String → Nat → Run)
    (kind : Option UInt8 → Bool)
    (index : Nat) : Prop :=
  ∃ next,
    (blanks.run input callee index).outcome =
      .matched next ∧
    kind input[next]? = true

/- The byte can go on with an alternation. -/
def startsMore
    (byte : Option UInt8) : Bool :=
  starts "repetition" byte || byte == some (byteOf '/')

/-
  The alternations behind an offset are tidy, unless a byte
  follows that can go on with them.
-/
def TidyBehind
    (input : Array UInt8)
    (callee : String → Nat → Run)
    (index : Nat) : Prop :=
  ∀ i, index < i →
    (callee "alternation" i).TidyUnless makes
      (Follows input callee startsMore)

theorem TidyBehind.mono
    {index index' : Nat}
    (h : TidyBehind input callee index)
    (hLow : index ≤ index') :
    TidyBehind input callee index' :=
  fun i hLess => h i (Nat.lt_of_le_of_lt hLow hLess)

/- The parts of the rule for elements. -/
def elementNames : List String :=
  ["rulename", "group", "option", "char-val", "num-val",
   "prose-val"]

/-
  What is used of a pair of brackets: the closing one ends an
  alternation, and the opening one starts no other element.
-/
structure IsBracket
    (name : String)
    (first last : Char) : Prop where
  rule : ⟨name, enclosed first last⟩ ∈ rules
  firstSome :
    (CharSet.ofRange first first).isEmpty = false
  lastSome : (CharSet.ofRange last last).isEmpty = false
  ends : startsMore (some (byteOf last)) = false
  apart :
    ∀ other ∈ elementNames, other ≠ name →
      starts other (some (byteOf first)) = false

theorem isBracket_group :
    IsBracket "group" '(' ')' where
  rule := by decide
  firstSome := by decide
  lastSome := by decide
  ends := by decide
  apart := by decide

theorem isBracket_option :
    IsBracket "option" '[' ']' where
  rule := by decide
  firstSome := by decide
  lastSome := by decide
  ends := by decide
  apart := by decide

namespace Runs

/-
  A pair of brackets that matches is tidy: the closing one
  stands where something would have to be pending.
-/
theorem tidy_enclosed
    (hRuns : Runs input callee)
    {name : String}
    {first last : Char}
    (hBracket : IsBracket name first last)
    {index stop : Nat}
    (hInner : TidyBehind input callee index)
    (h :
      ((enclosed first last).run input callee
        index).outcome = .matched stop) :
    ((enclosed first last).run input callee index).Tidy
      makes := by
  rw [enclosed, run] at h ⊢
  rcases matched_of_runSeries h with
    ⟨opened, hFirst, hRest, hTidyFirst⟩
  rcases matched_of_runSeries hRest with
    ⟨begun, hBefore, hRest, hTidyBefore⟩
  rcases matched_of_runSeries hRest with
    ⟨ended, hInside, hRest, hTidyInside⟩
  rcases matched_of_runSeries hRest with
    ⟨closing, hBehind, hRest, hTidyBehind⟩
  rcases matched_of_runSeries hRest with
    ⟨closed, hLast, _, hTidyLast⟩
  have hOpened :=
    (matched_of_range hFirst hBracket.firstSome).1
  have hBegun :=
    blanks.run_staysIn hRuns.stays opened begun hBefore
  have hByte :=
    (matched_of_range hLast hBracket.lastSome).2
  refine
    hTidyFirst trivial
      (hTidyBefore (hRuns.tidy_blanks opened)
        (hTidyInside ?_
          (hTidyBehind (hRuns.tidy_blanks ended)
            (hTidyLast trivial trivial))))
  rw [run] at hInside ⊢
  rcases hInner begun (by omega) ended hInside with
    hDone | ⟨next, hNext, hKind⟩
  · exact hDone
  · rw [hBehind] at hNext
    cases hNext
    rw [hByte, hBracket.ends] at hKind
    cases hKind

/- Without its first byte, a pair of brackets is hushed. -/
theorem hushed_enclosed
    {name : String}
    {first last : Char}
    (hBracket : IsBracket name first last)
    {index : Nat}
    (hByte : input[index]? ≠ some (byteOf first)) :
    ((enclosed first last).run input callee index).Hushed
      makes := by
  have hOpens :
      (enclosed first last).opens input[index]?
        (fun _ => true) = false := by
    have hFirst := not_any_containsByte hByte
    rw [enclosed, opens, opensSeries, range, opens, hFirst,
      isNullable, hBracket.firstSome]
    rfl
  have hIdle :=
    @run_of_not_opens makes input index callee
      (fun _ => true) (by intro _ hNone; cases hNone)
      (enclosed first last) hOpens
  exact hIdle.hushed

/-
  Where some part of the rule for elements matches, a pair of
  brackets is tidy: if it is the one that starts there, it is
  the part that matches.
-/
theorem tidy_bracket
    (hRuns : Runs input callee)
    {name : String}
    {first last : Char}
    (hBracket : IsBracket name first last)
    {index stop : Nat}
    (hInner : TidyBehind input callee index)
    {found : String}
    (hFound : found ∈ elementNames)
    (hMatched :
      (callee found index).outcome = .matched stop) :
    (callee name index).Tidy makes := by
  have hBody := hRuns.body _ hBracket.rule index
  by_cases hByte : input[index]? = some (byteOf first)
  · by_cases hSame : found = name
    · subst hSame
      have hUnless :
          ((enclosed first last).run input callee
            index).TidyUnless makes (fun _ => False) :=
        fun stop hStop =>
          Or.inl (hRuns.tidy_enclosed hBracket hInner hStop)
      rw [hBody] at hMatched ⊢
      exact (hUnless.reported found index).tidy hMatched
    · have hStarts := hBracket.apart found hFound hSame
      rw [← hByte] at hStarts
      have hFailed := (hRuns.idle found index hStarts).failed
      rw [hFailed] at hMatched
      cases hMatched
  · rw [hBody]
    exact
      ((hushed_enclosed hBracket hByte).calm.reported
        name index).tidy

/- An element that matches is tidy. -/
theorem tidy_element
    (hRuns : Runs input callee)
    {index : Nat}
    (hInner : TidyBehind input callee index) :
    (callee "element" index).TidyUnless makes
      (fun _ => False) := by
  have hBody :=
    hRuns.body
      ⟨"element", alternation (elementNames.map ruleName)⟩
      (by decide) index
  rw [hBody]
  apply Run.TidyUnless.reported
  intro stop h
  rw [run] at h ⊢
  rcases exists_matched_of_runFirst h with
    ⟨part, hPart, hMatched⟩
  rcases List.mem_map.mp hPart with ⟨found, hFound, rfl⟩
  rw [run] at hMatched
  apply Or.inl
  apply tidy_runFirst
  intro part hPart
  rcases List.mem_map.mp hPart with ⟨name, hName, rfl⟩
  rw [run]
  simp only [elementNames, List.mem_cons, List.not_mem_nil,
    or_false] at hName
  rcases hName with rfl | rfl | rfl | rfl | rfl | rfl
  · exact (hRuns.calm_read (by decide) index).tidy
  · exact
      hRuns.tidy_bracket isBracket_group hInner hFound
        hMatched
  · exact
      hRuns.tidy_bracket isBracket_option hInner hFound
        hMatched
  · exact (hRuns.calm_read (by decide) index).tidy
  · exact (hRuns.calm_numVal index).tidy
  · exact (hRuns.calm_read (by decide) index).tidy

end Runs

end Grammar

end Abnf

------------------------------------------------------------
-- Series Of Elements
------------------------------------------------------------

namespace Abnf

namespace Grammar

open Element

variable {input : Array UInt8}
variable {callee : String → Nat → Run}

theorem chars_slash :
    chars "/" = range '/' '/' := by
  decide

theorem not_starts_slash :
    starts "repetition" (some (byteOf '/')) = false := by
  decide

/- A further part of a concatenation. -/
def nextRepetition : Element :=
  concatenation
    [atLeast 1 (ruleName "c-wsp"), ruleName "repetition"]

/- A further part of an alternation. -/
def nextConcatenation : Element :=
  concatenation
    [blanks, chars "/", blanks, ruleName "concatenation"]

namespace Runs

/- An element with its count that matches is tidy. -/
theorem tidy_repetition
    (hRuns : Runs input callee)
    {index : Nat}
    (hInner : TidyBehind input callee index) :
    (callee "repetition" index).TidyUnless makes
      (fun _ => False) := by
  have hBody :=
    hRuns.body
      ⟨"repetition",
        concatenation
          [optional (ruleName "repeat"),
           ruleName "element"]⟩
      (by decide) index
  rw [hBody]
  apply Run.TidyUnless.reported
  intro stop h
  rw [run] at h ⊢
  rcases matched_of_runSeries h with
    ⟨mid, hRepeat, hRest, hTidyRepeat⟩
  rcases matched_of_runSeries hRest with
    ⟨_, hElement, _, hTidyElement⟩
  have hMid :=
    run_staysIn hRuns.stays _ index mid hRepeat
  have hCount :
      ∀ i,
        ((ruleName "repeat").run input callee i).Tidy
          makes := by
    intro i
    rw [run]
    exact (hRuns.calm_read (by decide) i).tidy
  have hOptional :
      ((optional (ruleName "repeat")).run input callee
        index).TidyUnless makes (fun _ => False) := by
    rw [Element.optional, run]
    exact
      Node.tidy_runCopies
        (run_staysIn hRuns.stays (ruleName "repeat"))
        (fun i _ _ _ => Or.inl (hCount i))
        (fun i _ _ => Or.inl (hCount i))
        (Nat.le_refl index)
  rw [run] at hElement
  have hBehind :=
    (hRuns.tidy_element
      (hInner.mono hMid.1)).tidy hElement
  refine
    Or.inl
      (hTidyRepeat (hOptional.tidy hRepeat)
        (hTidyElement ?_ trivial))
  rw [run]
  exact hBehind

/-
  A further part of a concatenation is tidy, unless it fails
  at a byte that can start one.
-/
theorem tidy_nextRepetition
    (hRuns : Runs input callee)
    {index : Nat}
    (hInner : TidyBehind input callee index) :
    (∀ next,
      (nextRepetition.run input callee index).outcome =
        .matched next →
      (nextRepetition.run input callee index).Tidy makes) ∧
    ((nextRepetition.run input callee index).outcome =
        .failed →
      (nextRepetition.run input callee index).Tidy makes ∨
      Follows input callee (starts "repetition") index) := by
  have hBlanks :
      ((atLeast 1 (ruleName "c-wsp")).run input callee
        index).Tidy makes :=
    (hRuns.hushed_of_names (by decide) index).tidy
  rw [nextRepetition, run]
  constructor
  · intro next h
    rcases matched_of_runSeries h with
      ⟨mid, hBefore, hRest, hTidyBefore⟩
    rcases matched_of_runSeries hRest with
      ⟨_, hPart, _, hTidyPart⟩
    have hMid :=
      run_staysIn hRuns.stays _ index mid hBefore
    rw [run] at hPart hTidyPart
    have hTidy :=
      (hRuns.tidy_repetition
        (hInner.mono hMid.1)).tidy hPart
    exact hTidyBefore hBlanks (hTidyPart hTidy trivial)
  · intro h
    rcases failed_of_runSeries hBlanks h with
      hTidy | ⟨mid, hBefore, _, hTidyBefore⟩
    · exact Or.inl hTidy
    · cases hStarts : starts "repetition" input[mid]? with
      | false =>
          have hIdle := hRuns.idle "repetition" mid hStarts
          apply Or.inl
          apply hTidyBefore
          simp only [runSeries, Run.andThen_matched]
          rw [run]
          exact hIdle.hushed.tidy
      | true =>
          refine Or.inr ⟨mid, ?_, hStarts⟩
          rw [atLeast, run] at hBefore
          rw [blanks, any, atLeast, run]
          exact Node.runCopies_zero_of_matched hBefore

/-
  A concatenation that matches is tidy, unless a byte follows
  that can start a further part of it.
-/
theorem tidy_concatenation
    (hRuns : Runs input callee)
    {index : Nat}
    (hInner : TidyBehind input callee index) :
    (callee "concatenation" index).TidyUnless makes
      (Follows input callee (starts "repetition")) := by
  have hBody :=
    hRuns.body
      ⟨"concatenation",
        concatenation
          [ruleName "repetition", any nextRepetition]⟩
      (by decide) index
  rw [hBody]
  apply Run.TidyUnless.reported
  intro stop h
  rw [run] at h ⊢
  rcases matched_of_runSeries h with
    ⟨mid, hFirst, hRest, hTidyFirst⟩
  rcases matched_of_runSeries hRest with
    ⟨ended, hOthers, hEnd, hTidyOthers⟩
  cases hEnd
  have hMid := run_staysIn hRuns.stays _ index mid hFirst
  have hNext :=
    fun i (hLow : index ≤ i) =>
      hRuns.tidy_nextRepetition (hInner.mono hLow)
  have hIteration :
      ((any nextRepetition).run input callee
        mid).TidyUnless makes
          (Follows input callee (starts "repetition")) := by
    rw [any, atLeast, run]
    exact
      Node.tidy_runCopies
        (run_staysIn hRuns.stays nextRepetition)
        (fun i next hLow hMatched =>
          Or.inl ((hNext i hLow).1 next hMatched))
        (fun i hLow hFailed => (hNext i hLow).2 hFailed)
        hMid.1
  rw [run] at hFirst hTidyFirst
  rcases hIteration _ hOthers with hTidy | hPending
  · exact
      Or.inl
        (hTidyFirst
          ((hRuns.tidy_repetition hInner).tidy hFirst)
          (hTidyOthers hTidy trivial))
  · exact Or.inr hPending

/- Where a part can start, there is no slash. -/
theorem failed_nextConcatenation
    {index : Nat}
    (h : Follows input callee (starts "repetition") index) :
    (nextConcatenation.run input callee index).outcome =
      .failed := by
  rcases h with ⟨next, hBlanks, hStarts⟩
  have hByte : input[next]? ≠ some (byteOf '/') := by
    intro hSlash
    rw [hSlash, not_starts_slash] at hStarts
    cases hStarts
  have hSlash :
      ((chars "/").run input callee next).outcome =
        .failed := by
    rw [chars_slash, range, run]
    exact
      (@idle_runSet makes input next _
        (not_any_containsByte hByte)).failed
  rw [nextConcatenation, run, runSeries, Run.andThen,
    hBlanks]
  simp only [runSeries, Run.andThen, hSlash,
    Run.outcome_after]

/-
  A further part of an alternation is tidy, unless it leaves
  off where a part can start, or fails behind a slash.
-/
theorem tidy_nextConcatenation
    (hRuns : Runs input callee)
    {index : Nat}
    (hInner : TidyBehind input callee index) :
    (∀ next,
      (nextConcatenation.run input callee index).outcome =
        .matched next →
      (nextConcatenation.run input callee index).Tidy
          makes ∨
        Follows input callee (starts "repetition") next) ∧
    ((nextConcatenation.run input callee index).outcome =
        .failed →
      (nextConcatenation.run input callee index).Tidy
          makes ∨
        Follows input callee startsMore index) := by
  rw [nextConcatenation, run]
  constructor
  · intro next h
    rcases matched_of_runSeries h with
      ⟨slash, hBefore, hRest, hTidyBefore⟩
    rcases matched_of_runSeries hRest with
      ⟨behind, hSlash, hRest, hTidySlash⟩
    rcases matched_of_runSeries hRest with
      ⟨mid, hBehind, hRest, hTidyBehind⟩
    rcases matched_of_runSeries hRest with
      ⟨ended, hPart, hEnd, hTidyPart⟩
    cases hEnd
    have hLow :=
      run_staysIn hRuns.stays _ index slash hBefore
    have hLow' :=
      run_staysIn hRuns.stays _ slash behind hSlash
    have hLow'' :=
      run_staysIn hRuns.stays _ behind mid hBehind
    have hIndex : index ≤ mid := by omega
    rw [run] at hPart hTidyPart
    rcases hRuns.tidy_concatenation (hInner.mono hIndex)
        _ hPart with
      hTidy | hPending
    · exact
        Or.inl
          (hTidyBefore (hRuns.tidy_blanks index)
            (hTidySlash trivial
              (hTidyBehind (hRuns.tidy_blanks behind)
                (hTidyPart hTidy trivial))))
    · exact Or.inr hPending
  · intro h
    rcases failed_of_runSeries (hRuns.tidy_blanks index)
        h with
      hTidy | ⟨slash, hBefore, hRest, hTidyBefore⟩
    · exact Or.inl hTidy
    · have hQuiet :
          ((chars "/").run input callee slash).Tidy
            makes := trivial
      rcases failed_of_runSeries hQuiet hRest with
        hTidy | ⟨behind, hSlash, _, _⟩
      · exact Or.inl (hTidyBefore hTidy)
      · rw [chars_slash] at hSlash
        have hByte :=
          (matched_of_range hSlash (by decide)).2
        refine Or.inr ⟨slash, hBefore, ?_⟩
        rw [hByte]
        decide

/- The step of the induction on the rest of the text. -/
theorem tidy_alternation_of_tidyBehind
    (hRuns : Runs input callee)
    {index : Nat}
    (hInner : TidyBehind input callee index) :
    (callee "alternation" index).TidyUnless makes
      (Follows input callee startsMore) := by
  have hBody :=
    hRuns.body
      ⟨"alternation",
        concatenation
          [ruleName "concatenation",
           any nextConcatenation]⟩
      (by decide) index
  rw [hBody]
  apply Run.TidyUnless.reported
  intro stop h
  rw [run] at h ⊢
  rcases matched_of_runSeries h with
    ⟨mid, hFirst, hRest, hTidyFirst⟩
  rcases matched_of_runSeries hRest with
    ⟨ended, hOthers, hEnd, hTidyOthers⟩
  cases hEnd
  have hMid := run_staysIn hRuns.stays _ index mid hFirst
  have hMore :
      ∀ i,
        Follows input callee (starts "repetition") i →
        Follows input callee startsMore i := by
    rintro i ⟨next, hBlanks, hStarts⟩
    refine ⟨next, hBlanks, ?_⟩
    rw [startsMore, hStarts, Bool.true_or]
  have hNext :=
    fun i (hLow : index ≤ i) =>
      hRuns.tidy_nextConcatenation (hInner.mono hLow)
  rw [any, atLeast, run] at hOthers hTidyOthers
  rw [run] at hFirst hTidyFirst
  rcases hRuns.tidy_concatenation hInner _ hFirst with
    hTidy | hPending
  · have hIteration :=
      Node.tidy_runCopies
        (run_staysIn hRuns.stays nextConcatenation)
        (fun i next hLow hMatched =>
          ((hNext i hLow).1 next hMatched).imp_right
            (fun hPending =>
              ⟨hMore next hPending,
                failed_nextConcatenation hPending⟩))
        (fun i hLow hFailed => (hNext i hLow).2 hFailed)
        hMid.1 _ hOthers
    rcases hIteration with hTidy' | hPending
    · exact
        Or.inl
          (hTidyFirst hTidy (hTidyOthers hTidy' trivial))
    · exact Or.inr hPending
  · -- Nothing can be added here, so the match ends here.
    have hStop :=
      Node.stop_of_runCopies
        (failed_nextConcatenation hPending) hOthers
    rw [hStop]
    exact Or.inr (hMore mid hPending)

/-
  An alternation that matches is tidy, unless a byte follows
  that can go on with it. The induction is on the bytes that
  are left: an alternation in brackets has fewer.
-/
theorem tidy_alternation
    (hRuns : Runs input callee)
    (index : Nat) :
    (callee "alternation" index).TidyUnless makes
      (Follows input callee startsMore) := by
  by_cases hIndex : index < input.size
  · apply hRuns.tidy_alternation_of_tidyBehind
    intro i hLess
    exact hRuns.tidy_alternation i
  · have hByte : input[index]? = none :=
      Array.getElem?_eq_none (Nat.not_lt.mp hIndex)
    have hStarts :
        starts "alternation" input[index]? = false := by
      rw [hByte]
      decide
    intro stop hStop
    rw [(hRuns.idle _ index hStarts).failed] at hStop
    cases hStop
termination_by input.size - index

end Runs

end Grammar

end Abnf

------------------------------------------------------------
-- Rules And Texts
------------------------------------------------------------

namespace Abnf

namespace Grammar

open Element

variable {input : Array UInt8}
variable {callee : String → Nat → Run}

/- What holds of the lack of a byte and each byte holds. -/
theorem forall_byte
    {p : Option UInt8 → Prop}
    (hNone : p none)
    (hSome : ∀ n < 256, p (some (UInt8.ofNat n)))
    (byte : Option UInt8) : p byte := by
  cases byte with
  | none => exact hNone
  | some b =>
      rw [← @UInt8.ofNat_toNat b]
      exact hSome b.toNat b.toNat_lt

/- No line ends where an alternation can go on. -/
theorem not_startsMore_of_starts :
    ∀ byte, starts "c-nl" byte = true →
      startsMore byte = false :=
  forall_byte (by decide)
    (by set_option maxRecDepth 8000 in decide)

/- No line is blank where a rule can start. -/
theorem not_opens_blankLine :
    ∀ byte, starts "rule" byte = true →
      blankLine.opens byte (starts · byte) = false :=
  forall_byte (by decide)
    (by set_option maxRecDepth 8000 in decide)

namespace Runs

theorem tidy_elements
    (hRuns : Runs input callee)
    (index : Nat) :
    (callee "elements" index).TidyUnless makes
      (fun stop => startsMore input[stop]? = true) := by
  have hBody :=
    hRuns.body
      ⟨"elements",
        concatenation [ruleName "alternation", blanks]⟩
      (by decide) index
  rw [hBody]
  apply Run.TidyUnless.reported
  intro stop h
  rw [run] at h ⊢
  rcases matched_of_runSeries h with
    ⟨mid, hInside, hRest, hTidyInside⟩
  rcases matched_of_runSeries hRest with
    ⟨ended, hBehind, hEnd, hTidyBehind⟩
  cases hEnd
  rw [run] at hInside hTidyInside
  rcases hRuns.tidy_alternation index mid hInside with
    hTidy | ⟨next, hNext, hKind⟩
  · exact
      Or.inl
        (hTidyInside hTidy
          (hTidyBehind (hRuns.tidy_blanks mid) trivial))
  · rw [hBehind] at hNext
    cases hNext
    exact Or.inr hKind

/- A rule that matches is tidy: its line ends behind it. -/
theorem tidy_rule
    (hRuns : Runs input callee)
    (index : Nat) :
    (callee "rule" index).TidyUnless makes
      (fun _ => False) := by
  have hBody :=
    hRuns.body
      ⟨"rule",
        concatenation
          [ruleName "rulename",
           ruleName "defined-as",
           ruleName "elements",
           ruleName "c-nl"]⟩
      (by decide) index
  rw [hBody]
  apply Run.TidyUnless.reported
  intro stop h
  rw [run] at h ⊢
  rcases matched_of_runSeries h with
    ⟨named, hName, hRest, hTidyName⟩
  rcases matched_of_runSeries hRest with
    ⟨defined, hSign, hRest, hTidySign⟩
  rcases matched_of_runSeries hRest with
    ⟨ended, hElements, hRest, hTidyElements⟩
  rcases matched_of_runSeries hRest with
    ⟨_, hLine, _, hTidyLine⟩
  rw [run] at hElements hLine
  rw [run] at hTidyName hTidySign hTidyElements hTidyLine
  apply Or.inl
  apply hTidyName (hRuns.calm_read (by decide) index).tidy
  apply hTidySign (hRuns.calm_read (by decide) named).tidy
  refine
    hTidyElements ?_
      (hTidyLine
        (hRuns.hushed "c-nl" (by decide) ended).tidy trivial)
  rcases hRuns.tidy_elements defined ended hElements with
    hTidy | hPending
  · exact hTidy
  · cases hStarts : starts "c-nl" input[ended]? with
    | true =>
        rw [not_startsMore_of_starts _ hStarts] at hPending
        cases hPending
    | false =>
        rw [(hRuns.idle "c-nl" ended hStarts).failed]
          at hLine
        cases hLine

/- A line is tidy, unless it fails where a rule can start. -/
theorem tidy_line
    (hRuns : Runs input callee)
    (index : Nat) :
    (∀ next,
      (runFirst input callee [ruleName "rule", blankLine]
        index).outcome = .matched next →
      (runFirst input callee [ruleName "rule", blankLine]
        index).Tidy makes) ∧
    ((runFirst input callee [ruleName "rule", blankLine]
        index).Tidy makes ∨
      starts "rule" input[index]? = true) := by
  have hBlank :
      (blankLine.run input callee index).Tidy makes :=
    (hRuns.hushed_of_names (by decide) index).tidy
  have hParts :
      ((ruleName "rule").run input callee index).Tidy
          makes →
        (runFirst input callee [ruleName "rule", blankLine]
          index).Tidy makes := by
    intro hRule
    apply tidy_runFirst
    intro part hPart
    simp only [List.mem_cons, List.not_mem_nil,
      or_false] at hPart
    rcases hPart with rfl | rfl
    · exact hRule
    · exact hBlank
  cases hStarts : starts "rule" input[index]? with
  | false =>
      have hIdle := hRuns.idle "rule" index hStarts
      have hTidy := hParts hIdle.hushed.tidy
      exact ⟨fun _ _ => hTidy, Or.inl hTidy⟩
  | true =>
      refine ⟨?_, Or.inr rfl⟩
      intro next h
      rcases exists_matched_of_runFirst h with
        ⟨part, hPart, hMatched⟩
      simp only [List.mem_cons, List.not_mem_nil,
        or_false] at hPart
      rcases hPart with rfl | rfl
      · rw [run] at hMatched
        apply hParts
        rw [run]
        exact (hRuns.tidy_rule index).tidy hMatched
      · have hIdle :=
          run_of_not_opens
            (fun name hName => hRuns.idle name index hName)
            blankLine (not_opens_blankLine _ hStarts)
        rw [hIdle.failed] at hMatched
        cases hMatched

/-
  A list of rules that matches is tidy, unless it ends where
  a rule can start.
-/
theorem tidy_rulelist
    (hRuns : Runs input callee)
    (index : Nat) :
    (callee "rulelist" index).TidyUnless makes
      (fun stop => starts "rule" input[stop]? = true) := by
  have hBody :=
    hRuns.body
      ⟨"rulelist",
        atLeast 1
          (alternation [ruleName "rule", blankLine])⟩
      (by decide) index
  rw [hBody]
  apply Run.TidyUnless.reported
  rw [atLeast, run]
  apply Node.tidy_runCopies
    (run_staysIn hRuns.stays _) _ _ (Nat.le_refl index)
  · intro i next _ hMatched
    rw [run] at hMatched ⊢
    exact Or.inl ((hRuns.tidy_line i).1 next hMatched)
  · intro i _ _
    rw [run]
    exact (hRuns.tidy_line i).2

end Runs

end Grammar

end Abnf

------------------------------------------------------------
-- Parses Without Their Failed Attempts
------------------------------------------------------------

namespace Abnf

namespace Grammar

/-
  Where a grammar text is matched as a whole, the attempts
  that failed on the way have made nothing: without them,
  the trace of the parse gives the same rules or the same
  error.
-/
theorem finish_prune
    {input : Array UInt8}
    {start : Nat}
    {run : Run}
    (hParse : parse input start = .ok run)
    (hWhole : run.outcome = .matched input.size) :
    (assembly input start run).finish input run.outcome =
      ((Event.prune run.events).foldl
        (Assembly.observe input)
        (Assembly.begin start)).finish input
          run.outcome := by
  rcases exists_runs hParse with ⟨callee, hRuns, rfl⟩
  have hNone : input[input.size]? = none :=
    Array.getElem?_eq_none (Nat.le_refl input.size)
  have hTidy : (callee "rulelist" start).Tidy makes := by
    rcases hRuns.tidy_rulelist start _ hWhole with
      hTidy | hPending
    · exact hTidy
    · rw [hNone] at hPending
      exact absurd hPending (by decide +kernel)
  rw [Run.events, Call.prune_eventsOfAll, hWhole]
  apply Assembly.finish_eq_of_alike
  exact
    Assembly.alike_of_allTidy input _
      (Assembly.Alike.refl (Assembly.begin start)) hTidy

/- The text of a rule with two alternatives. -/
def twoAlternatives : Array UInt8 :=
  #[97, 61, 98, 47, 99, 13, 10]

/- Its parse has failed attempts, and makes one rule. -/
theorem finish_prune_twoAlternatives :
    ∃ run,
      parse twoAlternatives 0 = .ok run ∧
      run.outcome = .matched twoAlternatives.size ∧
      (Event.prune run.events).length < run.events.length ∧
      (assembly twoAlternatives 0 run).finish
          twoAlternatives run.outcome =
        ((Event.prune run.events).foldl
          (Assembly.observe twoAlternatives)
          (Assembly.begin 0)).finish twoAlternatives
            run.outcome := by
  have hRun :
      (parse twoAlternatives 0).toOption.any
        (fun run =>
          run.outcome = .matched twoAlternatives.size ∧
          (Event.prune run.events).length <
            run.events.length) = true := by
    decide +kernel
  cases hParse : parse twoAlternatives 0 with
  | error cause =>
      rw [hParse] at hRun
      cases hRun
  | ok run =>
      rw [hParse] at hRun
      have hBoth := of_decide_eq_true hRun
      exact
        ⟨run, rfl, hBoth.1, hBoth.2,
          finish_prune hParse hBoth.1⟩

end Grammar

end Abnf
