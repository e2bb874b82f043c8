import Abnf.Proofs.BigStep
import Abnf.Proofs.Offsets
import Abnf.Proofs.Spans
import Abnf.Proofs.GrammarForms
import Abnf.Proofs.GrammarTexts

/-
  How far a grammar text can be read.

  Where reading ends without a match of the whole text, the
  furthest end of a match is reported, also if the match was
  made in an attempt that was given up. All that was passed
  up to there is right: in whatever parts of the grammar the
  attempt was, each of them can be completed, so there is a
  way to go on that makes a text to be matched as a whole.

  Key definitions include:
    * `Abnf.Scope.HasWord`
    * `Abnf.Scope.Begins`
    * `Abnf.Scope.BeginsAt`
    * `Abnf.Scope.Supports`
    * `Abnf.Scope.IsLive`

  Main declarations:
    * `Abnf.Scope.hasWord_of_names`
    * `Abnf.Element.run_begins`
    * `Abnf.Scope.invoke_begins`
    * `Abnf.Grammar.Assembly.isGreatest_furthest`
    * `Abnf.Grammar.readFrom_incomplete`
-/

------------------------------------------------------------
-- Elements With Words
------------------------------------------------------------

namespace Abnf

namespace Scope

/- The element stands for some word. -/
def HasWord
    (scope : Scope)
    (element : Element) : Prop :=
  ∃ word, scope.Generates element word

variable {scope : Scope}

theorem hasWord_concatenation
    {parts : List Element}
    (h : ∀ part ∈ parts, scope.HasWord part) :
    scope.HasWord (.concatenation parts) := by
  induction parts with
  | nil => exact ⟨[], Grammar.generates_nil⟩
  | cons part parts ih =>
      rw [List.forall_mem_cons] at h
      rcases h.1 with ⟨word, hWord⟩
      rcases ih h.2 with ⟨rest, hRest⟩
      exact ⟨word ++ rest, Grammar.generates_cons hWord hRest⟩

theorem hasWord_terminal
    (s : CharSet) :
    scope.HasWord (.terminal s) := by
  cases hEmpty : s.isEmpty with
  | true => exact ⟨[], .nothing hEmpty⟩
  | false =>
      have hSome : ∃ code, s.hasCode code = true := by
        by_contra hNone
        have hAll : ∀ code, s.hasCode code = false :=
          fun code =>
            Bool.eq_false_iff.mpr (not_exists.mp hNone code)
        rw [CharSet.isEmpty_iff.mpr hAll] at hEmpty
        cases hEmpty
      rcases hSome with ⟨code, hCode⟩
      have hTable := CharSet.lt_tableSize_of_hasCode hCode
      have hByte : (UInt8.ofNat code).toNat = code := by
        simp only [CharSet.tableSize] at hTable
        rw [UInt8.toNat_ofNat']
        omega
      refine ⟨[UInt8.ofNat code], .member ?_⟩
      rw [CharSet.containsByte, hByte]
      exact hCode

mutual

/-
  A checked element has a word if the rules that it names
  have: one word for each of its parts is enough.
-/
theorem hasWord_of_names :
    ∀ element : Element,
      element.check = .ok () →
      (∀ name ∈ element.names,
        scope.HasWord (.ruleName name)) →
      scope.HasWord element
  | .ruleName name, _, hNames =>
      hNames name List.mem_cons_self
  | .terminal s, _, _ => hasWord_terminal s
  | .repetition min max body, hCheck, hNames => by
      rw [Element.check_repetition_iff] at hCheck
      rcases hasWord_of_names body hCheck.2 hNames with
        ⟨word, hWord⟩
      refine
        ⟨(List.replicate min word).flatten,
          .repetition ?_ ?_ ?_⟩
      · rw [List.length_replicate]
      · rw [List.length_replicate]
        exact hCheck.1
      · intro copy hCopy
        rw [List.eq_of_mem_replicate hCopy]
        exact hWord
  | .concatenation parts, hCheck, hNames => by
      rw [Element.check_concatenation_iff] at hCheck
      exact
        hasWord_concatenation
          (hasWord_of_mem parts hCheck.2 hNames)
  | .alternation parts, hCheck, hNames => by
      rw [Element.check_alternation_iff] at hCheck
      have hParts := hasWord_of_mem parts hCheck.2 hNames
      cases parts with
      | nil => exact absurd hCheck.1 (by decide)
      | cons part parts =>
          rcases hParts part List.mem_cons_self with
            ⟨word, hWord⟩
          exact
            ⟨word, .alternation List.mem_cons_self hWord⟩

/- The same for each element of a list. -/
theorem hasWord_of_mem :
    ∀ parts : List Element,
      (∀ part ∈ parts, part.check = .ok ()) →
      (∀ name ∈ Element.namesOfAll parts,
        scope.HasWord (.ruleName name)) →
      ∀ part ∈ parts, scope.HasWord part
  | [], _, _ => List.forall_mem_nil _
  | part :: parts, hCheck, hNames => by
      rw [List.forall_mem_cons] at hCheck
      rw [Element.namesOfAll, List.forall_mem_append]
        at hNames
      exact
        List.forall_mem_cons.mpr
          ⟨hasWord_of_names part hCheck.1 hNames.1,
            hasWord_of_mem parts hCheck.2 hNames.2⟩

end

end Scope

end Abnf

------------------------------------------------------------
-- Beginnings Of Words
------------------------------------------------------------

namespace Abnf

namespace Scope

/- Some word of the element starts with the bytes. -/
def Begins
    (scope : Scope)
    (element : Element)
    (bytes : List UInt8) : Prop :=
  ∃ rest, scope.Generates element (bytes ++ rest)

namespace Begins

variable {scope : Scope}
variable {bytes : List UInt8}

theorem of_generates
    {element : Element}
    (h : scope.Generates element bytes) :
    scope.Begins element bytes := by
  refine ⟨[], ?_⟩
  rw [List.append_nil]
  exact h

/- What comes behind the first part can be completed. -/
theorem first
    {part : Element}
    {parts : List Element}
    (h : scope.Begins part bytes)
    (hParts : scope.HasWord (.concatenation parts)) :
    scope.Begins (.concatenation (part :: parts)) bytes := by
  rcases h with ⟨rest, hPart⟩
  rcases hParts with ⟨word, hWord⟩
  refine ⟨rest ++ word, ?_⟩
  rw [← List.append_assoc]
  exact Grammar.generates_cons hPart hWord

theorem next
    {part : Element}
    {parts : List Element}
    {bytes' : List UInt8}
    (hPart : scope.Generates part bytes)
    (h : scope.Begins (.concatenation parts) bytes') :
    scope.Begins (.concatenation (part :: parts))
      (bytes ++ bytes') := by
  rcases h with ⟨rest, hParts⟩
  refine ⟨rest, ?_⟩
  rw [List.append_assoc]
  exact Grammar.generates_cons hPart hParts

theorem alternation
    {part : Element}
    {parts : List Element}
    (hPart : part ∈ parts)
    (h : scope.Begins part bytes) :
    scope.Begins (.alternation parts) bytes := by
  rcases h with ⟨rest, hWord⟩
  exact ⟨rest, .alternation hPart hWord⟩

theorem ruleName
    {name : String}
    {rule : Rule}
    (hFind : scope.find? name = some rule)
    (h : scope.Begins rule.element bytes) :
    scope.Begins (.ruleName name) bytes := by
  rcases h with ⟨rest, hWord⟩
  exact ⟨rest, .ruleName hFind hWord⟩

/-
  A copy behind others can be completed, and as many more
  can be made of it as are due.
-/
theorem copy
    {min : Nat}
    {max : Option Nat}
    {body : Element}
    {copies : List (List UInt8)}
    (hBounds : ∀ limit, max = some limit → min ≤ limit)
    (hLimit :
      ∀ limit, max = some limit → copies.length < limit)
    (hCopies :
      ∀ copy ∈ copies, scope.Generates body copy)
    (h : scope.Begins body bytes) :
    scope.Begins (.repetition min max body)
      (copies.flatten ++ bytes) := by
  rcases h with ⟨rest, hWord⟩
  have hAll :=
    @Generates.repetition scope min max body
      (copies ++
        List.replicate (min - copies.length - 1 + 1)
          (bytes ++ rest))
      (by
        rw [List.length_append, List.length_replicate]
        omega)
      (by
        intro limit hMax
        have hLow := hBounds limit hMax
        have hHigh := hLimit limit hMax
        rw [List.length_append, List.length_replicate]
        omega)
      (by
        intro copy hCopy
        rcases List.mem_append.mp hCopy with hHere | hLater
        · exact hCopies copy hHere
        · rw [List.eq_of_mem_replicate hLater]
          exact hWord)
  rw [List.replicate_succ, List.flatten_append,
    List.flatten_cons] at hAll
  refine
    ⟨rest ++
      (List.replicate (min - copies.length - 1)
        (bytes ++ rest)).flatten, ?_⟩
  simpa [List.append_assoc] using hAll

end Begins

end Scope

end Abnf

------------------------------------------------------------
-- Matches That Are Told Of
------------------------------------------------------------

namespace Abnf

namespace Run

variable {truth truth' : String → Nat → Option Nat → Prop}

theorem Tells.mono
    {run : Run}
    (h :
      ∀ rule start stop, truth rule start stop →
        truth' rule start stop)
    (hRun : run.Tells truth) :
    run.Tells truth' :=
  fun rule start stop hExit =>
    h rule start stop (hRun rule start stop hExit)

/- What goes on after a run tells of both. -/
theorem tells_resume
    {run : Run}
    {onMatch : Nat → Run}
    {onFailure : Run}
    (hRun : run.Tells truth)
    (hMatch :
      ∀ stop, run.outcome = .matched stop →
        (onMatch stop).Tells truth)
    (hFailure : onFailure.Tells truth) :
    (run.resume onMatch onFailure).Tells truth := by
  rcases run.matched_or_failed_or_not with
    ⟨stop, hOutcome⟩ | hOutcome | hSettled
  · rw [resume_of_matched hOutcome]
    exact tells_after hRun (hMatch stop hOutcome)
  · rw [resume_of_failed hOutcome]
    exact tells_after hRun hFailure
  · rw [resume_of_not_isSettled hSettled]
    exact hRun

end Run

namespace Scope

/-
  A match that is told of ends in the text, and up to there
  it is the beginning of some word of an element.
-/
def BeginsAt
    (scope : Scope)
    (input : Array UInt8)
    (element : Element)
    (start : Nat) :
    String → Nat → Option Nat → Prop :=
  fun _ _ stop =>
    ∀ last, stop = some last →
      start ≤ last ∧ last ≤ input.size ∧
        scope.Begins element (Text.between input start last)

/- An element matches words that lie in the text. -/
def MatchesWords
    (scope : Scope)
    (input : Array UInt8)
    (element : Element)
    (step : Nat → Run) : Prop :=
  ∀ index stop, index ≤ input.size →
    (step index).outcome = .matched stop →
    index ≤ stop ∧ stop ≤ input.size ∧
      scope.Generates element
        (Text.between input index stop)

variable {scope : Scope}
variable {input : Array UInt8}

/-
  What the runs of the rules are for those who call them:
  they match words, and all that is told of begins one.
-/
structure Supports
    (scope : Scope)
    (input : Array UInt8)
    (callee : String → Nat → Run) : Prop where
  stays :
    ∀ name index,
      (callee name index).StaysIn input.size index
  generates :
    ∀ name index stop, index ≤ input.size →
      (callee name index).outcome = .matched stop →
      scope.Generates (.ruleName name)
        (Text.between input index stop)
  begins :
    ∀ name, ∀ index ≤ input.size,
      (callee name index).Tells
        (scope.BeginsAt input (.ruleName name) index)

/-
  The copies made so far and a part of a further one are the
  beginning of copies. By induction on the rounds that are
  left: after each round there is one more copy behind.
-/
theorem tells_runCopies
    {min : Nat}
    {max : Option Nat}
    {body : Element}
    {step : Nat → Run}
    (hBounds : ∀ limit, max = some limit → min ≤ limit)
    (hWords : scope.MatchesWords input body step)
    (hStep :
      ∀ index ≤ input.size,
        (step index).Tells (scope.BeginsAt input body index))
    {copies : List (List UInt8)}
    (hCopies :
      ∀ copy ∈ copies, scope.Generates body copy)
    {start index : Nat}
    (hFlat : copies.flatten = Text.between input start index)
    (hStart : start ≤ index)
    (hIndex : index ≤ input.size)
    (allowance : Nat) :
    (Node.runCopies step min max allowance copies.length
      index).Tells
        (scope.BeginsAt input (.repetition min max body)
          start) := by
  induction allowance generalizing copies index with
  | zero => exact Run.tells_quiet _
  | succ allowance ih =>
      rw [Node.runCopies_succ]
      cases hLimit : Node.atLimit max copies.length with
      | true => exact Run.tells_quiet _
      | false =>
          rw [if_neg Bool.false_ne_true]
          have hBelow := Node.atLimit_eq_false_iff.mp hLimit
          apply Run.tells_resume
          · refine Run.Tells.mono ?_ (hStep index hIndex)
            intro _ _ stop hBegins last hLast
            rcases hBegins last hLast with
              ⟨hLow, hHigh, hBegins⟩
            refine ⟨Nat.le_trans hStart hLow, hHigh, ?_⟩
            rw [← Text.between_append hStart hLow, ← hFlat]
            exact
              hBegins.copy hBounds hBelow hCopies
          · intro next hNext
            rcases hWords index next hIndex hNext with
              ⟨hLow, hHigh, hWord⟩
            split
            · exact Run.tells_quiet _
            · have hCopies' :=
                List.forall_mem_append.mpr
                  ⟨hCopies,
                    List.forall_mem_singleton.mpr hWord⟩
              have hFlat' :
                  (copies ++
                      [Text.between input index
                        next]).flatten =
                    Text.between input start next := by
                rw [List.flatten_append,
                  List.flatten_singleton, hFlat,
                  Text.between_append hStart hLow]
              have hMore :=
                ih hCopies' hFlat'
                  (Nat.le_trans hStart hLow) hHigh
              rw [List.length_append,
                List.length_singleton] at hMore
              exact hMore
          · exact Run.tells_quiet _

end Scope

namespace Element

open Scope

variable {scope : Scope}
variable {input : Array UInt8}
variable {callee : String → Nat → Run}

theorem matchesWords_run
    (hRuns : scope.Supports input callee)
    {element : Element}
    (hCheck : element.check = .ok ()) :
    scope.MatchesWords input element
      (element.run input callee) := by
  intro index stop hIndex h
  have hStay := run_staysIn hRuns.stays element index stop h
  exact
    ⟨hStay.1, by omega,
      generates_of_run hRuns.stays hRuns.generates element
        index stop hCheck hIndex h⟩

mutual

/-
  All that the run of an element passes, also in an attempt
  that fails, begins a word of the element, if that holds of
  the rules that it names.
-/
theorem run_begins
    (hRuns : scope.Supports input callee) :
    ∀ (element : Element) (index : Nat),
      element.check = .ok () →
      (∀ name ∈ element.names,
        scope.HasWord (.ruleName name)) →
      index ≤ input.size →
      (element.run input callee index).Tells
        (scope.BeginsAt input element index)
  | .ruleName name, index, _, _, hIndex => by
      rw [run]
      exact hRuns.begins name index hIndex
  | .terminal s, index, _, _, _ => by
      rw [run]
      exact Run.tells_quiet _
  | .repetition min max body, index,
      hCheck, hNames, hIndex => by
      rw [check_repetition_iff] at hCheck
      have hWords := matchesWords_run hRuns hCheck.2
      rw [run]
      exact
        @tells_runCopies scope input min max body _ hCheck.1
          hWords
          (fun i hi =>
            run_begins hRuns body i hCheck.2 hNames hi)
          [] (List.forall_mem_nil _) index index
          (Text.between_self index).symm (Nat.le_refl _)
          hIndex _
  | .concatenation parts, index,
      hCheck, hNames, hIndex => by
      rw [check_concatenation_iff] at hCheck
      rw [run]
      exact
        runSeries_begins hRuns parts index hCheck.2 hNames
          hIndex
  | .alternation parts, index, hCheck, hNames, hIndex => by
      rw [check_alternation_iff] at hCheck
      rw [run]
      exact
        runFirst_begins hRuns parts index hCheck.2 hNames
          hIndex

/- The same for elements one after the other. -/
theorem runSeries_begins
    (hRuns : scope.Supports input callee) :
    ∀ (parts : List Element) (index : Nat),
      (∀ part ∈ parts, part.check = .ok ()) →
      (∀ name ∈ namesOfAll parts,
        scope.HasWord (.ruleName name)) →
      index ≤ input.size →
      (runSeries input callee parts index).Tells
        (scope.BeginsAt input (.concatenation parts) index)
  | [], index, _, _, _ => by
      rw [runSeries]
      exact Run.tells_quiet _
  | part :: parts, index, hCheck, hNames, hIndex => by
      rw [List.forall_mem_cons] at hCheck
      rw [namesOfAll, List.forall_mem_append] at hNames
      rw [runSeries, Run.andThen_eq_resume]
      apply Run.tells_resume
      · refine
          Run.Tells.mono ?_
            (run_begins hRuns part index hCheck.1 hNames.1
              hIndex)
        intro _ _ stop hFirst last hLast
        rcases hFirst last hLast with ⟨hLow, hHigh, hFirst⟩
        have hRest :=
          hasWord_concatenation
            (hasWord_of_mem parts hCheck.2 hNames.2)
        exact ⟨hLow, hHigh, hFirst.first hRest⟩
      · intro mid hMid
        rcases matchesWords_run hRuns hCheck.1
            index mid hIndex hMid with
          ⟨hLow, hHigh, hWord⟩
        refine
          Run.Tells.mono ?_
            (runSeries_begins hRuns parts mid hCheck.2
              hNames.2
              hHigh)
        intro _ _ stop hRest last hLast
        rcases hRest last hLast with ⟨hLow', hHigh', hRest⟩
        refine ⟨Nat.le_trans hLow hLow', hHigh', ?_⟩
        rw [← Text.between_append hLow hLow']
        exact .next hWord hRest
      · exact Run.tells_quiet _

/- The same for the first element that matches. -/
theorem runFirst_begins
    (hRuns : scope.Supports input callee) :
    ∀ (parts : List Element) (index : Nat),
      (∀ part ∈ parts, part.check = .ok ()) →
      (∀ name ∈ namesOfAll parts,
        scope.HasWord (.ruleName name)) →
      index ≤ input.size →
      (runFirst input callee parts index).Tells
        (scope.BeginsAt input (.alternation parts) index)
  | [], index, _, _, _ => by
      rw [runFirst]
      exact Run.tells_quiet _
  | part :: parts, index, hCheck, hNames, hIndex => by
      rw [List.forall_mem_cons] at hCheck
      rw [namesOfAll, List.forall_mem_append] at hNames
      rw [runFirst, Run.orElse_eq_resume]
      apply Run.tells_resume
      · refine
          Run.Tells.mono ?_
            (run_begins hRuns part index hCheck.1 hNames.1
              hIndex)
        intro _ _ stop hFirst last hLast
        rcases hFirst last hLast with ⟨hLow, hHigh, hFirst⟩
        exact
          ⟨hLow, hHigh,
            hFirst.alternation List.mem_cons_self⟩
      · exact fun _ _ => Run.tells_quiet _
      · refine
          Run.Tells.mono ?_
            (runFirst_begins hRuns parts index hCheck.2
              hNames.2
              hIndex)
        intro _ _ stop hLater last hLast
        rcases hLater last hLast with ⟨hLow, hHigh, hLater⟩
        rcases hLater with ⟨rest, hWord⟩
        rcases hWord.exists_mem with ⟨other, hOther, hWord⟩
        exact
          ⟨hLow, hHigh, rest,
            .alternation (List.mem_cons_of_mem _ hOther)
              hWord⟩

end

end Element

end Abnf

------------------------------------------------------------
-- Runs Of Rules
------------------------------------------------------------

namespace Abnf

namespace Scope

/-
  All elements of a scope are checked, and each rule that
  they name stands for some word.
-/
structure IsLive
    (scope : Scope) : Prop where
  check :
    ∀ name rule, scope.find? name = some rule →
      rule.element.check = .ok ()
  words :
    ∀ name rule, scope.find? name = some rule →
      ∀ other ∈ rule.element.names,
        scope.HasWord (.ruleName other)

/-
  All that the run of a rule passes begins a word of the
  rule. By induction on the depth: what it matches itself is
  a word.
-/
theorem invoke_begins
    {scope : Scope}
    (hLive : scope.IsLive)
    (input : Array UInt8)
    (depth : Nat)
    (name : String)
    (start : Nat)
    (hStart : start ≤ input.size) :
    (scope.invoke input depth name start).Tells
      (scope.BeginsAt input (.ruleName name) start) := by
  induction depth generalizing name start with
  | zero => exact Run.tells_quiet _
  | succ depth ih =>
      cases hFind : scope.find? name with
      | none =>
          rw [invoke, hFind]
          exact Run.tells_quiet _
      | some rule =>
          have hRuns :
              scope.Supports input
                (scope.invoke input depth) :=
            ⟨scope.invoke_staysIn input depth,
              fun _ _ _ hIndex h =>
                generates_of_invoke hLive.check input depth
                  hIndex h,
              ih⟩
          have hBody :=
            Element.run_begins hRuns rule.element start
              (hLive.check name rule hFind)
              (hLive.words name rule hFind) hStart
          rw [invoke_succ hFind, report]
          split
          · apply Run.tells_reported
            · intro last hLast
              rcases Element.matchesWords_run hRuns
                  (hLive.check name rule hFind) start last
                  hStart
                  (Outcome.eq_matched_of_stop? hLast) with
                ⟨hLow, hHigh, hWord⟩
              exact
                ⟨hLow, hHigh,
                  .of_generates (.ruleName hFind hWord)⟩
            · refine Run.Tells.mono ?_ hBody
              intro _ _ stop hBegins last hLast
              rcases hBegins last hLast with
                ⟨hLow, hHigh, hBegins⟩
              exact ⟨hLow, hHigh, hBegins.ruleName hFind⟩
          · exact Run.tells_quiet _

end Scope

end Abnf

------------------------------------------------------------
-- The Furthest Match
------------------------------------------------------------

namespace Abnf

namespace Grammar

namespace Assembly

variable {input : Array UInt8}

theorem furthest_observe_exit
    (assembly : Assembly)
    (name : String)
    (start stop : Nat) :
    (assembly.observe input
        (.exit name start (some stop))).furthest =
      max assembly.furthest stop := by
  have hLeave :
      (assembly.leave name stop).furthest =
        max assembly.furthest stop := by
    rw [leave, furthest_close]
  rw [observe_exit]
  split
  · exact hLeave
  · rw [furthest_takeMatch, hLeave]

/- An event moves the furthest end to its own, if any. -/
theorem isGreatest_observe
    (assembly : Assembly)
    (event : Event) :
    IsGreatest
      {index | index = assembly.furthest ∨
        ∃ rule first,
          event = .exit rule first (some index)}
      (assembly.observe input event).furthest := by
  cases event with
  | enter name start =>
      refine ⟨Or.inl rfl, ?_⟩
      rintro index (rfl | ⟨_, _, hEvent⟩)
      · exact Nat.le_refl _
      · cases hEvent
  | exit name start stop =>
      cases stop with
      | none =>
          have hSame :
              (assembly.observe input
                  (.exit name start none)).furthest =
                assembly.furthest :=
            furthest_close assembly _
          rw [hSame]
          refine ⟨Or.inl rfl, ?_⟩
          rintro index (rfl | ⟨_, _, hEvent⟩)
          · exact Nat.le_refl _
          · cases hEvent
      | some stop =>
          rw [furthest_observe_exit]
          constructor
          · rcases Nat.le_total assembly.furthest stop with
              hLess | hMore
            · rw [Nat.max_eq_right hLess]
              exact Or.inr ⟨name, start, rfl⟩
            · exact Or.inl (Nat.max_eq_left hMore)
          · rintro index (rfl | ⟨_, _, hEvent⟩)
            · exact Nat.le_max_left _ _
            · cases hEvent
              exact Nat.le_max_right _ _

/- So do all events of a list. -/
theorem isGreatest_foldl_observe
    (assembly : Assembly)
    (events : List Event) :
    IsGreatest
      {index | index = assembly.furthest ∨
        ∃ rule first,
          .exit rule first (some index) ∈ events}
      (events.foldl (observe input) assembly).furthest := by
  induction events generalizing assembly with
  | nil =>
      refine ⟨Or.inl rfl, ?_⟩
      rintro index (rfl | ⟨_, _, hEvent⟩)
      · exact Nat.le_refl _
      · cases hEvent
  | cons event events ih =>
      have hEvent := @isGreatest_observe input assembly event
      have hEvents := ih (assembly.observe input event)
      rw [List.foldl_cons]
      constructor
      · rcases hEvents.1 with hHere | ⟨rule, first, hLater⟩
        · rcases hEvent.1 with hBefore | ⟨rule, first, hOwn⟩
          · exact Or.inl (hHere.trans hBefore)
          · refine Or.inr ⟨rule, first, ?_⟩
            rw [hHere, ← hOwn]
            exact List.mem_cons_self
        · exact
            Or.inr
              ⟨rule, first, List.mem_cons_of_mem _ hLater⟩
      · rintro index (rfl | ⟨rule, first, hExit⟩)
        · exact
            Nat.le_trans (hEvent.2 (Or.inl rfl))
              (hEvents.2 (Or.inl rfl))
        · rcases List.mem_cons.mp hExit with hOwn | hLater
          · exact
              Nat.le_trans
                (hEvent.2
                  (Or.inr ⟨rule, first, hOwn.symm⟩))
                (hEvents.2 (Or.inl rfl))
          · exact
              hEvents.2 (Or.inr ⟨rule, first, hLater⟩)

end Assembly

end Grammar

end Abnf

------------------------------------------------------------
-- Grammar Texts
------------------------------------------------------------

namespace Abnf

namespace Grammar

open Element

/- A text of each rule. -/
def samples : List (String × String) :=
  [("rulelist", "a=b\r\n"), ("rule", "a=b\r\n"),
   ("rulename", "a"), ("defined-as", "="),
   ("elements", "a"), ("c-wsp", " "), ("c-nl", "\r\n"),
   ("comment", ";\r\n"), ("alternation", "a"),
   ("concatenation", "a"), ("repetition", "a"),
   ("repeat", "1"), ("element", "a"), ("group", "(a)"),
   ("option", "[a]"), ("char-val", "\"\""),
   ("case-insensitive-string", "\"\""),
   ("case-sensitive-string", "%s\"\""),
   ("quoted-string", "\"\""), ("num-val", "%b1"),
   ("bin-val", "b1"), ("dec-val", "d1"), ("hex-val", "x1"),
   ("prose-val", "<>"), ("ALPHA", "a"), ("BIT", "1"),
   ("CHAR", "a"), ("CR", "\r"), ("CRLF", "\r\n"),
   ("CTL", "\r"), ("DIGIT", "1"), ("DQUOTE", "\""),
   ("HEXDIG", "1"), ("HTAB", "\t"), ("LF", "\n"),
   ("LWSP", ""), ("OCTET", "a"), ("SP", " "),
   ("VCHAR", "a"), ("WSP", " ")]

theorem matched_samples :
    ∀ name ∈ allNames, ∃ sample ∈ samples,
      sample.1 = name ∧
        (scope.invoke (Text.bytes sample.2) 16 name
          0).outcome.stop?.isSome = true := by
  decide +kernel

theorem hasWord_of_mem_allNames
    {name : String}
    (hName : name ∈ allNames) :
    scope.HasWord (ruleName name) := by
  rcases matched_samples name hName with
    ⟨_, _, _, hMatched⟩
  rcases Option.isSome_iff_exists.mp hMatched with
    ⟨stop, hStop⟩
  exact
    ⟨_, Scope.generates_of_invoke
      (fun _ rule hFind =>
        check_of_mem rule (Scope.mem_of_find? hFind).1)
      _ 16 (Nat.zero_le _)
      (Outcome.eq_matched_of_stop? hStop)⟩

/- All parts of grammar texts can be completed. -/
theorem isLive_scope : scope.IsLive where
  check _ rule hFind :=
    check_of_mem rule (Scope.mem_of_find? hFind).1
  words := by
    intro name rule hFind other hOther
    rcases Scope.mem_of_find? hFind with ⟨hRule, rfl⟩
    have hClosed :=
      names_closed rule.name (List.mem_map_of_mem hRule)
    rw [hFind, Option.any_some, List.all_eq_true] at hClosed
    exact
      hasWord_of_mem_allNames
        (List.contains_iff_mem.mp (hClosed other hOther))

/- A text that is generated as a list of rules is matched. -/
theorem matches_rulelist_of_generates
    {text : String}
    (h :
      scope.Generates (ruleName "rulelist")
        (Text.bytes text).toList) :
    Matches "rulelist" text := by
  rcases exists_readings with
    ⟨matcher, entry, hProgram, hEntry, hReadings⟩
  rcases hReadings (Text.bytes text) with
    ⟨callee, hRuns, hTrace⟩
  refine ⟨matcher, entry, hProgram, hEntry, ?_⟩
  rcases h.exists_parses (Text.occurs_drop 0) with
    ⟨calls, hSpan⟩
  rw [Nat.zero_add, Array.length_toList] at hSpan
  rw [Program.matchesFully, Program.run, hTrace, beq_iff_eq]
  exact hRuns.matched_of_parses_rulelist hSpan

/- The bytes of a piece of a text. -/
theorem toList_bytes_slice
    {text : String}
    {start stop : text.Pos}
    (hOrder : start ≤ stop) :
    (Text.bytes (text.slice start stop hOrder).copy).toList =
      Text.between (Text.bytes text) start.offset.byteIdx
        stop.offset.byteIdx := by
  have hBytes :
      (text.slice start stop hOrder).copy.toByteArray =
        text.toByteArray.extract start.offset.byteIdx
          stop.offset.byteIdx := by
    rw [String.Slice.toByteArray_copy]
    simp
  rw [Text.bytes, String.toUTF8_eq_toByteArray, hBytes,
    ByteArray.data_extract, Array.toList_extract]
  rfl

/- A piece of a text that begins a list of rules goes on. -/
theorem exists_more_of_begins
    {piece : String}
    (h :
      scope.Begins (ruleName "rulelist")
        (Text.bytes piece).toList) :
    ∃ more : String, Matches "rulelist" (piece ++ more) := by
  rcases h with ⟨rest, hWord⟩
  have hRest :=
    word_charsOf
      (fun b hb => hWord.ascii b (List.mem_append_right _ hb))
  refine ⟨String.ofList (charsOf rest), ?_⟩
  apply matches_rulelist_of_generates
  have hBytes :=
    @toList_bytes (String.ofList (charsOf rest))
      (by rw [String.toList_ofList]; exact hRest.1)
  rw [String.toList_ofList, hRest.2] at hBytes
  have hAll :
      (Text.bytes
          (piece ++ String.ofList (charsOf rest))).toList =
        (Text.bytes piece).toList ++ rest := by
    conv_rhs => rw [← hBytes]
    rw [bytes_append, Array.toList_append]
  rw [hAll]
  exact hWord

/-
  All ends of matches in a parse lie between characters, and
  up to each of them the text begins a list of rules.
-/
theorem exists_more_of_exit
    {text : String}
    (start : text.Pos)
    (depth : Nat)
    {index : Nat}
    (h :
      index = start.offset.byteIdx ∨
        ∃ rule first,
          .exit rule first (some index) ∈
            (scope.invoke (Text.bytes text) depth "rulelist"
              start.offset.byteIdx).events) :
    ∃ (stop : text.Pos) (hOrder : start ≤ stop),
      stop.offset.byteIdx = index ∧
      ∃ more : String,
        Matches "rulelist"
          ((text.slice start stop hOrder).copy ++ more) := by
  have hStart : Text.IsBoundary text start.offset.byteIdx :=
    ⟨start, rfl⟩
  have hSpan :
      Text.IsAsciiSpan (Text.bytes text)
        start.offset.byteIdx index := by
    rcases h with rfl | ⟨rule, first, hExit⟩
    · exact .refl _ _
    · have hAscii :=
        (scope.invoke_keepsToAscii (Text.bytes text) depth
          "rulelist" start.offset.byteIdx).exits rule first
          (some index) hExit
      exact hAscii.1.trans (hAscii.2 index rfl)
  have hBegins :
      scope.Begins (ruleName "rulelist")
        (Text.between (Text.bytes text)
          start.offset.byteIdx index) := by
    rcases h with rfl | ⟨rule, first, hExit⟩
    · rcases hasWord_of_mem_allNames
          (by decide : "rulelist" ∈ allNames) with
        ⟨word, hWord⟩
      rw [Text.between_self]
      exact ⟨word, hWord⟩
    · exact
        (Scope.invoke_begins isLive_scope (Text.bytes text)
          depth "rulelist" start.offset.byteIdx
          hStart.le_size rule first (some index) hExit index
          rfl).2.2
  rcases hSpan.isBoundary hStart with ⟨stop, rfl⟩
  have hOrder : start ≤ stop := by
    rw [String.Pos.le_iff]
    exact hSpan.le
  refine ⟨stop, hOrder, rfl, ?_⟩
  apply exists_more_of_begins
  rw [toList_bytes_slice]
  exact hBegins

/-
  If a text cannot be read on from a position, the offset
  that is reported is the furthest end of a match, or the
  position if there is none. It comes with its line and
  column, and some other text behind it makes a list of
  rules of all that was passed. This is reported whenever
  the parse falls short of the end and no part is refused.
-/
theorem readFrom_incomplete :
    ∃ matcher entry,
      program = .ok matcher ∧
      matcher.entry? "rulelist" = some entry ∧
      ∀ (text : String) (start : text.Pos),
        (∀ index place,
          readFrom text start.offset.byteIdx =
              .error (.incomplete index place) →
          IsGreatest
            {stop | stop = start.offset.byteIdx ∨
              ∃ rule first,
                .exit rule first (some stop) ∈
                  (matcher.trace entry (Text.bytes text)
                    start.offset.byteIdx).events}
            index ∧
          start.offset.byteIdx ≤ index ∧
          index ≤ (Text.bytes text).size ∧
          place = Text.position (Text.bytes text) index ∧
          ∃ (stop : text.Pos) (hOrder : start ≤ stop),
            stop.offset.byteIdx = index ∧
            ∃ more : String,
              Matches "rulelist"
                ((text.slice start stop hOrder).copy ++
                  more)) ∧
        ((matcher.trace entry (Text.bytes text)
            start.offset.byteIdx).outcome ≠
              .matched (Text.bytes text).size →
          (assembly (Text.bytes text) start.offset.byteIdx
            (matcher.trace entry (Text.bytes text)
              start.offset.byteIdx)).error = none →
          ∃ index place,
            readFrom text start.offset.byteIdx =
              .error (.incomplete index place)) := by
  have hRule :
      (⟨"rulelist", atLeast 1 line⟩ : Rule) ∈ rules := by
    decide
  rcases exists_matcher hRule with
    ⟨matcher, entry, hProgram, hEntry, hTrace⟩
  refine ⟨matcher, entry, hProgram, hEntry, ?_⟩
  intro text start
  rcases hTrace (Text.bytes text) with
    ⟨depth, hRuns, hTrace⟩
  have hParse :
      parse (Text.bytes text) start.offset.byteIdx =
        .ok
          (scope.invoke (Text.bytes text) depth "rulelist"
            start.offset.byteIdx) := by
    rw [parse_eq_trace hProgram hEntry, hTrace]
  have hRead := readFrom_eq hParse
  rw [hTrace]
  constructor
  · intro index place hIncomplete
    rw [hRead, Assembly.finish] at hIncomplete
    split at hIncomplete
    · rename_i hRefused
      cases hIncomplete
      -- No part that is refused is said to be incomplete.
      cases (hRuns.isSafe_rulelist _).sound _ hRefused
    · split at hIncomplete
      · cases hIncomplete
      · cases hIncomplete
        have hGreatest :=
          @Assembly.isGreatest_foldl_observe
            (Text.bytes text)
            (Assembly.begin start.offset.byteIdx)
            (scope.invoke (Text.bytes text) depth "rulelist"
              start.offset.byteIdx).events
        rcases exists_more_of_exit start depth hGreatest.1
          with ⟨stop, hOrder, hStop, hMore⟩
        refine
          ⟨hGreatest, hGreatest.2 (Or.inl rfl), ?_, rfl,
            stop, hOrder, hStop, hMore⟩
        rw [assembly, ← hStop]
        exact Text.IsBoundary.le_size ⟨stop, rfl⟩
  · intro hShort hSound
    rw [hRead, Assembly.finish, hSound]
    simp only
    rw [if_neg hShort]
    exact ⟨_, _, rfl⟩

/-
  In an open group that the end of the text cuts off, the
  blanks in front of the missing bracket were passed.
-/
theorem readFrom_incomplete_openGroup :
    ∃ matcher entry,
      program = .ok matcher ∧
      matcher.entry? "rulelist" = some entry ∧
      readFrom "r = (a ;\r\n " 0 =
        .error (.incomplete 11 ⟨2, 2⟩) ∧
      IsGreatest
        {stop | stop = 0 ∨
          ∃ rule first,
            .exit rule first (some stop) ∈
              (matcher.trace entry
                (Text.bytes "r = (a ;\r\n ") 0).events}
        11 := by
  have hRead :
      readFrom "r = (a ;\r\n " 0 =
        .error (.incomplete 11 ⟨2, 2⟩) := by
    decide +kernel
  rcases readFrom_incomplete with
    ⟨matcher, entry, hProgram, hEntry, hEnds⟩
  have hEnd :=
    (hEnds "r = (a ;\r\n "
      (String.startPos "r = (a ;\r\n ")).1 11 ⟨2, 2⟩ hRead
  exact ⟨matcher, entry, hProgram, hEntry, hRead, hEnd.1⟩

end Grammar

end Abnf
