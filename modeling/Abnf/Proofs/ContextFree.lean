import Abnf.Proofs.Attempts
import Abnf.Proofs.Nullability

/-
  Rules read as a context-free grammar.

  `Scope.Generates` reads elements without any order or
  greed: a choice stands for each of its parts, and a
  repetition for any number of copies that its bounds
  admit. What a run of an element matches is generated by
  the element. `Scope.Parses` gives the same reading on the
  spans of a text, with the calls of chosen rules that a
  derivation goes through.

  Key definitions include:
    * `Abnf.Scope.Generates`
    * `Abnf.Task`
    * `Abnf.Scope.Parses`

  Main declarations:
    * `Abnf.Element.generates_of_run`
    * `Abnf.Scope.generates_of_invoke`
    * `Abnf.Scope.Generates.exists_parses`
    * `Abnf.Scope.Parses.isNullable`
-/

------------------------------------------------------------
-- Checked Elements
------------------------------------------------------------

namespace Abnf

namespace Element

/- The bounds of a repetition are in order. -/
theorem checkBounds_eq_ok_iff
    {min : Nat}
    {max : Option Nat} :
    checkBounds min max = .ok () ↔
      ∀ limit, max = some limit → min ≤ limit := by
  cases max with
  | none => simp [checkBounds]
  | some limit =>
      by_cases hLess : limit < min
      · simp [checkBounds, hLess]
      · simp [checkBounds, hLess, Nat.not_lt.mp hLess]

theorem checkCount_eq_ok_iff
    {kind : Series}
    {count : Nat} :
    checkCount kind count = .ok () ↔ 2 ≤ count := by
  by_cases hLess : count < 2
  · simp [checkCount, hLess, Nat.not_le.mpr hLess]
  · simp [checkCount, hLess, Nat.not_lt.mp hLess]

theorem checkAll_eq_ok_iff
    {parts : List Element} :
    checkAll parts = .ok () ↔
      ∀ part ∈ parts, part.check = .ok () := by
  induction parts with
  | nil => simp [checkAll]
  | cons part parts ih =>
      rw [checkAll, bind_eq_ok_iff, List.forall_mem_cons,
        ← ih]
      exact
        ⟨fun ⟨_, hPart, hParts⟩ => ⟨hPart, hParts⟩,
          fun ⟨hPart, hParts⟩ => ⟨(), hPart, hParts⟩⟩

theorem check_repetition_iff
    {min : Nat}
    {max : Option Nat}
    {body : Element} :
    (repetition min max body).check = .ok () ↔
      (∀ limit, max = some limit → min ≤ limit) ∧
        body.check = .ok () := by
  rw [check, bind_eq_ok_iff, ← checkBounds_eq_ok_iff]
  exact
    ⟨fun ⟨_, hBounds, hBody⟩ => ⟨hBounds, hBody⟩,
      fun ⟨hBounds, hBody⟩ => ⟨(), hBounds, hBody⟩⟩

theorem check_concatenation_iff
    {parts : List Element} :
    (concatenation parts).check = .ok () ↔
      2 ≤ parts.length ∧
        ∀ part ∈ parts, part.check = .ok () := by
  rw [check, bind_eq_ok_iff, ← checkAll_eq_ok_iff,
    ← @checkCount_eq_ok_iff .concatenation]
  exact
    ⟨fun ⟨_, hCount, hParts⟩ => ⟨hCount, hParts⟩,
      fun ⟨hCount, hParts⟩ => ⟨(), hCount, hParts⟩⟩

theorem check_alternation_iff
    {parts : List Element} :
    (alternation parts).check = .ok () ↔
      2 ≤ parts.length ∧
        ∀ part ∈ parts, part.check = .ok () := by
  rw [check, bind_eq_ok_iff, ← checkAll_eq_ok_iff,
    ← @checkCount_eq_ok_iff .alternation]
  exact
    ⟨fun ⟨_, hCount, hParts⟩ => ⟨hCount, hParts⟩,
      fun ⟨hCount, hParts⟩ => ⟨(), hCount, hParts⟩⟩

end Element

end Abnf

------------------------------------------------------------
-- Words
------------------------------------------------------------

namespace Abnf

/-
  An element stands for a word when the rules are read as a
  context-free grammar.
-/
inductive Scope.Generates
    (scope : Scope) :
    Element → List UInt8 → Prop
  /- A name stands for what its rule stands for. -/
  | ruleName
      {name : String} {rule : Rule} {word : List UInt8} :
      scope.find? name = some rule →
      Generates scope rule.element word →
      Generates scope (.ruleName name) word
  /- The empty set stands for the empty word. -/
  | nothing {s : CharSet} :
      s.isEmpty = true →
      Generates scope (.terminal s) []
  /- A set stands for each of its members. -/
  | member {s : CharSet} {b : UInt8} :
      s.containsByte b = true →
      Generates scope (.terminal s) [b]
  /- Any number of copies between the bounds will do. -/
  | repetition
      {min : Nat} {max : Option Nat} {body : Element}
      {copies : List (List UInt8)} :
      min ≤ copies.length →
      (∀ limit, max = some limit →
        copies.length ≤ limit) →
      (∀ copy ∈ copies, Generates scope body copy) →
      Generates scope (.repetition min max body)
        copies.flatten
  /- A series stands for words of its parts in a row. -/
  | concatenation
      {parts : List Element}
      {words : List (List UInt8)} :
      words.length = parts.length →
      (∀ pair ∈ parts.zip words,
        Generates scope pair.1 pair.2) →
      Generates scope (.concatenation parts) words.flatten
  /- A choice stands for what any of its parts does. -/
  | alternation
      {parts : List Element} {part : Element}
      {word : List UInt8} :
      part ∈ parts →
      Generates scope part word →
      Generates scope (.alternation parts) word

/- The bytes of a text between two offsets. -/
def Text.between
    (input : Array UInt8)
    (start stop : Nat) : List UInt8 :=
  (input.toList.drop start).take (stop - start)

namespace Text

variable {input : Array UInt8}

@[simp] theorem between_self
    (index : Nat) :
    between input index index = [] := by
  simp [between]

/- Spans that meet make one span. -/
theorem between_append
    {start mid stop : Nat}
    (hStart : start ≤ mid)
    (hStop : mid ≤ stop) :
    between input start mid ++ between input mid stop =
      between input start stop := by
  have hSplit :
      stop - start = (mid - start) + (stop - mid) := by
    omega
  have hMid : start + (mid - start) = mid := by omega
  rw [between, between, between, hSplit, List.take_add,
    List.drop_drop, hMid]

/- The span of one byte. -/
theorem between_succ
    {index : Nat}
    {b : UInt8}
    (h : input[index]? = some b) :
    between input index (index + 1) = [b] := by
  have hList : input.toList[index]? = some b := by
    simpa using h
  have hBound : index < input.toList.length :=
    (List.getElem?_eq_some_iff.mp hList).1
  have hByte : input.toList[index] = b :=
    (List.getElem?_eq_some_iff.mp hList).2
  rw [between, Nat.add_sub_cancel_left,
    List.drop_eq_getElem_cons hBound, hByte]
  rfl

theorem between_all :
    between input 0 input.size = input.toList := by
  rw [between, List.drop_zero, Nat.sub_zero,
    ← Array.length_toList, List.take_length]

end Text

end Abnf

------------------------------------------------------------
-- What Runs Match Is Generated
------------------------------------------------------------

namespace Abnf

namespace Node

open Text

variable {input : Array UInt8}
variable {step : Nat → Run}
variable {good : List UInt8 → Prop}

/-
  What an iteration matches is a row of copies within the
  bounds. Where a copy takes nothing, it is repeated for the
  copies that are still due.
-/
theorem exists_copies_of_runCopies
    (hStays :
      ∀ index, (step index).StaysIn input.size index)
    (hStep :
      ∀ index next, index ≤ input.size →
        (step index).outcome = .matched next →
        good (between input index next))
    {min : Nat}
    {max : Option Nat}
    (hBounds : ∀ limit, max = some limit → min ≤ limit)
    {allowance count index stop : Nat}
    (hCount : ∀ limit, max = some limit → count ≤ limit)
    (hIndex : index ≤ input.size)
    (h :
      (runCopies step min max
        allowance count index).outcome = .matched stop) :
    ∃ copies : List (List UInt8),
      copies.flatten = between input index stop ∧
      (∀ copy ∈ copies, good copy) ∧
      min ≤ count + copies.length ∧
      ∀ limit, max = some limit →
        count + copies.length ≤ limit := by
  have hEnd :
      ∀ {count index},
        endCopies min count index = .matched stop →
        (∀ limit, max = some limit → count ≤ limit) →
        ∃ copies : List (List UInt8),
          copies.flatten = between input index stop ∧
          (∀ copy ∈ copies, good copy) ∧
          min ≤ count + copies.length ∧
          ∀ limit, max = some limit →
            count + copies.length ≤ limit := by
    intro count index hMatched hCount
    rcases endCopies_eq_matched hMatched with ⟨hMin, rfl⟩
    exact ⟨[], by simp, by simp, by simpa, by simpa⟩
  induction allowance generalizing count index with
  | zero => cases h
  | succ allowance ih =>
      have hRound :=
        round_runCopies step min max allowance count index
      generalize runCopies step min max (allowance + 1)
        count index = run at h hRound
      cases hRound with
      | full hFull => exact hEnd h hCount
      | still hBelow hStill =>
          have hGood := hStep index index hIndex hStill
          cases hStill.symm.trans h
          rw [between_self] at hGood
          refine
            ⟨List.replicate (min - count) [], ?_, ?_, ?_,
              ?_⟩
          · simp
          · intro copy hCopy
            rw [List.eq_of_mem_replicate hCopy]
            exact hGood
          · rw [List.length_replicate]
            omega
          · intro limit hMax
            have hLow := hBounds limit hMax
            have hHigh := hCount limit hMax
            rw [List.length_replicate]
            omega
      | @moved next hBelow hMoved hNext =>
          have hGood := hStep index next hIndex hMoved
          have hRange := hStays index next hMoved
          rcases ih (atLimit_eq_false_iff.mp hBelow)
              (by omega) h with
            ⟨copies, hFlat, hAll, hMin, hMax⟩
          have hRest :=
            runCopies_staysIn hStays min max allowance
              (count + 1) next stop h
          refine
            ⟨between input index next :: copies, ?_,
              List.forall_mem_cons.mpr ⟨hGood, hAll⟩, ?_,
              ?_⟩
          · rw [List.flatten_cons, hFlat,
              between_append hRange.1 hRest.1]
          · rw [List.length_cons]
            omega
          · intro limit hLimit
            have hHigh := hMax limit hLimit
            rw [List.length_cons]
            omega
      | ended hBelow hFailed => exact hEnd h hCount
      | broken hBelow hBroken =>
          rw [h] at hBroken
          cases hBroken

end Node

namespace Element

open Text

variable {scope : Scope}
variable {input : Array UInt8}
variable {callee : String → Nat → Run}

theorem generates_of_runSet
    {s : CharSet}
    {index stop : Nat}
    (h : runSet input s index = .matched stop) :
    scope.Generates (.terminal s)
      (between input index stop) := by
  unfold runSet at h
  split at h
  · rename_i hEmpty
    cases h
    rw [between_self]
    exact .nothing hEmpty
  · cases hByte : input[index]? with
    | none => simp [hByte] at h
    | some b =>
        simp only [hByte] at h
        split at h
        · rename_i hMember
          cases h
          rw [between_succ hByte]
          exact .member hMember
        · cases h

mutual

/-
  What an element matches, it generates, if that holds of
  the rules that it names.
-/
theorem generates_of_run
    (hStays :
      ∀ name index,
        (callee name index).StaysIn input.size index)
    (hCallee :
      ∀ name index stop, index ≤ input.size →
        (callee name index).outcome = .matched stop →
        scope.Generates (.ruleName name)
          (between input index stop)) :
    ∀ (element : Element) (index stop : Nat),
      element.check = .ok () →
      index ≤ input.size →
      (element.run input callee index).outcome =
        .matched stop →
      scope.Generates element (between input index stop)
  | ruleName name, index, stop, _, hIndex, h => by
      rw [run] at h
      exact hCallee name index stop hIndex h
  | terminal s, index, stop, _, _, h => by
      rw [run] at h
      exact generates_of_runSet h
  | repetition min max body, index, stop,
      hCheck, hIndex, h => by
      rw [check_repetition_iff] at hCheck
      rw [run] at h
      have hBody :
          ∀ i next, i ≤ input.size →
            (body.run input callee i).outcome =
              .matched next →
            scope.Generates body (between input i next) :=
        fun i next hLow hMatched =>
          generates_of_run hStays hCallee body i next
            hCheck.2 hLow hMatched
      rcases Node.exists_copies_of_runCopies
          (run_staysIn hStays body) hBody hCheck.1
          (fun _ _ => Nat.zero_le _) hIndex h with
        ⟨copies, hFlat, hAll, hMin, hMax⟩
      rw [← hFlat]
      rw [Nat.zero_add] at hMin
      refine .repetition hMin ?_ hAll
      intro limit hLimit
      have hHigh := hMax limit hLimit
      omega
  | concatenation parts, index, stop, hCheck, hIndex, h => by
      rw [check_concatenation_iff] at hCheck
      rw [run] at h
      rcases exists_words_of_runSeries hStays hCallee parts
          index stop hCheck.2 hIndex h with
        ⟨words, hFlat, hLength, hAll⟩
      rw [← hFlat]
      exact .concatenation hLength hAll
  | alternation parts, index, stop, hCheck, hIndex, h => by
      rw [check_alternation_iff] at hCheck
      rw [run] at h
      rcases exists_part_of_runFirst hStays hCallee parts
          index stop hCheck.2 hIndex h with
        ⟨part, hPart, hWord⟩
      exact .alternation hPart hWord

/- The same for elements one after the other. -/
theorem exists_words_of_runSeries
    (hStays :
      ∀ name index,
        (callee name index).StaysIn input.size index)
    (hCallee :
      ∀ name index stop, index ≤ input.size →
        (callee name index).outcome = .matched stop →
        scope.Generates (.ruleName name)
          (between input index stop)) :
    ∀ (parts : List Element) (index stop : Nat),
      (∀ part ∈ parts, part.check = .ok ()) →
      index ≤ input.size →
      (runSeries input callee parts index).outcome =
        .matched stop →
      ∃ words : List (List UInt8),
        words.flatten = between input index stop ∧
        words.length = parts.length ∧
        ∀ pair ∈ parts.zip words,
          scope.Generates pair.1 pair.2
  | [], index, stop, _, _, h => by
      rw [runSeries] at h
      cases h
      exact ⟨[], by simp, rfl, by simp⟩
  | part :: parts, index, stop, hCheck, hIndex, h => by
      rw [List.forall_mem_cons] at hCheck
      rw [runSeries] at h
      rcases Run.exists_andThen_eq_after h with
        ⟨mid, hPart, hParts, _⟩
      have hMid := run_staysIn hStays part index mid hPart
      have hWord :=
        generates_of_run hStays hCallee part index mid
          hCheck.1 hIndex hPart
      rcases exists_words_of_runSeries hStays hCallee parts
          mid stop hCheck.2 (by omega) hParts with
        ⟨words, hFlat, hLength, hAll⟩
      have hStop :
          mid ≤ stop := by
        have hConcatenation :=
          run_staysIn hStays (concatenation parts) mid stop
        rw [run] at hConcatenation
        exact (hConcatenation hParts).1
      refine ⟨between input index mid :: words, ?_, ?_, ?_⟩
      · rw [List.flatten_cons, hFlat,
          between_append hMid.1 hStop]
      · rw [List.length_cons, List.length_cons, hLength]
      · intro pair hPair
        rw [List.zip_cons_cons, List.mem_cons] at hPair
        rcases hPair with rfl | hLater
        · exact hWord
        · exact hAll pair hLater

/- The same for the first element that matches. -/
theorem exists_part_of_runFirst
    (hStays :
      ∀ name index,
        (callee name index).StaysIn input.size index)
    (hCallee :
      ∀ name index stop, index ≤ input.size →
        (callee name index).outcome = .matched stop →
        scope.Generates (.ruleName name)
          (between input index stop)) :
    ∀ (parts : List Element) (index stop : Nat),
      (∀ part ∈ parts, part.check = .ok ()) →
      index ≤ input.size →
      (runFirst input callee parts index).outcome =
        .matched stop →
      ∃ part ∈ parts,
        scope.Generates part (between input index stop)
  | [], _, _, _, _, h => by
      rw [runFirst] at h
      cases h
  | part :: parts, index, stop, hCheck, hIndex, h => by
      rw [List.forall_mem_cons] at hCheck
      rw [runFirst, Run.orElse] at h
      split at h
      · rcases exists_part_of_runFirst hStays hCallee parts
            index stop hCheck.2 hIndex h with
          ⟨other, hOther, hWord⟩
        exact
          ⟨other, List.mem_cons_of_mem part hOther, hWord⟩
      · refine ⟨part, List.mem_cons_self, ?_⟩
        exact
          generates_of_run hStays hCallee part index stop
            hCheck.1 hIndex h

end

end Element

/- What the rule of a name matches, the name generates. -/
theorem Scope.generates_of_invoke
    {scope : Scope}
    (hCheck :
      ∀ name rule, scope.find? name = some rule →
        rule.element.check = .ok ())
    (input : Array UInt8)
    (depth : Nat)
    {name : String}
    {index stop : Nat}
    (hIndex : index ≤ input.size)
    (h :
      (scope.invoke input depth name index).outcome =
        .matched stop) :
    scope.Generates (.ruleName name)
      (Text.between input index stop) := by
  induction depth generalizing name index stop with
  | zero => simp [invoke] at h
  | succ depth ih =>
      cases hRule : scope.find? name with
      | none => simp [invoke, hRule] at h
      | some rule =>
          rw [invoke_succ hRule, outcome_report] at h
          apply Generates.ruleName hRule
          exact
            rule.element.generates_of_run
              (scope.invoke_staysIn input depth)
              (fun _ _ _ hLow hMatched => ih hLow hMatched)
              index stop (hCheck name rule hRule) hIndex h

end Abnf

------------------------------------------------------------
-- Spans
------------------------------------------------------------

namespace Abnf

/- What a span of a text is to be derived from. -/
inductive Task where
  /- An element. -/
  | one (element : Element)
  /- Elements one after the other. -/
  | all (parts : List Element)
  /- A number of copies of an element. -/
  | copies (count : Nat) (body : Element)

/-
  A span of a text is derived from a task. The derivation
  goes through calls of rules, of which those that count as
  loud are listed.
-/
inductive Scope.Parses
    (scope : Scope)
    (loud : String → Bool)
    (input : Array UInt8) :
    Task → Nat → Nat → List Call → Prop
  | ruleName
      {name : String} {rule : Rule}
      {start stop : Nat} {calls : List Call} :
      scope.find? name = some rule →
      Parses scope loud input (.one rule.element)
        start stop calls →
      Parses scope loud input (.one (.ruleName name))
        start stop
        (if loud name then
          [.call name start (some stop) calls]
        else
          calls)
  | nothing {s : CharSet} {start : Nat} :
      s.isEmpty = true →
      Parses scope loud input (.one (.terminal s))
        start start []
  | member {s : CharSet} {start : Nat} {b : UInt8} :
      input[start]? = some b →
      s.containsByte b = true →
      Parses scope loud input (.one (.terminal s))
        start (start + 1) []
  | repetition
      {min : Nat} {max : Option Nat} {body : Element}
      {count start stop : Nat} {calls : List Call} :
      min ≤ count →
      (∀ limit, max = some limit → count ≤ limit) →
      Parses scope loud input (.copies count body)
        start stop calls →
      Parses scope loud input
        (.one (.repetition min max body)) start stop calls
  | concatenation
      {parts : List Element}
      {start stop : Nat} {calls : List Call} :
      Parses scope loud input (.all parts)
        start stop calls →
      Parses scope loud input
        (.one (.concatenation parts)) start stop calls
  | alternation
      {parts : List Element} {part : Element}
      {start stop : Nat} {calls : List Call} :
      part ∈ parts →
      Parses scope loud input (.one part)
        start stop calls →
      Parses scope loud input
        (.one (.alternation parts)) start stop calls
  | allNone {start : Nat} :
      Parses scope loud input (.all []) start start []
  | allNext
      {part : Element} {parts : List Element}
      {start mid stop : Nat} {calls calls' : List Call} :
      Parses scope loud input (.one part)
        start mid calls →
      Parses scope loud input (.all parts)
        mid stop calls' →
      Parses scope loud input (.all (part :: parts))
        start stop (calls ++ calls')
  | copiesNone {body : Element} {start : Nat} :
      Parses scope loud input (.copies 0 body)
        start start []
  | copiesNext
      {count : Nat} {body : Element}
      {start mid stop : Nat} {calls calls' : List Call} :
      Parses scope loud input (.one body)
        start mid calls →
      Parses scope loud input (.copies count body)
        mid stop calls' →
      Parses scope loud input (.copies (count + 1) body)
        start stop (calls ++ calls')

/- A word stands in a text at an offset. -/
def Text.Occurs
    (input : Array UInt8) :
    Nat → List UInt8 → Prop
  | _, [] => True
  | index, b :: word =>
      input[index]? = some b ∧ Occurs input (index + 1) word

namespace Text

variable {input : Array UInt8}

theorem occurs_append_iff
    {index : Nat}
    {word word' : List UInt8} :
    Occurs input index (word ++ word') ↔
      Occurs input index word ∧
        Occurs input (index + word.length) word' := by
  induction word generalizing index with
  | nil => simp [Occurs]
  | cons b word ih =>
      have hNext :
          index + 1 + word.length =
            index + (b :: word).length := by
        rw [List.length_cons]
        omega
      rw [List.cons_append, Occurs, Occurs, ih, hNext,
        and_assoc]

/- A text stands in itself. -/
theorem occurs_drop
    (index : Nat) :
    Occurs input index (input.toList.drop index) := by
  by_cases hIndex : index < input.size
  · rw [List.drop_eq_getElem_cons (by simpa using hIndex)]
    refine ⟨?_, occurs_drop (index + 1)⟩
    rw [Array.getElem?_eq_getElem hIndex,
      Array.getElem_toList]
  · rw [List.drop_eq_nil_of_le (by simpa using hIndex)]
    trivial
termination_by input.size - index

end Text

namespace Scope

open Text

variable {scope : Scope}
variable {loud : String → Bool}
variable {input : Array UInt8}

/- Spans of copies make a span of them all. -/
theorem exists_parses_copies
    {body : Element}
    {copies : List (List UInt8)}
    (hCopies :
      ∀ copy ∈ copies, ∀ start,
        Occurs input start copy →
        ∃ calls,
          scope.Parses loud input (.one body)
            start (start + copy.length) calls)
    {start : Nat}
    (hOccurs : Occurs input start copies.flatten) :
    ∃ calls,
      scope.Parses loud input (.copies copies.length body)
        start (start + copies.flatten.length) calls := by
  induction copies generalizing start with
  | nil => exact ⟨[], .copiesNone⟩
  | cons copy copies ih =>
      rw [List.forall_mem_cons] at hCopies
      rw [List.flatten_cons, occurs_append_iff] at hOccurs
      rcases hCopies.1 start hOccurs.1 with ⟨calls, hCopy⟩
      rcases ih hCopies.2 hOccurs.2 with ⟨calls', hRest⟩
      refine ⟨calls ++ calls', ?_⟩
      rw [List.flatten_cons, List.length_append,
        ← Nat.add_assoc]
      exact .copiesNext hCopy hRest

/- Spans of parts make a span of the series. -/
theorem exists_parses_all
    {parts : List Element}
    {words : List (List UInt8)}
    (hLength : words.length = parts.length)
    (hParts :
      ∀ pair ∈ parts.zip words, ∀ start,
        Occurs input start pair.2 →
        ∃ calls,
          scope.Parses loud input (.one pair.1)
            start (start + pair.2.length) calls)
    {start : Nat}
    (hOccurs : Occurs input start words.flatten) :
    ∃ calls,
      scope.Parses loud input (.all parts)
        start (start + words.flatten.length) calls := by
  induction parts generalizing words start with
  | nil =>
      rw [List.length_nil, List.length_eq_zero_iff]
        at hLength
      subst hLength
      exact ⟨[], .allNone⟩
  | cons part parts ih =>
      cases words with
      | nil => simp at hLength
      | cons word words =>
          rw [List.zip_cons_cons, List.forall_mem_cons]
            at hParts
          rw [List.flatten_cons, occurs_append_iff]
            at hOccurs
          rcases hParts.1 start hOccurs.1 with
            ⟨calls, hPart⟩
          rcases ih (Nat.succ.inj hLength) hParts.2
              hOccurs.2 with
            ⟨calls', hRest⟩
          refine ⟨calls ++ calls', ?_⟩
          rw [List.flatten_cons, List.length_append,
            ← Nat.add_assoc]
          exact .allNext hPart hRest

/- A word that is generated is derived where it occurs. -/
theorem Generates.exists_parses
    {element : Element}
    {word : List UInt8}
    (h : scope.Generates element word)
    {start : Nat}
    (hOccurs : Occurs input start word) :
    ∃ calls,
      scope.Parses loud input (.one element)
        start (start + word.length) calls := by
  induction h generalizing start with
  | ruleName hRule _ ih =>
      rcases ih hOccurs with ⟨calls, hBody⟩
      exact ⟨_, .ruleName hRule hBody⟩
  | nothing hEmpty => exact ⟨[], .nothing hEmpty⟩
  | member hMember =>
      exact ⟨[], .member hOccurs.1 hMember⟩
  | repetition hMin hMax _ ih =>
      rcases exists_parses_copies
          (fun copy hCopy start hHere => ih copy hCopy hHere)
          hOccurs with
        ⟨calls, hCopies⟩
      exact ⟨calls, .repetition hMin hMax hCopies⟩
  | concatenation hLength _ ih =>
      rcases exists_parses_all hLength
          (fun pair hPair start hHere => ih pair hPair hHere)
          hOccurs with
        ⟨calls, hParts⟩
      exact ⟨calls, .concatenation hParts⟩
  | alternation hPart _ ih =>
      rcases ih hOccurs with ⟨calls, hBody⟩
      exact ⟨calls, .alternation hPart hBody⟩

/- A span of a series starts with one of its first part. -/
theorem Parses.series
    {part : Element}
    {parts : List Element}
    {start stop : Nat}
    {calls : List Call}
    (h :
      scope.Parses loud input
        (.one (.concatenation (part :: parts)))
        start stop calls) :
    ∃ mid first rest,
      scope.Parses loud input (.one part)
        start mid first ∧
      scope.Parses loud input (.one (.concatenation parts))
        mid stop rest ∧
      calls = first ++ rest := by
  cases h with
  | concatenation h =>
      cases h with
      | allNext hPart hParts =>
          exact
            ⟨_, _, _, hPart, .concatenation hParts, rfl⟩

theorem Parses.series_nil
    {start stop : Nat}
    {calls : List Call}
    (h :
      scope.Parses loud input (.one (.concatenation []))
        start stop calls) :
    start = stop ∧ calls = [] := by
  cases h with
  | concatenation h =>
      cases h
      exact ⟨rfl, rfl⟩

/- The last part of a series goes to its end. -/
theorem Parses.series_last
    {part : Element}
    {start stop : Nat}
    {calls : List Call}
    (h :
      scope.Parses loud input
        (.one (.concatenation [part])) start stop calls) :
    scope.Parses loud input (.one part)
      start stop calls := by
  rcases h.series with ⟨mid, first, rest, hPart, hNil, rfl⟩
  rcases hNil.series_nil with ⟨rfl, rfl⟩
  rw [List.append_nil]
  exact hPart

end Scope

end Abnf

------------------------------------------------------------
-- Empty Spans
------------------------------------------------------------

namespace Abnf

/-
  The task can be done on the empty span, given the names
  that can stand for the empty word.
-/
def Task.isNullable
    (known : List String) : Task → Bool
  | one element => element.isNullable known
  | all parts => Element.allNullable known parts
  | copies count body =>
      count == 0 || body.isNullable known

namespace Scope

variable {scope : Scope}
variable {loud : String → Bool}
variable {input : Array UInt8}

theorem anyNullable_of_mem
    {known : List String}
    {parts : List Element}
    {part : Element}
    (hPart : part ∈ parts)
    (h : part.isNullable known = true) :
    Element.anyNullable known parts = true := by
  induction parts with
  | nil => cases hPart
  | cons first parts ih =>
      rw [Element.anyNullable, Bool.or_eq_true]
      rcases List.mem_cons.mp hPart with rfl | hLater
      · exact Or.inl h
      · exact Or.inr (ih hLater)

/-
  A span ends at or behind its start, and where it is empty
  the task can be done on the empty span.
-/
theorem Parses.isNullable
    {task : Task}
    {start stop : Nat}
    {calls : List Call}
    (h : scope.Parses loud input task start stop calls) :
    start ≤ stop ∧
      (start = stop →
        task.isNullable scope.nullable = true) := by
  induction h with
  | ruleName hRule _ ih =>
      refine ⟨ih.1, ?_⟩
      intro hEmpty
      rw [Task.isNullable, Element.isNullable,
        List.contains_iff_mem]
      exact mem_nullable_of_isNullable hRule (ih.2 hEmpty)
  | nothing hEmpty =>
      exact ⟨Nat.le_refl _, fun _ => hEmpty⟩
  | member _ _ =>
      exact ⟨Nat.le_succ _, fun hSame => by omega⟩
  | repetition hMin _ _ ih =>
      refine ⟨ih.1, ?_⟩
      intro hEmpty
      have hCopies := ih.2 hEmpty
      rw [Task.isNullable, Bool.or_eq_true, beq_iff_eq]
        at hCopies
      rw [Task.isNullable, Element.isNullable,
        Bool.or_eq_true, beq_iff_eq]
      rcases hCopies with hNone | hBody
      · exact Or.inl (by omega)
      · exact Or.inr hBody
  | concatenation _ ih => exact ih
  | alternation hPart _ ih =>
      refine ⟨ih.1, ?_⟩
      intro hEmpty
      exact anyNullable_of_mem hPart (ih.2 hEmpty)
  | allNone => exact ⟨Nat.le_refl _, fun _ => rfl⟩
  | allNext _ _ ihPart ihParts =>
      refine ⟨Nat.le_trans ihPart.1 ihParts.1, ?_⟩
      intro hEmpty
      have hFirst := ihPart.1
      have hSecond := ihParts.1
      rw [Task.isNullable, Element.allNullable,
        Bool.and_eq_true]
      exact ⟨ihPart.2 (by omega), ihParts.2 (by omega)⟩
  | copiesNone => exact ⟨Nat.le_refl _, fun _ => rfl⟩
  | copiesNext _ _ ihBody ihRest =>
      refine ⟨Nat.le_trans ihBody.1 ihRest.1, ?_⟩
      intro hEmpty
      have hFirst := ihBody.1
      have hSecond := ihRest.1
      rw [Task.isNullable, Bool.or_eq_true]
      exact Or.inr (ihBody.2 (by omega))

/- An element that needs input takes some. -/
theorem Parses.lt
    {element : Element}
    {start stop : Nat}
    {calls : List Call}
    (h :
      scope.Parses loud input (.one element)
        start stop calls)
    (hNeeds : element.isNullable scope.nullable = false) :
    start < stop := by
  have hBoth := h.isNullable
  rcases Nat.lt_or_eq_of_le hBoth.1 with hLess | hSame
  · exact hLess
  · have hNullable := hBoth.2 hSame
    rw [Task.isNullable, hNeeds] at hNullable
    cases hNullable

end Scope

end Abnf
