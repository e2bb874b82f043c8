import Abnf.Proofs.PublicRules

/-
  What rules match, by rules of their own.

  `Scope.Derives` gives elements a meaning as they are
  written, without tables, indices, tests or normal forms:
  it relates what is to be matched and an offset to the end
  of the match, or to none. There is at most one such end,
  and the matcher of each rule of a grammar finds it.

  Key definitions include:
    * `Abnf.Goal`
    * `Abnf.Scope.Derives`

  Main declarations:
    * `Abnf.Scope.Derives.unique`
    * `Abnf.Scope.derives_of_invoke`
    * `Abnf.Program.run_eq_ofStop_iff_derives`
-/

------------------------------------------------------------
-- Derivations
------------------------------------------------------------

namespace Abnf

/- What is to be matched. -/
inductive Goal where
  /- An element. -/
  | one (element : Element)
  /- Elements one after the other. -/
  | all (parts : List Element)
  /- The first of some elements that matches. -/
  | first (parts : List Element)
  /- Copies of an element, some of which are made. -/
  | copies
      (min : Nat)
      (max : Option Nat)
      (body : Element)
      (count : Nat)

/- The end of a repetition after some copies. -/
def Goal.close
    (min count index : Nat) : Option Nat :=
  if min ≤ count then some index else none

/-
  At an offset of a text, a goal has a match that ends at
  some offset, or no match.
-/
inductive Scope.Derives
    (scope : Scope)
    (input : Array UInt8) :
    Goal → Nat → Option Nat → Prop
  /- A name means the element of the rule it stands for. -/
  | ruleName
      {name : String} {rule : Rule}
      {index : Nat} {stop : Option Nat} :
      scope.find? name = some rule →
      Derives scope input (.one rule.element) index stop →
      Derives scope input (.one (.ruleName name)) index stop
  /- The empty set takes nothing. -/
  | nothing {s : CharSet} {index : Nat} :
      s.isEmpty = true →
      Derives scope input (.one (.terminal s)) index
        (some index)
  /- Any other set takes one byte that is a member. -/
  | member {s : CharSet} {index : Nat} {b : UInt8} :
      s.isEmpty = false →
      input[index]? = some b →
      s.containsByte b = true →
      Derives scope input (.one (.terminal s)) index
        (some (index + 1))
  | noMember {s : CharSet} {index : Nat} :
      s.isEmpty = false →
      (∀ b, input[index]? = some b →
        s.containsByte b = false) →
      Derives scope input (.one (.terminal s)) index none
  | repetition
      {min : Nat} {max : Option Nat} {body : Element}
      {index : Nat} {stop : Option Nat} :
      Derives scope input
        (.copies min max body 0) index stop →
      Derives scope input
        (.one (.repetition min max body)) index stop
  | concatenation
      {parts : List Element}
      {index : Nat} {stop : Option Nat} :
      Derives scope input (.all parts) index stop →
      Derives scope input
        (.one (.concatenation parts)) index stop
  | alternation
      {parts : List Element}
      {index : Nat} {stop : Option Nat} :
      Derives scope input (.first parts) index stop →
      Derives scope input
        (.one (.alternation parts)) index stop
  /- A series goes on from the end of each part. -/
  | allNone {index : Nat} :
      Derives scope input (.all []) index (some index)
  | allNext
      {part : Element} {parts : List Element}
      {index next : Nat} {stop : Option Nat} :
      Derives scope input (.one part) index (some next) →
      Derives scope input (.all parts) next stop →
      Derives scope input (.all (part :: parts)) index stop
  | allFailed
      {part : Element} {parts : List Element}
      {index : Nat} :
      Derives scope input (.one part) index none →
      Derives scope input (.all (part :: parts)) index none
  /- A choice takes its first part that matches. -/
  | firstNone {index : Nat} :
      Derives scope input (.first []) index none
  | firstHere
      {part : Element} {parts : List Element}
      {index stop : Nat} :
      Derives scope input (.one part) index (some stop) →
      Derives scope input (.first (part :: parts)) index
        (some stop)
  | firstNext
      {part : Element} {parts : List Element}
      {index : Nat} {stop : Option Nat} :
      Derives scope input (.one part) index none →
      Derives scope input (.first parts) index stop →
      Derives scope input
        (.first (part :: parts)) index stop
  /- No copy is made beyond the limit. -/
  | copiesFull
      {min limit : Nat} {body : Element}
      {count index : Nat} :
      limit ≤ count →
      Derives scope input
        (.copies min (some limit) body count) index
        (Goal.close min count index)
  /- A copy that takes nothing stands for all others. -/
  | copiesStay
      {min : Nat} {max : Option Nat} {body : Element}
      {count index : Nat} :
      (∀ limit, max = some limit → count < limit) →
      Derives scope input (.one body) index (some index) →
      Derives scope input
        (.copies min max body count) index (some index)
  | copiesNext
      {min : Nat} {max : Option Nat} {body : Element}
      {count index next : Nat} {stop : Option Nat} :
      (∀ limit, max = some limit → count < limit) →
      Derives scope input (.one body) index (some next) →
      next ≠ index →
      Derives scope input
        (.copies min max body (count + 1)) next stop →
      Derives scope input
        (.copies min max body count) index stop
  /- Copies end where there is no further one. -/
  | copiesFailed
      {min : Nat} {max : Option Nat} {body : Element}
      {count index : Nat} :
      (∀ limit, max = some limit → count < limit) →
      Derives scope input (.one body) index none →
      Derives scope input
        (.copies min max body count) index
        (Goal.close min count index)

end Abnf

------------------------------------------------------------
-- One Result
------------------------------------------------------------

namespace Abnf

namespace Scope

variable {scope : Scope}
variable {input : Array UInt8}

/- A goal has at most one result at an offset. -/
theorem Derives.unique
    {goal : Goal}
    {index : Nat}
    {stop stop' : Option Nat}
    (h : scope.Derives input goal index stop)
    (h' : scope.Derives input goal index stop') :
    stop = stop' := by
  induction h generalizing stop' with
  | ruleName hRule _ ih =>
      cases h' with
      | ruleName hRule' hElement =>
          rw [hRule] at hRule'
          cases hRule'
          exact ih hElement
  | nothing hEmpty =>
      cases h' with
      | nothing _ => rfl
      | member hSome _ _ => simp [hEmpty] at hSome
      | noMember hSome _ => simp [hEmpty] at hSome
  | member hSome hByte hMember =>
      cases h' with
      | nothing hEmpty => simp [hEmpty] at hSome
      | member _ _ _ => rfl
      | noMember _ hNone =>
          rw [hNone _ hByte] at hMember
          cases hMember
  | noMember hSome hNone =>
      cases h' with
      | nothing hEmpty => simp [hEmpty] at hSome
      | member _ hByte hMember =>
          rw [hNone _ hByte] at hMember
          cases hMember
      | noMember _ _ => rfl
  | repetition _ ih =>
      cases h' with
      | repetition hCopies => exact ih hCopies
  | concatenation _ ih =>
      cases h' with
      | concatenation hParts => exact ih hParts
  | alternation _ ih =>
      cases h' with
      | alternation hParts => exact ih hParts
  | allNone =>
      cases h' with
      | allNone => rfl
  | allNext _ _ ihPart ihParts =>
      cases h' with
      | allNext hPart hParts =>
          cases ihPart hPart
          exact ihParts hParts
      | allFailed hPart => cases ihPart hPart
  | allFailed _ ih =>
      cases h' with
      | allNext hPart _ => cases ih hPart
      | allFailed _ => rfl
  | firstNone =>
      cases h' with
      | firstNone => rfl
  | firstHere _ ih =>
      cases h' with
      | firstHere hPart => exact ih hPart
      | firstNext hPart _ => cases ih hPart
  | firstNext _ _ ihPart ihParts =>
      cases h' with
      | firstHere hPart => cases ihPart hPart
      | firstNext _ hParts => exact ihParts hParts
  | copiesFull hFull =>
      cases h' with
      | copiesFull _ => rfl
      | copiesStay hLimit _ =>
          have hLess := hLimit _ rfl
          omega
      | copiesNext hLimit _ _ _ =>
          have hLess := hLimit _ rfl
          omega
      | copiesFailed hLimit _ =>
          have hLess := hLimit _ rfl
          omega
  | copiesStay hLimit _ ih =>
      cases h' with
      | copiesFull hFull =>
          have hLess := hLimit _ rfl
          omega
      | copiesStay _ _ => rfl
      | copiesNext _ hBody hNext _ =>
          cases ih hBody
          exact absurd rfl hNext
      | copiesFailed _ hBody => cases ih hBody
  | copiesNext hLimit _ hNext _ ihBody ihCopies =>
      cases h' with
      | copiesFull hFull =>
          have hLess := hLimit _ rfl
          omega
      | copiesStay _ hBody =>
          cases ihBody hBody
          exact absurd rfl hNext
      | copiesNext _ hBody _ hCopies =>
          cases ihBody hBody
          exact ihCopies hCopies
      | copiesFailed _ hBody => cases ihBody hBody
  | copiesFailed hLimit _ ih =>
      cases h' with
      | copiesFull hFull =>
          have hLess := hLimit _ rfl
          omega
      | copiesStay _ hBody => cases ih hBody
      | copiesNext _ hBody _ _ => cases ih hBody
      | copiesFailed _ _ => rfl

end Scope

end Abnf

------------------------------------------------------------
-- Runs Are Derivations
------------------------------------------------------------

namespace Abnf

namespace Node

theorem endCopies_eq_ofStop
    (min count index : Nat) :
    endCopies min count index =
      Outcome.ofStop (Goal.close min count index) := by
  unfold endCopies Goal.close
  by_cases hCount : count < min
  · rw [if_pos hCount, if_neg (Nat.not_le.mpr hCount)]
    rfl
  · rw [if_neg hCount, if_pos (Nat.not_lt.mp hCount)]
    rfl

end Node

namespace Scope

variable {scope : Scope}
variable {input : Array UInt8}
variable {callee : String → Nat → Run}

/- The run of a set is a derivation. -/
theorem derives_of_runSet
    {s : CharSet}
    {index : Nat}
    {stop : Option Nat}
    (h : Element.runSet input s index = Outcome.ofStop stop) :
    scope.Derives input (.one (.terminal s)) index stop := by
  unfold Element.runSet at h
  cases hEmpty : s.isEmpty with
  | true =>
      simp only [hEmpty, if_true] at h
      cases @Outcome.ofStop_injective (some index) stop h
      exact Derives.nothing hEmpty
  | false =>
      simp only [hEmpty, Bool.false_eq_true, if_false] at h
      cases hByte : input[index]? with
      | none =>
          simp only [hByte] at h
          cases @Outcome.ofStop_injective none stop h
          apply Derives.noMember hEmpty
          intro b hSome
          rw [hByte] at hSome
          cases hSome
      | some b =>
          simp only [hByte] at h
          cases hMember : s.containsByte b with
          | true =>
              simp only [hMember, if_true] at h
              cases
                @Outcome.ofStop_injective
                  (some (index + 1)) stop h
              exact Derives.member hEmpty hByte hMember
          | false =>
              simp only [hMember, Bool.false_eq_true,
                if_false] at h
              cases @Outcome.ofStop_injective none stop h
              apply Derives.noMember hEmpty
              intro b' hSome
              rw [hByte] at hSome
              cases hSome
              exact hMember

/-
  Copies whose runs are derivations make an iteration that is
  one. The induction is on the rounds that are allowed.
-/
theorem derives_of_runCopies
    {body : Element}
    {step : Nat → Run}
    (hStep :
      ∀ index stop,
        (step index).outcome = Outcome.ofStop stop →
        scope.Derives input (.one body) index stop)
    {min : Nat}
    {max : Option Nat}
    {allowance count index : Nat}
    {stop : Option Nat}
    (h :
      (Node.runCopies step min max
        allowance count index).outcome =
          Outcome.ofStop stop) :
    scope.Derives input
      (.copies min max body count) index stop := by
  induction allowance generalizing count index with
  | zero => cases stop <;> cases h
  | succ allowance ih =>
      have hRound :=
        Node.round_runCopies step min max allowance
          count index
      generalize Node.runCopies step min max (allowance + 1)
        count index = run at h hRound
      cases hRound with
      | full hFull =>
          rw [Run.outcome_quiet,
            Node.endCopies_eq_ofStop] at h
          cases Outcome.ofStop_injective h
          cases max with
          | none => simp [Node.atLimit] at hFull
          | some limit =>
              apply Derives.copiesFull
              simpa [Node.atLimit] using hFull
      | still hBelow hStill =>
          cases
            @Outcome.ofStop_injective (some index) stop
              (hStill.symm.trans h)
          exact
            Derives.copiesStay
              (Node.atLimit_eq_false_iff.mp hBelow)
              (hStep index (some index) hStill)
      | @moved next hBelow hMoved hNext =>
          exact
            Derives.copiesNext
              (Node.atLimit_eq_false_iff.mp hBelow)
              (hStep index (some next) hMoved) hNext (ih h)
      | ended hBelow hFailed =>
          rw [Run.outcome_after, Run.outcome_quiet,
            Node.endCopies_eq_ofStop] at h
          cases Outcome.ofStop_injective h
          exact
            Derives.copiesFailed
              (Node.atLimit_eq_false_iff.mp hBelow)
              (hStep index none hFailed)
      | broken hBelow hBroken =>
          rw [h, Outcome.isSettled_ofStop] at hBroken
          cases hBroken

mutual

/-
  The run of an element is a derivation, if the runs of the
  rules that it names are.
-/
theorem derives_of_run
    (hCallee :
      ∀ name index stop,
        (callee name index).outcome = Outcome.ofStop stop →
        scope.Derives input
          (.one (.ruleName name)) index stop) :
    ∀ (element : Element) (index : Nat) (stop : Option Nat),
      (element.run input callee index).outcome =
        Outcome.ofStop stop →
      scope.Derives input (.one element) index stop
  | .ruleName name, index, stop, h => by
      rw [Element.run] at h
      exact hCallee name index stop h
  | .terminal s, index, stop, h => by
      rw [Element.run] at h
      exact derives_of_runSet h
  | .repetition min max body, index, stop, h => by
      rw [Element.run] at h
      exact
        Derives.repetition
          (derives_of_runCopies
            (derives_of_run hCallee body) h)
  | .concatenation parts, index, stop, h => by
      rw [Element.run] at h
      exact
        Derives.concatenation
          (derives_of_runSeries hCallee parts index stop h)
  | .alternation parts, index, stop, h => by
      rw [Element.run] at h
      exact
        Derives.alternation
          (derives_of_runFirst hCallee parts index stop h)

/- The same for elements one after the other. -/
theorem derives_of_runSeries
    (hCallee :
      ∀ name index stop,
        (callee name index).outcome = Outcome.ofStop stop →
        scope.Derives input
          (.one (.ruleName name)) index stop) :
    ∀ (parts : List Element) (index : Nat)
      (stop : Option Nat),
      (Element.runSeries input callee parts
        index).outcome = Outcome.ofStop stop →
      scope.Derives input (.all parts) index stop
  | [], index, stop, h => by
      rw [Element.runSeries] at h
      cases @Outcome.ofStop_injective (some index) stop h
      exact Derives.allNone
  | part :: parts, index, stop, h => by
      rw [Element.runSeries, Run.andThen_eq_resume] at h
      rcases Run.resume_eq_ofStop h with
        ⟨next, hPart, hParts⟩ | ⟨hPart, hParts⟩
      · exact
          Derives.allNext
            (derives_of_run hCallee part index _ hPart)
            (derives_of_runSeries hCallee parts next stop
              hParts)
      · cases @Outcome.ofStop_injective none stop hParts
        exact
          Derives.allFailed
            (derives_of_run hCallee part index _ hPart)

/- The same for the first element that matches. -/
theorem derives_of_runFirst
    (hCallee :
      ∀ name index stop,
        (callee name index).outcome = Outcome.ofStop stop →
        scope.Derives input
          (.one (.ruleName name)) index stop) :
    ∀ (parts : List Element) (index : Nat)
      (stop : Option Nat),
      (Element.runFirst input callee parts
        index).outcome = Outcome.ofStop stop →
      scope.Derives input (.first parts) index stop
  | [], index, stop, h => by
      rw [Element.runFirst] at h
      cases @Outcome.ofStop_injective none stop h
      exact Derives.firstNone
  | part :: parts, index, stop, h => by
      rw [Element.runFirst, Run.orElse_eq_resume] at h
      rcases Run.resume_eq_ofStop h with
        ⟨next, hPart, hParts⟩ | ⟨hPart, hParts⟩
      · cases
          @Outcome.ofStop_injective (some next) stop hParts
        exact
          Derives.firstHere
            (derives_of_run hCallee part index _ hPart)
      · exact
          Derives.firstNext
            (derives_of_run hCallee part index _ hPart)
            (derives_of_runFirst hCallee parts index stop
              hParts)

end

/- The run of a rule is a derivation of its name. -/
theorem derives_of_invoke
    (scope : Scope)
    (input : Array UInt8)
    (depth : Nat)
    (name : String)
    (start : Nat)
    (stop : Option Nat)
    (h :
      (scope.invoke input depth name start).outcome =
        Outcome.ofStop stop) :
    scope.Derives input
      (.one (.ruleName name)) start stop := by
  induction depth generalizing name start stop with
  | zero => cases stop <;> cases h
  | succ depth ih =>
      cases hRule : scope.find? name with
      | none =>
          simp only [invoke, hRule] at h
          cases stop <;> cases h
      | some rule =>
          rw [invoke_succ hRule, outcome_report] at h
          exact
            Derives.ruleName hRule
              (derives_of_run ih rule.element start stop h)

end Scope

end Abnf

------------------------------------------------------------
-- The Matchers Of A Grammar
------------------------------------------------------------

namespace Abnf

namespace Program

/-
  The matcher of a rule finds, on every text and from every
  offset, the one end that the elements of the rules derive
  as they are written.
-/
theorem run_eq_ofStop_iff_derives
    {rules : List Rule}
    {program : Program}
    (hProgram : ofRules rules = .ok program)
    {name : String}
    (hName : name ∈ rules.map (·.name)) :
    ∃ entry, program.entry? name = some entry ∧
      ∀ input start,
        (∃ stop,
          program.run entry input start =
            Outcome.ofStop stop) ∧
        ∀ stop,
          program.run entry input start =
              Outcome.ofStop stop ↔
            (Scope.ofRules rules).Derives input
              (.one (.ruleName name)) start stop := by
  rcases List.mem_map.mp hName with ⟨rule, hRule, rfl⟩
  rcases exists_trace_eq_invoke Rule.isRewrite_normalize
      (Scope.ofRules rules).invoke_normalize hProgram
      hRule with
    ⟨entry, hEntry, hTrace⟩
  refine ⟨entry, hEntry, ?_⟩
  intro input start
  rcases hTrace input start with ⟨depth, hRun, hSettled⟩
  have hStop := Outcome.eq_ofStop_of_isSettled hSettled
  have hDerives :
      ∀ stop,
        program.run entry input start =
          Outcome.ofStop stop →
        (Scope.ofRules rules).Derives input
          (.one (.ruleName rule.name)) start stop := by
    intro stop h
    rw [run, hRun] at h
    exact Scope.derives_of_invoke _ _ _ _ _ _ h
  refine ⟨⟨_, hStop⟩, ?_⟩
  intro stop
  constructor
  · exact hDerives stop
  · intro h
    rw [h.unique (hDerives _ hStop)]
    exact hStop

/-
  Brackets around digits, in a grammar with a rule of its own
  for digits and a copy that can be empty.
-/
def bracketedDigits : List Rule :=
  [⟨"list",
    .repetition 2 none (.ruleName "DIGIT")⟩,
   ⟨"DIGIT",
    .alternation
      [.concatenation
         [.chars "(", .ruleName "list", .chars ")"],
       .optional (.chars "0"),
       .chars "1"]⟩]

/- The end of "(0)0" is derived from the end of its run. -/
theorem derives_bracketedDigits :
    ∃ program,
      ofRules bracketedDigits = .ok program ∧
      "list" ∈ bracketedDigits.map (·.name) ∧
      program.entry? "list" = some 0 ∧
      (Scope.ofRules bracketedDigits).Derives
        #[40, 48, 41, 48, 49] (.one (.ruleName "list")) 0
        (some 4) := by
  have hRun :
      (ofRules bracketedDigits).toOption.map
          (fun program =>
            (program.entry? "list",
             program.run 0 #[40, 48, 41, 48, 49] 0)) =
        some (some 0, Outcome.matched 4) := by
    decide +kernel
  have hName :
      "list" ∈ bracketedDigits.map (·.name) := by
    decide
  cases hProgram : ofRules bracketedDigits with
  | error cause =>
      rw [hProgram] at hRun
      cases hRun
  | ok program =>
      rw [hProgram] at hRun
      have hPair := Prod.mk.inj (Option.some.inj hRun)
      rcases run_eq_ofStop_iff_derives hProgram hName with
        ⟨entry, hEntry, hIff⟩
      have hZero : entry = 0 := by
        rw [hPair.1] at hEntry
        exact (Option.some.inj hEntry).symm
      subst hZero
      refine ⟨program, rfl, hName, hEntry, ?_⟩
      exact ((hIff _ 0).2 (some 4)).mp hPair.2

end Program

end Abnf
