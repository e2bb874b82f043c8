import Abnf.Proofs.ContextFree
import Abnf.Proofs.Openings

/-
  Rules for which the first match is the only one.

  A run commits to the first part of a choice that matches
  and to as many copies as there are. `Element.predicts`
  checks that the next byte of a text always tells which
  part of a choice goes on and whether a further copy does.
  For such an element, a run finds each span that can be
  derived, if a byte of the right kind follows it.

  Key definitions include:
    * `Abnf.Call.madeAll`
    * `Abnf.Run.Reads`
    * `Abnf.Run.Refuses`
    * `Abnf.Node.Copies`
    * `Abnf.Element.predicts`
    * `Abnf.Scope.predicts`

  Main declarations:
    * `Abnf.Node.reads_runCopies`
    * `Abnf.Scope.Parses.opens`
    * `Abnf.Element.reads_of_predicts`
    * `Abnf.Scope.reads_of_predicts`
-/

------------------------------------------------------------
-- Calls That Count
------------------------------------------------------------

namespace Abnf

namespace Call

mutual

/-
  What counts of a call: nothing if it failed, and otherwise
  the call itself if it is loud, or what counts in it.
-/
def made
    (loud : String → Bool) : Call → List Call
  | call _ _ none _ => []
  | call rule start (some stop) inner =>
      if loud rule then
        [call rule start (some stop) (madeAll loud inner)]
      else
        madeAll loud inner

/- What counts of some calls. -/
def madeAll
    (loud : String → Bool) : List Call → List Call
  | [] => []
  | first :: others =>
      made loud first ++ madeAll loud others

end

variable {loud : String → Bool}

@[simp] theorem madeAll_nil :
    madeAll loud [] = [] := by
  rw [madeAll]

theorem madeAll_append
    (calls calls' : List Call) :
    madeAll loud (calls ++ calls') =
      madeAll loud calls ++ madeAll loud calls' := by
  induction calls with
  | nil => simp
  | cons first others ih =>
      rw [List.cons_append, madeAll, madeAll, ih,
        List.append_assoc]

mutual

/- Nothing counts of a hushed call. -/
theorem made_of_hushed :
    ∀ {first : Call},
      first.Hushed loud → made loud first = []
  | call _ _ none _, _ => by
      rw [made]
  | call _ _ (some _) _, h => by
      rw [Hushed] at h
      rw [made, h.1 rfl, if_neg Bool.false_ne_true]
      exact madeAll_of_allHushed h.2

/- Nothing counts of hushed calls. -/
theorem madeAll_of_allHushed :
    ∀ {calls : List Call},
      AllHushed loud calls → madeAll loud calls = []
  | [], _ => madeAll_nil
  | _ :: _, h => by
      rw [AllHushed] at h
      rw [madeAll, made_of_hushed h.1,
        madeAll_of_allHushed h.2]
      rfl

end

end Call

end Abnf

------------------------------------------------------------
-- Readings
------------------------------------------------------------

namespace Abnf

namespace Run

/- The run matches up to an offset, and some calls count. -/
structure Reads
    (loud : String → Bool)
    (run : Run)
    (stop : Nat)
    (calls : List Call) : Prop where
  outcome : run.outcome = .matched stop
  made : Call.madeAll loud run.calls = calls

/- The run fails, and none of its calls counts. -/
structure Refuses
    (loud : String → Bool)
    (run : Run) : Prop where
  outcome : run.outcome = .failed
  made : Call.madeAll loud run.calls = []

variable {loud : String → Bool}
variable {run : Run}
variable {stop : Nat}
variable {calls calls' : List Call}

theorem reads_quiet
    (stop : Nat) :
    (quiet (.matched stop)).Reads loud stop [] :=
  ⟨rfl, Call.madeAll_nil⟩

theorem refuses_quiet :
    (quiet .failed).Refuses loud :=
  ⟨rfl, Call.madeAll_nil⟩

theorem Reads.after
    (h : run.Reads loud stop calls')
    {before : List Call}
    (hBefore : Call.madeAll loud before = calls) :
    (after before run).Reads loud stop
      (calls ++ calls') := by
  refine ⟨h.outcome, ?_⟩
  rw [Run.after, Call.madeAll_append, hBefore, h.made]

theorem Refuses.after
    (h : run.Refuses loud)
    {before : List Call}
    (hBefore : Call.madeAll loud before = []) :
    (after before run).Refuses loud := by
  refine ⟨h.outcome, ?_⟩
  rw [Run.after, Call.madeAll_append, hBefore, h.made]
  rfl

theorem Idle.refuses
    {index : Nat}
    (h : run.Idle loud false index) :
    run.Refuses loud :=
  ⟨h.failed, Call.madeAll_of_allHushed h.hushed⟩

theorem Reads.andThen
    {mid : Nat}
    {next : Nat → Run}
    (h : run.Reads loud mid calls)
    (hNext : (next mid).Reads loud stop calls') :
    (run.andThen next).Reads loud stop
      (calls ++ calls') := by
  rw [Run.andThen, h.outcome]
  exact hNext.after h.made

/- A series refuses behind a part whose calls do not count. -/
theorem Reads.andThen_refuses
    {mid : Nat}
    {next : Nat → Run}
    (h : run.Reads loud mid [])
    (hNext : (next mid).Refuses loud) :
    (run.andThen next).Refuses loud := by
  rw [Run.andThen, h.outcome]
  exact hNext.after h.made

theorem Refuses.andThen
    {next : Nat → Run}
    (h : run.Refuses loud) :
    (run.andThen next).Refuses loud := by
  rw [Run.andThen, h.outcome]
  exact h

theorem Reads.orElse
    {other : Unit → Run}
    (h : run.Reads loud stop calls) :
    (run.orElse other).Reads loud stop calls := by
  rw [Run.orElse, h.outcome]
  exact h

theorem Refuses.orElse_reads
    {other : Unit → Run}
    (h : run.Refuses loud)
    (hOther : (other ()).Reads loud stop calls) :
    (run.orElse other).Reads loud stop calls := by
  rw [Run.orElse, h.outcome]
  exact hOther.after h.made

theorem Refuses.orElse
    {other : Unit → Run}
    (h : run.Refuses loud)
    (hOther : (other ()).Refuses loud) :
    (run.orElse other).Refuses loud := by
  rw [Run.orElse, h.outcome]
  exact hOther.after h.made

theorem Reads.reported
    (h : run.Reads loud stop calls)
    (name : String)
    (start : Nat) :
    (run.reported name start).Reads loud stop
      (if loud name then
        [.call name start (some stop) calls]
      else
        calls) := by
  refine ⟨h.outcome, ?_⟩
  rw [Run.reported, h.outcome, Outcome.stop?, Call.madeAll,
    Call.made, h.made, Call.madeAll_nil, List.append_nil]

/- Nothing counts of a call that fails. -/
theorem refuses_reported
    (hFailed : run.outcome = .failed)
    (name : String)
    (start : Nat) :
    (run.reported name start).Refuses loud := by
  refine ⟨hFailed, ?_⟩
  simp [Run.reported, hFailed, Outcome.stop?, Call.madeAll,
    Call.made]

end Run

namespace Element

variable {loud : String → Bool}
variable {input : Array UInt8}
variable {callee : String → Nat → Run}
variable {start stop : Nat}

/- A choice reads what a part does, if those before refuse. -/
theorem reads_runFirst
    {before : List Element}
    {part : Element}
    {behind : List Element}
    {calls : List Call}
    (hBefore :
      ∀ other ∈ before,
        (other.run input callee start).Refuses loud)
    (hPart :
      (part.run input callee start).Reads loud stop calls) :
    (runFirst input callee (before ++ part :: behind)
      start).Reads loud stop calls := by
  induction before with
  | nil =>
      rw [List.nil_append, runFirst]
      exact hPart.orElse
  | cons first before ih =>
      rw [List.forall_mem_cons] at hBefore
      rw [List.cons_append, runFirst]
      exact hBefore.1.orElse_reads (ih hBefore.2)

/- A series of one part reads what the part does. -/
theorem reads_runSeries_last
    {part : Element}
    {calls : List Call}
    (h :
      (part.run input callee start).Reads loud stop calls) :
    (runSeries input callee [part] start).Reads loud
      stop calls := by
  rw [runSeries, ← List.append_nil calls]
  apply h.andThen
  rw [runSeries]
  exact Run.reads_quiet stop

/- A choice refuses if all of its parts do. -/
theorem refuses_runFirst
    {parts : List Element}
    (h :
      ∀ part ∈ parts,
        (part.run input callee start).Refuses loud) :
    (runFirst input callee parts start).Refuses loud := by
  induction parts with
  | nil =>
      rw [runFirst]
      exact Run.refuses_quiet
  | cons part parts ih =>
      rw [List.forall_mem_cons] at h
      rw [runFirst]
      exact h.1.orElse (ih h.2)

end Element

end Abnf

------------------------------------------------------------
-- Copies
------------------------------------------------------------

namespace Abnf

namespace Node

/- Some copies, each of which takes input. -/
inductive Copies
    (loud : String → Bool)
    (step : Nat → Run) :
    Nat → Nat → Nat → List Call → Prop
  | none {start : Nat} :
      Copies loud step 0 start start []
  | next
      {count start mid stop : Nat}
      {calls calls' : List Call} :
      (step start).Reads loud mid calls →
      start < mid →
      Copies loud step count mid stop calls' →
      Copies loud step (count + 1) start stop
        (calls ++ calls')

variable {loud : String → Bool}
variable {size : Nat}
variable {step : Nat → Run}
variable {count start stop : Nat}
variable {calls : List Call}

theorem Copies.le
    (h : Copies loud step count start stop calls) :
    start + count ≤ stop := by
  induction h with
  | none => simp
  | next _ hLess _ ih => omega

/- There are no more copies than bytes left. -/
theorem Copies.count_le
    (hStays : ∀ index, (step index).StaysIn size index)
    (h : Copies loud step count start stop calls) :
    count ≤ size - start := by
  induction h with
  | none => omega
  | next hCopy hLess _ ih =>
      have hMid := hStays _ _ hCopy.outcome
      omega

theorem Copies.append
    {count' stop' : Nat}
    {calls' : List Call}
    (h : Copies loud step count start stop calls)
    (h' : Copies loud step count' stop stop' calls') :
    Copies loud step (count + count') start stop'
      (calls ++ calls') := by
  induction h with
  | none => simpa using h'
  | next hCopy hLess _ ih =>
      rw [Nat.add_right_comm, List.append_assoc]
      exact .next hCopy hLess (ih h')

/-
  An iteration reads the copies there are, if no further one
  can be made or the limit is reached.
-/
theorem reads_runCopies
    (hCopies : Copies loud step count start stop calls)
    {min : Nat}
    {max : Option Nat}
    {allowance before : Nat}
    (hMin : min ≤ before + count)
    (hMax :
      ∀ limit, max = some limit → before + count ≤ limit)
    (hLast :
      (step stop).Refuses loud ∨ max = some (before + count))
    (hAllowance : count < allowance) :
    (runCopies step min max allowance before start).Reads
      loud stop calls := by
  induction hCopies generalizing allowance before with
  | @none start =>
      cases allowance with
      | zero => omega
      | succ allowance =>
          have hEnd :
              endCopies min before start =
                .matched start := by
            rw [endCopies, if_neg (by omega)]
          rw [runCopies_succ]
          split
          · rw [hEnd]
            exact Run.reads_quiet start
          · rename_i hLimit
            rcases hLast with hRefuses | hFull
            · rw [Run.resume_of_failed hRefuses.outcome, hEnd]
              exact
                (Run.reads_quiet start).after hRefuses.made
            · simp [atLimit, hFull] at hLimit
  | @next count start mid stop calls calls'
      hCopy hLess _ ih =>
      cases allowance with
      | zero => omega
      | succ allowance =>
          have hLimit : ¬ atLimit max before = true := by
            cases hBound : max with
            | none => simp [atLimit]
            | some limit =>
                have hRoom := hMax limit hBound
                simp only [atLimit, Option.any_some,
                  decide_eq_true_eq]
                omega
          rw [runCopies_succ, if_neg hLimit,
            Run.resume_of_matched hCopy.outcome,
            if_neg (Nat.ne_of_gt hLess)]
          refine Run.Reads.after ?_ hCopy.made
          have hSum :
              before + 1 + count = before + (count + 1) := by
            omega
          apply ih
          · omega
          · intro limit hBound
            have hRoom := hMax limit hBound
            omega
          · rw [hSum]
            exact hLast
          · omega

/- An iteration that needs a copy refuses without one. -/
theorem refuses_runCopies
    (hStep : (step start).Refuses loud)
    {min : Nat}
    (hMin : 0 < min)
    (allowance : Nat) :
    (runCopies step min none (allowance + 1) 0
      start).Refuses loud := by
  have hEnd : endCopies min 0 start = .failed := by
    rw [endCopies, if_pos hMin]
  rw [runCopies_succ, if_neg (by simp [atLimit]),
    Run.resume_of_failed hStep.outcome, hEnd]
  exact Run.refuses_quiet.after hStep.made

end Node

end Abnf

------------------------------------------------------------
-- The First Byte Of A Span
------------------------------------------------------------

namespace Abnf

/- The names in a task. -/
def Task.names : Task → List String
  | one element => element.names
  | all parts => Element.namesOfAll parts
  | copies _ body => body.names

/- The task can take a byte, given the names that can. -/
def Task.opens
    (byte : Option UInt8)
    (callee : String → Bool) : Task → Bool
  | one element => element.opens byte callee
  | all parts => Element.opensSeries byte callee parts
  | copies _ body => body.opens byte callee

namespace Element

variable {known : List String}

mutual

/- Names that are not known make no difference. -/
theorem isNullable_of_names :
    ∀ element : Element,
      (∀ name ∈ element.names, name ∉ known) →
      element.isNullable known = element.isNullable []
  | ruleName name, h => by
      have hName := h name (List.mem_singleton.mpr rfl)
      simp [isNullable, hName]
  | terminal _, _ => by
      rw [isNullable, isNullable]
  | repetition min max body, h => by
      rw [isNullable, isNullable, isNullable_of_names body h]
  | concatenation parts, h => by
      rw [isNullable, isNullable,
        allNullable_of_names parts h]
  | alternation parts, h => by
      rw [isNullable, isNullable,
        anyNullable_of_names parts h]

/- The same for all elements of a list. -/
theorem allNullable_of_names :
    ∀ parts : List Element,
      (∀ name ∈ namesOfAll parts, name ∉ known) →
      allNullable known parts = allNullable [] parts
  | [], _ => by
      rw [allNullable, allNullable]
  | part :: parts, h => by
      rw [namesOfAll, List.forall_mem_append] at h
      rw [allNullable, allNullable,
        isNullable_of_names part h.1,
        allNullable_of_names parts h.2]

/- The same for some element of a list. -/
theorem anyNullable_of_names :
    ∀ parts : List Element,
      (∀ name ∈ namesOfAll parts, name ∉ known) →
      anyNullable known parts = anyNullable [] parts
  | [], _ => by
      rw [anyNullable, anyNullable]
  | part :: parts, h => by
      rw [namesOfAll, List.forall_mem_append] at h
      rw [anyNullable, anyNullable,
        isNullable_of_names part h.1,
        anyNullable_of_names parts h.2]

end

theorem names_subset_of_mem
    {parts : List Element}
    {part : Element}
    (hPart : part ∈ parts) :
    part.names ⊆ namesOfAll parts := by
  induction parts with
  | nil => cases hPart
  | cons first parts ih =>
      rw [namesOfAll]
      rcases List.mem_cons.mp hPart with rfl | hLater
      · exact List.subset_append_left _ _
      · exact
          List.Subset.trans (ih hLater)
            (List.subset_append_right _ _)

theorem opensFirst_of_mem
    {byte : Option UInt8}
    {callee : String → Bool}
    {parts : List Element}
    {part : Element}
    (hPart : part ∈ parts)
    (h : part.opens byte callee = true) :
    opensFirst byte callee parts = true := by
  induction parts with
  | nil => cases hPart
  | cons first parts ih =>
      rw [opensFirst, Bool.or_eq_true]
      rcases List.mem_cons.mp hPart with rfl | hLater
      · exact Or.inl h
      · exact Or.inr (ih hLater)

end Element

namespace Scope

variable {scope : Scope}
variable {loud : String → Bool}
variable {input : Array UInt8}

/- No rule names one that can stand for the empty word. -/
def IsFirm
    (scope : Scope) : Prop :=
  ∀ rule ∈ scope.own ++ scope.core,
    ∀ name ∈ rule.element.names, name ∉ scope.nullable

theorem IsFirm.names
    (hFirm : scope.IsFirm)
    {name : String}
    {rule : Rule}
    (hRule : scope.find? name = some rule) :
    ∀ name ∈ rule.element.names, name ∉ scope.nullable :=
  hFirm rule (mem_of_find? hRule).1

/- A span that is not empty starts with a byte that opens. -/
theorem Parses.opens
    (hFirm : scope.IsFirm)
    {task : Task}
    {start stop : Nat}
    {calls : List Call}
    (h : scope.Parses loud input task start stop calls)
    (hNames : ∀ name ∈ task.names, name ∉ scope.nullable)
    (hLess : start < stop)
    (level : Nat) :
    task.opens input[start]?
      (scope.opens input[start]? level) = true := by
  induction h generalizing level with
  | ruleName hRule _ ih =>
      rw [Task.opens, Element.opens]
      cases level with
      | zero => rfl
      | succ level =>
          simp only [Scope.opens, hRule, Bool.or_eq_true]
          exact Or.inr (ih (hFirm.names hRule) hLess level)
  | nothing _ => omega
  | member hByte hMember =>
      rw [Task.opens, Element.opens, hByte]
      exact hMember
  | repetition _ _ _ ih =>
      exact ih hNames hLess level
  | concatenation _ ih => exact ih hNames hLess level
  | alternation hPart _ ih =>
      rw [Task.opens, Element.opens]
      apply Element.opensFirst_of_mem hPart
      apply ih _ hLess level
      intro name hName
      exact
        hNames name (Element.names_subset_of_mem hPart hName)
  | allNone => omega
  | @allNext part parts start mid stop _ _
      hPart hParts ihPart ihParts =>
      rw [Task.names, Element.namesOfAll,
        List.forall_mem_append] at hNames
      rw [Task.opens, Element.opensSeries, Bool.or_eq_true]
      have hOrder := hPart.isNullable
      rcases Nat.lt_or_eq_of_le hOrder.1 with hMoves | hStays
      · exact Or.inl (ihPart hNames.1 hMoves level)
      · have hNullable := hOrder.2 hStays
        rw [Task.isNullable,
          Element.isNullable_of_names _ hNames.1]
          at hNullable
        subst hStays
        have hRest := ihParts hNames.2 hLess level
        rw [Task.opens] at hRest
        rw [hNullable, hRest]
        exact Or.inr rfl
  | copiesNone => omega
  | @copiesNext count body start mid stop _ _
      hBody hRest ihBody ihRest =>
      have hOrder := hBody.isNullable
      rcases Nat.lt_or_eq_of_le hOrder.1 with hMoves | hStays
      · exact ihBody hNames hMoves level
      · subst hStays
        exact ihRest hNames hLess level

end Scope

end Abnf

------------------------------------------------------------
-- Prediction
------------------------------------------------------------

namespace Abnf

/- The lack of a byte and all bytes. -/
def allBytes : List (Option UInt8) :=
  none :: (List.range 256).map (fun n => some (UInt8.ofNat n))

theorem mem_allBytes
    (byte : Option UInt8) :
    byte ∈ allBytes := by
  cases byte with
  | none => exact List.mem_cons_self
  | some b =>
      apply List.mem_cons_of_mem
      refine List.mem_map.mpr ⟨b.toNat, ?_, ?_⟩
      · exact List.mem_range.mpr b.toNat_lt
      · rw [UInt8.ofNat_toNat]

/- Two tests are never passed by the same byte. -/
def areApart
    (one other : Option UInt8 → Bool) : Bool :=
  allBytes.all (fun byte => !(one byte && other byte))

theorem eq_false_of_areApart
    {one other : Option UInt8 → Bool}
    (h : areApart one other = true)
    {byte : Option UInt8}
    (hOther : other byte = true) :
    one byte = false := by
  rw [areApart, List.all_eq_true] at h
  have hByte := h byte (mem_allBytes byte)
  rw [hOther, Bool.and_true, Bool.not_eq_true'] at hByte
  exact hByte

namespace Element

mutual

/-
  The next byte always tells how to go on, if a byte of a
  given kind follows. `opening` says which names can take a
  byte, and `foretold` which names are predictable.
-/
def predicts
    (opening : Option UInt8 → String → Bool)
    (foretold : (Option UInt8 → Bool) → String → Bool)
    (follow : Option UInt8 → Bool) : Element → Bool
  | ruleName name => foretold follow name
  | terminal _ => true
  | repetition _ max body =>
      !isNullable [] body &&
      areApart (fun b => opens b (opening b) body) follow &&
      predicts opening foretold
        (fun b =>
          (max != some 1 && opens b (opening b) body) ||
            follow b) body
  | concatenation parts =>
      predictsAll opening foretold follow parts
  | alternation parts =>
      predictsFirst opening foretold follow parts

/- The same for elements one after the other. -/
def predictsAll
    (opening : Option UInt8 → String → Bool)
    (foretold : (Option UInt8 → Bool) → String → Bool)
    (follow : Option UInt8 → Bool) : List Element → Bool
  | [] => true
  | part :: parts =>
      predicts opening foretold
        (fun b =>
          opensSeries b (opening b) parts ||
            (allNullable [] parts && follow b)) part &&
      predictsAll opening foretold follow parts

/- The same for the first element that matches. -/
def predictsFirst
    (opening : Option UInt8 → String → Bool)
    (foretold : (Option UInt8 → Bool) → String → Bool)
    (follow : Option UInt8 → Bool) : List Element → Bool
  | [] => true
  | part :: parts =>
      !isNullable [] part &&
      !anyNullable [] parts &&
      areApart (fun b => opens b (opening b) part)
        (fun b => opensFirst b (opening b) parts) &&
      predicts opening foretold follow part &&
      predictsFirst opening foretold follow parts

end

end Element

/- The rule of a name is predictable to a given depth. -/
def Scope.predicts
    (scope : Scope)
    (depth : Nat) :
    Nat → (Option UInt8 → Bool) → String → Bool
  | 0, _, _ => false
  | level + 1, follow, name =>
      match scope.find? name with
      | none => false
      | some rule =>
          rule.element.predicts
            (fun b => scope.opens b depth)
            (predicts scope depth level) follow

end Abnf

------------------------------------------------------------
-- Runs Of Predictable Elements
------------------------------------------------------------

namespace Abnf

/-
  What is used of the runs of rules: they stay in the text,
  rules that cannot take the next byte are idle, and rules
  that are foretold read the spans that they derive.
-/
structure Scope.Foresees
    (scope : Scope)
    (loud : String → Bool)
    (input : Array UInt8)
    (depth : Nat)
    (callee : String → Nat → Run)
    (foretold : (Option UInt8 → Bool) → String → Bool) :
    Prop where
  stays :
    ∀ name index,
      (callee name index).StaysIn input.size index
  idle :
    ∀ name index,
      scope.opens input[index]? depth name = false →
      (callee name index).Idle loud false index
  reads :
    ∀ follow name, foretold follow name = true →
      ∀ start stop calls,
        scope.Parses loud input (.one (.ruleName name))
          start stop calls →
        follow input[stop]? = true →
        (callee name start).Reads loud stop calls

/- A set with a member is not empty. -/
theorem CharSet.not_isEmpty_of_mem
    {s : CharSet}
    {b : UInt8}
    (h : s.containsByte b = true) :
    s.isEmpty = false := by
  rw [Bool.eq_false_iff]
  intro hEmpty
  have hNone : s = CharSet.empty := by
    cases s
    simpa [CharSet.isEmpty, CharSet.empty] using hEmpty
  rw [hNone, CharSet.containsByte, CharSet.hasCode_empty]
    at h
  cases h

namespace Element

variable {scope : Scope}
variable {loud : String → Bool}
variable {input : Array UInt8}
variable {depth : Nat}
variable {callee : String → Nat → Run}
variable {foretold : (Option UInt8 → Bool) → String → Bool}

/- An element that cannot take the next byte refuses. -/
theorem refuses_of_not_opens
    (hCallee :
      scope.Foresees loud input depth callee foretold)
    {element : Element}
    {index : Nat}
    (hNeeds : element.isNullable [] = false)
    (h :
      element.opens input[index]?
        (scope.opens input[index]? depth) = false) :
    (element.run input callee index).Refuses loud := by
  have hIdle :=
    run_of_not_opens
      (fun name hName => hCallee.idle name index hName)
      element h
  rw [hNeeds] at hIdle
  exact hIdle.refuses

/- What follows a part starts the rest or ends the series. -/
theorem follow_of_parses_all
    (hFirm : scope.IsFirm)
    {follow : Option UInt8 → Bool}
    {parts : List Element}
    (hNames :
      ∀ name ∈ namesOfAll parts, name ∉ scope.nullable)
    {mid stop : Nat}
    {calls : List Call}
    (h :
      scope.Parses loud input (.all parts) mid stop calls)
    (hFollow : follow input[stop]? = true) :
    (opensSeries input[mid]?
        (scope.opens input[mid]? depth) parts ||
      (allNullable [] parts && follow input[mid]?)) =
        true := by
  rw [Bool.or_eq_true, Bool.and_eq_true]
  have hOrder := h.isNullable
  rcases Nat.lt_or_eq_of_le hOrder.1 with hMoves | hStays
  · exact Or.inl (h.opens hFirm hNames hMoves depth)
  · have hNullable := hOrder.2 hStays
    rw [Task.isNullable, allNullable_of_names _ hNames]
      at hNullable
    rw [hStays]
    exact Or.inr ⟨hNullable, hFollow⟩

/-
  What follows a copy starts a further one, if there may be
  any, or ends them.
-/
theorem follow_of_parses_copies
    (hFirm : scope.IsFirm)
    {follow : Option UInt8 → Bool}
    {body : Element}
    (hNeeds : body.isNullable [] = false)
    (hNames :
      ∀ name ∈ body.names, name ∉ scope.nullable)
    {more : Bool}
    {count mid stop : Nat}
    (hMore : more = false → count = 0)
    {calls : List Call}
    (h :
      scope.Parses loud input (.copies count body)
        mid stop calls)
    (hFollow : follow input[stop]? = true) :
    ((more &&
        body.opens input[mid]?
          (scope.opens input[mid]? depth)) ||
      follow input[mid]?) = true := by
  rw [Bool.or_eq_true, Bool.and_eq_true]
  cases h with
  | copiesNone => exact Or.inr hFollow
  | copiesNext hBody hRest =>
      have hMoves := hBody.lt (by
        rw [isNullable_of_names body hNames, hNeeds])
      have hAgain : more = true := by
        by_contra hNo
        have hZero := hMore (Bool.eq_false_iff.mpr hNo)
        omega
      exact
        Or.inl
          ⟨hAgain, hBody.opens hFirm hNames hMoves depth⟩

/- Copies that are read one by one. -/
theorem copies_of_reads
    (hFirm : scope.IsFirm)
    {follow : Option UInt8 → Bool}
    {body : Element}
    (hNeeds : body.isNullable [] = false)
    (hNames :
      ∀ name ∈ body.names, name ∉ scope.nullable)
    {more : Bool}
    (hBody :
      ∀ start stop calls,
        scope.Parses loud input (.one body)
          start stop calls →
        ((more &&
            body.opens input[stop]?
              (scope.opens input[stop]? depth)) ||
          follow input[stop]?) = true →
        (body.run input callee start).Reads loud
          stop calls)
    {count start stop : Nat}
    (hMore : more = false → count ≤ 1)
    {calls : List Call}
    (h :
      scope.Parses loud input (.copies count body)
        start stop calls)
    (hFollow : follow input[stop]? = true) :
    Node.Copies loud (fun i => body.run input callee i)
      count start stop calls := by
  induction count generalizing start calls with
  | zero =>
      cases h
      exact .none
  | succ count ih =>
      cases h with
      | copiesNext hFirst hRest =>
          have hMoves := hFirst.lt (by
            rw [isNullable_of_names body hNames, hNeeds])
          have hLater : more = false → count = 0 := by
            intro hNo
            have hOne := hMore hNo
            omega
          apply Node.Copies.next _ hMoves
            (ih (fun hNo => by rw [hLater hNo]; omega) hRest)
          exact
            hBody _ _ _ hFirst
              (follow_of_parses_copies hFirm hNeeds hNames
                hLater hRest hFollow)

/- A set reads the span that it derives. -/
theorem reads_terminal
    {s : CharSet}
    {start stop : Nat}
    {calls : List Call}
    (h :
      scope.Parses loud input (.one (terminal s))
        start stop calls) :
    ((terminal s).run input callee start).Reads loud
      stop calls := by
  rw [run]
  cases h with
  | nothing hEmpty =>
      rw [runSet, if_pos hEmpty]
      exact Run.reads_quiet start
  | member hByte hMember =>
      rw [runSet, CharSet.not_isEmpty_of_mem hMember,
        if_neg Bool.false_ne_true, hByte]
      simp only [hMember, if_true]
      exact Run.reads_quiet (start + 1)

mutual

/-
  A run of a predictable element reads each span that is
  derived from it, if a byte of the right kind follows.
-/
theorem reads_of_predicts
    (hFirm : scope.IsFirm)
    (hCallee :
      scope.Foresees loud input depth callee foretold) :
    ∀ (element : Element) (follow : Option UInt8 → Bool),
      (∀ name ∈ element.names, name ∉ scope.nullable) →
      element.predicts (fun b => scope.opens b depth)
        foretold follow = true →
      ∀ start stop calls,
        scope.Parses loud input (.one element)
          start stop calls →
        follow input[stop]? = true →
        (element.run input callee start).Reads loud
          stop calls
  | ruleName name, follow, _, hPredicts,
      start, stop, calls, h, hFollow => by
      rw [predicts] at hPredicts
      rw [run]
      exact
        hCallee.reads follow name hPredicts
          start stop calls h hFollow
  | terminal _, _, _, _, _, _, _, h, _ => reads_terminal h
  | repetition min max body, follow, hNames, hPredicts,
      start, stop, calls, h, hFollow => by
      rw [predicts, Bool.and_eq_true, Bool.and_eq_true,
        Bool.not_eq_true'] at hPredicts
      rcases hPredicts with ⟨⟨hNeeds, hApart⟩, hBody⟩
      rw [run]
      cases h with
      | @repetition _ _ _ count _ _ _ hMin hMax hCopies =>
          have hOnce : (max != some 1) = false → count ≤ 1 := by
            intro hOne
            apply hMax
            simpa using hOne
          have hChain :=
            copies_of_reads hFirm hNeeds hNames
              (reads_of_predicts hFirm hCallee body _
                hNames hBody)
              hOnce hCopies hFollow
          have hCount :=
            hChain.count_le
              (run_staysIn hCallee.stays body)
          apply Node.reads_runCopies hChain
          · omega
          · intro limit hLimit
            have hHigh := hMax limit hLimit
            omega
          · apply Or.inl
            apply refuses_of_not_opens hCallee hNeeds
            exact eq_false_of_areApart hApart hFollow
          · omega
  | concatenation parts, follow, hNames, hPredicts,
      start, stop, calls, h, hFollow => by
      rw [predicts] at hPredicts
      rw [run]
      cases h with
      | concatenation hParts =>
          exact
            runSeries_of_predicts hFirm hCallee parts follow
              hNames hPredicts start stop calls hParts
              hFollow
  | alternation parts, follow, hNames, hPredicts,
      start, stop, calls, h, hFollow => by
      rw [predicts] at hPredicts
      rw [run]
      cases h with
      | alternation hPart hSpan =>
          exact
            runFirst_of_predicts hFirm hCallee parts follow
              hNames hPredicts start stop calls _ hPart
              hSpan hFollow

/- The same for elements one after the other. -/
theorem runSeries_of_predicts
    (hFirm : scope.IsFirm)
    (hCallee :
      scope.Foresees loud input depth callee foretold) :
    ∀ (parts : List Element) (follow : Option UInt8 → Bool),
      (∀ name ∈ namesOfAll parts, name ∉ scope.nullable) →
      predictsAll (fun b => scope.opens b depth)
        foretold follow parts = true →
      ∀ start stop calls,
        scope.Parses loud input (.all parts)
          start stop calls →
        follow input[stop]? = true →
        (runSeries input callee parts start).Reads loud
          stop calls
  | [], _, _, _, start, stop, calls, h, _ => by
      cases h
      rw [runSeries]
      exact Run.reads_quiet start
  | part :: parts, follow, hNames, hPredicts,
      start, stop, calls, h, hFollow => by
      rw [namesOfAll, List.forall_mem_append] at hNames
      rw [predictsAll, Bool.and_eq_true] at hPredicts
      rw [runSeries]
      cases h with
      | allNext hPart hParts =>
          refine Run.Reads.andThen ?_
            (runSeries_of_predicts hFirm hCallee parts follow
              hNames.2 hPredicts.2 _ _ _ hParts hFollow)
          exact
            reads_of_predicts hFirm hCallee part _
              hNames.1 hPredicts.1 _ _ _ hPart
              (follow_of_parses_all hFirm hNames.2 hParts
                hFollow)

/- The same for the first element that matches. -/
theorem runFirst_of_predicts
    (hFirm : scope.IsFirm)
    (hCallee :
      scope.Foresees loud input depth callee foretold) :
    ∀ (parts : List Element) (follow : Option UInt8 → Bool),
      (∀ name ∈ namesOfAll parts, name ∉ scope.nullable) →
      predictsFirst (fun b => scope.opens b depth)
        foretold follow parts = true →
      ∀ start stop calls part,
        part ∈ parts →
        scope.Parses loud input (.one part)
          start stop calls →
        follow input[stop]? = true →
        (runFirst input callee parts start).Reads loud
          stop calls
  | [], _, _, _, _, _, _, _, hPart, _, _ => by
      cases hPart
  | first :: parts, follow, hNames, hPredicts,
      start, stop, calls, part, hPart, h, hFollow => by
      rw [namesOfAll, List.forall_mem_append] at hNames
      simp only [predictsFirst, Bool.and_eq_true,
        Bool.not_eq_true'] at hPredicts
      rcases hPredicts with
        ⟨⟨⟨⟨hNeeds, hOthers⟩, hApart⟩, hFirst⟩, hRest⟩
      rw [runFirst]
      rcases List.mem_cons.mp hPart with hSame | hLater
      · rw [hSame] at h
        apply Run.Reads.orElse
        exact
          reads_of_predicts hFirm hCallee first follow
            hNames.1 hFirst start stop calls h hFollow
      · -- The byte that starts a later part starts no other.
        have hPartNames :
            ∀ name ∈ part.names, name ∉ scope.nullable :=
          fun name hName =>
            hNames.2 name (names_subset_of_mem hLater hName)
        have hMoves := h.lt (by
          rw [isNullable_of_names part hPartNames,
            Bool.eq_false_iff]
          intro hNullable
          rw [Scope.anyNullable_of_mem hLater hNullable]
            at hOthers
          cases hOthers)
        have hOpens :=
          opensFirst_of_mem hLater
            (h.opens hFirm hPartNames hMoves depth)
        refine Run.Refuses.orElse_reads ?_
          (runFirst_of_predicts hFirm hCallee parts follow
            hNames.2 hRest start stop calls part hLater h
            hFollow)
        apply refuses_of_not_opens hCallee hNeeds
        exact eq_false_of_areApart hApart hOpens

end

end Element

end Abnf

------------------------------------------------------------
-- Runs Of Predictable Rules
------------------------------------------------------------

namespace Abnf

namespace Scope

variable {scope : Scope}
variable {loud : String → Bool}
variable {input : Array UInt8}

/-
  A derivation through rules that are not loud and name only
  each other has no calls that count.
-/
theorem Parses.calls_eq_nil
    {names : List String}
    (hLoud : ∀ name ∈ names, loud name = false)
    (hClosed :
      ∀ name ∈ names, ∀ rule,
        scope.find? name = some rule →
        rule.element.names ⊆ names)
    {task : Task}
    {start stop : Nat}
    {calls : List Call}
    (h : scope.Parses loud input task start stop calls)
    (hNames : task.names ⊆ names) :
    calls = [] := by
  induction h with
  | @ruleName name rule _ _ _ hRule _ ih =>
      have hName : name ∈ names :=
        hNames (List.mem_singleton.mpr rfl)
      rw [hLoud name hName, if_neg Bool.false_ne_true]
      exact ih (hClosed name hName rule hRule)
  | nothing _ => rfl
  | member _ _ => rfl
  | repetition _ _ _ ih => exact ih hNames
  | concatenation _ ih => exact ih hNames
  | alternation hPart _ ih =>
      exact
        ih
          (List.Subset.trans
            (Element.names_subset_of_mem hPart) hNames)
  | allNone => rfl
  | allNext _ _ ihPart ihParts =>
      rw [Task.names, Element.namesOfAll,
        List.append_subset] at hNames
      rw [ihPart hNames.1, ihParts hNames.2]
      rfl
  | copiesNone => rfl
  | copiesNext _ _ ihBody ihRest =>
      rw [ihBody hNames, ihRest hNames]
      rfl

/-
  Where the runs of rules do not depend on the depth, the
  rule of a name that is predictable reads each span that is
  derived from the name. What core rules call does not count.
-/
theorem reads_of_predicts
    (hFirm : scope.IsFirm)
    {runDepth : Nat}
    (hDeep :
      scope.invoke input (runDepth + 1) =
        scope.invoke input runDepth)
    (hCore :
      ∀ name, hasName scope.own name = false →
        ∀ start stop calls,
          scope.Parses loud input (.one (.ruleName name))
            start stop calls →
          calls = [])
    {depth level : Nat}
    {follow : Option UInt8 → Bool}
    {name : String}
    (hPredicts :
      scope.predicts depth level follow name = true)
    {start stop : Nat}
    {calls : List Call}
    (h :
      scope.Parses loud input (.one (.ruleName name))
        start stop calls)
    (hFollow : follow input[stop]? = true) :
    (scope.invoke input runDepth name start).Reads loud
      stop calls := by
  induction level generalizing follow name start stop
      calls with
  | zero => cases hPredicts
  | succ level ih =>
      have hCallee :
          scope.Foresees loud input depth
            (scope.invoke input runDepth)
            (scope.predicts depth level) :=
        ⟨scope.invoke_staysIn input runDepth,
          fun name index hOpens =>
            invoke_of_not_opens hDeep hOpens,
          fun follow name hForetold start stop calls
              hSpan hByte =>
            ih hForetold hSpan hByte⟩
      have hNone :
          hasName scope.own name = false → calls = [] :=
        fun hOwn => hCore name hOwn start stop calls h
      cases h with
      | @ruleName _ rule _ _ inner hRule hBody =>
          simp only [predicts, hRule] at hPredicts
          have hReads :=
            rule.element.reads_of_predicts hFirm hCallee
              follow (hFirm.names hRule) hPredicts start
              stop inner hBody hFollow
          rw [← hDeep, invoke_succ hRule, report]
          split
          · exact hReads.reported name start
          · rename_i hOwn
            rw [hNone (Bool.eq_false_iff.mpr hOwn)]
            exact ⟨hReads.outcome, Call.madeAll_nil⟩

end Scope

end Abnf
