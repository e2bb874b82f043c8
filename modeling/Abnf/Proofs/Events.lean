import Abnf.Proofs.Pruning
import Abnf.Proofs.RoutineTable

/-
  What the events of a run say.

  A program reports the calls of its public routines, those
  of attempts that are given up as well. The events of a run
  are well bracketed, and every exit tells the end that the
  routine comes to from its start by itself. Nothing is
  reported of the calls made in a private routine: a program
  reports what it would report if all of its routines were
  public, without the calls of private routines and all that
  is in them.

  Key definitions include:
    * `Abnf.Event.Bracketed`
    * `Abnf.Call.withoutAll`
    * `Abnf.Program.loud`
    * `Abnf.Program.Forwards`

  Main declarations:
    * `Abnf.Call.bracketed_eventsOfAll`
    * `Abnf.Scope.tells_of_isSettled`
    * `Abnf.Program.invoke_eq_without`
    * `Abnf.Program.exists_events_eq`
-/

------------------------------------------------------------
-- Brackets
------------------------------------------------------------

namespace Abnf

/-
  Each entry is closed by an exit of the same rule from the
  same start, and what lies between is bracketed as well.
-/
inductive Event.Bracketed : List Event → Prop
  | nil : Bracketed []
  | call
      {rule : String} {start : Nat} {stop : Option Nat}
      {inner rest : List Event} :
      Bracketed inner →
      Bracketed rest →
      Bracketed
        (.enter rule start ::
          (inner ++ .exit rule start stop :: rest))

namespace Call

/- The events of calls are bracketed. -/
theorem bracketed_eventsOfAll :
    ∀ calls : List Call,
      Event.Bracketed (eventsOfAll calls)
  | [] => .nil
  | call rule start stop inner :: others => by
      have hInner := bracketed_eventsOfAll inner
      have hOthers := bracketed_eventsOfAll others
      rw [eventsOfAll_cons, events_call]
      simpa using Event.Bracketed.call hInner hOthers

end Call

end Abnf

------------------------------------------------------------
-- Exits
------------------------------------------------------------

namespace Abnf

theorem Outcome.eq_matched_of_stop?
    {outcome : Outcome}
    {stop : Nat}
    (h : outcome.stop? = some stop) :
    outcome = .matched stop := by
  unfold stop? at h
  split at h
  · cases h
    rfl
  · cases h

namespace Run

variable {truth : String → Nat → Option Nat → Prop}

/- Every exit that the run reports is true. -/
def Tells
    (truth : String → Nat → Option Nat → Prop)
    (run : Run) : Prop :=
  ∀ rule start stop,
    .exit rule start stop ∈ run.events →
    truth rule start stop

theorem tells_quiet
    (outcome : Outcome) :
    (quiet outcome).Tells truth := by
  intro _ _ _ hEvent
  cases hEvent

theorem tells_after
    {calls : List Call}
    {run : Run}
    (hCalls :
      ∀ rule start stop,
        .exit rule start stop ∈ Call.eventsOfAll calls →
        truth rule start stop)
    (hRun : run.Tells truth) :
    (after calls run).Tells truth := by
  intro rule start stop hEvent
  rw [events, after, Call.eventsOfAll_append,
    List.mem_append] at hEvent
  rcases hEvent with hFirst | hSecond
  · exact hCalls rule start stop hFirst
  · exact hRun rule start stop hSecond

/- A reported run has its entry first and its exit last. -/
theorem events_reported
    (rule : String)
    (start : Nat)
    (run : Run) :
    (run.reported rule start).events =
      .enter rule start ::
        (run.events ++
          [.exit rule start run.outcome.stop?]) := by
  rw [events, reported, Call.eventsOfAll_cons,
    Call.events_call]
  exact List.append_nil _

/- A reported run adds its own exit. -/
theorem tells_reported
    {rule : String}
    {start : Nat}
    {run : Run}
    (hOwn : truth rule start run.outcome.stop?)
    (hRun : run.Tells truth) :
    (run.reported rule start).Tells truth := by
  intro rule' start' stop hEvent
  rw [events_reported] at hEvent
  simp only [List.mem_cons, reduceCtorEq, List.mem_append,
    List.not_mem_nil, or_false, false_or, Event.exit.injEq]
    at hEvent
  rcases hEvent with hInner | ⟨rfl, rfl, rfl⟩
  · exact hRun rule' start' stop hInner
  · exact hOwn

/- A settled run tells the truth if its pieces do. -/
theorem tells_congruence
    (size : Nat) :
    Congruence size
      (fun _ run _ =>
        run.outcome.isSettled = true →
        run.Tells truth) where
  stay _ _ := tells_quiet _
  fail _ _ := tells_quiet _
  advance _ _ _ := tells_quiet _
  exhaust _ _ := tells_quiet _
  resume := by
    intro _ run _ onMatch _ onFailure _
      hRun hMatch hFailure hSettled
    have hFirst := hRun (isSettled_of_resume hSettled)
    rcases Outcome.matched_or_failed
        (isSettled_of_resume hSettled) with
      ⟨stop, hOutcome⟩ | hOutcome
    · rw [resume_of_matched hOutcome] at hSettled ⊢
      exact
        tells_after hFirst
          (hMatch stop hOutcome hSettled)
    · rw [resume_of_failed hOutcome] at hSettled ⊢
      exact tells_after hFirst (hFailure hSettled)

end Run

/-
  In a settled run, every exit is that of a rule of the
  grammar, which comes to the same end at some depth.
-/
theorem Scope.tells_of_isSettled
    (scope : Scope)
    (input : Array UInt8)
    (depth : Nat)
    (name : String)
    (start : Nat)
    (hSettled :
      (scope.invoke input depth
        name start).outcome.isSettled = true) :
    (scope.invoke input depth name start).Tells
      (fun rule i stop =>
        hasName scope.own rule = true ∧
        ∃ depth',
          (scope.invoke input depth' rule i).outcome =
            Outcome.ofStop stop) := by
  induction depth generalizing name start with
  | zero => cases hSettled
  | succ depth ih =>
      cases hRule : scope.find? name with
      | none =>
          simp [invoke, hRule, Outcome.isSettled] at hSettled
      | some rule =>
          have hEnd :=
            Outcome.eq_ofStop_of_isSettled hSettled
          rw [invoke_succ hRule, outcome_report]
            at hSettled hEnd
          have hBody :=
            @Element.run_congruence input _
              (scope.invoke input depth)
              (scope.invoke input depth)
              (Run.tells_congruence input.size)
              rule.element start
              (fun other _ i => ih other i) hSettled
          rw [invoke_succ hRule, report]
          split
          · rename_i hOwn
            apply Run.tells_reported _ hBody
            refine ⟨hOwn, depth + 1, ?_⟩
            rw [invoke_succ hRule, outcome_report]
            exact hEnd
          · exact Run.tells_quiet _

/- A settled run of a rule of the grammar is reported. -/
theorem Scope.exists_invoke_eq_reported
    {scope : Scope}
    {input : Array UInt8}
    {depth : Nat}
    {name : String}
    {start : Nat}
    (hOwn : hasName scope.own name = true)
    (hSettled :
      (scope.invoke input depth
        name start).outcome.isSettled = true) :
    ∃ run : Run,
      scope.invoke input depth name start =
        run.reported name start := by
  cases depth with
  | zero => cases hSettled
  | succ depth =>
      cases hRule : scope.find? name with
      | none =>
          simp [invoke, hRule, Outcome.isSettled] at hSettled
      | some rule =>
          rw [invoke_succ hRule, report, if_pos hOwn]
          exact ⟨_, rfl⟩

end Abnf

------------------------------------------------------------
-- Calls Of A Node
------------------------------------------------------------

namespace Abnf

namespace Node

mutual

/- The calls in a node, with what they pass on. -/
def calls : Node → List (Nat × Bool)
  | empty => []
  | terminal _ => []
  | call routine forward => [(routine, forward)]
  | sequence parts => callsOfAll parts
  | choice parts => callsOfAll parts
  | iterate _ _ body => calls body

/- The calls in some nodes. -/
def callsOfAll : List Node → List (Nat × Bool)
  | [] => []
  | part :: parts => calls part ++ callsOfAll parts

end

mutual

/- The node with all reports of its calls passed on. -/
def loud : Node → Node
  | empty => empty
  | terminal test => terminal test
  | call routine _ => call routine true
  | sequence parts => sequence (loudAll parts)
  | choice parts => choice (loudAll parts)
  | iterate min max body => iterate min max (loud body)

/- Some nodes with all reports passed on. -/
def loudAll : List Node → List Node
  | [] => []
  | part :: parts => loud part :: loudAll parts

end

theorem mem_callsOfAll_iff
    {parts : List Node}
    {made : Nat × Bool} :
    made ∈ callsOfAll parts ↔
      ∃ part ∈ parts, made ∈ part.calls := by
  induction parts with
  | nil => simp [callsOfAll]
  | cons part parts ih => simp [callsOfAll, ih]

variable {input : Array UInt8}
variable {rel : Nat → Run → Run → Prop}
variable {callee callee' : Nat → Nat → Run}

/- The run of a test calls nothing. -/
theorem runTerminal_congruence
    (hRel : Run.Congruence input.size rel)
    (test : ByteTest)
    (index : Nat) :
    rel index
      (.quiet (runTerminal input test index))
      (.quiet (runTerminal input test index)) := by
  unfold runTerminal
  cases hByte : input[index]? with
  | none => exact hRel.fail index
  | some b =>
      dsimp only
      split
      · apply hRel.advance
        exact (Array.getElem?_eq_some_iff.mp hByte).1
      · exact hRel.fail index

mutual

/-
  Calls that are related to loud ones make a node that is
  related to the loud node.
-/
theorem run_loud_congruence
    (hRel : Run.Congruence input.size rel) :
    ∀ (node : Node) (index : Nat),
      (∀ made ∈ node.calls, ∀ i,
        rel i
          ((call made.1 made.2).run input callee i)
          (callee' made.1 i)) →
      rel index
        (node.run input callee index)
        (node.loud.run input callee' index)
  | .empty, index, _ => by
      rw [loud, run, run]
      exact hRel.stay index
  | .terminal test, index, _ => by
      rw [loud, run, run]
      exact runTerminal_congruence hRel test index
  | .call routine forward, index, hCalls => by
      have hRun :=
        hCalls (routine, forward) List.mem_cons_self index
      simpa [loud, run] using hRun
  | .sequence parts, index, hCalls => by
      rw [loud, run, run]
      exact
        runSequence_loud_congruence hRel parts index hCalls
  | .choice parts, index, hCalls => by
      rw [loud, run, run]
      exact runChoice_loud_congruence hRel parts index hCalls
  | .iterate min max body, index, hCalls => by
      rw [loud, run, run]
      apply hRel.runCopies
      intro i
      exact run_loud_congruence hRel body i hCalls

/- The same for nodes one after the other. -/
theorem runSequence_loud_congruence
    (hRel : Run.Congruence input.size rel) :
    ∀ (parts : List Node) (index : Nat),
      (∀ made ∈ callsOfAll parts, ∀ i,
        rel i
          ((call made.1 made.2).run input callee i)
          (callee' made.1 i)) →
      rel index
        (runSequence input callee parts index)
        (runSequence input callee' (loudAll parts) index)
  | [], index, _ => by
      rw [loudAll, runSequence, runSequence]
      exact hRel.stay index
  | part :: parts, index, hCalls => by
      rw [callsOfAll, List.forall_mem_append] at hCalls
      rw [loudAll, runSequence, runSequence,
        Run.andThen_eq_resume, Run.andThen_eq_resume]
      apply hRel.resume
      · exact run_loud_congruence hRel part index hCalls.1
      · intro next _
        exact
          runSequence_loud_congruence hRel parts next
            hCalls.2
      · exact hRel.fail index

/- The same for the first node that matches. -/
theorem runChoice_loud_congruence
    (hRel : Run.Congruence input.size rel) :
    ∀ (parts : List Node) (index : Nat),
      (∀ made ∈ callsOfAll parts, ∀ i,
        rel i
          ((call made.1 made.2).run input callee i)
          (callee' made.1 i)) →
      rel index
        (runChoice input callee parts index)
        (runChoice input callee' (loudAll parts) index)
  | [], index, _ => by
      rw [loudAll, runChoice, runChoice]
      exact hRel.fail index
  | part :: parts, index, hCalls => by
      rw [callsOfAll, List.forall_mem_append] at hCalls
      rw [loudAll, runChoice, runChoice,
        Run.orElse_eq_resume, Run.orElse_eq_resume]
      apply hRel.resume
      · exact run_loud_congruence hRel part index hCalls.1
      · intro stop _
        exact hRel.stay stop
      · exact
          runChoice_loud_congruence hRel parts index
            hCalls.2

end

end Node

/- Each node of a series stands beside a part. -/
theorem exists_mem_zip
    {parts : List Element}
    {nodes : List Node}
    (hLength : nodes.length = parts.length)
    {node : Node}
    (hNode : node ∈ nodes) :
    ∃ part, (part, node) ∈ parts.zip nodes := by
  rcases List.mem_iff_getElem.mp hNode with
    ⟨i, hBound, rfl⟩
  have hPart : i < parts.length := by omega
  exact
    ⟨parts[i],
      List.mem_iff_getElem.mpr
        ⟨i, by simp [hBound, hPart], by simp⟩⟩

/- The calls of an element's node are made of its names. -/
theorem Element.Links.exists_of_mem_calls
    {link : String → Nat → Bool → Prop}
    {element : Element}
    {node : Node}
    (hLinks : element.Links link node)
    {made : Nat × Bool}
    (hMade : made ∈ node.calls) :
    ∃ name, link name made.1 made.2 := by
  have hParts :
      ∀ {parts : List Element} {nodes : List Node},
        nodes.length = parts.length →
        (∀ pair ∈ parts.zip nodes,
          made ∈ pair.2.calls →
          ∃ name, link name made.1 made.2) →
        made ∈ Node.callsOfAll nodes →
        ∃ name, link name made.1 made.2 := by
    intro parts nodes hLength hPairs hMade
    rcases Node.mem_callsOfAll_iff.mp hMade with
      ⟨node, hNode, hCalls⟩
    rcases exists_mem_zip hLength hNode with ⟨part, hPair⟩
    exact hPairs (part, node) hPair hCalls
  induction hLinks with
  | ruleName hName =>
      rcases List.mem_singleton.mp hMade with rfl
      exact ⟨_, hName⟩
  | nothing _ => cases hMade
  | terminal _ => cases hMade
  | repetition _ ih => exact ih hMade
  | concatenation hLength _ ih =>
      exact hParts hLength ih hMade
  | alternation hLength _ ih =>
      exact hParts hLength ih hMade

end Abnf

------------------------------------------------------------
-- Hidden Calls
------------------------------------------------------------

namespace Abnf

namespace Call

variable {hidden : String → Bool}

mutual

/-
  What is left of a call without the calls of hidden rules
  and all that is in them.
-/
def without
    (hidden : String → Bool) : Call → List Call
  | call rule start stop inner =>
      if hidden rule then
        []
      else
        [call rule start stop (withoutAll hidden inner)]

/- What is left of some calls. -/
def withoutAll
    (hidden : String → Bool) : List Call → List Call
  | [] => []
  | first :: others =>
      without hidden first ++ withoutAll hidden others

end

theorem withoutAll_append
    (calls calls' : List Call) :
    withoutAll hidden (calls ++ calls') =
      withoutAll hidden calls ++
        withoutAll hidden calls' := by
  induction calls with
  | nil => rfl
  | cons first others ih =>
      simp [withoutAll, ih]

end Call

namespace Run

variable {hidden : String → Bool}

/- The run without the calls of hidden rules. -/
def without
    (hidden : String → Bool)
    (run : Run) : Run :=
  ⟨Call.withoutAll hidden run.calls, run.outcome⟩

@[simp] theorem outcome_without
    (run : Run) :
    (run.without hidden).outcome = run.outcome := rfl

theorem without_after
    (calls : List Call)
    (run : Run) :
    (after calls run).without hidden =
      after (Call.withoutAll hidden calls)
        (run.without hidden) := by
  simp [without, after, Call.withoutAll_append]

/- The report of a hidden rule is gone with all in it. -/
theorem without_reported
    (rule : String)
    (start : Nat)
    (run : Run) :
    (run.reported rule start).without hidden =
      if hidden rule then
        run.silent
      else
        (run.without hidden).reported rule start := by
  rw [without, reported, Call.withoutAll, Call.without]
  split <;> rfl

/- Nothing is left if all rules are hidden. -/
theorem without_all
    (run : Run) :
    run.without (fun _ => true) = run.silent := by
  have hNone :
      ∀ calls : List Call,
        Call.withoutAll (fun _ => true) calls = [] := by
    intro calls
    induction calls with
    | nil => rfl
    | cons first others ih =>
        cases first
        rw [Call.withoutAll, Call.without, ih]
        rfl
  rw [without, hNone]
  rfl

/- Runs without hidden calls are put together the same. -/
theorem without_congruence
    (size : Nat)
    (hidden : String → Bool) :
    Congruence size
      (fun _ run run' => run = run'.without hidden) where
  stay _ := rfl
  fail _ := rfl
  advance _ _ := rfl
  exhaust _ := rfl
  resume := by
    intro _ run run' onMatch onMatch' onFailure onFailure'
      hRun hMatch hFailure
    subst hRun hFailure
    rw [outcome_without] at hMatch
    rcases run'.matched_or_failed_or_not with
      ⟨stop, hOutcome⟩ | hOutcome | hSettled
    · rw [resume_of_matched hOutcome, without_after,
        ← hMatch stop hOutcome]
      exact
        @resume_of_matched (run'.without hidden) _
          hOutcome onMatch _
    · rw [resume_of_failed hOutcome, without_after]
      exact
        @resume_of_failed (run'.without hidden)
          hOutcome onMatch _
    · rw [resume_of_not_isSettled hSettled]
      exact
        @resume_of_not_isSettled (run'.without hidden)
          hSettled onMatch _

end Run

end Abnf

------------------------------------------------------------
-- Loud Programs
------------------------------------------------------------

namespace Abnf

namespace Program

/- The program with all of its routines public. -/
def loud
    (program : Program) : Program :=
  ⟨program.procedures.map
    (fun procedure =>
      ⟨procedure.name, true, procedure.body.loud⟩)⟩

/- The rules that a program does not report. -/
def hides
    (program : Program)
    (rule : String) : Bool :=
  !program.ruleNames.contains rule

/-
  Public routines are known by their names, and the calls
  of a routine go to routines and pass on what one public
  routine reports to another.
-/
structure Forwards
    (program : Program) : Prop where
  isPublic :
    ∀ procedure ∈ program.procedures,
      procedure.isPublic = !program.hides procedure.name
  calls :
    ∀ procedure ∈ program.procedures,
      ∀ made ∈ procedure.body.calls,
        ∃ callee, program.procedures[made.1]? = some callee ∧
          made.2 = (procedure.isPublic && callee.isPublic)

variable {program : Program}

/- A private routine is quiet. -/
theorem silent_invoke
    {index : Nat}
    {procedure : Procedure}
    (hProcedure : program.procedures[index]? = some procedure)
    (hPrivate : procedure.isPublic = false)
    (input : Array UInt8)
    (depth start : Nat) :
    (program.invoke input depth index start).silent =
      program.invoke input depth index start := by
  cases depth with
  | zero => rfl
  | succ depth =>
      simp [invoke, hProcedure, hPrivate]

@[simp] theorem depthLimit_loud
    (program : Program)
    (input : Array UInt8)
    (start : Nat) :
    program.loud.depthLimit input start =
      program.depthLimit input start := by
  simp [depthLimit, loud]

/-
  What a program reports is what the loud program reports,
  without the calls of private routines. By induction on the
  depth: a public routine passes on what its public callees
  report, and nothing is left of a private one.
-/
theorem invoke_eq_without
    (hForwards : program.Forwards)
    (input : Array UInt8)
    (depth index start : Nat) :
    program.invoke input depth index start =
      (program.loud.invoke input depth index start).without
        program.hides := by
  induction depth generalizing index start with
  | zero => rfl
  | succ depth ih =>
      rw [invoke, invoke, loud, List.getElem?_map, ← loud]
      cases hProcedure : program.procedures[index]? with
      | none => rfl
      | some procedure =>
          have hMember : procedure ∈ program.procedures :=
            List.mem_of_getElem? hProcedure
          have hPublic := hForwards.isPublic _ hMember
          have hCalls := hForwards.calls _ hMember
          dsimp only [Option.map_some]
          rw [if_pos rfl, Run.without_reported]
          cases hHides : program.hides procedure.name with
          | false =>
              rw [hHides] at hPublic
              have hShown :
                  ∀ made ∈ procedure.body.calls, ∀ i,
                    (Node.call made.1 made.2).run input
                        (program.invoke input depth) i =
                      (program.loud.invoke input depth
                        made.1 i).without program.hides := by
                intro made hMade i
                rcases hCalls made hMade with
                  ⟨callee, hCallee, hForward⟩
                rw [Node.run, hForward, hPublic, ← ih]
                cases hOpen : callee.isPublic with
                | true => rfl
                | false =>
                    exact
                      silent_invoke hCallee hOpen input
                        depth i
              have hBody :=
                Node.run_loud_congruence
                  (Run.without_congruence input.size _)
                  procedure.body start hShown
              simp [hPublic, hBody]
          | true =>
              rw [hHides] at hPublic
              have hQuiet :
                  ∀ made ∈ procedure.body.calls, ∀ i,
                    (Node.call made.1 made.2).run input
                        (program.invoke input depth) i =
                      (program.loud.invoke input depth
                        made.1 i).without
                          (fun _ => true) := by
                intro made hMade i
                rcases hCalls made hMade with
                  ⟨callee, _, hForward⟩
                rw [Node.run, hForward, hPublic, ih,
                  Run.without_all]
                rfl
              have hBody :=
                Node.run_loud_congruence
                  (Run.without_congruence input.size _)
                  procedure.body start hQuiet
              rw [Run.without_all] at hBody
              simp [hPublic, hBody]

end Program

end Abnf

------------------------------------------------------------
-- Programs Of Rules
------------------------------------------------------------

namespace Abnf

namespace Program

variable {rules : List Rule}
variable {program : Program}

/- Programs made from rules pass reports on as they should. -/
theorem forwards_of_ofRules
    (hProgram : ofRules rules = .ok program) :
    program.Forwards := by
  have hRewrite := Rule.isRewrite_normalize
  rcases exists_routines_of_ofRulesWith hRewrite
      hProgram with
    ⟨hAccept, routines, hRoutines, rfl⟩
  have hTable := Entry.isTable_chosen hRewrite hAccept
  have hEntries :=
    Routine.map_entry_ofEntries hRoutines
  constructor
  · intro procedure hProcedure
    rcases List.mem_map.mp hProcedure with
      ⟨routine, hRoutine, rfl⟩
    have hEntry :
        Entry.mk routine.rule routine.isPublic ∈
          Entry.chosen Rule.normalize rules := by
      rw [← hEntries]
      exact List.mem_map_of_mem hRoutine
    have hOwn := hTable.isPublic _ hEntry
    dsimp only at hOwn ⊢
    rw [hides, Bool.not_not,
      ruleNames_ofRoutines hRewrite hRoutines, hOwn,
      Bool.eq_iff_iff, List.contains_iff_mem]
    change
      Scope.hasName (rules.map Rule.normalize) _ = true ↔ _
    rw [Scope.hasName_map hRewrite.name, Scope.hasName_iff,
      List.mem_map]
  · intro procedure hProcedure made hMade
    rcases List.mem_map.mp hProcedure with
      ⟨routine, hRoutine, rfl⟩
    have hLinks :=
      Routine.links_of_mem hTable hRoutines hRoutine
    rcases hLinks.exists_of_mem_calls hMade with
      ⟨_, callee, hCallee, _, _, hForward⟩
    refine
      ⟨⟨callee.rule.name, callee.isPublic, callee.body⟩,
        ?_, hForward⟩
    rw [ofRoutines, List.getElem?_map, hCallee]
    rfl

/- The public routines are those of the rules. -/
theorem mem_ruleNames_iff
    (hProgram : ofRules rules = .ok program)
    {name : String} :
    name ∈ program.ruleNames ↔
      Scope.hasName rules name = true := by
  rcases exists_routines_of_ofRulesWith
      Rule.isRewrite_normalize hProgram with
    ⟨_, _, hRoutines, rfl⟩
  rw [ruleNames_ofRoutines Rule.isRewrite_normalize
    hRoutines, Scope.hasName_iff, List.mem_map]

/-
  The routine of a public name runs like the rule of that
  name, at a depth at which that run is settled.
-/
theorem exists_trace_eq_of_hasName
    (hProgram : ofRules rules = .ok program)
    {name : String}
    (hName : Scope.hasName rules name = true) :
    ∃ entry, program.entry? name = some entry ∧
      ∀ input start, ∃ depth,
        program.trace entry input start =
            (Scope.ofRules rules).invoke input depth
              name start ∧
          (program.trace entry input
            start).outcome.isSettled = true := by
  rcases Scope.hasName_iff.mp hName with
    ⟨rule, hRule, rfl⟩
  exact
    exists_trace_eq_invoke Rule.isRewrite_normalize
      (Scope.ofRules rules).invoke_normalize hProgram hRule

/- Every exit in a trace is that of the routine's own run. -/
theorem run_eq_of_exit_mem
    (hProgram : ofRules rules = .ok program)
    {name : String}
    {input : Array UInt8}
    {depth start : Nat}
    (hSettled :
      ((Scope.ofRules rules).invoke input depth
        name start).outcome.isSettled = true)
    {rule : String}
    {i : Nat}
    {stop : Option Nat}
    (hExit :
      .exit rule i stop ∈
        ((Scope.ofRules rules).invoke input depth
          name start).events) :
    ∃ entry, program.entry? rule = some entry ∧
      program.run entry input i = Outcome.ofStop stop := by
  rcases Scope.tells_of_isSettled _ input depth name start
      hSettled rule i stop hExit with
    ⟨hOwn, depth', hEnd⟩
  rcases exists_trace_eq_of_hasName hProgram hOwn with
    ⟨entry, hEntry, hTrace⟩
  refine ⟨entry, hEntry, ?_⟩
  rcases hTrace input i with ⟨depth'', hRun, hDone⟩
  have hDone' :
      ((Scope.ofRules rules).invoke input depth'
        rule i).outcome.isSettled = true := by
    rw [hEnd]
    cases stop <;> rfl
  rw [hRun] at hDone
  rw [run, hRun, Scope.invoke_eq_of_isSettled hDone hDone',
    hEnd]

/-
  A public routine reports its entry first and its exit last,
  with the end that the run comes to, and what it reports is
  bracketed. Every exit on the way tells the end to which the
  run of its routine comes from its start. All calls are
  reported but those of private routines, with all that is
  called in them.
-/
theorem exists_events_eq
    (hProgram : ofRules rules = .ok program)
    {name : String}
    (hName : name ∈ program.ruleNames) :
    ∃ entry, program.entry? name = some entry ∧
      ∀ input start, ∃ stop inner,
        program.run entry input start =
          Outcome.ofStop stop ∧
        (program.trace entry input start).events =
          .enter name start ::
            (inner ++ [.exit name start stop]) ∧
        Event.Bracketed inner ∧
        Event.Bracketed
          (program.trace entry input start).events ∧
        (∀ rule i stop',
          .exit rule i stop' ∈
              (program.trace entry input start).events →
          ∃ entry', program.entry? rule = some entry' ∧
            program.run entry' input i =
              Outcome.ofStop stop') ∧
        program.trace entry input start =
          (program.loud.trace entry input start).without
            program.hides := by
  have hOwn := (mem_ruleNames_iff hProgram).mp hName
  rcases exists_trace_eq_of_hasName hProgram hOwn with
    ⟨entry, hEntry, hTrace⟩
  refine ⟨entry, hEntry, ?_⟩
  intro input start
  rcases hTrace input start with ⟨depth, hRun, hSettled⟩
  have hEnd := Outcome.eq_ofStop_of_isSettled hSettled
  have hLoud :
      program.trace entry input start =
        (program.loud.trace entry input start).without
          program.hides := by
    rw [trace, trace, depthLimit_loud]
    exact
      invoke_eq_without (forwards_of_ofRules hProgram)
        input _ entry start
  have hWhole :=
    Call.bracketed_eventsOfAll
      (program.trace entry input start).calls
  rw [hRun] at hSettled
  rcases Scope.exists_invoke_eq_reported hOwn hSettled with
    ⟨body, hBody⟩
  have hEvents :
      (program.trace entry input start).events =
        .enter name start ::
          (body.events ++
            [.exit name start
              (program.trace entry input
                start).outcome.stop?]) := by
    rw [hRun, hBody, Run.events_reported]
    rfl
  refine
    ⟨_, body.events, hEnd, hEvents,
      Call.bracketed_eventsOfAll body.calls, hWhole, ?_,
      hLoud⟩
  intro rule i stop hExit
  rw [hRun] at hExit
  exact run_eq_of_exit_mem hProgram hSettled hExit

/-
  The core rule for white space on several lines comes back
  to the blanks of the grammar, which it calls unheard.
-/
theorem exists_events_eq_hiddenBlanks :
    ∃ program entry,
      ofRules Routine.hiddenBlanks = .ok program ∧
      "text" ∈ program.ruleNames ∧
      program.entry? "text" = some entry ∧
      (program.trace entry #[32] 0).events =
        [.enter "text" 0, .exit "text" 0 (some 1)] ∧
      (program.loud.trace entry #[32] 0).events =
        [.enter "text" 0, .enter "LWSP" 0,
         .enter "WSP" 0, .exit "WSP" 0 (some 1),
         .enter "WSP" 1, .exit "WSP" 1 none,
         .enter "CRLF" 1, .enter "CR" 1, .exit "CR" 1 none,
         .exit "CRLF" 1 none, .exit "LWSP" 0 (some 1),
         .exit "text" 0 (some 1)] ∧
      program.trace entry #[32] 0 =
        (program.loud.trace entry #[32] 0).without
          program.hides := by
  have hReports :
      (ofRules Routine.hiddenBlanks).toOption.map
          (fun program =>
            (program.ruleNames, program.entry? "text",
             (program.trace 0 #[32] 0).events,
             (program.loud.trace 0 #[32] 0).events)) =
        some
          (["text", "WSP"], some 0,
           [.enter "text" 0, .exit "text" 0 (some 1)],
           [.enter "text" 0, .enter "LWSP" 0,
            .enter "WSP" 0, .exit "WSP" 0 (some 1),
            .enter "WSP" 1, .exit "WSP" 1 none,
            .enter "CRLF" 1, .enter "CR" 1,
            .exit "CR" 1 none, .exit "CRLF" 1 none,
            .exit "LWSP" 0 (some 1),
            .exit "text" 0 (some 1)]) := by
    decide +kernel
  cases hProgram : ofRules Routine.hiddenBlanks with
  | error cause =>
      rw [hProgram] at hReports
      cases hReports
  | ok program =>
      rw [hProgram] at hReports
      have hParts := Option.some.inj hReports
      rw [Prod.mk.injEq, Prod.mk.injEq, Prod.mk.injEq]
        at hParts
      rcases hParts with ⟨hNames, hEntry, hHeard, hMade⟩
      have hName : "text" ∈ program.ruleNames := by
        rw [hNames]
        exact List.mem_cons_self
      rcases exists_events_eq hProgram hName with
        ⟨entry, hFound, hRuns⟩
      rw [hEntry] at hFound
      cases hFound
      rcases hRuns #[32] 0 with
        ⟨_, _, _, _, _, _, _, hLoud⟩
      exact
        ⟨program, 0, rfl, hName, hEntry, hHeard, hMade,
          hLoud⟩

end Program

end Abnf
