import Abnf.Proofs.Evaluation
import Abnf.Proofs.Pruning
import Abnf.Proofs.Rust.Evaluation

/-
  What code does.

  Code comes to the ends of some runs and tells its listener
  what these report. A test on a byte and a call do so, and
  a block of attempts does what a sequence or a choice of
  the same parts does.

  Key definitions include:
    * `Abnf.Event.notice`
    * `Abnf.Rust.Audience`
    * `Abnf.Rust.Machine.Shows`
    * `Abnf.Rust.Yields`
    * `Abnf.Source.Expr.Follows`
    * `Abnf.Source.Serves`

  Main declarations:
    * `Abnf.Source.follows_byte`
    * `Abnf.Source.follows_call`
    * `Abnf.Source.follows_sequence`
    * `Abnf.Source.follows_choice`
-/

------------------------------------------------------------
-- Listeners
------------------------------------------------------------

namespace Abnf

open Rust

/- A report as the call of a method. -/
def Event.notice
    (input : Array UInt8) : Event → Notice
  | .enter rule start =>
      ⟨"enter_" ++ Source.snakeCase rule,
        [.bytes input, .size start]⟩
  | .exit rule start stop =>
      ⟨"exit_" ++ Source.snakeCase rule,
        [.bytes input, .size start, .ofStop stop]⟩

namespace Rust

/- To whom a function reports. -/
inductive Audience where
  /- A private function has no listener. -/
  | nobody
  /- A listener that hears nothing. -/
  | deaf
  /- The listener whose notices are written down. -/
  | listener

namespace Audience

/- What stands for the listener. -/
def value? : Audience → Option Value
  | nobody => none
  | deaf => some (.borrowed .unit)
  | listener => some .listener

/- What is written down of some events. -/
def notices
    (input : Array UInt8) :
    Audience → List Event → List Notice
  | listener, events => events.map (·.notice input)
  | _, _ => []

theorem notices_nil
    (audience : Audience)
    (input : Array UInt8) :
    audience.notices input [] = [] := by
  cases audience <;> rfl

theorem notices_append
    (audience : Audience)
    (input : Array UInt8)
    (events events' : List Event) :
    audience.notices input (events ++ events') =
      audience.notices input events ++
        audience.notices input events' := by
  cases audience <;> simp [notices]

theorem notices_quiet
    (audience : Audience)
    (input : Array UInt8)
    (outcome : Outcome) :
    audience.notices input (Run.quiet outcome).events =
      [] :=
  audience.notices_nil input

/- What a run reports behind another. -/
theorem notices_after
    (audience : Audience)
    (input : Array UInt8)
    (run run' : Run) :
    audience.notices input (Run.after run.calls run').events =
      audience.notices input run.events ++
        audience.notices input run'.events := by
  rw [← audience.notices_append, Run.events, Run.after,
    Call.eventsOfAll_append]
  rfl

end Audience

/- What the code of a node finds in its variables. -/
structure Machine.Shows
    (machine : Machine)
    (input : Array UInt8)
    (audience : Audience)
    (index : Nat) : Prop where
  input : machine.get? "input" = some (.bytes input)
  index : machine.get? "index" = some (.size index)
  listener :
    ∀ value, audience.value? = some value →
      machine.get? "listener" = some value

/- The variables for attempts and for copies. -/
def AreOwn
    (above : List Variable) : Prop :=
  ∀ own ∈ above, own.name = "next" ∨ own.name = "count"

variable {machine : Machine}
variable {input : Array UInt8}
variable {audience : Audience}
variable {index : Nat}
variable {above : List Variable}
variable {notices : List Notice}

theorem areOwn_nil : AreOwn [] :=
  fun _ hNone => nomatch hNone

theorem AreOwn.next
    (h : AreOwn above)
    (value : Value) :
    AreOwn (⟨"next", false, value⟩ :: above) :=
  List.forall_mem_cons.mpr ⟨.inl rfl, h⟩

theorem AreOwn.count
    (h : AreOwn above)
    (value : Value) :
    AreOwn (⟨"count", true, value⟩ :: above) :=
  List.forall_mem_cons.mpr ⟨.inr rfl, h⟩

theorem AreOwn.ne
    (h : AreOwn above)
    {x : String}
    (hOther : x ≠ "next" ∧ x ≠ "count") :
    ∀ own ∈ above, own.name ≠ x := by
  intro own hMem hName
  rcases h own hMem with hNext | hCount
  · exact hOther.1 (hName.symm.trans hNext)
  · exact hOther.2 (hName.symm.trans hCount)

/- Variables for attempts and copies hide nothing. -/
theorem Machine.Shows.beneath
    (h : machine.Shows input audience index)
    (hAbove : AreOwn above) :
    Machine.Shows ⟨above ++ machine.locals, notices⟩
      input audience index := by
  have hGet :
      ∀ x, x ≠ "next" ∧ x ≠ "count" →
        Machine.get? ⟨above ++ machine.locals, notices⟩
            x =
          machine.get? x :=
    fun x hOther => Machine.get?_append (hAbove.ne hOther)
  constructor
  · rw [hGet _ (by decide), h.input]
  · rw [hGet _ (by decide), h.index]
  · intro value hValue
    rw [hGet _ (by decide), h.listener value hValue]

/- A copy of the index hides the index alone. -/
theorem Machine.Shows.moved
    (h : machine.Shows input audience index)
    (hAbove : AreOwn above)
    (i : Nat) :
    Machine.Shows
      ⟨above ++ ⟨"index", true, .size i⟩ ::
          machine.locals, notices⟩
      input audience i := by
  have hMoved :
      Machine.Shows
        ⟨⟨"index", true, .size i⟩ :: machine.locals,
          notices⟩
        input audience i := by
    constructor
    · exact h.input
    · exact Machine.get?_cons_same true
    · exact h.listener
  exact hMoved.beneath hAbove

end Rust

end Abnf

------------------------------------------------------------
-- Bytes And Calls
------------------------------------------------------------

namespace Abnf

namespace Source

open Rust

variable {host : Host}
variable {rounds : Nat}
variable {input : Array UInt8}
variable {audience : Audience}
variable {machine : Rust.Machine}
variable {index : Nat}

/-
  The code comes to the ends of some runs and tells the
  listener what they report.
-/
def Expr.Follows
    (host : Host)
    (rounds : Nat)
    (input : Array UInt8)
    (audience : Audience)
    (code : Expr)
    (run : Nat → Run) : Prop :=
  ∀ machine index,
    machine.Shows input audience index →
    (run index).outcome.isSettled = true →
    code.term.run host rounds machine =
      some
        (⟨machine.locals,
          machine.notices ++
            audience.notices input (run index).events⟩,
         .ok (.ofStop (run index).outcome.stop?))

/- A quiet end is told to nobody. -/
theorem Expr.follows_of_gives
    {code : Expr}
    {outcome : Nat → Outcome}
    (h :
      ∀ machine index,
        machine.Shows input audience index →
        code.term.Gives host rounds machine
          (.ofStop (outcome index).stop?)) :
    code.Follows host rounds input audience
      (fun index => .quiet (outcome index)) := by
  intro machine index hShows _
  rw [audience.notices_quiet, List.append_nil]
  exact h machine index hShows

theorem follows_found :
    Expr.found.Follows host rounds input audience
      (fun index => .quiet (.matched index)) :=
  Expr.follows_of_gives
    (fun _ _ hShows => gives_just (gives_name hShows.index))

theorem follows_missing :
    Expr.missing.Follows host rounds input audience
      (fun _ => .quiet .failed) :=
  Expr.follows_of_gives (fun _ _ _ => rfl)

/- The offset behind an index. -/
theorem gives_plus
    (hIndex : machine.get? "index" = some (.size index)) :
    (Term.operate .plus (.name "index")
        (.number 1 "")).Gives host rounds machine
      (.size (index + 1)) :=
  gives_operate (by decide) (gives_name hIndex)
    (gives_number rfl) rfl

/- The code of a test matches a byte that passes. -/
theorem follows_byte
    (test : ByteTest) :
    (Expr.byte test).Follows host rounds input audience
      (fun index =>
        .quiet (Node.runTerminal input test index)) := by
  apply Expr.follows_of_gives
  intro machine index hShows
  have hInput :
      (Term.name "input").Gives host rounds machine
        (.bytes input) := gives_name hShows.input
  have hIndex :
      (Term.name "index").Gives host rounds machine
        (.size index) := gives_name hShows.index
  have hGet :=
    (run_method hInput (.cons hIndex .nil)).trans
      (method_get input index)
  have hMissing :
      ∀ subject : Value,
        (Arms.plain .any .nothing .none).run host rounds
            subject machine =
          some (machine, .ok .nothing) :=
    fun subject =>
      @run_plain host rounds machine .any subject none
        .nothing [] machine.locals machine.notices _ rfl
        rfl rfl .none
  rw [Expr.term, Term.Gives, Term.run, Step.bind_eq_chain,
    Step.chain_of_ok hGet, Node.runTerminal]
  cases hByte : input[index]? with
  | none =>
      dsimp only
      rw [run_guarded_of_none rfl]
      exact hMissing _
  | some b =>
      dsimp only
      have hBound :
          (Pattern.justRef "c").bind?
              (.just (.borrowed (.number .u8 b.toNat))) =
            some (some ("c", .number .u8 b.toNat)) := rfl
      have hGuard :
          (conditionTerm test).Gives host rounds
            ⟨Pattern.locals
                (some ("c", .number .u8 b.toNat)) ++
              machine.locals, machine.notices⟩
            (.truth (test.accepts b)) :=
        gives_condition (Machine.get?_cons_same false) test
      cases hAccepts : test.accepts b with
      | true =>
          rw [hAccepts] at hGuard
          have hInside :
              Machine.get?
                  ⟨Pattern.locals
                      (some ("c", .number .u8 b.toNat)) ++
                    machine.locals, machine.notices⟩
                  "index" =
                some (.size index) := hShows.index
          exact
            run_guarded hBound hGuard
              (gives_just (gives_plus hInside)) rfl _
      | false =>
          rw [hAccepts] at hGuard
          rw [run_guarded_of_not hBound hGuard]
          exact hMissing _

/- What a call hands on of what the caller has. -/
def Passing.values?
    (audience : Audience) :
    Passing → Option (List Value)
  | nothing => some []
  | listener => audience.value?.map ([·])
  | deaf => some [.borrowed .unit]

/-
  The function of an identifier comes to the ends of some
  runs and tells what they report.
-/
def Serves
    (host : Host)
    (input : Array UInt8)
    (audience : Audience)
    (identifier : String)
    (passing : Passing)
    (run : Nat → Run) : Prop :=
  ∀ index, (run index).outcome.isSettled = true →
    ∃ handed, passing.values? audience = some handed ∧
      host.call ("parse_" ++ identifier)
          ([.bytes input, .size index] ++ handed) =
        some
          (.ofStop (run index).outcome.stop?,
           audience.notices input (run index).events)

/- The call of a function does what the function does. -/
theorem follows_call
    {identifier : String}
    {passing : Passing}
    {run : Nat → Run}
    (hServes :
      Serves host input audience identifier passing run) :
    (Expr.call identifier passing).Follows host rounds input
      audience run := by
  intro machine index hShows hSettled
  rcases hServes index hSettled with
    ⟨handed, hHanded, hCall⟩
  have hPassed :
      List.Forall₂ (Term.Gives host rounds machine)
        passing.terms handed := by
    cases passing with
    | nothing =>
        cases hHanded
        exact .nil
    | listener =>
        rcases Option.map_eq_some_iff.mp hHanded with
          ⟨value, hValue, rfl⟩
        exact
          .cons (gives_name (hShows.listener value hValue))
            .nil
    | deaf =>
        cases hHanded
        exact .cons rfl .nil
  have hTerms :
      List.Forall₂ (Term.Gives host rounds machine)
        ([.name "input", .name "index"] ++ passing.terms)
        ([.bytes input, .size index] ++ handed) :=
    .cons (gives_name hShows.input)
      (.cons (gives_name hShows.index) hPassed)
  rw [Expr.term, Term.run, Step.bind_eq_chain,
    Step.chain_of_ok (runAll_of_gives hTerms),
    Host.function, hCall]
  rfl

end Source

end Abnf

------------------------------------------------------------
-- Sequences And Choices
------------------------------------------------------------

namespace Abnf

namespace Rust

variable {host : Host}
variable {rounds : Nat}
variable {machine after : Machine}
variable {term : Term}
variable {exit : Exit}

/- What comes behind a term that ends in a brace. -/
theorem run_behind_of_ok
    (h :
      term.run host rounds machine =
        some (after, .ok .unit))
    (rest : Body) :
    (Body.behind term rest).run host rounds machine =
      rest.run host rounds after := by
  have hPerform :
      (Body.perform term rest).run host rounds machine =
        rest.run host rounds after := by
    rw [Body.run, Step.bind_eq_chain, Step.chain_of_ok h]
  cases rest with
  | done => exact h
  | value value => exact hPerform
  | bind x changes kind value rest => exact hPerform
  | perform term' rest => exact hPerform

theorem run_behind_of_error
    (h :
      term.run host rounds machine =
        some (after, .error exit))
    (rest : Body) :
    (Body.behind term rest).run host rounds machine =
      some (after, .error exit) := by
  have hPerform :
      (Body.perform term rest).run host rounds machine =
        some (after, .error exit) := by
    rw [Body.run, Step.bind_eq_chain,
      Step.chain_of_error h]
  cases rest with
  | done => exact h
  | value value => exact hPerform
  | bind x changes kind value rest => exact hPerform
  | perform term' rest => exact hPerform

/- A variable without a type comes in. -/
theorem run_bind
    {value : Term}
    {result : Value}
    (h :
      value.run host rounds machine =
        some (after, .ok result))
    (x : String)
    (changes : Bool)
    (rest : Body) :
    (Body.bind x changes none value rest).run host rounds
        machine =
      rest.run host rounds
        ⟨⟨x, changes, result⟩ :: after.locals,
          after.notices⟩ := by
  rw [Body.run, Step.bind_eq_chain, Step.chain_of_ok h]
  rfl

/-
  A body comes to its end with a value, or leaves the block
  around it with one. What came in lies above what was there.
-/
def Yields
    (host : Host)
    (rounds : Nat)
    (body : Body)
    (machine : Machine)
    (label : String)
    (base : List Variable)
    (notices : List Notice)
    (value : Value) : Prop :=
  ∃ added result,
    body.run host rounds machine =
      some (⟨added ++ base, notices⟩, result) ∧
    (result = .ok value ∨ result = .error ⟨label, value⟩)

variable {body body' : Body}
variable {label : String}
variable {base : List Variable}
variable {notices : List Notice}
variable {value : Value}

theorem Yields.ofEq
    (hRun :
      body.run host rounds machine =
        body'.run host rounds after)
    (h :
      Yields host rounds body' after label base notices
        value) :
    Yields host rounds body machine label base notices
      value := by
  rcases h with ⟨added, result, hBody, hResult⟩
  exact ⟨added, result, hRun.trans hBody, hResult⟩

/- A block has the value to which its body comes. -/
theorem run_block
    (h :
      Yields host rounds body machine label
        machine.locals notices value) :
    (Term.block (some label) body).run host rounds machine =
      some (⟨machine.locals, notices⟩, .ok value) := by
  rcases h with ⟨added, result, hBody, hResult⟩
  have hInside := Step.inside_eq added hBody rfl
  rw [Term.run]
  rcases hResult with rfl | rfl
  · exact Step.catching_of_ok hInside _
  · exact Step.catching_of_error hInside

end Rust

namespace Source

open Rust

variable {host : Host}
variable {rounds : Nat}
variable {input : Array UInt8}
variable {audience : Audience}
variable {callee : Nat → Nat → Run}
variable {machine : Rust.Machine}
variable {above base : List Variable}
variable {notices : List Notice}
variable {value : Value}
variable {index start stop : Nat}
variable {codes : List Expr}
variable {nodes : List Node}

/- The end of a match becomes the index. -/
theorem run_advance_matched
    (hAbove : AreOwn above)
    (label : Label) :
    (advanceTerm label).run host rounds
        ⟨⟨"next", false, .just (.size stop)⟩ :: above ++
          ⟨"index", true, value⟩ :: base, notices⟩ =
      some
        (⟨⟨"next", false, .just (.size stop)⟩ :: above ++
          ⟨"index", true, .size stop⟩ :: base, notices⟩,
         .ok .unit) := by
  have hNext :
      (Term.name "next").Gives host rounds
        ⟨⟨"next", false, .just (.size stop)⟩ :: above ++
          ⟨"index", true, value⟩ :: base, notices⟩
        (.just (.size stop)) := gives_name rfl
  have hBound :
      (Pattern.just "next").bind? (.just (.size stop)) =
        some (some ("next", .size stop)) := rfl
  have hStop :
      (Term.name "next").Gives host rounds
        ⟨Pattern.locals (some ("next", .size stop)) ++
          (⟨"next", false, .just (.size stop)⟩ :: above ++
            ⟨"index", true, value⟩ :: base), notices⟩
        (.size stop) := gives_name rfl
  have hAssign :
      (Term.assign "index" (.name "next")).run host rounds
          ⟨Pattern.locals (some ("next", .size stop)) ++
            (⟨"next", false, .just (.size stop)⟩ :: above ++
              ⟨"index", true, value⟩ :: base), notices⟩ =
        some
          (⟨Pattern.locals (some ("next", .size stop)) ++
            (⟨"next", false, .just (.size stop)⟩ :: above ++
              ⟨"index", true, .size stop⟩ :: base),
              notices⟩,
           .ok .unit) := by
    have hOwn :
        AreOwn
          (⟨"next", false, .size stop⟩ ::
            ⟨"next", false, .just (.size stop)⟩ :: above) :=
      (hAbove.next _).next _
    rw [Term.run, Step.bind_eq_chain, Step.chain_of_ok hStop]
    exact
      Step.chain_of_ok
        (Step.assign_append (hOwn.ne (by decide))) _
  rw [advanceTerm, Term.run, Step.bind_eq_chain,
    Step.chain_of_ok hNext]
  exact run_plain hBound hAssign (by simp) _

/- Without a match, the block is left. -/
theorem run_advance_failed
    (label : Label) :
    (advanceTerm label).run host rounds
        ⟨⟨"next", false, .nothing⟩ :: above, notices⟩ =
      some
        (⟨⟨"next", false, .nothing⟩ :: above, notices⟩,
         .error ⟨label.name, .nothing⟩) := by
  have hNext :
      (Term.name "next").Gives host rounds
        ⟨⟨"next", false, .nothing⟩ :: above, notices⟩
        .nothing := gives_name rfl
  rw [advanceTerm, Term.run, Step.bind_eq_chain,
    Step.chain_of_ok hNext, run_plain_of_none rfl]
  exact
    @run_plain host rounds _ .nothing .nothing none _ [] _ _
      _ rfl rfl rfl _

/- The first part of a sequence comes before the others. -/
theorem beforeAll_advances
    (label : Label)
    (code : Expr)
    (codes : List Expr) :
    Stmt.beforeAll (.value Expr.found.term)
        ((code :: codes).flatMap
          (fun part => [.letNext part, .advance label])) =
      .bind "next" false none code.term
        (.behind (advanceTerm label)
          (Stmt.beforeAll (.value Expr.found.term)
            (codes.flatMap
              (fun part =>
                [.letNext part, .advance label])))) := rfl

/-
  One attempt after the other from the end of the last one.
  By induction on the parts; the variables for the attempts
  pile up above the index.
-/
theorem yields_advances
    (hParts :
      List.Forall₂
        (fun code node =>
          code.Follows host rounds input audience
            (fun i => Node.run input callee node i))
        codes nodes)
    (hShows : machine.Shows input audience start)
    (hAbove : AreOwn above)
    (label : Label)
    (index : Nat)
    (notices : List Notice)
    (hSettled :
      (Node.runSequence input callee nodes
        index).outcome.isSettled = true) :
    Yields host rounds
      (Stmt.beforeAll (.value Expr.found.term)
        (codes.flatMap
          (fun part => [.letNext part, .advance label])))
      ⟨above ++ ⟨"index", true, .size index⟩ ::
          machine.locals, notices⟩
      label.name machine.locals
      (notices ++
        audience.notices input
          (Node.runSequence input callee nodes
            index).events)
      (.ofStop
        (Node.runSequence input callee nodes
          index).outcome.stop?) := by
  induction hParts generalizing above index notices with
  | nil =>
      have hInner :=
        @Machine.Shows.moved _ _ _ _ _ notices hShows hAbove
          index
      have hFound :
          Expr.found.term.Gives host rounds _
            (.just (.size index)) :=
        gives_just (gives_name hInner.index)
      refine
        ⟨above ++ [⟨"index", true, .size index⟩],
          .ok (.just (.size index)), ?_, .inl rfl⟩
      rw [Node.runSequence, audience.notices_quiet,
        List.append_nil, List.append_assoc]
      exact hFound
  | @cons code node codes nodes hFirst _ ih =>
      rw [Node.runSequence] at hSettled ⊢
      have hInner :=
        @Machine.Shows.moved _ _ _ _ _ notices hShows hAbove
          index
      rw [Run.andThen_eq_resume] at hSettled ⊢
      have hDone := Run.isSettled_of_resume hSettled
      have hRun := hFirst _ _ hInner hDone
      rcases Outcome.matched_or_failed hDone with
        ⟨stop, hOutcome⟩ | hOutcome
      · rw [Run.resume_of_matched hOutcome] at hSettled ⊢
        rw [hOutcome] at hRun
        rw [audience.notices_after, ← List.append_assoc]
        refine
          Yields.ofEq ?_
            (ih (hAbove.next (.just (.size stop))) stop _
              hSettled)
        rw [beforeAll_advances, run_bind hRun]
        exact
          run_behind_of_ok (run_advance_matched hAbove label) _
      · rw [Run.resume_of_failed hOutcome]
        rw [hOutcome] at hRun
        rw [audience.notices_after, audience.notices_quiet,
          List.append_nil]
        refine
          ⟨⟨"next", false, .nothing⟩ :: above ++
              [⟨"index", true, .size index⟩],
            _, ?_, .inr rfl⟩
        rw [beforeAll_advances, run_bind hRun,
          List.append_assoc]
        exact
          run_behind_of_error (run_advance_failed label) _

/- The code of a sequence does its parts one by one. -/
theorem follows_sequence
    (hParts :
      List.Forall₂
        (fun code node =>
          code.Follows host rounds input audience
            (fun i => Node.run input callee node i))
        codes nodes)
    (label : Label) :
    (Expr.block label
        (.letIndex ::
          codes.flatMap
            (fun part => [.letNext part, .advance label]))
        .found).Follows host rounds input audience
      (fun i => Node.run input callee (.sequence nodes) i) := by
  intro machine index hShows hSettled
  simp only [Node.run] at hSettled ⊢
  have hIndex :
      (Term.name "index").Gives host rounds machine
        (.size index) := gives_name hShows.index
  rw [Expr.term]
  apply run_block
  refine Yields.ofEq (run_bind hIndex "index" true _) ?_
  exact
    yields_advances hParts hShows areOwn_nil label index
      machine.notices hSettled

/- A match is the value of the block. -/
theorem run_leaveMatched
    (label : Label)
    (hNext : machine.get? "next" = some (.ofStop (some stop))) :
    (leaveMatchedTerm label).run host rounds machine =
      some
        (machine,
         .error ⟨label.name, .ofStop (some stop)⟩) := by
  have hTest :
      (Term.method (.name "next") "is_some" []).Gives host
        rounds machine (.truth true) :=
    (run_method (gives_name hNext) .nil).trans rfl
  have hLeave :
      (Body.perform (.leaveWith label.name (.name "next"))
          .done).run host rounds machine =
        some
          (machine,
           .error ⟨label.name, .ofStop (some stop)⟩) := by
    rw [Body.run, Step.bind_eq_chain]
    exact
      Step.chain_of_error
        (run_leaveWith (gives_name hNext) label.name) _
  rw [leaveMatchedTerm]
  exact
    @run_when _ _ _ _ _ [] machine.locals machine.notices
      _ hTest hLeave rfl

theorem run_leaveMatched_failed
    (label : Label)
    (hNext : machine.get? "next" = some (.ofStop none)) :
    (leaveMatchedTerm label).run host rounds machine =
      some (machine, .ok .unit) := by
  have hTest :
      (Term.method (.name "next") "is_some" []).Gives host
        rounds machine (.truth false) :=
    (run_method (gives_name hNext) .nil).trans rfl
  exact run_when_of_not hTest _

/- Each part of a choice but the last is tried first. -/
theorem beforeAll_attempts
    (label : Label)
    (code code' : Expr)
    (codes : List Expr) :
    Stmt.beforeAll
        (.value
          ((code :: code' :: codes).getLastD .missing).term)
        ((code :: code' :: codes).dropLast.flatMap
          (fun part =>
            [.letNext part, .leaveMatched label])) =
      .bind "next" false none code.term
        (.behind (leaveMatchedTerm label)
          (Stmt.beforeAll
            (.value
              ((code' :: codes).getLastD .missing).term)
            ((code' :: codes).dropLast.flatMap
              (fun part =>
                [.letNext part,
                  .leaveMatched label])))) := rfl

/-
  One attempt after the other from the same index, the last
  one without a way out.
-/
theorem yields_attempts
    (hParts :
      List.Forall₂
        (fun code node =>
          code.Follows host rounds input audience
            (fun i => Node.run input callee node i))
        codes nodes)
    (hShows : machine.Shows input audience index)
    (hAbove : AreOwn above)
    (label : Label)
    (notices : List Notice)
    (hSettled :
      (Node.runChoice input callee nodes
        index).outcome.isSettled = true) :
    Yields host rounds
      (Stmt.beforeAll (.value (codes.getLastD .missing).term)
        (codes.dropLast.flatMap
          (fun part => [.letNext part, .leaveMatched label])))
      ⟨above ++ machine.locals, notices⟩
      label.name machine.locals
      (notices ++
        audience.notices input
          (Node.runChoice input callee nodes
            index).events)
      (.ofStop
        (Node.runChoice input callee nodes
          index).outcome.stop?) := by
  induction hParts generalizing above notices with
  | nil =>
      rw [Node.runChoice, audience.notices_quiet,
        List.append_nil]
      exact ⟨above, .ok .nothing, rfl, .inl rfl⟩
  | @cons code node codes nodes hFirst hRest ih =>
      rw [Node.runChoice] at hSettled ⊢
      have hInner :=
        @Machine.Shows.beneath _ _ _ _ _ notices hShows
          hAbove
      cases hRest with
      | nil =>
          rw [Node.runChoice, Run.orElse_failed]
            at hSettled ⊢
          exact
            ⟨above, _, hFirst _ _ hInner hSettled, .inl rfl⟩
      | @cons code' node' codes nodes _ _ =>
          rw [Run.orElse_eq_resume] at hSettled ⊢
          have hDone := Run.isSettled_of_resume hSettled
          have hRun := hFirst _ _ hInner hDone
          rw [beforeAll_attempts]
          rcases Outcome.matched_or_failed hDone with
            ⟨stop, hOutcome⟩ | hOutcome
          · rw [hOutcome] at hRun
            rw [Run.resume_of_matched hOutcome,
              audience.notices_after,
              audience.notices_quiet, List.append_nil]
            refine
              ⟨⟨"next", false, .ofStop (some stop)⟩ ::
                  above, _, ?_, .inr rfl⟩
            rw [run_bind hRun]
            exact
              run_behind_of_error
                (run_leaveMatched label rfl) _
          · rw [hOutcome] at hRun
            rw [Run.resume_of_failed hOutcome] at hSettled ⊢
            rw [audience.notices_after,
              ← List.append_assoc]
            refine
              Yields.ofEq ?_
                (ih (hAbove.next (.ofStop none)) _
                  hSettled)
            rw [run_bind hRun]
            exact
              run_behind_of_ok
                (run_leaveMatched_failed label rfl) _

/- The code of a choice does its parts until one matches. -/
theorem follows_choice
    (hParts :
      List.Forall₂
        (fun code node =>
          code.Follows host rounds input audience
            (fun i => Node.run input callee node i))
        codes nodes)
    (label : Label) :
    (Expr.block label
        (codes.dropLast.flatMap
          (fun part => [.letNext part, .leaveMatched label]))
        (codes.getLastD .missing)).Follows host rounds input
      audience
      (fun i => Node.run input callee (.choice nodes) i) := by
  intro machine index hShows hSettled
  simp only [Node.run] at hSettled ⊢
  rw [Expr.term]
  apply run_block
  exact
    yields_attempts hParts hShows areOwn_nil label
      machine.notices hSettled

end Source

end Abnf
