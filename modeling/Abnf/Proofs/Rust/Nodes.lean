import Abnf.Proofs.ByteTest
import Abnf.Proofs.Events
import Abnf.Proofs.Rust.Iteration

/-
  The code of nodes.

  The code of a node does what the node does, whatever
  labels have been used before. The labels in it are new and
  differ from each other, and every way out of a block or
  loop has the label of one around it.

  Key definitions include:
    * `Abnf.Source.Writer.passing`
    * `Abnf.Source.Writer.ServesAll`
    * `Abnf.Source.Numbered`
    * `Abnf.Source.Writer.HasWords`

  Main declarations:
    * `Abnf.Source.Writer.follows_express`
    * `Abnf.Source.Writer.numbered_express`
    * `Abnf.Source.Writer.leavesWithin_express`
    * `Abnf.Source.Writer.plain_express`
-/

------------------------------------------------------------
-- Runs
------------------------------------------------------------

namespace Abnf

namespace Source

open Rust

namespace Writer

variable {host : Host}
variable {rounds : Nat}
variable {input : Array UInt8}
variable {audience : Audience}
variable {callee : Nat → Nat → Run}
variable {writer writer' : Writer}

/- The writers write calls alike. -/
def SameTable
    (writer writer' : Writer) : Prop :=
  writer.identifiers = writer'.identifiers ∧
    writer.routines = writer'.routines

mutual

theorem sameTable_express
    (writer : Writer) :
    ∀ node : Node,
      SameTable (writer.express node).2 writer
  | .empty => ⟨rfl, rfl⟩
  | .terminal _ => ⟨rfl, rfl⟩
  | .call _ _ => ⟨rfl, rfl⟩
  | .sequence parts => sameTable_expressAll writer parts
  | .choice parts => sameTable_expressAll writer parts
  | .iterate _ _ body => sameTable_express writer body

theorem sameTable_expressAll
    (writer : Writer) :
    ∀ nodes : List Node,
      SameTable (writer.expressAll nodes).2 writer
  | [] => ⟨rfl, rfl⟩
  | node :: nodes => by
      have hFirst := sameTable_express writer node
      have hRest :=
        sameTable_expressAll (writer.express node).2 nodes
      exact
        ⟨hRest.1.trans hFirst.1, hRest.2.trans hFirst.2⟩

end

/- What the call of a routine hands on. -/
def passing
    (writer : Writer)
    (index : Nat)
    (forward : Bool) : Passing :=
  if !writer.isPublic index then .nothing
  else if forward then .listener
  else .deaf

/- The functions that are called do what they are for. -/
def ServesAll
    (writer : Writer)
    (host : Host)
    (input : Array UInt8)
    (audience : Audience)
    (callee : Nat → Nat → Run)
    (calls : List (Nat × Bool)) : Prop :=
  ∀ made ∈ calls,
    Serves host input audience (writer.identifier made.1)
      (writer.passing made.1 made.2)
      (fun index =>
        (Node.call made.1 made.2).run input callee index)

theorem ServesAll.ofSame
    {calls : List (Nat × Bool)}
    (h :
      writer.ServesAll host input audience callee calls)
    (hSame : SameTable writer' writer) :
    writer'.ServesAll host input audience callee calls := by
  intro made hMade
  have hIdentifier :
      writer'.identifier made.1 =
        writer.identifier made.1 := by
    rw [identifier, identifier, hSame.1]
  have hPublic :
      writer'.isPublic made.1 = writer.isPublic made.1 := by
    rw [isPublic, isPublic, hSame.2]
  rw [hIdentifier, passing, hPublic, ← passing]
  exact h made hMade

mutual

/- The code of a node does what the node does. -/
theorem follows_express
    (hRounds : input.size + 1 ≤ rounds) :
    ∀ (node : Node) (writer : Writer),
      writer.ServesAll host input audience callee
        node.calls →
      (writer.express node).1.Follows host rounds input
        audience (fun index => node.run input callee index)
  | .empty, writer, _ => by
      simp only [express, Node.run]
      exact follows_found
  | .terminal test, writer, _ => by
      simp only [express, Node.run]
      cases test with
      | never =>
          have hNever :
              (fun index =>
                Run.quiet
                  (Node.runTerminal input .never index)) =
                fun _ => .quiet .failed := by
            funext index
            unfold Node.runTerminal
            cases input[index]? <;> rfl
          rw [hNever]
          exact follows_missing
      | eq b => exact follows_byte _
      | oneOf bs => exact follows_byte _
      | mask low high => exact follows_byte _
  | .call routine forward, writer, hServes =>
      follows_call
        (hServes (routine, forward) List.mem_cons_self)
  | .sequence parts, writer, hServes => by
      have hParts :=
        follows_expressAll hRounds parts writer hServes
      exact follows_sequence hParts _
  | .choice parts, writer, hServes => by
      have hParts :=
        follows_expressAll hRounds parts writer hServes
      exact follows_choice hParts _
  | .iterate min max body, writer, hServes => by
      have hBody :=
        follows_express hRounds body writer hServes
      simp only [Node.run]
      exact follows_iterate hBody hRounds _ _ min max

/- The same for some nodes. -/
theorem follows_expressAll
    (hRounds : input.size + 1 ≤ rounds) :
    ∀ (nodes : List Node) (writer : Writer),
      writer.ServesAll host input audience callee
        (Node.callsOfAll nodes) →
      List.Forall₂
        (fun code node =>
          code.Follows host rounds input audience
            (fun index => Node.run input callee node index))
        (writer.expressAll nodes).1 nodes
  | [], _, _ => .nil
  | node :: nodes, writer, hServes => by
      rw [Node.callsOfAll, ServesAll,
        List.forall_mem_append] at hServes
      have hFirst :=
        follows_express hRounds node writer hServes.1
      have hRest :=
        follows_expressAll hRounds nodes
          (writer.express node).2
          (ServesAll.ofSame hServes.2
            (sameTable_express writer node))
      exact .cons hFirst hRest

end

end Writer

end Source

end Abnf

------------------------------------------------------------
-- Labels
------------------------------------------------------------

namespace Abnf

namespace Source

open Rust

variable {around : List String}

@[simp] theorem labels_behind
    (term : Term)
    (rest : Body) :
    (Body.behind term rest).labels =
      term.labels ++ rest.labels := by
  cases rest <;> simp [Body.behind, Body.labels]

@[simp] theorem leavesWithin_behind
    (term : Term)
    (rest : Body) :
    (Body.behind term rest).leavesWithin around =
      (term.leavesWithin around &&
        rest.leavesWithin around) := by
  cases rest <;> simp [Body.behind, Body.leavesWithin]

/- A condition has no block and nothing to leave. -/
theorem labels_orEquals
    (bs : List UInt8)
    (first : Term) :
    (orEquals first bs).labels = first.labels ∧
      (orEquals first bs).leavesWithin around =
        first.leavesWithin around := by
  induction bs generalizing first with
  | nil => exact ⟨rfl, rfl⟩
  | cons b bs ih =>
      rcases ih (.operate .or first (equalsTerm b)) with
        ⟨hLabels, hLeaves⟩
      refine ⟨hLabels.trans ?_, hLeaves.trans ?_⟩
      · simp [equalsTerm, Term.labels]
      · simp [equalsTerm, Term.leavesWithin]

theorem labels_conditionTerm
    (test : ByteTest) :
    (conditionTerm test).labels = [] ∧
      (conditionTerm test).leavesWithin around = true := by
  cases test with
  | never => exact ⟨rfl, rfl⟩
  | eq b => exact ⟨rfl, rfl⟩
  | oneOf bs =>
      cases bs with
      | nil => exact ⟨rfl, rfl⟩
      | cons b bs => exact labels_orEquals bs (equalsTerm b)
  | mask low high =>
      rw [conditionTerm]
      split <;> split <;> exact ⟨rfl, rfl⟩

/- The labels in a statement, whatever comes behind it. -/
def Stmt.labelNames
    (stmt : Stmt) : List String :=
  (stmt.before .done).labels

/- The statement leaves only what is around it. -/
def Stmt.leavesWithin
    (around : List String)
    (stmt : Stmt) : Bool :=
  (stmt.before .done).leavesWithin around

theorem labels_before
    (stmt : Stmt)
    (rest : Body) :
    (stmt.before rest).labels =
      stmt.labelNames ++ rest.labels := by
  rw [Stmt.labelNames]
  cases stmt <;> simp [Stmt.before, Body.labels]

theorem leavesWithin_before
    (stmt : Stmt)
    (rest : Body) :
    (stmt.before rest).leavesWithin around =
      (stmt.leavesWithin around &&
        rest.leavesWithin around) := by
  rw [Stmt.leavesWithin]
  cases stmt <;> simp [Stmt.before, Body.leavesWithin]

theorem labels_beforeAll
    (stmts : List Stmt)
    (rest : Body) :
    (Stmt.beforeAll rest stmts).labels =
      stmts.flatMap Stmt.labelNames ++ rest.labels := by
  induction stmts with
  | nil => rw [Stmt.beforeAll]; rfl
  | cons stmt stmts ih =>
      rw [Stmt.beforeAll, labels_before, ih,
        List.flatMap_cons, List.append_assoc]

theorem leavesWithin_beforeAll
    (stmts : List Stmt)
    (rest : Body) :
    (Stmt.beforeAll rest stmts).leavesWithin around =
      (stmts.all (·.leavesWithin around) &&
        rest.leavesWithin around) := by
  induction stmts with
  | nil => rw [Stmt.beforeAll]; rfl
  | cons stmt stmts ih =>
      rw [Stmt.beforeAll, leavesWithin_before, ih,
        List.all_cons, Bool.and_assoc]

/- The name of a label tells its kind and number. -/
theorem Label.name_injective :
    Function.Injective Label.name := by
  rintro ⟨kind, number⟩ ⟨kind', number'⟩ hSame
  have hLists := congrArg String.toList hSame
  rw [Label.toList_name, Label.toList_name,
    List.cons.injEq, Nat.toString_eq_ofList_toDigits,
    Nat.toString_eq_ofList_toDigits, String.toList_ofList,
    String.toList_ofList] at hLists
  have hNumber :=
    congrArg (fun digits => Nat.ofDigitChars 10 digits 0)
      hLists.2
  simp only [Nat.ofDigitChars_ten_toDigits] at hNumber
  exact congrArg₂ Label.mk hLists.1 hNumber

/-
  Names of labels with different numbers, all above one
  bound and up to another.
-/
def Numbered
    (low high : Nat)
    (names : List String) : Prop :=
  low ≤ high ∧
    ∃ labels : List Label,
      names = labels.map Label.name ∧
      (labels.map (·.number)).Nodup ∧
      ∀ label ∈ labels,
        low < label.number ∧ label.number ≤ high

variable {low mid high : Nat}
variable {names names' : List String}

theorem numbered_nil
    (low : Nat) :
    Numbered low low [] :=
  ⟨Nat.le_refl low, [], rfl, List.nodup_nil,
    fun _ hNone => nomatch hNone⟩

theorem Numbered.nodup
    (h : Numbered low high names) :
    names.Nodup := by
  rcases h with ⟨_, labels, rfl, hNodup, _⟩
  exact (List.Nodup.of_map _ hNodup).map Label.name_injective

/- Labels with lower numbers come before others. -/
theorem Numbered.append
    (h : Numbered low mid names)
    (h' : Numbered mid high names') :
    Numbered low high (names ++ names') := by
  rcases h with ⟨hLess, labels, rfl, hNodup, hWithin⟩
  rcases h' with ⟨hLess', labels', rfl, hNodup', hWithin'⟩
  refine
    ⟨Nat.le_trans hLess hLess', labels ++ labels', ?_, ?_,
      ?_⟩
  · rw [List.map_append]
  · rw [List.map_append, List.nodup_append]
    refine ⟨hNodup, hNodup', ?_⟩
    intro number hNumber number' hNumber'
    rcases List.mem_map.mp hNumber with ⟨label, hLabel, rfl⟩
    rcases List.mem_map.mp hNumber' with
      ⟨label', hLabel', rfl⟩
    have hBelow := (hWithin label hLabel).2
    have hAbove := (hWithin' label' hLabel').1
    omega
  · intro label hLabel
    rcases List.mem_append.mp hLabel with hFirst | hSecond
    · have hBounds := hWithin label hFirst
      omega
    · have hBounds := hWithin' label hSecond
      omega

/- A label takes the next number. -/
theorem Numbered.next
    (h : Numbered low high names)
    (kind : Char) :
    Numbered low (high + 1)
      (Label.name ⟨kind, high + 1⟩ :: names) := by
  rcases h with ⟨hLess, labels, rfl, hNodup, hWithin⟩
  refine
    ⟨by omega, ⟨kind, high + 1⟩ :: labels, rfl, ?_, ?_⟩
  · rw [List.map_cons, List.nodup_cons]
    refine ⟨?_, hNodup⟩
    intro hTaken
    rcases List.mem_map.mp hTaken with ⟨label, hLabel, hSame⟩
    have hBounds := hWithin label hLabel
    dsimp only at hSame
    omega
  · intro label hLabel
    rcases List.mem_cons.mp hLabel with rfl | hRest
    · dsimp only
      omega
    · have hBounds := hWithin label hRest
      omega

/- A loop stands in its block, and both before the rest. -/
theorem Numbered.swap
    {outer inner : String}
    (h : Numbered low high (inner :: outer :: names)) :
    Numbered low high (outer :: inner :: names) := by
  rcases h with ⟨hLess, labels, hNames, hNodup, hWithin⟩
  match labels, hNames with
  | first :: second :: labels, hNames =>
      cases hNames
      have hPerm :
          (first :: second :: labels).Perm
            (second :: first :: labels) :=
        .swap second first labels
      refine ⟨hLess, second :: first :: labels, rfl, ?_, ?_⟩
      · exact (hPerm.map _).nodup_iff.mp hNodup
      · intro label hLabel
        exact hWithin label (hPerm.mem_iff.mpr hLabel)

end Source

namespace Source

open Rust

namespace Writer

variable {around : List String}

/- The labels of parts stand in a block one by one. -/
theorem labelNames_attempts
    {behind : Expr → List Stmt}
    (hBehind :
      ∀ part, (behind part).flatMap Stmt.labelNames =
        part.term.labels)
    (parts : List Expr) :
    (parts.flatMap behind).flatMap Stmt.labelNames =
      parts.flatMap (·.term.labels) := by
  rw [List.flatMap_assoc]
  simp only [hBehind]

/- Copies are taken in a loop without labels of their own. -/
theorem labelNames_loop
    (label : Label)
    (max : Option Nat)
    (code : Expr)
    (min : Nat)
    (counted : Bool) :
    (Stmt.loop label max
        [.letNext code,
         .takeCopy label min counted]).labelNames =
      label.name :: code.term.labels := by
  have hTake :
      (takeCopyTerm label min counted).labels = [] := by
    rw [takeCopyTerm, lastCopyBody, countCopyBody]
    split <;> split <;>
      simp [Term.labels, Arms.labels, Body.labels,
        labelsOfAll]
  cases max <;>
    simp [Stmt.labelNames, Stmt.before, Stmt.beforeAll,
      loopTerm, Body.labels, Term.labels, hTake]

/- The last part of a choice is the value of its block. -/
theorem flatMap_dropLast_append
    {α : Type}
    (labels : Expr → List α)
    (hMissing : labels .missing = [])
    (parts : List Expr) :
    parts.dropLast.flatMap labels ++
        labels (parts.getLastD .missing) =
      parts.flatMap labels := by
  rcases List.eq_nil_or_concat parts with
    rfl | ⟨first, last, rfl⟩
  · exact hMissing
  · simp

mutual

/-
  The labels in the code of a node are new, and all of them
  are different.
-/
theorem numbered_express :
    ∀ (node : Node) (writer : Writer),
      Numbered writer.labels (writer.express node).2.labels
        (writer.express node).1.term.labels
  | .empty, writer => numbered_nil writer.labels
  | .terminal test, writer => by
      have hNone :
          (terminal test).term.labels = [] := by
        cases test <;>
          simp [terminal, Expr.term, Term.labels,
            Arms.labels, labelsOfAll,
            (@labels_conditionTerm [] _).1]
      simp only [express, hNone]
      exact numbered_nil writer.labels
  | .call routine forward, writer => by
      have hNone :
          (writer.call routine forward).term.labels =
            [] := by
        rw [call, Expr.term]
        split
        · rfl
        · split <;> rfl
      simp only [express, hNone]
      exact numbered_nil writer.labels
  | .sequence parts, writer => by
      have hParts := numbered_expressAll parts writer
      have hBlock := hParts.next 'c'
      simp only [express, sequence, label, Expr.term,
        Term.labels, Body.labels, labels_beforeAll,
        List.flatMap_cons]
      rw [labelNames_attempts (fun part => ?_)]
      · simpa [Stmt.labelNames, Stmt.before, Body.labels,
          Term.labels] using hBlock
      · simp [Stmt.labelNames, Stmt.before, Body.labels,
          advanceTerm, Term.labels, Arms.labels]
  | .choice parts, writer => by
      have hParts := numbered_expressAll parts writer
      have hBlock := hParts.next 'a'
      simp only [express, choice, label, Expr.term,
        Term.labels, Body.labels, labels_beforeAll]
      rw [labelNames_attempts (fun part => ?_),
        flatMap_dropLast_append (·.term.labels) rfl]
      · exact hBlock
      · simp [Stmt.labelNames, Stmt.before, Body.labels,
          leaveMatchedTerm, Term.labels, labelsOfAll]
  | .iterate min max body, writer => by
      have hBody := numbered_express body writer
      have hBlock := ((hBody.next 'r').next 'l').swap
      have hCounters :
          ∀ counted : Bool,
            (if counted = true then [Stmt.letCount]
              else []).flatMap Stmt.labelNames = [] := by
        intro counted
        cases counted <;> rfl
      have hDemands :
          ∀ label,
            (if 0 < min then [Stmt.demand min label]
              else []).flatMap Stmt.labelNames = [] := by
        intro label
        split <;> rfl
      simp only [express, iterate, label, Expr.term,
        Term.labels, Body.labels, labels_beforeAll,
        List.flatMap_append, List.flatMap_cons,
        List.flatMap_nil, hCounters, hDemands,
        labelNames_loop]
      simpa [Stmt.labelNames, Stmt.before, Body.labels,
        Term.labels] using hBlock

/- The same for some nodes. -/
theorem numbered_expressAll :
    ∀ (nodes : List Node) (writer : Writer),
      Numbered writer.labels
        (writer.expressAll nodes).2.labels
        ((writer.expressAll nodes).1.flatMap
          (·.term.labels))
  | [], writer => numbered_nil writer.labels
  | node :: nodes, writer => by
      have hFirst := numbered_express node writer
      have hRest :=
        numbered_expressAll nodes (writer.express node).2
      exact hFirst.append hRest

end

end Writer

end Source

end Abnf

------------------------------------------------------------
-- Ways Out
------------------------------------------------------------

namespace Abnf

namespace Source

open Rust

namespace Writer

variable {around : List String}

/- What holds of the parts of a choice holds of the last. -/
theorem forall_getLastD
    {parts : List Expr}
    {holds : Expr → Prop}
    (hMissing : holds .missing)
    (hParts : ∀ part ∈ parts, holds part) :
    holds (parts.getLastD .missing) := by
  rcases List.eq_nil_or_concat parts with
    rfl | ⟨first, last, rfl⟩
  · exact hMissing
  · rw [List.concat_eq_append, List.getLastD_concat]
    exact hParts last (by simp)

/- A loop is left from within. -/
theorem leavesWithin_loop
    {code : Expr}
    (hCode :
      ∀ around, code.term.leavesWithin around = true)
    (label : Label)
    (max : Option Nat)
    (min : Nat)
    (counted : Bool) :
    (Stmt.loop label max
        [.letNext code,
         .takeCopy label min counted]).leavesWithin around =
      true := by
  have hTake :
      (takeCopyTerm label min counted).leavesWithin
          (label.name :: around) =
        true := by
    rw [takeCopyTerm, lastCopyBody, countCopyBody]
    split <;> split <;>
      simp [Term.leavesWithin, Arms.leavesWithin,
        Body.leavesWithin, allLeaveWithin]
  cases max <;>
    simp [Stmt.leavesWithin, Stmt.before, Stmt.beforeAll,
      loopTerm, Body.leavesWithin, Term.leavesWithin, hTake,
      hCode]

mutual

/- The code of a node leaves what is around it in itself. -/
theorem leavesWithin_express :
    ∀ (node : Node) (writer : Writer) (around : List String),
      (writer.express node).1.term.leavesWithin around = true
  | .empty, _, _ => rfl
  | .terminal test, _, around => by
      cases test <;>
        simp [express, terminal, Expr.term,
          Term.leavesWithin, Arms.leavesWithin,
          allLeaveWithin, (labels_conditionTerm _).2]
  | .call routine forward, writer, around => by
      rw [express, call, Expr.term]
      split
      · rfl
      · split <;> rfl
  | .sequence parts, writer, around => by
      have hParts := leavesWithin_expressAll parts writer
      simp only [express, sequence, label, Expr.term,
        Term.leavesWithin, Body.leavesWithin,
        leavesWithin_beforeAll, List.all_cons,
        List.all_flatMap, Bool.and_eq_true, List.all_eq_true]
      simpa [Stmt.leavesWithin, Stmt.before,
        Body.leavesWithin, Term.leavesWithin, advanceTerm,
        Arms.leavesWithin] using
          fun code hCode => hParts code hCode _
  | .choice parts, writer, around => by
      have hParts := leavesWithin_expressAll parts writer
      simp only [express, choice, label, Expr.term,
        Term.leavesWithin, Body.leavesWithin,
        leavesWithin_beforeAll,
        List.all_flatMap, Bool.and_eq_true, List.all_eq_true]
      refine ⟨?_, ?_⟩
      · intro code hCode
        have hPart :=
          hParts code (List.mem_of_mem_dropLast hCode)
        simp [Stmt.leavesWithin, Stmt.before,
          Body.leavesWithin, Term.leavesWithin,
          leaveMatchedTerm, allLeaveWithin, hPart]
      · exact
          forall_getLastD (fun _ => rfl) hParts _
  | .iterate min max body, writer, around => by
      have hBody := leavesWithin_express body writer
      simp only [express, iterate, label, Expr.term,
        Term.leavesWithin, Body.leavesWithin,
        leavesWithin_beforeAll, List.all_append,
        List.all_cons, List.all_nil,
        leavesWithin_loop hBody]
      split <;> split <;>
        simp [Stmt.leavesWithin, Stmt.before,
          Body.leavesWithin, Term.leavesWithin, demandTerm]

/- The same for some nodes. -/
theorem leavesWithin_expressAll :
    ∀ (nodes : List Node) (writer : Writer),
      ∀ code ∈ (writer.expressAll nodes).1,
        ∀ around, code.term.leavesWithin around = true
  | [], _, _, hNone, _ => nomatch hNone
  | node :: nodes, writer, code, hCode, around => by
      rcases List.mem_cons.mp hCode with rfl | hRest
      · exact leavesWithin_express node writer around
      · exact
          leavesWithin_expressAll nodes
            (writer.express node).2 code hRest around

end

end Writer

end Source

end Abnf

------------------------------------------------------------
-- Plain Code
------------------------------------------------------------

namespace Abnf

namespace Node

mutual

/- The tests in a node. -/
def tests : Node → List ByteTest
  | empty => []
  | terminal test => [test]
  | call _ _ => []
  | sequence parts => testsOfAll parts
  | choice parts => testsOfAll parts
  | iterate _ _ body => tests body

/- The tests in some nodes. -/
def testsOfAll : List Node → List ByteTest
  | [] => []
  | part :: parts => tests part ++ testsOfAll parts

end

end Node

namespace Source

open Rust

theorem Stmt.allPlain_iff
    {body : List Stmt} :
    Stmt.AllPlain body ↔ ∀ stmt ∈ body, stmt.Plain := by
  induction body with
  | nil => simp [Stmt.AllPlain]
  | cons stmt body ih => simp [Stmt.AllPlain, ih]

namespace Writer

/- All identifiers are made of the characters of words. -/
def HasWords
    (writer : Writer) : Prop :=
  ∀ index, ∀ c ∈ (writer.identifier index).toList,
    isWordChar c = true

variable {writer writer' : Writer}

theorem HasWords.ofSame
    (h : writer.HasWords)
    (hSame : SameTable writer' writer) :
    writer'.HasWords := by
  intro index
  rw [identifier, hSame.1, ← identifier]
  exact h index

mutual

/- The code of a node is plain. -/
theorem plain_express :
    ∀ (node : Node) (writer : Writer),
      writer.HasWords →
      (∀ test ∈ node.tests, test ≠ .oneOf []) →
      (writer.express node).1.Plain
  | .empty, _, _, _ => trivial
  | .terminal test, _, _, hTests => by
      have hTest := hTests test List.mem_cons_self
      cases test with
      | never => trivial
      | eq b => exact hTest
      | oneOf bs => exact hTest
      | mask low high => exact hTest
  | .call routine forward, writer, hWords, _ =>
      hWords routine
  | .sequence parts, writer, hWords, hTests => by
      have hParts :=
        plain_expressAll parts writer hWords hTests
      simp only [express, sequence, label, Expr.Plain,
        Stmt.allPlain_iff, List.forall_mem_cons,
        List.forall_mem_flatMap]
      have hKind : isWordChar 'c' = true := by decide
      refine ⟨hKind, ⟨trivial, ?_⟩, trivial⟩
      intro code hCode
      exact
        ⟨hParts code hCode, hKind, List.forall_mem_nil _⟩
  | .choice parts, writer, hWords, hTests => by
      have hParts :=
        plain_expressAll parts writer hWords hTests
      simp only [express, choice, label, Expr.Plain,
        Stmt.allPlain_iff, List.forall_mem_flatMap]
      have hKind : isWordChar 'a' = true := by decide
      refine
        ⟨hKind, ?_, forall_getLastD trivial hParts⟩
      intro code hCode
      rw [List.forall_mem_cons, List.forall_mem_cons]
      exact
        ⟨hParts code (List.mem_of_mem_dropLast hCode),
          hKind, List.forall_mem_nil _⟩
  | .iterate min max body, writer, hWords, hTests => by
      have hBody := plain_express body writer hWords hTests
      simp only [express, iterate, label, Expr.Plain,
        Stmt.allPlain_iff, List.forall_mem_append,
        List.forall_mem_cons]
      have hOuter : isWordChar 'r' = true := by decide
      have hInner : isWordChar 'l' = true := by decide
      have hLoop :
          ∀ number min counted,
            Stmt.Plain
              (.loop ⟨'l', number⟩ max
                [.letNext (writer.express body).1,
                 .takeCopy ⟨'l', number⟩ min counted]) := by
        intro number min counted
        exact ⟨hInner, hBody, hInner, trivial⟩
      refine
        ⟨hOuter, ⟨⟨⟨⟨trivial, List.forall_mem_nil _⟩, ?_⟩,
          hLoop _ _ _, List.forall_mem_nil _⟩, ?_⟩,
          trivial⟩
      · split
        · exact List.forall_mem_singleton.mpr trivial
        · exact List.forall_mem_nil _
      · split
        · exact List.forall_mem_singleton.mpr hOuter
        · exact List.forall_mem_nil _

/- The same for some nodes. -/
theorem plain_expressAll :
    ∀ (nodes : List Node) (writer : Writer),
      writer.HasWords →
      (∀ test ∈ Node.testsOfAll nodes, test ≠ .oneOf []) →
      ∀ code ∈ (writer.expressAll nodes).1, code.Plain
  | [], _, _, _, _, hNone => nomatch hNone
  | node :: nodes, writer, hWords, hTests, code, hCode => by
      rw [Node.testsOfAll, List.forall_mem_append] at hTests
      rcases List.mem_cons.mp hCode with rfl | hRest
      · exact plain_express node writer hWords hTests.1
      · exact
          plain_expressAll nodes (writer.express node).2
            (hWords.ofSame (sameTable_express writer node))
            hTests.2 code hRest

end

end Writer

end Source

end Abnf
