import Abnf.Proofs.ByteTest
import Abnf.Proofs.ElementRun

/-
  Nodes run like the elements they are made from.

  `Scope.invoke` runs rules by name, straight from their
  elements. The routines of a table run in the same way:
  indices stand for the names, tests for the sets, and what
  a call passes on or keeps quiet makes no difference to
  what is reported in the end.

  Key definitions include:
    * `Abnf.Scope.invoke`
    * `Abnf.Entry.IsTable`

  Main declarations:
    * `Abnf.Element.run_lower`
    * `Abnf.Program.invoke_ofRoutines`
-/

------------------------------------------------------------
-- Results
------------------------------------------------------------

namespace Abnf

variable {ε α β : Type}

/- Two steps give a result when each of them does. -/
theorem bind_eq_ok_iff
    {first : Except ε α}
    {second : α → Except ε β}
    {b : β} :
    (first >>= second) = .ok b ↔
      ∃ a, first = .ok a ∧ second a = .ok b := by
  cases first with
  | error cause => simp [bind, Except.bind]
  | ok a => simp [bind, Except.bind]

/- The results for the members of a list, place by place. -/
theorem exists_getElem?_of_mapM_eq_ok
    {f : α → Except ε β}
    {as : List α}
    {bs : List β}
    (h : as.mapM f = .ok bs)
    {index : Nat}
    {a : α}
    (hIndex : as[index]? = some a) :
    ∃ b, bs[index]? = some b ∧ f a = .ok b := by
  induction as generalizing bs index with
  | nil => simp at hIndex
  | cons first as ih =>
      rw [List.mapM_cons, bind_eq_ok_iff] at h
      rcases h with ⟨b, hHead, h⟩
      rw [bind_eq_ok_iff] at h
      rcases h with ⟨rest, hTail, h⟩
      cases h
      cases index with
      | zero =>
          cases hIndex
          exact ⟨b, rfl, hHead⟩
      | succ index => exact ih hTail hIndex

theorem length_of_mapM_eq_ok
    {f : α → Except ε β}
    {as : List α}
    {bs : List β}
    (h : as.mapM f = .ok bs) :
    bs.length = as.length := by
  induction as generalizing bs with
  | nil =>
      rw [List.mapM_nil] at h
      cases h
      rfl
  | cons a as ih =>
      rw [List.mapM_cons, bind_eq_ok_iff] at h
      rcases h with ⟨b, _, h⟩
      rw [bind_eq_ok_iff] at h
      rcases h with ⟨rest, hTail, h⟩
      cases h
      simp [ih hTail]

/- A list is mapped when each of its members is. -/
theorem exists_mapM_eq_ok
    {f : α → Except ε β}
    {as : List α}
    (h : ∀ a ∈ as, ∃ b, f a = .ok b) :
    ∃ bs, as.mapM f = .ok bs := by
  induction as with
  | nil => exact ⟨[], rfl⟩
  | cons a as ih =>
      rcases h a (by simp) with ⟨b, hHead⟩
      rcases ih (fun x hx => h x (by simp [hx])) with
        ⟨rest, hTail⟩
      refine ⟨b :: rest, ?_⟩
      rw [List.mapM_cons, bind_eq_ok_iff]
      refine ⟨b, hHead, ?_⟩
      rw [bind_eq_ok_iff]
      exact ⟨rest, hTail, rfl⟩

end Abnf

------------------------------------------------------------
-- Elements And Their Nodes
------------------------------------------------------------

namespace Abnf

namespace Element

variable {input : Array UInt8}
variable {table : List Declaration}
variable {caller : Declaration}
variable {routine : Nat → Nat → Run}
variable {callee : String → Nat → Run}

/- The node of a set runs like the set. -/
theorem run_lower_terminal
    (s : CharSet)
    (index : Nat) :
    (if s.isEmpty then Node.empty
      else Node.terminal s.test).run input routine index =
      .quiet (runSet input s index) := by
  by_cases hEmpty : s.isEmpty
  · simp [hEmpty, Node.run, runSet]
  · rw [if_neg hEmpty, runSet, if_neg hEmpty, Node.run,
      Node.runTerminal]
    cases input[index]? with
    | none => rfl
    | some b =>
        dsimp only
        rw [CharSet.accepts_test]

mutual

/-
  If calls run like the rules that they name, then the node
  of an element runs like the element.
-/
theorem run_lower
    (hCall :
      ∀ name node,
        Declaration.callOf table caller name = .ok node →
        ∀ index,
          node.run input routine index =
            callee name index) :
    ∀ (element : Element) (node : Node),
      element.lower table caller = .ok node →
      ∀ index,
        node.run input routine index =
          element.run input callee index
  | ruleName name, node, h, index => by
      rw [lower] at h
      rw [run]
      exact hCall name node h index
  | terminal s, node, h, index => by
      rw [lower] at h
      cases h
      rw [run]
      exact run_lower_terminal s index
  | repetition min max body, node, h, index => by
      rw [lower, bind_eq_ok_iff] at h
      rcases h with ⟨inner, hInner, h⟩
      cases h
      have hStep :
          (fun i => inner.run input routine i) =
            (fun i => body.run input callee i) := by
        funext i
        exact run_lower hCall body inner hInner i
      rw [Node.run, run, hStep]
  | concatenation parts, node, h, index => by
      rw [lower, bind_eq_ok_iff] at h
      rcases h with ⟨nodes, hNodes, h⟩
      cases h
      rw [Node.run, run]
      exact runSeries_lowerAll hCall parts nodes hNodes index
  | alternation parts, node, h, index => by
      rw [lower, bind_eq_ok_iff] at h
      rcases h with ⟨nodes, hNodes, h⟩
      cases h
      rw [Node.run, run]
      exact runFirst_lowerAll hCall parts nodes hNodes index

/- The same for elements one after the other. -/
theorem runSeries_lowerAll
    (hCall :
      ∀ name node,
        Declaration.callOf table caller name = .ok node →
        ∀ index,
          node.run input routine index =
            callee name index) :
    ∀ (parts : List Element) (nodes : List Node),
      lowerAll table caller parts = .ok nodes →
      ∀ index,
        Node.runSequence input routine nodes index =
          runSeries input callee parts index
  | [], nodes, h, index => by
      rw [lowerAll] at h
      cases h
      rw [Node.runSequence, runSeries]
  | part :: parts, nodes, h, index => by
      rw [lowerAll, bind_eq_ok_iff] at h
      rcases h with ⟨first, hFirst, h⟩
      rw [bind_eq_ok_iff] at h
      rcases h with ⟨rest, hRest, h⟩
      cases h
      have hNext :
          (fun next =>
              Node.runSequence input routine rest next) =
            (fun next =>
              runSeries input callee parts next) := by
        funext next
        exact
          runSeries_lowerAll hCall parts rest hRest next
      rw [Node.runSequence, runSeries, hNext,
        run_lower hCall part first hFirst index]

/- The same for the first element that matches. -/
theorem runFirst_lowerAll
    (hCall :
      ∀ name node,
        Declaration.callOf table caller name = .ok node →
        ∀ index,
          node.run input routine index =
            callee name index) :
    ∀ (parts : List Element) (nodes : List Node),
      lowerAll table caller parts = .ok nodes →
      ∀ index,
        Node.runChoice input routine nodes index =
          runFirst input callee parts index
  | [], nodes, h, index => by
      rw [lowerAll] at h
      cases h
      rw [Node.runChoice, runFirst]
  | part :: parts, nodes, h, index => by
      rw [lowerAll, bind_eq_ok_iff] at h
      rcases h with ⟨first, hFirst, h⟩
      rw [bind_eq_ok_iff] at h
      rcases h with ⟨rest, hRest, h⟩
      cases h
      rw [Node.runChoice, runFirst,
        run_lower hCall part first hFirst index,
        runFirst_lowerAll hCall parts rest hRest index]

end

end Element

end Abnf

------------------------------------------------------------
-- Rules By Name
------------------------------------------------------------

namespace Abnf

namespace Scope

/-
  What a rule shows of the run of its element: the rules of
  the grammar report it, the core rules are quiet.
-/
def report
    (scope : Scope)
    (name : String)
    (start : Nat)
    (run : Run) : Run :=
  if hasName scope.own name then
    run.reported name start
  else
    run.silent

/-
  The run of the rule of a name with at most `depth` rules
  open at once.
-/
def invoke
    (scope : Scope)
    (input : Array UInt8) :
    Nat → String → Nat → Run
  | 0, _, _ => .quiet .tooDeep
  | depth + 1, name, start =>
      match scope.find? name with
      | none => .quiet (.noRoutine 0)
      | some rule =>
          scope.report name start
            (rule.element.run input
              (invoke scope input depth) start)

@[simp] theorem outcome_report
    (scope : Scope)
    (name : String)
    (start : Nat)
    (run : Run) :
    (scope.report name start run).outcome =
      run.outcome := by
  unfold report
  split <;> rfl

/- A rule of a name runs its element. -/
theorem invoke_succ
    {scope : Scope}
    {name : String}
    {rule : Rule}
    (hRule : scope.find? name = some rule)
    (input : Array UInt8)
    (depth start : Nat) :
    scope.invoke input (depth + 1) name start =
      scope.report name start
        (rule.element.run input
          (scope.invoke input depth) start) := by
  simp [invoke, hRule]

/- Core rules are quiet. -/
theorem silent_invoke
    {scope : Scope}
    {name : String}
    (hCore : hasName scope.own name = false)
    (input : Array UInt8)
    (depth start : Nat) :
    (scope.invoke input depth name start).silent =
      scope.invoke input depth name start := by
  cases depth with
  | zero => rfl
  | succ depth =>
      cases hRule : scope.find? name with
      | none => simp [invoke, hRule, Run.silent]
      | some rule =>
          rw [invoke_succ hRule, report, hCore]
          rfl

/- The run of a rule stays in the text. -/
theorem invoke_staysIn
    (scope : Scope)
    (input : Array UInt8)
    (depth : Nat)
    (name : String)
    (start : Nat) :
    (scope.invoke input depth name start).StaysIn
      input.size start := by
  induction depth generalizing name start with
  | zero =>
      intro stop hStop
      simp [invoke] at hStop
  | succ depth ih =>
      cases hRule : scope.find? name with
      | none =>
          intro stop hStop
          simp [invoke, hRule] at hStop
      | some rule =>
          intro stop hStop
          rw [invoke_succ hRule, outcome_report] at hStop
          exact
            rule.element.run_staysIn ih start stop hStop

/- A greater depth keeps what is settled. -/
theorem invoke_settles
    (scope : Scope)
    (input : Array UInt8)
    {depth depth' : Nat}
    (hDepth : depth ≤ depth')
    (name : String)
    (start : Nat) :
    (scope.invoke input depth name start).Settles
      (scope.invoke input depth' name start) := by
  induction depth generalizing depth' name start with
  | zero =>
      intro hSettled
      simp [invoke, Outcome.isSettled] at hSettled
  | succ depth ih =>
      intro hSettled
      cases depth' with
      | zero => omega
      | succ depth' =>
          cases hRule : scope.find? name with
          | none => simp [invoke, hRule]
          | some rule =>
              rw [invoke_succ hRule, outcome_report]
                at hSettled
              have hSame :=
                rule.element.run_of_isSettled
                  (fun name start =>
                    ih (Nat.le_of_succ_le_succ hDepth)
                      name start)
                  start hSettled
              rw [invoke_succ hRule, invoke_succ hRule,
                hSame]

end Scope

end Abnf

------------------------------------------------------------
-- Tables
------------------------------------------------------------

namespace Abnf

namespace Entry

/-
  The entries of a table for a scope: each one holds the
  rule that its name stands for, and is public when the rule
  is one of the grammar.
-/
structure IsTable
    (scope : Scope)
    (entries : List Entry) : Prop where
  resolves :
    ∀ entry ∈ entries,
      scope.find? entry.rule.name = some entry.rule
  isPublic :
    ∀ entry ∈ entries,
      entry.isPublic =
        Scope.hasName scope.own entry.rule.name

end Entry

namespace Declaration

/- The index of a name leads to an entry of that name. -/
theorem exists_entry_of_index?
    {entries : List Entry}
    {name : String}
    {target : Nat}
    (h :
      index? (entries.map (·.declaration)) name =
        some target) :
    ∃ entry, entries[target]? = some entry ∧
      entry.rule.name = name := by
  rw [index?, List.findIdx?_map] at h
  rcases List.findIdx?_eq_some_iff_getElem.mp h with
    ⟨hTarget, hName, _⟩
  refine ⟨entries[target], ?_, ?_⟩
  · exact List.getElem?_eq_getElem hTarget
  · simpa [Entry.declaration] using hName

end Declaration

namespace Program

variable {scope : Scope}
variable {entries : List Entry}
variable {routines : List Routine}

/- The routine of an entry holds the entry's node. -/
theorem exists_procedure
    (hRoutines : Routine.ofEntries entries = .ok routines)
    {index : Nat}
    {entry : Entry}
    (hEntry : entries[index]? = some entry) :
    ∃ body,
      (ofRoutines routines).procedures[index]? =
          some ⟨entry.rule.name, entry.isPublic, body⟩ ∧
        entry.rule.element.lower
            (entries.map (·.declaration))
            entry.declaration =
          .ok body := by
  rcases exists_getElem?_of_mapM_eq_ok hRoutines
      hEntry with
    ⟨routine, hRoutine, hOf⟩
  rw [Routine.ofEntry, bind_eq_ok_iff] at hOf
  rcases hOf with ⟨body, hBody, hOf⟩
  cases hOf
  exact ⟨body, by simp [ofRoutines, hRoutine], hBody⟩

/-
  A call of a routine runs like the rule of the name, up to
  the reports of core rules, which are quiet anyway.
-/
theorem run_callOf
    (hTable : Entry.IsTable scope entries)
    {input : Array UInt8}
    {routine : Nat → Nat → Run}
    {depth : Nat}
    (hRoutine :
      ∀ index entry start,
        entries[index]? = some entry →
        routine index start =
          scope.invoke input depth entry.rule.name start)
    {caller : Declaration}
    {name : String}
    {node : Node}
    (hCall :
      Declaration.callOf (entries.map (·.declaration))
        caller name = .ok node)
    (index : Nat) :
    node.run input routine index =
      if caller.isPublic then
        scope.invoke input depth name index
      else
        (scope.invoke input depth name index).silent := by
  unfold Declaration.callOf at hCall
  split at hCall
  · rename_i target hTarget
    cases hCall
    rcases Declaration.exists_entry_of_index? hTarget with
      ⟨entry, hEntry, rfl⟩
    have hMember : entry ∈ entries :=
      List.mem_of_getElem? hEntry
    have hRun := hRoutine target entry index hEntry
    have hOpen :
        (entries.map (·.declaration))[target]?.any
            (·.isPublic) =
          Scope.hasName scope.own entry.rule.name := by
      simp [hEntry, Entry.declaration,
        hTable.isPublic entry hMember]
    rw [Node.run, hRun, hOpen]
    cases hCaller : caller.isPublic with
    | false => simp
    | true =>
        cases hPublic :
            Scope.hasName scope.own entry.rule.name with
        | true => simp
        | false =>
            simp [Scope.silent_invoke hPublic]
  · cases hCall

/-
  The routines of a table run like the rules that their
  names stand for.
-/
theorem invoke_ofRoutines
    (hTable : Entry.IsTable scope entries)
    (hRoutines : Routine.ofEntries entries = .ok routines)
    (input : Array UInt8)
    (depth index : Nat)
    (entry : Entry)
    (start : Nat)
    (hEntry : entries[index]? = some entry) :
    (ofRoutines routines).invoke input depth index start =
      scope.invoke input depth entry.rule.name start := by
  induction depth generalizing index entry start with
  | zero => rfl
  | succ depth ih =>
      rcases exists_procedure hRoutines hEntry with
        ⟨body, hProcedure, hLower⟩
      have hMember : entry ∈ entries :=
        List.mem_of_getElem? hEntry
      have hPublic := hTable.isPublic entry hMember
      have hBody :
          body.run input
              ((ofRoutines routines).invoke input depth)
              start =
            entry.rule.element.run input
              (fun name index =>
                if entry.isPublic then
                  scope.invoke input depth name index
                else
                  (scope.invoke input depth
                    name index).silent)
              start :=
        Element.run_lower
          (fun name node hCall =>
            run_callOf hTable ih hCall)
          entry.rule.element body hLower start
      rw [Scope.invoke_succ
          (hTable.resolves entry hMember),
        Scope.report, ← hPublic, invoke, hProcedure]
      dsimp only
      rw [hBody]
      cases entry.isPublic with
      | true => simp
      | false =>
          simp [Element.run_silent input
            (scope.invoke input depth)]

end Program

end Abnf
