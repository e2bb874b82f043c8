import Abnf.Proofs.PublicRules
import Abnf.Proofs.Reachability

/-
  The table of routines is closed.

  The table holds the rules of the grammar and, behind them,
  the core rules that these reach and do not hide. Whatever
  name stands in a rule of the table, the call made of it
  goes to the routine of that name, which holds the rule
  that the name stands for; reports are passed on between
  public routines only. So lowering never meets a name
  without a routine, and a run never calls an index that the
  table does not have.

  Key definitions include:
    * `Abnf.Element.Links`
    * `Abnf.Routine.Answers`

  Main declarations:
    * `Abnf.Element.links_of_lower`
    * `Abnf.Entry.exists_needed`
    * `Abnf.Scope.invoke_ne_noRoutine`
    * `Abnf.Routine.exists_closed_table`
-/

------------------------------------------------------------
-- Elements And Their Nodes
------------------------------------------------------------

namespace Abnf

/-
  A node has the form of an element, and its calls are made
  of the names of the element. `link` says which calls may
  be made of a name.
-/
inductive Element.Links
    (link : String → Nat → Bool → Prop) :
    Element → Node → Prop
  | ruleName
      {name : String} {target : Nat} {forward : Bool} :
      link name target forward →
      Links link (.ruleName name) (.call target forward)
  | nothing {s : CharSet} :
      s.isEmpty = true →
      Links link (.terminal s) .empty
  | terminal {s : CharSet} :
      s.isEmpty = false →
      Links link (.terminal s) (.terminal s.test)
  | repetition
      {min : Nat} {max : Option Nat} {body : Element}
      {node : Node} :
      Links link body node →
      Links link (.repetition min max body)
        (.iterate min max node)
  | concatenation
      {parts : List Element} {nodes : List Node} :
      nodes.length = parts.length →
      (∀ pair ∈ parts.zip nodes, Links link pair.1 pair.2) →
      Links link (.concatenation parts) (.sequence nodes)
  | alternation
      {parts : List Element} {nodes : List Node} :
      nodes.length = parts.length →
      (∀ pair ∈ parts.zip nodes, Links link pair.1 pair.2) →
      Links link (.alternation parts) (.choice nodes)

namespace Element

variable {table : List Declaration}
variable {caller : Declaration}
variable {link : String → Nat → Bool → Prop}

mutual

/- The node of an element has the calls that `callOf` makes. -/
theorem links_of_lower
    (hCall :
      ∀ name node,
        Declaration.callOf table caller name = .ok node →
        ∃ target forward,
          node = .call target forward ∧
          link name target forward) :
    ∀ (element : Element) (node : Node),
      element.lower table caller = .ok node →
      element.Links link node
  | .ruleName name, node, h => by
      rw [lower] at h
      rcases hCall name node h with
        ⟨target, forward, rfl, hLink⟩
      exact .ruleName hLink
  | .terminal s, node, h => by
      rw [lower] at h
      cases h
      cases hEmpty : s.isEmpty with
      | true => exact .nothing hEmpty
      | false => exact .terminal hEmpty
  | .repetition min max body, node, h => by
      rw [lower, bind_eq_ok_iff] at h
      rcases h with ⟨inner, hInner, h⟩
      cases h
      exact
        .repetition (links_of_lower hCall body inner hInner)
  | .concatenation parts, node, h => by
      rw [lower, bind_eq_ok_iff] at h
      rcases h with ⟨nodes, hNodes, h⟩
      cases h
      have hLinks :=
        links_of_lowerAll hCall parts nodes hNodes
      exact .concatenation hLinks.1 hLinks.2
  | .alternation parts, node, h => by
      rw [lower, bind_eq_ok_iff] at h
      rcases h with ⟨nodes, hNodes, h⟩
      cases h
      have hLinks :=
        links_of_lowerAll hCall parts nodes hNodes
      exact .alternation hLinks.1 hLinks.2

/- The same for the nodes of some elements. -/
theorem links_of_lowerAll
    (hCall :
      ∀ name node,
        Declaration.callOf table caller name = .ok node →
        ∃ target forward,
          node = .call target forward ∧
          link name target forward) :
    ∀ (parts : List Element) (nodes : List Node),
      lowerAll table caller parts = .ok nodes →
      nodes.length = parts.length ∧
        ∀ pair ∈ parts.zip nodes, pair.1.Links link pair.2
  | [], nodes, h => by
      rw [lowerAll] at h
      cases h
      exact ⟨rfl, fun _ hNone => nomatch hNone⟩
  | part :: parts, nodes, h => by
      rw [lowerAll, bind_eq_ok_iff] at h
      rcases h with ⟨first, hFirst, h⟩
      rw [bind_eq_ok_iff] at h
      rcases h with ⟨rest, hRest, h⟩
      cases h
      have hPart := links_of_lower hCall part first hFirst
      have hParts :=
        links_of_lowerAll hCall parts rest hRest
      refine ⟨congrArg (· + 1) hParts.1, ?_⟩
      rw [List.zip_cons_cons, List.forall_mem_cons]
      exact ⟨hPart, hParts.2⟩

end

end Element

end Abnf

------------------------------------------------------------
-- The Entries Of A Table
------------------------------------------------------------

namespace Abnf

namespace Entry

variable {rewrite : Rule → Rule}
variable {rules : List Rule}

/-
  What is chosen: the rules in their order, then core rules
  in their order, those that are reached and not hidden.
-/
theorem exists_needed
    (hRewrite : Rule.IsRewrite rewrite) :
    ∃ needed : List Rule,
      chosen rewrite rules =
        (rules.map rewrite).map (⟨·, true⟩) ++
          needed.map (⟨·, false⟩) ∧
      needed.Sublist (coreRules.map rewrite) ∧
      ∀ rule,
        rule ∈ needed ↔
          rule ∈ coreRules.map rewrite ∧
          ((Scope.ofRules rules).map rewrite).Reaches
            (rules.map rewrite) rule.name ∧
          rule.name ∉ rules.map (·.name) := by
  refine ⟨_, rfl, List.filter_sublist, ?_⟩
  intro rule
  rw [List.mem_filter, Bool.and_eq_true]
  change
    rule ∈ coreRules.map rewrite ∧
        Scope.met
          (((Scope.ofRules rules).map rewrite).reached
            (rules.map rewrite)) rule.name = true ∧ _ ↔ _
  rw [Scope.met_reached_iff]
  have hHidden :
      Scope.hasName (rules.map rewrite) rule.name = true ↔
        rule.name ∈ rules.map (·.name) := by
    rw [Scope.hasName_map hRewrite.name, Scope.hasName_iff,
      List.mem_map]
  have hCore :
      rule ∈ coreRules.map rewrite →
        Scope.hasName (coreRules.map rewrite) rule.name =
          true :=
    fun hRule => Scope.hasName_iff.mpr ⟨rule, hRule, rfl⟩
  simp only [Scope.keepsCore, Scope.map, Scope.ofRules,
    Bool.and_eq_true, Bool.not_eq_true', ← hHidden,
    Bool.not_eq_true]
  constructor
  · rintro ⟨hRule, hReached, _, hShown⟩
    exact ⟨hRule, hReached, hShown⟩
  · rintro ⟨hRule, hReached, hShown⟩
    exact ⟨hRule, hReached, hCore hRule, hShown⟩

/- Selected entries are those chosen of accepted rules. -/
theorem select_eq_ok_iff
    (hRewrite : Rule.IsRewrite rewrite)
    {entries : List Entry} :
    select rewrite rules = .ok entries ↔
      accept rules = .ok () ∧
        entries = chosen rewrite rules := by
  rw [select_eq hRewrite, bind_eq_ok_iff]
  constructor
  · rintro ⟨_, hAccept, h⟩
    cases h
    exact ⟨hAccept, rfl⟩
  · rintro ⟨hAccept, rfl⟩
    exact ⟨(), hAccept, rfl⟩

end Entry

end Abnf

------------------------------------------------------------
-- Calls Of A Table
------------------------------------------------------------

namespace Abnf

namespace Routine

/-
  A call to an index is right for a name in a routine: the
  routine there has the name, it holds the rule that the
  name stands for, and it is heard between public routines.
-/
def Answers
    (scope : Scope)
    (routines : List Routine)
    (caller : Routine)
    (name : String)
    (target : Nat)
    (forward : Bool) : Prop :=
  ∃ callee, routines[target]? = some callee ∧
    callee.rule.name = name ∧
    scope.find? name = some callee.rule ∧
    forward = (caller.isPublic && callee.isPublic)

variable {scope : Scope}
variable {entries : List Entry}
variable {routines : List Routine}

/- The routine of an entry holds its rule and its node. -/
theorem exists_routine
    (hRoutines : ofEntries entries = .ok routines)
    {index : Nat}
    {entry : Entry}
    (hEntry : entries[index]? = some entry) :
    ∃ body,
      routines[index]? =
        some ⟨entry.rule, entry.isPublic, body⟩ ∧
      entry.rule.element.lower
          (entries.map (·.declaration))
          entry.declaration =
        .ok body := by
  rcases exists_getElem?_of_mapM_eq_ok hRoutines hEntry with
    ⟨routine, hRoutine, hOf⟩
  rw [ofEntry, bind_eq_ok_iff] at hOf
  rcases hOf with ⟨body, hBody, hOf⟩
  cases hOf
  exact ⟨body, hRoutine, hBody⟩

theorem map_entry_ofEntries
    (hRoutines : ofEntries entries = .ok routines) :
    routines.map (fun r => Entry.mk r.rule r.isPublic) =
      entries := by
  apply List.ext_getElem?
  intro index
  rw [List.getElem?_map]
  cases hEntry : entries[index]? with
  | some entry =>
      rcases exists_routine hRoutines hEntry with
        ⟨body, hRoutine, _⟩
      rw [hRoutine]
      rfl
  | none =>
      have hLength := length_of_mapM_eq_ok hRoutines
      rw [List.getElem?_eq_none_iff] at hEntry
      rw [List.getElem?_eq_none (by omega)]
      rfl

/- Every call in a table is right for the name it is for. -/
theorem links_of_mem
    (hTable : Entry.IsTable scope entries)
    (hRoutines : ofEntries entries = .ok routines)
    {routine : Routine}
    (hRoutine : routine ∈ routines) :
    routine.rule.element.Links
      (Answers scope routines routine) routine.body := by
  rcases List.mem_iff_getElem?.mp hRoutine with
    ⟨index, hIndex⟩
  have hMap := map_entry_ofEntries hRoutines
  have hEntry :
      entries[index]? =
        some ⟨routine.rule, routine.isPublic⟩ := by
    rw [← hMap, List.getElem?_map, hIndex]
    rfl
  rcases exists_routine hRoutines hEntry with
    ⟨body, hSame, hLower⟩
  rw [hIndex] at hSame
  have hBody : routine.body = body :=
    congrArg Routine.body (Option.some.inj hSame)
  rw [hBody]
  apply Element.links_of_lower _ _ _ hLower
  intro name node hCall
  unfold Declaration.callOf at hCall
  split at hCall
  · rename_i target hTarget
    cases hCall
    rcases Declaration.exists_entry_of_index? hTarget with
      ⟨entry, hFound, rfl⟩
    rcases exists_routine hRoutines hFound with
      ⟨code, hCallee, _⟩
    refine ⟨target, _, rfl, _, hCallee, rfl, ?_, ?_⟩
    · exact
        hTable.resolves entry (List.mem_of_getElem? hFound)
    · simp [hFound, Entry.declaration]
  · cases hCall

end Routine

end Abnf

------------------------------------------------------------
-- Calls Within The Table
------------------------------------------------------------

namespace Abnf

namespace Run

/- Runs that find their routines make runs that do. -/
theorem found_congruence
    (size : Nat) :
    Congruence size
      (fun _ run _ =>
        ∀ index, run.outcome ≠ .noRoutine index) where
  stay _ _ h := by cases h
  fail _ _ h := by cases h
  advance _ _ _ h := by cases h
  exhaust _ _ h := by cases h
  resume := by
    intro _ run _ onMatch _ onFailure _
      hRun hMatch hFailure index h
    cases hOutcome : run.outcome with
    | matched stop =>
        rw [resume_of_matched hOutcome] at h
        exact hMatch stop hOutcome index h
    | failed =>
        rw [resume_of_failed hOutcome] at h
        exact hFailure index h
    | noRoutine missing => exact hRun missing hOutcome
    | tooDeep => simp [resume, hOutcome] at h

end Run

/-
  In a set of names that stand for rules whose names are in
  the set, no run misses a rule, at any depth.
-/
theorem Scope.invoke_ne_noRoutine
    {scope : Scope}
    {holds : String → Prop}
    (hClosed :
      ∀ name, holds name → ∃ rule,
        scope.find? name = some rule ∧
        ∀ name' ∈ rule.element.names, holds name')
    (input : Array UInt8)
    (depth : Nat)
    {name : String}
    (hName : holds name)
    (start missing : Nat) :
    (scope.invoke input depth name start).outcome ≠
      .noRoutine missing := by
  induction depth generalizing name start missing with
  | zero =>
      intro h
      cases h
  | succ depth ih =>
      rcases hClosed name hName with ⟨rule, hRule, hNames⟩
      rw [invoke_succ hRule, outcome_report]
      exact
        @Element.run_congruence input _
          (scope.invoke input depth)
          (scope.invoke input depth)
          (Run.found_congruence input.size)
          rule.element start
          (fun other hOther i => ih (hNames other hOther) i)
          missing

end Abnf

------------------------------------------------------------
-- The Table Of A Grammar
------------------------------------------------------------

namespace Abnf

namespace Routine

/-
  References that are defined in the rules as given stay
  defined in simplified rules. What is selected of rules are
  the public rules and the core rules that they need, and
  these make a table: its calls are right for their names,
  and its runs stay in it.
-/
theorem exists_closed_table
    (rules : List Rule) :
    (∀ names,
      (Scope.ofRules rules).references rules = .ok names →
      ∃ names',
        ((Scope.ofRules rules).map
          Rule.normalize).references
            (rules.map Rule.normalize) = .ok names') ∧
    ∀ entries,
      Entry.select Rule.normalize rules = .ok entries →
      (∃ needed : List Rule,
        entries =
          (rules.map Rule.normalize).map (⟨·, true⟩) ++
            needed.map (⟨·, false⟩) ∧
        needed.Sublist (coreRules.map Rule.normalize) ∧
        ∀ rule,
          rule ∈ needed ↔
            rule ∈ coreRules.map Rule.normalize ∧
            ((Scope.ofRules rules).map
              Rule.normalize).Reaches
                (rules.map Rule.normalize) rule.name ∧
            rule.name ∉ rules.map (·.name)) ∧
      ∃ routines,
        ofEntries entries = .ok routines ∧
        Program.ofRules rules =
          .ok (Program.ofRoutines routines) ∧
        routines.map (fun r => Entry.mk r.rule r.isPublic) =
          entries ∧
        (∀ routine ∈ routines,
          routine.rule.element.Links
            (Answers
              ((Scope.ofRules rules).map Rule.normalize)
              routines routine)
            routine.body) ∧
        ∀ input depth index start missing,
          index < routines.length →
          ((Program.ofRoutines routines).invoke input
            depth index start).outcome ≠
              .noRoutine missing := by
  have hRewrite := Rule.isRewrite_normalize
  constructor
  · intro names hNames
    exact ⟨_, Scope.references_map hRewrite hNames⟩
  · intro entries hSelect
    rcases (Entry.select_eq_ok_iff hRewrite).mp hSelect with
      ⟨hAccept, rfl⟩
    refine ⟨Entry.exists_needed hRewrite, ?_⟩
    have hTable := Entry.isTable_chosen hRewrite hAccept
    rcases Program.ofRulesWith_eq hRewrite rules with
      ⟨cause, hError, _⟩ |
      ⟨routines, _, hRoutines, hProgram⟩
    · rw [hAccept] at hError
      cases hError
    refine
      ⟨routines, hRoutines, hProgram,
        map_entry_ofEntries hRoutines,
        fun _ hRoutine =>
          links_of_mem hTable hRoutines hRoutine,
        ?_⟩
    intro input depth index start missing hIndex
    rw [length_of_mapM_eq_ok hRoutines] at hIndex
    rw [Program.invoke_ofRoutines hTable hRoutines input
      depth index _ start (List.getElem?_eq_getElem hIndex)]
    apply
      @Scope.invoke_ne_noRoutine _
        (fun name =>
          ∃ target ∈ Entry.chosen Rule.normalize rules,
            target.rule.name = name)
    · rintro _ ⟨target, hTarget, rfl⟩
      refine
        ⟨target.rule, hTable.resolves target hTarget, ?_⟩
      intro name hName
      exact
        Entry.exists_chosen_of_mem_names hRewrite hAccept
          hTarget hName
    · exact ⟨_, List.getElem_mem hIndex, rfl⟩

/-
  Blanks that hide those of the core, to which a core rule
  comes back, and a reference that is simplified away.
-/
def hiddenBlanks : List Rule :=
  [⟨"text",
    .concatenation
      [.ruleName "LWSP",
       .repetition 0 (some 0) (.ruleName "HEXDIG")]⟩,
   ⟨"WSP", .chars " "⟩]

/- Both conditions of the theorem hold of these rules. -/
theorem exists_closed_table_hiddenBlanks :
    ∃ names names' entries routines,
      (Scope.ofRules hiddenBlanks).references
          hiddenBlanks =
        .ok names ∧
      ((Scope.ofRules hiddenBlanks).map
          Rule.normalize).references
            (hiddenBlanks.map Rule.normalize) =
        .ok names' ∧
      Entry.select Rule.normalize hiddenBlanks =
        .ok entries ∧
      routines.map (fun r => Entry.mk r.rule r.isPublic) =
        entries ∧
      routines.map (·.declaration) =
        [⟨"text", true⟩, ⟨"WSP", true⟩, ⟨"CR", false⟩,
         ⟨"CRLF", false⟩, ⟨"LF", false⟩, ⟨"LWSP", false⟩] ∧
      (∀ routine ∈ routines,
        routine.rule.element.Links
          (Answers
            ((Scope.ofRules hiddenBlanks).map
              Rule.normalize)
            routines routine)
          routine.body) ∧
      0 < routines.length ∧
      ((Program.ofRoutines routines).invoke #[32]
        9 0 0).outcome ≠ .noRoutine 0 := by
  have hDefined :
      ((Scope.ofRules hiddenBlanks).references
        hiddenBlanks).toOption.isSome = true := by
    decide +kernel
  have hSelected :
      (Entry.select Rule.normalize
          hiddenBlanks).toOption.map
          (·.map (·.declaration)) =
        some
          [⟨"text", true⟩, ⟨"WSP", true⟩, ⟨"CR", false⟩,
           ⟨"CRLF", false⟩, ⟨"LF", false⟩,
           ⟨"LWSP", false⟩] := by
    decide +kernel
  cases hNames :
      (Scope.ofRules hiddenBlanks).references
        hiddenBlanks with
  | error cause =>
      rw [hNames] at hDefined
      cases hDefined
  | ok names =>
      cases hSelect :
          Entry.select Rule.normalize hiddenBlanks with
      | error cause =>
          rw [hSelect] at hSelected
          cases hSelected
      | ok entries =>
          rw [hSelect] at hSelected
          rcases
              (exists_closed_table hiddenBlanks).1
                names hNames with
            ⟨names', hNames'⟩
          rcases
              (exists_closed_table hiddenBlanks).2
                entries hSelect with
            ⟨_, routines, _, _, hEntries, hLinks, hFound⟩
          have hTable :
              routines.map (·.declaration) =
                entries.map (·.declaration) := by
            rw [← hEntries, List.map_map]
            rfl
          have hDeclared :
              entries.map (·.declaration) = _ :=
            Option.some.inj hSelected
          rw [hDeclared] at hTable
          have hLength :=
            congrArg List.length hTable
          rw [List.length_map] at hLength
          have hIndex : 0 < routines.length := by
            rw [hLength]
            decide
          exact
            ⟨names, names', entries, routines, rfl, hNames',
              rfl, hEntries, hTable, hLinks, hIndex,
              hFound #[32] 9 0 0 0 hIndex⟩

end Routine

end Abnf
