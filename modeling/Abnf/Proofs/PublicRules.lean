import Abnf.Proofs.Evaluation

/-
  The public routines of a program.

  Each rule of a grammar has a public routine of its name,
  which runs like the rule does by its name. A rewrite that
  keeps the runs of rules therefore gives programs that
  report the same; normalizing is such a rewrite.

  Main declarations:
    * `Abnf.Program.ruleNames_ofRoutines`
    * `Abnf.Program.exists_trace_eq_invoke`
    * `Abnf.Program.ofRulesWith_normalize_id`
-/

------------------------------------------------------------
-- Entry Points
------------------------------------------------------------

namespace Abnf

namespace Program

/- The last public routine of a name is one of that name. -/
theorem getElem?_of_lastPublic?
    {name : String}
    {procedures : List Procedure}
    {base index : Nat}
    (h : lastPublic? name base procedures = some index) :
    ∃ offset procedure,
      index = base + offset ∧
      procedures[offset]? = some procedure ∧
      procedure.isPublic = true ∧
      procedure.name = name := by
  induction procedures generalizing base with
  | nil => simp [lastPublic?] at h
  | cons first rest ih =>
      rw [lastPublic?] at h
      cases hLater : lastPublic? name (base + 1) rest with
      | some later =>
          rw [hLater] at h
          cases h
          rcases ih hLater with
            ⟨offset, procedure, hIndex, hGet, hRest⟩
          exact
            ⟨offset + 1, procedure, by omega, hGet, hRest⟩
      | none =>
          rw [hLater] at h
          dsimp only at h
          split at h
          · rename_i hFirst
            cases h
            simp only [Bool.and_eq_true, beq_iff_eq]
              at hFirst
            exact ⟨0, first, rfl, rfl, hFirst⟩
          · cases h

/- A public routine of a name is found. -/
theorem isSome_lastPublic?
    {name : String}
    {procedures : List Procedure}
    (base : Nat)
    {procedure : Procedure}
    (hMember : procedure ∈ procedures)
    (hPublic : procedure.isPublic = true)
    (hName : procedure.name = name) :
    (lastPublic? name base procedures).isSome = true := by
  induction procedures generalizing base with
  | nil => cases hMember
  | cons first rest ih =>
      rw [lastPublic?]
      cases hLater : lastPublic? name (base + 1) rest with
      | some later => rfl
      | none =>
          rcases List.mem_cons.mp hMember with rfl | hRest
          · simp [hPublic, hName]
          · have hFound := ih (base + 1) hRest
            rw [hLater] at hFound
            cases hFound

variable {rewrite : Rule → Rule}
variable {rules : List Rule}
variable {routines : List Routine}

/- The declared names of a table are those of its entries. -/
theorem map_declaration_ofRoutines
    {entries : List Entry}
    (hRoutines : Routine.ofEntries entries = .ok routines) :
    (ofRoutines routines).procedures.map
        (fun p => Declaration.mk p.name p.isPublic) =
      entries.map (·.declaration) := by
  apply List.ext_getElem?
  intro index
  have hLength := length_of_mapM_eq_ok hRoutines
  rw [List.getElem?_map, List.getElem?_map]
  cases hEntry : entries[index]? with
  | some entry =>
      rcases exists_procedure hRoutines hEntry with
        ⟨body, hProcedure, _⟩
      rw [hProcedure]
      rfl
  | none =>
      have hOut : entries.length ≤ index :=
        List.getElem?_eq_none_iff.mp hEntry
      have hNone :
          (ofRoutines routines).procedures[index]? =
            none := by
        apply List.getElem?_eq_none
        rw [ofRoutines, List.length_map, hLength]
        exact hOut
      rw [hNone]
      rfl

/- The public names of a program are those of the rules. -/
theorem ruleNames_ofRoutines
    (hRewrite : Rule.IsRewrite rewrite)
    (hRoutines :
      Routine.ofEntries (Entry.chosen rewrite rules) =
        .ok routines) :
    (ofRoutines routines).ruleNames =
      rules.map (·.name) := by
  have hNames :
      ∀ procedures : List Procedure,
        (procedures.filter (·.isPublic)).map (·.name) =
          ((procedures.map
            (fun p => Declaration.mk p.name p.isPublic)).filter
              (·.isPublic)).map (·.name) := by
    intro procedures
    simp [List.filter_map, Function.comp_def]
  have hPublic :
      ∀ rules : List Rule,
        ((rules.map (fun r => Entry.mk r true)).map
          (·.declaration)).filter (·.isPublic) =
            rules.map (fun r => ⟨r.name, true⟩) := by
    intro rules
    simp [Entry.declaration, Function.comp_def,
      List.filter_map]
  have hPrivate :
      ∀ rules : List Rule,
        ((rules.map (fun r => Entry.mk r false)).map
          (·.declaration)).filter (·.isPublic) = [] := by
    intro rules
    simp [Entry.declaration, Function.comp_def,
      List.filter_map]
  rw [ruleNames, hNames,
    map_declaration_ofRoutines hRoutines, Entry.chosen,
    List.map_append, List.filter_append, hPublic, hPrivate,
    List.append_nil]
  simp [Scope.map, Scope.ofRules, Function.comp_def,
    hRewrite.name]

/- A rule has a public routine that holds its entry. -/
theorem exists_entry?_of_mem
    (hRewrite : Rule.IsRewrite rewrite)
    (hRoutines :
      Routine.ofEntries (Entry.chosen rewrite rules) =
        .ok routines)
    {rule : Rule}
    (hRule : rule ∈ rules) :
    ∃ index entry,
      entry? (ofRoutines routines) rule.name =
        some index ∧
      (Entry.chosen rewrite rules)[index]? = some entry ∧
      entry.rule.name = rule.name := by
  have hEntry :
      Entry.mk (rewrite rule) true ∈
        Entry.chosen rewrite rules :=
    Entry.mem_chosen_iff.mpr
      (Or.inl ⟨rfl, List.mem_map_of_mem hRule⟩)
  rcases List.mem_iff_getElem?.mp hEntry with
    ⟨place, hPlace⟩
  rcases exists_procedure hRoutines hPlace with
    ⟨body, hProcedure, _⟩
  rcases Option.isSome_iff_exists.mp
      (isSome_lastPublic? 0 (List.mem_of_getElem? hProcedure)
        rfl (hRewrite.name rule)) with
    ⟨index, hIndex⟩
  rcases getElem?_of_lastPublic? hIndex with
    ⟨offset, procedure, hOffset, hGet, _, hName⟩
  rw [Nat.zero_add] at hOffset
  subst hOffset
  have hBound :
      index < (Entry.chosen rewrite rules).length := by
    have hLess := (List.getElem?_eq_some_iff.mp hGet).1
    rw [ofRoutines, List.length_map,
      length_of_mapM_eq_ok hRoutines] at hLess
    exact hLess
  have hFound :
      (Entry.chosen rewrite rules)[index]? =
        some (Entry.chosen rewrite rules)[index] :=
    List.getElem?_eq_getElem hBound
  refine
    ⟨index, (Entry.chosen rewrite rules)[index], hIndex,
      hFound, ?_⟩
  rcases exists_procedure hRoutines hFound with
    ⟨_, hSame, _⟩
  rw [hGet] at hSame
  cases hSame
  exact hName

/-
  The routine of a rule runs like the rule in the scope of
  the rules as given, if the rewrite keeps the runs. The run
  is settled, so the depth is of no account.
-/
theorem exists_trace_eq_invoke
    (hRewrite : Rule.IsRewrite rewrite)
    (hInvoke :
      ((Scope.ofRules rules).map rewrite).invoke =
        (Scope.ofRules rules).invoke)
    {program : Program}
    (hProgram : ofRulesWith rewrite rules = .ok program)
    {rule : Rule}
    (hRule : rule ∈ rules) :
    ∃ entry, program.entry? rule.name = some entry ∧
      ∀ input start, ∃ depth,
        program.trace entry input start =
            (Scope.ofRules rules).invoke input depth
              rule.name start ∧
          (program.trace entry input
            start).outcome.isSettled = true := by
  rcases exists_routines_of_ofRulesWith hRewrite
      hProgram with
    ⟨hAccept, routines, hRoutines, rfl⟩
  rcases exists_entry?_of_mem hRewrite hRoutines hRule with
    ⟨index, entry, hIndex, hEntry, hName⟩
  refine ⟨index, hIndex, ?_⟩
  intro input start
  refine
    ⟨(ofRoutines routines).depthLimit input start, ?_, ?_⟩
  · rw [trace,
      invoke_ofRoutines
        (Entry.isTable_chosen hRewrite hAccept) hRoutines
        input _ index entry start hEntry,
      hInvoke, hName]
  · apply trace_isSettled hRewrite hProgram
    rcases exists_procedure hRoutines hEntry with
      ⟨_, hProcedure, _⟩
    exact (List.getElem?_eq_some_iff.mp hProcedure).1

end Program

namespace Scope

/- Settled runs of a rule are equal, whatever the depths. -/
theorem invoke_eq_of_isSettled
    {scope : Scope}
    {input : Array UInt8}
    {depth depth' : Nat}
    {name : String}
    {start : Nat}
    (h :
      (scope.invoke input depth
        name start).outcome.isSettled = true)
    (h' :
      (scope.invoke input depth'
        name start).outcome.isSettled = true) :
    scope.invoke input depth name start =
      scope.invoke input depth' name start := by
  rcases Nat.le_total depth depth' with hLess | hMore
  · exact
      (scope.invoke_settles input hLess name start h).symm
  · exact scope.invoke_settles input hMore name start h'

end Scope

end Abnf

------------------------------------------------------------
-- Programs Before And After Normalizing
------------------------------------------------------------

namespace Abnf

namespace Program

/-
  Programs made by two rewrites that keep the runs report the
  same for each rule.
-/
theorem exists_trace_eq_trace
    {rewrite rewrite' : Rule → Rule}
    {rules : List Rule}
    {program program' : Program}
    (hRewrite : Rule.IsRewrite rewrite)
    (hInvoke :
      ((Scope.ofRules rules).map rewrite).invoke =
        (Scope.ofRules rules).invoke)
    (hProgram : ofRulesWith rewrite rules = .ok program)
    (hRewrite' : Rule.IsRewrite rewrite')
    (hInvoke' :
      ((Scope.ofRules rules).map rewrite').invoke =
        (Scope.ofRules rules).invoke)
    (hProgram' : ofRulesWith rewrite' rules = .ok program')
    {rule : Rule}
    (hRule : rule ∈ rules) :
    ∃ entry entry',
      program.entry? rule.name = some entry ∧
      program'.entry? rule.name = some entry' ∧
      ∀ input start,
        program.trace entry input start =
          program'.trace entry' input start := by
  rcases exists_trace_eq_invoke hRewrite hInvoke hProgram
      hRule with
    ⟨entry, hEntry, hTrace⟩
  rcases exists_trace_eq_invoke hRewrite' hInvoke'
      hProgram' hRule with
    ⟨entry', hEntry', hTrace'⟩
  refine ⟨entry, entry', hEntry, hEntry', ?_⟩
  intro input start
  rcases hTrace input start with ⟨depth, hRun, hSettled⟩
  rcases hTrace' input start with
    ⟨depth', hRun', hSettled'⟩
  rw [hRun] at hSettled ⊢
  rw [hRun'] at hSettled' ⊢
  exact Scope.invoke_eq_of_isSettled hSettled hSettled'

/-
  Normalizing rules changes nothing that can be seen of the
  programs made from them: there is the same error, or there
  are programs with the same public rules in the same order,
  which match and report the same on every text from every
  offset.
-/
theorem ofRulesWith_normalize_id
    (rules : List Rule) :
    (∃ cause,
      ofRulesWith Rule.normalize rules = .error cause ∧
      ofRulesWith id rules = .error cause) ∨
    (∃ normal plain,
      ofRulesWith Rule.normalize rules = .ok normal ∧
      ofRulesWith id rules = .ok plain ∧
      normal.ruleNames = plain.ruleNames ∧
      ∀ name ∈ normal.ruleNames, ∃ entry entry',
        normal.entry? name = some entry ∧
        plain.entry? name = some entry' ∧
        ∀ input start,
          normal.run entry input start =
              plain.run entry' input start ∧
            (normal.trace entry input start).events =
              (plain.trace entry' input start).events) := by
  have hNormal :=
    (Scope.ofRules rules).invoke_normalize
  have hPlain :
      ((Scope.ofRules rules).map id).invoke =
        (Scope.ofRules rules).invoke := by
    rw [Scope.map_id]
  rcases ofRulesWith_eq Rule.isRewrite_normalize rules with
    ⟨cause, hAccept, hError⟩ |
    ⟨routines, hAccept, hRoutines, hProgram⟩
  · rcases ofRulesWith_eq Rule.isRewrite_id rules with
      ⟨cause', hAccept', hError'⟩ | ⟨_, hAccept', _⟩
    · rw [hAccept] at hAccept'
      cases hAccept'
      exact Or.inl ⟨cause, hError, hError'⟩
    · rw [hAccept] at hAccept'
      cases hAccept'
  · rcases ofRulesWith_eq Rule.isRewrite_id rules with
      ⟨cause', hAccept', _⟩ |
      ⟨routines', _, hRoutines', hProgram'⟩
    · rw [hAccept] at hAccept'
      cases hAccept'
    · have hNames :=
        ruleNames_ofRoutines Rule.isRewrite_normalize
          hRoutines
      have hNames' :=
        ruleNames_ofRoutines Rule.isRewrite_id hRoutines'
      refine
        Or.inr
          ⟨_, _, hProgram, hProgram',
            hNames.trans hNames'.symm, ?_⟩
      intro name hName
      rw [hNames] at hName
      rcases List.mem_map.mp hName with ⟨rule, hRule, rfl⟩
      rcases exists_trace_eq_trace
          Rule.isRewrite_normalize hNormal hProgram
          Rule.isRewrite_id hPlain hProgram' hRule with
        ⟨entry, entry', hEntry, hEntry', hTrace⟩
      refine ⟨entry, entry', hEntry, hEntry', ?_⟩
      intro input start
      rw [run, run, hTrace input start]
      exact ⟨rfl, rfl⟩

end Program

end Abnf
