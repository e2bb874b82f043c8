import Abnf.Scope

/-
  What names stand for.

  The rule of a name is a rule of the scope with that name.
  Where no two rules of a grammar share a name, each rule of
  the grammar is what its name stands for. Rewriting the
  rules under their names rewrites what the names stand for.

  Main declarations:
    * `Abnf.Scope.mem_of_find?`
    * `Abnf.Scope.find?_of_mem_own`
    * `Abnf.Scope.find?_of_mem_core`
    * `Abnf.Scope.find?_map`
-/

------------------------------------------------------------
-- Last Rules Of A Name
------------------------------------------------------------

namespace Abnf

namespace Scope

theorem hasName_iff
    {rules : List Rule}
    {name : String} :
    hasName rules name = true ↔
      ∃ rule ∈ rules, rule.name = name := by
  simp [hasName]

/- The last rule of a name is a rule of that name. -/
theorem mem_of_lastNamed?
    {rules : List Rule}
    {name : String}
    {rule : Rule}
    (h : lastNamed? rules name = some rule) :
    rule ∈ rules ∧ rule.name = name := by
  have hMember := List.mem_of_getLast? h
  simpa using hMember

theorem lastNamed?_eq_none_iff
    {rules : List Rule}
    {name : String} :
    lastNamed? rules name = none ↔
      hasName rules name = false := by
  rw [lastNamed?, List.getLast?_eq_none_iff,
    List.filter_eq_nil_iff]
  simp [hasName]

theorem lastNamed?_cons
    (first : Rule)
    (rest : List Rule)
    (name : String) :
    lastNamed? (first :: rest) name =
      match lastNamed? rest name with
      | some last => some last
      | none =>
          if first.name = name then some first else none := by
  unfold lastNamed?
  rw [List.filter_cons]
  by_cases hName : first.name = name
  · cases hLast :
        (rest.filter (·.name == name)).getLast? with
    | some last => simp [hName, List.getLast?_cons, hLast]
    | none => simp [hName, List.getLast?_cons, hLast]
  · cases hLast :
        (rest.filter (·.name == name)).getLast? with
    | some last => simp [hName, hLast]
    | none => simp [hName, hLast]

/- Rules of one name are one rule if no name is repeated. -/
theorem eq_of_name_eq
    {rules : List Rule}
    (hNodup : (rules.map (·.name)).Nodup)
    {rule rule' : Rule}
    (hRule : rule ∈ rules)
    (hRule' : rule' ∈ rules)
    (hName : rule.name = rule'.name) :
    rule = rule' := by
  induction rules with
  | nil => cases hRule
  | cons first rest ih =>
      rw [List.map_cons, List.nodup_cons] at hNodup
      rcases List.mem_cons.mp hRule with rfl | hTail
      · rcases List.mem_cons.mp hRule' with rfl | hTail'
        · rfl
        · exact absurd
            (hName ▸ List.mem_map_of_mem hTail')
            hNodup.1
      · rcases List.mem_cons.mp hRule' with rfl | hTail'
        · exact absurd
            (hName ▸ List.mem_map_of_mem hTail)
            hNodup.1
        · exact ih hNodup.2 hTail hTail'

theorem lastNamed?_of_mem
    {rules : List Rule}
    (hNodup : (rules.map (·.name)).Nodup)
    {rule : Rule}
    (hRule : rule ∈ rules) :
    lastNamed? rules rule.name = some rule := by
  cases hLast : lastNamed? rules rule.name with
  | none =>
      have hName : hasName rules rule.name = true :=
        hasName_iff.mpr ⟨rule, hRule, rfl⟩
      rw [lastNamed?_eq_none_iff.mp hLast] at hName
      cases hName
  | some last =>
      have hLastMember := mem_of_lastNamed? hLast
      rw [eq_of_name_eq hNodup hLastMember.1 hRule
        hLastMember.2]

end Scope

end Abnf

------------------------------------------------------------
-- Rules Of Names
------------------------------------------------------------

namespace Abnf

namespace Scope

variable {scope : Scope}
variable {name : String}
variable {rule : Rule}

/- What a name stands for is a rule of that name. -/
theorem mem_of_find?
    (h : scope.find? name = some rule) :
    rule ∈ scope.own ++ scope.core ∧ rule.name = name := by
  unfold find? at h
  cases hOwn : lastNamed? scope.own name with
  | some first =>
      rw [hOwn] at h
      cases h
      have hMember := mem_of_lastNamed? hOwn
      exact ⟨List.mem_append_left _ hMember.1, hMember.2⟩
  | none =>
      rw [hOwn] at h
      have hMember := mem_of_lastNamed? h
      exact ⟨List.mem_append_right _ hMember.1, hMember.2⟩

/- A rule of the grammar is what its name stands for. -/
theorem find?_of_mem_own
    (hNodup : (scope.own.map (·.name)).Nodup)
    (hRule : rule ∈ scope.own) :
    scope.find? rule.name = some rule := by
  rw [find?, lastNamed?_of_mem hNodup hRule]

/-
  A core rule is what its name stands for if the grammar
  does not hide it.
-/
theorem find?_of_mem_core
    (hNodup : (scope.core.map (·.name)).Nodup)
    (hRule : rule ∈ scope.core)
    (hVisible : hasName scope.own rule.name = false) :
    scope.find? rule.name = some rule := by
  rw [find?, lastNamed?_eq_none_iff.mpr hVisible]
  exact lastNamed?_of_mem hNodup hRule

/- A visible name that stands for a rule has a core rule. -/
theorem mem_core_of_find?
    (h : scope.find? name = some rule)
    (hVisible : hasName scope.own name = false) :
    rule ∈ scope.core := by
  rw [find?, lastNamed?_eq_none_iff.mpr hVisible] at h
  exact (mem_of_lastNamed? h).1

/- A name of the grammar stands for a rule of the grammar. -/
theorem mem_own_of_find?
    (h : scope.find? name = some rule)
    (hOwn : hasName scope.own name = true) :
    rule ∈ scope.own := by
  cases hLast : lastNamed? scope.own name with
  | none =>
      rw [lastNamed?_eq_none_iff.mp hLast] at hOwn
      cases hOwn
  | some last =>
      rw [find?, hLast] at h
      cases h
      exact (mem_of_lastNamed? hLast).1

end Scope

end Abnf

------------------------------------------------------------
-- Rewritten Rules
------------------------------------------------------------

namespace Abnf

namespace Scope

/- The scope with every rule rewritten. -/
def map
    (rewrite : Rule → Rule)
    (scope : Scope) : Scope :=
  ⟨scope.own.map rewrite, scope.core.map rewrite⟩

theorem map_id
    (scope : Scope) : scope.map id = scope := by
  simp [map]

variable {rewrite : Rule → Rule}

theorem hasName_map
    (hName : ∀ rule, (rewrite rule).name = rule.name)
    (rules : List Rule)
    (name : String) :
    hasName (rules.map rewrite) name =
      hasName rules name := by
  simp [hasName, List.any_map, Function.comp_def, hName]

theorem lastNamed?_map
    (hName : ∀ rule, (rewrite rule).name = rule.name)
    (rules : List Rule)
    (name : String) :
    lastNamed? (rules.map rewrite) name =
      (lastNamed? rules name).map rewrite := by
  simp [lastNamed?, List.filter_map, Function.comp_def,
    hName, List.getLast?_map]

/- Names stand for the rewritten rules. -/
theorem find?_map
    (hName : ∀ rule, (rewrite rule).name = rule.name)
    (scope : Scope)
    (name : String) :
    (scope.map rewrite).find? name =
      (scope.find? name).map rewrite := by
  unfold find?
  simp only [map, lastNamed?_map hName]
  cases lastNamed? scope.own name <;> rfl

theorem lastOfNames_map
    (hName : ∀ rule, (rewrite rule).name = rule.name)
    (rules : List Rule) :
    lastOfNames (rules.map rewrite) =
      (lastOfNames rules).map rewrite := by
  induction rules with
  | nil => rfl
  | cons rule rest ih =>
      rw [List.map_cons, lastOfNames, lastOfNames,
        hasName_map hName, hName, ih]
      split <;> simp

theorem keepsCore_map
    (hName : ∀ rule, (rewrite rule).name = rule.name)
    (scope : Scope)
    (rule : Rule) :
    (scope.map rewrite).keepsCore (rewrite rule) =
      scope.keepsCore rule := by
  simp [keepsCore, map, hasName_map hName, hName]

/- The rules in use are the rewritten rules in use. -/
theorem rules_map
    (hName : ∀ rule, (rewrite rule).name = rule.name)
    (scope : Scope) :
    (scope.map rewrite).rules =
      scope.rules.map rewrite := by
  have hKeeps :
      (scope.map rewrite).keepsCore ∘ rewrite =
        scope.keepsCore := by
    funext rule
    exact keepsCore_map hName scope rule
  rw [rules, rules, List.map_append]
  simp only [map, lastOfNames_map hName, List.filter_map]
  simp only [map] at hKeeps
  rw [hKeeps]

end Scope

end Abnf
