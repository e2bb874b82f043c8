import Abnf.Proofs.GrammarAttempts
import Abnf.Proofs.Prediction

/-
  The first match of the rules for grammar texts.

  The rules for grammar texts are written for a matcher that
  commits. Most of them are predictable by the next byte.
  The others are those with blanks, which may run over line
  ends: what a derivation takes for the end of a rule and
  empty lines can be blanks in the rule for the matcher. In
  the end the matcher takes the whole text exactly when the
  rules, read as a context-free grammar, generate it.

  Key definitions include:
    * `Abnf.Grammar.Readings`
    * `Abnf.Grammar.Skips`
    * `Abnf.Grammar.Precedes`

  Main declarations:
    * `Abnf.Grammar.exists_matcher`
    * `Abnf.Grammar.exists_readings`
    * `Abnf.Grammar.Readings.skips_of_parses`
    * `Abnf.Grammar.Readings.reads_atLeast`
-/

------------------------------------------------------------
-- Runs That Read
------------------------------------------------------------

namespace Abnf

namespace Grammar

open Element

/- The letters of words: those of names and numbers. -/
def wordSet : CharSet :=
  CharSet.ofRange 'A' 'Z' ∪ CharSet.ofRange 'a' 'z' ∪
    CharSet.ofRange '0' '9' ∪ CharSet.ofRange '-' '.'

/- The byte goes on with no word. -/
def endsWord
    (byte : Option UInt8) : Bool :=
  !byte.any wordSet.containsByte

/- Any byte. -/
def anyByte
    (_ : Option UInt8) : Bool :=
  true

/-
  What is used of the runs of the rules on a text besides:
  they are settled, core rules report nothing, all match
  what they generate, and those that are predictable read
  what they derive.
-/
structure Readings
    (input : Array UInt8)
    (callee : String → Nat → Run) : Prop
    extends Runs input callee where
  settled :
    ∀ name ∈ allNames, ∀ index,
      (callee name index).outcome.isSettled = true
  unreported :
    ∀ name, Scope.hasName scope.own name = false →
      ∀ index, (callee name index).calls = []
  generates :
    ∀ name index stop, index ≤ input.size →
      (callee name index).outcome = .matched stop →
      scope.Generates (.ruleName name)
        (Text.between input index stop)
  reads :
    ∀ follow name,
      scope.predicts 8 8 follow name = true →
      ∀ start stop calls,
        scope.Parses makes input (.one (.ruleName name))
          start stop calls →
        follow input[stop]? = true →
        (callee name start).Reads makes stop calls

theorem nullable_scope :
    scope.nullable = ["LWSP"] := by
  decide

theorem isFirm_scope : scope.IsFirm := by
  unfold Scope.IsFirm
  rw [nullable_scope]
  decide

theorem check_of_mem :
    ∀ rule ∈ rules ++ coreRules,
      rule.element.check = .ok () := by
  decide

theorem accept_rules : Entry.accept rules = .ok () := by
  decide +kernel

/- Nothing counts of what is derived from hushed rules. -/
theorem calls_eq_nil_of_names
    {input : Array UInt8}
    {task : Task}
    (hNames : ∀ name ∈ task.names, name ∈ hushedNames)
    {start stop : Nat}
    {calls : List Call}
    (h : scope.Parses makes input task start stop calls) :
    calls = [] := by
  apply h.calls_eq_nil not_makes_of_mem_hushedNames _ hNames
  intro name hName rule hRule
  rcases Scope.mem_of_find? hRule with ⟨hMember, rfl⟩
  exact names_subset_hushedNames rule hMember hName

/- Nothing counts of what core rules derive. -/
theorem calls_eq_nil_of_core
    {input : Array UInt8}
    {name : String}
    (hCore : Scope.hasName scope.own name = false)
    {start stop : Nat}
    {calls : List Call}
    (h :
      scope.Parses makes input (.one (.ruleName name))
        start stop calls) :
    calls = [] := by
  have hName : name ∈ hushedNames := by
    cases h with
    | ruleName hRule _ =>
        have hMember :=
          Scope.mem_core_of_find? hRule hCore
        rw [← (Scope.mem_of_find? hRule).2]
        exact
          List.mem_append_right _
            (List.mem_map_of_mem hMember)
  apply calls_eq_nil_of_names _ h
  intro other hOther
  rw [List.mem_singleton.mp hOther]
  exact hName

/- A parse is what the program traces for a list of rules. -/
theorem parse_eq_trace
    {matcher : Program}
    {entry : Nat}
    (hProgram : program = .ok matcher)
    (hEntry : matcher.entry? "rulelist" = some entry)
    (input : Array UInt8)
    (start : Nat) :
    parse input start =
      .ok (matcher.trace entry input start) := by
  unfold parse
  rewrite [hProgram]
  dsimp only
  rewrite [hEntry]
  rfl

/-
  The program for grammar texts exists, and each rule has a
  matcher, whose runs are those of the rule at a depth that
  is enough for the text.
-/
theorem exists_matcher
    {rule : Rule}
    (hRule : rule ∈ rules) :
    ∃ matcher entry,
      program = .ok matcher ∧
      matcher.entry? rule.name = some entry ∧
      ∀ input, ∃ depth,
        Readings input (scope.invoke input depth) ∧
        ∀ start,
          matcher.trace entry input start =
            scope.invoke input depth rule.name start := by
  have hProgram : ∃ matcher, program = .ok matcher := by
    rcases Program.ofRulesWith_eq Rule.isRewrite_normalize
        rules with
      ⟨cause, hAccept, _⟩ | ⟨routines, _, _, hProgram⟩
    · rw [accept_rules] at hAccept
      cases hAccept
    · exact ⟨_, hProgram⟩
  rcases hProgram with ⟨matcher, hProgram⟩
  rcases Program.exists_trace_eq_invoke
      Rule.isRewrite_normalize
      (Scope.ofRules rules).invoke_normalize hProgram
      hRule with
    ⟨entry, hEntry, hTrace⟩
  refine ⟨matcher, entry, hProgram, hEntry, ?_⟩
  intro input
  rcases exists_depth accept_rules input with
    ⟨depth, hDeep, hSettled⟩
  refine ⟨depth, ?_, ?_⟩
  · refine ⟨runs_invoke hDeep, ?_, ?_, ?_, ?_⟩
    · intro name hName index
      exact hSettled name (List.mem_toFinset.mpr hName) index
    · intro name hCore index
      rw [← Scope.silent_invoke hCore]
      rfl
    · intro name index stop hIndex hStop
      apply Scope.generates_of_invoke _ input depth hIndex
        hStop
      intro name rule hFind
      exact check_of_mem rule (Scope.mem_of_find? hFind).1
    · intro follow name hPredicts start stop calls h hFollow
      exact
        Scope.reads_of_predicts isFirm_scope hDeep
          (fun _ hCore _ _ _ => calls_eq_nil_of_core hCore)
          hPredicts h hFollow
  · intro start
    rcases hTrace input start with
      ⟨depth', hRun, hSettled'⟩
    rw [hRun] at hSettled' ⊢
    apply Scope.invoke_eq_of_isSettled hSettled'
    apply hSettled rule.name (List.mem_toFinset.mpr _) start
    exact List.mem_map_of_mem (List.mem_append_left _ hRule)

/- The same of the rule for lists of rules. -/
theorem exists_readings :
    ∃ matcher entry,
      program = .ok matcher ∧
      matcher.entry? "rulelist" = some entry ∧
      ∀ input, ∃ callee,
        Readings input callee ∧
        ∀ start,
          matcher.trace entry input start =
            callee "rulelist" start := by
  have hRule :
      (⟨"rulelist",
        .atLeast 1
          (.alternation
            [.ruleName "rule", blankLine])⟩ : Rule) ∈
        rules := by
    decide
  rcases exists_matcher hRule with
    ⟨matcher, entry, hProgram, hEntry, hTrace⟩
  refine ⟨matcher, entry, hProgram, hEntry, ?_⟩
  intro input
  rcases hTrace input with ⟨depth, hRuns, hTrace⟩
  exact ⟨_, hRuns, hTrace⟩

variable {input : Array UInt8}
variable {callee : String → Nat → Run}
variable {start stop : Nat}
variable {calls : List Call}

/- A rule derives what its element does. -/
theorem exists_parses_of_mem
    {rule : Rule}
    (hRule : rule ∈ rules)
    (h :
      scope.Parses makes input
        (.one (.ruleName rule.name)) start stop calls) :
    ∃ inner,
      scope.Parses makes input (.one rule.element)
        start stop inner ∧
      calls =
        if makes rule.name then
          [.call rule.name start (some stop) inner]
        else
          inner := by
  have hFind := find?_of_mem_rules hRule
  cases h with
  | ruleName hOther hBody =>
      rw [hFind] at hOther
      cases hOther
      exact ⟨_, hBody, rfl⟩

/- One character is derived where its byte stands. -/
theorem eq_of_parses_range
    {c : Char}
    (hSome : (CharSet.ofRange c c).isEmpty = false)
    (h :
      scope.Parses makes input (.one (range c c))
        start stop calls) :
    stop = start + 1 ∧
      input[start]? = some (byteOf c) ∧ calls = [] := by
  cases h with
  | nothing hEmpty =>
      rw [hSome] at hEmpty
      cases hEmpty
  | member hByte hMember =>
      rw [eq_byteOf_of_containsByte hMember] at hByte
      exact ⟨rfl, hByte, rfl⟩

/- A set without the next byte refuses. -/
theorem refuses_terminal
    {s : CharSet}
    (hSome : s.isEmpty = false)
    (h : input[start]?.any s.containsByte = false) :
    ((terminal s).run input callee start).Refuses makes := by
  have hIdle := @idle_runSet makes input start s h
  rw [hSome] at hIdle
  rw [run]
  exact hIdle.refuses

/- A span of a choice is one of some part. -/
theorem exists_mem_of_parses
    {parts : List Element}
    (h :
      scope.Parses makes input (.one (alternation parts))
        start stop calls) :
    ∃ part ∈ parts,
      scope.Parses makes input (.one part)
        start stop calls := by
  cases h with
  | alternation hPart hSpan => exact ⟨_, hPart, hSpan⟩

/- A span of a rule starts with a byte that can start it. -/
theorem starts_of_parses
    {name : String}
    (hName : name ≠ "LWSP")
    (h :
      scope.Parses makes input (.one (.ruleName name))
        start stop calls) :
    starts name input[start]? = true := by
  have hNeeds : name ∉ scope.nullable := by
    rw [nullable_scope]
    simpa using hName
  have hMoves := h.lt (by simpa [isNullable] using hNeeds)
  refine h.opens isFirm_scope ?_ hMoves 8
  intro other hOther
  rw [List.mem_singleton.mp hOther]
  exact hNeeds

namespace Readings

theorem foresees
    (hRuns : Readings input callee) :
    scope.Foresees makes input 8 callee
      (scope.predicts 8 8) :=
  ⟨hRuns.stays, hRuns.idle, hRuns.reads⟩

/- A rule reads what it derives if its element does. -/
theorem reads_of_body
    (hRuns : Readings input callee)
    {rule : Rule}
    (hRule : rule ∈ rules)
    (h :
      scope.Parses makes input
        (.one (.ruleName rule.name)) start stop calls)
    (hBody :
      ∀ inner,
        scope.Parses makes input (.one rule.element)
          start stop inner →
        (rule.element.run input callee start).Reads makes
          stop inner) :
    (callee rule.name start).Reads makes stop calls := by
  rcases exists_parses_of_mem hRule h with
    ⟨inner, hInner, rfl⟩
  rw [hRuns.body rule hRule start]
  exact (hBody inner hInner).reported rule.name start

/- A rule refuses where it cannot start. -/
theorem refuses
    (hRuns : Readings input callee)
    {name : String}
    (h : starts name input[start]? = false) :
    (callee name start).Refuses makes :=
  (hRuns.idle name start h).refuses

end Readings

end Grammar

end Abnf

------------------------------------------------------------
-- Blanks
------------------------------------------------------------

namespace Abnf

namespace Grammar

open Element

variable {input : Array UInt8}
variable {callee : String → Nat → Run}
variable {start mid stop : Nat}
variable {calls : List Call}

/- The blanks from an offset to another, one by one. -/
def Skips
    (input : Array UInt8)
    (callee : String → Nat → Run)
    (count start stop : Nat) : Prop :=
  Node.Copies makes
    (fun i => (ruleName "c-wsp").run input callee i)
    count start stop []

/-
  The blanks at an offset lead to one where there are no
  more of them, and where the next byte is of some kind.
-/
def Precedes
    (input : Array UInt8)
    (callee : String → Nat → Run)
    (kind : Option UInt8 → Bool)
    (index : Nat) : Prop :=
  ∃ count next,
    Skips input callee count index next ∧
    (callee "c-wsp" next).Refuses makes ∧
    kind input[next]? = true

theorem Precedes.mono
    {kind kind' : Option UInt8 → Bool}
    (hKind : ∀ byte, kind byte = true → kind' byte = true)
    (h : Precedes input callee kind start) :
    Precedes input callee kind' start := by
  rcases h with ⟨count, next, hSkips, hLast, hNext⟩
  exact ⟨count, next, hSkips, hLast, hKind _ hNext⟩

theorem predicts_blank :
    scope.predicts 8 8 anyByte "c-wsp" = true := by
  set_option maxRecDepth 8000 in decide

theorem endsWord_of_starts_blank :
    ∀ byte, starts "c-wsp" byte = true →
      endsWord byte = true :=
  forall_byte (by decide)
    (by set_option maxRecDepth 8000 in decide)

namespace Readings

/- Blanks that are derived can be skipped. -/
theorem skips_of_parses
    (hRuns : Readings input callee)
    {count : Nat}
    (h :
      scope.Parses makes input
        (.copies count (ruleName "c-wsp"))
        start stop calls) :
    Skips input callee count start stop ∧ calls = [] := by
  have hNone : calls = [] := by
    apply calls_eq_nil_of_names _ h
    intro name hName
    rw [List.mem_singleton.mp hName]
    decide
  have hBlank :
      ∀ start stop calls,
        scope.Parses makes input (.one (ruleName "c-wsp"))
          start stop calls →
        ((true &&
            (ruleName "c-wsp").opens input[stop]?
              (scope.opens input[stop]? 8)) ||
          anyByte input[stop]?) = true →
        ((ruleName "c-wsp").run input callee start).Reads
          makes stop calls := by
    intro start stop calls hSpan _
    rw [run]
    exact
      hRuns.reads anyByte "c-wsp" predicts_blank
        start stop calls hSpan rfl
  refine ⟨?_, hNone⟩
  rw [Skips, ← hNone]
  exact
    copies_of_reads isFirm_scope (by decide)
      (by rw [nullable_scope]; decide) hBlank (fun hNo => nomatch hNo) h
      rfl

/- Copies of an element are read up to where it refuses. -/
theorem reads_copies
    (hRuns : Readings input callee)
    {element : Element}
    {count min : Nat}
    (hChain :
      Node.Copies makes (fun i => element.run input callee i)
        count start stop calls)
    (hMin : min ≤ count)
    (hLast :
      (element.run input callee stop).Refuses makes) :
    ((atLeast min element).run input callee start).Reads
      makes stop calls := by
  have hCount :=
    hChain.count_le (run_staysIn hRuns.stays element)
  rw [atLeast, run]
  apply Node.reads_runCopies hChain
  · omega
  · intro limit hLimit
    cases hLimit
  · exact Or.inl hLast
  · omega

/- Blanks are read up to where there are no more. -/
theorem reads_atLeast
    (hRuns : Readings input callee)
    {count min : Nat}
    (hSkips : Skips input callee count start stop)
    (hMin : min ≤ count)
    (hLast : (callee "c-wsp" stop).Refuses makes) :
    ((atLeast min (ruleName "c-wsp")).run input callee
      start).Reads makes stop [] := by
  apply hRuns.reads_copies hSkips hMin
  rw [run]
  exact hLast

/- Blanks stand where the word before them ends. -/
theorem endsWord_of_skips
    (hRuns : Readings input callee)
    {count : Nat}
    (hSkips : Skips input callee count start stop)
    (hEnds : endsWord input[stop]? = true) :
    endsWord input[start]? = true := by
  rw [Skips] at hSkips
  generalize [] = calls at hSkips
  cases hSkips with
  | none => exact hEnds
  | next hFirst _ _ =>
      apply endsWord_of_starts_blank
      by_contra hNot
      have hIdle :=
        hRuns.idle "c-wsp" start (Bool.not_eq_true _ ▸ hNot)
      have hOutcome := hFirst.outcome
      rw [run, hIdle.failed] at hOutcome
      cases hOutcome

/- Blanks before a byte that starts none are read. -/
theorem reads_blanks_of_parses
    (hRuns : Readings input callee)
    {min : Nat}
    (h :
      scope.Parses makes input
        (.one (atLeast min (ruleName "c-wsp")))
        start stop calls)
    (hLast : (callee "c-wsp" stop).Refuses makes) :
    ((atLeast min (ruleName "c-wsp")).run input callee
      start).Reads makes stop calls := by
  cases h with
  | repetition hMin _ hCopies =>
      rcases hRuns.skips_of_parses hCopies with
        ⟨hSkips, rfl⟩
      exact hRuns.reads_atLeast hSkips hMin hLast

end Readings

end Grammar

end Abnf
