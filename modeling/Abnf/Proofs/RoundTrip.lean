import Abnf.Proofs.GrammarSafety
import Abnf.Proofs.GrammarTexts
import Abnf.Proofs.GrammarTrees

/-
  Rules read back from their notation.

  A text of lines, each of them a name and the notation of
  an element, is read as the rules of these names: the
  program for grammar texts reads each line as the
  derivation that the notation stands for, and the calls of
  that derivation assemble the rule. The notation of rules,
  one on each line, is read as the rules with flat elements.
  Flat rules are written as the rules are, and their
  programs act alike.

  Key definitions include:
    * `Abnf.Grammar.Line`
    * `Abnf.Grammar.Line.IsLegible`
    * `Abnf.Grammar.textOf`
    * `Abnf.Rule.IsWritable`

  Main declarations:
    * `Abnf.Grammar.exists_parses_rule`
    * `Abnf.Grammar.Readings.exists_copies_lines`
    * `Abnf.Grammar.read_lines`
    * `Abnf.Grammar.read_textOf_eq`
    * `Abnf.Grammar.read_textOf`
-/

------------------------------------------------------------
-- Calls That Count
------------------------------------------------------------

namespace Abnf

namespace Grammar

namespace Assembly

/- A part that makes nothing leaves an assembly alone. -/
theorem alike_observe_of_not_makes
    {name : String}
    (hName : makes name = false)
    (assembly : Assembly)
    (input : Array UInt8)
    (start stop : Nat) :
    Alike (assembly.observe input (.enter name start))
        assembly ∧
      Alike
        (assembly.observe input (.exit name start (some stop)))
        assembly := by
  have hFrame : (Part.ofName name).frame? = none := by
    simp only [makes, ne_eq, decide_not, Bool.not_eq_false',
      decide_eq_true_eq] at hName
    rw [hName]
    rfl
  constructor
  · rw [observe, hFrame]
    exact Alike.refl assembly
  · have hLeave :
        Alike (assembly.leave name stop) assembly := by
      rw [leave, close_of_none hFrame]
      exact ⟨rfl, rfl, rfl⟩
    rw [observe_exit]
    split
    · exact hLeave
    · rw [takeMatch_of_not_makes hName]
      exact hLeave

mutual

/- Calls of parts that make nothing need not be followed. -/
theorem alike_of_made
    (input : Array UInt8) :
    ∀ {one other : Assembly} (first : Call),
      Alike one other →
      Alike
        ((Call.eventsOfAll first.prune).foldl
          (observe input) one)
        ((Call.eventsOfAll (Call.made makes first)).foldl
          (observe input) other)
  | _, _, .call name start none inner, h => by
      rw [Call.prune, Call.made]
      exact h
  | one, other, .call name start (some stop) inner, h => by
      have hEnter :=
        alike_observe h input (.enter name start)
      rw [Call.prune, Call.eventsOfAll_cons,
        Call.events_call, Call.made]
      simp only [Call.eventsOfAll, Call.eventsOfAllBefore,
        List.append_nil, List.foldl_cons, List.foldl_append,
        List.foldl_nil]
      split
      · have hInner := alike_of_madeAll input inner hEnter
        rw [Call.eventsOfAllBefore, Call.eventsOfAllBefore,
          ← Call.events, Call.events_call]
        simp only [Call.eventsOfAll, List.foldl_cons,
          List.foldl_append, List.foldl_nil]
        exact
          alike_observe hInner input
            (.exit name start (some stop))
      · rename_i hMakes
        have hQuiet := fun assembly =>
          alike_observe_of_not_makes
            (Bool.eq_false_iff.mpr hMakes) assembly input
            start stop
        have hInner :=
          alike_of_madeAll input inner
            ((hQuiet one).1.trans h)
        exact (hQuiet _).2.trans hInner

theorem alike_of_madeAll
    (input : Array UInt8) :
    ∀ {one other : Assembly} (calls : List Call),
      Alike one other →
      Alike
        ((Call.eventsOfAll (Call.pruneAll calls)).foldl
          (observe input) one)
        ((Call.eventsOfAll (Call.madeAll makes calls)).foldl
          (observe input) other)
  | _, _, [], h => h
  | _, _, first :: others, h => by
      rw [Call.pruneAll, Call.madeAll,
        Call.eventsOfAll_append, Call.eventsOfAll_append,
        List.foldl_append, List.foldl_append]
      exact
        alike_of_madeAll input others
          (alike_of_made input first h)

end

end Assembly

end Grammar

end Abnf

------------------------------------------------------------
-- Rules From Their Lines
------------------------------------------------------------

namespace Abnf

namespace Grammar

open Assembly Element

variable {input : Array UInt8}
variable {start stop : Nat}
variable {rules : List Rule}
variable {rest : List Frame}

/- The name at the start of a rule. -/
theorem accepts_rulename
    {name : String}
    {old : Option String}
    {incremental : Bool}
    {element : Option Element}
    (hSlice : slice? input start stop = some name.toList) :
    Accepts input "rulename" none start stop
      ⟨rules, .rule old incremental element :: rest⟩
      ⟨rules,
        .rule (some name) incremental element :: rest⟩ := by
  intro assembly hAt
  refine
    ⟨{ assembly with
        frames :=
          .rule (some name) incremental element :: rest },
     ?_, hAt.rules, rfl, hAt.error⟩
  rw [matchResult_of_read rfl hSlice]
  change assembly.takeName (String.ofList name.toList) = _
  rw [String.ofList_toList, takeName, hAt.frames]

theorem accepts_definedAs
    {text : List Char}
    {name : Option String}
    {old : Bool}
    {element : Option Element}
    (hSlice : slice? input start stop = some text) :
    Accepts input "defined-as" none start stop
      ⟨rules, .rule name old element :: rest⟩
      ⟨rules,
        .rule name (isIncremental text) element :: rest⟩ := by
  intro assembly hAt
  refine
    ⟨{ assembly with
        frames :=
          .rule name (isIncremental text) element :: rest },
     ?_, hAt.rules, rfl, hAt.error⟩
  rw [matchResult_of_read rfl hSlice]
  change assembly.takeSign (isIncremental text) = _
  rw [takeSign, hAt.frames]

theorem accepts_elements
    {name : Option String}
    {incremental : Bool}
    {old : Option Element}
    {element : Element} :
    Accepts input "elements" (some (.elements [element]))
      start stop
      ⟨rules, .rule name incremental old :: rest⟩
      ⟨rules,
        .rule name incremental (some element) :: rest⟩ := by
  intro assembly hAt
  refine
    ⟨{ assembly with
        frames :=
          .rule name incremental (some element) :: rest },
     ?_, hAt.rules, rfl, hAt.error⟩
  rw [matchResult_of_not_read rfl]
  change assembly.takeElements _ = _
  unfold takeElements
  rw [hAt.frames]
  rfl

/- A complete rule with a new name. -/
theorem accepts_rule
    {name : String}
    {element : Element}
    {frames : List Frame}
    (hCheck : checkName name = .ok ())
    (hNew : Scope.hasName rules name = false) :
    Accepts input "rule"
      (some (.rule (some name) false (some element))) start
      stop ⟨rules, frames⟩
      ⟨rules ++ [⟨name, element⟩], frames⟩ := by
  intro assembly hAt
  have hDefine :
      define assembly.rules name false element =
        .ok (rules ++ [⟨name, element⟩]) := by
    have hAny :
        rules.any (fun rule => rule.name == name) = false :=
      hNew
    unfold define
    rw [hAt.rules]
    simp only [hAny]
    rw [Rule.ofName, hCheck]
    rfl
  refine
    ⟨{ assembly with
        rules := rules ++ [⟨name, element⟩]
        notes :=
          definitionNotes (rules ++ [⟨name, element⟩]) name
              false ++
            assembly.notes },
     ?_, rfl, hAt.frames, hAt.error⟩
  rw [matchResult_of_not_read rfl]
  change
    assembly.closeRule
      (some (.rule (some name) false (some element))) = _
  rw [closeRule, hDefine]
  rfl

/- What a line of a grammar text says, as it is written. -/
structure Line where
  name : String
  body : List Char
  element : Element

namespace Line

/- The text of a line, with its end. -/
def text
    (l : Line) : List Char :=
  l.name.toList ++
    ([' ', '=', ' '] ++ (l.body ++ ['\r', '\n']))

/- The rule that a line stands for. -/
def rule
    (l : Line) : Rule :=
  ⟨l.name, l.element⟩

/- A line has a good name and the notation of its element. -/
structure IsLegible
    (l : Line) : Prop where
  check : checkName l.name = .ok ()
  letter : startsWithLetter l.name = true
  body : Written "alternation" l.body l.element

/- A line that can be read is ASCII. -/
theorem IsLegible.ascii
    {l : Line}
    (h : l.IsLegible) :
    IsAscii l.text :=
  isAscii_append (isAscii_of_checkName h.check)
    (@isAscii_append [' ', '=', ' '] _ (by decide)
      (isAscii_append h.body.ascii (by decide)))

end Line

/- A line is read as the rule that it stands for. -/
theorem exists_parses_rule
    {l : Line}
    (hLine : l.IsLegible)
    (hOccurs : Text.Occurs input start (word l.text)) :
    ∃ calls,
      scope.Parses makes input (.one (ruleName "rule")) start
        (start + l.text.length) calls ∧
      ∀ done,
        Scope.hasName done l.name = false →
        Turns input calls ⟨done, []⟩
          ⟨done ++ [l.rule], []⟩ := by
  rw [Line.text] at hOccurs ⊢
  rw [word_append, word_append, word_append,
    Text.occurs_append_iff, Text.occurs_append_iff,
    Text.occurs_append_iff] at hOccurs
  simp only [length_word] at hOccurs
  rcases hOccurs with ⟨hName, hSign, hBody, hEnd⟩
  have hElements :
      (⟨"elements",
        concatenation [ruleName "alternation", blanks]⟩ :
          Rule) ∈ Grammar.rules := by
    decide
  have hRule :
      (⟨"rule",
        concatenation
          [ruleName "rulename", ruleName "defined-as",
           ruleName "elements", ruleName "c-nl"]⟩ : Rule) ∈
        Grammar.rules := by
    decide
  have hSome := (checkName_eq_ok_iff.mp hLine.check).1
  have hNameSlice :=
    slice?_of_occurs (isAscii_of_checkName hLine.check) hSome
      hName
  have hSignAscii : IsAscii [' ', '=', ' '] := by
    decide
  have hSignSlice :=
    slice?_of_occurs hSignAscii (by simp) hSign
  have hNameParses :=
    parses_read (by decide)
      (generates_rulename hLine.check hLine.letter) hName
  have hSignParses :=
    parses_read (by decide) generates_definedAs hSign
  have hEndParses :=
    parses_hushed (by decide) generates_lineEnd hEnd
  rcases hLine.body.parses input _ hBody with
    ⟨inner, hParses, hAdds⟩
  have hElementsParses :=
    parses_rule hElements
      (.concatenation
        (.allNext hParses
          (parses_last (parses_blanks_none _))))
  simp only [List.length_append, ← Nat.add_assoc]
    at hNameParses hSignParses hElementsParses
      hEndParses ⊢
  refine
    ⟨_,
     parses_rule hRule
       (.concatenation
         (.allNext hNameParses
           (.allNext hSignParses
             (.allNext hElementsParses
               (parses_last hEndParses))))), ?_⟩
  intro done hNew
  have hInner :=
    hAdds done (.elements [])
      [.rule (some l.name) false none] (by decide)
  rw [Frame.addAll_elements, List.nil_append,
    ← List.append_nil inner] at hInner
  exact
    turns_call_of_frame rfl
      ((turns_call_of_none rfl (turns_nil _)
          (accepts_rulename hNameSlice)).append
        ((turns_call_of_none rfl (turns_nil _)
            (accepts_definedAs hSignSlice)).append
          ((turns_call_of_frame rfl hInner
              accepts_elements).append (turns_nil _))))
      (accepts_rule hLine.check hNew)

end Grammar

end Abnf

------------------------------------------------------------
-- Texts Of Lines
------------------------------------------------------------

namespace Abnf

namespace Grammar

open Assembly Element

namespace Readings

variable {input : Array UInt8}
variable {callee : String → Nat → Run}
variable {start stop : Nat}
variable {calls : List Call}

/- A line is read whole if no blank stands behind it. -/
theorem reads_line_of_parses
    (hRuns : Readings input callee)
    (h :
      scope.Parses makes input (.one (ruleName "rule"))
        start stop calls)
    (hNext : starts "WSP" input[stop]? = false) :
    (line.run input callee start).Reads makes stop calls := by
  rcases hRuns.exists_reads_rule h with
    ⟨ended, _, hEnd, hReads⟩
  rcases hReads 0 ended stop .none
      (hRuns.refuses_blank_of_lineEnd hEnd hNext) hEnd with
    ⟨calls', hRead, hSame⟩
  rw [hSame rfl] at hRead
  exact
    @reads_runFirst makes input callee start stop []
      (ruleName "rule") [blankLine] calls
      (fun _ hOther => absurd hOther List.not_mem_nil)
      hRead

/- Lines are read one by one, and their calls make rules. -/
theorem exists_copies_lines
    (hRuns : Readings input callee)
    {lines : List Line}
    (hLines : ∀ l ∈ lines, l.IsLegible)
    (hOccurs :
      Text.Occurs input start
        (word (lines.flatMap Line.text)))
    (hEnd :
      start + (lines.flatMap Line.text).length =
        input.size) :
    starts "WSP" input[start]? = false ∧
      ∃ calls,
        Node.Copies makes (fun i => line.run input callee i)
          lines.length start input.size calls ∧
        ∀ done : List Rule,
          (done.map (·.name) ++ lines.map (·.name)).Nodup →
          Turns input calls ⟨done, []⟩
            ⟨done ++ lines.map Line.rule, []⟩ := by
  induction lines generalizing start with
  | nil =>
    have hStart : start = input.size := hEnd
    subst hStart
    refine ⟨?_, [], .none, ?_⟩
    · rw [Array.getElem?_eq_none (Nat.le_refl _)]
      decide
    · intro done _
      rw [List.map_nil, List.append_nil]
      exact turns_nil _
  | cons l rest ih =>
    rw [List.flatMap_cons] at hOccurs hEnd
    rw [word_append, Text.occurs_append_iff,
      length_word] at hOccurs
    rw [List.length_append, ← Nat.add_assoc] at hEnd
    rcases ih
        (fun other hOther =>
          hLines other (List.mem_cons_of_mem _ hOther))
        hOccurs.2 hEnd with
      ⟨hNext, calls', hCopies, hTurns'⟩
    rcases exists_parses_rule
        (hLines l List.mem_cons_self) hOccurs.1 with
      ⟨calls, hParses, hTurns⟩
    have hMoves := hParses.lt (by
      rw [isNullable, nullable_scope]
      decide)
    refine ⟨?_, calls ++ calls', ?_, ?_⟩
    · by_contra hBlank
      have hOther :=
        (starts_in_list _).1 (Bool.not_eq_false _ ▸ hBlank)
      rw [starts_of_parses (by decide) hParses] at hOther
      cases hOther.2
    · exact
        .next (hRuns.reads_line_of_parses hParses hNext)
          hMoves hCopies
    · intro done hNodup
      have hNew : Scope.hasName done l.name = false := by
        rw [Bool.eq_false_iff, ne_eq, Scope.hasName_iff]
        rintro ⟨other, hOther, hSame⟩
        rw [List.nodup_append] at hNodup
        exact
          hNodup.2.2 other.name (List.mem_map_of_mem hOther)
            l.name (by simp) hSame
      have hRest :=
        hTurns' (done ++ [l.rule]) (by
          rw [List.map_append, List.append_assoc]
          exact hNodup)
      rw [List.append_assoc] at hRest
      exact (hTurns done hNew).append hRest

/- What the calls of a whole text assemble. -/
theorem finish_of_reads
    (hRuns : Readings input callee)
    (h :
      (callee "rulelist" start).Reads makes input.size calls)
    {rules : List Rule}
    (hTurns : Turns input calls ⟨[], []⟩ ⟨rules, []⟩) :
    (assembly input start (callee "rulelist" start)).finish
        input (callee "rulelist" start).outcome =
      .ok rules := by
  have hTidy :
      Call.AllTidy makes (callee "rulelist" start).calls := by
    rcases hRuns.toRuns.tidy_rulelist start input.size
        h.outcome with
      hTidy | hStarts
    · exact hTidy
    · rw [Array.getElem?_eq_none (Nat.le_refl _)] at hStarts
      exact absurd hStarts (by decide)
  have hPruned :=
    alike_of_allTidy input _ (Alike.refl (begin start)) hTidy
  have hMade :=
    alike_of_madeAll input (callee "rulelist" start).calls
      (Alike.refl (begin start))
  rw [h.made] at hMade
  have hAt := hTurns (begin start) ⟨rfl, rfl, rfl⟩
  rw [h.outcome, assembly, Run.events,
    finish_eq_of_alike (hPruned.trans hMade), finish,
    hAt.error]
  simp only [if_true, hAt.rules]

end Readings

/- The text of some lines is ASCII. -/
theorem isAscii_lines
    {lines : List Line}
    (hLines : ∀ l ∈ lines, l.IsLegible) :
    IsAscii (lines.flatMap Line.text) := by
  intro c hc
  rcases List.mem_flatMap.mp hc with ⟨l, hl, hMember⟩
  exact (hLines l hl).ascii c hMember

/- The text of some lines is read as their rules. -/
theorem read_lines
    {text : String}
    {lines : List Line}
    (hText : text.toList = lines.flatMap Line.text)
    (hSome : lines ≠ [])
    (hNames : (lines.map (·.name)).Nodup)
    (hLines : ∀ l ∈ lines, l.IsLegible) :
    read text = .ok (lines.map Line.rule) := by
  have hBytes :=
    toList_bytes (hText.symm ▸ isAscii_lines hLines)
  rw [hText] at hBytes
  rcases exists_readings_of_parse (Text.bytes text) 0 with
    ⟨callee, hRuns, hParse⟩
  have hOccurs := @Text.occurs_drop (Text.bytes text) 0
  rw [List.drop_zero, hBytes] at hOccurs
  have hSize :
      0 + (lines.flatMap Line.text).length =
        (Text.bytes text).size := by
    rw [Nat.zero_add, ← length_word, ← hBytes,
      Array.length_toList]
  rcases hRuns.exists_copies_lines hLines hOccurs hSize with
    ⟨_, calls, hCopies, hTurns⟩
  have hRule :
      (⟨"rulelist", atLeast 1 line⟩ : Rule) ∈
        Grammar.rules := by
    decide
  have hReads :
      (callee "rulelist" 0).Reads makes
        (Text.bytes text).size calls := by
    rw [hRuns.body _ hRule]
    exact
      (hRuns.reads_copies hCopies
        (List.length_pos_iff.mpr hSome)
        hRuns.refuses_line_at_end).reported "rulelist" 0
  rw [read, readFrom_eq hParse]
  exact hRuns.finish_of_reads hReads (hTurns [] hNames)

end Grammar

end Abnf

------------------------------------------------------------
-- Texts Of Rules
------------------------------------------------------------

namespace Abnf

/-
  The notation of a rule can be read: the rule is well
  formed, names start with letters, and bounds fit into
  counts.
-/
structure Rule.IsWritable
    (rule : Rule) : Prop where
  check : rule.check = .ok ()
  letters :
    ∀ name ∈ rule.name :: rule.element.names,
      startsWithLetter name = true
  counts : rule.element.countsFit = true

namespace Grammar

open Assembly Element

/- The notation of some rules, one on each line. -/
def textOf : List Rule → String
  | [] => ""
  | rule :: rest => rule.text ++ "\r\n" ++ textOf rest

/- The line that a rule is written as. -/
def Line.ofRule
    (rule : Rule) : Line :=
  ⟨rule.name, rule.element.text.toList, rule.element.flat⟩

/- The line of a rule that can be written can be read. -/
theorem legible_of_isWritable
    {rule : Rule}
    (h : rule.IsWritable) :
    (Line.ofRule rule).IsLegible := by
  have hCheck := h.check
  rw [Rule.check, bind_eq_ok_iff] at hCheck
  rcases hCheck with ⟨_, hName, hElement⟩
  refine
    ⟨hName, h.letters rule.name List.mem_cons_self, ?_⟩
  apply
    (legible_of_check rule.element hElement _ h.counts).whole
  intro name hIn
  exact h.letters name (List.mem_cons_of_mem _ hIn)

/- The notation of rules is made of their lines. -/
theorem toList_textOf
    (rules : List Rule) :
    (textOf rules).toList =
      (rules.map Line.ofRule).flatMap Line.text := by
  induction rules with
  | nil => rfl
  | cons rule rest ih =>
    rw [textOf, Rule.text, List.map_cons, List.flatMap_cons,
      ← ih]
    simp only [String.toList_append, Line.ofRule, Line.text,
      List.append_assoc]
    rfl

/- The text of rules is read as the flat rules. -/
theorem read_textOf_eq
    {rules : List Rule}
    (hSome : rules ≠ [])
    (hNames : (rules.map (·.name)).Nodup)
    (hRules : ∀ rule ∈ rules, rule.IsWritable) :
    read (textOf rules) = .ok (rules.map Rule.flat) := by
  have hLines :
      ∀ l ∈ rules.map Line.ofRule, l.IsLegible := by
    intro l hl
    rcases List.mem_map.mp hl with ⟨rule, hRule, rfl⟩
    exact legible_of_isWritable (hRules rule hRule)
  have hRead :=
    read_lines (toList_textOf rules) (by simpa using hSome)
      (by rw [List.map_map]; exact hNames) hLines
  rw [List.map_map] at hRead
  exact hRead

/-
  Rules that can be written are read back from their text:
  under the same names in the same order, written as before,
  and with a program that is refused for the same cause or
  acts alike.
-/
theorem read_textOf
    {rules : List Rule}
    (hSome : rules ≠ [])
    (hNames : (rules.map (·.name)).Nodup)
    (hRules : ∀ rule ∈ rules, rule.IsWritable) :
    ∃ others,
      read (textOf rules) = .ok others ∧
        others.map (·.name) = rules.map (·.name) ∧
        others.map (·.text) = rules.map (·.text) ∧
        ((∃ cause,
          Program.ofRules others = .error cause ∧
          Program.ofRules rules = .error cause) ∨
        (∃ program program',
          Program.ofRules others = .ok program ∧
          Program.ofRules rules = .ok program' ∧
          program.ActsLike program')) := by
  have hElement :
      ∀ rule ∈ rules, rule.element.check = .ok () := by
    intro rule hIn
    have hCheck := (hRules rule hIn).check
    rw [Rule.check, bind_eq_ok_iff] at hCheck
    exact hCheck.choose_spec.2
  refine
    ⟨rules.map Rule.flat, read_textOf_eq hSome hNames hRules,
      ?_, ?_, Program.ofRules_map_flat rules⟩
  · rw [List.map_map]
    exact List.map_congr_left (fun _ _ => rfl)
  · rw [List.map_map]
    exact
      List.map_congr_left
        (fun rule hIn => Rule.text_flat (hElement rule hIn))

/-
  A series in a series, digits and signs in one terminal, an
  option and a counted repetition are not read back as the
  trees that they were.
-/
def pairsAndSigns : List Rule :=
  [⟨"pairs",
      .concatenation
        [.concatenation
          [.repetition 2 (some 3) (.ruleName "sign"),
            .ruleName "sign"],
          .repetition 0 (some 1) (.ruleName "sign")]⟩,
    ⟨"sign",
      .alternation
        [.alternation
          [.chars "+-", .range '0' '9'],
          .terminal CharSet.empty]⟩]

theorem read_textOf_pairsAndSigns :
    pairsAndSigns ≠ [] ∧
      (pairsAndSigns.map (·.name)).Nodup ∧
      (∀ rule ∈ pairsAndSigns, rule.IsWritable) ∧
      (∃ others,
        read (textOf pairsAndSigns) = .ok others ∧
          others.map (·.text) =
            pairsAndSigns.map (·.text)) := by
  have hSome : pairsAndSigns ≠ [] := by decide
  have hNames : (pairsAndSigns.map (·.name)).Nodup := by
    decide
  have hRules : ∀ rule ∈ pairsAndSigns, rule.IsWritable := by
    intro rule hIn
    simp only [pairsAndSigns, List.mem_cons,
      List.not_mem_nil, or_false] at hIn
    rcases hIn with rfl | rfl
    all_goals
      exact ⟨by decide, by decide,
        by decide⟩
  rcases read_textOf hSome hNames hRules with
    ⟨others, hRead, _, hTexts, _⟩
  exact ⟨hSome, hNames, hRules, others, hRead, hTexts⟩

end Grammar

end Abnf
