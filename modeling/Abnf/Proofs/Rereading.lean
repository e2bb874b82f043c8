import Abnf.Proofs.CheckedRules
import Abnf.Proofs.RoundTrip
import Abnf.Proofs.Signs

/-
  Rules that were read from a text, written and read again.

  What is read from a text is well formed, its rules have
  different names, and its bounds fit into counts. So the
  notation of the rules can be read if the names they refer
  to start with letters, and it says what the text said.

  Names in angle brackets need not start with a letter, but
  they are written without the brackets. No bracket is left
  in the notation, so a name that starts in another way is
  never read back; one that starts with a count is read as
  copies of the rule whose name stands behind the count.

  Key definitions include:
    * `Abnf.Grammar.ReadsBackAs`

  Main declarations:
    * `Abnf.Grammar.readsBackAs_flat`
    * `Abnf.Grammar.not_mem_bytes_textOf`
    * `Abnf.Grammar.exists_readsBackAs_iff_letters`
    * `Abnf.Grammar.exists_readsBackAs_of_plain`
    * `Abnf.Grammar.textOf_countedName`
-/

------------------------------------------------------------
-- Notation That Says The Same
------------------------------------------------------------

namespace Abnf

namespace Grammar

open Element

variable {rules others : List Rule}

/-
  The notation of some rules is read as others, which have
  the same names and refer to the same names in the same
  order. Both are refused for the same cause, or else their
  programs act alike.
-/
structure ReadsBackAs
    (rules others : List Rule) : Prop where
  reads : read (textOf rules) = .ok others
  ruleNames : others.map (·.name) = rules.map (·.name)
  references :
    others.map (·.element.names) =
      rules.map (·.element.names)
  outcome :
    (∃ cause,
      Program.ofRules others = .error cause ∧
      Program.ofRules rules = .error cause) ∨
    (∃ program program',
      Program.ofRules others = .ok program ∧
      Program.ofRules rules = .ok program' ∧
      program.ActsLike program')

/- Rules that can be written are read back as flat rules. -/
theorem readsBackAs_flat
    (hSome : rules ≠ [])
    (hNames : (rules.map (·.name)).Nodup)
    (hRules : ∀ rule ∈ rules, rule.IsWritable) :
    ReadsBackAs rules (rules.map Rule.flat) where
  reads := read_textOf_eq hSome hNames hRules
  ruleNames := by
    rw [List.map_map]
    exact List.map_congr_left (fun _ _ => rfl)
  references := by
    rw [List.map_map]
    exact
      List.map_congr_left
        (fun rule _ => (agrees_flat rule.element).names)
  outcome := Program.ofRules_map_flat rules

/- So are proper rules that refer to names with letters. -/
theorem exists_readsBackAs_of_areProper
    (hSome : rules ≠ [])
    (hRules :
      AreProper (fun name => startsWithLetter name = true)
        rules) :
    ∃ others, ReadsBackAs rules others := by
  refine ⟨_, readsBackAs_flat hSome hRules.nodup ?_⟩
  intro rule hRule
  have hProper := hRules.proper rule hRule
  exact
    ⟨hProper.check,
      List.forall_mem_cons.mpr
        ⟨hProper.letter, hProper.names⟩,
      hProper.counts⟩

end Grammar

end Abnf

------------------------------------------------------------
-- Notation Without Angle Brackets
------------------------------------------------------------

namespace Abnf

namespace Element

mutual

/- The names in a checked element are checked. -/
theorem checkName_of_mem_names :
    ∀ element : Element,
      element.check = .ok () →
      ∀ name ∈ element.names, checkName name = .ok ()
  | ruleName _, hCheck, _, hName => by
      rw [List.mem_singleton.mp hName]
      exact hCheck
  | terminal _, _, _, hName => nomatch hName
  | repetition _ _ body, hCheck, name, hName =>
      checkName_of_mem_names body
        (check_repetition_iff.mp hCheck).2 name hName
  | concatenation parts, hCheck, name, hName =>
      checkName_of_mem_namesOfAll parts
        (check_concatenation_iff.mp hCheck).2 name hName
  | alternation parts, hCheck, name, hName =>
      checkName_of_mem_namesOfAll parts
        (check_alternation_iff.mp hCheck).2 name hName

theorem checkName_of_mem_namesOfAll :
    ∀ parts : List Element,
      (∀ part ∈ parts, part.check = .ok ()) →
      ∀ name ∈ namesOfAll parts, checkName name = .ok ()
  | [], _, _, hName => nomatch hName
  | part :: parts, hCheck, name, hName => by
      rw [List.forall_mem_cons] at hCheck
      rcases List.mem_append.mp hName with hFirst | hRest
      · exact
          checkName_of_mem_names part hCheck.1 name hFirst
      · exact
          checkName_of_mem_namesOfAll parts hCheck.2 name
            hRest

end

end Element

namespace Grammar

open Element

variable {rules others : List Rule}

/- The characters in the notation of checked rules. -/
theorem mem_textOf
    (hRules : ∀ rule ∈ rules, rule.check = .ok ())
    {c : Char}
    (hc : c ∈ (textOf rules).toList) :
    isSign c = true ∨ isNameChar c = true ∨
      c ∈ ['\r', '\n'] := by
  induction rules with
  | nil => nomatch hc
  | cons rule rest ih =>
      rw [List.forall_mem_cons] at hRules
      rw [textOf, String.toList_append, String.toList_append,
        List.mem_append, List.mem_append] at hc
      rcases hc with (hRule | hEnd) | hRest
      · have hCheck := Rule.check_eq_ok_iff.mp hRules.1
        have hNames :
            ∀ name ∈ rule.name :: rule.element.names,
              checkName name = .ok () :=
          List.forall_mem_cons.mpr
            ⟨hCheck.1,
              checkName_of_mem_names rule.element hCheck.2⟩
        rcases rule.isSpelled_text c hRule with
          hSign | ⟨name, hName, hIn⟩
        · exact Or.inl hSign
        · exact
            Or.inr
              (Or.inl
                ((checkName_eq_ok_iff.mp
                  (hNames name hName)).2 c hIn))
      · exact Or.inr (Or.inr hEnd)
      · exact ih hRules.2 hRest

/- No angle bracket is in the notation of checked rules. -/
theorem not_mem_bytes_textOf
    (hRules : ∀ rule ∈ rules, rule.check = .ok ()) :
    byteOf '<' ∉ Text.bytes (textOf rules) := by
  have hAscii : IsAscii (textOf rules).toList := by
    intro c hc
    rcases mem_textOf hRules hc with hSign | hName | hEnd
    · exact lt_of_isSign hSign
    · exact lt_of_isNameChar hName
    · have hEnds : IsAscii ['\r', '\n'] := by decide
      exact hEnds c hEnd
  rw [← Array.mem_toList_iff, toList_bytes hAscii, word,
    List.mem_map]
  rintro ⟨c, hc, hSame⟩
  have hCode := congrArg UInt8.toNat hSame
  rw [toNat_byteOf (hAscii c hc),
    toNat_byteOf (by decide)] at hCode
  cases Char.toNat_inj.mp hCode
  rcases mem_textOf hRules hc with hSign | hName | hEnd
  · cases hSign
  · cases hName
  · revert hEnd
    decide

/- What comes back refers to names with letters alone. -/
theorem ReadsBackAs.letters
    (h : ReadsBackAs rules others)
    (hRules : ∀ rule ∈ rules, rule.check = .ok ()) :
    ∀ rule ∈ rules, ∀ name ∈ rule.element.names,
      startsWithLetter name = true := by
  intro rule hRule
  have hOthers :
      AreProper (fun name => startsWithLetter name = true)
        others := by
    refine areProper_of_readFrom ?_ h.reads
    rintro name (hLetter | hBracket)
    · exact hLetter
    · exact absurd hBracket (not_mem_bytes_textOf hRules)
  have hNames :
      rule.element.names ∈ others.map (·.element.names) := by
    rw [h.references]
    exact List.mem_map_of_mem hRule
  rcases List.mem_map.mp hNames with ⟨other, hOther, hSame⟩
  rw [← hSame]
  exact (hOthers.proper other hOther).names

/-
  Rules that are read from a text come back from their own
  notation if and only if all names that they refer to start
  with letters: the only names that their notation can say.
-/
theorem exists_readsBackAs_iff_letters
    {text : String}
    (h : read text = .ok rules)
    (hSome : rules ≠ []) :
    (∃ others, ReadsBackAs rules others) ↔
      ∀ rule ∈ rules, ∀ name ∈ rule.element.names,
        startsWithLetter name = true := by
  have hProper : AreProper (fun _ => True) rules :=
    areProper_of_readFrom (fun _ _ => trivial) h
  constructor
  · rintro ⟨others, hBack⟩
    exact
      hBack.letters
        (fun rule hRule => (hProper.proper rule hRule).check)
  · intro hLetters
    refine
      exists_readsBackAs_of_areProper hSome
        ⟨?_, hProper.nodup⟩
    intro rule hRule
    have hOld := hProper.proper rule hRule
    exact
      ⟨hOld.check, hOld.letter, hOld.counts,
        hLetters rule hRule⟩

/-
  A name in angle brackets that starts with a letter, below
  a count, and a rule that gets an alternative.
-/
def bracketedName : String :=
  "r=2*3<b-1> [%s\"x\"]\r\nb-1=%d65-70\r\nr=/b-1\r\n"

theorem exists_readsBackAs_bracketedName :
    ∃ rules,
      read bracketedName = .ok rules ∧
      rules ≠ [] ∧
      rules.map (·.element.names) = [["b-1", "b-1"], []] ∧
      ∃ others, ReadsBackAs rules others := by
  have hRead :
      (read bracketedName).toOption.any
        (fun rules =>
          rules.map (·.element.names) =
            [["b-1", "b-1"], []]) = true := by
    decide +kernel
  cases hRules : read bracketedName with
  | error error =>
      rw [hRules] at hRead
      cases hRead
  | ok rules =>
      rw [hRules] at hRead
      have hNames := of_decide_eq_true hRead
      have hSome : rules ≠ [] := by
        rintro rfl
        cases hNames
      have hAll :
          ∀ names ∈ rules.map (·.element.names),
            ∀ name ∈ names, startsWithLetter name = true := by
        rw [hNames]
        decide
      refine ⟨rules, rfl, hSome, hNames, ?_⟩
      rw [exists_readsBackAs_iff_letters hRules hSome]
      exact List.forall_mem_map.mp hAll

/-
  Rules that are read from a text without angle brackets
  come back from their notation.
-/
theorem exists_readsBackAs_of_plain
    {text : String}
    (hPlain : byteOf '<' ∉ Text.bytes text)
    (h : read text = .ok rules)
    (hSome : rules ≠ []) :
    ∃ others, ReadsBackAs rules others := by
  refine
    exists_readsBackAs_of_areProper hSome
      (areProper_of_readFrom ?_ h)
  rintro name (hLetter | hBracket)
  · exact hLetter
  · exact absurd hBracket hPlain

end Grammar

end Abnf

------------------------------------------------------------
-- Notation That Says Something Else
------------------------------------------------------------

namespace Abnf

/- A name with a count before it is written like copies. -/
theorem Element.text_countedName
    (count : Nat)
    (name : String) :
    (ruleName (toString count ++ name)).text =
      (repetition count (some count)
        (ruleName name)).text := by
  have hBare :
      (decide (count = 0) && decide (some count = some 1)) =
        false := by
    cases count with
    | zero => rfl
    | succ count => rfl
  rw [text, text, text, hBare, boundsText, if_pos rfl]
  rfl

namespace Grammar

open Element

variable {before behind : List Rule}

/- A rule of a name that starts with a count. -/
def countedName
    (rule : String)
    (count : Nat)
    (name : String) : Rule :=
  ⟨rule, .ruleName (toString count ++ name)⟩

/- The rule of as many copies as the count says. -/
def copiesOf
    (rule : String)
    (count : Nat)
    (name : String) : Rule :=
  ⟨rule, .repetition count (some count) (.ruleName name)⟩

/- The two rules have the same notation. -/
theorem textOf_countedName
    (rule : String)
    (count : Nat)
    (name : String) :
    textOf
        (before ++ countedName rule count name :: behind) =
      textOf
        (before ++ copiesOf rule count name :: behind) := by
  induction before with
  | nil =>
      rw [List.nil_append, List.nil_append, textOf, textOf,
        Rule.text, Rule.text]
      simp only [countedName, copiesOf, text_countedName]
  | cons first before ih =>
      rw [List.cons_append, List.cons_append, textOf, textOf,
        ih]

/- So a name that starts with a count is read as copies. -/
theorem read_textOf_countedName
    {rule : String}
    {count : Nat}
    {name : String}
    {rules : List Rule}
    (hRules :
      rules = before ++ copiesOf rule count name :: behind)
    (hNames : (rules.map (·.name)).Nodup)
    (hWritable : ∀ rule ∈ rules, rule.IsWritable) :
    read
        (textOf
          (before ++ countedName rule count name :: behind)) =
      .ok (rules.map Rule.flat) := by
  rw [textOf_countedName, ← hRules]
  exact
    read_textOf_eq (by rw [hRules]; simp) hNames hWritable

/-
  A name that is a count and the name of a rule: what is
  refused before it is written is accepted when it is read.
-/
def bracketedCount : String :=
  "r = <1abc>\r\nabc = %x78\r\n"

/- The rules of this text. -/
def countedRules : List Rule :=
  [countedName "r" 1 "abc", ⟨"abc", .chars "x"⟩]

/- The rules of their notation. -/
def copiedRules : List Rule :=
  [copiesOf "r" 1 "abc", ⟨"abc", .chars "x"⟩]

theorem read_bracketedCount :
    read bracketedCount = .ok countedRules := by
  have hRead :
      (read bracketedCount).toOption = some countedRules := by
    decide +kernel
  cases hRules : read bracketedCount with
  | error error =>
      rw [hRules] at hRead
      cases hRead
  | ok rules =>
      rw [hRules] at hRead
      cases hRead
      rfl

theorem read_textOf_countedRules :
    read (textOf countedRules) =
      .ok (copiedRules.map Rule.flat) := by
  refine
    @read_textOf_countedName [] [⟨"abc", .chars "x"⟩] "r" 1
      "abc" copiedRules rfl (by decide) ?_
  intro rule hRule
  simp only [copiedRules, List.mem_cons, List.not_mem_nil,
    or_false] at hRule
  rcases hRule with rfl | rfl
  all_goals exact ⟨by decide, by decide, by decide⟩

theorem not_readsBackAs_bracketedCount :
    ∃ rules others,
      read bracketedCount = .ok rules ∧
      rules ≠ [] ∧
      rules.map (·.element.names) = [["1abc"], []] ∧
      (Program.ofRules rules).toOption.isNone = true ∧
      read (textOf rules) = .ok others ∧
      others.map (·.element.names) = [["abc"], []] ∧
      (Program.ofRules others).toOption.isSome = true ∧
      ∀ others, ¬ ReadsBackAs rules others := by
  refine
    ⟨countedRules, copiedRules.map Rule.flat,
      read_bracketedCount, List.cons_ne_nil _ _, by decide,
      by decide +kernel, read_textOf_countedRules, by decide,
      by decide +kernel, ?_⟩
  intro others hBack
  have hLetter :=
    hBack.letters (by decide)
      (countedName "r" 1 "abc") List.mem_cons_self "1abc"
      (by decide)
  cases hLetter

end Grammar

end Abnf
