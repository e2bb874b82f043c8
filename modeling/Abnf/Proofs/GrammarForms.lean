import Abnf.Proofs.GrammarWords

/-
  The forms of words.

  What is generated by the rules for grammar texts is taken
  apart again: a word of a series into the words of its
  parts, and a word of a set into its one character. All
  words are ASCII, so that each byte is a character.

  Key definitions include:
    * `Abnf.Grammar.Matches`
    * `Abnf.Grammar.charsOf`
    * `Abnf.Grammar.IsChar`

  Main declarations:
    * `Abnf.Scope.Generates.series`
    * `Abnf.Grammar.exists_run_of_matches`
    * `Abnf.Grammar.generates_of_matches`
    * `Abnf.Grammar.toList_of_generates`
    * `Abnf.Grammar.IsChar.of_repetition`
-/

------------------------------------------------------------
-- Words Of Series
------------------------------------------------------------

namespace Abnf

namespace Scope.Generates

variable {scope : Scope}
variable {part : Element}
variable {parts : List Element}
variable {bytes : List UInt8}

/- The members of sets are ASCII, and so are all words. -/
theorem ascii
    {element : Element}
    (h : scope.Generates element bytes) :
    ∀ b ∈ bytes, b < 128 := by
  induction h with
  | ruleName _ _ ih => exact ih
  | nothing _ => exact List.forall_mem_nil _
  | member hMember =>
      rw [List.forall_mem_singleton]
      exact CharSet.lt_of_containsByte hMember
  | repetition _ _ _ ih =>
      intro b hb
      rcases List.mem_flatten.mp hb with ⟨copy, hCopy, hIn⟩
      exact ih copy hCopy b hIn
  | @concatenation parts words hLength _ ih =>
      intro b hb
      rcases List.mem_flatten.mp hb with ⟨word, hWord, hIn⟩
      rcases List.mem_iff_getElem.mp hWord with
        ⟨i, hi, rfl⟩
      have hPair :
          (parts[i], words[i]) ∈ parts.zip words := by
        rw [List.mem_iff_getElem]
        exact ⟨i, by simp [hi, ← hLength], by simp⟩
      exact ih _ hPair b hIn
  | alternation _ _ ih => exact ih

/- A word of a series starts with one of its first part. -/
theorem series
    (h :
      scope.Generates (.concatenation (part :: parts))
        bytes) :
    ∃ first rest,
      bytes = first ++ rest ∧
      scope.Generates part first ∧
      scope.Generates (.concatenation parts) rest := by
  cases h with
  | @concatenation _ words hLength hWords =>
      cases words with
      | nil => cases hLength
      | cons first words =>
          rw [List.zip_cons_cons, List.forall_mem_cons]
            at hWords
          refine
            ⟨first, words.flatten, List.flatten_cons,
              hWords.1, ?_⟩
          exact
            .concatenation (Nat.succ.inj hLength) hWords.2

theorem series_nil
    (h : scope.Generates (.concatenation []) bytes) :
    bytes = [] := by
  cases h with
  | concatenation hLength _ =>
      rw [List.length_nil, List.length_eq_zero_iff]
        at hLength
      rw [hLength, List.flatten_nil]

/- The word of the last part of a series is all of it. -/
theorem series_last
    (h : scope.Generates (.concatenation [part]) bytes) :
    scope.Generates part bytes := by
  rcases h.series with ⟨first, rest, rfl, hPart, hNil⟩
  rw [hNil.series_nil, List.append_nil]
  exact hPart

/- A part that may be left out is left out or not. -/
theorem optional
    (h : scope.Generates (.optional part) bytes) :
    bytes = [] ∨ scope.Generates part bytes := by
  cases h with
  | @repetition _ _ _ copies _ hMax hCopies =>
      have hLimit := hMax 1 rfl
      cases copies with
      | nil => exact Or.inl rfl
      | cons copy copies =>
          rw [List.length_cons, Nat.succ_le_succ_iff,
            Nat.le_zero, List.length_eq_zero_iff] at hLimit
          subst hLimit
          rw [List.flatten_singleton]
          exact Or.inr (hCopies copy List.mem_cons_self)

theorem exists_mem
    (h : scope.Generates (.alternation parts) bytes) :
    ∃ part ∈ parts, scope.Generates part bytes := by
  cases h with
  | alternation hPart hWord => exact ⟨_, hPart, hWord⟩

end Scope.Generates

end Abnf

------------------------------------------------------------
-- Words As Characters
------------------------------------------------------------

namespace Abnf

namespace Grammar

open Element

/- The matcher of a rule takes a text as a whole. -/
def Matches
    (name text : String) : Prop :=
  ∃ matcher entry,
    program = .ok matcher ∧
    matcher.entry? name = some entry ∧
    matcher.matchesFully entry (Text.bytes text) = true

/- The characters of ASCII bytes. -/
def charsOf
    (bytes : List UInt8) : List Char :=
  bytes.map (fun b => Char.ofNat b.toNat)

@[simp] theorem charsOf_nil : charsOf [] = [] := rfl

@[simp] theorem charsOf_append
    (bytes bytes' : List UInt8) :
    charsOf (bytes ++ bytes') =
      charsOf bytes ++ charsOf bytes' :=
  List.map_append

theorem charsOf_flatten
    (words : List (List UInt8)) :
    charsOf words.flatten = (words.map charsOf).flatten :=
  List.map_flatten

/- ASCII bytes are those of their characters. -/
theorem word_charsOf
    {bytes : List UInt8}
    (hAscii : ∀ b ∈ bytes, b < 128) :
    IsAscii (charsOf bytes) ∧
      word (charsOf bytes) = bytes := by
  have hCode :
      ∀ b ∈ bytes, (Char.ofNat b.toNat).toNat = b.toNat :=
    fun b hb =>
      CharSet.toNat_ofNat_of_lt b.toNat
        (UInt8.lt_iff_toNat_lt.mp (hAscii b hb))
  constructor
  · intro c hc
    rcases List.mem_map.mp hc with ⟨b, hb, rfl⟩
    rw [hCode b hb]
    exact UInt8.lt_iff_toNat_lt.mp (hAscii b hb)
  · rw [word, charsOf, List.map_map]
    conv_rhs => rw [← List.map_id bytes]
    apply List.map_congr_left
    intro b hb
    rw [Function.comp_apply, byteOf, hCode b hb,
      UInt8.ofNat_toNat, id]

/- ASCII characters are those of their bytes. -/
theorem charsOf_word
    {text : List Char}
    (hAscii : IsAscii text) :
    charsOf (word text) = text := by
  rw [charsOf, word, List.map_map]
  conv_rhs => rw [← List.map_id text]
  apply List.map_congr_left
  intro c hc
  rw [Function.comp_apply, toNat_byteOf (hAscii c hc),
    Char.ofNat_toNat, id]

/- A text that is generated has the characters of its bytes. -/
theorem toList_of_generates
    {text : String}
    {element : Element}
    (h :
      scope.Generates element (Text.bytes text).toList) :
    text.toList = charsOf (Text.bytes text).toList := by
  have hWord := word_charsOf h.ascii
  have hBytes :=
    @toList_bytes
      (String.ofList (charsOf (Text.bytes text).toList))
      (by rw [String.toList_ofList]; exact hWord.1)
  rw [String.toList_ofList, hWord.2] at hBytes
  have hSame :
      String.ofList (charsOf (Text.bytes text).toList) =
        text := by
    rw [← String.toByteArray_inj]
    apply ByteArray.ext
    exact Array.toList_inj.mp hBytes
  rw [← hSame, String.toList_ofList, hSame]

/- Whether a text is matched can be run. -/
theorem matches_of_run
    {name text : String}
    (h :
      (program.toOption.bind fun matcher =>
        (matcher.entry? name).map
          (matcher.matchesFully · (Text.bytes text))) =
        some true) :
    Matches name text := by
  rcases Option.bind_eq_some_iff.mp h with
    ⟨matcher, hProgram, h⟩
  rcases Option.map_eq_some_iff.mp h with
    ⟨entry, hEntry, hFully⟩
  refine ⟨matcher, entry, ?_, hEntry, hFully⟩
  cases hResult : program with
  | error cause =>
      rw [hResult] at hProgram
      cases hProgram
  | ok matcher' =>
      rw [hResult] at hProgram
      cases hProgram
      rfl

/- A text that is matched has a run of the rule over it. -/
theorem exists_run_of_matches
    {rule : Rule}
    (hRule : rule ∈ rules)
    {text : String}
    (h : Matches rule.name text) :
    ∃ depth,
      Readings (Text.bytes text)
          (scope.invoke (Text.bytes text) depth) ∧
        (scope.invoke (Text.bytes text) depth rule.name
          0).outcome = .matched (Text.bytes text).size := by
  rcases h with ⟨matcher, entry, hProgram, hEntry, hFully⟩
  rcases exists_matcher hRule with
    ⟨matcher', entry', hProgram', hEntry', hTrace⟩
  rw [hProgram] at hProgram'
  cases hProgram'
  rw [hEntry] at hEntry'
  cases hEntry'
  rcases hTrace (Text.bytes text) with
    ⟨depth, hRuns, hTrace⟩
  rw [Program.matchesFully, Program.run, hTrace,
    beq_iff_eq] at hFully
  exact ⟨depth, hRuns, hFully⟩

/- A text that is matched is a word of the rule. -/
theorem generates_of_matches
    {rule : Rule}
    (hRule : rule ∈ rules)
    {text : String}
    (h : Matches rule.name text) :
    scope.Generates (ruleName rule.name)
      (Text.bytes text).toList := by
  rcases exists_run_of_matches hRule h with
    ⟨depth, hRuns, hFully⟩
  rw [← Text.between_all]
  exact hRuns.generates _ _ _ (Nat.zero_le _) hFully

/- The words of a rule are those of its element. -/
theorem generates_of_rule
    {rule : Rule}
    (hRule : rule ∈ rules)
    {bytes : List UInt8}
    (h : scope.Generates (ruleName rule.name) bytes) :
    scope.Generates rule.element bytes := by
  have hFind := find?_of_mem_rules hRule
  cases h with
  | ruleName hOther hBody =>
      rw [hFind] at hOther
      cases hOther
      exact hBody

/- So are those of a core rule that is not hidden. -/
theorem generates_of_core
    {rule : Rule}
    (hRule : rule ∈ coreRules)
    (hVisible : Scope.hasName scope.own rule.name = false)
    {bytes : List UInt8}
    (h : scope.Generates (ruleName rule.name) bytes) :
    scope.Generates rule.element bytes := by
  have hFind :=
    @Scope.find?_of_mem_core scope rule nodup_coreRules
      hRule hVisible
  cases h with
  | ruleName hOther hBody =>
      rw [hFind] at hOther
      cases hOther
      exact hBody

end Grammar

end Abnf

------------------------------------------------------------
-- Single Characters
------------------------------------------------------------

namespace Abnf

namespace Grammar

open Element

/- Each word of an element is one character of some kind. -/
def IsChar
    (element : Element)
    (kind : Char → Bool) : Prop :=
  ∀ bytes, scope.Generates element bytes →
    ∃ c, charsOf bytes = [c] ∧ kind c = true

namespace IsChar

variable {kind : Char → Bool}

theorem terminal
    {s : CharSet}
    (hSome : s.isEmpty = false)
    (hKind :
      ∀ code < CharSet.tableSize,
        s.hasCode code = true →
        kind (Char.ofNat code) = true) :
    IsChar (terminal s) kind := by
  intro bytes h
  cases h with
  | nothing hEmpty =>
      rw [hSome] at hEmpty
      cases hEmpty
  | @member _ b hMember =>
      refine ⟨Char.ofNat b.toNat, rfl, ?_⟩
      exact
        hKind b.toNat
          (CharSet.lt_tableSize_of_hasCode hMember) hMember

theorem alternation
    {parts : List Element}
    (h : ∀ part ∈ parts, IsChar part kind) :
    IsChar (alternation parts) kind := by
  intro bytes hWord
  rcases hWord.exists_mem with ⟨part, hPart, hWord⟩
  exact h part hPart bytes hWord

theorem core
    {rule : Rule}
    (hRule : rule ∈ coreRules)
    (hVisible : Scope.hasName scope.own rule.name = false)
    (h : IsChar rule.element kind) :
    IsChar (ruleName rule.name) kind :=
  fun bytes hWord =>
    h bytes (generates_of_core hRule hVisible hWord)

theorem mono
    {element : Element}
    {kind' : Char → Bool}
    (h : IsChar element kind)
    (hKind : ∀ c, kind c = true → kind' c = true) :
    IsChar element kind' := by
  intro bytes hWord
  rcases h bytes hWord with ⟨c, hChar, hOne⟩
  exact ⟨c, hChar, hKind c hOne⟩

/- Copies of single characters are a row of them. -/
theorem of_repetition
    {body : Element}
    (h : IsChar body kind)
    {min : Nat}
    {max : Option Nat}
    {bytes : List UInt8}
    (hWord :
      scope.Generates (repetition min max body) bytes) :
    min ≤ (charsOf bytes).length ∧
      ∀ c ∈ charsOf bytes, kind c = true := by
  cases hWord with
  | @repetition _ _ _ copies hMin hMax hCopies =>
      have hRow :
          (charsOf copies.flatten).length =
              copies.length ∧
            ∀ c ∈ charsOf copies.flatten,
              kind c = true := by
        clear hMin hMax
        induction copies with
        | nil => exact ⟨rfl, List.forall_mem_nil _⟩
        | cons copy copies ih =>
            rw [List.forall_mem_cons] at hCopies
            rcases h copy hCopies.1 with ⟨c, hChar, hOne⟩
            have hRest := ih hCopies.2
            rw [List.flatten_cons, charsOf_append, hChar,
              List.singleton_append, List.length_cons,
              List.length_cons, hRest.1,
              List.forall_mem_cons]
            exact ⟨rfl, hOne, hRest.2⟩
      rw [hRow.1]
      exact ⟨hMin, hRow.2⟩

end IsChar

end Grammar

end Abnf
