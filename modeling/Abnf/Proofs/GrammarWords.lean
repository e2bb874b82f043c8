import Mathlib
import Abnf.Proofs.Flattening
import Abnf.Proofs.GrammarFrames
import Abnf.Proofs.Members

/-
  The words of grammar texts.

  Names, counts, character numbers and quoted texts as they
  are written: what each of them is a word of, and what is
  read from it. Everything written is ASCII, so a text can
  be taken for the list of its bytes.

  Key definitions include:
    * `Abnf.Grammar.word`
    * `Abnf.startsWithLetter`
    * `Abnf.Grammar.quoteMarks`
    * `Abnf.Grammar.quoted`

  Main declarations:
    * `Abnf.Grammar.toList_bytes`
    * `Abnf.Grammar.slice?_of_occurs`
    * `Abnf.Grammar.generates_rulename`
    * `Abnf.Grammar.generates_repeat`
    * `Abnf.Grammar.readRepeat_boundsText`
    * `Abnf.Grammar.generates_hexVal`
    * `Abnf.Grammar.generates_charVal`
    * `Abnf.Grammar.readNumVal_numText`
-/

------------------------------------------------------------
-- ASCII Texts
------------------------------------------------------------

namespace Abnf

namespace Grammar

/- All characters of a text are ASCII. -/
def IsAscii
    (text : List Char) : Prop :=
  ∀ c ∈ text, c.toNat < CharSet.tableSize

instance
    (text : List Char) :
    Decidable (IsAscii text) :=
  List.decidableBAll
    (fun c : Char => c.toNat < CharSet.tableSize) text

/- The bytes of an ASCII text. -/
def word
    (text : List Char) : List UInt8 :=
  text.map byteOf

theorem isAscii_append
    {text text' : List Char}
    (h : IsAscii text)
    (h' : IsAscii text') :
    IsAscii (text ++ text') := by
  intro c hc
  rcases List.mem_append.mp hc with hHere | hThere
  · exact h c hHere
  · exact h' c hThere

@[simp]
theorem length_word
    (text : List Char) :
    (word text).length = text.length :=
  List.length_map _

theorem word_append
    (text text' : List Char) :
    word (text ++ text') = word text ++ word text' :=
  List.map_append

theorem toNat_byteOf
    {c : Char}
    (hAscii : c.toNat < CharSet.tableSize) :
    (byteOf c).toNat = c.toNat := by
  simp only [CharSet.tableSize] at hAscii
  rw [byteOf, UInt8.toNat_ofNat']
  omega

/- An ASCII text is encoded as its bytes. -/
theorem toList_bytes
    {text : String}
    (hAscii : IsAscii text.toList) :
    (Text.bytes text).toList = word text.toList := by
  have hEncode :
      ∀ cs : List Char,
        IsAscii cs → cs.utf8Encode.data.toList = word cs := by
    intro cs
    induction cs with
    | nil => intro _; rfl
    | cons c cs ih =>
      intro hCs
      have hCode : c.toNat < 128 := hCs c List.mem_cons_self
      have hSize : c.utf8Size = 1 := by
        have hSmall : c.val ≤ 127 := by
          rw [UInt32.le_iff_toNat_le]
          have hVal : c.val.toNat = c.toNat := rfl
          have hLimit : (127 : UInt32).toNat = 127 := rfl
          omega
        simp [Char.utf8Size, hSmall]
      have hByte : c.val.toUInt8 = byteOf c := by
        rw [byteOf, UInt8.ofNat, Char.toNat]
        rfl
      have hRest := ih (fun d hd =>
        hCs d (List.mem_cons_of_mem _ hd))
      rw [List.utf8Encode_cons, List.utf8Encode_singleton,
        String.utf8EncodeChar_eq_singleton hSize, hByte]
      simp [hRest, word]
  rw [Text.bytes, String.toUTF8_eq_toByteArray,
    ← String.utf8Encode_toList]
  exact hEncode text.toList hAscii

variable {input : Array UInt8}
variable {start : Nat}

theorem le_size_of_occurs
    {bytes : List UInt8}
    (hSome : bytes ≠ [])
    (h : Text.Occurs input start bytes) :
    start + bytes.length ≤ input.size := by
  induction bytes generalizing start with
  | nil => exact absurd rfl hSome
  | cons b bytes ih =>
    rw [Text.Occurs] at h
    have hHere : start < input.size :=
      (Array.getElem?_eq_some_iff.mp h.1).1
    by_cases hNone : bytes = []
    · subst hNone
      exact hHere
    · have hRest := ih hNone h.2
      rw [List.length_cons]
      omega

/- The bytes between the ends of an occurrence. -/
theorem between_of_occurs
    {bytes : List UInt8}
    (h : Text.Occurs input start bytes) :
    Text.between input start (start + bytes.length) =
      bytes := by
  induction bytes generalizing start with
  | nil => exact Text.between_self start
  | cons b bytes ih =>
    rw [Text.Occurs] at h
    have hEnd :
        start + (b :: bytes).length =
          start + 1 + bytes.length := by
      rw [List.length_cons]
      omega
    rw [between_eq_cons h.1 (by rw [hEnd]; omega), hEnd,
      ih h.2]

/- An ASCII text that occurs is cut out as it is. -/
theorem slice?_of_occurs
    {text : List Char}
    (hAscii : IsAscii text)
    (hSome : text ≠ [])
    (h : Text.Occurs input start (word text)) :
    slice? input start (start + text.length) = some text := by
  have hSize : start + text.length ≤ input.size := by
    rw [← length_word text]
    apply le_size_of_occurs _ h
    simpa [word] using hSome
  have hBetween := between_of_occurs h
  rw [length_word] at hBetween
  have hExtract :
      (input.extract start (start + text.length)).toList =
        word text := by
    rw [← hBetween, Text.between]
    simp
  have hAll : (word text).all (· < 128) = true := by
    rw [List.all_eq_true]
    intro b hb
    rcases List.mem_map.mp hb with ⟨c, hc, rfl⟩
    rw [decide_eq_true_iff, UInt8.lt_iff_toNat_lt,
      toNat_byteOf (hAscii c hc)]
    exact hAscii c hc
  have hText :
      (word text).map (fun b => Char.ofNat b.toNat) =
        text := by
    rw [word, List.map_map]
    conv_rhs => rw [← List.map_id text]
    apply List.map_congr_left
    intro c hc
    simp only [Function.comp_apply, id_eq]
    rw [toNat_byteOf (hAscii c hc), Char.ofNat_toNat]
  rw [slice?]
  simp only [hExtract]
  rw [if_pos ⟨Nat.le_add_right _ _, hSize, hAll⟩, hText]

end Grammar

end Abnf

------------------------------------------------------------
-- Words Of Rules
------------------------------------------------------------

namespace Abnf

namespace Grammar

open Element

/- A rule stands for the words of its element. -/
theorem generates_rule
    {rule : Rule}
    (hRule : rule ∈ rules)
    {bytes : List UInt8}
    (h : scope.Generates rule.element bytes) :
    scope.Generates (ruleName rule.name) bytes :=
  .ruleName (find?_of_mem_rules hRule) h

/- A core rule that is not hidden does so too. -/
theorem generates_core
    {rule : Rule}
    (hRule : rule ∈ coreRules)
    (hVisible : Scope.hasName scope.own rule.name = false)
    {bytes : List UInt8}
    (h : scope.Generates rule.element bytes) :
    scope.Generates (ruleName rule.name) bytes :=
  .ruleName
    (@Scope.find?_of_mem_core scope rule nodup_coreRules
      hRule hVisible) h

theorem generates_nil
    {scope : Scope} :
    scope.Generates (concatenation []) [] := by
  have hNone :=
    @Scope.Generates.concatenation scope [] [] rfl
      (by simp)
  exact hNone

/- A series goes on behind the word of its first part. -/
theorem generates_cons
    {scope : Scope}
    {part : Element}
    {parts : List Element}
    {bytes bytes' : List UInt8}
    (hPart : scope.Generates part bytes)
    (hParts : scope.Generates (concatenation parts) bytes') :
    scope.Generates (concatenation (part :: parts))
      (bytes ++ bytes') := by
  cases hParts with
  | concatenation hLength hWords =>
    rename_i words
    have hAll :=
      @Scope.Generates.concatenation scope (part :: parts)
        (bytes :: words) (by simp [hLength])
        (by
          intro pair hPair
          rw [List.zip_cons_cons, List.mem_cons] at hPair
          rcases hPair with rfl | hRest
          · exact hPart
          · exact hWords pair hRest)
    rw [List.flatten_cons] at hAll
    exact hAll

theorem generates_last
    {part : Element}
    {bytes : List UInt8}
    (h : scope.Generates part bytes) :
    scope.Generates (concatenation [part]) bytes := by
  have hSeries := generates_cons h generates_nil
  rw [List.append_nil] at hSeries
  exact hSeries

/- Copies of single characters. -/
theorem generates_atLeast
    {body : Element}
    {min : Nat}
    {text : List Char}
    (hMin : min ≤ text.length)
    (h : ∀ c ∈ text, scope.Generates body [byteOf c]) :
    scope.Generates (atLeast min body) (word text) := by
  have hCopies :=
    @Scope.Generates.repetition scope min none body
      (text.map (fun c => [byteOf c]))
      (by simpa using hMin) (fun _ hLimit => nomatch hLimit)
      (by
        intro copy hCopy
        rcases List.mem_map.mp hCopy with ⟨c, hc, rfl⟩
        exact h c hc)
  have hFlat :
      (text.map (fun c => [byteOf c])).flatten =
        word text := by
    rw [← List.flatMap_def, word, List.map_eq_flatMap]
  rw [hFlat] at hCopies
  exact hCopies

theorem generates_any
    {body : Element}
    {text : List Char}
    (h : ∀ c ∈ text, scope.Generates body [byteOf c]) :
    scope.Generates (any body) (word text) :=
  generates_atLeast (Nat.zero_le _) h

/- A part that may be left out. -/
theorem generates_optional_none
    (body : Element) :
    scope.Generates (optional body) [] := by
  have hNone :=
    @Scope.Generates.repetition scope 0 (some 1) body []
      (Nat.le_refl _) (fun _ _ => Nat.zero_le _) (by simp)
  exact hNone

theorem generates_optional_some
    {body : Element}
    {bytes : List UInt8}
    (h : scope.Generates body bytes) :
    scope.Generates (optional body) bytes := by
  have hOne :=
    @Scope.Generates.repetition scope 0 (some 1) body
      [bytes] (Nat.zero_le _)
      (by rintro _ ⟨⟩; exact Nat.le_refl _)
      (by simpa using h)
  rw [List.flatten_singleton] at hOne
  exact hOne

end Grammar

end Abnf

------------------------------------------------------------
-- Characters
------------------------------------------------------------

namespace Abnf

namespace Grammar

open Element

/- A range has the characters between its ends. -/
theorem generates_range
    {first last c : Char}
    (hLow : first.toNat ≤ c.toNat)
    (hHigh : c.toNat ≤ last.toNat)
    (hAscii : c.toNat < CharSet.tableSize) :
    scope.Generates (range first last) [byteOf c] := by
  apply Scope.Generates.member
  rw [CharSet.containsByte, toNat_byteOf hAscii,
    ← CharSet.contains, CharSet.contains_ofRange,
    decide_eq_true_iff]
  exact
    ⟨le_iff_toNat_le.mpr hLow, le_iff_toNat_le.mpr hHigh,
      hAscii⟩

theorem bounds_of_isAlpha
    {c : Char}
    (h : c.isAlpha = true) :
    (65 ≤ c.toNat ∧ c.toNat ≤ 90) ∨
      (97 ≤ c.toNat ∧ c.toNat ≤ 122) := by
  simpa [Char.isAlpha, Char.isUpper, Char.isLower,
    UInt32.le_iff_toNat_le] using h

theorem bounds_of_isDigit
    {c : Char}
    (h : c.isDigit = true) :
    48 ≤ c.toNat ∧ c.toNat ≤ 57 := by
  simpa [Char.isDigit, UInt32.le_iff_toNat_le] using h

theorem generates_alpha
    {c : Char}
    (h : c.isAlpha = true) :
    scope.Generates (ruleName "ALPHA") [byteOf c] := by
  have hRule :
      (⟨"ALPHA",
        alternation [range 'A' 'Z', range 'a' 'z']⟩ :
          Rule) ∈ coreRules := by
    decide
  apply generates_core hRule (by decide)
  have hTable : 122 < CharSet.tableSize := by decide
  rcases bounds_of_isAlpha h with
    ⟨hLow, hHigh⟩ | ⟨hLow, hHigh⟩
  · exact
      .alternation List.mem_cons_self
        (generates_range hLow hHigh (by omega))
  · exact
      .alternation (List.mem_cons_of_mem _ List.mem_cons_self)
        (generates_range hLow hHigh (by omega))

theorem generates_digit
    {c : Char}
    (h : c.isDigit = true) :
    scope.Generates (ruleName "DIGIT") [byteOf c] := by
  have hRule :
      (⟨"DIGIT", range '0' '9'⟩ : Rule) ∈ coreRules := by
    decide
  have hTable : 57 < CharSet.tableSize := by decide
  have hBounds := bounds_of_isDigit h
  exact
    generates_core hRule (by decide)
      (generates_range hBounds.1 hBounds.2 (by omega))

/- One character by itself. -/
theorem generates_chars
    (c : Char)
    (hAscii : c.toNat < CharSet.tableSize) :
    scope.Generates (chars (String.singleton c))
      [byteOf c] := by
  apply Scope.Generates.member
  have hUnion :
      (String.singleton c).toList.foldl
          (fun s d => s ∪ CharSet.ofRange d d)
          CharSet.empty =
        CharSet.empty ∪ CharSet.ofRange c c := by
    simp
  rw [hUnion, CharSet.containsByte, CharSet.hasCode_union,
    CharSet.hasCode_empty, Bool.false_or,
    CharSet.ofRange, if_pos (Char.le_refl c),
    toNat_byteOf hAscii, CharSet.hasCode_ofSpan (by omega),
    decide_eq_true_iff]
  omega

end Grammar

end Abnf

------------------------------------------------------------
-- Names
------------------------------------------------------------

namespace Abnf

/- A name starts with an ASCII letter. -/
def startsWithLetter
    (name : String) : Bool :=
  name.toList.head?.any Char.isAlpha

/- What is checked of a name. -/
theorem checkName_eq_ok_iff
    {name : String} :
    checkName name = .ok () ↔
      name.toList ≠ [] ∧
        ∀ c ∈ name.toList, isNameChar c = true := by
  have hEmpty : name.isEmpty = true ↔ name.toList = [] := by
    rw [String.isEmpty_iff, String.toList_eq_nil_iff]
  unfold checkName
  split
  · rename_i hNone
    simp [hEmpty.mp hNone]
  · rename_i hSome
    rw [hEmpty] at hSome
    split
    · rename_i hAll
      rw [List.all_eq_true] at hAll
      simp only [ne_eq, true_iff]
      exact ⟨hSome, hAll⟩
    · rename_i hAll
      rw [List.all_eq_true] at hAll
      simp [hAll]

namespace Grammar

open Element

theorem lt_of_isNameChar
    {c : Char}
    (h : isNameChar c = true) :
    c.toNat < CharSet.tableSize := by
  have hTable : 122 < CharSet.tableSize := by decide
  rw [isNameChar, Bool.or_eq_true, Char.isAlphanum,
    Bool.or_eq_true, beq_iff_eq] at h
  rcases h with (hAlpha | hDigit) | rfl
  · have hBounds := bounds_of_isAlpha hAlpha
    omega
  · have hBounds := bounds_of_isDigit hDigit
    omega
  · decide

/- Names are ASCII texts. -/
theorem isAscii_of_checkName
    {name : String}
    (hCheck : checkName name = .ok ()) :
    IsAscii name.toList :=
  fun c hc =>
    lt_of_isNameChar
      ((checkName_eq_ok_iff.mp hCheck).2 c hc)

/- A character behind the first one of a name. -/
theorem generates_nameChar
    {c : Char}
    (h : isNameChar c = true) :
    scope.Generates
      (alternation
        [ruleName "ALPHA", ruleName "DIGIT", chars "-"])
      [byteOf c] := by
  rw [isNameChar, Bool.or_eq_true, Char.isAlphanum,
    Bool.or_eq_true, beq_iff_eq] at h
  rcases h with (hAlpha | hDigit) | rfl
  · exact
      .alternation List.mem_cons_self (generates_alpha hAlpha)
  · exact
      .alternation (List.mem_cons_of_mem _ List.mem_cons_self)
        (generates_digit hDigit)
  · exact
      .alternation (by simp)
        (generates_chars '-' (by decide))

/- A proper name that starts with a letter is a rule name. -/
theorem generates_rulename
    {name : String}
    (hCheck : checkName name = .ok ())
    (hLetter : startsWithLetter name = true) :
    scope.Generates (ruleName "rulename")
      (word name.toList) := by
  have hRule :
      (⟨"rulename",
        concatenation
          [ruleName "ALPHA",
           any
             (alternation
               [ruleName "ALPHA", ruleName "DIGIT",
                chars "-"])]⟩ : Rule) ∈ rules := by
    decide
  have hChars := (checkName_eq_ok_iff.mp hCheck).2
  rw [startsWithLetter] at hLetter
  apply generates_rule hRule
  cases hName : name.toList with
  | nil =>
    rw [hName] at hLetter
    cases hLetter
  | cons c cs =>
    rw [hName] at hLetter hChars
    have hRest :
        scope.Generates
          (any
            (alternation
              [ruleName "ALPHA", ruleName "DIGIT",
               chars "-"]))
          (word cs) :=
      generates_any (fun d hd =>
        generates_nameChar
          (hChars d (List.mem_cons_of_mem _ hd)))
    exact
      generates_cons (generates_alpha hLetter)
        (generates_last hRest)

end Grammar

end Abnf

------------------------------------------------------------
-- Counts
------------------------------------------------------------

namespace Abnf

namespace Grammar

open Element

/- The decimal digits of a number. -/
def digitsOf
    (n : Nat) : List Char :=
  Nat.toDigits 10 n

theorem toList_toString
    (n : Nat) :
    (toString n).toList = digitsOf n :=
  Nat.toList_repr

theorem isDigit_of_mem_digitsOf
    {n : Nat}
    {c : Char}
    (h : c ∈ digitsOf n) :
    c.isDigit = true :=
  Nat.isDigit_of_mem_toDigits (by decide) (by decide) h

/- Digits have the value that the library gives to them. -/
theorem digitsValue?_of_isDigit
    {digits : List Char}
    (h : ∀ c ∈ digits, c.isDigit = true)
    (value : Nat) :
    digitsValue? 10 value digits =
      some (Nat.ofDigitChars 10 digits value) := by
  induction digits generalizing value with
  | nil => rfl
  | cons c digits ih =>
    have hBounds := bounds_of_isDigit (h c List.mem_cons_self)
    have hLow : '0' ≤ c := le_iff_toNat_le.mpr hBounds.1
    have hHigh : c ≤ '9' := le_iff_toNat_le.mpr hBounds.2
    have hZero : '0'.toNat = 48 := rfl
    have hDigit :
        digitValue? 10 c = some (c.toNat - '0'.toNat) := by
      rw [digitValue?, if_pos ⟨hLow, hHigh⟩]
      simp only [Option.filter_eq_some_iff,
        decide_eq_true_iff, true_and]
      omega
    rw [digitsValue?, hDigit, Nat.ofDigitChars_cons,
      Nat.mul_comm 10 value]
    exact
      ih (fun d hd => h d (List.mem_cons_of_mem _ hd)) _

/- A count as it is written, if it is not left out. -/
def countText : Option Nat → List Char
  | none => []
  | some n => digitsOf n

theorem isDigit_of_mem_countText
    {count : Option Nat}
    {c : Char}
    (h : c ∈ countText count) :
    c.isDigit = true := by
  cases count with
  | none => exact nomatch h
  | some n => exact isDigit_of_mem_digitsOf h

/- A count as it is written is read as the count. -/
theorem readCount_countText
    {count : Option Nat}
    (hLimit : count.all (· < countLimit) = true) :
    readCount (countText count) = .ok count := by
  cases count with
  | none => rfl
  | some n =>
    rw [Option.all_some] at hLimit
    have hSome : (digitsOf n).isEmpty = false := by
      rw [Bool.eq_false_iff, ne_eq, List.isEmpty_iff]
      exact Nat.toDigits_ne_nil
    have hValue :
        digitsValue? 10 0 (digitsOf n) = some n := by
      rw [digitsValue?_of_isDigit
        (fun _ hc => isDigit_of_mem_digitsOf hc), digitsOf,
        Nat.ofDigitChars_ten_toDigits]
    have hNumber :
        numberBelow? countLimit 10 (digitsOf n) = some n := by
      rw [numberBelow?, hSome, if_neg Bool.false_ne_true,
        hValue, Option.filter_some, hLimit, if_pos rfl]
    rw [countText, readCount, hSome,
      if_neg Bool.false_ne_true, hNumber]

/- A text is cut where a mark first comes. -/
theorem span_of_head
    {mark : Char}
    {before rest : List Char}
    (hBefore : ∀ c ∈ before, (c != mark) = true)
    (hRest : rest.head?.all (· == mark) = true) :
    (before ++ rest).span (· != mark) = (before, rest) := by
  rw [List.span_eq_takeWhile_dropWhile,
    List.takeWhile_append_of_pos hBefore,
    List.dropWhile_append_of_pos hBefore]
  cases rest with
  | nil => simp
  | cons c rest =>
    simp only [List.head?_cons, Option.all_some,
      beq_iff_eq] at hRest
    subst hRest
    simp

/- Digits end before a star. -/
theorem span_star
    {before : List Char}
    (hBefore : ∀ c ∈ before, c.isDigit = true)
    {rest : List Char}
    (hRest : rest.head?.all (· == '*') = true) :
    (before ++ rest).span (· != '*') = (before, rest) := by
  have hDigits : ∀ c ∈ before, (c != '*') = true := by
    intro c hc
    rw [bne_iff_ne]
    rintro rfl
    exact absurd (hBefore '*' hc) (by decide)
  exact span_of_head hDigits hRest

/- The bounds of a repetition fit into counts. -/
def boundsFit
    (min : Nat)
    (max : Option Nat) : Bool :=
  min < countLimit && max.all (· < countLimit)

/-
  The two forms of bounds: one count for both, or two counts
  around a star, of which the first is left out if it is
  zero.
-/
theorem toList_boundsText
    (min : Nat)
    (max : Option Nat) :
    (max = some min ∧
        (boundsText min max).toList =
          countText (some min)) ∨
      ∃ low : Option Nat,
        (low = some min ∨ (low = none ∧ min = 0)) ∧
        (boundsText min max).toList =
          countText low ++ '*' :: countText max := by
  cases max with
  | none =>
    by_cases hZero : min = 0
    · subst hZero
      exact Or.inr ⟨none, Or.inr ⟨rfl, rfl⟩, rfl⟩
    · refine Or.inr ⟨some min, Or.inl rfl, ?_⟩
      rw [boundsText, if_neg hZero, String.toList_append,
        toList_toString]
      rfl
  | some max =>
    by_cases hSame : min = max
    · subst hSame
      refine Or.inl ⟨rfl, ?_⟩
      rw [boundsText, if_pos rfl, toList_toString]
      rfl
    · by_cases hZero : min = 0
      · refine Or.inr ⟨none, Or.inr ⟨rfl, hZero⟩, ?_⟩
        rw [boundsText, if_neg hSame, if_pos hZero,
          String.toList_append, toList_toString]
        rfl
      · refine Or.inr ⟨some min, Or.inl rfl, ?_⟩
        rw [boundsText, if_neg hSame, if_neg hZero,
          String.toList_append, String.toList_append,
          toList_toString, toList_toString,
          List.append_assoc]
        rfl

/- Written bounds are read as the bounds. -/
theorem readRepeat_boundsText
    {min : Nat}
    {max : Option Nat}
    (hFit : boundsFit min max = true) :
    readRepeat (boundsText min max).toList =
      .ok (min, max) := by
  rw [boundsFit, Bool.and_eq_true] at hFit
  have hMin :
      readCount (countText (some min)) = .ok (some min) :=
    readCount_countText hFit.1
  have hDigits :
      ∀ count, ∀ c ∈ countText count, c.isDigit = true :=
    fun _ _ hc => isDigit_of_mem_countText hc
  rcases toList_boundsText min max with
    ⟨rfl, hText⟩ | ⟨low, hLow, hText⟩
  · have hSpan := @span_star _ (hDigits (some min)) [] rfl
    rw [List.append_nil] at hSpan
    rw [hText, readRepeat, hSpan]
    simp only [hMin]
    rfl
  · have hMax := readCount_countText hFit.2
    have hSpan :=
      @span_star _ (hDigits low) ('*' :: countText max) rfl
    rw [hText, readRepeat, hSpan]
    rcases hLow with rfl | ⟨rfl, rfl⟩
    · simp only [hMin, hMax]
      rfl
    · simp only [hMax]
      rfl

theorem isAscii_of_isDigit
    {text : List Char}
    (h : ∀ c ∈ text, c.isDigit = true) :
    IsAscii text := by
  intro c hc
  have hTable : 57 < CharSet.tableSize := by decide
  have hBounds := bounds_of_isDigit (h c hc)
  omega

theorem isAscii_boundsText
    (min : Nat)
    (max : Option Nat) :
    IsAscii (boundsText min max).toList := by
  have hCount :
      ∀ count, IsAscii (countText count) :=
    fun _ =>
      isAscii_of_isDigit
        (fun _ hc => isDigit_of_mem_countText hc)
  rcases toList_boundsText min max with
    ⟨_, hText⟩ | ⟨low, _, hText⟩
  · rw [hText]
    exact hCount (some min)
  · rw [hText]
    exact
      isAscii_append (hCount low)
        (@isAscii_append ['*'] _ (by decide) (hCount max))

theorem boundsText_ne_nil
    (min : Nat)
    (max : Option Nat) :
    (boundsText min max).toList ≠ [] := by
  rcases toList_boundsText min max with
    ⟨_, hText⟩ | ⟨low, _, hText⟩
  · rw [hText]
    exact Nat.toDigits_ne_nil
  · rw [hText]
    simp

/- Written bounds are what a repetition may start with. -/
theorem generates_repeat
    (min : Nat)
    (max : Option Nat) :
    scope.Generates (ruleName "repeat")
      (word (boundsText min max).toList) := by
  have hRule :
      (⟨"repeat",
        alternation
          [concatenation
             [any (ruleName "DIGIT"),
              chars "*",
              any (ruleName "DIGIT")],
           digits "DIGIT"]⟩ : Rule) ∈ rules := by
    decide
  have hDigits :
      ∀ count, ∀ c ∈ countText count,
        scope.Generates (ruleName "DIGIT") [byteOf c] :=
    fun _ _ hc =>
      generates_digit (isDigit_of_mem_countText hc)
  apply generates_rule hRule
  rcases toList_boundsText min max with
    ⟨_, hText⟩ | ⟨low, _, hText⟩
  · rw [hText]
    refine
      .alternation (List.mem_cons_of_mem _ List.mem_cons_self)
        (generates_atLeast ?_ (hDigits (some min)))
    exact Nat.length_toDigits_pos
  · rw [hText, word_append]
    refine .alternation List.mem_cons_self ?_
    refine generates_cons (generates_any (hDigits low)) ?_
    exact
      generates_cons (generates_chars '*' (by decide))
        (generates_last (generates_any (hDigits max)))

end Grammar

end Abnf

------------------------------------------------------------
-- Character Numbers
------------------------------------------------------------

namespace Abnf

namespace Grammar

open Element

/- The hexadecimal digits of a code. -/
def hexDigits
    (code : Nat) : List Char :=
  (Text.hexUpper 2 code).toList

/- An upper case hexadecimal digit. -/
def isHexDigit
    (c : Char) : Bool :=
  c.isDigit || (65 ≤ c.toNat && c.toNat ≤ 70)

/- The digits of a code in the ASCII table. -/
theorem hexDigits_of_lt :
    ∀ code < CharSet.tableSize,
      (hexDigits code).all isHexDigit = true ∧
        (hexDigits code).length = 2 ∧
        numberBelow? codeLimit 16 (hexDigits code) =
          some code := by
  set_option maxRecDepth 8000 in decide

theorem lt_of_isHexDigit
    {c : Char}
    (h : isHexDigit c = true) :
    48 ≤ c.toNat ∧ c.toNat ≤ 70 := by
  rw [isHexDigit, Bool.or_eq_true, Bool.and_eq_true,
    decide_eq_true_iff, decide_eq_true_iff] at h
  rcases h with hDigit | hLetter
  · have hBounds := bounds_of_isDigit hDigit
    omega
  · omega

theorem generates_hexDigit
    {c : Char}
    (h : isHexDigit c = true) :
    scope.Generates (ruleName "HEXDIG") [byteOf c] := by
  have hRule :
      (⟨"HEXDIG",
        alternation [ruleName "DIGIT", range 'A' 'F']⟩ :
          Rule) ∈ coreRules := by
    decide
  have hTable : 70 < CharSet.tableSize := by decide
  have hBounds := lt_of_isHexDigit h
  apply generates_core hRule (by decide)
  rw [isHexDigit, Bool.or_eq_true, Bool.and_eq_true,
    decide_eq_true_iff, decide_eq_true_iff] at h
  rcases h with hDigit | hLetter
  · exact
      .alternation List.mem_cons_self
        (generates_digit hDigit)
  · exact
      .alternation (List.mem_cons_of_mem _ List.mem_cons_self)
        (generates_range hLetter.1 hLetter.2 (by omega))

/- A written code is read as its character. -/
theorem readCode_hexDigits
    {code : Nat}
    (hTable : code < CharSet.tableSize) :
    readCode 16 (hexDigits code) = .ok (Char.ofNat code) := by
  have hNumber := (hexDigits_of_lt code hTable).2.2
  have hValid : code.isValidChar := by
    simp only [CharSet.tableSize] at hTable
    left
    omega
  have hNat := CharSet.toNat_ofNat_of_lt code hTable
  rw [readCode, hNumber]
  simp only [hValid, if_true, CharSet.ofChar, hNat, hTable]
  rfl

/- The number of a run behind its percent sign. -/
def numText
    (run : Nat × Nat) : List Char :=
  'x' :: hexDigits run.1 ++
    if run.1 = run.2 then [] else '-' :: hexDigits run.2

theorem toList_runText
    (run : Nat × Nat) :
    (CharSet.runText run).toList = '%' :: numText run := by
  unfold CharSet.runText numText hexDigits
  have hStart : "%x".toList = ['%', 'x'] := rfl
  have hDash : "-".toList = ['-'] := rfl
  split
  · rw [String.toList_append, List.append_nil, hStart,
      List.cons_append, List.singleton_append]
  · rw [String.toList_append, String.toList_append,
      String.toList_append, List.append_assoc,
      List.append_assoc, hStart, hDash]
    simp only [List.cons_append, List.nil_append]

/- Hexadecimal digits are neither dashes nor dots. -/
theorem ne_of_isHexDigit
    {c : Char}
    (h : isHexDigit c = true) :
    c ≠ '-' ∧ c ≠ '.' := by
  have hBounds := lt_of_isHexDigit h
  constructor
  · rintro rfl
    exact absurd hBounds.1 (by decide)
  · rintro rfl
    exact absurd hBounds.1 (by decide)

/- Digits end before a dash. -/
theorem span_dash
    {before : List Char}
    (hBefore : before.all isHexDigit = true)
    {rest : List Char}
    (hRest : rest.head?.all (· == '-') = true) :
    (before ++ rest).span (· != '-') = (before, rest) := by
  rw [List.all_eq_true] at hBefore
  have hDigits : ∀ c ∈ before, (c != '-') = true := by
    intro c hc
    rw [bne_iff_ne]
    exact (ne_of_isHexDigit (hBefore c hc)).1
  exact span_of_head hDigits hRest

/- A number without dots is one piece. -/
theorem splitDots_of_isHexDigit
    {text : List Char}
    (h : text.all isHexDigit = true) :
    splitDots text = [text] := by
  induction text with
  | nil => rfl
  | cons c text ih =>
    rw [List.all_cons, Bool.and_eq_true] at h
    have hDot := (ne_of_isHexDigit h.1).2
    have hRest := ih h.2
    rw [splitDots] at hRest
    rw [splitDots, List.foldr_cons, hRest]
    simp [hDot]

/- A written run is read as its set. -/
theorem readNumVal_numText
    {run : Nat × Nat}
    (hOrdered : run.1 ≤ run.2)
    (hTable : run.2 < CharSet.tableSize) :
    readNumVal 16 (numText run) =
      .ok (terminal (.ofRun run)) := by
  have hFirst : run.1 < CharSet.tableSize := by omega
  have hDigits := (hexDigits_of_lt run.1 hFirst).1
  have hRead := readCode_hexDigits hFirst
  have hRead' := readCode_hexDigits hTable
  have hNat := CharSet.toNat_ofNat_of_lt run.1 hFirst
  have hNat' := CharSet.toNat_ofNat_of_lt run.2 hTable
  by_cases hSame : run.1 = run.2
  · have hSpan := @span_dash _ hDigits [] rfl
    rw [List.append_nil] at hSpan
    rw [numText, if_pos hSame, List.append_nil, readNumVal,
      List.drop_succ_cons, List.drop_zero, hSpan]
    simp only [splitDots_of_isHexDigit hDigits,
      List.mapM_cons, List.mapM_nil, readCodeSet, hRead,
      bind, Except.bind, CharSet.ofChar, hNat, hFirst,
      if_true]
    rw [CharSet.ofRun, ← hSame]
    rfl
  · have hSpan :=
      @span_dash _ hDigits ('-' :: hexDigits run.2) rfl
    have hOrder :
        ¬ Char.ofNat run.2 < Char.ofNat run.1 := by
      rw [Char.not_lt, le_iff_toNat_le]
      omega
    have hLess : Char.ofNat run.1 ≤ Char.ofNat run.2 := by
      rw [le_iff_toNat_le]
      omega
    rw [numText, if_neg hSame, readNumVal, List.cons_append,
      List.drop_succ_cons, List.drop_zero, hSpan]
    simp only [hRead, hRead', bind, Except.bind, hOrder,
      if_false, CharSet.ofRange, hLess, if_true, hNat,
      hNat']
    rfl

theorem isAscii_numText
    {run : Nat × Nat}
    (hOrdered : run.1 ≤ run.2)
    (hTable : run.2 < CharSet.tableSize) :
    IsAscii (numText run) := by
  have hDigits :
      ∀ code < CharSet.tableSize, IsAscii (hexDigits code) := by
    intro code hCode c hc
    have hTable : 70 < CharSet.tableSize := by decide
    have hAll := (hexDigits_of_lt code hCode).1
    rw [List.all_eq_true] at hAll
    have hBounds := lt_of_isHexDigit (hAll c hc)
    omega
  have hFirst := hDigits run.1 (by omega)
  have hLast := hDigits run.2 hTable
  intro c hc
  unfold numText at hc
  rw [List.cons_append, List.mem_cons, List.mem_append] at hc
  rcases hc with rfl | hc | hc
  · decide
  · exact hFirst c hc
  · split at hc
    · exact nomatch hc
    · rcases List.mem_cons.mp hc with rfl | hc
      · decide
      · exact hLast c hc

/- A written run is a number in base sixteen. -/
theorem generates_hexVal
    {run : Nat × Nat}
    (hOrdered : run.1 ≤ run.2)
    (hTable : run.2 < CharSet.tableSize) :
    scope.Generates (ruleName "hex-val")
      (word (numText run)) := by
  have hRule :
      (⟨"hex-val", numeric "Xx" "HEXDIG"⟩ : Rule) ∈ rules := by
    decide
  have hDigits :
      ∀ code < CharSet.tableSize,
        scope.Generates (digits "HEXDIG")
          (word (hexDigits code)) := by
    intro code hCode
    have hFacts := hexDigits_of_lt code hCode
    have hAll := hFacts.1
    rw [List.all_eq_true] at hAll
    exact
      generates_atLeast (by omega)
        (fun c hc => generates_hexDigit (hAll c hc))
  have hLetter :
      scope.Generates (chars "Xx") [byteOf 'x'] :=
    .member (by decide)
  apply generates_rule hRule
  have hText :
      word (numText run) =
        [byteOf 'x'] ++
          (word (hexDigits run.1) ++
            word
              (if run.1 = run.2 then []
               else '-' :: hexDigits run.2)) := by
    rw [numText, List.cons_append, ← List.singleton_append,
      word_append, word_append]
    rfl
  rw [hText]
  refine
    generates_cons hLetter
      (generates_cons (hDigits run.1 (by omega))
        (generates_last ?_))
  split
  · exact generates_optional_none _
  · refine generates_optional_some ?_
    refine
      .alternation (List.mem_cons_of_mem _ List.mem_cons_self)
        ?_
    rw [← @List.singleton_append Char '-', word_append]
    exact
      generates_cons (generates_chars '-' (by decide))
        (generates_last (hDigits run.2 hTable))

end Grammar

end Abnf

------------------------------------------------------------
-- Quoted Texts
------------------------------------------------------------

namespace Abnf

namespace Grammar

open Element

/- The character may stand between two quotes. -/
def isQuotable
    (c : Char) : Bool :=
  (0x20 ≤ c.toNat && c.toNat ≤ 0x21) ||
    (0x23 ≤ c.toNat && c.toNat ≤ 0x7e)

/-
  What may stand before a quoted text, and whether letter
  case counts behind it.
-/
def quoteMarks : List (List Char × Bool) :=
  [([], false),
   (['%', 'i'], false), (['%', 'I'], false),
   (['%', 's'], true), (['%', 'S'], true)]

/- A text between two quotes, behind what stands before. -/
def quoted
    (before text : List Char) : List Char :=
  before ++ '"' :: (text ++ ['"'])

theorem lt_of_isQuotable
    {c : Char}
    (h : isQuotable c = true) :
    c.toNat < CharSet.tableSize := by
  have hTable : 0x7e < CharSet.tableSize := by decide
  simp only [isQuotable, Bool.or_eq_true, Bool.and_eq_true,
    decide_eq_true_eq] at h
  omega

theorem isAscii_quoted
    {before text : List Char}
    {sensitive : Bool}
    (hBefore : (before, sensitive) ∈ quoteMarks)
    (hText : ∀ c ∈ text, isQuotable c = true) :
    IsAscii (quoted before text) := by
  have hMarks :
      ∀ pair ∈ quoteMarks, IsAscii pair.1 := by
    decide
  have hInner : IsAscii text :=
    fun c hc => lt_of_isQuotable (hText c hc)
  exact
    isAscii_append (hMarks _ hBefore)
      (@isAscii_append ['"'] _ (by decide)
        (isAscii_append hInner (by decide)))

variable {text : List Char}

/- A text between two quotes. -/
theorem generates_quotedString
    (hText : ∀ c ∈ text, isQuotable c = true) :
    scope.Generates (ruleName "quoted-string")
      (word (quoted [] text)) := by
  have hQuote :
      scope.Generates (ruleName "DQUOTE") (word ['"']) :=
    @generates_core ⟨"DQUOTE", chars "\""⟩ (by decide)
      (by decide) _ (generates_chars '"' (by decide))
  have hInner :
      scope.Generates
        (any
          (alternation
            [range '\x20' '\x21', range '\x23' '\x7e']))
        (word text) := by
    apply generates_any
    intro c hc
    have hAscii := lt_of_isQuotable (hText c hc)
    have hBounds := hText c hc
    simp only [isQuotable, Bool.or_eq_true,
      Bool.and_eq_true, decide_eq_true_eq] at hBounds
    rcases hBounds with ⟨hLow, hHigh⟩ | ⟨hLow, hHigh⟩
    · exact
        .alternation List.mem_cons_self
          (generates_range hLow hHigh hAscii)
    · exact
        .alternation
          (List.mem_cons_of_mem _ List.mem_cons_self)
          (generates_range hLow hHigh hAscii)
  have hSeries :=
    generates_cons hQuote
      (generates_cons hInner (generates_last hQuote))
  rw [← word_append, ← word_append] at hSeries
  exact
    @generates_rule
      ⟨"quoted-string",
        concatenation
          [ruleName "DQUOTE",
           any
             (alternation
               [range '\x20' '\x21',
                range '\x23' '\x7e']),
           ruleName "DQUOTE"]⟩ (by decide) _ hSeries

/- A percent sign and one of some letters. -/
theorem generates_mark
    {letters : String}
    {c : Char}
    (hLetter :
      scope.Generates (chars letters) (word [c])) :
    scope.Generates (mark letters) (word ['%', c]) :=
  generates_cons (generates_chars '%' (by decide))
    (generates_last hLetter)

/- A quoted text with or without a mark. -/
theorem generates_charVal
    {before : List Char}
    {sensitive : Bool}
    (hBefore : (before, sensitive) ∈ quoteMarks)
    (hText : ∀ c ∈ text, isQuotable c = true) :
    scope.Generates (ruleName "char-val")
      (word (quoted before text)) := by
  have hQuoted := generates_quotedString hText
  have hEither :
      ∀ {mark : Element} {name : String},
        ⟨name, concatenation [mark, ruleName "quoted-string"]⟩
            ∈ rules →
        ruleName name ∈
            [ruleName "case-insensitive-string",
             ruleName "case-sensitive-string"] →
        scope.Generates mark (word before) →
        scope.Generates (ruleName "char-val")
          (word (quoted before text)) := by
    intro mark name hRule hName hMark
    have hSeries :=
      generates_cons hMark (generates_last hQuoted)
    rw [← word_append] at hSeries
    exact
      @generates_rule
        ⟨"char-val",
          alternation
            [ruleName "case-insensitive-string",
             ruleName "case-sensitive-string"]⟩ (by decide) _
        (.alternation hName (generates_rule hRule hSeries))
  simp only [quoteMarks, List.mem_cons, Prod.mk.injEq,
    List.not_mem_nil, or_false] at hBefore
  rcases hBefore with
    ⟨rfl, _⟩ | ⟨rfl, _⟩ | ⟨rfl, _⟩ | ⟨rfl, _⟩ | ⟨rfl, _⟩
  · exact
      @hEither (optional (mark "Ii"))
        "case-insensitive-string" (by decide) (by decide)
        (generates_optional_none _)
  · exact
      @hEither (optional (mark "Ii"))
        "case-insensitive-string" (by decide) (by decide)
        (generates_optional_some
          (@generates_mark "Ii" _ (.member (by decide))))
  · exact
      @hEither (optional (mark "Ii"))
        "case-insensitive-string" (by decide) (by decide)
        (generates_optional_some
          (@generates_mark "Ii" _ (.member (by decide))))
  · exact
      @hEither (mark "Ss")
        "case-sensitive-string" (by decide) (by decide)
        (@generates_mark "Ss" _ (.member (by decide)))
  · exact
      @hEither (mark "Ss")
        "case-sensitive-string" (by decide) (by decide)
        (@generates_mark "Ss" _ (.member (by decide)))

end Grammar

end Abnf

------------------------------------------------------------
-- Fixed Words
------------------------------------------------------------

namespace Abnf

namespace Grammar

open Element

/- The end of a line. -/
theorem generates_lineEnd :
    scope.Generates (ruleName "c-nl")
      (word ['\r', '\n']) := by
  have hReturn :
      scope.Generates (ruleName "CR") [byteOf '\r'] :=
    @generates_core ⟨"CR", chars "\r"⟩ (by decide)
      (by decide) _ (generates_chars '\r' (by decide))
  have hFeed :
      scope.Generates (ruleName "LF") [byteOf '\n'] :=
    @generates_core ⟨"LF", chars "\n"⟩ (by decide)
      (by decide) _ (generates_chars '\n' (by decide))
  have hBoth :
      scope.Generates (ruleName "CRLF")
        (word ['\r', '\n']) :=
    @generates_core
      ⟨"CRLF",
        concatenation [ruleName "CR", ruleName "LF"]⟩
      (by decide) (by decide) _
      (generates_cons hReturn (generates_last hFeed))
  exact
    @generates_rule
      ⟨"c-nl",
        alternation [ruleName "comment", ruleName "CRLF"]⟩
      (by decide) _
      (.alternation
        (List.mem_cons_of_mem _ List.mem_cons_self) hBoth)

/- One space between two parts. -/
theorem generates_blank :
    scope.Generates (ruleName "c-wsp") [byteOf ' '] := by
  have hSpace :
      scope.Generates (ruleName "SP") [byteOf ' '] :=
    @generates_core ⟨"SP", chars " "⟩ (by decide)
      (by decide) _ (generates_chars ' ' (by decide))
  have hWhite :
      scope.Generates (ruleName "WSP") [byteOf ' '] :=
    @generates_core
      ⟨"WSP", alternation [ruleName "SP", ruleName "HTAB"]⟩
      (by decide) (by decide) _
      (.alternation List.mem_cons_self hSpace)
  exact
    @generates_rule
      ⟨"c-wsp",
        alternation
          [ruleName "WSP",
           concatenation
             [ruleName "c-nl", ruleName "WSP"]]⟩
      (by decide) _ (.alternation List.mem_cons_self hWhite)

theorem generates_space
    {min : Nat}
    (hMin : min ≤ 1) :
    scope.Generates (atLeast min (ruleName "c-wsp"))
      (word [' ']) :=
  generates_atLeast hMin (by
    intro c hc
    rw [List.mem_singleton] at hc
    subst hc
    exact generates_blank)

/- The sign of a plain definition. -/
theorem generates_definedAs :
    scope.Generates (ruleName "defined-as")
      (word [' ', '=', ' ']) := by
  have hSpace := generates_space (Nat.zero_le 1)
  have hSign :
      scope.Generates
        (alternation
          [concatenation [chars "=", chars "/"], chars "="])
        [byteOf '='] :=
    .alternation (List.mem_cons_of_mem _ List.mem_cons_self)
      (generates_chars '=' (by decide))
  exact
    @generates_rule
      ⟨"defined-as",
        concatenation
          [blanks,
           alternation
             [concatenation [chars "=", chars "/"],
              chars "="],
           blanks]⟩ (by decide) _
      (generates_cons hSpace
        (generates_cons hSign (generates_last hSpace)))

end Grammar

end Abnf
