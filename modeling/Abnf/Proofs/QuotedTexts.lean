import Abnf.Build
import Abnf.Proofs.Events
import Abnf.Proofs.RoundTrip

/-
  Parsers for quoted texts.

  A quoted text stands for its characters in a row. Letter
  case counts behind the mark for it only, so that each
  letter stands for both of its cases elsewhere. The parser
  made of one rule for a quoted text matches the bytes of
  the text, but for letter case where that does not count,
  and nothing else.

  Key definitions include:
    * `Abnf.Text.foldByte`
    * `Abnf.CharSet.Folds`
    * `Abnf.Element.ofSets`
    * `Abnf.Text.ReadsAs`

  Main declarations:
    * `Abnf.Grammar.exists_readQuotedChar`
    * `Abnf.Grammar.exists_written_quoted`
    * `Abnf.Element.outcome_runSeries_of_folds`
    * `Abnf.Build.exists_program_of_quoted`
-/

------------------------------------------------------------
-- Letter Case
------------------------------------------------------------

namespace Abnf

namespace Text

/- A byte with an upper-case letter made lower. -/
def lowerByte
    (b : UInt8) : UInt8 :=
  if 65 ≤ b.toNat ∧ b.toNat ≤ 90 then b + 32 else b

/- What is compared of a byte. -/
def foldByte
    (sensitive : Bool)
    (b : UInt8) : UInt8 :=
  if sensitive then b else lowerByte b

theorem toNat_lowerByte
    (b : UInt8) :
    (lowerByte b).toNat =
      if 65 ≤ b.toNat ∧ b.toNat ≤ 90 then
        b.toNat + 32
      else
        b.toNat := by
  unfold lowerByte
  split
  · have hStep : (32 : UInt8).toNat = 32 := rfl
    rw [UInt8.toNat_add, hStep]
    omega
  · rfl

/- Without letter case, bytes are compared as lower case. -/
theorem foldByte_false_eq_iff
    {a b : UInt8} :
    foldByte false a = foldByte false b ↔
      (lowerByte a).toNat = (lowerByte b).toNat :=
  UInt8.toNat_inj.symm

end Text

namespace Grammar

/- The cases of an ASCII character. -/
theorem letterCase_ofNat :
    ∀ code < CharSet.tableSize,
      (Char.ofNat code).isAlpha =
          decide
            (65 ≤ code ∧ code ≤ 90 ∨
              97 ≤ code ∧ code ≤ 122) ∧
        (Char.ofNat code).toLower.toNat =
          (if 65 ≤ code ∧ code ≤ 90 then code + 32
            else code) ∧
        (Char.ofNat code).toUpper.toNat =
          (if 97 ≤ code ∧ code ≤ 122 then code - 32
            else code) := by
  set_option maxRecDepth 8000 in decide

end Grammar

end Abnf

------------------------------------------------------------
-- Sets Of Quoted Characters
------------------------------------------------------------

namespace Abnf

open Text

/- The members of a set are the bytes like a character. -/
def CharSet.Folds
    (sensitive : Bool)
    (c : Char)
    (s : CharSet) : Prop :=
  ∀ b, s.containsByte b = true ↔
    foldByte sensitive b =
      foldByte sensitive (Grammar.byteOf c)

namespace Grammar

/- Where letter case counts, a character stands for it. -/
theorem folds_ofChar
    {c : Char}
    (hAscii : c.toNat < CharSet.tableSize) :
    (CharSet.ofSpan c.toNat (c.toNat + 1)).Folds true c := by
  intro b
  change _ ↔ b = byteOf c
  rw [CharSet.containsByte, (CharSet.ofChar_eq hAscii).2,
    ← toNat_byteOf hAscii, UInt8.toNat_inj]

/- A character that is no letter stands for itself only. -/
theorem folds_ofChar_of_not_isAlpha
    {c : Char}
    (hAscii : c.toNat < CharSet.tableSize)
    (hOther : c.isAlpha = false) :
    (CharSet.ofSpan c.toNat (c.toNat + 1)).Folds
      false c := by
  have hCases := (letterCase_ofNat c.toNat hAscii).1
  rw [Char.ofNat_toNat, hOther] at hCases
  have hBounds := of_decide_eq_false hCases.symm
  intro b
  rw [foldByte_false_eq_iff, CharSet.containsByte,
    (CharSet.ofChar_eq hAscii).2, toNat_lowerByte,
    toNat_lowerByte, toNat_byteOf hAscii]
  split <;> split <;> omega

/- A letter stands for its lower and upper case. -/
theorem exists_readLetter
    {c : Char}
    (hAscii : c.toNat < CharSet.tableSize)
    (hLetter : c.isAlpha = true) :
    ∃ s,
      readQuotedChar false c = .ok s ∧
      s.Folds false c := by
  have hCases := letterCase_ofNat c.toNat hAscii
  rw [Char.ofNat_toNat, hLetter] at hCases
  rcases hCases with ⟨hAlpha, hLower, hUpper⟩
  have hBounds := of_decide_eq_true hAlpha.symm
  have hByte := toNat_byteOf hAscii
  simp only [CharSet.tableSize] at hAscii
  have hLow :=
    @CharSet.ofChar_eq c.toLower (by
      rw [hLower, CharSet.tableSize]
      split <;> omega)
  have hHigh :=
    @CharSet.ofChar_eq c.toUpper (by
      rw [hUpper, CharSet.tableSize]
      split <;> omega)
  refine
    ⟨.ofSpan c.toLower.toNat (c.toLower.toNat + 1) ∪
      .ofSpan c.toUpper.toNat (c.toUpper.toNat + 1), ?_, ?_⟩
  · rw [readQuotedChar, hLetter, hLow.1, hHigh.1]
    rfl
  · intro b
    rw [foldByte_false_eq_iff, CharSet.containsByte,
      CharSet.hasCode_union, Bool.or_eq_true,
      hLow.2, hHigh.2, hLower, hUpper,
      toNat_lowerByte, toNat_lowerByte, hByte]
    split <;> split <;> split <;> omega

/- A quoted character stands for the bytes like it. -/
theorem exists_readQuotedChar
    (sensitive : Bool)
    {c : Char}
    (hAscii : c.toNat < CharSet.tableSize) :
    ∃ s,
      readQuotedChar sensitive c = .ok s ∧
      s.Folds sensitive c := by
  have hChar := (CharSet.ofChar_eq hAscii).1
  cases sensitive with
  | true => exact ⟨_, hChar, folds_ofChar hAscii⟩
  | false =>
      cases hLetter : c.isAlpha with
      | true => exact exists_readLetter hAscii hLetter
      | false =>
          refine
            ⟨_, ?_,
              folds_ofChar_of_not_isAlpha hAscii hLetter⟩
          rw [readQuotedChar, hLetter]
          exact hChar

end Grammar

end Abnf

------------------------------------------------------------
-- Elements Of Quoted Texts
------------------------------------------------------------

namespace Abnf

namespace Element

/- The element for characters in a row. -/
def ofSets : List CharSet → Element
  | [] => .empty
  | sets => Grammar.seriesOf (sets.map .terminal)

theorem names_ofSets
    (sets : List CharSet) :
    (ofSets sets).names = [] := by
  have hNone :
      namesOfAll (sets.map terminal) = [] := by
    induction sets with
    | nil => rfl
    | cons s sets ih =>
        rw [List.map_cons, namesOfAll, ih]
        rfl
  unfold ofSets
  split
  · rfl
  · rw [Grammar.seriesOf,
      names_collapse (fun _ => by rw [names])]
    exact hNone

/- However many characters there are, they run in a row. -/
theorem run_ofSets
    {input : Array UInt8}
    {callee : String → Nat → Run}
    (sets : List CharSet)
    (index : Nat) :
    (ofSets sets).run input callee index =
      runSeries input callee (sets.map .terminal) index := by
  unfold ofSets
  split
  · rfl
  · exact run_collapse_concatenation _ index

end Element

namespace Grammar

open Element

variable {before text : List Char}
variable {sensitive : Bool}

/- Each character of a text stands for the bytes like it. -/
theorem exists_mapM_readQuotedChar
    (sensitive : Bool)
    (hText : ∀ c ∈ text, isQuotable c = true) :
    ∃ sets,
      text.mapM (readQuotedChar sensitive) = .ok sets ∧
      List.Forall₂ (CharSet.Folds sensitive) text sets := by
  induction text with
  | nil => exact ⟨[], rfl, List.Forall₂.nil⟩
  | cons c text ih =>
      rw [List.forall_mem_cons] at hText
      rcases exists_readQuotedChar sensitive
          (lt_of_isQuotable hText.1) with
        ⟨s, hSet, hFolds⟩
      rcases ih hText.2 with ⟨sets, hSets, hRest⟩
      refine
        ⟨s :: sets, ?_, List.Forall₂.cons hFolds hRest⟩
      rw [List.mapM_cons, hSet, hSets]
      rfl

/- A mark says whether letter case counts. -/
theorem readMark_quoted
    (hBefore : (before, sensitive) ∈ quoteMarks)
    (text : List Char) :
    readMark (quoted before text) =
      (sensitive, quoted [] text) := by
  simp only [quoteMarks, List.mem_cons, Prod.mk.injEq,
    List.not_mem_nil, or_false] at hBefore
  rcases hBefore with
    ⟨rfl, rfl⟩ | ⟨rfl, rfl⟩ | ⟨rfl, rfl⟩ |
    ⟨rfl, rfl⟩ | ⟨rfl, rfl⟩
  all_goals rfl

/- A quoted text is the notation of its characters. -/
theorem exists_written_quoted
    (hBefore : (before, sensitive) ∈ quoteMarks)
    (hText : ∀ c ∈ text, isQuotable c = true) :
    ∃ sets,
      Written "alternation" (quoted before text)
        (ofSets sets) ∧
      List.Forall₂ (CharSet.Folds sensitive) text sets := by
  rcases exists_mapM_readQuotedChar sensitive hText with
    ⟨sets, hSets, hFolds⟩
  have hInner : inner (quoted [] text) = text := by
    simp [inner, quoted]
  have hValue :
      readCharVal (quoted before text) =
        .ok (ofSets sets) := by
    have hLength : ¬ (quoted [] text).length < 2 := by
      simp [quoted]
    rw [readCharVal, readMark_quoted hBefore]
    dsimp only
    rw [if_neg hLength, hInner, hSets]
    cases sets with
    | nil => rfl
    | cons s sets => rfl
  have hSome : quoted before text ≠ [] := by
    simp [quoted]
  have hWritten :
      Written "char-val" (quoted before text)
        (ofSets sets) :=
    written_value (by decide) (isAscii_quoted hBefore hText)
      hSome (generates_charVal hBefore hText) hValue
  have hSeries :=
    written_series isSeries_concatenation separates_space
      (.one
        (written_unbounded
          (written_element (by decide) hWritten)))
  have hChoice :=
    written_series isSeries_alternation separates_slash
      (.one hSeries)
  exact ⟨sets, hChoice, hFolds⟩

end Grammar

end Abnf

------------------------------------------------------------
-- Runs Of Quoted Texts
------------------------------------------------------------

namespace Abnf

variable {input : Array UInt8}
variable {sensitive : Bool}

namespace Text

/-
  There are as many bytes at an offset as characters, and
  they are the characters, but for letter case if that does
  not count.
-/
def ReadsAs
    (sensitive : Bool)
    (input : Array UInt8)
    (start : Nat)
    (text : List Char) : Prop :=
  (between input start (start + text.length)).map
      (foldByte sensitive) =
    (Grammar.word text).map (foldByte sensitive)

instance
    (sensitive : Bool)
    (input : Array UInt8)
    (start : Nat)
    (text : List Char) :
    Decidable (ReadsAs sensitive input start text) := by
  unfold ReadsAs
  infer_instance

theorem readsAs_nil
    (index : Nat) :
    ReadsAs sensitive input index [] := by
  rw [ReadsAs, List.length_nil, Nat.add_zero, between_self]
  rfl

/- A text is read byte by byte. -/
theorem readsAs_cons_iff
    {index : Nat}
    {c : Char}
    {text : List Char} :
    ReadsAs sensitive input index (c :: text) ↔
      ∃ b, input[index]? = some b ∧
        foldByte sensitive b =
          foldByte sensitive (Grammar.byteOf c) ∧
        ReadsAs sensitive input (index + 1) text := by
  have hEnd :
      index + (c :: text).length =
        index + 1 + text.length := by
    rw [List.length_cons]
    omega
  have hWord :
      Grammar.word (c :: text) =
        Grammar.byteOf c :: Grammar.word text :=
    rfl
  cases hByte : input[index]? with
  | none =>
      have hSize := Array.getElem?_eq_none_iff.mp hByte
      have hNone :
          between input index (index + (c :: text).length) =
            [] := by
        rw [between,
          List.drop_eq_nil_of_le (by simpa using hSize)]
        exact List.take_nil
      rw [ReadsAs, hNone, hWord]
      simp
  | some b =>
      rw [ReadsAs, hWord, hEnd,
        Grammar.between_eq_cons hByte (by omega)]
      simp [ReadsAs]

end Text

/- The set of a character is not empty. -/
theorem CharSet.Folds.isEmpty
    {c : Char}
    {s : CharSet}
    (hFolds : s.Folds sensitive c) :
    s.isEmpty = false :=
  not_isEmpty_of_hasCode
    ((hFolds (Grammar.byteOf c)).mpr rfl)

/-
  Characters in a row match the bytes like them. The
  induction goes along the text: the first byte is compared
  with the first character.
-/
theorem Element.outcome_runSeries_of_folds
    {callee : String → Nat → Run}
    {text : List Char}
    {sets : List CharSet}
    (hFolds :
      List.Forall₂ (CharSet.Folds sensitive) text sets)
    (index : Nat) :
    (runSeries input callee
      (sets.map .terminal) index).outcome =
      if Text.ReadsAs sensitive input index text then
        .matched (index + text.length)
      else
        .failed := by
  induction hFolds generalizing index with
  | nil =>
      rw [if_pos (Text.readsAs_nil index)]
      rfl
  | @cons c s text sets hFirst _ ih =>
      have hRun :
          (terminal s).run input callee index =
            .quiet (runSet input s index) := by
        rw [run]
      rw [List.map_cons, runSeries, hRun, runSet,
        hFirst.isEmpty]
      simp only [Text.readsAs_cons_iff]
      cases hByte : input[index]? with
      | none => simp [Run.andThen, Run.quiet]
      | some b =>
          cases hMember : s.containsByte b with
          | false =>
              have hOther :
                  ¬ Text.foldByte sensitive b =
                    Text.foldByte sensitive
                      (Grammar.byteOf c) := by
                rw [← hFirst b, hMember]
                exact Bool.false_ne_true
              simp [Run.andThen, Run.quiet, hMember, hOther]
          | true =>
              have hSame := (hFirst b).mp hMember
              have hEnd :
                  index + (c :: text).length =
                    index + 1 + text.length := by
                rw [List.length_cons]
                omega
              rw [hEnd]
              simp [Run.andThen, Run.quiet, Run.after,
                hMember, hSame, ih]

end Abnf

------------------------------------------------------------
-- Programs Of One Rule
------------------------------------------------------------

namespace Abnf

/- Nothing is met from nowhere. -/
theorem Scope.explore_nil
    (scope : Scope)
    (next : Rule → List Reference) :
    scope.explore next [] = [] := by
  unfold explore
  cases scope.own.length + scope.core.length with
  | zero => rfl
  | succ limit => rfl

variable {rule : Rule}

/- One rule without references is accepted. -/
theorem Entry.accept_singleton
    (hNames : rule.element.names = []) :
    accept [rule] = .ok () := by
  rw [accept_eq_ok_iff]
  refine ⟨rfl, ?_, ?_⟩
  · have hNone : [rule].flatMap Rule.references = [] := by
      simp [Rule.references, hNames]
    rw [Scope.reached, hNone, Scope.explore_nil]
    exact List.forall_mem_nil _
  · have hLeading :
        ∀ known, rule.leading known = [] := by
      intro known
      have hSubset :=
        @Element.leading_subset_names known rule.element
      rw [hNames, List.subset_nil] at hSubset
      rw [Rule.leading, hSubset]
      rfl
    have hNone :
        (Scope.ofRules [rule]).isLeftRecursive
            (Scope.ofRules [rule]).nullable rule =
          false := by
      rw [Scope.isLeftRecursive, hLeading,
        Scope.explore_nil]
      rfl
    rw [Scope.checkLeftRecursion, List.find?_singleton,
      hNone]
    rfl

/- The program of such a rule runs its element. -/
theorem Program.exists_ofRules_singleton
    (hNames : rule.element.names = []) :
    ∃ program entry,
      ofRules [rule] = .ok program ∧
      program.ruleNames = [rule.name] ∧
      program.entry? rule.name = some entry ∧
      ∀ input start, ∃ callee,
        program.run entry input start =
          (rule.element.run input callee start).outcome := by
  have hRewrite := Rule.isRewrite_normalize
  have hAccept := Entry.accept_singleton hNames
  rcases ofRulesWith_eq hRewrite [rule] with
    ⟨cause, hError, _⟩ |
    ⟨routines, _, hRoutines, hProgram⟩
  · rw [hAccept] at hError
    cases hError
  have hName : Scope.hasName [rule] rule.name = true :=
    Scope.hasName_iff.mpr ⟨rule, List.mem_cons_self, rfl⟩
  rcases exists_trace_eq_of_hasName hProgram hName with
    ⟨entry, hEntry, hTrace⟩
  refine
    ⟨ofRoutines routines, entry, hProgram,
      ruleNames_ofRoutines hRewrite hRoutines, hEntry, ?_⟩
  intro input start
  rcases hTrace input start with ⟨depth, hRun, hSettled⟩
  have hRule :
      (Scope.ofRules [rule]).find? rule.name = some rule :=
    Scope.find?_of_mem_own (List.nodup_singleton _)
      List.mem_cons_self
  cases depth with
  | zero =>
      rw [hRun] at hSettled
      cases hSettled
  | succ depth =>
      refine ⟨(Scope.ofRules [rule]).invoke input depth, ?_⟩
      rw [run, hRun, Scope.invoke_succ hRule,
        Scope.outcome_report]

end Abnf

------------------------------------------------------------
-- Parsers For Quoted Texts
------------------------------------------------------------

namespace Abnf

namespace Build

open Grammar

/- What is made of the rules of a text is made of it. -/
theorem ofText_of_read
    {α : Type}
    {make : List Rule → Except GenerationError α}
    {text : String}
    {rules : List Rule}
    {made : α}
    (hRead : read text = .ok rules)
    (hMade : make rules = .ok made) :
    ofText make text = .ok made := by
  -- The reader itself must not be unfolded here.
  unfold ofText
  generalize read text = result at hRead ⊢
  subst hRead
  dsimp only
  rw [hMade]

/-
  A rule for a quoted text makes a parser. Its one matcher
  takes the bytes of the text, in any letter case unless
  there is a mark against that, and fails on all others.
-/
theorem exists_program_of_quoted
    {name before text : String}
    {sensitive : Bool}
    (hCheck : checkName name = .ok ())
    (hLetter : startsWithLetter name = true)
    (hBefore : (before.toList, sensitive) ∈ quoteMarks)
    (hText : ∀ c ∈ text.toList, isQuotable c = true) :
    ∃ made entry,
      program
          (name ++ " = " ++ before ++ "\"" ++ text ++
            "\"\r\n") =
        .ok made ∧
      made.ruleNames = [name] ∧
      made.entry? name = some entry ∧
      ∀ input start,
        made.run entry input start =
          if Text.ReadsAs sensitive input start
              text.toList then
            .matched (start + text.length)
          else
            .failed := by
  rcases exists_written_quoted hBefore hText with
    ⟨sets, hWritten, hFolds⟩
  have hRead :
      read
          (name ++ " = " ++ before ++ "\"" ++ text ++
            "\"\r\n") =
        .ok [⟨name, .ofSets sets⟩] := by
    have hLine :
        (Line.mk name (quoted before.toList text.toList)
          (.ofSets sets)).IsLegible :=
      ⟨hCheck, hLetter, hWritten⟩
    apply
      @read_lines _
        [⟨name, quoted before.toList text.toList,
          .ofSets sets⟩]
    · simp only [String.toList_append, quoted, Line.text,
        List.flatMap_cons, List.flatMap_nil,
        List.append_assoc, List.cons_append, List.append_nil]
      rfl
    · exact List.cons_ne_nil _ _
    · exact List.nodup_singleton _
    · intro l hl
      rw [List.mem_singleton.mp hl]
      exact hLine
  rcases @Program.exists_ofRules_singleton
      ⟨name, .ofSets sets⟩ (Element.names_ofSets sets) with
    ⟨made, entry, hProgram, hNames, hEntry, hRuns⟩
  refine
    ⟨made, entry, ofText_of_read hRead hProgram, hNames,
      hEntry, ?_⟩
  intro input start
  rcases hRuns input start with ⟨callee, hRun⟩
  rw [hRun, Element.run_ofSets,
    Element.outcome_runSeries_of_folds hFolds,
    String.length_toList]

/-
  Text that would end a rule elsewhere: a semicolon, an
  equals sign and an angle bracket between quotes.
-/
theorem exists_program_of_quoted_signs :
    ∃ made entry,
      program "r = %i\"a;=<%s\"\r\n" = .ok made ∧
      made.entry? "r" = some entry ∧
      made.run entry (Text.bytes "xA;=<%S") 1 =
        .matched 7 ∧
      made.run entry (Text.bytes "xA;=<%S") 0 = .failed := by
  have hSigns :
      "a;=<%s".toList = ['a', ';', '=', '<', '%', 's'] := by
    simp
  have hText :
      ∀ c ∈ "a;=<%s".toList, isQuotable c = true := by
    simp [isQuotable]
  rcases
      @exists_program_of_quoted "r" "%i" "a;=<%s" false
        (by decide) (by decide) (by decide) hText with
    ⟨made, entry, hMade, _, hEntry, hRuns⟩
  refine ⟨made, entry, hMade, hEntry, ?_, ?_⟩
  · rw [hRuns, hSigns, if_pos (by decide)]
    rfl
  · rw [hRuns, hSigns, if_neg (by decide)]

end Build

end Abnf
