import Abnf.Proofs.EmptyMatches
import Abnf.Proofs.LostScans
import Abnf.Proofs.Numbers

/-
  The letter case of hexadecimal digits.

  Numbers are read in either letter case, and so are the
  letters for their bases. The core rule for hexadecimal
  digits takes capitals only, in grammar texts and for the
  rules of a grammar alike. So a small digit ends the number
  that it stands in, and nothing can go on behind it: the
  text is read as if it ended there, which is never without
  an error. Only a text that is refused for something in
  front of the digit is refused in the same way.

  Key definitions include:
    * `Abnf.Grammar.capitals`
    * `Abnf.Grammar.smallFrom`
    * `Abnf.Grammar.upToSmall`
    * `Abnf.ReadError.inCapitals`
    * `Abnf.Grammar.ReadsAlike`

  Main declarations:
    * `Abnf.Grammar.readNumVal_map_capital`
    * `Abnf.Grammar.at?_behind_smallDigit`
    * `Abnf.Program.run_hexDigit_capitalByte`
    * `Abnf.Grammar.read_smallDigit`
    * `Abnf.Grammar.readsAlike_capitals_iff`
    * `Abnf.Grammar.letterCase_of_hexDigits`
-/

------------------------------------------------------------
-- Capitals
------------------------------------------------------------

namespace Abnf

namespace Grammar

open Zone (isSmallDigit)

/- A digit in capitals; any other character stays. -/
def capital
    (c : Char) : Char :=
  if isSmallDigit c then c.toUpper else c

/- A text with its digits in capitals. -/
def capitals
    (text : String) : String :=
  text.map capital

/- How many characters stand before the first small digit. -/
def smallFrom
    (text : String) : Nat :=
  text.toList.findIdx isSmallDigit

/- What stands before the first small digit. -/
def upToSmall
    (text : String) : String :=
  String.ofList (text.toList.take (smallFrom text))

theorem toList_capitals
    (text : String) :
    (capitals text).toList = text.toList.map capital :=
  String.toList_map

theorem capitals_ofList
    (cs : List Char) :
    capitals (String.ofList cs) =
      String.ofList (cs.map capital) := by
  apply String.toList_injective
  rw [toList_capitals, String.toList_ofList,
    String.toList_ofList]

/- The byte is a small digit. -/
def isSmallByte
    (b : UInt8) : Bool :=
  isSmallDigit (Char.ofNat b.toNat)

/- A byte in capitals; only small digits change. -/
def capitalByte
    (b : UInt8) : UInt8 :=
  if isSmallByte b then
    byteOf (capital (Char.ofNat b.toNat))
  else
    b

/- There are six small digits. -/
theorem cases_of_isSmallDigit
    {c : Char}
    (h : isSmallDigit c = true) :
    c = 'a' ∨ c = 'b' ∨ c = 'c' ∨ c = 'd' ∨ c = 'e' ∨
      c = 'f' := by
  simpa [isSmallDigit] using h

theorem isHexDigit_capital
    {c : Char}
    (h : isSmallDigit c = true) :
    isHexDigit (capital c) = true := by
  rcases cases_of_isSmallDigit h with
    rfl | rfl | rfl | rfl | rfl | rfl
  all_goals rfl

/- A small byte is no digit, in capitals it is one. -/
theorem isHexDigit_of_isSmallByte
    {b : UInt8}
    (h : isSmallByte b = true) :
    isHexDigit (Char.ofNat b.toNat) = false ∧
      isHexDigit (Char.ofNat (capitalByte b).toNat) =
        true := by
  rw [capitalByte, if_pos h]
  rcases cases_of_isSmallDigit h with
    hCode | hCode | hCode | hCode | hCode | hCode
  all_goals
    rw [hCode]
    decide

theorem capital_of_not
    {c : Char}
    (h : isSmallDigit c = false) :
    capital c = c := by
  rw [capital, if_neg (Bool.eq_false_iff.mp h)]

theorem capitalByte_of_not
    {b : UInt8}
    (h : isSmallByte b = false) :
    capitalByte b = b := by
  rw [capitalByte, if_neg (Bool.eq_false_iff.mp h)]

/- A text without small digits is in capitals. -/
theorem map_capital_of_none
    {cs : List Char}
    (h : ∀ c ∈ cs, isSmallDigit c = false) :
    cs.map capital = cs := by
  conv_rhs => rw [← List.map_id cs]
  apply List.map_congr_left
  intro c hc
  exact capital_of_not (h c hc)

/- A text that is not in capitals has a small digit. -/
theorem exists_small_of_ne
    {text : String}
    (h : text ≠ capitals text) :
    ∃ c ∈ text.toList, isSmallDigit c = true := by
  by_contra hNone
  apply h
  apply String.toList_injective
  rw [toList_capitals, map_capital_of_none]
  intro c hc
  exact
    Bool.eq_false_iff.mpr (fun h => hNone ⟨c, hc, h⟩)

theorem smallFrom_lt_of_ne
    {text : String}
    (h : text ≠ capitals text) :
    smallFrom text < text.toList.length :=
  List.findIdx_lt_length.mpr (exists_small_of_ne h)

/- Only digits are made capitals. -/
theorem capital_eq_iff
    {c d : Char}
    (hHex : isHexDigit d = false)
    (hSmall : isSmallDigit d = false) :
    capital c = d ↔ c = d := by
  cases hDigit : isSmallDigit c with
  | true =>
      constructor
      · rintro rfl
        rw [isHexDigit_capital hDigit] at hHex
        cases hHex
      · rintro rfl
        rw [hDigit] at hSmall
        cases hSmall
  | false => rw [capital_of_not hDigit]

end Grammar

/- The error, with the digits that it tells in capitals. -/
def ReadError.inCapitals : ReadError → ReadError
  | invalidRange value =>
      invalidRange (Grammar.capitals value)
  | invalidNumber value =>
      invalidNumber (Grammar.capitals value)
  | error => error

end Abnf

------------------------------------------------------------
-- Numbers In Either Case
------------------------------------------------------------

namespace Abnf

namespace Grammar

variable {α β : Type}

theorem digitValue?_capital
    (base : Nat)
    (c : Char) :
    digitValue? base (capital c) = digitValue? base c := by
  cases hSmall : Zone.isSmallDigit c with
  | true =>
      rcases cases_of_isSmallDigit hSmall with
        rfl | rfl | rfl | rfl | rfl | rfl
      all_goals rfl
  | false => rw [capital_of_not hSmall]

theorem digitsValue?_map_capital
    (base value : Nat)
    (digits : List Char) :
    digitsValue? base value (digits.map capital) =
      digitsValue? base value digits := by
  induction digits generalizing value with
  | nil => rfl
  | cons c digits ih =>
      rw [List.map_cons, digitsValue?, digitsValue?,
        digitValue?_capital]
      cases digitValue? base c with
      | none => rfl
      | some d => exact ih _

theorem numberBelow?_map_capital
    (limit base : Nat)
    (digits : List Char) :
    numberBelow? limit base (digits.map capital) =
      numberBelow? limit base digits := by
  rw [numberBelow?, numberBelow?, List.isEmpty_map,
    digitsValue?_map_capital]

/- Small digits have the same character, or the same error. -/
theorem readCode_map_capital
    (base : Nat)
    (digits : List Char) :
    readCode base (digits.map capital) =
      (readCode base digits).mapError
        ReadError.inCapitals := by
  have hInvalid :
      invalidNumber (digits.map capital) =
        (invalidNumber digits).inCapitals :=
    congrArg ReadError.invalidNumber
      (capitals_ofList digits).symm
  rw [readCode, readCode, numberBelow?_map_capital, hInvalid]
  split
  · rfl
  · rename_i code _
    split
    · cases CharSet.ofChar (Char.ofNat code) with
      | error cause => rfl
      | ok s => rfl
    · rfl

theorem readCodeSet_map_capital
    (base : Nat)
    (digits : List Char) :
    readCodeSet base (digits.map capital) =
      (readCodeSet base digits).mapError
        ReadError.inCapitals := by
  rw [readCodeSet, readCodeSet, readCode_map_capital]
  cases readCode base digits with
  | error error => rfl
  | ok c =>
      change
        ReadError.liftCharSet (CharSet.ofChar c) =
          (ReadError.liftCharSet
            (CharSet.ofChar c)).mapError ReadError.inCapitals
      cases CharSet.ofChar c with
      | error cause => rfl
      | ok s => rfl

/- Dots stay where they are. -/
theorem splitDots_map_capital
    (text : List Char) :
    splitDots (text.map capital) =
      (splitDots text).map (·.map capital) := by
  induction text with
  | nil => rfl
  | cons c text ih =>
      have hDot : capital c = '.' ↔ c = '.' :=
        capital_eq_iff (by decide) (by decide)
      unfold splitDots at ih ⊢
      rw [List.map_cons, List.foldr_cons, List.foldr_cons, ih]
      simp only [hDot]
      split
      · rfl
      · cases List.foldr _ _ text with
        | nil => rfl
        | cons piece others => rfl

/- Reading items keeps what is done to their errors. -/
theorem mapM_mapError
    (change : ReadError → ReadError)
    (read : α → Except ReadError β)
    (items : List α) :
    items.mapM (fun item => (read item).mapError change) =
      (items.mapM read).mapError change := by
  induction items with
  | nil => rfl
  | cons item items ih =>
      rw [List.mapM_cons, List.mapM_cons, ih]
      cases read item with
      | error error => rfl
      | ok value =>
          cases items.mapM read with
          | error error => rfl
          | ok values => rfl

/-
  Numbers are read alike in either letter case: the same
  element, or the same error but for the digits it tells.
-/
theorem readNumVal_map_capital
    (base : Nat)
    (text : List Char) :
    readNumVal base (text.map capital) =
      (readNumVal base text).mapError
        ReadError.inCapitals := by
  have hDash :
      ∀ c, (capital c != '-') = (c != '-') := by
    intro c
    rw [Bool.eq_iff_iff, bne_iff_ne, bne_iff_ne]
    exact
      not_congr (capital_eq_iff (by decide) (by decide))
  have hSpan :
      ((text.map capital).drop 1).span (· != '-') =
        (((text.drop 1).span (· != '-')).1.map capital,
          ((text.drop 1).span (· != '-')).2.map
            capital) := by
    rw [← List.map_drop, List.span_eq_takeWhile_dropWhile,
      List.span_eq_takeWhile_dropWhile, List.takeWhile_map,
      List.dropWhile_map]
    simp only [Function.comp_def, hDash]
  rw [readNumVal, readNumVal, hSpan]
  rcases (text.drop 1).span (· != '-') with ⟨before, rest⟩
  cases rest with
  | nil =>
      simp only [List.map_nil]
      rw [splitDots_map_capital, List.mapM_map]
      simp only [Function.comp_def, readCodeSet_map_capital]
      rw [mapM_mapError]
      cases (splitDots before).mapM (readCodeSet base) with
      | error error => rfl
      | ok sets => rfl
  | cons dash behind =>
      simp only [List.map_cons]
      rw [readCode_map_capital, readCode_map_capital]
      cases readCode base before with
      | error error => rfl
      | ok first =>
          cases readCode base behind with
          | error error => rfl
          | ok last =>
              by_cases hReversed : last < first
              · simp [bind, Except.bind, Except.mapError,
                  hReversed, throw, throwThe,
                  MonadExceptOf.throw, ReadError.inCapitals,
                  capitals_ofList]
              · simp [bind, Except.bind, Except.mapError,
                  hReversed]
                rfl

end Grammar

end Abnf

------------------------------------------------------------
-- Small Digits In Texts
------------------------------------------------------------

namespace Abnf

namespace Grammar

open Zone (isSmallDigit)

/- The characters of a written number are those of numbers. -/
theorem isNumeric_of_isWritten
    {form : NumberForm}
    (h : form.IsWritten 16)
    {c : Char}
    (hc : c ∈ form.text) :
    Zone.isNumeric c = true := by
  have hDigits :
      ∀ digits ∈ form.values, ∀ d ∈ digits,
        Zone.isNumeric d = true := by
    intro digits hDigits d hd
    have hDigit := (h digits hDigits).2 d hd
    rw [isDigitOf, Bool.and_eq_true, Bool.or_eq_true,
      Bool.and_eq_true, decide_eq_true_iff,
      decide_eq_true_iff, le_iff_toNat_le,
      le_iff_toNat_le] at hDigit
    rw [Zone.isNumeric, isHexDigit, Bool.or_eq_true,
      Bool.or_eq_true, Bool.or_eq_true, Bool.and_eq_true,
      decide_eq_true_iff, decide_eq_true_iff]
    exact Or.inl (Or.inl hDigit.1)
  cases form with
  | series first others =>
      rw [NumberForm.values, List.forall_mem_cons]
        at hDigits
      rw [NumberForm.text, List.mem_append] at hc
      rcases hc with hFirst | hOthers
      · exact hDigits.1 c hFirst
      · rcases List.mem_flatMap.mp hOthers with
          ⟨digits, hIn, hc⟩
        rcases List.mem_cons.mp hc with rfl | hc
        · rfl
        · exact hDigits.2 digits hIn c hc
  | range first last =>
      rw [NumberForm.values, List.forall_mem_cons,
        List.forall_mem_singleton] at hDigits
      rw [NumberForm.text, List.mem_append] at hc
      rcases hc with hFirst | hLast
      · exact hDigits.1 c hFirst
      · rcases List.mem_cons.mp hLast with rfl | hc
        · rfl
        · exact hDigits.2 c hc

/- The first small digit, with what is around it. -/
theorem exists_firstSmall
    {cs : List Char}
    (h : ∃ c ∈ cs, isSmallDigit c = true) :
    ∃ front c rest,
      cs = front ++ c :: rest ∧
      (∀ d ∈ front, isSmallDigit d = false) ∧
      isSmallDigit c = true ∧
      cs.findIdx isSmallDigit = front.length := by
  have hBound := List.findIdx_lt_length.mpr h
  refine
    ⟨cs.take (cs.findIdx isSmallDigit),
      cs[cs.findIdx isSmallDigit],
      cs.drop (cs.findIdx isSmallDigit + 1), ?_, ?_,
      List.findIdx_getElem, ?_⟩
  · rw [← List.drop_eq_getElem_cons hBound,
      List.take_append_drop]
  · intro d hd
    rcases List.mem_take_iff_getElem.mp hd with
      ⟨i, hi, rfl⟩
    exact
      List.not_of_lt_findIdx
        (Nat.lt_of_lt_of_le hi (Nat.min_le_left _ _))
  · rw [List.length_take,
      Nat.min_eq_left (Nat.le_of_lt hBound)]

/-
  A number with a small digit, in capitals a word of the
  rule, has its letter and its characters up to the digit.
-/
theorem exists_smallDigit
    {value : String}
    (hWord :
      scope.Generates (.ruleName "hex-val")
        (Text.bytes (capitals value)).toList)
    (hSmall : value ≠ capitals value) :
    ∃ letter digits c rest,
      value.toList = letter :: digits ++ c :: rest ∧
      (letter = 'X' ∨ letter = 'x') ∧
      (∀ d ∈ digits, Zone.isNumeric d = true) ∧
      isSmallDigit c = true ∧
      smallFrom value = digits.length + 1 := by
  rcases exists_numberForm_of_generates
      (List.mem_cons_of_mem _
        (List.mem_cons_of_mem _ List.mem_cons_self))
      hWord with
    ⟨letter, hLetter, form, hForm, hWritten⟩
  rw [toList_capitals] at hForm
  have hSign : letter = 'X' ∨ letter = 'x' := by
    simpa using hLetter
  have hLarge :
      isHexDigit letter = false ∧
        isSmallDigit letter = false := by
    rcases hSign with rfl | rfl
    all_goals exact ⟨by decide, by decide⟩
  rcases List.map_eq_cons_iff.mp hForm with
    ⟨first, others, hValue, hFirst, hOthers⟩
  rw [capital_eq_iff hLarge.1 hLarge.2] at hFirst
  subst hFirst
  have hSome : ∃ c ∈ others, isSmallDigit c = true := by
    rcases exists_small_of_ne hSmall with ⟨c, hc, hDigit⟩
    rw [hValue] at hc
    rcases List.mem_cons.mp hc with rfl | hc
    · rw [hLarge.2] at hDigit
      cases hDigit
    · exact ⟨c, hc, hDigit⟩
  rcases exists_firstSmall hSome with
    ⟨digits, c, rest, hSplit, hDigits, hDigit, hIndex⟩
  refine
    ⟨first, digits, c, rest, ?_, hSign, ?_, hDigit, ?_⟩
  · rw [hValue, hSplit, List.cons_append]
  · intro d hd
    apply isNumeric_of_isWritten hWritten
    rw [← hOthers, ← capital_of_not (hDigits d hd), hSplit]
    exact List.mem_map_of_mem (List.mem_append_left _ hd)
  · rw [smallFrom, hValue, List.findIdx_cons, hLarge.2,
      hIndex]
    rfl

end Grammar

end Abnf

------------------------------------------------------------
-- Scans Of Small Digits
------------------------------------------------------------

namespace Abnf

namespace Grammar

open Zone (isSmallDigit)

/- What a rule stands for is ASCII. -/
theorem isAscii_of_generates
    {text : String}
    {element : Element}
    (h : scope.Generates element (Text.bytes text).toList) :
    IsAscii text.toList := by
  rw [toList_of_generates h]
  exact (word_charsOf h.ascii).1

theorem isAscii_of_capitals
    {value : String}
    (h : IsAscii (capitals value).toList) :
    IsAscii value.toList := by
  intro c hc
  cases hDigit : isSmallDigit c with
  | true =>
      rcases cases_of_isSmallDigit hDigit with
        rfl | rfl | rfl | rfl | rfl | rfl
      all_goals decide
  | false =>
      apply h
      rw [toList_capitals, ← capital_of_not hDigit]
      exact List.mem_map_of_mem hc

/- Each ASCII character is one byte. -/
theorem utf8ByteSize_of_isAscii
    {text : String}
    (hAscii : IsAscii text.toList) :
    text.utf8ByteSize = text.toList.length := by
  have hLength := congrArg List.length (toList_bytes hAscii)
  rw [length_word] at hLength
  exact hLength

theorem utf8ByteSize_upToSmall
    {text : String}
    (hAscii : IsAscii text.toList) :
    (upToSmall text).utf8ByteSize = smallFrom text := by
  have hTake :
      (upToSmall text).toList =
        text.toList.take (smallFrom text) :=
    String.toList_ofList
  have hInside : smallFrom text ≤ text.toList.length :=
    List.findIdx_le_length
  rw [utf8ByteSize_of_isAscii, hTake,
    List.length_take_of_le hInside]
  intro c hc
  rw [hTake] at hc
  exact hAscii c (List.mem_of_mem_take hc)

/- A text is what stands before the digit, and the rest. -/
theorem upToSmall_append
    (text : String) :
    upToSmall text ++
        String.ofList (text.toList.drop (smallFrom text)) =
      text := by
  rw [upToSmall, ← String.ofList_append,
    List.take_append_drop, String.ofList_toList]

/- In a text, a scan goes on from what stands in front. -/
theorem at?_inside
    {before value : String}
    (behind : String)
    (hAscii : IsAscii value.toList)
    {count : Nat}
    (hCount : count ≤ value.toList.length) :
    Zone.at? (Text.bytes (before ++ value ++ behind))
        (before.utf8ByteSize + count) =
      (Zone.at? (Text.bytes before)
        before.utf8ByteSize).bind
          (·.behind (value.toList.take count)) := by
  have hSize :
      (Text.bytes before).toList.length =
        before.utf8ByteSize :=
    rfl
  have hWord := toList_bytes hAscii
  have hLength :
      count ≤ (Text.bytes value).toList.length := by
    rw [hWord, length_word]
    exact hCount
  have hChars :
      charsOf ((Text.bytes value).toList.take count) =
        value.toList.take count := by
    rw [charsOf, List.map_take, hWord]
    exact congrArg _ (charsOf_word hAscii)
  rw [Zone.at?, Zone.at?, bytes_append, bytes_append,
    Array.toList_append, Array.toList_append,
    List.append_assoc, ← hSize, List.take_length_add_append,
    List.take_append_of_le_length hLength, List.take_length,
    charsOf_append, hChars, Zone.behind_append]

variable {before value : String}

/- A scan is lost behind a small digit. -/
theorem at?_behind_smallDigit
    (behind : String)
    (hWord :
      scope.Generates (.ruleName "hex-val")
        (Text.bytes (capitals value)).toList)
    (hSmall : value ≠ capitals value)
    (hStart :
      Zone.at? (Text.bytes before) before.utf8ByteSize =
        some .percent) :
    Zone.at? (Text.bytes (before ++ value ++ behind))
        (before.utf8ByteSize + smallFrom value + 1) =
      none := by
  have hAscii : IsAscii value.toList := by
    apply isAscii_of_capitals
    exact isAscii_of_generates hWord
  rcases exists_smallDigit hWord hSmall with
    ⟨letter, digits, c, rest, hValue, hLetter, hDigits,
      hDigit, hFrom⟩
  have hLength :
      (letter :: digits).length = smallFrom value := by
    rw [hFrom, List.length_cons]
  have hCount := smallFrom_lt_of_ne hSmall
  have hTake :
      value.toList.take (smallFrom value + 1) =
        letter :: digits ++ [c] := by
    rw [hValue, ← hLength, List.take_length_add_append]
    rfl
  have hNumber :
      Zone.percent.next letter = some .number := by
    rcases hLetter with rfl | rfl
    all_goals rfl
  have hLost : Zone.number.next c = none := by
    rcases cases_of_isSmallDigit hDigit with
      rfl | rfl | rfl | rfl | rfl | rfl
    all_goals rfl
  rw [Nat.add_assoc, at?_inside behind hAscii hCount, hStart,
    Option.bind_some, hTake, Zone.behind_append,
    Zone.behind_cons, hNumber, Option.bind_some,
    Zone.behind_number hDigits, Option.bind_some,
    Zone.behind_singleton, hLost]

end Grammar

end Abnf

------------------------------------------------------------
-- The Rule For Digits
------------------------------------------------------------

namespace Abnf

namespace Scope

variable {scope : Scope}
variable {input : Array UInt8}

/- A set with members takes the next byte if it has it. -/
theorem derives_terminal
    {s : CharSet}
    (hSome : s.isEmpty = false)
    (index : Nat) :
    scope.Derives input (.one (.terminal s)) index
      (if input[index]?.any s.containsByte then
        some (index + 1)
      else
        none) := by
  split
  · rename_i hAny
    rw [Option.any_eq_true] at hAny
    rcases hAny with ⟨b, hByte, hMember⟩
    exact .member hSome hByte hMember
  · rename_i hNone
    refine .noMember hSome ?_
    intro b hByte
    rw [hByte, Option.any_some] at hNone
    exact Bool.eq_false_iff.mpr hNone

/- Digits and capitals are in one of two sets. -/
theorem isHexDigit_iff_containsByte
    (b : UInt8) :
    Grammar.isHexDigit (Char.ofNat b.toNat) =
      ((CharSet.ofRange '0' '9').containsByte b ||
        (CharSet.ofRange 'A' 'F').containsByte b) := by
  have hCodes :
      ∀ code < 256,
        Grammar.isHexDigit (Char.ofNat code) =
          ((CharSet.ofRange '0' '9').hasCode code ||
            (CharSet.ofRange 'A' 'F').hasCode code) := by
    decide +kernel
  exact hCodes b.toNat b.toNat_lt

/- The rule takes one byte, which is a digit or a capital. -/
theorem derives_hexDigit
    (hHex :
      scope.find? "HEXDIG" =
        some ⟨"HEXDIG",
          .alternation
            [.ruleName "DIGIT", .range 'A' 'F']⟩)
    (hDigit :
      scope.find? "DIGIT" =
        some ⟨"DIGIT", .range '0' '9'⟩)
    (index : Nat) :
    scope.Derives input (.one (.ruleName "HEXDIG")) index
      (if input[index]?.any
          (fun b => Grammar.isHexDigit (Char.ofNat b.toNat))
      then
        some (index + 1)
      else
        none) := by
  have hFirst :
      scope.Derives input (.one (.ruleName "DIGIT")) index
        _ :=
    .ruleName hDigit (derives_terminal (by decide) index)
  have hSecond :
      scope.Derives input (.one (.range 'A' 'F')) index _ :=
    derives_terminal (by decide) index
  have hEither :
      input[index]?.any
          (fun b =>
            Grammar.isHexDigit (Char.ofNat b.toNat)) =
        (input[index]?.any
            (CharSet.ofRange '0' '9').containsByte ||
          input[index]?.any
            (CharSet.ofRange 'A' 'F').containsByte) := by
    cases input[index]? with
    | none => rfl
    | some b => exact isHexDigit_iff_containsByte b
  rw [hEither]
  refine .ruleName hHex (.alternation ?_)
  split at hFirst
  · rename_i hTaken
    rw [hTaken, Bool.true_or, if_pos rfl]
    exact .firstHere hFirst
  · rename_i hLeft
    rw [Bool.eq_false_iff.mpr hLeft, Bool.false_or]
    apply Derives.firstNext hFirst
    split at hSecond
    · rename_i hTaken
      rw [if_pos hTaken]
      exact .firstHere hSecond
    · rename_i hLeft
      rw [if_neg hLeft]
      exact .firstNext hSecond .firstNone

end Scope

namespace Program

/-
  Wherever the core rules for digits are in use, the routine
  for hexadecimal digits takes one byte, a decimal digit or
  one of six capitals, and nothing else.
-/
theorem run_hexDigit
    {rules : List Rule}
    {program : Program}
    (hProgram : ofRules rules = .ok program)
    (hHex : Scope.hasName rules "HEXDIG" = false)
    (hDigit : Scope.hasName rules "DIGIT" = false)
    {index : Nat}
    {procedure : Procedure}
    (hProcedure :
      program.procedures[index]? = some procedure)
    (hName : procedure.name = "HEXDIG")
    (input : Array UInt8)
    (start : Nat) :
    program.run index input start =
      if input[start]?.any
          (fun b => Grammar.isHexDigit (Char.ofNat b.toNat))
      then
        .matched (start + 1)
      else
        .failed := by
  rcases trace_eq_invoke hProgram hProcedure input start with
    ⟨hTrace, hSettled⟩
  have hStop := Outcome.eq_ofStop_of_isSettled hSettled
  rw [hTrace, hName] at hStop
  have hHexRule :
      (⟨"HEXDIG",
        .alternation
          [.ruleName "DIGIT", .range 'A' 'F']⟩ : Rule) ∈
        coreRules := by
    decide
  have hDigitRule :
      (⟨"DIGIT", .range '0' '9'⟩ : Rule) ∈ coreRules := by
    decide
  have hHexFind :=
    @Scope.find?_of_mem_core (Scope.ofRules rules) _
      nodup_coreRules hHexRule hHex
  have hDigitFind :=
    @Scope.find?_of_mem_core (Scope.ofRules rules) _
      nodup_coreRules hDigitRule hDigit
  have hDerives :=
    @Scope.derives_hexDigit _ input hHexFind hDigitFind start
  rw [run, hTrace, hName, hStop,
    (Scope.derives_of_invoke _ _ _ _ _ _ hStop).unique
      hDerives]
  split
  · rfl
  · rfl

open Grammar in
/-
  So the case of a letter makes no difference to the routine
  exactly where there is no small digit.
-/
theorem run_hexDigit_capitalByte
    {rules : List Rule}
    {program : Program}
    (hProgram : ofRules rules = .ok program)
    (hHex : Scope.hasName rules "HEXDIG" = false)
    (hDigit : Scope.hasName rules "DIGIT" = false)
    {index : Nat}
    {procedure : Procedure}
    (hProcedure :
      program.procedures[index]? = some procedure)
    (hName : procedure.name = "HEXDIG")
    (input : Array UInt8)
    (start : Nat) :
    program.run index input start =
        program.run index (input.map capitalByte) start ↔
      ∀ b, input[start]? = some b →
        isSmallByte b = false := by
  have hRun :=
    run_hexDigit hProgram hHex hDigit hProcedure hName
  rw [hRun input start, hRun (input.map capitalByte) start,
    Array.getElem?_map]
  cases input[start]? with
  | none => exact ⟨fun _ _ => nofun, fun _ => rfl⟩
  | some b =>
      rw [Option.map_some, Option.any_some, Option.any_some]
      cases hSmall : isSmallByte b with
      | false =>
          rw [capitalByte_of_not hSmall]
          refine ⟨fun _ => ?_, fun _ => rfl⟩
          rintro _ ⟨⟩
          exact hSmall
      | true =>
          rcases isHexDigit_of_isSmallByte hSmall with
            ⟨hHere, hCapital⟩
          rw [hHere, hCapital, if_pos rfl]
          refine ⟨nofun, ?_⟩
          intro hNone
          rw [hNone b rfl] at hSmall
          cases hSmall

end Program

end Abnf

------------------------------------------------------------
-- Texts With Small Digits
------------------------------------------------------------

namespace Abnf

namespace Grammar

variable {before value behind : String}
variable {depth : Nat}

/- A number that is told of is a word behind a percent sign. -/
theorem of_exit_hexVal
    (hSettled :
      (scope.invoke
        (Text.bytes (before ++ value ++ behind)) depth
        "rulelist" 0).outcome.isSettled = true)
    (hExit :
      .exit "hex-val" before.utf8ByteSize
          (some (before ++ value).utf8ByteSize) ∈
        (scope.invoke
          (Text.bytes (before ++ value ++ behind)) depth
          "rulelist" 0).events) :
    scope.Generates (.ruleName "hex-val")
        (Text.bytes value).toList ∧
      Zone.at? (Text.bytes before) before.utf8ByteSize =
        some .percent := by
  have hBefore :
      (Text.bytes before).toList.length =
        before.utf8ByteSize :=
    rfl
  have hValue :
      (Text.bytes value).toList.length =
        value.utf8ByteSize :=
    rfl
  have hBytes :
      (Text.bytes (before ++ value ++ behind)).toList =
        (Text.bytes before).toList ++
          ((Text.bytes value).toList ++
            (Text.bytes behind).toList) := by
    rw [bytes_append, bytes_append, Array.toList_append,
      Array.toList_append, List.append_assoc]
  constructor
  · rcases Scope.tells_of_isSettled _ _ _ _ _ hSettled _ _ _
        hExit with
      ⟨_, depth', hEnd⟩
    have hIndex :
        before.utf8ByteSize ≤
          (Text.bytes (before ++ value ++ behind)).size := by
      rw [← Array.length_toList, hBytes, List.length_append,
        hBefore]
      exact Nat.le_add_right _ _
    have hWord :=
      Scope.generates_of_invoke isLive_scope.check _ depth'
        hIndex hEnd
    rw [Text.between, hBytes, String.utf8ByteSize_append,
      Nat.add_sub_cancel_left, ← hBefore, List.drop_left,
      ← hValue, List.take_left] at hWord
    exact hWord
  · rcases (lands_rulelist _ depth).tells _ _ _ hExit with
      ⟨zone, ends, hAt, hTable, _⟩
    rw [zonesOf_hexVal hTable, Zone.at?, hBytes, ← hBefore,
      List.take_left] at hAt
    rw [Zone.at?, ← hBefore, List.take_length]
    exact hAt

/- The results are the same but for digits in an error. -/
def ReadsAlike
    (text text' : String) : Prop :=
  (read text).mapError ReadError.inCapitals =
    (read text').mapError ReadError.inCapitals

/- Unless a part is refused, no match ends further on. -/
theorem isOfPart_or_reaches
    {text : String}
    {run : Run}
    (hParse : parse (Text.bytes text) 0 = .ok run)
    {error : ReadError}
    (hError : read text = .error error) :
    error.isOfPart = true ∨
      ∃ index position,
        error = .incomplete index position ∧
        ∀ rule first last,
          .exit rule first (some last) ∈ run.events →
          last ≤ index := by
  rcases exists_readings_of_parse (Text.bytes text) 0 with
    ⟨callee, hRuns, hRun⟩
  rw [hRun] at hParse
  cases hParse
  rcases isOfPart_or_incomplete hRuns hRun error hError with
    hPart | hEnd
  · exact Or.inl hPart
  · refine Or.inr ⟨_, _, hEnd, ?_⟩
    intro rule first last hExit
    exact
      (Assembly.isGreatest_foldl_observe (Assembly.begin 0)
        _).2 (Or.inr ⟨rule, first, hExit⟩)

/-
  With small digits in a number, a text is read as if it
  ended at the first of them.
-/
theorem read_smallDigit
    (behind : String)
    (hWord :
      scope.Generates (.ruleName "hex-val")
        (Text.bytes (capitals value)).toList)
    (hSmall : value ≠ capitals value)
    (hStart :
      Zone.at? (Text.bytes before) before.utf8ByteSize =
        some .percent) :
    ∃ error,
      read (before ++ value ++ behind) = .error error ∧
      read (before ++ upToSmall value) = .error error ∧
      ∀ index position,
        error = .incomplete index position →
        index ≤ before.utf8ByteSize + smallFrom value := by
  have hText :
      before ++ value ++ behind =
        before ++ upToSmall value ++
          (String.ofList
            (value.toList.drop (smallFrom value)) ++
              behind) := by
    rw [← String.append_assoc,
      @String.append_assoc before (upToSmall value),
      upToSmall_append]
  have hAscii : IsAscii value.toList := by
    apply isAscii_of_capitals
    exact isAscii_of_generates hWord
  have hSize :
      (before ++ upToSmall value).utf8ByteSize =
        before.utf8ByteSize + smallFrom value := by
    rw [String.utf8ByteSize_append,
      utf8ByteSize_upToSmall hAscii]
  have hLost := at?_behind_smallDigit behind hWord hSmall hStart
  rw [hText, ← hSize] at hLost
  rw [hText, ← hSize]
  exact read_append_of_lost hLost

variable {run : Run}

/- An error that tells no digits is the same in capitals. -/
theorem eq_incomplete_of_inCapitals
    {error : ReadError}
    {index : Nat}
    {position : Text.Position}
    (h :
      error.inCapitals =
        (ReadError.incomplete index position).inCapitals) :
    error = .incomplete index position := by
  cases error with
  | incomplete index' position' => exact h
  | invalidRange text => cases h
  | invalidNumber text => cases h
  | redefinition name => cases h
  | undefinedIncremental name => cases h
  | element cause => cases h
  | charSet cause => cases h
  | bootstrap cause => cases h
  | internal fault => cases h

/-
  A number of a text can have small digits instead only if
  the text is refused for one of its parts, and so is what
  stands in front of them.
-/
theorem readsAlike_capitals_iff
    (hParse :
      parse
          (Text.bytes (before ++ capitals value ++ behind))
          0 =
        .ok run)
    (hTold :
      .exit "hex-val" before.utf8ByteSize
          (some (before ++ capitals value).utf8ByteSize) ∈
        run.events)
    (hWord :
      scope.Generates (.ruleName "hex-val")
        (Text.bytes (capitals value)).toList)
    (hStart :
      Zone.at? (Text.bytes before) before.utf8ByteSize =
        some .percent) :
    ReadsAlike (before ++ value ++ behind)
        (before ++ capitals value ++ behind) ↔
      value = capitals value ∨
      ∃ error,
        error.isOfPart = true ∧
        read (before ++ capitals value ++ behind) =
          .error error ∧
        ReadsAlike (before ++ upToSmall value)
          (before ++ capitals value ++ behind) := by
  have hAscii := isAscii_of_generates hWord
  by_cases hSmall : value = capitals value
  · rw [← hSmall]
    exact ⟨fun _ => Or.inl rfl, fun _ => rfl⟩
  · rcases read_smallDigit behind hWord hSmall hStart with
      ⟨error, hText, hFront, hIndex⟩
    have hSame :
        ReadsAlike (before ++ value ++ behind)
            (before ++ capitals value ++ behind) ↔
          ReadsAlike (before ++ upToSmall value)
            (before ++ capitals value ++ behind) := by
      rw [ReadsAlike, ReadsAlike, hText, hFront]
    rw [hSame, or_iff_right hSmall]
    constructor
    · intro hAlike
      rw [ReadsAlike, hFront] at hAlike
      cases hRead :
          read (before ++ capitals value ++ behind) with
      | ok rules =>
          rw [hRead] at hAlike
          cases hAlike
      | error error' =>
          rw [hRead] at hAlike
          refine ⟨error', ?_, rfl, ?_⟩
          · rcases isOfPart_or_reaches hParse hRead with
              hPart | ⟨index, position, rfl, hReach⟩
            · exact hPart
            · -- That text goes on beyond the number.
              have hHere :=
                hIndex index position
                  (eq_incomplete_of_inCapitals
                    (Except.error.inj hAlike))
              have hThere := hReach _ _ _ hTold
              rw [String.utf8ByteSize_append,
                utf8ByteSize_of_isAscii hAscii,
                toList_capitals, List.length_map] at hThere
              have hDigit := smallFrom_lt_of_ne hSmall
              omega
          · rw [ReadsAlike, hFront, hRead]
            exact hAlike
    · rintro ⟨_, _, _, hAlike⟩
      exact hAlike

/-
  Letter case counts in hexadecimal digits, although numbers
  have the same meaning in either case: with small digits,
  a number of a text would be read alike. But the text is
  then read as if it ended at the first of them. That makes
  no difference only if there is none, or if the text is
  refused for one of its parts, and so is what stands in
  front of the digit. And where a grammar leaves the rule
  for hexadecimal digits to the core rules, it makes a
  difference wherever a small digit stands.
-/
theorem letterCase_of_hexDigits
    {before value behind : String}
    {run : Run}
    (hParse :
      parse
          (Text.bytes (before ++ capitals value ++ behind))
          0 =
        .ok run)
    (hTold :
      .exit "hex-val" before.utf8ByteSize
          (some (before ++ capitals value).utf8ByteSize) ∈
        run.events) :
    readNumVal 16 (capitals value).toList =
      (readNumVal 16 value.toList).mapError
        ReadError.inCapitals ∧
    (value ≠ capitals value →
      ∀ behind', ∃ error,
        read (before ++ value ++ behind') = .error error ∧
        read (before ++ upToSmall value) = .error error ∧
        ∀ index position,
          error = .incomplete index position →
          index ≤ before.utf8ByteSize + smallFrom value) ∧
    (ReadsAlike (before ++ value ++ behind)
        (before ++ capitals value ++ behind) ↔
      value = capitals value ∨
      ∃ error,
        error.isOfPart = true ∧
        read (before ++ capitals value ++ behind) =
          .error error ∧
        ReadsAlike (before ++ upToSmall value)
          (before ++ capitals value ++ behind)) ∧
    ∀ (others : List Rule) (user : Program),
      Program.ofRules others = .ok user →
      Scope.hasName others "HEXDIG" = false →
      Scope.hasName others "DIGIT" = false →
      ∀ index procedure,
        user.procedures[index]? = some procedure →
        procedure.name = "HEXDIG" →
        ∀ input start,
          user.run index input start =
              user.run index (input.map capitalByte) start ↔
            ∀ b, input[start]? = some b →
              isSmallByte b = false := by
  rcases exists_parse_eq_invoke
      (Text.bytes (before ++ capitals value ++ behind)) with
    ⟨depth, hReadings, hRun⟩
  rw [hRun] at hParse
  cases hParse
  rcases of_exit_hexVal
      (hReadings.settled "rulelist" (by decide) 0) hTold with
    ⟨hWord, hStart⟩
  have hNumber :
      readNumVal 16 (capitals value).toList =
        (readNumVal 16 value.toList).mapError
          ReadError.inCapitals := by
    rw [toList_capitals]
    exact readNumVal_map_capital 16 value.toList
  refine
    ⟨hNumber,
      fun hSmall behind' =>
        read_smallDigit behind' hWord hSmall hStart,
      ?_, ?_⟩
  · exact readsAlike_capitals_iff hRun hTold hWord hStart
  · intro others user hUser hHex hDigit index procedure
      hProcedure hName
    exact
      Program.run_hexDigit_capitalByte hUser hHex hDigit
        hProcedure hName

/- In front of the digit, the bounds are refused in both. -/
example :
    ReadsAlike "r = 2*1%x4a\r\n" "r = 2*1%x4A\r\n" := by
  unfold ReadsAlike
  decide +kernel

/- The digit of some rule. -/
def oneDigit : List Rule :=
  [⟨"r", .ruleName "HEXDIG"⟩]

/-
  The number of a text is told of, and its second digit is a
  capital; with a small letter the text is not read alike.
  The core rule takes the capital only.
-/
theorem letterCase_of_hexDigits_secondDigit :
    ∃ run,
      parse (Text.bytes "r = %x4A\r\n") 0 = .ok run ∧
      .exit "hex-val" 5 (some 8) ∈ run.events ∧
      ¬ReadsAlike "r = %x4a\r\n" "r = %x4A\r\n" ∧
      ∃ user,
        Program.ofRules oneDigit = .ok user ∧
        user.run 2 (Text.bytes "a") 0 ≠
          user.run 2 ((Text.bytes "a").map capitalByte)
            0 := by
  have hTold :
      (parse (Text.bytes "r = %x4A\r\n") 0).toOption.any
        (fun run =>
          decide (.exit "hex-val" 5 (some 8) ∈ run.events)) =
        true := by
    decide +kernel
  have hRead :
      (read "r = %x4A\r\n").toOption.isSome = true := by
    decide +kernel
  have hName :
      (Program.ofRules oneDigit).toOption.map
          (fun user => user.procedures[2]?.map (·.name)) =
        some (some "HEXDIG") := by
    decide +kernel
  have hCapitals : capitals "x4a" = "x4A" := by
    apply String.toList_injective
    rw [toList_capitals]
    decide
  cases hParse : parse (Text.bytes "r = %x4A\r\n") 0 with
  | error cause =>
      rw [hParse] at hTold
      cases hTold
  | ok run =>
      rw [hParse] at hTold
      have hExit := of_decide_eq_true hTold
      have hText :=
        @letterCase_of_hexDigits "r = %" "x4a" "\r\n" run
      rw [hCapitals] at hText
      rcases hText hParse hExit with ⟨_, _, hAlike, hUsers⟩
      refine ⟨run, rfl, hExit, ?_, ?_⟩
      · intro hSame
        rcases hAlike.mp hSame with
          hNone | ⟨error, _, hError, _⟩
        · exact absurd hNone (by decide)
        · change read "r = %x4A\r\n" = _ at hError
          rw [hError] at hRead
          cases hRead
      · cases hUser : Program.ofRules oneDigit with
        | error cause =>
            rw [hUser] at hName
            cases hName
        | ok user =>
            rw [hUser] at hName
            rcases Option.map_eq_some_iff.mp
                (Option.some.inj hName) with
              ⟨procedure, hProcedure, hName⟩
            have hRun :=
              hUsers oneDigit user hUser (by decide)
                (by decide) 2 procedure hProcedure hName
            refine ⟨user, rfl, ?_⟩
            intro hSame
            exact
              absurd ((hRun (Text.bytes "a") 0).mp hSame 97 rfl)
                (by decide)

/-
  With a capital the text is a rule, and with a small letter
  it is none. The rule for digits takes capitals only.
-/
theorem read_smallDigit_ne_read_capital :
    (read "r = %x4A\r\n").toOption =
        some [⟨"r", .terminal (.ofRange 'J' 'J')⟩] ∧
      read "r = %x4a\r\n" =
        .error (.incomplete 7 ⟨1, 8⟩) ∧
      (Program.ofRules oneDigit).toOption.map
          (fun user =>
            (user.run 0 (Text.bytes "A") 0,
             user.run 0 (Text.bytes "a") 0)) =
        some (.matched 1, .failed) := by
  decide +kernel

end Grammar

end Abnf
