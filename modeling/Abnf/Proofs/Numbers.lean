import Abnf.Proofs.GrammarForms

/-
  Numbers in grammar texts.

  Numbers are matched as digits and then read from the same
  text again. What is read is stated here by the value of
  the digits in their base: which characters stand for a
  number, which counts bound a repetition, and what is
  reported of the first number that is out of bounds.

  Key definitions include:
    * `Abnf.Grammar.numberOf`
    * `Abnf.Grammar.settle`
    * `Abnf.Grammar.NumberForm`
    * `Abnf.Grammar.NumberForm.Means`
    * `Abnf.Grammar.CountForm`
    * `Abnf.Grammar.Numeral`

  Main declarations:
    * `Abnf.Grammar.numberBelow?_eq`
    * `Abnf.Grammar.readNumVal_eq`
    * `Abnf.Grammar.readRepeat_eq`
    * `Abnf.Grammar.exists_numberForm`
    * `Abnf.Grammar.exists_countForm`
    * `Abnf.Grammar.reads_numbers`
-/

------------------------------------------------------------
-- Digits
------------------------------------------------------------

namespace Abnf

namespace Grammar

/- The value of a digit; capitals go on behind nine. -/
def digitOf
    (c : Char) : Nat :=
  if c.isDigit then
    c.toNat - '0'.toNat
  else
    c.toNat - 'A'.toNat + 10

/- A digit of some base. -/
def isDigitOf
    (base : Nat)
    (c : Char) : Bool :=
  (c.isDigit || ('A' ≤ c && c ≤ 'F')) && digitOf c < base

/- The number that digits stand for. -/
def numberOf
    (base : Nat)
    (digits : List Char) : Nat :=
  Nat.ofDigits base (digits.reverse.map digitOf)

theorem numberOf_nil
    (base : Nat) : numberOf base [] = 0 :=
  rfl

/- Each digit counts by its place. -/
theorem numberOf_cons
    (base : Nat)
    (c : Char)
    (digits : List Char) :
    numberOf base (c :: digits) =
      digitOf c * base ^ digits.length +
        numberOf base digits := by
  rw [numberOf, numberOf, List.reverse_cons,
    List.map_append, Nat.ofDigits_append, List.length_map,
    List.length_reverse, List.map_singleton,
    Nat.ofDigits_singleton, Nat.mul_comm, Nat.add_comm]

/- Zeros in front add nothing. -/
theorem numberOf_zeros
    (base zeros : Nat)
    (digits : List Char) :
    numberOf base (List.replicate zeros '0' ++ digits) =
      numberOf base digits := by
  induction zeros with
  | zero => rfl
  | succ zeros ih =>
      have hZero : digitOf '0' = 0 := by decide
      rw [List.replicate_succ, List.cons_append,
        numberOf_cons, hZero, Nat.zero_mul, Nat.zero_add, ih]

variable {base : Nat}

theorem digitValue?_of_isDigitOf
    {c : Char}
    (h : isDigitOf base c = true) :
    digitValue? base c = some (digitOf c) := by
  rw [isDigitOf, Bool.and_eq_true, Bool.or_eq_true,
    Bool.and_eq_true, decide_eq_true_iff,
    decide_eq_true_iff, decide_eq_true_iff] at h
  rcases h with ⟨hDigit | ⟨hLow, hHigh⟩, hBase⟩
  · have hBounds := bounds_of_isDigit hDigit
    have hRange : '0' ≤ c ∧ c ≤ '9' := by
      rw [le_iff_toNat_le, le_iff_toNat_le]
      exact hBounds
    rw [digitOf, if_pos hDigit] at hBase ⊢
    rw [digitValue?, if_pos hRange, Option.filter_some,
      if_pos (decide_eq_true hBase)]
  · have hNotDigit : ¬ ('0' ≤ c ∧ c ≤ '9') := by
      intro hDigit
      exact
        absurd (Char.le_trans hLow hDigit.2) (by decide)
    have hRange : 'A' ≤ c ∧ c ≤ 'Z' :=
      ⟨hLow, Char.le_trans hHigh (by decide)⟩
    have hOther : ¬ c.isDigit = true := by
      intro hDigit
      have hBounds := bounds_of_isDigit hDigit
      have hCode : 'A'.toNat = 65 := rfl
      rw [le_iff_toNat_le] at hLow
      omega
    rw [digitOf, if_neg hOther] at hBase ⊢
    rw [digitValue?, if_neg hNotDigit, if_pos hRange,
      Option.filter_some, if_pos (decide_eq_true hBase)]

/- Digits are read by their places. -/
theorem digitsValue?_eq
    {digits : List Char}
    (h : ∀ c ∈ digits, isDigitOf base c = true)
    (value : Nat) :
    digitsValue? base value digits =
      some
        (value * base ^ digits.length +
          numberOf base digits) := by
  induction digits generalizing value with
  | nil => simp [digitsValue?, numberOf_nil]
  | cons c digits ih =>
      rw [List.forall_mem_cons] at h
      rw [digitsValue?, digitValue?_of_isDigitOf h.1]
      simp only
      rw [ih h.2, numberOf_cons, List.length_cons]
      congr 1
      ring

theorem numberBelow?_eq
    {digits : List Char}
    (hSome : digits ≠ [])
    (h : ∀ c ∈ digits, isDigitOf base c = true)
    (limit : Nat) :
    numberBelow? limit base digits =
      if numberOf base digits < limit then
        some (numberOf base digits)
      else
        none := by
  have hNotEmpty : digits.isEmpty = false := by
    rw [Bool.eq_false_iff, ne_eq, List.isEmpty_iff]
    exact hSome
  rw [numberBelow?, hNotEmpty, if_neg Bool.false_ne_true,
    digitsValue?_eq h, Nat.zero_mul, Nat.zero_add,
    Option.filter_some]
  simp only [decide_eq_true_eq]

/- Digits are neither dots, dashes nor stars. -/
theorem ne_of_isDigitOf
    {c : Char}
    (h : isDigitOf base c = true) :
    c ≠ '.' ∧ c ≠ '-' ∧ c ≠ '*' := by
  refine ⟨?_, ?_, ?_⟩
  all_goals
    rintro rfl
    rw [isDigitOf, Bool.and_eq_true] at h
    exact absurd h.1 (by decide)

end Grammar

end Abnf

------------------------------------------------------------
-- Causes
------------------------------------------------------------

namespace Abnf

namespace Grammar

variable {α β : Type}

/- A result, unless there is a cause not to have it. -/
def settle
    (cause? : Option ReadError)
    (value : α) : Except ReadError α :=
  match cause? with
  | some cause => .error cause
  | none => .ok value

/- Of two causes, the first one counts. -/
theorem settle_bind
    {cause? cause'? : Option ReadError}
    {value : α}
    {value' : β}
    {next : α → Except ReadError β}
    (h :
      cause? = none →
        next value = settle cause'? value') :
    (settle cause? value >>= next) =
      settle (cause?.or cause'?) value' := by
  cases cause? with
  | some cause => rfl
  | none => exact h rfl

theorem settle_eq_ok_iff
    {cause? : Option ReadError}
    {value value' : α} :
    settle cause? value = .ok value' ↔
      cause? = none ∧ value = value' := by
  cases cause? with
  | some cause => simp [settle]
  | none => simp [settle]

theorem settle_eq_error_iff
    {cause? : Option ReadError}
    {value : α}
    {cause : ReadError} :
    settle cause? value = .error cause ↔
      cause? = some cause := by
  cases cause? with
  | some cause' => simp [settle]
  | none => simp [settle]

/- Of some items, the first cause counts. -/
theorem mapM_eq_settle
    {items : List α}
    {read : α → Except ReadError β}
    {cause? : α → Option ReadError}
    {value : α → β}
    (h :
      ∀ item ∈ items,
        read item = settle (cause? item) (value item)) :
    items.mapM read =
      settle (items.findSome? cause?) (items.map value) := by
  induction items with
  | nil => rfl
  | cons item items ih =>
      rw [List.forall_mem_cons] at h
      rw [List.mapM_cons, h.1, ih h.2,
        List.findSome?_cons]
      cases cause? item with
      | some cause => rfl
      | none =>
          cases items.findSome? cause? with
          | some cause => rfl
          | none => rfl

end Grammar

end Abnf

------------------------------------------------------------
-- Character Numbers
------------------------------------------------------------

namespace Abnf

namespace Grammar

/-
  Why digits do not stand for an ASCII character: their
  number does not fit, it is no character's, or that of one
  outside the table.
-/
def valueCause?
    (base : Nat)
    (digits : List Char) : Option ReadError :=
  let number := numberOf base digits
  if number < 2 ^ 32 ∧ number.isValidChar then
    if number < 128 then
      none
    else
      some (.charSet (.nonAscii (Char.ofNat number)))
  else
    some (invalidNumber digits)

variable {base : Nat}

theorem lt_of_valueCause?
    {digits : List Char}
    (h : valueCause? base digits = none) :
    numberOf base digits < CharSet.tableSize := by
  unfold valueCause? at h
  dsimp only at h
  split at h
  · split at h
    · assumption
    · cases h
  · cases h

/- The digits of a value, one at least. -/
def IsValue
    (base : Nat)
    (digits : List Char) : Prop :=
  digits ≠ [] ∧ ∀ c ∈ digits, isDigitOf base c = true

theorem readCode_eq
    {digits : List Char}
    (h : IsValue base digits) :
    readCode base digits =
      settle (valueCause? base digits)
        (Char.ofNat (numberOf base digits)) := by
  have hLimit : codeLimit = 2 ^ 32 := rfl
  rw [readCode, numberBelow?_eq h.1 h.2, hLimit, valueCause?]
  by_cases hFits : numberOf base digits < 2 ^ 32
  · by_cases hValid : (numberOf base digits).isValidChar
    · have hCode :
          (Char.ofNat (numberOf base digits)).toNat =
            numberOf base digits := by
        simp [Char.ofNat, hValid]
      simp only [hFits, hValid, if_true, and_self,
        CharSet.ofChar, hCode, CharSet.tableSize]
      by_cases hTable : numberOf base digits < 128
      · simp only [hTable, if_true]
        rfl
      · simp only [hTable, if_false]
        rfl
    · simp only [hFits, hValid, if_true, if_false, and_false]
      rfl
  · simp only [hFits, if_false, false_and]
    rfl

theorem readCodeSet_eq
    {digits : List Char}
    (h : IsValue base digits) :
    readCodeSet base digits =
      settle (valueCause? base digits)
        (CharSet.ofSpan (numberOf base digits)
          (numberOf base digits + 1)) := by
  rw [readCodeSet, readCode_eq h]
  cases hCause : valueCause? base digits with
  | some cause => rfl
  | none =>
      have hTable := lt_of_valueCause? hCause
      have hCode := CharSet.toNat_ofNat_of_lt _ hTable
      change
        ReadError.liftCharSet
            (CharSet.ofChar
              (Char.ofNat (numberOf base digits))) = _
      rw [CharSet.ofChar, hCode, if_pos hTable]
      rfl

end Grammar

end Abnf

------------------------------------------------------------
-- Forms Of Character Numbers
------------------------------------------------------------

namespace Abnf

namespace Grammar

/- Numbers as they are written behind a letter. -/
inductive NumberForm where
  /- A value, and more values behind dots. -/
  | series (first : List Char) (others : List (List Char))
  /- The first and the last value around a dash. -/
  | range (first last : List Char)

/- An element takes the one character of a number. -/
def IsCharacter
    (number : Nat)
    (element : Element) : Prop :=
  ∃ s, element = .terminal s ∧
    ∀ code, s.hasCode code = true ↔ code = number

namespace NumberForm

/- The values from left to right. -/
def values : NumberForm → List (List Char)
  | series first others => first :: others
  | range first last => [first, last]

/- The values and the signs between them. -/
def text : NumberForm → List Char
  | series first others =>
      first ++ others.flatMap ('.' :: ·)
  | range first last => first ++ '-' :: last

/- All values have digits of the base. -/
def IsWritten
    (base : Nat)
    (form : NumberForm) : Prop :=
  ∀ digits ∈ form.values, IsValue base digits

/- The first value of a range is above the last one. -/
def isReversed
    (base : Nat) : NumberForm → Bool
  | series _ _ => false
  | range first last =>
      numberOf base last < numberOf base first

/-
  The first cause to refuse the numbers of a text: a value
  that stands for no ASCII character, or else a range that is
  the wrong way round.
-/
def cause?
    (base : Nat)
    (written : List Char)
    (form : NumberForm) : Option ReadError :=
  (form.values.findSome? (valueCause? base)).or
    (if form.isReversed base then
      some (.invalidRange (String.ofList written))
    else
      none)

/-
  What numbers mean: one value its character, more values
  their characters one after the other, and a range all
  characters between its ends.
-/
inductive Means
    (base : Nat) : NumberForm → Element → Prop
  | one {digits : List Char} {element : Element} :
      IsCharacter (numberOf base digits) element →
      Means base (.series digits []) element
  | several
      {first : List Char} {others : List (List Char)}
      {parts : List Element} :
      others ≠ [] →
      List.Forall₂
        (fun digits part =>
          IsCharacter (numberOf base digits) part)
        (first :: others) parts →
      Means base (.series first others)
        (.concatenation parts)
  | range {first last : List Char} {s : CharSet} :
      numberOf base first ≤ numberOf base last →
      (∀ code, s.hasCode code = true ↔
        numberOf base first ≤ code ∧
          code ≤ numberOf base last) →
      Means base (.range first last) (.terminal s)

end NumberForm

/- Only one element takes the character of a number. -/
theorem IsCharacter.unique
    {number : Nat}
    {element element' : Element}
    (h : IsCharacter number element)
    (h' : IsCharacter number element') :
    element = element' := by
  rcases h with ⟨s, rfl, hCodes⟩
  rcases h' with ⟨s', rfl, hCodes'⟩
  congr 1
  apply CharSet.eq_of_hasCode
  intro code
  rw [Bool.eq_iff_iff, hCodes, hCodes']

namespace NumberForm

variable {base : Nat}
variable {form : NumberForm}

/- Numbers mean at most one element. -/
theorem Means.unique
    {element element' : Element}
    (h : form.Means base element)
    (h' : form.Means base element') :
    element = element' := by
  cases h with
  | one hCharacter =>
      cases h' with
      | one hCharacter' =>
          exact hCharacter.unique hCharacter'
      | several hSome _ => exact absurd rfl hSome
  | several hSome hParts =>
      cases h' with
      | one _ => exact absurd rfl hSome
      | several _ hParts' =>
          have hUnique :
              Relator.RightUnique
                (fun digits part =>
                  IsCharacter (numberOf base digits) part) :=
            fun _ _ _ => IsCharacter.unique
          congr 1
          exact
            List.right_unique_forall₂' hUnique hParts hParts'
  | range _ hCodes =>
      cases h' with
      | range _ hCodes' =>
          congr 1
          apply CharSet.eq_of_hasCode
          intro code
          rw [Bool.eq_iff_iff, hCodes, hCodes']

/- The element that is made of numbers without a cause. -/
def element
    (base : Nat) : NumberForm → Element
  | series first others =>
      seriesOf
        ((first :: others).map
          (fun digits =>
            .terminal
              (CharSet.ofSpan (numberOf base digits)
                (numberOf base digits + 1))))
  | range first last =>
      .terminal
        (CharSet.ofRange (Char.ofNat (numberOf base first))
          (Char.ofNat (numberOf base last)))

theorem isCharacter_ofSpan
    {number : Nat}
    (hTable : number < CharSet.tableSize) :
    IsCharacter number
      (.terminal (CharSet.ofSpan number (number + 1))) := by
  refine ⟨_, rfl, ?_⟩
  intro code
  rw [CharSet.hasCode_ofSpan (Nat.le_succ _),
    decide_eq_true_iff]
  omega

/- Without a cause, that element is what is meant. -/
theorem means_element
    {written : List Char}
    (h : form.cause? base written = none) :
    form.Means base (form.element base) := by
  rw [cause?, Option.or_eq_none_iff,
    List.findSome?_eq_none_iff] at h
  have hTable :
      ∀ digits ∈ form.values,
        numberOf base digits < CharSet.tableSize :=
    fun digits hDigits => lt_of_valueCause? (h.1 digits hDigits)
  cases form with
  | series first others =>
      rw [values] at hTable
      cases others with
      | nil =>
          exact
            .one
              (isCharacter_ofSpan
                (hTable first List.mem_cons_self))
      | cons second others =>
          have hParts :
              List.Forall₂
                (fun digits part =>
                  IsCharacter (numberOf base digits) part)
                (first :: second :: others)
                ((first :: second :: others).map
                  (fun digits =>
                    .terminal
                      (CharSet.ofSpan
                        (numberOf base digits)
                        (numberOf base digits + 1)))) := by
            rw [List.forall₂_map_right_iff,
              List.forall₂_same]
            intro digits hDigits
            exact isCharacter_ofSpan (hTable digits hDigits)
          exact .several (List.cons_ne_nil _ _) hParts
  | range first last =>
      rw [values, List.forall_mem_cons,
        List.forall_mem_singleton] at hTable
      have hFirst := CharSet.toNat_ofNat_of_lt _ hTable.1
      have hLast := CharSet.toNat_ofNat_of_lt _ hTable.2
      have hOrdered :
          numberOf base first ≤ numberOf base last := by
        simpa [isReversed] using h.2
      have hChars :
          Char.ofNat (numberOf base first) ≤
            Char.ofNat (numberOf base last) := by
        rw [le_iff_toNat_le, hFirst, hLast]
        exact hOrdered
      apply Means.range hOrdered
      intro code
      rw [CharSet.ofRange, if_pos hChars, hFirst, hLast,
        CharSet.hasCode_ofSpan (by omega),
        decide_eq_true_iff]
      omega

end NumberForm

end Grammar

end Abnf

------------------------------------------------------------
-- Reading Character Numbers
------------------------------------------------------------

namespace Abnf

namespace Grammar

/- Without dots, a text goes before the first piece. -/
theorem splitDots_append
    {text piece : List Char}
    {pieces : List (List Char)}
    {before : List Char}
    (hBefore : ∀ c ∈ before, c ≠ '.')
    (h : splitDots text = piece :: pieces) :
    splitDots (before ++ text) =
      (before ++ piece) :: pieces := by
  induction before with
  | nil => exact h
  | cons c before ih =>
      rw [List.forall_mem_cons] at hBefore
      have hRest := ih hBefore.2
      rw [splitDots] at hRest
      rw [List.cons_append, splitDots, List.foldr_cons, hRest]
      simp only [hBefore.1, if_false, List.cons_append]

/- A text is cut into the values between its dots. -/
theorem splitDots_series
    {first : List Char}
    {others : List (List Char)}
    (h :
      ∀ digits ∈ first :: others, ∀ c ∈ digits, c ≠ '.') :
    splitDots (first ++ others.flatMap ('.' :: ·)) =
      first :: others := by
  induction others generalizing first with
  | nil =>
      have hCut := @splitDots_append [] [] [] first
        (h first List.mem_cons_self) rfl
      rw [List.append_nil] at hCut
      rw [List.flatMap_nil, List.append_nil]
      exact hCut
  | cons second others ih =>
      rw [List.forall_mem_cons] at h
      have hRest := ih h.2
      have hDot :
          splitDots
              ('.' ::
                (second ++ others.flatMap ('.' :: ·))) =
            [] :: second :: others := by
        rw [splitDots] at hRest
        rw [splitDots, List.foldr_cons, hRest, if_pos rfl]
      have hCut := splitDots_append h.1 hDot
      rw [List.append_nil] at hCut
      rw [List.flatMap_cons, List.cons_append]
      exact hCut

variable {base : Nat}
variable {form : NumberForm}

/- A series has no dash. -/
theorem ne_dash_of_mem_series
    {first : List Char}
    {others : List (List Char)}
    (h :
      ∀ digits ∈ first :: others, IsValue base digits) :
    ∀ c ∈ first ++ others.flatMap ('.' :: ·),
      (c != '-') = true := by
  have hDigit :
      ∀ digits ∈ first :: others, ∀ c ∈ digits, c ≠ '-' :=
    fun digits hDigits c hc =>
      (ne_of_isDigitOf ((h digits hDigits).2 c hc)).2.1
  intro c hc
  rw [bne_iff_ne]
  rcases List.mem_append.mp hc with hFirst | hOther
  · exact hDigit first List.mem_cons_self c hFirst
  · rcases List.mem_flatMap.mp hOther with
      ⟨digits, hDigits, hc⟩
    rcases List.mem_cons.mp hc with rfl | hc
    · decide
    · exact
        hDigit digits (List.mem_cons_of_mem _ hDigits) c hc

/- Of ASCII characters, the order is that of the numbers. -/
theorem checkOrder_eq
    {low high : Nat}
    (hLow : low < CharSet.tableSize)
    (hHigh : high < CharSet.tableSize)
    (cause : ReadError)
    (element : Element) :
    (if Char.ofNat high < Char.ofNat low then
        .error cause
      else
        .ok element) =
      settle
        (if decide (high < low) = true then
          some cause
        else
          none)
        element := by
  have hOrder :
      Char.ofNat high < Char.ofNat low ↔ high < low := by
    rw [← Char.not_le, le_iff_toNat_le,
      CharSet.toNat_ofNat_of_lt low hLow,
      CharSet.toNat_ofNat_of_lt high hHigh, Nat.not_le]
  by_cases hReversed : high < low
  · rw [if_pos (hOrder.mpr hReversed),
      if_pos (decide_eq_true hReversed)]
    rfl
  · rw [if_neg (fun h => hReversed (hOrder.mp h)),
      if_neg (fun h => hReversed (of_decide_eq_true h))]
    rfl

/- Numbers are read as they are written. -/
theorem readNumVal_eq
    (hWritten : form.IsWritten base)
    (letter : Char) :
    readNumVal base (letter :: form.text) =
      settle (form.cause? base (letter :: form.text))
        (form.element base) := by
  generalize hText : letter :: form.text = text
  rw [NumberForm.IsWritten] at hWritten
  cases form with
  | series first others =>
      rw [NumberForm.values] at hWritten
      have hSpan :=
        @span_of_head '-' _ [] (ne_dash_of_mem_series hWritten)
          rfl
      have hDots :=
        splitDots_series
          (fun digits hDigits c hc =>
            (ne_of_isDigitOf
              ((hWritten digits hDigits).2 c hc)).1)
      rw [List.append_nil] at hSpan
      rw [NumberForm.text] at hText
      rw [← hText, readNumVal, List.drop_one,
        List.tail_cons, hSpan]
      simp only
      rw [hDots,
        mapM_eq_settle
          (fun digits hDigits =>
            readCodeSet_eq (hWritten digits hDigits)),
        NumberForm.cause?, NumberForm.values,
        NumberForm.isReversed, if_neg Bool.false_ne_true,
        NumberForm.element]
      apply settle_bind
      intro _
      rw [List.map_map]
      rfl
  | range first last =>
      rw [NumberForm.values, List.forall_mem_cons,
        List.forall_mem_singleton] at hWritten
      have hDash : ∀ c ∈ first, (c != '-') = true :=
        fun c hc =>
          bne_iff_ne.mpr
            (ne_of_isDigitOf (hWritten.1.2 c hc)).2.1
      have hSpan :=
        @span_of_head '-' first ('-' :: last) hDash rfl
      rw [NumberForm.text] at hText
      rw [readNumVal, ← hText, List.drop_one,
        List.tail_cons, hSpan]
      simp only
      rw [readCode_eq hWritten.1, readCode_eq hWritten.2,
        NumberForm.cause?, NumberForm.values,
        NumberForm.isReversed, NumberForm.element]
      cases hFirst : valueCause? base first with
      | some cause =>
          rw [List.findSome?_cons, hFirst]
          rfl
      | none =>
        cases hLast : valueCause? base last with
        | some cause =>
            rw [List.findSome?_cons, hFirst,
              List.findSome?_cons, hLast]
            rfl
        | none =>
            rw [List.findSome?_cons, hFirst,
              List.findSome?_cons, hLast]
            exact
              checkOrder_eq (lt_of_valueCause? hFirst)
                (lt_of_valueCause? hLast) _ _

end Grammar

end Abnf

------------------------------------------------------------
-- Forms Of Counts
------------------------------------------------------------

namespace Abnf

namespace Grammar

/- Counts as they are written before an element. -/
inductive CountForm where
  /- One count for both bounds. -/
  | exactly (digits : List Char)
  /- Digits around a star, which may be left out. -/
  | between (low high : List Char)

/- Write some zeros in front of digits, if there are any. -/
def padded
    (zeros : Nat)
    (digits : List Char) : List Char :=
  if digits = [] then
    []
  else
    List.replicate zeros '0' ++ digits

/- The digits are of a count that does not fit. -/
def countCause?
    (digits : List Char) : Option ReadError :=
  if numberOf 10 digits < 2 ^ 64 then
    none
  else
    some (invalidNumber digits)

/- The count of digits, if there are any. -/
def countOf?
    (digits : List Char) : Option Nat :=
  if digits = [] then none else some (numberOf 10 digits)

theorem getD_countOf?
    (digits : List Char) :
    (countOf? digits).getD 0 = numberOf 10 digits := by
  by_cases hNone : digits = []
  · subst hNone
    rfl
  · rw [countOf?, if_neg hNone]
    rfl

namespace CountForm

/- The digits on each side. -/
def sides : CountForm → List (List Char)
  | exactly digits => [digits]
  | between low high => [low, high]

def text : CountForm → List Char
  | exactly digits => digits
  | between low high => low ++ '*' :: high

/- All digits are decimal; a count by itself has some. -/
def IsWritten
    (form : CountForm) : Prop :=
  (∀ digits, form = exactly digits → digits ≠ []) ∧
    ∀ digits ∈ form.sides, ∀ c ∈ digits,
      isDigitOf 10 c = true

/- All counts fit. -/
def Fits
    (form : CountForm) : Prop :=
  ∀ digits ∈ form.sides, numberOf 10 digits < 2 ^ 64

/-
  The bounds: a count by itself is both, and around a star a
  count that is left out bounds nothing.
-/
def bounds : CountForm → Nat × Option Nat
  | exactly digits =>
      (numberOf 10 digits, some (numberOf 10 digits))
  | between low high => (numberOf 10 low, countOf? high)

/- Write zeros in front of the counts. -/
def withZeros
    (zeros zeros' : Nat) : CountForm → CountForm
  | exactly digits => exactly (padded zeros digits)
  | between low high =>
      between (padded zeros low) (padded zeros' high)

end CountForm

theorem readCount_eq
    {digits : List Char}
    (h : ∀ c ∈ digits, isDigitOf 10 c = true) :
    readCount digits =
      settle (countCause? digits) (countOf? digits) := by
  have hLimit : countLimit = 2 ^ 64 := rfl
  by_cases hNone : digits = []
  · subst hNone
    rfl
  · have hNotEmpty : digits.isEmpty = false := by
      rw [Bool.eq_false_iff, ne_eq, List.isEmpty_iff]
      exact hNone
    rw [readCount, hNotEmpty, if_neg Bool.false_ne_true,
      numberBelow?_eq hNone h, hLimit, countCause?, countOf?,
      if_neg hNone]
    by_cases hFits : numberOf 10 digits < 2 ^ 64
    · rw [if_pos hFits, if_pos hFits]
      rfl
    · rw [if_neg hFits, if_neg hFits]
      rfl

/- The first cause is that of the first count that is due. -/
theorem findSome?_countCause?
    (sides : List (List Char)) :
    sides.findSome? countCause? =
      (sides.find? (2 ^ 64 ≤ numberOf 10 ·)).map
        invalidNumber := by
  induction sides with
  | nil => rfl
  | cons digits sides ih =>
      rw [List.findSome?_cons, List.find?_cons, countCause?]
      by_cases hFits : numberOf 10 digits < 2 ^ 64
      · rw [if_pos hFits,
          decide_eq_false (Nat.not_le.mpr hFits)]
        exact ih
      · rw [if_neg hFits,
          decide_eq_true (Nat.not_lt.mp hFits)]
        rfl

/- Counts are read as they are written. -/
theorem readRepeat_eq
    {form : CountForm}
    (hWritten : form.IsWritten) :
    readRepeat form.text =
      settle (form.sides.findSome? countCause?)
        form.bounds := by
  rcases hWritten with ⟨hSome, hDigits⟩
  cases form with
  | exactly digits =>
      rw [CountForm.sides, List.forall_mem_singleton]
        at hDigits
      have hSpan :=
        @span_of_head '*' digits []
          (fun c hc =>
            bne_iff_ne.mpr
              (ne_of_isDigitOf (hDigits c hc)).2.2)
          rfl
      rw [List.append_nil] at hSpan
      rw [CountForm.text, readRepeat, hSpan]
      simp only
      rw [readCount_eq hDigits, countOf?,
        if_neg (hSome digits rfl), CountForm.sides,
        List.findSome?_singleton]
      cases countCause? digits with
      | some cause => rfl
      | none => rfl
  | between low high =>
      rw [CountForm.sides, List.forall_mem_cons,
        List.forall_mem_singleton] at hDigits
      have hSpan :=
        @span_of_head '*' low ('*' :: high)
          (fun c hc =>
            bne_iff_ne.mpr
              (ne_of_isDigitOf (hDigits.1 c hc)).2.2)
          rfl
      rw [CountForm.text, readRepeat, hSpan]
      simp only
      rw [readCount_eq hDigits.1, readCount_eq hDigits.2,
        CountForm.sides, List.findSome?_cons,
        List.findSome?_singleton]
      cases countCause? low with
      | some cause => rfl
      | none =>
          cases countCause? high with
          | some cause => rfl
          | none =>
              rw [CountForm.bounds, ← getD_countOf? low]
              rfl

variable {form : CountForm}

theorem readRepeat_eq_ok_iff
    (hWritten : form.IsWritten)
    (bounds : Nat × Option Nat) :
    readRepeat form.text = .ok bounds ↔
      form.Fits ∧ bounds = form.bounds := by
  rw [readRepeat_eq hWritten, settle_eq_ok_iff,
    List.findSome?_eq_none_iff, CountForm.Fits,
    @eq_comm _ bounds]
  refine and_congr_left' (forall₂_congr ?_)
  intro digits _
  rw [countCause?]
  by_cases hFits : numberOf 10 digits < 2 ^ 64
  · rw [if_pos hFits]
    exact iff_of_true rfl hFits
  · rw [if_neg hFits]
    exact iff_of_false nofun hFits

theorem readRepeat_eq_error_iff
    (hWritten : form.IsWritten)
    (error : ReadError) :
    readRepeat form.text = .error error ↔
      ∃ digits,
        form.sides.find? (2 ^ 64 ≤ numberOf 10 ·) =
          some digits ∧
        error = invalidNumber digits := by
  rw [readRepeat_eq hWritten, settle_eq_error_iff,
    findSome?_countCause?, Option.map_eq_some_iff]
  simp only [eq_comm]

/- Zeros in front change neither the form nor the number. -/
theorem padded_keeps
    (zeros : Nat)
    (digits : List Char) :
    (padded zeros digits = [] ↔ digits = []) ∧
      numberOf 10 (padded zeros digits) =
        numberOf 10 digits ∧
      ((∀ c ∈ digits, isDigitOf 10 c = true) →
        ∀ c ∈ padded zeros digits,
          isDigitOf 10 c = true) := by
  unfold padded
  split
  · rename_i hNone
    subst hNone
    simp
  · rename_i hSome
    refine ⟨?_, numberOf_zeros 10 zeros digits, ?_⟩
    · simp [hSome]
    · intro hDigits c hc
      rcases List.mem_append.mp hc with hZero | hDigit
      · rw [List.eq_of_mem_replicate hZero]
        decide
      · exact hDigits c hDigit

theorem countOf?_padded
    (zeros : Nat)
    (digits : List Char) :
    countOf? (padded zeros digits) = countOf? digits := by
  have hKeeps := padded_keeps zeros digits
  simp only [countOf?, hKeeps.1, hKeeps.2.1]

namespace CountForm

variable (zeros zeros' : Nat)

theorem isWritten_withZeros
    (h : form.IsWritten) :
    (form.withZeros zeros zeros').IsWritten := by
  rcases h with ⟨hSome, hDigits⟩
  cases form with
  | exactly digits =>
      have hKeeps := padded_keeps zeros digits
      rw [sides, List.forall_mem_singleton] at hDigits
      refine ⟨?_, ?_⟩
      · rintro _ ⟨⟩
        exact mt hKeeps.1.mp (hSome digits rfl)
      · exact
          List.forall_mem_singleton.mpr (hKeeps.2.2 hDigits)
  | between low high =>
      rw [sides, List.forall_mem_cons,
        List.forall_mem_singleton] at hDigits
      refine ⟨nofun, ?_⟩
      exact
        List.forall_mem_cons.mpr
          ⟨(padded_keeps zeros low).2.2 hDigits.1,
            List.forall_mem_singleton.mpr
              ((padded_keeps zeros' high).2.2 hDigits.2)⟩

theorem bounds_withZeros :
    (form.withZeros zeros zeros').bounds = form.bounds := by
  cases form with
  | exactly digits =>
      simp only [withZeros, bounds,
        (padded_keeps zeros digits).2.1]
  | between low high =>
      simp only [withZeros, bounds, countOf?_padded,
        (padded_keeps zeros low).2.1]

theorem fits_withZeros_iff :
    (form.withZeros zeros zeros').Fits ↔ form.Fits := by
  cases form with
  | exactly digits =>
      simp only [withZeros, Fits, sides,
        List.forall_mem_singleton,
        (padded_keeps zeros digits).2.1]
  | between low high =>
      simp only [withZeros, Fits, sides,
        List.forall_mem_cons,
        (padded_keeps zeros low).2.1,
        (padded_keeps zeros' high).2.1]

end CountForm

end Grammar

end Abnf

------------------------------------------------------------
-- Words Of Numbers
------------------------------------------------------------

namespace Abnf

namespace Grammar

open Element

/- The rule for the numbers of a base. -/
structure Numeral where
  name : String
  /- The letters that may stand before the numbers. -/
  letters : String
  /- The rule for digits. -/
  digit : String
  base : Nat
deriving DecidableEq

/- The bases of character numbers. -/
def numerals : List Numeral :=
  [⟨"bin-val", "Bb", "BIT", 2⟩,
   ⟨"dec-val", "Dd", "DIGIT", 10⟩,
   ⟨"hex-val", "Xx", "HEXDIG", 16⟩]

theorem numeric_mem_rules :
    ∀ numeral ∈ numerals,
      (⟨numeral.name,
        numeric numeral.letters numeral.digit⟩ : Rule) ∈
          rules := by
  decide

/- Each word of the rule is a letter of the base. -/
theorem isChar_letter :
    ∀ numeral ∈ numerals,
      IsChar (chars numeral.letters)
        numeral.letters.toList.contains := by
  intro numeral hNumeral
  apply IsChar.terminal
  · revert numeral
    decide
  · revert numeral
    decide

theorem isChar_decimal :
    IsChar (ruleName "DIGIT") (isDigitOf 10) := by
  have hRule :
      (⟨"DIGIT", range '0' '9'⟩ : Rule) ∈ coreRules := by
    decide
  exact
    .core hRule (by decide)
      (.terminal (by decide) (by decide))

theorem isChar_digit :
    ∀ numeral ∈ numerals,
      IsChar (ruleName numeral.digit)
        (isDigitOf numeral.base) := by
  have hBit :
      (⟨"BIT", chars "01"⟩ : Rule) ∈ coreRules := by
    decide
  have hHex :
      (⟨"HEXDIG",
        alternation [ruleName "DIGIT", range 'A' 'F']⟩ :
          Rule) ∈ coreRules := by
    decide
  rw [numerals, List.forall_mem_cons, List.forall_mem_cons,
    List.forall_mem_singleton]
  refine
    ⟨.core hBit (by decide)
      (.terminal (by decide) (by decide)), isChar_decimal,
      .core hHex (by decide) (.alternation ?_)⟩
  rw [List.forall_mem_cons, List.forall_mem_singleton]
  refine
    ⟨isChar_decimal.mono ?_,
      .terminal (by decide) (by decide)⟩
  intro c hDigit
  rw [isDigitOf, Bool.and_eq_true, decide_eq_true_iff]
    at hDigit ⊢
  exact ⟨hDigit.1, Nat.lt_trans hDigit.2 (by decide)⟩

variable {base : Nat}
variable {digit : String}

theorem isValue_of_digits
    (hDigit : IsChar (ruleName digit) (isDigitOf base))
    {bytes : List UInt8}
    (h : scope.Generates (digits digit) bytes) :
    IsValue base (charsOf bytes) := by
  have hRow := hDigit.of_repetition h
  exact ⟨List.ne_nil_of_length_pos hRow.1, hRow.2⟩

/- A sign, and the digits of a value behind it. -/
theorem exists_value_of_sign
    (hDigit : IsChar (ruleName digit) (isDigitOf base))
    {sign : String}
    {c : Char}
    (hSign : IsChar (chars sign) (· == c))
    {bytes : List UInt8}
    (h :
      scope.Generates
        (concatenation [chars sign, digits digit]) bytes) :
    ∃ value,
      charsOf bytes = c :: value ∧ IsValue base value := by
  rcases h.series with ⟨first, rest, rfl, hFirst, hRest⟩
  rcases hSign first hFirst with ⟨d, hChar, hSame⟩
  rw [beq_iff_eq] at hSame
  refine ⟨charsOf rest, ?_, ?_⟩
  · rw [charsOf_append, hChar, hSame]
    rfl
  · exact isValue_of_digits hDigit hRest.series_last

/- Values behind dots. -/
theorem exists_values_of_dots
    (hDigit : IsChar (ruleName digit) (isDigitOf base))
    {bytes : List UInt8}
    (h :
      scope.Generates
        (atLeast 1
          (concatenation [chars ".", digits digit]))
        bytes) :
    ∃ values : List (List Char),
      charsOf bytes = values.flatMap ('.' :: ·) ∧
      ∀ value ∈ values, IsValue base value := by
  have hDot : IsChar (chars ".") (· == '.') :=
    .terminal (by decide) (by decide)
  cases h with
  | @repetition _ _ _ copies hMin hMax hCopies =>
      clear hMin hMax
      induction copies with
      | nil => exact ⟨[], rfl, List.forall_mem_nil _⟩
      | cons copy copies ih =>
          rw [List.forall_mem_cons] at hCopies
          rcases exists_value_of_sign hDigit hDot hCopies.1
            with ⟨value, hValue, hDigits⟩
          rcases ih hCopies.2 with ⟨values, hValues, hAll⟩
          refine
            ⟨value :: values, ?_,
              List.forall_mem_cons.mpr ⟨hDigits, hAll⟩⟩
          rw [List.flatten_cons, charsOf_append, hValue,
            hValues, List.flatMap_cons]

/- A word of a number rule is a letter before numbers. -/
theorem exists_numberForm_of_generates
    {numeral : Numeral}
    (hNumeral : numeral ∈ numerals)
    {text : String}
    (hWord :
      scope.Generates (ruleName numeral.name)
        (Text.bytes text).toList) :
    ∃ letter ∈ numeral.letters.toList, ∃ form : NumberForm,
      text.toList = letter :: form.text ∧
      form.IsWritten numeral.base := by
  have hRule := numeric_mem_rules numeral hNumeral
  have hDigit := isChar_digit numeral hNumeral
  have hDash : IsChar (chars "-") (· == '-') :=
    .terminal (by decide) (by decide)
  rw [toList_of_generates hWord]
  have hBody := generates_of_rule hRule hWord
  simp only at hBody
  rw [numeric] at hBody
  rcases hBody.series with
    ⟨first, rest, hBytes, hFirst, hBody⟩
  rcases hBody.series with
    ⟨value, more, rfl, hValue, hMore⟩
  rcases isChar_letter numeral hNumeral first hFirst with
    ⟨letter, hLetter, hIn⟩
  have hHere := isValue_of_digits hDigit hValue
  rw [hBytes, charsOf_append, charsOf_append, hLetter]
  refine ⟨letter, List.contains_iff_mem.mp hIn, ?_⟩
  rcases hMore.series_last.optional with rfl | hMore
  · refine ⟨.series (charsOf value) [], ?_, ?_⟩
    · rfl
    · exact List.forall_mem_singleton.mpr hHere
  · rcases hMore.exists_mem with ⟨part, hPart, hMore⟩
    rw [List.mem_cons, List.mem_singleton] at hPart
    rcases hPart with rfl | rfl
    · rcases exists_values_of_dots hDigit hMore with
        ⟨values, hValues, hAll⟩
      refine ⟨.series (charsOf value) values, ?_, ?_⟩
      · rw [hValues]
        rfl
      · exact List.forall_mem_cons.mpr ⟨hHere, hAll⟩
    · rcases exists_value_of_sign hDigit hDash hMore with
        ⟨last, hLast, hThere⟩
      refine ⟨.range (charsOf value) last, ?_, ?_⟩
      · rw [hLast]
        rfl
      · exact
          List.forall_mem_cons.mpr
            ⟨hHere, List.forall_mem_singleton.mpr hThere⟩

/- So is a text that a number rule matches. -/
theorem exists_numberForm
    {numeral : Numeral}
    (hNumeral : numeral ∈ numerals)
    {text : String}
    (h : Matches numeral.name text) :
    ∃ letter ∈ numeral.letters.toList, ∃ form : NumberForm,
      text.toList = letter :: form.text ∧
      form.IsWritten numeral.base :=
  exists_numberForm_of_generates hNumeral
    (generates_of_matches
      (numeric_mem_rules numeral hNumeral) h)

/- A text of the rule for counts is a count or two. -/
theorem exists_countForm
    {text : String}
    (h : Matches "repeat" text) :
    ∃ form : CountForm,
      text.toList = form.text ∧ form.IsWritten := by
  have hRule :
      (⟨"repeat",
        alternation
          [concatenation
             [any (ruleName "DIGIT"), chars "*",
              any (ruleName "DIGIT")],
           digits "DIGIT"]⟩ : Rule) ∈ rules := by
    decide
  have hStar : IsChar (chars "*") (· == '*') :=
    .terminal (by decide) (by decide)
  have hWord :=
    generates_of_matches hRule h
  rw [toList_of_generates hWord]
  rcases (generates_of_rule hRule hWord).exists_mem with
    ⟨part, hPart, hBody⟩
  rw [List.mem_cons, List.mem_singleton] at hPart
  rcases hPart with rfl | rfl
  · rcases hBody.series with
      ⟨low, rest, hBytes, hLow, hBody⟩
    rcases hBody.series with
      ⟨star, high, rfl, hMiddle, hHigh⟩
    rcases hStar star hMiddle with ⟨c, hChar, hIs⟩
    rw [beq_iff_eq] at hIs
    refine ⟨.between (charsOf low) (charsOf high), ?_, ?_⟩
    · rw [hBytes, charsOf_append, charsOf_append, hChar,
        hIs]
      rfl
    · refine ⟨nofun, ?_⟩
      rw [CountForm.sides, List.forall_mem_cons,
        List.forall_mem_singleton]
      exact
        ⟨(isChar_decimal.of_repetition hLow).2,
          (isChar_decimal.of_repetition
            hHigh.series_last).2⟩
  · have hValue := isValue_of_digits isChar_decimal hBody
    refine ⟨.exactly _, rfl, ?_, ?_⟩
    · intro digits hDigits
      cases hDigits
      exact hValue.1
    · exact List.forall_mem_singleton.mpr hValue.2

end Grammar

end Abnf

------------------------------------------------------------
-- What Numbers Are Read As
------------------------------------------------------------

namespace Abnf

namespace Grammar

/-
  Of every text of a number rule, what is read is what its
  values mean in the base; it is refused for the first cause
  from left to right, and for that alone. Of every text of
  the rule for counts, what is read are the bounds, however
  many zeros are in front; it is refused for the first count
  that does not fit, and for that alone.
-/
theorem reads_numbers :
    (∀ numeral ∈ numerals, ∀ text : String,
      Matches numeral.name text →
      ∃ letter ∈ numeral.letters.toList,
        ∃ form : NumberForm,
          text.toList = letter :: form.text ∧
          form.IsWritten numeral.base ∧
          (∀ element,
            readNumVal numeral.base text.toList =
                .ok element ↔
              form.cause? numeral.base text.toList = none ∧
                form.Means numeral.base element) ∧
          ∀ error,
            readNumVal numeral.base text.toList =
                .error error ↔
              form.cause? numeral.base text.toList =
                some error) ∧
    ∀ text : String,
      Matches "repeat" text →
      ∃ form : CountForm,
        text.toList = form.text ∧
        form.IsWritten ∧
        (∀ bounds,
          readRepeat text.toList = .ok bounds ↔
            form.Fits ∧ bounds = form.bounds) ∧
        (∀ error,
          readRepeat text.toList = .error error ↔
            ∃ digits,
              form.sides.find? (2 ^ 64 ≤ numberOf 10 ·) =
                some digits ∧
              error = invalidNumber digits) ∧
        ∀ zeros zeros' bounds,
          readRepeat (form.withZeros zeros zeros').text =
              .ok bounds ↔
            readRepeat text.toList = .ok bounds := by
  constructor
  · intro numeral hNumeral text hText
    rcases exists_numberForm hNumeral hText with
      ⟨letter, hLetter, form, hForm, hWritten⟩
    have hRead := readNumVal_eq hWritten letter
    rw [← hForm] at hRead
    refine
      ⟨letter, hLetter, form, hForm, hWritten, ?_, ?_⟩
    · intro element
      rw [hRead, settle_eq_ok_iff]
      refine and_congr_right ?_
      intro hNone
      have hMeans := form.means_element hNone
      constructor
      · rintro rfl
        exact hMeans
      · exact hMeans.unique
    · intro error
      rw [hRead, settle_eq_error_iff]
  · intro text hText
    rcases exists_countForm hText with
      ⟨form, hForm, hWritten⟩
    rw [hForm]
    refine
      ⟨form, rfl, hWritten, readRepeat_eq_ok_iff hWritten,
        readRepeat_eq_error_iff hWritten, ?_⟩
    intro zeros zeros' bounds
    rw [readRepeat_eq_ok_iff hWritten,
      readRepeat_eq_ok_iff
        (form.isWritten_withZeros zeros zeros' hWritten),
      CountForm.fits_withZeros_iff,
      CountForm.bounds_withZeros]

/-
  A series is refused for its second number, which is that
  of no character, although the third one is not ASCII; and
  zeros in front of a count do not count.
-/
theorem reads_numbers_secondOfThree :
    Matches "hex-val" "x41.D800.80" ∧
      Matches "repeat" "0002*" ∧
      (∃ form : NumberForm,
        form.IsWritten 16 ∧
        "x41.D800.80".toList = 'x' :: form.text ∧
        form.cause? 16 "x41.D800.80".toList =
          some (.invalidNumber "D800")) ∧
      ∃ form : CountForm,
        "0002*".toList = form.text ∧
        form.Fits ∧
        form.bounds = (2, none) := by
  have hNumber : Matches "hex-val" "x41.D800.80" :=
    matches_of_run (by decide +kernel)
  have hCount : Matches "repeat" "0002*" :=
    matches_of_run (by decide +kernel)
  refine ⟨hNumber, hCount, ?_, ?_⟩
  · rcases reads_numbers.1 ⟨"hex-val", "Xx", "HEXDIG", 16⟩
        (by decide) "x41.D800.80" hNumber with
      ⟨letter, _, form, hForm, hWritten, _, hError⟩
    have hLetter : letter = 'x' :=
      (List.cons.inj hForm).1.symm
    subst hLetter
    exact
      ⟨form, hWritten, hForm,
        (hError _).mp (by decide +kernel)⟩
  · rcases reads_numbers.2 "0002*" hCount with
      ⟨form, hForm, _, hBounds, _⟩
    have hRead :=
      (hBounds (2, none)).mp (by decide +kernel)
    exact ⟨form, hForm, hRead.1, hRead.2.symm⟩

end Grammar

end Abnf
