import Abnf.Proofs.Rust.Token
import Mathlib.Data.List.TakeWhile

/-
  How code is spelled.

  The lines of an expression or a statement are read as the
  tokens that are meant, whatever labels, identifiers and
  numbers stand in them.

  Key definitions include:
    * `Abnf.Rust.LineSpells`
    * `Abnf.Rust.Spells`
    * `Abnf.Source.Expr.tokens`
    * `Abnf.Source.Stmt.tokens`

  Main declarations:
    * `Abnf.Source.Expr.spells_lines`
    * `Abnf.Source.Stmt.spells_linesOfAll`
-/

------------------------------------------------------------
-- Lines
------------------------------------------------------------

namespace Abnf

namespace Rust

/-
  A line of code is read as some tokens. It does not end in
  a comment, so more could stand behind it.
-/
def LineSpells
    (line : String)
    (tokens : List Token) : Prop :=
  ∃ before last behind,
    scan .blank line.toList = some (before, last) ∧
    last ≠ .comment ∧
    last.finish = some behind ∧
    tokens = before ++ behind

/- Lines of code are read as some tokens. -/
inductive Spells : List String → List Token → Prop
  | nil : Spells [] []
  | cons
      {line : String} {lines : List String}
      {tokens others : List Token} :
      LineSpells line tokens →
      Spells lines others →
      Spells (line :: lines) (tokens ++ others)

variable {reading next last : Reading}
variable {tokens others : List Token}
variable {line : String}
variable {lines lines' : List String}

/- The tokens of a line of code. -/
def lineTokens?
    (line : String) : Option (List Token) := do
  let (before, last) ← scan .blank line.toList
  if last = .comment then
    none
  else
    return before ++ (← last.finish)

/- The tokens of some lines of code. -/
def codeTokens? : List String → Option (List Token)
  | [] => some []
  | line :: rest => do
      let tokens ← lineTokens? line
      return tokens ++ (← codeTokens? rest)

theorem LineSpells.ofLine
    (h : lineTokens? line = some tokens) :
    LineSpells line tokens := by
  unfold lineTokens? at h
  cases hScan : scan .blank line.toList with
  | none => simp [hScan] at h
  | some read =>
      rcases read with ⟨before, last⟩
      simp only [hScan, Option.bind_eq_bind,
        Option.bind_some] at h
      split at h
      · cases h
      · rename_i hOpen
        cases hLast : last.finish with
        | none => simp [hLast] at h
        | some behind =>
            simp only [hLast, Option.bind_some] at h
            cases h
            exact
              ⟨before, last, behind, hScan, hOpen, hLast,
                rfl⟩

/- Lines without anything unknown can be read at once. -/
theorem Spells.ofLines
    (h : codeTokens? lines = some tokens) :
    Spells lines tokens := by
  induction lines generalizing tokens with
  | nil =>
      cases h
      exact .nil
  | cons line lines ih =>
      rw [codeTokens?] at h
      cases hLine : lineTokens? line with
      | none => simp [hLine] at h
      | some first =>
          cases hRest : codeTokens? lines with
          | none => simp [hLine, hRest] at h
          | some rest =>
              simp only [hLine, hRest, Option.bind_eq_bind,
                Option.bind_some] at h
              cases h
              exact .cons (.ofLine hLine) (ih hRest)

/- What comes to its end is followed by what starts anew. -/
theorem scan_of_ends
    {c : Char}
    {cs : List Char}
    (hEnds : reading.extend c = none)
    (hFinish : reading.finish = some tokens)
    (h : scan .blank (c :: cs) = some (others, last)) :
    scan reading (c :: cs) = some (tokens ++ others, last) := by
  rw [scan] at h ⊢
  have hBlank :
      Reading.blank.step c =
        (Reading.start c).map (fun r => ([], r)) := by
    cases hStart : Reading.start c <;>
      simp [Reading.step, Reading.extend, Reading.finish,
        hStart]
  have hStep :
      reading.step c =
        (Reading.start c).map (fun r => (tokens, r)) := by
    cases hStart : Reading.start c <;>
      simp [Reading.step, hEnds, hFinish, hStart]
  rw [hBlank] at h
  rw [hStep]
  cases hStart : Reading.start c with
  | none => simp [hStart] at h
  | some start =>
      simp only [hStart, Option.map_some,
        Option.bind_eq_bind, Option.bind_some,
        List.nil_append] at h ⊢
      cases hRest : scan start cs with
      | none => simp [hRest] at h
      | some rest =>
          rw [hRest] at h
          simp only [Option.bind_some] at h ⊢
          cases h
          rfl

/- The characters with which nothing goes on. -/
def breaks : List Char :=
  [' ', '\n', ';', ',', '(', ')']

/- Whatever comes to an end does so before a break. -/
theorem extend_of_mem_breaks
    {c : Char}
    (hBreak : c ∈ breaks)
    (hFinish : reading.finish = some tokens)
    (hOpen : reading ≠ .comment) :
    reading.extend c = none := by
  have hBreaks :
      ∀ c ∈ breaks,
        isWordChar c = false ∧ c ≠ '\'' ∧ c ≠ '/' ∧
          ∀ pair ∈ pairs, pair.2 ≠ c := by
    simp [breaks, pairs, isWordChar]
  rcases hBreaks c hBreak with
    ⟨hWord, hQuote, hSlash, hPairs⟩
  cases reading with
  | sign first =>
      have hPair : (first, c) ∉ pairs :=
        fun hMem => hPairs _ hMem rfl
      simp [Reading.extend, hPair]
  | word text => simp [Reading.extend, hWord, hQuote]
  | number text => simp [Reading.extend, hWord]
  | label text => simp [Reading.extend, hWord]
  | slash => simp [Reading.extend, hSlash]
  | byte text => cases hFinish
  | comment => exact absurd rfl hOpen
  | blank => rfl
  | closed text => rfl
  | pair first second => rfl

theorem Spells.append
    (h : Spells lines tokens)
    (h' : Spells lines' others) :
    Spells (lines ++ lines') (tokens ++ others) := by
  induction h with
  | nil => exact h'
  | cons hLine _ ih =>
      rw [List.append_assoc]
      exact .cons hLine ih

theorem Spells.one
    (h : LineSpells line tokens) :
    Spells [line] tokens := by
  simpa using Spells.cons h .nil

/- Blanks before a line count for nothing. -/
theorem LineSpells.behind
    {before : String}
    (hBefore :
      scan .blank before.toList = some (others, .blank))
    (h : LineSpells line tokens) :
    LineSpells (before ++ line) (others ++ tokens) := by
  rcases h with ⟨early, last, late, hScan, hOpen, hLast, rfl⟩
  refine
    ⟨others ++ early, last, late, ?_, hOpen, hLast, ?_⟩
  · rw [String.toList_append]
    exact scan_append hBefore hScan
  · rw [List.append_assoc]

/- A line may stand behind an open parenthesis. -/
theorem LineSpells.inside
    {before : String}
    (hBefore :
      scan .blank before.toList = some (others, .sign '('))
    (h : LineSpells line tokens) :
    LineSpells (before ++ line)
      (others ++ .sign "(" :: tokens) := by
  rcases h with ⟨early, last, late, hScan, hOpen, hLast, rfl⟩
  cases hLine : line.toList with
  | nil =>
      rw [hLine, scan] at hScan
      cases hScan
      cases hLast
      refine
        ⟨others, .sign '(', [.sign "("], ?_,
          Reading.noConfusion, rfl, rfl⟩
      rw [String.toList_append, hLine, List.append_nil]
      exact hBefore
  | cons c cs =>
      have hNone : ∀ pair ∈ pairs, pair.1 ≠ '(' := by
        decide
      have hPair : ('(', c) ∉ pairs :=
        fun hMem => hNone _ hMem rfl
      have hEnds :
          (Reading.sign '(').extend c = none := by
        simp [Reading.extend, hPair]
      rw [hLine] at hScan
      refine
        ⟨others ++ ([.sign "("] ++ early), last, late, ?_,
          hOpen, hLast, by simp⟩
      rw [String.toList_append, hLine]
      exact
        scan_append hBefore (scan_of_ends hEnds rfl hScan)

/- What starts with a break may stand behind a line. -/
theorem LineSpells.followed
    {behind : String}
    {c : Char}
    {cs : List Char}
    (h : LineSpells line tokens)
    (hBehind : behind.toList = c :: cs)
    (hBreak : c ∈ breaks)
    (h' : LineSpells behind others) :
    LineSpells (line ++ behind) (tokens ++ others) := by
  rcases h with ⟨early, last, late, hScan, hOpen, hLast, rfl⟩
  rcases h' with
    ⟨early', last', late', hScan', hOpen', hLast', rfl⟩
  refine
    ⟨early ++ (late ++ early'), last', late', ?_, hOpen',
      hLast', by simp⟩
  rw [hBehind] at hScan'
  rw [String.toList_append, hBehind]
  exact
    scan_append hScan
      (scan_of_ends
        (extend_of_mem_breaks hBreak hLast hOpen) hLast
        hScan')

theorem LineSpells.semicolon
    (h : LineSpells line tokens) :
    LineSpells (line ++ ";") (tokens ++ [.sign ";"]) := by
  have hSign : LineSpells ";" [.sign ";"] := .ofLine rfl
  exact h.followed rfl (by decide) hSign

theorem Spells.indent
    (h : Spells lines tokens) :
    Spells (Source.indent lines) tokens := by
  induction h with
  | nil => exact .nil
  | cons hLine _ ih =>
      have hMargin :
          scan .blank Source.margin.toList =
            some ([], .blank) := rfl
      exact .cons (hLine.behind hMargin) ih

/- Something may stand before the first line. -/
theorem Spells.behind
    {before : String}
    (hBefore :
      scan .blank before.toList = some (others, .blank))
    (h : Spells (line :: lines) tokens) :
    Spells ((before ++ line) :: lines)
      (others ++ tokens) := by
  cases h with
  | cons hLine hRest =>
      rw [← List.append_assoc]
      exact .cons (hLine.behind hBefore) hRest

/- A semicolon may stand behind the last line. -/
theorem Spells.closeLines
    (h : Spells lines tokens)
    (hLines : lines ≠ []) :
    Spells (Source.closeLines ";" lines)
      (tokens ++ [.sign ";"]) := by
  induction h with
  | nil => exact absurd rfl hLines
  | @cons line lines tokens others hLine hRest ih =>
      cases hRest with
      | nil =>
          rw [List.append_nil]
          exact .one hLine.semicolon
      | cons hNext hLater =>
          rw [List.append_assoc]
          exact .cons hLine (ih (List.cons_ne_nil _ _))

/- Lines as the value of something that is to be set. -/
theorem Spells.wrapLines
    {before : String}
    (hBefore :
      scan .blank before.toList = some (others, .blank))
    (h : Spells lines tokens)
    (hLines : lines ≠ []) :
    Spells (Source.wrapLines before lines ";")
      (others ++ (tokens ++ [.sign ";"])) := by
  have hClosed := h.closeLines hLines
  rw [Source.wrapLines]
  cases hSplit : Source.closeLines ";" lines with
  | nil =>
      rw [hSplit] at hClosed
      cases lines with
      | nil => exact absurd rfl hLines
      | cons line rest =>
          cases rest <;> simp [Source.closeLines] at hSplit
  | cons line rest =>
      rw [hSplit] at hClosed
      exact hClosed.behind hBefore

/- Two conditions with two bars between them. -/
theorem LineSpells.or
    {line' : String}
    (h : LineSpells line tokens)
    (h' : LineSpells line' others) :
    LineSpells (line ++ (" || " ++ line'))
      (tokens ++ .sign "||" :: others) := by
  have hBars :
      scan .blank " || ".toList =
        some ([.sign "||"], .blank) := rfl
  have hText :
      (" || " ++ line').toList =
        ' ' :: ("|| ".toList ++ line'.toList) := by
    rw [String.toList_append]
    rfl
  exact h.followed hText (by decide) (h'.behind hBars)

end Rust

end Abnf

------------------------------------------------------------
-- Pieces Of Lines
------------------------------------------------------------

namespace Abnf

namespace Rust

variable {reading next last : Reading}
variable {tokens middle made others late : List Token}

/- Letters, digits and underscores go on. -/
theorem scan_wordChars
    {make : List Char → Reading}
    (hMake :
      ∀ text c, isWordChar c = true →
        (make text).extend c = some (make (text ++ [c])))
    (text : List Char)
    {cs : List Char}
    (hWord : ∀ c ∈ cs, isWordChar c = true) :
    scan (make text) cs = some ([], make (text ++ cs)) := by
  induction cs generalizing text with
  | nil => simp [scan]
  | cons c cs ih =>
      rw [List.forall_mem_cons] at hWord
      rw [scan, Reading.step, hMake text c hWord.1]
      simp only [Option.bind_eq_bind, Option.bind_some]
      rw [ih (text ++ [c]) hWord.2]
      simp

theorem scan_word
    (text : List Char)
    {cs : List Char}
    (hWord : ∀ c ∈ cs, isWordChar c = true) :
    scan (.word text) cs = some ([], .word (text ++ cs)) :=
  scan_wordChars
    (fun _ _ h => by rw [Reading.extend, if_pos h])
    text hWord

theorem isWordChar_of_isDigit
    {c : Char}
    (h : c.isDigit = true) :
    isWordChar c = true := by
  simp [isWordChar, Char.isAlphanum, h]

theorem isWordChar_of_mem_toString
    {n : Nat}
    {c : Char}
    (h : c ∈ (toString n).toList) :
    isWordChar c = true := by
  rw [Nat.toString_eq_ofList_toDigits,
    String.toList_ofList] at h
  exact
    isWordChar_of_isDigit
      (Nat.isDigit_of_mem_toDigits (by decide) (by decide) h)

/- A number is read up to its end. -/
theorem scan_toString
    (n : Nat) :
    scan .blank (toString n).toList =
      some ([], .number (toString n).toList) := by
  have hDigits :
      ∀ c ∈ (toString n).toList, c.isDigit = true := by
    intro c hMem
    rw [Nat.toString_eq_ofList_toDigits,
      String.toList_ofList] at hMem
    exact
      Nat.isDigit_of_mem_toDigits (by decide) (by decide)
        hMem
  have hSome : (toString n).toList ≠ [] := by
    rw [Nat.toString_eq_ofList_toDigits,
      String.toList_ofList]
    exact Nat.toDigits_ne_nil
  cases hText : (toString n).toList with
  | nil => exact absurd hText hSome
  | cons c cs =>
      rw [hText, List.forall_mem_cons] at hDigits
      have hBlank : c ≠ ' ' ∧ c ≠ '\n' :=
        ⟨fun h => by simp [h] at hDigits,
          fun h => by simp [h] at hDigits⟩
      have hStart :
          Reading.blank.step c =
            some ([], .number [c]) := by
        simp [Reading.step, Reading.extend, Reading.finish,
          Reading.start, hBlank, hDigits.1]
      rw [scan, hStart]
      simp only [Option.bind_eq_bind, Option.bind_some]
      have hRest :
          scan (.number [c]) cs =
            some ([], .number ([c] ++ cs)) :=
        scan_wordChars
          (fun _ _ h => by rw [Reading.extend, if_pos h])
          [c]
          (fun d hMem =>
            isWordChar_of_isDigit (hDigits.2 d hMem))
      rw [hRest]
      rfl

/- A number is read as what it is. -/
theorem readNumber_toString
    (n : Nat) :
    readNumber (toString n).toList =
      some (.number n "") := by
  have hDigits :
      ∀ c ∈ Nat.toDigits 10 n, c.isDigit = true :=
    fun c hMem =>
      Nat.isDigit_of_mem_toDigits (by decide) (by decide)
        hMem
  rw [Nat.toString_eq_ofList_toDigits, String.toList_ofList]
  have hTake :
      (Nat.toDigits 10 n).takeWhile Char.isDigit =
        Nat.toDigits 10 n :=
    List.takeWhile_eq_self_iff.mpr hDigits
  have hDrop :
      (Nat.toDigits 10 n).dropWhile Char.isDigit = [] :=
    List.dropWhile_eq_nil_iff.mpr hDigits
  unfold readNumber
  split
  · rename_i rest hText
    rw [hText] at hDigits
    have hX := hDigits 'x' (by simp)
    cases hX
  · simp only [hTake, hDrop, Nat.ofDigitChars_ten_toDigits]
    rfl

theorem spells_toString
    (n : Nat) :
    LineSpells (toString n) [.number n ""] := by
  refine
    ⟨[], _, [.number n ""], scan_toString n,
      Reading.noConfusion, ?_, rfl⟩
  rw [Reading.finish, readNumber_toString]
  rfl

/- The digits of a mask, as they are written. -/
def maskDigits
    (mask : BitVec 64) : List Char :=
  (Text.hexUpper 16 mask.toNat).toList

theorem hexValue?_digit :
    ∀ d < 16,
      Text.hexValue? (Nat.digitChar d).toUpper = some d := by
  decide

theorem isWordChar_digit :
    ∀ d < 16,
      isWordChar (Nat.digitChar d).toUpper = true := by
  decide

/- Digits in base sixteen are those of numbers below it. -/
theorem exists_of_mem_toDigits
    {n : Nat}
    {c : Char}
    (h : c ∈ Nat.toDigits 16 n) :
    ∃ d < 16, c = Nat.digitChar d := by
  induction n using Nat.strongRecOn with
  | _ n ih =>
      by_cases hSmall : n < 16
      · rw [Nat.toDigits_of_lt_base hSmall] at h
        exact ⟨n, hSmall, List.mem_singleton.mp h⟩
      · rw [Nat.toDigits_of_base_le (by decide)
          (by omega), List.mem_append] at h
        rcases h with hHigh | hLow
        · exact ih (n / 16) (by omega) hHigh
        · exact
            ⟨n % 16, Nat.mod_lt _ (by decide),
              List.mem_singleton.mp hLow⟩

/- The digits of a number in base sixteen are read as it. -/
theorem hexNumber?_toDigits
    (n : Nat) :
    Text.hexNumber? ((Nat.toDigits 16 n).map Char.toUpper) =
      some n := by
  induction n using Nat.strongRecOn with
  | _ n ih =>
      by_cases hSmall : n < 16
      · rw [Nat.toDigits_of_lt_base hSmall]
        simp [Text.hexNumber?, hexValue?_digit n hSmall]
      · have hLow := Nat.mod_lt n (show 0 < 16 by decide)
        have hHigh := ih (n / 16) (by omega)
        rw [Nat.toDigits_of_base_le (by decide) (by omega)]
        rw [Text.hexNumber?] at hHigh ⊢
        simp only [List.map_append, List.map_cons,
          List.map_nil, List.foldlM_append, hHigh,
          List.foldlM_cons, List.foldlM_nil,
          hexValue?_digit _ hLow]
        simp
        omega

theorem maskDigits_eq
    (mask : BitVec 64) :
    maskDigits mask =
      List.replicate
          (16 - ((Nat.toDigits 16 mask.toNat).map
            Char.toUpper).length) '0' ++
        (Nat.toDigits 16 mask.toNat).map Char.toUpper := by
  rw [maskDigits, Text.hexUpper, Text.padLeft,
    String.toList_ofList]

theorem exists_of_mem_maskDigits
    {mask : BitVec 64}
    {c : Char}
    (h : c ∈ maskDigits mask) :
    ∃ d < 16, c = (Nat.digitChar d).toUpper := by
  rw [maskDigits_eq, List.mem_append] at h
  rcases h with hZero | hDigit
  · exact
      ⟨0, by decide, List.eq_of_mem_replicate hZero⟩
  · rcases List.mem_map.mp hDigit with ⟨c, hMem, rfl⟩
    rcases exists_of_mem_toDigits hMem with ⟨d, hLess, rfl⟩
    exact ⟨d, hLess, rfl⟩

/- Zeros in front of digits do not matter. -/
theorem hexNumber?_maskDigits
    (mask : BitVec 64) :
    Text.hexNumber? (maskDigits mask) =
      some mask.toNat := by
  have hZeros :
      ∀ count : Nat,
        (List.replicate count '0').foldlM
            (fun n c =>
              (Text.hexValue? c).map (16 * n + ·)) 0 =
          some 0 := by
    intro count
    induction count with
    | zero => rfl
    | succ count ih =>
        rw [List.replicate_succ, List.foldlM_cons]
        exact ih
  have hDigits := hexNumber?_toDigits mask.toNat
  rw [Text.hexNumber?] at hDigits ⊢
  rw [maskDigits_eq, List.foldlM_append, hZeros]
  exact hDigits

theorem toList_maskLiteral
    (mask : BitVec 64) :
    (Source.maskLiteral mask).toList =
      '0' :: 'x' :: maskDigits mask := by
  rw [Source.maskLiteral, String.toList_append]
  rfl

/- A mask is read up to its end. -/
theorem scan_maskLiteral
    (mask : BitVec 64) :
    scan .blank (Source.maskLiteral mask).toList =
      some ([], .number ('0' :: 'x' :: maskDigits mask)) := by
  have hDigits :
      ∀ c ∈ maskDigits mask, isWordChar c = true := by
    intro c hMem
    rcases exists_of_mem_maskDigits hMem with
      ⟨d, hLess, rfl⟩
    exact isWordChar_digit d hLess
  have hHead :
      scan .blank ['0', 'x'] =
        some ([], .number ['0', 'x']) := rfl
  have hTail :
      scan (.number ['0', 'x']) (maskDigits mask) =
        some ([], .number (['0', 'x'] ++ maskDigits mask)) :=
    scan_wordChars
      (fun _ _ h => by rw [Reading.extend, if_pos h])
      _ hDigits
  rw [toList_maskLiteral]
  exact scan_append hHead hTail

/- A mask is read as the number it is. -/
theorem readNumber_maskLiteral
    (mask : BitVec 64) :
    readNumber ('0' :: 'x' :: maskDigits mask) =
      some (.number mask.toNat "") := by
  have hDigits :
      ∀ c ∈ maskDigits mask,
        (Text.hexValue? c).isSome = true := by
    intro c hMem
    rcases exists_of_mem_maskDigits hMem with
      ⟨d, hLess, rfl⟩
    rw [hexValue?_digit d hLess]
    rfl
  have hTake :
      (maskDigits mask).takeWhile
          (fun c => (Text.hexValue? c).isSome) =
        maskDigits mask :=
    List.takeWhile_eq_self_iff.mpr hDigits
  have hDrop :
      (maskDigits mask).dropWhile
          (fun c => (Text.hexValue? c).isSome) = [] :=
    List.dropWhile_eq_nil_iff.mpr hDigits
  have hSome : (maskDigits mask).isEmpty = false := by
    rw [List.isEmpty_eq_false_iff, maskDigits_eq]
    apply List.append_ne_nil_of_right_ne_nil
    rw [ne_eq, List.map_eq_nil_iff]
    exact Nat.toDigits_ne_nil
  rw [readNumber]
  simp only [hTake, hDrop, hSome, hexNumber?_maskDigits]
  rfl

theorem spells_maskLiteral
    (mask : BitVec 64) :
    LineSpells (Source.maskLiteral mask)
      [.number mask.toNat ""] := by
  refine
    ⟨[], _, [.number mask.toNat ""], scan_maskLiteral mask,
      Reading.noConfusion, ?_, rfl⟩
  rw [Reading.finish, readNumber_maskLiteral]
  rfl

end Rust

end Abnf

------------------------------------------------------------
-- Labels And Bytes
------------------------------------------------------------

namespace Abnf

namespace Source

open Rust

/- The name of a label, behind its quote. -/
def Label.name
    (label : Label) : String :=
  label.kind.toString ++ toString label.number

theorem Label.toList_name
    (label : Label) :
    label.name.toList =
      label.kind :: (toString label.number).toList := by
  rw [Label.name, String.toList_append, Char.toString,
    String.toList_singleton]
  rfl

/- A label is read up to its end. -/
theorem Label.scan_text
    {label : Label}
    (hKind : isWordChar label.kind = true) :
    scan .blank label.text.toList =
      some ([], .label label.name.toList) := by
  have hQuote :
      scan .blank ['\''] = some ([], .label []) := rfl
  have hName :
      scan (.label []) label.name.toList =
        some ([], .label ([] ++ label.name.toList)) := by
    apply scan_wordChars
    · intro _ _ h
      rw [Reading.extend, if_pos h]
    · intro c hMem
      rw [Label.toList_name] at hMem
      rcases List.mem_cons.mp hMem with rfl | hDigit
      · exact hKind
      · exact isWordChar_of_mem_toString hDigit
  have hText :
      label.text.toList = '\'' :: label.name.toList := by
    rw [Label.text, Label.name, String.append_assoc,
      String.toList_append]
    rfl
  rw [hText]
  exact scan_append hQuote hName

theorem Label.finish_name
    (label : Label) :
    (Reading.label label.name.toList).finish =
      some [.label label.name] := by
  rw [Reading.finish, String.ofList_toList,
    Label.toList_name]
  rfl

theorem Label.spells_text
    {label : Label}
    (hKind : isWordChar label.kind = true) :
    LineSpells label.text [.label label.name] :=
  ⟨[], _, [.label label.name], Label.scan_text hKind,
    Reading.noConfusion, label.finish_name, rfl⟩

/- Whatever is no quote and no line end goes on in a byte. -/
theorem scan_byte
    (before : List Char)
    {text : List Char}
    (hText : ∀ c ∈ text, c ≠ '\'' ∧ c ≠ '\n') :
    scan (.byte before) text =
      some ([], .byte (before ++ text)) := by
  induction text generalizing before with
  | nil => simp [scan]
  | cons c text ih =>
      rw [List.forall_mem_cons] at hText
      rw [scan]
      simp only [Reading.step, Reading.extend, hText.1,
        if_false, false_and, Option.bind_eq_bind,
        Option.bind_some]
      rw [ih (before ++ [c]) hText.2]
      simp

/- What stands between the quotes of a byte, and its byte. -/
theorem readByte_escapedByte_of_lt :
    ∀ n < 256,
      ((escapedByte (UInt8.ofNat n)).toList = ['\\', '\''] ∨
        (escapedByte (UInt8.ofNat n)).toList.all
            (fun c => c ≠ '\'' && c ≠ '\n') = true ∧
          (escapedByte (UInt8.ofNat n)).toList ≠ ['\\']) ∧
      readByte (escapedByte (UInt8.ofNat n)).toList =
        some (UInt8.ofNat n) := by
  decide +kernel

/- A byte is read up to its end, as the byte it is. -/
theorem scan_byteLiteral
    (b : UInt8) :
    scan .blank (byteLiteral b).toList =
        some ([], .closed (escapedByte b).toList) ∧
      readByte (escapedByte b).toList = some b := by
  have hByte := readByte_escapedByte_of_lt b.toNat b.toNat_lt
  rw [UInt8.ofNat_toNat] at hByte
  refine ⟨?_, hByte.2⟩
  have hText :
      (byteLiteral b).toList =
        ['b', '\''] ++ (escapedByte b).toList ++ ['\''] := by
    rw [byteLiteral, String.toList_append,
      String.toList_append]
    rfl
  have hOpen :
      scan .blank ['b', '\''] = some ([], .byte []) := rfl
  rw [hText]
  rcases hByte.1 with hQuote | ⟨hAll, hSlash⟩
  · rw [hQuote]
    rfl
  · have hInside :
        scan (.byte []) (escapedByte b).toList =
          some ([], .byte ([] ++ (escapedByte b).toList)) :=
      scan_byte [] (by simpa using hAll)
    have hClose :
        scan (.byte (escapedByte b).toList) ['\''] =
          some ([], .closed (escapedByte b).toList) := by
      simp [scan, Reading.step, Reading.extend, hSlash]
    exact scan_append (scan_append hOpen hInside) hClose

theorem spells_byteLiteral
    (b : UInt8) :
    LineSpells (byteLiteral b) [.byte b] := by
  refine
    ⟨[], _, [.byte b], (scan_byteLiteral b).1,
      Reading.noConfusion, ?_, rfl⟩
  rw [Reading.finish, (scan_byteLiteral b).2]
  rfl

end Source

end Abnf

------------------------------------------------------------
-- Conditions
------------------------------------------------------------

namespace Abnf

namespace Source

open Rust

/- The tokens that hold `c` against a byte. -/
def equalsTokens
    (b : UInt8) : List Token :=
  [.word "c", .sign "==", .byte b]

/- The tokens that look `c` up in the low mask. -/
def lowTokens
    (low : BitVec 64) : List Token :=
  [.sign "(", .word "c", .sign "<", .number 64 "",
   .sign "&&", .sign "(", .number 1 "u64", .sign "<<",
   .word "c", .sign ")", .sign "&",
   .number low.toNat "", .sign "!=", .number 0 "",
   .sign ")"]

/- The tokens that look `c` up in the high mask. -/
def highTokens
    (high : BitVec 64) : List Token :=
  [.sign "(", .word "c", .sign ">=", .number 64 "",
   .sign "&&", .word "c", .sign "<", .number 128 "",
   .sign "&&", .sign "(", .number 1 "u64", .sign "<<",
   .sign "(", .word "c", .sign "-", .number 64 "",
   .sign ")", .sign ")", .sign "&",
   .number high.toNat "", .sign "!=", .number 0 "",
   .sign ")"]

/- The tokens of a condition on `c`. -/
def conditionTokens : ByteTest → List Token
  | .never => [.word "false"]
  | .eq b => equalsTokens b
  | .oneOf bs =>
      [.sign "||"].intercalate (bs.map equalsTokens)
  | .mask low high =>
      if low = 0 then
        if high = 0 then [.word "false"]
        else highTokens high
      else
        if high = 0 then lowTokens low
        else
          lowTokens low ++ .sign "||" :: highTokens high

theorem spells_equalsCondition
    (b : UInt8) :
    LineSpells (equalsCondition b) (equalsTokens b) := by
  have hHead :
      scan .blank "c == ".toList =
        some ([.word "c", .sign "=="], .blank) := rfl
  exact (spells_byteLiteral b).behind hHead

/- Conditions with two bars between them. -/
theorem spells_intercalate
    {α : Type}
    {write : α → String}
    {tokens : α → List Token}
    (hWrite : ∀ a, LineSpells (write a) (tokens a))
    {as : List α}
    (hSome : as ≠ []) :
    LineSpells (" || ".intercalate (as.map write))
      ([.sign "||"].intercalate (as.map tokens)) := by
  induction as with
  | nil => exact absurd rfl hSome
  | cons a as ih =>
      cases as with
      | nil =>
          simpa [String.intercalate_singleton] using hWrite a
      | cons a' as =>
          have hJoin :=
            (hWrite a).or (ih (List.cons_ne_nil _ _))
          rw [List.map_cons,
            String.intercalate_cons_of_ne_nil (by simp),
            String.append_assoc]
          simpa [List.intercalate_cons_cons] using hJoin

/- A mask is looked up in the low half. -/
theorem spells_lowTest
    (low : BitVec 64) :
    LineSpells
      ("(c < 64 && (1u64 << c) & " ++ maskLiteral low ++
        " != 0)")
      (lowTokens low) := by
  have hBefore :
      scan .blank "(c < 64 && (1u64 << c) & ".toList =
        some
          ([.sign "(", .word "c", .sign "<", .number 64 "",
            .sign "&&", .sign "(", .number 1 "u64",
            .sign "<<", .word "c", .sign ")", .sign "&"],
           .blank) := rfl
  have hBehind :
      LineSpells " != 0)"
        [.sign "!=", .number 0 "", .sign ")"] :=
    .ofLine rfl
  exact
    ((spells_maskLiteral low).behind hBefore).followed rfl
      (by decide) hBehind

/- A mask is looked up in the high half. -/
theorem spells_highTest
    (high : BitVec 64) :
    LineSpells
      ("(c >= 64 && c < 128 && (1u64 << (c - 64)) & " ++
        maskLiteral high ++ " != 0)")
      (highTokens high) := by
  have hBefore :
      scan .blank
          "(c >= 64 && c < 128 && (1u64 << (c - 64)) & ".toList =
        some
          ([.sign "(", .word "c", .sign ">=",
            .number 64 "", .sign "&&", .word "c",
            .sign "<", .number 128 "", .sign "&&",
            .sign "(", .number 1 "u64", .sign "<<",
            .sign "(", .word "c", .sign "-",
            .number 64 "", .sign ")", .sign ")",
            .sign "&"],
           .blank) := rfl
  have hBehind :
      LineSpells " != 0)"
        [.sign "!=", .number 0 "", .sign ")"] :=
    .ofLine rfl
  exact
    ((spells_maskLiteral high).behind hBefore).followed rfl
      (by decide) hBehind

theorem spells_false :
    LineSpells "false" [.word "false"] :=
  .ofLine rfl

/- A condition on `c`, if it lists bytes at all. -/
theorem spells_condition
    {test : ByteTest}
    (hTest : test ≠ .oneOf []) :
    LineSpells (condition test) (conditionTokens test) := by
  cases test with
  | never => exact spells_false
  | eq b => exact spells_equalsCondition b
  | oneOf bs =>
      apply spells_intercalate spells_equalsCondition
      rintro rfl
      exact hTest rfl
  | mask low high =>
      rw [condition, maskCondition, conditionTokens]
      by_cases hLow : low = 0
      · by_cases hHigh : high = 0
        · simp only [hLow, hHigh, if_true]
          exact spells_false
        · simp only [hLow, hHigh, if_true, if_false]
          simpa [String.intercalate_singleton] using
            spells_highTest high
      · by_cases hHigh : high = 0
        · simp only [hLow, hHigh, if_true, if_false]
          simpa [String.intercalate_singleton] using
            spells_lowTest low
        · have hBoth :=
            (spells_lowTest low).or (spells_highTest high)
          simp only [hLow, hHigh, if_false]
          rw [← String.append_assoc] at hBoth
          simpa [String.intercalate_cons_of_ne_nil,
            String.intercalate_singleton] using hBoth

end Source

end Abnf

------------------------------------------------------------
-- Code
------------------------------------------------------------

namespace Abnf

namespace Source

open Rust

/- The tokens of what a call hands on. -/
def Passing.tokens : Passing → List Token
  | nothing => []
  | listener => [.sign ",", .word "listener"]
  | deaf =>
      [.sign ",", .sign "&", .word "mut", .sign "(",
       .sign ")"]

/- The tokens that take a copy in a loop. -/
def copyTokens
    (label : Label)
    (min : Nat)
    (counted : Bool) : List Token :=
  ([.word "match", .word "next", .sign "\x7b",
    .word "Some", .sign "(", .word "next", .sign ")",
    .word "if", .word "next", .sign "==", .word "index",
    .sign "=>", .sign "\x7b"] : List Token) ++
  (if 0 < min then
    [.word "count", .sign "=", .word "count", .sign ".",
     .word "max", .sign "(", .number min "", .sign ")",
     .sign ";"]
   else []) ++
  ([.word "break", .label label.name, .sign ";",
    .sign "\x7d",
    .word "Some", .sign "(", .word "next", .sign ")",
    .sign "=>", .sign "\x7b"] : List Token) ++
  (if counted then
    [.word "count", .sign "+=", .number 1 "", .sign ";"]
   else []) ++
  ([.word "index", .sign "=", .word "next", .sign ";",
    .sign "\x7d",
    .word "None", .sign "=>", .word "break",
    .label label.name, .sign ",",
    .sign "\x7d"] : List Token)

/- The tokens of the head of a loop. -/
def headTokens
    (label : Label) :
    Option Nat → List Token
  | some limit =>
      [.label label.name, .sign ":", .word "while",
       .word "count", .sign "<", .number limit "",
       .sign "\x7b"]
  | none =>
      [.label label.name, .sign ":", .word "loop",
       .sign "\x7b"]

mutual

/- The tokens of an expression. -/
def Expr.tokens : Expr → List Token
  | .found =>
      [.word "Some", .sign "(", .word "index", .sign ")"]
  | .missing => [.word "None"]
  | .byte test =>
      [.word "match", .word "input", .sign ".",
       .word "get", .sign "(", .word "index", .sign ")",
       .sign "\x7b",
       .word "Some", .sign "(", .sign "&", .word "c",
       .sign ")", .word "if"] ++
      conditionTokens test ++
      [.sign "=>", .word "Some", .sign "(",
       .word "index", .sign "+", .number 1 "",
       .sign ")", .sign ",",
       .word "_", .sign "=>", .word "None", .sign ",",
       .sign "\x7d"]
  | .call identifier passing =>
      [.word "Self", .sign "::",
       .word ("parse_" ++ identifier), .sign "(",
       .word "input", .sign ",", .word "index"] ++
      passing.tokens ++ [.sign ")"]
  | .block label body value =>
      [.label label.name, .sign ":", .sign "\x7b"] ++
      Stmt.tokensOfAll body ++ Expr.tokens value ++
      [.sign "\x7d"]

/- The tokens of a statement. -/
def Stmt.tokens : Stmt → List Token
  | .letIndex =>
      [.word "let", .word "mut", .word "index",
       .sign "=", .word "index", .sign ";"]
  | .letCount =>
      [.word "let", .word "mut", .word "count",
       .sign ":", .word "usize", .sign "=",
       .number 0 "", .sign ";"]
  | .letNext value =>
      [.word "let", .word "next", .sign "="] ++
      (Expr.tokens value ++ [.sign ";"])
  | .advance label =>
      [.word "match", .word "next", .sign "\x7b",
       .word "Some", .sign "(", .word "next", .sign ")",
       .sign "=>", .word "index", .sign "=",
       .word "next", .sign ",",
       .word "None", .sign "=>", .word "break",
       .label label.name, .word "None", .sign ",",
       .sign "\x7d"]
  | .leaveMatched label =>
      [.word "if", .word "next", .sign ".",
       .word "is_some", .sign "(", .sign ")", .sign "\x7b",
       .word "break", .label label.name, .word "next",
       .sign ";", .sign "\x7d"]
  | .loop label limit body =>
      headTokens label limit ++ Stmt.tokensOfAll body ++
      [.sign "\x7d"]
  | .takeCopy label min counted =>
      copyTokens label min counted
  | .demand min label =>
      [.word "if", .word "count", .sign "<",
       .number min "", .sign "\x7b",
       .word "break", .label label.name, .word "None",
       .sign ";", .sign "\x7d"]

/- The tokens of some statements. -/
def Stmt.tokensOfAll : List Stmt → List Token
  | [] => []
  | stmt :: rest =>
      Stmt.tokens stmt ++ Stmt.tokensOfAll rest

end

mutual

/-
  Nothing in the code stands in the way of reading it:
  labels and identifiers are words, and lists of bytes have
  some.
-/
def Expr.Plain : Expr → Prop
  | .byte test => test ≠ .oneOf []
  | .call identifier _ =>
      ∀ c ∈ identifier.toList, isWordChar c = true
  | .block label body value =>
      isWordChar label.kind = true ∧
        Stmt.AllPlain body ∧ Expr.Plain value
  | _ => True

/- The same for a statement. -/
def Stmt.Plain : Stmt → Prop
  | .letNext value => Expr.Plain value
  | .advance label => isWordChar label.kind = true
  | .leaveMatched label => isWordChar label.kind = true
  | .loop label _ body =>
      isWordChar label.kind = true ∧ Stmt.AllPlain body
  | .takeCopy label _ _ => isWordChar label.kind = true
  | .demand _ label => isWordChar label.kind = true
  | _ => True

/- The same for some statements. -/
def Stmt.AllPlain : List Stmt → Prop
  | [] => True
  | stmt :: rest => Stmt.Plain stmt ∧ Stmt.AllPlain rest

end

theorem Expr.lines_ne_nil
    (expr : Expr) :
    expr.lines ≠ [] := by
  cases expr <;> simp [Expr.lines]

/- The head of something with a label. -/
theorem Label.spells_head
    {label : Label}
    (hKind : isWordChar label.kind = true)
    {behind : String}
    {cs : List Char}
    {tokens : List Token}
    (hBehind : behind.toList = ':' :: cs)
    (h : LineSpells behind tokens) :
    LineSpells (label.text ++ behind)
      (.label label.name :: tokens) := by
  rcases h with ⟨early, last, late, hScan, hOpen, hLast, rfl⟩
  rw [hBehind] at hScan
  have hEnds :
      (Reading.label label.name.toList).extend ':' = none :=
    rfl
  refine
    ⟨[] ++ ([.label label.name] ++ early), last, late, ?_,
      hOpen, hLast, by simp⟩
  rw [String.toList_append, hBehind]
  exact
    scan_append (Label.scan_text hKind)
      (scan_of_ends hEnds label.finish_name hScan)

theorem spells_loopHead
    {label : Label}
    (hKind : isWordChar label.kind = true)
    (limit : Option Nat) :
    LineSpells (loopHead label limit)
      (headTokens label limit) := by
  cases limit with
  | none =>
      have hLoop :
          LineSpells ": loop \x7b"
            [.sign ":", .word "loop", .sign "\x7b"] :=
        .ofLine rfl
      exact Label.spells_head hKind rfl hLoop
  | some limit =>
      have hWhile :
          scan .blank ": while count < ".toList =
            some
              ([.sign ":", .word "while", .word "count",
                .sign "<"], .blank) := rfl
      have hOpen :
          LineSpells " \x7b" [.sign "\x7b"] :=
        .ofLine rfl
      have hBehind :=
        ((spells_toString limit).behind hWhile).followed
          rfl (by decide) hOpen
      have hText :
          (": while count < " ++ toString limit ++
              " \x7b").toList =
            ':' :: (" while count < ".toList ++
              (toString limit).toList ++ " \x7b".toList) := by
        rw [String.toList_append, String.toList_append]
        rfl
      have hHead := Label.spells_head hKind hText hBehind
      rw [← String.append_assoc, ← String.append_assoc]
        at hHead
      exact hHead

/- A line with a label and something behind it. -/
theorem spells_leave
    {label : Label}
    (hKind : isWordChar label.kind = true)
    {before behind : String}
    {c : Char}
    {cs : List Char}
    {tokens others : List Token}
    (hBefore :
      scan .blank before.toList = some (tokens, .blank))
    (hBehind : behind.toList = c :: cs)
    (hBreak : c ∈ breaks)
    (h : lineTokens? behind = some others) :
    LineSpells (before ++ label.text ++ behind)
      (tokens ++ [.label label.name] ++ others) :=
  ((Label.spells_text hKind).behind hBefore).followed
    hBehind hBreak (.ofLine h)

/- The lines that take a copy in a loop. -/
theorem spells_copyLines
    {label : Label}
    (hKind : isWordChar label.kind = true)
    (min : Nat)
    (counted : Bool) :
    Spells (copyLines label min counted)
      (copyTokens label min counted) := by
  have hHead :
      Spells
        ["match next \x7b",
         "    Some(next) if next == index => \x7b"]
        [.word "match", .word "next", .sign "\x7b",
         .word "Some", .sign "(", .word "next", .sign ")",
         .word "if", .word "next", .sign "==",
         .word "index", .sign "=>", .sign "\x7b"] :=
    .ofLines rfl
  have hDue :
      Spells
        (if 0 < min then
          ["        count = count.max(" ++ toString min ++
            ");"]
        else [])
        (if 0 < min then
          [.word "count", .sign "=", .word "count",
           .sign ".", .word "max", .sign "(",
           .number min "", .sign ")", .sign ";"]
        else []) := by
    split
    · have hBefore :
          scan .blank "        count = count.max(".toList =
            some
              ([.word "count", .sign "=", .word "count",
                .sign ".", .word "max"], .sign '(') := rfl
      have hBehind :
          LineSpells ");" [.sign ")", .sign ";"] :=
        .ofLine rfl
      exact
        .one
          (((spells_toString min).inside hBefore).followed
            rfl (by decide) hBehind)
    · exact .nil
  have hBreak :
      LineSpells ("        break " ++ label.text ++ ";")
        [.word "break", .label label.name, .sign ";"] :=
    @spells_leave _ hKind _ ";" _ _ [.word "break"]
      [.sign ";"] rfl rfl (by decide) rfl
  have hStay :
      Spells ["    \x7d", "    Some(next) => \x7b"]
        [.sign "\x7d", .word "Some", .sign "(", .word "next",
         .sign ")", .sign "=>", .sign "\x7b"] :=
    .ofLines rfl
  have hCount :
      Spells
        (if counted then ["        count += 1;"] else [])
        (if counted then
          [.word "count", .sign "+=", .number 1 "",
           .sign ";"]
        else []) := by
    split
    · exact .ofLines rfl
    · exact .nil
  have hMove :
      Spells ["        index = next;", "    \x7d"]
        [.word "index", .sign "=", .word "next", .sign ";",
         .sign "\x7d"] :=
    .ofLines rfl
  have hNone :
      LineSpells ("    None => break " ++ label.text ++ ",")
        [.word "None", .sign "=>", .word "break",
         .label label.name, .sign ","] :=
    @spells_leave _ hKind _ "," _ _
      [.word "None", .sign "=>", .word "break"]
      [.sign ","] rfl rfl (by decide) rfl
  have hClose : Spells ["\x7d"] [.sign "\x7d"] := .ofLines rfl
  exact
    (((hHead.append hDue).append (.cons hBreak hStay)).append
      hCount).append
        (hMove.append (.cons hNone hClose))

/- A line with a number and an open brace behind it. -/
theorem spells_limit
    (n : Nat)
    {before : String}
    {tokens : List Token}
    (hBefore :
      scan .blank before.toList = some (tokens, .blank)) :
    LineSpells (before ++ toString n ++ " \x7b")
      (tokens ++ [.number n ""] ++ [.sign "\x7b"]) :=
  ((spells_toString n).behind hBefore).followed rfl
    (by decide) (.ofLine rfl)

/- A word goes on with an identifier. -/
theorem spells_named
    {identifier : String}
    (hWord : ∀ c ∈ identifier.toList, isWordChar c = true)
    (start : String)
    {before : String}
    {tokens : List Token}
    (hBefore :
      scan .blank before.toList =
        some (tokens, .word start.toList)) :
    LineSpells (before ++ identifier)
      (tokens ++ [.word (start ++ identifier)]) := by
  refine
    ⟨tokens, .word (start.toList ++ identifier.toList),
      [.word (start ++ identifier)], ?_,
      Reading.noConfusion, ?_, rfl⟩
  · rw [String.toList_append, ← List.append_nil tokens]
    exact scan_append hBefore (scan_word _ hWord)
  · rw [Reading.finish, ← String.toList_append,
      String.ofList_toList]

theorem spells_callText
    {identifier : String}
    (hWord : ∀ c ∈ identifier.toList, isWordChar c = true)
    (passing : Passing) :
    LineSpells (callText identifier passing)
      (Expr.call identifier passing).tokens := by
  have hSelf :
      scan .blank "Self::parse_".toList =
        some ([.word "Self", .sign "::"],
          .word "parse_".toList) := rfl
  have hName := spells_named hWord "parse_" hSelf
  cases passing with
  | nothing =>
      have hText :
          callText identifier .nothing =
            "Self::parse_" ++ identifier ++
              "(input, index)" := by
        change
          "Self::parse_" ++ identifier ++
              "(input, index" ++ "" ++ ")" = _
        simp only [String.append_assoc]
        rfl
      have hRest :
          LineSpells "(input, index)"
            [.sign "(", .word "input", .sign ",",
             .word "index", .sign ")"] := .ofLine rfl
      rw [hText]
      exact hName.followed rfl (by decide) hRest
  | listener =>
      have hText :
          callText identifier .listener =
            "Self::parse_" ++ identifier ++
              "(input, index, listener)" := by
        change
          "Self::parse_" ++ identifier ++
              "(input, index" ++ ", listener" ++ ")" = _
        simp only [String.append_assoc]
        rfl
      have hRest :
          LineSpells "(input, index, listener)"
            [.sign "(", .word "input", .sign ",",
             .word "index", .sign ",", .word "listener",
             .sign ")"] := .ofLine rfl
      rw [hText]
      exact hName.followed rfl (by decide) hRest
  | deaf =>
      have hText :
          callText identifier .deaf =
            "Self::parse_" ++ identifier ++
              "(input, index, &mut ())" := by
        change
          "Self::parse_" ++ identifier ++
              "(input, index" ++ ", &mut ()" ++ ")" = _
        simp only [String.append_assoc]
        rfl
      have hRest :
          LineSpells "(input, index, &mut ())"
            [.sign "(", .word "input", .sign ",",
             .word "index", .sign ",", .sign "&",
             .word "mut", .sign "(", .sign ")",
             .sign ")"] := .ofLine rfl
      rw [hText]
      exact hName.followed rfl (by decide) hRest

mutual

/- The lines of plain code are read as its tokens. -/
theorem Expr.spells_lines :
    ∀ expr : Expr, expr.Plain →
      Spells expr.lines expr.tokens
  | .found, _ => .ofLines rfl
  | .missing, _ => .ofLines rfl
  | .byte test, hPlain => by
      rw [Expr.Plain] at hPlain
      rw [Expr.lines, Expr.tokens]
      have hHead :
          LineSpells "match input.get(index) \x7b"
            [.word "match", .word "input", .sign ".",
             .word "get", .sign "(", .word "index",
             .sign ")", .sign "\x7b"] := .ofLine rfl
      have hBefore :
          scan .blank "    Some(&c) if ".toList =
            some
              ([.word "Some", .sign "(", .sign "&",
                .word "c", .sign ")", .word "if"],
               .blank) := rfl
      have hBehind :
          LineSpells " => Some(index + 1),"
            [.sign "=>", .word "Some", .sign "(",
             .word "index", .sign "+", .number 1 "",
             .sign ")", .sign ","] := .ofLine rfl
      have hTest :=
        ((spells_condition hPlain).behind hBefore).followed
          rfl (by decide) hBehind
      have hTail :
          Spells ["    _ => None,", "\x7d"]
            [.word "_", .sign "=>", .word "None",
             .sign ",", .sign "\x7d"] := .ofLines rfl
      have hLines := Spells.cons hHead (.cons hTest hTail)
      simpa using hLines
  | .call identifier passing, hPlain => by
      rw [Expr.Plain] at hPlain
      rw [Expr.lines]
      exact .one (spells_callText hPlain passing)
  | .block label body value, hPlain => by
      rw [Expr.Plain] at hPlain
      rw [Expr.lines, Expr.tokens]
      have hOpen :
          LineSpells ": \x7b" [.sign ":", .sign "\x7b"] :=
        .ofLine rfl
      have hHead :
          Spells [label.text ++ ": \x7b"]
            [.label label.name, .sign ":", .sign "\x7b"] :=
        .one (Label.spells_head hPlain.1 rfl hOpen)
      have hBody :=
        Stmt.spells_linesOfAll body hPlain.2.1
      have hValue := Expr.spells_lines value hPlain.2.2
      have hClose : Spells ["\x7d"] [.sign "\x7d"] :=
        .ofLines rfl
      exact
        ((hHead.append hBody.indent).append
          hValue.indent).append hClose

/- The lines of a plain statement are read as its tokens. -/
theorem Stmt.spells_lines :
    ∀ stmt : Stmt, stmt.Plain →
      Spells stmt.lines stmt.tokens
  | .letIndex, _ => .ofLines rfl
  | .letCount, _ => .ofLines rfl
  | .letNext value, hPlain => by
      rw [Stmt.Plain] at hPlain
      rw [Stmt.lines, Stmt.tokens]
      exact
        (Expr.spells_lines value hPlain).wrapLines rfl
          value.lines_ne_nil
  | .advance label, hPlain => by
      rw [Stmt.Plain] at hPlain
      rw [Stmt.lines, Stmt.tokens]
      have hHead :
          Spells
            ["match next \x7b",
             "    Some(next) => index = next,"]
            [.word "match", .word "next", .sign "\x7b",
             .word "Some", .sign "(", .word "next",
             .sign ")", .sign "=>", .word "index",
             .sign "=", .word "next", .sign ","] :=
        .ofLines rfl
      have hLeave :
          LineSpells
            ("    None => break " ++ label.text ++ " None,")
            [.word "None", .sign "=>", .word "break",
             .label label.name, .word "None",
             .sign ","] :=
        @spells_leave _ hPlain _ " None," _ _
          [.word "None", .sign "=>", .word "break"]
          [.word "None", .sign ","] rfl rfl (by decide) rfl
      have hClose : Spells ["\x7d"] [.sign "\x7d"] :=
        .ofLines rfl
      exact hHead.append (.cons hLeave hClose)
  | .leaveMatched label, hPlain => by
      rw [Stmt.Plain] at hPlain
      rw [Stmt.lines, Stmt.tokens]
      have hHead :
          Spells ["if next.is_some() \x7b"]
            [.word "if", .word "next", .sign ".",
             .word "is_some", .sign "(", .sign ")",
             .sign "\x7b"] := .ofLines rfl
      have hLeave :
          LineSpells ("    break " ++ label.text ++ " next;")
            [.word "break", .label label.name,
             .word "next", .sign ";"] :=
        @spells_leave _ hPlain _ " next;" _ _
          [.word "break"] [.word "next", .sign ";"] rfl rfl
          (by decide) rfl
      have hClose : Spells ["\x7d"] [.sign "\x7d"] :=
        .ofLines rfl
      exact hHead.append (.cons hLeave hClose)
  | .loop label limit body, hPlain => by
      rw [Stmt.Plain] at hPlain
      rw [Stmt.lines, Stmt.tokens]
      have hHead :=
        Spells.one (spells_loopHead hPlain.1 limit)
      have hBody := Stmt.spells_linesOfAll body hPlain.2
      have hClose : Spells ["\x7d"] [.sign "\x7d"] :=
        .ofLines rfl
      exact (hHead.append hBody.indent).append hClose
  | .takeCopy label min counted, hPlain => by
      rw [Stmt.Plain] at hPlain
      rw [Stmt.lines, Stmt.tokens]
      exact spells_copyLines hPlain min counted
  | .demand min label, hPlain => by
      rw [Stmt.Plain] at hPlain
      rw [Stmt.lines, Stmt.tokens]
      have hHead :
          LineSpells
            ("if count < " ++ toString min ++ " \x7b")
            [.word "if", .word "count", .sign "<",
             .number min "", .sign "\x7b"] :=
        @spells_limit min _
          [.word "if", .word "count", .sign "<"] rfl
      have hLeave :
          LineSpells ("    break " ++ label.text ++ " None;")
            [.word "break", .label label.name,
             .word "None", .sign ";"] :=
        @spells_leave _ hPlain _ " None;" _ _
          [.word "break"] [.word "None", .sign ";"] rfl rfl
          (by decide) rfl
      have hClose : Spells ["\x7d"] [.sign "\x7d"] :=
        .ofLines rfl
      exact .cons hHead (.cons hLeave hClose)

/- The same for some statements. -/
theorem Stmt.spells_linesOfAll :
    ∀ body : List Stmt, Stmt.AllPlain body →
      Spells (Stmt.linesOfAll body) (Stmt.tokensOfAll body)
  | [], _ => by
      rw [Stmt.linesOfAll, Stmt.tokensOfAll]
      exact .nil
  | stmt :: rest, hPlain => by
      rw [Stmt.AllPlain] at hPlain
      rw [Stmt.linesOfAll, Stmt.tokensOfAll]
      exact
        (Stmt.spells_lines stmt hPlain.1).append
          (Stmt.spells_linesOfAll rest hPlain.2)

end

end Source

end Abnf
