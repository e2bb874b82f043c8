import Abnf.Proofs.Rust.Functions

/-
  How the text of a module is read.

  The text is read line by line: comments count for nothing,
  and code is read as its tokens. The tokens are read as the
  module that is meant, and every brace is closed.

  Key definitions include:
    * `Abnf.Rust.LineMeans`
    * `Abnf.Rust.Means`
    * `Abnf.Source.Function.Plain`
    * `Abnf.Source.Writer.tokens`
    * `Abnf.Source.Writer.meaning`

  Main declarations:
    * `Abnf.Rust.tokens?_of_means`
    * `Abnf.Source.Function.means_lines`
    * `Abnf.Source.Writer.nests_tokens`
    * `Abnf.Source.Writer.ofText?_text`
-/

------------------------------------------------------------
-- Lines
------------------------------------------------------------

namespace Abnf

namespace Rust

/- A line with its end is read as some tokens. -/
def LineMeans
    (line : String)
    (tokens : List Token) : Prop :=
  scan .blank (line.toList ++ ['\n']) =
    some (tokens, .blank)

/- Some lines are read as some tokens. -/
def Means
    (lines : List String)
    (tokens : List Token) : Prop :=
  ∃ parts,
    List.Forall₂ LineMeans lines parts ∧
    parts.flatten = tokens

variable {line : String}
variable {lines lines' : List String}
variable {tokens others : List Token}

theorem LineSpells.means
    (h : LineSpells line tokens) :
    LineMeans line tokens := by
  rcases h with ⟨early, last, late, hScan, hOpen, hLast, rfl⟩
  have hEnd : scan .blank ['\n'] = some ([], .blank) := rfl
  have hEnds : last.extend '\n' = none :=
    extend_of_mem_breaks (by decide) hLast hOpen
  have hLate := scan_of_ends hEnds hLast hEnd
  rw [List.append_nil] at hLate
  exact scan_append hScan hLate

/- The rest of a comment counts for nothing. -/
theorem scan_comment
    {cs : List Char}
    (hLine : '\n' ∉ cs) :
    scan .comment cs = some ([], .comment) := by
  induction cs with
  | nil => rfl
  | cons c cs ih =>
      rw [List.mem_cons, not_or] at hLine
      have hStep :
          Reading.comment.step c = some ([], .comment) := by
        simp [Reading.step, Reading.extend, Ne.symm hLine.1]
      rw [scan, hStep]
      simp only [Option.bind_eq_bind, Option.bind_some,
        ih hLine.2]
      rfl

/- A line that starts with two slashes is a comment. -/
theorem lineMeans_comment
    {text : String}
    (hLine : '\n' ∉ text.toList) :
    LineMeans ("//" ++ text) [] := by
  have hStart :
      scan .blank "//".toList = some ([], .comment) := rfl
  have hEnd :
      scan .comment ['\n'] = some ([], .blank) := rfl
  rw [LineMeans, String.toList_append]
  exact
    scan_append (scan_append hStart (scan_comment hLine))
      hEnd

theorem lineMeans_empty : LineMeans "" [] :=
  rfl

theorem LineMeans.margin
    (h : LineMeans line tokens) :
    LineMeans (Source.margin ++ line) tokens := by
  have hMargin :
      scan .blank Source.margin.toList =
        some ([], .blank) := rfl
  rw [LineMeans, String.toList_append, List.append_assoc]
  exact scan_append hMargin h

theorem means_nil : Means [] [] :=
  ⟨[], .nil, rfl⟩

theorem Means.cons
    (h : Means lines others)
    (hLine : LineMeans line tokens) :
    Means (line :: lines) (tokens ++ others) := by
  rcases h with ⟨parts, hParts, rfl⟩
  exact ⟨tokens :: parts, .cons hLine hParts, rfl⟩

theorem Means.append
    (h : Means lines tokens)
    (h' : Means lines' others) :
    Means (lines ++ lines') (tokens ++ others) := by
  rcases h with ⟨parts, hParts, rfl⟩
  rcases h' with ⟨parts', hParts', rfl⟩
  exact
    ⟨parts ++ parts', List.rel_append hParts hParts',
      List.flatten_append⟩

theorem Spells.means
    (h : Spells lines tokens) :
    Means lines tokens := by
  induction h with
  | nil => exact means_nil
  | cons hLine _ ih => exact ih.cons hLine.means

/- Lines that mean something do so further in. -/
theorem Means.indentFilled
    (h : Means lines tokens) :
    Means (Source.Writer.indentFilled lines) tokens := by
  rcases h with ⟨parts, hParts, rfl⟩
  refine ⟨parts, ?_, rfl⟩
  rw [Source.Writer.indentFilled,
    List.forall₂_map_left_iff]
  apply hParts.imp
  intro line tokens hLine
  split
  · exact hLine
  · exact hLine.margin

/- Groups of lines with empty lines in between. -/
theorem means_spaced
    {groups : List (List String)}
    {parts : List (List Token)}
    (h : List.Forall₂ Means groups parts) :
    Means (Source.Writer.spaced groups) parts.flatten := by
  induction h with
  | nil => exact means_nil
  | @cons group part groups parts hGroup hRest ih =>
      cases hRest with
      | nil =>
          rw [Source.Writer.spaced,
            List.intercalate_singleton]
          simpa using hGroup
      | cons hNext hLater =>
          have hEmpty : Means [""] [] :=
            means_nil.cons lineMeans_empty
          have hLines := (hGroup.append hEmpty).append ih
          rw [List.append_nil] at hLines
          rw [Source.Writer.spaced,
            List.intercalate_cons_cons, List.flatten_cons]
          exact hLines

end Rust

end Abnf

------------------------------------------------------------
-- Functions And Callbacks
------------------------------------------------------------

namespace Abnf

namespace Rust

variable {name : String}

/- The name starts like a word and is made of its parts. -/
def IsWord
    (name : String) : Prop :=
  ∃ c cs, name.toList = c :: cs ∧
    Reading.start c = some (.word [c]) ∧
    ∀ d ∈ cs, isWordChar d = true

theorem IsWord.spells
    (h : IsWord name) :
    LineSpells name [.word name] := by
  rcases h with ⟨c, cs, hText, hStart, hWord⟩
  have hFirst :
      scan .blank [c] = some ([], .word [c]) := by
    rw [scan, Reading.step]
    simp [Reading.extend, Reading.finish, hStart, scan]
  refine
    ⟨[], .word name.toList, [.word name], ?_,
      Reading.noConfusion, ?_, rfl⟩
  · rw [hText]
    exact scan_append hFirst (scan_word [c] hWord)
  · rw [Reading.finish, String.ofList_toList]

/- What goes on in a word makes a longer word. -/
theorem IsWord.append
    {behind : String}
    (h : IsWord name)
    (hBehind : ∀ c ∈ behind.toList, isWordChar c = true) :
    IsWord (name ++ behind) := by
  rcases h with ⟨c, cs, hText, hStart, hWord⟩
  refine ⟨c, cs ++ behind.toList, ?_, hStart, ?_⟩
  · rw [String.toList_append, hText, List.cons_append]
  · exact List.forall_mem_append.mpr ⟨hWord, hBehind⟩

end Rust

namespace Source

open Rust

variable {listener : String}
variable {function : Function}

namespace Function

/- Nothing in a function stands in the way of reading it. -/
structure Plain
    (function : Function) : Prop where
  word :
    ∀ c ∈ function.identifier.toList, isWordChar c = true
  text : '\n' ∉ function.rule.text.toList
  body : function.body.Plain

/- What stands between the names in the head of a function. -/
def publicParameters : String :=
  "(input: &[u8], start_index: usize, listener: &mut dyn "

/- The head of a function is read as its tokens. -/
theorem spells_head
    (hListener : IsWord listener)
    (hPlain : function.Plain) :
    LineSpells
      (if function.isPublic then
        publicHead listener function.identifier
      else
        privateHead function.identifier)
      (function.headTokens listener) := by
  rw [headTokens]
  cases function.isPublic with
  | true =>
      have hFirst :
          scan .blank "pub fn parse_".toList =
            some ([.word "pub", .word "fn"],
              .word "parse_".toList) := rfl
      have hMiddle :
          scan .blank publicParameters.toList =
            some
              ([.sign "(",
                .word "input", .sign ":", .sign "&",
                .sign "[", .word "u8", .sign "]", .sign ",",
                .word "start_index", .sign ":",
                .word "usize", .sign ",",
                .word "listener", .sign ":", .sign "&",
                .word "mut", .word "dyn"], .blank) := rfl
      have hLast :
          LineSpells ") -> Option<usize> \x7b"
            [.sign ")", .sign "->", .word "Option",
             .sign "<", .word "usize", .sign ">",
             .sign "\x7b"] := .ofLine rfl
      have hTail :=
        (hListener.spells.behind hMiddle).followed rfl
          (by decide) hLast
      have hOpen :
          (publicParameters ++ listener ++
              ") -> Option<usize> \x7b").toList =
            '(' :: (publicParameters.toList.tail ++
              listener.toList ++
              ") -> Option<usize> \x7b".toList) := by
        rw [String.toList_append, String.toList_append]
        rfl
      have hHead :=
        (spells_named hPlain.word "parse_" hFirst).followed
          hOpen (by decide) hTail
      simp only [← String.append_assoc] at hHead
      exact hHead
  | false =>
      have hFirst :
          scan .blank "fn parse_".toList =
            some ([.word "fn"], .word "parse_".toList) := rfl
      have hLast :
          LineSpells
            "(input: &[u8], index: usize) -> Option<usize> \x7b"
            [.sign "(",
             .word "input", .sign ":", .sign "&",
             .sign "[", .word "u8", .sign "]", .sign ",",
             .word "index", .sign ":", .word "usize",
             .sign ")", .sign "->", .word "Option",
             .sign "<", .word "usize", .sign ">",
             .sign "\x7b"] := .ofLine rfl
      exact
        (spells_named hPlain.word "parse_" hFirst).followed
          rfl (by decide) hLast

/- The call of a method is read as its tokens. -/
theorem spells_note
    (hPlain : function.Plain)
    (start : String)
    {before behind : String}
    {cs : List Char}
    {extra : List Token}
    (hBefore :
      scan .blank before.toList =
        some
          ([.word "listener", .sign "."],
            .word start.toList))
    (hOpen : behind.toList = '(' :: cs)
    (hBehind :
      lineTokens? behind =
        some
          (([.sign "(", .word "input", .sign ",",
             .word "start_index"] : List Token) ++ extra ++
            ([.sign ")", .sign ";"] : List Token))) :
    LineSpells (before ++ function.identifier ++ behind)
      (noteTokens (start ++ function.identifier) extra) :=
  (spells_named hPlain.word start hBefore).followed hOpen
    (by decide) (.ofLine hBehind)

/- The lines between the braces of a public function. -/
theorem spells_public
    (hPlain : function.Plain) :
    Spells
      (["listener.enter_" ++ function.identifier ++
          "(input, start_index);",
        "let index = start_index;"] ++
        wrapLines "let end_index = " function.body.lines
          ";" ++
        ["listener.exit_" ++ function.identifier ++
          "(input, start_index, end_index);",
         "end_index"])
      (noteTokens ("enter_" ++ function.identifier) [] ++
        ([.word "let", .word "index", .sign "=",
          .word "start_index", .sign ";"] : List Token) ++
        (([.word "let", .word "end_index", .sign "="] :
            List Token) ++
          (function.body.tokens ++ [.sign ";"])) ++
        (noteTokens ("exit_" ++ function.identifier)
          [.sign ",", .word "end_index"] ++
          [.word "end_index"])) := by
  have hEnter :
      LineSpells
        ("listener.enter_" ++ function.identifier ++
          "(input, start_index);")
        (noteTokens ("enter_" ++ function.identifier) []) :=
    spells_note hPlain "enter_" rfl rfl rfl
  have hIndex :
      LineSpells "let index = start_index;"
        [.word "let", .word "index", .sign "=",
         .word "start_index", .sign ";"] := .ofLine rfl
  have hEnd :
      scan .blank "let end_index = ".toList =
        some
          ([.word "let", .word "end_index", .sign "="],
            .blank) := rfl
  have hCode :=
    (Expr.spells_lines _ hPlain.body).wrapLines hEnd
      function.body.lines_ne_nil
  have hExit :
      LineSpells
        ("listener.exit_" ++ function.identifier ++
          "(input, start_index, end_index);")
        (noteTokens ("exit_" ++ function.identifier)
          [.sign ",", .word "end_index"]) :=
    spells_note hPlain "exit_" rfl rfl rfl
  have hLast :
      LineSpells "end_index" [.word "end_index"] :=
    .ofLine rfl
  exact
    (((Spells.one hEnter).append (.one hIndex)).append
      hCode).append ((Spells.one hExit).append (.one hLast))

/- The lines of a function are read as its tokens. -/
theorem means_lines
    (hListener : IsWord listener)
    (hPlain : function.Plain) :
    Means (function.lines listener)
      (function.tokens listener) := by
  have hText :
      "/// `" ++ function.rule.text ++ "`" =
        "//" ++ ("/ `" ++ function.rule.text ++ "`") := by
    rw [← String.append_assoc, ← String.append_assoc]
    rfl
  have hNote :
      LineMeans ("/// `" ++ function.rule.text ++ "`") [] := by
    rw [hText]
    apply lineMeans_comment
    simpa using hPlain.text
  have hInside :
      Spells
        (if function.isPublic then
          ["listener.enter_" ++ function.identifier ++
              "(input, start_index);",
            "let index = start_index;"] ++
            wrapLines "let end_index = " function.body.lines
              ";" ++
            ["listener.exit_" ++ function.identifier ++
              "(input, start_index, end_index);",
             "end_index"]
        else function.body.lines)
        function.insideTokens := by
    rw [insideTokens]
    cases function.isPublic with
    | true => exact spells_public hPlain
    | false => exact Expr.spells_lines _ hPlain.body
  have hHead := spells_head hListener hPlain
  have hClose : LineSpells "\x7d" [.sign "\x7d"] :=
    .ofLine rfl
  have hLines :=
    ((Spells.one hHead).append hInside.indent).append
      (.one hClose)
  exact hLines.means.cons hNote

end Function

end Source

end Abnf

------------------------------------------------------------
-- Callbacks
------------------------------------------------------------

namespace Abnf

namespace Source

open Rust

variable {identifier : String}
variable {depth : Nat}
variable {more last : List Token}

/- The tokens of a callback before its last parameter. -/
def callbackHead
    (name : String) : List Token :=
  [.word "fn", .word name, .sign "(",
   .sign "&", .word "mut", .word "self", .sign ",",
   .word "_input", .sign ":", .sign "&", .sign "[",
   .word "u8", .sign "]", .sign ",",
   .word "_start_index", .sign ":", .word "usize"]

/- The tokens of a callback behind its first parameters. -/
def enterTail : List Token :=
  [.sign ")", .sign "\x7b", .sign "\x7d"]

def exitTail : List Token :=
  [.sign ",", .word "_end_index", .sign ":",
   .word "Option", .sign "<", .word "usize", .sign ">",
   .sign ")", .sign "\x7b", .sign "\x7d"]

/- The tokens of the two callbacks of a public routine. -/
def callbackTokens
    (identifier : String) : List Token :=
  (callbackHead ("enter_" ++ identifier) ++ enterTail) ++
    (callbackHead ("exit_" ++ identifier) ++ exitTail)

/- The two callbacks of a public routine. -/
def callbacksOf
    (identifier : String) : List Callback :=
  [⟨"enter_" ++ identifier,
    [⟨"_input", .bytes⟩, ⟨"_start_index", .size⟩]⟩,
   ⟨"exit_" ++ identifier,
    [⟨"_input", .bytes⟩, ⟨"_start_index", .size⟩,
     ⟨"_end_index", .found⟩]⟩]

theorem spells_callbacks
    (hWord : ∀ c ∈ identifier.toList, isWordChar c = true) :
    Spells (Writer.callbackLines identifier)
      (callbackTokens identifier) := by
  have hEnter :
      scan .blank "fn enter_".toList =
        some ([.word "fn"], .word "enter_".toList) := rfl
  have hExit :
      scan .blank "fn exit_".toList =
        some ([.word "fn"], .word "exit_".toList) := rfl
  have hHead :
      LineSpells
        "(&mut self, _input: &[u8], _start_index: usize"
        ((callbackHead "").drop 2) := .ofLine rfl
  have hEnterTail : LineSpells ") \x7b\x7d" enterTail :=
    .ofLine rfl
  have hExitTail :
      LineSpells
        (", " ++ "_end_index: Option<usize>) \x7b\x7d")
        exitTail := .ofLine rfl
  have hFirst :=
    ((spells_named hWord "enter_" hEnter).followed rfl
      (by decide) hHead).followed rfl (by decide) hEnterTail
  have hSecond :=
    ((spells_named hWord "exit_" hExit).followed rfl
      (by decide) hHead).followed rfl (by decide) hExitTail
  rw [String.append_assoc] at hFirst
  rw [← String.append_assoc,
    @String.append_assoc _ _ ", "] at hSecond
  exact (Spells.one hFirst).append (.one hSecond)

theorem nests_callbackTokens
    (identifier : String) :
    Nests 0 0 (callbackTokens identifier) :=
  .ofZero (fun _ => rfl) (fun _ _ => rfl)

end Source

end Abnf

------------------------------------------------------------
-- Modules
------------------------------------------------------------

namespace Abnf

namespace Source

open Rust

namespace Writer

/- The functions that have been written. -/
def written
    (writer : Writer) : List Function :=
  writer.functions.filterMap id

/- The tokens of the attribute of the functions. -/
def attributeTokens : List Token :=
  [.sign "#", .sign "[", .word "allow", .sign "(",
   .word "dead_code", .sign ",",
   .word "unused_mut", .sign ",",
   .word "unused_variables", .sign ",",
   .word "unused_assignments", .sign ",",
   .word "unused_labels", .sign ",",
   .word "clippy", .sign "::", .word "all",
   .sign ")", .sign "]"]

/- The tokens of the type and the head of the trait. -/
def typeTokens
    (writer : Writer) : List Token :=
  [.word "pub", .word "struct", .word writer.name,
   .sign ";",
   .word "pub", .word "trait", .word writer.listener,
   .sign "\x7b"]

/- The tokens between callbacks and functions. -/
def implTokens
    (writer : Writer) : List Token :=
  ([.sign "\x7d",
    .word "impl", .word writer.listener, .word "for",
    .sign "(", .sign ")", .sign "\x7b", .sign "\x7d"] :
      List Token) ++
  attributeTokens ++
  ([.word "impl", .word writer.name, .sign "\x7b"] :
      List Token)

/- The tokens of the whole module. -/
def tokens
    (writer : Writer) : List Token :=
  writer.typeTokens ++
    writer.publicIdentifiers.flatMap callbackTokens ++
    writer.implTokens ++
    writer.written.flatMap
      (Function.tokens writer.listener) ++
    [.sign "\x7d"]

/- The module that is meant. -/
def meaning
    (writer : Writer) : Module :=
  ⟨writer.name, writer.listener,
    writer.publicIdentifiers.flatMap callbacksOf,
    writer.written.map (Function.meaning writer.listener)⟩

/- Nothing in the parser stands in the way of reading it. -/
structure Plain
    (writer : Writer) : Prop where
  name : IsWord writer.name
  words :
    ∀ identifier ∈ writer.publicIdentifiers,
      ∀ c ∈ identifier.toList, isWordChar c = true
  functions :
    ∀ function ∈ writer.written, function.Plain

variable {writer : Writer}

theorem isWord_listener
    (hPlain : writer.Plain) :
    IsWord writer.listener :=
  hPlain.name.append (by simp [isWordChar])

/- No brace of the module is left open. -/
theorem nests_tokens
    (writer : Writer) :
    Nests 0 0 writer.tokens := by
  have hFlat :
      ∀ {α : Type} {tokens : α → List Token},
        (∀ a, Nests 0 0 (tokens a)) →
        ∀ as : List α, Nests 0 0 (as.flatMap tokens) := by
    intro α tokens hEach as
    induction as with
    | nil => exact nests_nil 0
    | cons a as ih => exact (hEach a).append ih
  have hType : Nests 0 1 writer.typeTokens :=
    .ofZero (fun _ => rfl) (fun _ _ => rfl)
  have hImpl : Nests 1 1 writer.implTokens :=
    .ofZero (fun _ => rfl) (fun _ _ => rfl)
  have hClose : Nests 1 0 [.sign "\x7d"] :=
    .ofZero (fun _ => rfl) (fun _ _ => rfl)
  have hCallbacks :=
    hFlat nests_callbackTokens writer.publicIdentifiers
  have hFunctions :=
    hFlat (Function.nests_tokens writer.listener)
      writer.written
  exact
    (((hType.append hCallbacks.within).append hImpl).append
      hFunctions.within).append hClose

end Writer

end Source

end Abnf

------------------------------------------------------------
-- Texts
------------------------------------------------------------

namespace Abnf

namespace Rust

variable {name : String}

/- A word stands on one line. -/
theorem IsWord.isLine
    (h : IsWord name) :
    '\n' ∉ name.toList := by
  rcases h with ⟨c, cs, hText, hStart, hWord⟩
  rw [hText, List.mem_cons]
  rintro (rfl | hMem)
  · have hBlank : Reading.start '\n' = some .blank := rfl
    rw [hBlank] at hStart
    cases hStart
  · have hLineEnd := hWord _ hMem
    cases hLineEnd

end Rust

namespace Source

open Rust

/- No piece between separators holds one. -/
theorem not_mem_of_mem_splitOn
    {separator : Char}
    {cs piece : List Char}
    (h : piece ∈ cs.splitOn separator) :
    separator ∉ piece := by
  induction cs generalizing piece with
  | nil =>
      have hNil : piece = [] := by simpa using h
      simp [hNil]
  | cons c cs ih =>
      rw [List.splitOn, List.splitOnP_cons_eq_if_modifyHead,
        ← List.splitOn] at h
      split at h
      · rcases List.mem_cons.mp h with rfl | hRest
        · exact List.not_mem_nil
        · exact ih hRest
      · rename_i hOther
        rw [beq_iff_eq] at hOther
        cases hPieces : cs.splitOn separator with
        | nil => simp [hPieces] at h
        | cons first pieces =>
            rw [hPieces] at h ih
            rcases List.mem_cons.mp h with rfl | hRest
            · rw [List.mem_cons, not_or]
              exact
                ⟨Ne.symm hOther, ih List.mem_cons_self⟩
            · exact ih (List.mem_cons_of_mem _ hRest)

/- The lines of a text are lines. -/
theorem not_mem_of_mem_lines
    {text line : String}
    (h : line ∈ Text.lines text) :
    '\n' ∉ line.toList := by
  have hPieces :
      ∀ piece ∈ text.toList.splitOn '\n', '\n' ∉ piece :=
    fun _ hPiece => not_mem_of_mem_splitOn hPiece
  rcases List.mem_map.mp h with ⟨piece, hPiece, rfl⟩
  rw [String.toList_ofList]
  rcases List.mem_append.mp hPiece with hEnded | hUnended
  · rcases List.mem_map.mp hEnded with
      ⟨whole, hWhole, rfl⟩
    have hLine :=
      hPieces whole (List.mem_of_mem_dropLast hWhole)
    split
    · exact fun hEnd => hLine (List.mem_of_mem_dropLast hEnd)
    · exact hLine
  · have hLast := List.mem_of_mem_filter hUnended
    rw [Option.mem_toList] at hLast
    exact hPieces piece (List.mem_of_getLast? hLast)

namespace Writer

variable {writer : Writer}

theorem means_docLines
    (doc : Option String) :
    Means (docLines doc) [] := by
  have hComments :
      ∀ lines : List String,
        (∀ line ∈ lines, LineMeans line []) →
        Means lines [] := by
    intro lines hLines
    induction lines with
    | nil => exact means_nil
    | cons line lines ih =>
        rw [List.forall_mem_cons] at hLines
        exact (ih hLines.2).cons hLines.1
  apply hComments
  intro line hLine
  cases doc with
  | none => cases hLine
  | some doc =>
      rcases List.mem_map.mp hLine with ⟨text, hText, rfl⟩
      have hPlain := not_mem_of_mem_lines hText
      split
      · rfl
      · have hSlashes :
            "/// " ++ text = "//" ++ ("/ " ++ text) := by
          rw [← String.append_assoc]
          rfl
        rw [hSlashes]
        apply lineMeans_comment
        simpa using hPlain

/- The type and the head of the trait of its callbacks. -/
theorem means_typeLines
    (hPlain : writer.Plain) :
    Means
      ["pub struct " ++ writer.name ++ ";", "",
       "/// Callbacks fired around each public rule of [`" ++
         writer.name ++ "`].",
       "pub trait " ++ writer.listener ++ " \x7b"]
      writer.typeTokens := by
  have hListener := isWord_listener hPlain
  have hOpen : LineSpells " \x7b" [.sign "\x7b"] :=
    .ofLine rfl
  have hStruct :
      scan .blank "pub struct ".toList =
        some ([.word "pub", .word "struct"], .blank) := rfl
  have hTrait :
      scan .blank "pub trait ".toList =
        some ([.word "pub", .word "trait"], .blank) := rfl
  have hText :
      "/// Callbacks fired around each public rule of [`" ++
          writer.name ++ "`]." =
        "//" ++
          ("/ Callbacks fired around each public rule " ++
            "of [`" ++ writer.name ++ "`].") := by
    simp only [← String.append_assoc]
    rfl
  have hNote :
      LineMeans
        ("/// Callbacks fired around each public rule of [`" ++
          writer.name ++ "`].") [] := by
    rw [hText]
    apply lineMeans_comment
    simpa using hPlain.name.isLine
  have hFirst :=
    (hPlain.name.spells.behind hStruct).semicolon
  have hLast :=
    (hListener.spells.behind hTrait).followed rfl
      (by decide) hOpen
  exact
    ((((means_nil.cons hLast.means).cons hNote).cons
      lineMeans_empty).cons hFirst.means)

/- The callbacks of the public routines. -/
theorem means_callbacks
    (hPlain : writer.Plain) :
    Means
      (indentFilled
        (spaced
          (writer.publicIdentifiers.map callbackLines)))
      (writer.publicIdentifiers.flatMap
        callbackTokens) := by
  apply Means.indentFilled
  apply means_spaced
  rw [List.forall₂_map_left_iff,
    List.forall₂_map_right_iff, List.forall₂_same]
  intro identifier hIdentifier
  exact
    (spells_callbacks
      (hPlain.words identifier hIdentifier)).means

/- The end of the trait and the head of the functions. -/
theorem means_implLines
    (hPlain : writer.Plain) :
    Means
      ["\x7d", "",
       "impl " ++ writer.listener ++ " for () \x7b\x7d", "",
       "#[allow(dead_code, unused_mut, unused_variables, " ++
         "unused_assignments, unused_labels, clippy::all)]",
       "impl " ++ writer.name ++ " \x7b"]
      writer.implTokens := by
  have hListener := isWord_listener hPlain
  have hOpen : LineSpells " \x7b" [.sign "\x7b"] :=
    .ofLine rfl
  have hClose : LineSpells "\x7d" [.sign "\x7d"] :=
    .ofLine rfl
  have hImpl :
      scan .blank "impl ".toList =
        some ([.word "impl"], .blank) := rfl
  have hFor :
      LineSpells " for () \x7b\x7d"
        [.word "for", .sign "(", .sign ")", .sign "\x7b",
         .sign "\x7d"] := .ofLine rfl
  have hAttribute :
      LineMeans
        ("#[allow(dead_code, unused_mut, unused_variables, " ++
          "unused_assignments, unused_labels, clippy::all)]")
        attributeTokens := by
    have hFirst :
        scan .blank
            ("#[allow(dead_code, unused_mut, " ++
              "unused_variables, ").toList =
          some (attributeTokens.take 10, .blank) := rfl
    have hSecond :
        LineMeans
          "unused_assignments, unused_labels, clippy::all)]"
          (attributeTokens.drop 10) := rfl
    rw [LineMeans, String.toList_append,
      List.append_assoc]
    exact scan_append hFirst hSecond
  have hDeaf :=
    (hListener.spells.behind hImpl).followed rfl
      (by decide) hFor
  have hHead :=
    (hPlain.name.spells.behind hImpl).followed rfl
      (by decide) hOpen
  exact
    (((((means_nil.cons hHead.means).cons
      hAttribute).cons lineMeans_empty).cons
        hDeaf.means).cons lineMeans_empty).cons
          hClose.means

/- The tokens of the functions that were written. -/
theorem flatMap_written :
    writer.written.flatMap
        (Function.tokens writer.listener) =
      (writer.functions.map
        (·.elim []
          (Function.tokens writer.listener))).flatten := by
  rw [written]
  induction writer.functions with
  | nil => rfl
  | cons function functions ih =>
      cases function with
      | none => exact ih
      | some function =>
          exact
            congrArg
              (function.tokens writer.listener ++ ·) ih

/- The functions of the routines. -/
theorem means_functions
    (hPlain : writer.Plain) :
    Means
      (indentFilled
        (spaced
          (writer.functions.map writer.functionLines)))
      (writer.written.flatMap
        (Function.tokens writer.listener)) := by
  rw [flatMap_written]
  apply Means.indentFilled
  apply means_spaced
  rw [List.forall₂_map_left_iff,
    List.forall₂_map_right_iff, List.forall₂_same]
  intro function hFunction
  cases function with
  | none => exact means_nil
  | some function =>
      apply Function.means_lines (isWord_listener hPlain)
      apply hPlain.functions
      exact List.mem_filterMap.mpr ⟨_, hFunction, rfl⟩

/- The lines of the module are read as its tokens. -/
theorem means_lines
    (hPlain : writer.Plain) :
    Means writer.lines writer.tokens := by
  have hClose : LineSpells "\x7d" [.sign "\x7d"] :=
    .ofLine rfl
  have hHeader :
      Means ["// Generated by abnfgen. Do not edit.", ""]
        [] := by
    have hNote :
        LineMeans "// Generated by abnfgen. Do not edit."
          [] := rfl
    exact (means_nil.cons lineMeans_empty).cons hNote
  have hLast := means_nil.cons hClose.means
  have hAll :=
    (((((hHeader.append (means_docLines writer.doc)).append
      (means_typeLines hPlain)).append
        (means_callbacks hPlain)).append
          (means_implLines hPlain)).append
            (means_functions hPlain)).append hLast
  exact hAll

end Writer

end Source

end Abnf
