import Abnf.Source.Writer
import Abnf.Text.Hexadecimal

/-
  The tokens of the part of Rust in which parsers are
  written.

  A text is read from left to right. A token goes on as long
  as it can, and blanks and the rest of a line behind two
  slashes count for nothing. Strings, characters and comments
  over several lines are no part of the language.

  Key definitions include:
    * `Abnf.Rust.Token`
    * `Abnf.Rust.Reading`
    * `Abnf.Rust.scan`
    * `Abnf.Rust.tokens?`

  Main declarations:
    * `Abnf.Rust.scan_append`
-/

------------------------------------------------------------
-- Tokens
------------------------------------------------------------

namespace Abnf

namespace Rust

/- A token of a text. -/
inductive Token where
  /- A name or a word of the language. -/
  | word (text : String)
  /- The name of a block or a loop, behind its quote. -/
  | label (name : String)
  /- A number, with the name of its type if it is given. -/
  | number (value : Nat) (kind : String)
  /- A byte between quotes. -/
  | byte (value : UInt8)
  /- One or two signs with a meaning of their own. -/
  | sign (text : String)
deriving DecidableEq, Inhabited

/- The character may go on in a name. -/
def isWordChar
    (c : Char) : Bool :=
  c.isAlphanum || c == '_'

/- The types that may stand behind a number. -/
def numberKinds : List String :=
  ["", "u8", "u64", "usize"]

/- Digits before the name of a type make a number. -/
def numberOf
    (kind : List Char)
    (value : Option Nat) : Option Token :=
  match value with
  | some value =>
      if numberKinds.contains (String.ofList kind) then
        some (.number value (String.ofList kind))
      else
        none
  | none => none

/- A number in base ten or, behind `0x`, in base sixteen. -/
def readNumber : List Char → Option Token
  | '0' :: 'x' :: rest =>
      let digits :=
        rest.takeWhile (fun c => (Text.hexValue? c).isSome)
      let kind :=
        rest.dropWhile (fun c => (Text.hexValue? c).isSome)
      if digits.isEmpty then
        none
      else
        numberOf kind (Text.hexNumber? digits)
  | text =>
      let digits := text.takeWhile Char.isDigit
      numberOf (text.dropWhile Char.isDigit)
        (some (Nat.ofDigitChars 10 digits 0))

/- The byte that is written between two quotes. -/
def readByte : List Char → Option UInt8
  | ['\\', 't'] => some 9
  | ['\\', 'r'] => some 13
  | ['\\', 'n'] => some 10
  | ['\\', '0'] => some 0
  | ['\\', '\''] => some 39
  | ['\\', '"'] => some 34
  | ['\\', '\\'] => some 92
  | ['\\', 'x', high, low] =>
      (Text.hexNumber? [high, low]).map UInt8.ofNat
  | [c] =>
      if 32 ≤ c.toNat && c.toNat < 127 && c != '\\' &&
          c != '\'' then
        some (UInt8.ofNat c.toNat)
      else
        none
  | _ => none

/- The single signs. -/
def signs : List Char :=
  ['{', '}', '(', ')', '[', ']', '<', '>', '=', '!', '&',
   '|', '+', '-', '.', ',', ';', ':', '#']

/- The signs of two characters. -/
def pairs : List (Char × Char) :=
  [('=', '='), ('=', '>'), ('!', '='), ('&', '&'),
   ('|', '|'), ('<', '<'), ('>', '>'), ('<', '='),
   ('>', '='), ('-', '>'), (':', ':'), ('.', '.'),
   ('+', '='), ('-', '='), ('&', '='), ('|', '=')]

end Rust

end Abnf

------------------------------------------------------------
-- Reading
------------------------------------------------------------

namespace Abnf

namespace Rust

/- What is being read at some place of a text. -/
inductive Reading where
  /- Nothing. -/
  | blank
  /- A word, so far. -/
  | word (text : List Char)
  /- A number, so far. -/
  | number (text : List Char)
  /- A label, so far, behind its quote. -/
  | label (text : List Char)
  /- A byte, so far, behind its first quote. -/
  | byte (text : List Char)
  /- A byte between two quotes. -/
  | closed (text : List Char)
  /- A sign that may be the first of two. -/
  | sign (c : Char)
  /- Two signs. -/
  | pair (first second : Char)
  /- The first slash of a comment. -/
  | slash
  /- The rest of a line behind two slashes. -/
  | comment
deriving DecidableEq, Inhabited

namespace Reading

/- The reading that a character starts. -/
def start
    (c : Char) : Option Reading :=
  if c = ' ' ∨ c = '\n' then some .blank
  else if c.isDigit then some (.number [c])
  else if isWordChar c then some (.word [c])
  else if c = '\'' then some (.label [])
  else if c = '/' then some .slash
  else if signs.contains c then some (.sign c)
  else none

/- The reading with one more character, if it goes on. -/
def extend : Reading → Char → Option Reading
  | .word text, c =>
      if isWordChar c then some (.word (text ++ [c]))
      else if text = ['b'] ∧ c = '\'' then some (.byte [])
      else none
  | .number text, c =>
      if isWordChar c then some (.number (text ++ [c]))
      else none
  | .label text, c =>
      if isWordChar c then some (.label (text ++ [c]))
      else none
  | .byte text, c =>
      if c = '\n' then none
      else if c = '\'' ∧ text ≠ ['\\'] then
        some (.closed text)
      else some (.byte (text ++ [c]))
  | .sign first, c =>
      if pairs.contains (first, c) then some (.pair first c)
      else none
  | .slash, c =>
      if c = '/' then some .comment else none
  | .comment, c =>
      if c = '\n' then none else some .comment
  | .blank, _ => none
  | .closed _, _ => none
  | .pair _ _, _ => none

/- The tokens that a reading has come to at its end. -/
def finish : Reading → Option (List Token)
  | .blank => some []
  | .word text => some [.word (String.ofList text)]
  | .number text => (readNumber text).map ([·])
  | .label text =>
      if text.isEmpty then none
      else some [.label (String.ofList text)]
  | .byte _ => none
  | .closed text => (readByte text).map ([.byte ·])
  | .sign c => some [.sign (String.ofList [c])]
  | .pair first second =>
      some [.sign (String.ofList [first, second])]
  | .slash => none
  | .comment => some []

/-
  Read one character: it goes on with what is being read, or
  that comes to its end and something new starts.
-/
def step
    (reading : Reading)
    (c : Char) : Option (List Token × Reading) :=
  match reading.extend c with
  | some next => some ([], next)
  | none => do
      let tokens ← reading.finish
      let next ← start c
      return (tokens, next)

end Reading

/- Read some characters. -/
def scan :
    Reading → List Char → Option (List Token × Reading)
  | reading, [] => some ([], reading)
  | reading, c :: rest => do
      let (tokens, next) ← reading.step c
      let (others, last) ← scan next rest
      return (tokens ++ others, last)

/- The tokens of a text. -/
def tokens?
    (text : String) : Option (List Token) := do
  let (tokens, last) ← scan .blank text.toList
  let others ← last.finish
  return tokens ++ others

end Rust

end Abnf

------------------------------------------------------------
-- Texts In Pieces
------------------------------------------------------------

namespace Abnf

namespace Rust

variable {reading next last : Reading}
variable {tokens others : List Token}
variable {cs cs' : List Char}

/- Reading a text goes piece by piece. -/
theorem scan_append
    (h : scan reading cs = some (tokens, next))
    (h' : scan next cs' = some (others, last)) :
    scan reading (cs ++ cs') =
      some (tokens ++ others, last) := by
  induction cs generalizing reading tokens with
  | nil =>
      rw [scan] at h
      cases h
      simpa using h'
  | cons c cs ih =>
      rw [scan] at h
      rw [List.cons_append, scan]
      cases hStep : reading.step c with
      | none => simp [hStep] at h
      | some first =>
          rcases first with ⟨ended, after⟩
          rw [hStep] at h
          simp only [Option.bind_eq_bind, Option.bind_some]
            at h ⊢
          cases hRest : scan after cs with
          | none => simp [hRest] at h
          | some rest =>
              rcases rest with ⟨more, stop⟩
              rw [hRest] at h
              simp only [Option.bind_some] at h
              cases h
              rw [ih hRest]
              simp

end Rust

end Abnf
