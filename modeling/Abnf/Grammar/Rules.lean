import Abnf.Program

/-
  The grammar of grammar texts, written as rules.

  The rules are those of ABNF for itself, with a mark for
  letter case before quoted texts. They are arranged so that
  the first part of a choice that matches is the intended
  one: a count with `*` comes before a bare count, and `=/`
  before `=`.

  Key definitions include:
    * `Abnf.Grammar.rules`
    * `Abnf.Grammar.program`
-/

------------------------------------------------------------
-- Shapes
------------------------------------------------------------

namespace Abnf

namespace Grammar

open Element

/- Any blanks, line ends with a blank and comments. -/
def blanks : Element :=
  any (ruleName "c-wsp")

/- An alternation between two brackets. -/
def enclosed
    (first last : Char) : Element :=
  concatenation
    [range first first,
     blanks,
     ruleName "alternation",
     blanks,
     range last last]

/- The digits of a number, one at least. -/
def digits
    (digit : String) : Element :=
  atLeast 1 (ruleName digit)

/-
  A letter for the base and a number; then more numbers
  after dots, or the end of a range after a dash.
-/
def numeric
    (letters digit : String) : Element :=
  concatenation
    [chars letters,
     digits digit,
     optional
       (alternation
         [atLeast 1
            (concatenation [chars ".", digits digit]),
          concatenation [chars "-", digits digit]])]

/- A percent sign and one of some letters. -/
def mark
    (letters : String) : Element :=
  concatenation [chars "%", chars letters]

end Grammar

end Abnf

------------------------------------------------------------
-- Rules
------------------------------------------------------------

namespace Abnf

namespace Grammar

open Element in
/- The rules of rules. -/
def ruleRules : List Rule :=
  [⟨"rulelist",
      atLeast 1
        (alternation
          [ruleName "rule",
           concatenation [blanks, ruleName "c-nl"]])⟩,
   ⟨"rule",
      concatenation
        [ruleName "rulename",
         ruleName "defined-as",
         ruleName "elements",
         ruleName "c-nl"]⟩,
   ⟨"rulename",
      concatenation
        [ruleName "ALPHA",
         any
           (alternation
             [ruleName "ALPHA",
              ruleName "DIGIT",
              chars "-"])]⟩,
   ⟨"defined-as",
      concatenation
        [blanks,
         alternation
           [concatenation [chars "=", chars "/"],
            chars "="],
         blanks]⟩,
   ⟨"elements",
      concatenation [ruleName "alternation", blanks]⟩,
   ⟨"c-wsp",
      alternation
        [ruleName "WSP",
         concatenation
           [ruleName "c-nl", ruleName "WSP"]]⟩,
   ⟨"c-nl",
      alternation [ruleName "comment", ruleName "CRLF"]⟩,
   ⟨"comment",
      concatenation
        [chars ";",
         any
           (alternation
             [ruleName "WSP", ruleName "VCHAR"]),
         ruleName "CRLF"]⟩]

open Element in
/- The rules of elements. -/
def elementRules : List Rule :=
  [⟨"alternation",
      concatenation
        [ruleName "concatenation",
         any
           (concatenation
             [blanks,
              chars "/",
              blanks,
              ruleName "concatenation"])]⟩,
   ⟨"concatenation",
      concatenation
        [ruleName "repetition",
         any
           (concatenation
             [atLeast 1 (ruleName "c-wsp"),
              ruleName "repetition"])]⟩,
   ⟨"repetition",
      concatenation
        [optional (ruleName "repeat"),
         ruleName "element"]⟩,
   ⟨"repeat",
      alternation
        [concatenation
           [any (ruleName "DIGIT"),
            chars "*",
            any (ruleName "DIGIT")],
         digits "DIGIT"]⟩,
   ⟨"element",
      alternation
        [ruleName "rulename",
         ruleName "group",
         ruleName "option",
         ruleName "char-val",
         ruleName "num-val",
         ruleName "prose-val"]⟩,
   ⟨"group", enclosed '(' ')'⟩,
   ⟨"option", enclosed '[' ']'⟩]

open Element in
/- The rules of literal values. -/
def valueRules : List Rule :=
  [⟨"char-val",
      alternation
        [ruleName "case-insensitive-string",
         ruleName "case-sensitive-string"]⟩,
   ⟨"case-insensitive-string",
      concatenation
        [optional (mark "Ii"), ruleName "quoted-string"]⟩,
   ⟨"case-sensitive-string",
      concatenation
        [mark "Ss", ruleName "quoted-string"]⟩,
   ⟨"quoted-string",
      concatenation
        [ruleName "DQUOTE",
         any
           (alternation
             [range '\x20' '\x21', range '\x23' '\x7e']),
         ruleName "DQUOTE"]⟩,
   ⟨"num-val",
      concatenation
        [chars "%",
         alternation
           [ruleName "bin-val",
            ruleName "dec-val",
            ruleName "hex-val"]]⟩,
   ⟨"bin-val", numeric "Bb" "BIT"⟩,
   ⟨"dec-val", numeric "Dd" "DIGIT"⟩,
   ⟨"hex-val", numeric "Xx" "HEXDIG"⟩,
   ⟨"prose-val",
      concatenation
        [chars "<",
         any
           (alternation
             [range '\x20' '\x3d', range '\x3f' '\x7e']),
         chars ">"]⟩]

/- The grammar of grammar texts. -/
def rules : List Rule :=
  ruleRules ++ elementRules ++ valueRules

/- The program that matches grammar texts. -/
def program : Except GenerationError Program :=
  Program.ofRules rules

end Grammar

end Abnf
