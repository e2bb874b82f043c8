import Abnf.Rule

/-
  The core rules of ABNF, which every grammar may use, and
  the shorthands in which fixed grammars are written.

  Key definitions include:
    * `Abnf.Element.chars`
    * `Abnf.Element.range`
    * `Abnf.coreRules`
    * `Abnf.coreRule?`
-/

------------------------------------------------------------
-- Shorthands
------------------------------------------------------------

namespace Abnf

namespace Element

/- One of some characters. -/
def chars
    (cs : String) : Element :=
  terminal
    (cs.toList.foldl
      (fun s c => s ∪ CharSet.ofRange c c)
      CharSet.empty)

/- One character of a range. -/
def range
    (first last : Char) : Element :=
  terminal (CharSet.ofRange first last)

/- As many copies as there are, but `min` at least. -/
def atLeast
    (min : Nat)
    (body : Element) : Element :=
  repetition min none body

/- As many copies as there are. -/
def any
    (body : Element) : Element :=
  atLeast 0 body

end Element

end Abnf

------------------------------------------------------------
-- Core Rules
------------------------------------------------------------

namespace Abnf

open Element in
/- The core rules in the order of their names. -/
def coreRules : List Rule :=
  [⟨"ALPHA",
      alternation [range 'A' 'Z', range 'a' 'z']⟩,
   ⟨"BIT", chars "01"⟩,
   ⟨"CHAR", range '\x01' '\x7f'⟩,
   ⟨"CR", chars "\r"⟩,
   ⟨"CRLF",
      concatenation [ruleName "CR", ruleName "LF"]⟩,
   ⟨"CTL",
      alternation [range '\x00' '\x1f', chars "\x7f"]⟩,
   ⟨"DIGIT", range '0' '9'⟩,
   ⟨"DQUOTE", chars "\""⟩,
   ⟨"HEXDIG",
      alternation [ruleName "DIGIT", range 'A' 'F']⟩,
   ⟨"HTAB", chars "\t"⟩,
   ⟨"LF", chars "\n"⟩,
   ⟨"LWSP",
      any (alternation
        [ruleName "WSP",
         concatenation
           [ruleName "CRLF", ruleName "WSP"]])⟩,
   ⟨"OCTET", range '\x00' '\xff'⟩,
   ⟨"SP", chars " "⟩,
   ⟨"VCHAR", range '\x21' '\x7e'⟩,
   ⟨"WSP",
      alternation [ruleName "SP", ruleName "HTAB"]⟩]

/- The core rule of a name. -/
def coreRule?
    (name : String) : Option Rule :=
  coreRules.find? (·.name == name)

/- A core rule has the name. -/
def isCoreName
    (name : String) : Bool :=
  (coreRule? name).isSome

end Abnf
