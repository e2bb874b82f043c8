import Abnf.Text.Property
import Abnf.Text.Writing

/-
  Sets of characters that have names.

  Some sets hold ASCII characters only. The others are named
  by a property, a category or a script of Unicode.

  Key definitions include:
    * `Abnf.Pattern.asciiNamed?`
    * `Abnf.Pattern.unicodeNamed?`
    * `Abnf.Pattern.unicodeValued?`
    * `Abnf.Pattern.Kind`
-/

------------------------------------------------------------
-- ASCII Sets
------------------------------------------------------------

namespace Abnf

namespace Pattern

/- The characters between the characters of some pairs. -/
def between
    (pairs : List (Char × Char)) : Runs :=
  .ofList
    (pairs.map (fun pair => (pair.1.toNat, pair.2.toNat)))

def asciiDigits : Runs :=
  between [('0', '9')]

def asciiBlanks : Runs :=
  between [('\t', '\r'), (' ', ' ')]

def asciiWord : Runs :=
  between [('0', '9'), ('A', 'Z'), ('_', '_'), ('a', 'z')]

/- The ASCII set of a name. -/
def asciiNamed?
    (name : String) : Option Runs :=
  [("alnum",
     between [('0', '9'), ('A', 'Z'), ('a', 'z')]),
   ("alpha", between [('A', 'Z'), ('a', 'z')]),
   ("ascii", .range 0 0x7F),
   ("blank", between [('\t', '\t'), (' ', ' ')]),
   ("cntrl", .ofList [(0, 0x1F), (0x7F, 0x7F)]),
   ("digit", asciiDigits),
   ("graph", between [('!', '~')]),
   ("lower", between [('a', 'z')]),
   ("print", between [(' ', '~')]),
   ("punct",
     between
       [('!', '/'), (':', '@'), ('[', '\x60'),
        ('\x7b', '~')]),
   ("space", asciiBlanks),
   ("upper", between [('A', 'Z')]),
   ("word", asciiWord),
   ("xdigit",
     between [('0', '9'), ('A', 'F'), ('a', 'f')])].lookup
    name

end Pattern

end Abnf

------------------------------------------------------------
-- Unicode Sets
------------------------------------------------------------

namespace Abnf

namespace Pattern

/- The decimal digits of all scripts. -/
def digits : Runs :=
  Category.members [.decimalNumber]

/- The blanks of all scripts. -/
def blanks : Runs :=
  Property.whiteSpace.members

/- The characters that words are made of. -/
def wordLetters : Runs :=
  Runs.unionAll
    [Property.alphabetic.members,
     Category.members
       (Category.marks ++
         [.decimalNumber, .connectorPunctuation]),
     Property.joinControl.members]

/- The character is a blank. -/
def isBlank
    (c : Char) : Bool :=
  blanks.has c.toNat

/- A name without blanks and lines, in small letters. -/
def bareName
    (name : List Char) : List Char :=
  (name.filter
    (fun c =>
      c.toNat < 128 && !([' ', '_', '-'].contains c))).map
    (·.toLower)

/-
  A name as it stands in the tables. The word `is` before it
  is dropped, unless nothing but the letter of one category
  would be left.
-/
def tableName
    (name : List Char) : String :=
  let word := String.ofList (bareName (name.drop 2))
  if (name.take 2).map (·.toLower) = ['i', 's'] then
    if word = "c" then "isc" else word
  else
    String.ofList (bareName name)

/- The names of categories that look like other names. -/
def categoryFirst : List String :=
  ["cf", "sc", "lc"]

/- The set of a name: a property, a category or a script. -/
def unicodeNamed?
    (name : List Char) : Option Runs :=
  let name := tableName name
  let property :=
    if categoryFirst.contains name then
      none
    else
      Property.named? name
  (property.or (Category.named? name)).or
    ((Writing.number? name).map Writing.members)

/- The set of the characters with a value for a name. -/
def unicodeValued?
    (name value : List Char) : Option Runs :=
  let name := tableName name
  let value := tableName value
  if name = "gc" ∨ name = "generalcategory" then
    Category.named? value
  else if name = "sc" ∨ name = "script" then
    (Writing.number? value).map Writing.members
  else if name = "scx" ∨ name = "scriptextensions" then
    (Writing.number? value).map Writing.extended
  else
    none

end Pattern

end Abnf
