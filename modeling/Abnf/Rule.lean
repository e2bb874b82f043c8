import Abnf.Element.Text
import Abnf.Element.Normal

/-
  Rules: named elements.

  Key definitions include:
    * `Abnf.Rule`
    * `Abnf.Rule.ofName`
    * `Abnf.Rule.check`
    * `Abnf.Rule.text`
    * `Abnf.Rule.normalize`
-/

------------------------------------------------------------
-- Rules
------------------------------------------------------------

namespace Abnf

/- A rule gives an element a name. -/
structure Rule where
  name : String
  element : Element
deriving DecidableEq, Inhabited

namespace Rule

/- A rule with a proper name. -/
def ofName
    (name : String)
    (element : Element) : Except ElementError Rule := do
  checkName name
  return ⟨name, element⟩

/- The same name for another element. -/
def withElement
    (rule : Rule)
    (element : Element) : Rule :=
  ⟨rule.name, element⟩

/- Name and element are well formed. -/
def check
    (rule : Rule) : Except ElementError Unit := do
  checkName rule.name
  rule.element.check

/- A rule in ABNF notation. -/
def text
    (rule : Rule) : String :=
  rule.name ++ " = " ++ rule.element.text

/- The rule with its element in normal form. -/
def normalize
    (rule : Rule) : Rule :=
  rule.withElement rule.element.normalize

end Rule

end Abnf
