import Abnf.Text.Property

/-
  Code points that are shown as they are.

  Controls, format characters, blanks, private use and
  unassigned code points are not, and neither are characters
  that only add to the one before them or that are ignored
  where they are not supported.

  Key definitions include:
    * `Abnf.Text.isShown`
-/

------------------------------------------------------------
-- Shown Code Points
------------------------------------------------------------

namespace Abnf

namespace Text

/- The categories of which nothing is shown. -/
def hiddenCategories : List Category :=
  [.control, .format, .surrogate, .privateUse, .unassigned,
   .spaceSeparator, .lineSeparator, .paragraphSeparator]

/-
  A code point only adds to the character before it. Letters
  that do so still stand for themselves.
-/
def isCombining
    (code : Nat) : Bool :=
  Property.graphemeExtend.members.has code &&
    Category.ofCode code != .modifierLetter

/- A code point is shown as it is. Of the blanks one is. -/
def isShown
    (code : Nat) : Bool :=
  code = 0x20 ||
    !(hiddenCategories.contains (Category.ofCode code) ||
      isCombining code ||
      Property.defaultIgnorable.members.has code)

end Text

end Abnf
