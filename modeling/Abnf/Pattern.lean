import Abnf.Pattern.Reader
import Abnf.Pattern.Size
import Abnf.Pattern.Spans

/-
  Patterns for file names.

  A pattern is an expression that neither nests too deep nor
  takes too much memory. A name matches when some stretch of
  it is as the expression says.

  Key definitions include:
    * `Abnf.Pattern.isUsable`
    * `Abnf.Pattern.parse?`
    * `Abnf.Pattern.isMatch`
-/

------------------------------------------------------------
-- Patterns
------------------------------------------------------------

namespace Abnf

/- An expression to look for. -/
structure Pattern where
  expr : Pattern.Expr

namespace Pattern

/- Expressions nest no deeper than this. -/
def depthLimit : Nat := 250

/- An expression can be used. -/
def isUsable
    (expr : Expr) : Bool :=
  expr.depth ≤ depthLimit && expr.searchSize ≤ sizeLimit

/- The pattern of a text. -/
def parse?
    (text : String) : Option Pattern :=
  ((read? text).filter isUsable).map Pattern.mk

/- Some stretch of the name is as the pattern says. -/
def isMatch
    (pattern : Pattern)
    (name : String) : Bool :=
  pattern.expr.isFound name

end Pattern

end Abnf
