/-
  Records of what a program does.

  Key definitions include:
    * `Abnf.Level`
    * `Abnf.Record`
-/

------------------------------------------------------------
-- Records
------------------------------------------------------------

namespace Abnf

/- How much a record matters, the weightiest first. -/
inductive Level where
  | error
  | warn
  | info
  | debug
  | trace
deriving DecidableEq, Inhabited

namespace Level

/- The levels in order, from zero. -/
def rank : Level → Nat
  | error => 0
  | warn => 1
  | info => 2
  | debug => 3
  | trace => 4

/- The word that marks records of a level. -/
def word : Level → String
  | error => "ERROR"
  | warn => "WARN"
  | info => "INFO"
  | debug => "DEBUG"
  | trace => "TRACE"

end Level

/- A message and how much it matters. -/
structure Record where
  level : Level
  message : String
deriving DecidableEq, Inhabited

end Abnf
