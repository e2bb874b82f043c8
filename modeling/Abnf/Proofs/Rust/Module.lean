import Abnf.Proofs.Rust.Term

/-
  Modules: a type with functions, and a trait for those who
  listen to them.

  A module declares a type, a trait whose methods do nothing
  unless they are given, its implementation for `()`, and
  the functions of the type.

  Key definitions include:
    * `Abnf.Rust.Form`
    * `Abnf.Rust.Callback`
    * `Abnf.Rust.Function`
    * `Abnf.Rust.Module`
    * `Abnf.Rust.Module.ofText?`
    * `Abnf.Rust.bracesClose`
-/

------------------------------------------------------------
-- Modules
------------------------------------------------------------

namespace Abnf

namespace Rust

/- The type of a parameter. -/
inductive Form where
  /- `&[u8]` -/
  | bytes
  /- `usize` -/
  | size
  /- `&mut dyn ..` -/
  | listener (name : String)
  /- `Option<usize>` -/
  | found
deriving DecidableEq, Inhabited

/- A parameter of a function. -/
structure Parameter where
  name : String
  form : Form
deriving DecidableEq, Inhabited

/- A method of the trait, besides `&mut self`. -/
structure Callback where
  name : String
  parameters : List Parameter
deriving DecidableEq, Inhabited

/- A function of the type. -/
structure Function where
  name : String
  isPublic : Bool
  parameters : List Parameter
  result : Form
  body : Body
deriving Inhabited

/- What a module consists of. -/
inductive Item where
  /- `pub struct ..;` -/
  | type (name : String)
  /- `pub trait .. {..}` -/
  | trait (name : String) (callbacks : List Callback)
  /- `impl .. for () {}` -/
  | deaf (trait : String)
  /- `impl .. {..}` -/
  | functions (type : String) (functions : List Function)
deriving Inhabited

/- A module: a type, its listeners and its functions. -/
structure Module where
  name : String
  listener : String
  callbacks : List Callback
  functions : List Function
deriving Inhabited

end Rust

end Abnf

------------------------------------------------------------
-- Reading Modules
------------------------------------------------------------

namespace Abnf

namespace Rust

/- A type, and the tokens behind it. -/
def readForm : List Token → Option (Form × List Token)
  | .sign "&" :: .sign "[" :: .word "u8" ::
      .sign "]" :: rest => some (.bytes, rest)
  | .word "usize" :: rest => some (.size, rest)
  | .sign "&" :: .word "mut" :: .word "dyn" ::
      .word name :: rest => some (.listener name, rest)
  | .word "Option" :: .sign "<" :: .word "usize" ::
      .sign ">" :: rest => some (.found, rest)
  | _ => none

/- Parameters up to a closing parenthesis. -/
def readParameters :
    Nat → List Token → Option (List Parameter × List Token)
  | 0, _ => none
  | _ + 1, .sign ")" :: rest => some ([], rest)
  | fuel + 1, .word x :: .sign ":" :: rest => do
      let (form, rest) ← readForm rest
      match rest with
      | .sign "," :: rest =>
          let (others, rest) ← readParameters fuel rest
          return (⟨x, form⟩ :: others, rest)
      | .sign ")" :: rest => return ([⟨x, form⟩], rest)
      | _ => none
  | _, _ => none

/- Methods that do nothing, up to a closing brace. -/
def readCallbacks :
    Nat → List Token → Option (List Callback × List Token)
  | 0, _ => none
  | _ + 1, .sign "\x7d" :: rest => some ([], rest)
  | fuel + 1, .word "fn" :: .word name :: .sign "(" ::
      .sign "&" :: .word "mut" :: .word "self" ::
      .sign "," :: rest => do
      let (parameters, rest) ← readParameters fuel rest
      let rest ← after? "\x7d" (← after? "\x7b" rest)
      let (others, rest) ← readCallbacks fuel rest
      return (⟨name, parameters⟩ :: others, rest)
  | _, _ => none

/- A function behind the word `fn`. -/
def readFunction
    (fuel : Nat)
    (isPublic : Bool) :
    List Token → Option (Function × List Token)
  | .word name :: .sign "(" :: rest => do
      let (parameters, rest) ← readParameters fuel rest
      let (result, rest) ← readForm (← after? "->" rest)
      let (body, rest) ← readBody fuel (← after? "\x7b" rest)
      let function :=
        ⟨name, isPublic, parameters, result, body⟩
      return (function, rest)
  | _ => none

/- Functions up to a closing brace. -/
def readFunctions :
    Nat → List Token → Option (List Function × List Token)
  | 0, _ => none
  | _ + 1, .sign "\x7d" :: rest => some ([], rest)
  | fuel + 1, .word "pub" :: .word "fn" :: rest => do
      let (first, rest) ← readFunction fuel true rest
      let (others, rest) ← readFunctions fuel rest
      return (first :: others, rest)
  | fuel + 1, .word "fn" :: rest => do
      let (first, rest) ← readFunction fuel false rest
      let (others, rest) ← readFunctions fuel rest
      return (first :: others, rest)
  | _, _ => none

/- The tokens behind an attribute. -/
def afterAttribute
    (tokens : List Token) : List Token :=
  (tokens.dropWhile (· != .sign "]")).drop 1

/- The parts of a module. -/
def readItems :
    Nat → List Token → Option (List Item)
  | 0, _ => none
  | _ + 1, [] => some []
  | fuel + 1, .sign "#" :: .sign "[" :: rest =>
      readItems fuel (afterAttribute rest)
  | fuel + 1, .word "pub" :: .word "struct" ::
      .word name :: .sign ";" :: rest => do
      let others ← readItems fuel rest
      return .type name :: others
  | fuel + 1, .word "pub" :: .word "trait" ::
      .word name :: .sign "\x7b" :: rest => do
      let (callbacks, rest) ← readCallbacks fuel rest
      let others ← readItems fuel rest
      return .trait name callbacks :: others
  | fuel + 1, .word "impl" :: .word name :: .word "for" ::
      .sign "(" :: .sign ")" :: .sign "\x7b" ::
      .sign "\x7d" :: rest => do
      let others ← readItems fuel rest
      return .deaf name :: others
  | fuel + 1, .word "impl" :: .word name ::
      .sign "\x7b" :: rest => do
      let (functions, rest) ← readFunctions fuel rest
      let others ← readItems fuel rest
      return .functions name functions :: others
  | _, _ => none

namespace Module

/- The module of its parts. -/
def ofItems? : List Item → Option Module
  | [.type name, .trait listener callbacks,
      .deaf listener', .functions name' functions] =>
      if listener = listener' ∧ name = name' then
        some ⟨name, listener, callbacks, functions⟩
      else
        none
  | _ => none

/- The module of some tokens. -/
def ofTokens?
    (tokens : List Token) : Option Module := do
  ofItems? (← readItems (8 * tokens.length + 8) tokens)

/- The module of a text. -/
def ofText?
    (text : String) : Option Module := do
  ofTokens? (← tokens? text)

/- The labels of all functions. -/
def labels
    (module : Module) : List String :=
  module.functions.flatMap (·.body.labels)

end Module

end Rust

end Abnf

------------------------------------------------------------
-- Braces
------------------------------------------------------------

namespace Abnf

namespace Rust

/-
  The number of open braces after some tokens, if no brace
  is closed that is not open.
-/
def bracesClose : Nat → List Token → Option Nat
  | opened, [] => some opened
  | opened, .sign "\x7b" :: rest =>
      bracesClose (opened + 1) rest
  | 0, .sign "\x7d" :: _ => none
  | opened + 1, .sign "\x7d" :: rest => bracesClose opened rest
  | opened, _ :: rest => bracesClose opened rest

end Rust

end Abnf
