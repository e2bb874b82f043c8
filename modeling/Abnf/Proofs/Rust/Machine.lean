import Mathlib.Data.Nat.Bitwise
import Abnf.Proofs.Rust.Module

/-
  What modules do.

  A step changes the variables and gives a value, or leaves
  a labelled block or loop with one. What the methods of a
  listener are called with is noted down. A step that has no
  meaning, such as the sum of a number and a truth value or
  a shift by too many bits, gives nothing. A `usize` has no
  bound here; a number without a type takes the type of what
  it meets. `Some` and `None` are those of the language.

  Key definitions include:
    * `Abnf.Rust.Value`
    * `Abnf.Rust.Notice`
    * `Abnf.Rust.Machine`
    * `Abnf.Rust.Step`
    * `Abnf.Rust.Term.run`
    * `Abnf.Rust.Body.run`
    * `Abnf.Rust.Module.call`
-/

------------------------------------------------------------
-- Values
------------------------------------------------------------

namespace Abnf

namespace Rust

/- The type of a number. -/
inductive Kind where
  /- That of whatever the number meets. -/
  | literal
  | u8
  | u64
  | usize
deriving DecidableEq, Inhabited

namespace Kind

/- The type of a name. -/
def ofName? : String → Option Kind
  | "" => some literal
  | "u8" => some u8
  | "u64" => some u64
  | "usize" => some usize
  | _ => none

/- The numbers of the type are below two to the width. -/
def width? : Kind → Option Nat
  | u8 => some 8
  | u64 => some 64
  | _ => none

/- The number is one of the type. -/
def holds
    (kind : Kind)
    (n : Nat) : Bool :=
  kind.width?.all (n < 2 ^ ·)

/- The type of two numbers that meet. -/
def meet? : Kind → Kind → Option Kind
  | literal, kind => some kind
  | kind, literal => some kind
  | kind, kind' => if kind = kind' then some kind else none

end Kind

/- A value. -/
inductive Value where
  | unit
  | truth (b : Bool)
  | number (kind : Kind) (n : Nat)
  | nothing
  | just (value : Value)
  | borrowed (value : Value)
  | bytes (input : Array UInt8)
  /- The listener whose notices are written down. -/
  | listener
deriving Inhabited

namespace Value

/- An offset. -/
def size
    (n : Nat) : Value :=
  number .usize n

/- The end of a match, if there is one. -/
def ofStop : Option Nat → Value
  | some stop => just (size stop)
  | none => nothing

/- The value has the type. -/
def hasForm : Value → Form → Bool
  | bytes _, .bytes => true
  | number kind _, .size => kind = .literal || kind = .usize
  | listener, .listener _ => true
  | borrowed unit, .listener _ => true
  | nothing, .found => true
  | just (number .usize _), .found => true
  | _, _ => false

/- The value of a variable whose type is given. -/
def typed : Option String → Value → Option Value
  | none, value => some value
  | some name, number kind n => do
      let kind' ← Kind.ofName? name
      let kind ← kind.meet? kind'
      if kind.holds n then some (number kind n) else none
  | some _, _ => none

end Value

namespace Operator

/- A truth value of two numbers of one type. -/
def compare
    (test : Nat → Nat → Bool) : Value → Value → Option Value
  | .number kind m, .number kind' n => do
      let kind ← kind.meet? kind'
      if kind.holds m && kind.holds n then
        some (.truth (test m n))
      else
        none
  | _, _ => none

/- A number of two numbers of one type. -/
def combine
    (f : Nat → Nat → Option Nat) :
    Value → Value → Option Value
  | .number kind m, .number kind' n => do
      let kind ← kind.meet? kind'
      let result ← f m n
      if kind.holds m && kind.holds n &&
          kind.holds result then
        some (.number kind result)
      else
        none
  | _, _ => none

/- A number moved to the left by less than its width. -/
def shiftLeft : Value → Value → Option Value
  | .number kind m, .number _ n => do
      let width ← kind.width?
      if n < width then
        some (.number kind ((m <<< n) % 2 ^ width))
      else
        none
  | _, _ => none

/-
  The value of an operator. Both sides have a value here;
  `||` and `&&` look at the left side first.
-/
def apply : Operator → Value → Value → Option Value
  | equal => compare (· == ·)
  | different => compare (· != ·)
  | less => compare (fun m n => m < n)
  | atLeast => compare (fun m n => m ≥ n)
  | common => combine (fun m n => some (m &&& n))
  | plus => combine (fun m n => some (m + n))
  | minus =>
      combine
        (fun m n => if n ≤ m then some (m - n) else none)
  | shift => shiftLeft
  | _ => fun _ _ => none

end Operator

end Rust

end Abnf

------------------------------------------------------------
-- Steps
------------------------------------------------------------

namespace Abnf

namespace Rust

/- A callback and what it was called with. -/
structure Notice where
  callback : String
  arguments : List Value
deriving Inhabited

/- A variable. -/
structure Variable where
  name : String
  changes : Bool
  value : Value
deriving Inhabited

/- The variables, the last first, and the notices so far. -/
structure Machine where
  locals : List Variable
  notices : List Notice
deriving Inhabited

/- A way out of a block or loop. -/
structure Exit where
  label : String
  value : Value
deriving Inhabited

/- A step with a result, or a way out. -/
def Step (α : Type) : Type :=
  Machine → Option (Machine × Except Exit α)

namespace Step

variable {α β : Type}

/- The step has no meaning. -/
def stuck : Step α :=
  fun _ => none

/- Nothing happens. -/
def give (a : α) : Step α :=
  fun machine => some (machine, .ok a)

/- A step after another, unless that is a way out. -/
def chain
    (step : Step α)
    (next : α → Step β) : Step β :=
  fun machine =>
    match step machine with
    | some (machine, .ok a) => next a machine
    | some (machine, .error exit) =>
        some (machine, .error exit)
    | none => none

instance : Monad Step where
  pure := give
  bind := chain

/- A result that there may be. -/
def lift (result : Option α) : Step α :=
  match result with
  | some a => give a
  | none => stuck

/- A way out. -/
def leave (exit : Exit) : Step α :=
  fun machine => some (machine, .error exit)

/- Ways out to a label end here. -/
def catching
    (label : Option String)
    (step : Step Value) : Step Value :=
  fun machine =>
    match step machine with
    | some (machine, .error exit) =>
        if label = some exit.label then
          some (machine, .ok exit.value)
        else
          some (machine, .error exit)
    | result => result

/- Variables that come in are gone afterwards. -/
def inside (step : Step α) : Step α :=
  fun machine =>
    match step machine with
    | some (after, result) =>
        let added :=
          after.locals.length - machine.locals.length
        some
          ({ after with
              locals := after.locals.drop added },
           result)
    | none => none

/- The value of a variable. -/
def look (x : String) : Step Value :=
  fun machine =>
    match machine.locals.find? (·.name == x) with
    | some found => some (machine, .ok found.value)
    | none => none

/- A new variable. -/
def bind
    (x : String)
    (changes : Bool)
    (value : Value) : Step Unit :=
  fun machine =>
    some
      ({ machine with
          locals :=
            ⟨x, changes, value⟩ :: machine.locals },
       .ok ())

/- The last variable of a name takes a value. -/
def change
    (x : String)
    (value : Value) :
    List Variable → Option (List Variable)
  | [] => none
  | first :: rest =>
      if first.name = x then
        if first.changes then
          some ({ first with value := value } :: rest)
        else
          none
      else
        (change x value rest).map (first :: ·)

/- A variable that can change takes a value. -/
def assign
    (x : String)
    (value : Value) : Step Unit :=
  fun machine =>
    match change x value machine.locals with
    | some locals =>
        some ({ machine with locals := locals }, .ok ())
    | none => none

/- Notices are written down. -/
def note (notices : List Notice) : Step Unit :=
  fun machine =>
    some
      ({ machine with
          notices := machine.notices ++ notices },
       .ok ())

/- A body is done again while a test holds. -/
def repeating
    (test : Step Bool)
    (body : Step Value) : Nat → Step Value
  | 0 => stuck
  | rounds + 1 => do
      if ← test then
        let _ ← body
        repeating test body rounds
      else
        give .unit

end Step

end Rust

end Abnf

------------------------------------------------------------
-- The Steps Of Terms
------------------------------------------------------------

namespace Abnf

namespace Rust

/- What terms can call. -/
structure Host where
  /- The value of a function, and the notices on the way. -/
  call : String → List Value → Option (Value × List Notice)
  /- The methods of listeners. -/
  callbacks : List Callback

namespace Host

/- The values fit the parameters. -/
def fits
    (parameters : List Parameter)
    (values : List Value) : Bool :=
  parameters.length == values.length &&
    (values.zip parameters).all
      (fun (value, parameter) =>
        value.hasForm parameter.form)

/- Listeners have a method for the values. -/
def hears
    (host : Host)
    (name : String)
    (values : List Value) : Bool :=
  host.callbacks.any
    (fun callback =>
      callback.name == name &&
        fits callback.parameters values)

/- The call of a function. -/
def function
    (host : Host)
    (name : String)
    (values : List Value) : Step Value := do
  let (value, notices) ← Step.lift (host.call name values)
  Step.note notices
  return value

/- The call of a method of a value. -/
def method
    (host : Host)
    (receiver : Value)
    (name : String)
    (values : List Value) : Step Value :=
  match receiver, values with
  | .bytes input, [.number kind i] =>
      if name = "get" ∧ kind ≠ .u8 ∧ kind ≠ .u64 then
        match input[i]? with
        | some b =>
            Step.give
              (.just (.borrowed (.number .u8 b.toNat)))
        | none => Step.give .nothing
      else
        Step.stuck
  | .just _, [] =>
      if name = "is_some" then Step.give (.truth true)
      else Step.stuck
  | .nothing, [] =>
      if name = "is_some" then Step.give (.truth false)
      else Step.stuck
  | .number kind m, [.number kind' n] =>
      if name = "max" then
        Step.lift
          (Operator.combine (fun m n => some (max m n))
            (.number kind m) (.number kind' n))
      else
        Step.stuck
  | .listener, values =>
      if host.hears name values then do
        Step.note [⟨name, values⟩]
        return .unit
      else
        Step.stuck
  | .borrowed .unit, values =>
      if host.hears name values then Step.give .unit
      else Step.stuck
  | _, _ => Step.stuck

end Host

/- The truth value that a value is. -/
def Value.asTruth : Value → Step Bool
  | .truth b => Step.give b
  | _ => Step.stuck

/- The variables that a pattern makes of a value. -/
def Pattern.bind? :
    Pattern → Value → Option (Option (String × Value))
  | .just x, .just value => some (some (x, value))
  | .justRef x, .just (.borrowed value) =>
      some (some (x, value))
  | .nothing, .nothing => some none
  | .any, _ => some none
  | _, _ => none

/- The variable of a pattern comes in. -/
def Pattern.enter : Option (String × Value) → Step Unit
  | some (x, value) => Step.bind x false value
  | none => Step.give ()

mutual

/-
  What a term does. Loops go through a number of rounds at
  most.
-/
def Term.run
    (host : Host)
    (rounds : Nat) : Term → Step Value
  | .name x => Step.look x
  | .number n kind => do
      let kind ← Step.lift (Kind.ofName? kind)
      return .number kind n
  | .byte b => Step.give (.number .u8 b.toNat)
  | .truth b => Step.give (.truth b)
  | .unit => Step.give .unit
  | .nothing => Step.give .nothing
  | .just value => do
      return .just (← value.run host rounds)
  | .borrow value => do
      return .borrowed (← value.run host rounds)
  | .operate .or left right => do
      if ← (← left.run host rounds).asTruth then
        return .truth true
      else
        return .truth
          (← (← right.run host rounds).asTruth)
  | .operate .and left right => do
      if ← (← left.run host rounds).asTruth then
        return .truth
          (← (← right.run host rounds).asTruth)
      else
        return .truth false
  | .operate operator left right => do
      let value ← left.run host rounds
      let value' ← right.run host rounds
      Step.lift (operator.apply value value')
  | .method receiver name arguments => do
      let value ← receiver.run host rounds
      let values ← runAll host rounds arguments
      host.method value name values
  | .call name arguments => do
      let values ← runAll host rounds arguments
      host.function name values
  | .assign x value => do
      Step.assign x (← value.run host rounds)
      return .unit
  | .increase x value => do
      let added ← value.run host rounds
      let before ← Step.look x
      let after ←
        Step.lift (Operator.plus.apply before added)
      Step.assign x after
      return .unit
  | .block label body =>
      Step.catching label
        (Step.inside (body.run host rounds))
  | .loop label body =>
      Step.catching (some label)
        (Step.repeating (Step.give true)
          (Step.inside (body.run host rounds)) rounds)
  | .while label test body =>
      Step.catching (some label)
        (Step.repeating
          (Step.chain (test.run host rounds) Value.asTruth)
          (Step.inside (body.run host rounds)) rounds)
  | .select subject arms => do
      arms.run host rounds (← subject.run host rounds)
  | .when test body => do
      if ← (← test.run host rounds).asTruth then
        Step.inside (body.run host rounds)
      else
        return .unit
  | .leave label => Step.leave ⟨label, .unit⟩
  | .leaveWith label value => do
      Step.leave ⟨label, ← value.run host rounds⟩

/- The values of some terms, from left to right. -/
def runAll
    (host : Host)
    (rounds : Nat) : List Term → Step (List Value)
  | [] => Step.give []
  | term :: rest => do
      let value ← term.run host rounds
      return value :: (← runAll host rounds rest)

/- What a body does. -/
def Body.run
    (host : Host)
    (rounds : Nat) : Body → Step Value
  | .done => Step.give .unit
  | .value term => term.run host rounds
  | .bind x changes kind value rest => do
      let value ← value.run host rounds
      Step.bind x changes
        (← Step.lift (Value.typed kind value))
      rest.run host rounds
  | .perform term rest => do
      let _ ← term.run host rounds
      rest.run host rounds

/- What the first arm does that a value fits. -/
def Arms.run
    (host : Host)
    (rounds : Nat) : Arms → Value → Step Value
  | .none, _ => Step.stuck
  | .plain pattern value rest, subject =>
      match pattern.bind? subject with
      | some bound =>
          Step.inside
            (Step.chain (Pattern.enter bound)
              (fun _ => value.run host rounds))
      | none => rest.run host rounds subject
  | .guarded pattern guard value rest, subject =>
      match pattern.bind? subject with
      | some bound => do
          let taken ←
            Step.inside
              (Step.chain (Pattern.enter bound) fun _ => do
                if ← (← guard.run host rounds).asTruth then
                  return some (← value.run host rounds)
                else
                  return none)
          match taken with
          | some result => return result
          | none => rest.run host rounds subject
      | none => rest.run host rounds subject

end

-- The equations are made here, once for all proofs.
attribute [local simp]
  Term.run runAll Body.run Arms.run

end Rust

end Abnf

------------------------------------------------------------
-- The Functions Of Modules
------------------------------------------------------------

namespace Abnf

namespace Rust

namespace Module

/- The variables of parameters. -/
def bindAll
    (parameters : List Parameter)
    (values : List Value) : List Variable :=
  List.zipWith
    (fun parameter value => ⟨parameter.name, false, value⟩)
    parameters values

/-
  The value of a function and the notices on the way, with
  at most `depth` calls open at once and `rounds` rounds of
  a loop.
-/
def callWithin
    (module : Module)
    (rounds : Nat) :
    Nat → String → List Value →
      Option (Value × List Notice)
  | 0, _, _ => none
  | depth + 1, name, values => do
      let function ←
        module.functions.find? (·.name == name)
      if Host.fits function.parameters values then
        let (machine, result) ←
          function.body.run
            ⟨callWithin module rounds depth,
              module.callbacks⟩
            rounds
            ⟨bindAll function.parameters values, []⟩
        match result with
        | .ok value =>
            if value.hasForm function.result then
              some (value, machine.notices)
            else
              none
        | .error _ => none
      else
        none

/- The same with one limit for calls and rounds. -/
def call
    (module : Module)
    (limit : Nat)
    (name : String)
    (values : List Value) :
    Option (Value × List Notice) :=
  module.callWithin limit limit name values

end Module

end Rust

end Abnf
