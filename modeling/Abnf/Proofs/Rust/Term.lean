import Abnf.Proofs.Rust.Token

/-
  The terms of the part of Rust in which parsers are
  written, and how they are read from tokens.

  A body is a chain of statements that may end in a value.
  Terms that end in a brace stand as statements without a
  semicolon. Operators bind as in Rust; assignments and
  `break` bind least.

  Key definitions include:
    * `Abnf.Rust.Term`
    * `Abnf.Rust.Body`
    * `Abnf.Rust.Arms`
    * `Abnf.Rust.Term.labels`
    * `Abnf.Rust.Term.leavesWithin`
    * `Abnf.Rust.readTerm`
    * `Abnf.Rust.readBody`
-/

------------------------------------------------------------
-- Terms
------------------------------------------------------------

namespace Abnf

namespace Rust

/- The operators. -/
inductive Operator where
  | or
  | and
  | equal
  | different
  | less
  | atLeast
  | common
  | shift
  | plus
  | minus
deriving DecidableEq, Inhabited

/- What a value is held against. -/
inductive Pattern where
  /- `Some(x)` -/
  | just (x : String)
  /- `Some(&x)` -/
  | justRef (x : String)
  /- `None` -/
  | nothing
  /- `_` -/
  | any
deriving DecidableEq, Inhabited

mutual

/- A term. -/
inductive Term where
  /- The value of a variable. -/
  | name (x : String)
  /- A number, of a type if one is given. -/
  | number (value : Nat) (kind : String)
  /- A byte. -/
  | byte (value : UInt8)
  /- `true` or `false`. -/
  | truth (value : Bool)
  /- `()` -/
  | unit
  /- `None` -/
  | nothing
  /- `Some(..)` -/
  | just (value : Term)
  /- `&mut ..` -/
  | borrow (value : Term)
  /- Two terms and an operator between them. -/
  | operate (operator : Operator) (left right : Term)
  /- The call of a method of a value. -/
  | method
      (receiver : Term)
      (name : String)
      (arguments : List Term)
  /- `Self::f(..)` -/
  | call (name : String) (arguments : List Term)
  /- `x = ..` -/
  | assign (x : String) (value : Term)
  /- `x += ..` -/
  | increase (x : String) (value : Term)
  /- A block, with a label if there is one. -/
  | block (label : Option String) (body : Body)
  /- `'l: loop {..}` -/
  | loop (label : String) (body : Body)
  /- `'l: while .. {..}` -/
  | while (label : String) (test : Term) (body : Body)
  /- `match .. {..}` -/
  | select (subject : Term) (arms : Arms)
  /- `if .. {..}` -/
  | when (test : Term) (body : Body)
  /- `break 'l` -/
  | leave (label : String)
  /- `break 'l ..` -/
  | leaveWith (label : String) (value : Term)

/- What stands between the braces of a block. -/
inductive Body where
  /- Nothing more. -/
  | done
  /- The value of the block. -/
  | value (term : Term)
  /- `let x = ..;` or `let mut x = ..;`, then the rest. -/
  | bind
      (x : String)
      (changes : Bool)
      (kind : Option String)
      (value : Term)
      (rest : Body)
  /- A statement, then the rest. -/
  | perform (term : Term) (rest : Body)

/- What stands between the braces of a `match`. -/
inductive Arms where
  /- No arm. -/
  | none
  /- `pattern => ..`, then the other arms. -/
  | plain (pattern : Pattern) (value : Term) (rest : Arms)
  /- `pattern if guard => ..`, then the other arms. -/
  | guarded
      (pattern : Pattern)
      (guard value : Term)
      (rest : Arms)

end

instance : Inhabited Term := ⟨.unit⟩

instance : Inhabited Body := ⟨.done⟩

instance : Inhabited Arms := ⟨.none⟩

/-
  A body behind a term that ends in a brace: the last such
  term is the value.
-/
def Body.behind
    (term : Term) : Body → Body
  | .done => .value term
  | rest => .perform term rest

end Rust

end Abnf

------------------------------------------------------------
-- Labels
------------------------------------------------------------

namespace Abnf

namespace Rust

mutual

/- The labels of blocks and loops, in order. -/
def Term.labels : Term → List String
  | .just value => value.labels
  | .borrow value => value.labels
  | .operate _ left right => left.labels ++ right.labels
  | .method receiver _ arguments =>
      receiver.labels ++ labelsOfAll arguments
  | .call _ arguments => labelsOfAll arguments
  | .assign _ value => value.labels
  | .increase _ value => value.labels
  | .block label body => label.toList ++ body.labels
  | .loop label body => label :: body.labels
  | .while label test body =>
      label :: (test.labels ++ body.labels)
  | .select subject arms => subject.labels ++ arms.labels
  | .when test body => test.labels ++ body.labels
  | .leaveWith _ value => value.labels
  | _ => []

/- The labels in some terms. -/
def labelsOfAll : List Term → List String
  | [] => []
  | term :: rest => term.labels ++ labelsOfAll rest

/- The labels in a body. -/
def Body.labels : Body → List String
  | .done => []
  | .value term => term.labels
  | .bind _ _ _ value rest => value.labels ++ rest.labels
  | .perform term rest => term.labels ++ rest.labels

/- The labels in some arms. -/
def Arms.labels : Arms → List String
  | .none => []
  | .plain _ value rest => value.labels ++ rest.labels
  | .guarded _ guard value rest =>
      guard.labels ++ value.labels ++ rest.labels

end

mutual

/-
  Every `break` names the label of a block or loop around
  it; `around` holds the labels from further out.
-/
def Term.leavesWithin
    (around : List String) : Term → Bool
  | .just value => value.leavesWithin around
  | .borrow value => value.leavesWithin around
  | .operate _ left right =>
      left.leavesWithin around && right.leavesWithin around
  | .method receiver _ arguments =>
      receiver.leavesWithin around &&
        allLeaveWithin around arguments
  | .call _ arguments => allLeaveWithin around arguments
  | .assign _ value => value.leavesWithin around
  | .increase _ value => value.leavesWithin around
  | .block label body =>
      body.leavesWithin (label.toList ++ around)
  | .loop label body => body.leavesWithin (label :: around)
  | .while label test body =>
      test.leavesWithin (label :: around) &&
        body.leavesWithin (label :: around)
  | .select subject arms =>
      subject.leavesWithin around &&
        arms.leavesWithin around
  | .when test body =>
      test.leavesWithin around && body.leavesWithin around
  | .leave label => around.contains label
  | .leaveWith label value =>
      around.contains label && value.leavesWithin around
  | _ => true

/- The same for some terms. -/
def allLeaveWithin
    (around : List String) : List Term → Bool
  | [] => true
  | term :: rest =>
      term.leavesWithin around && allLeaveWithin around rest

/- The same for a body. -/
def Body.leavesWithin
    (around : List String) : Body → Bool
  | .done => true
  | .value term => term.leavesWithin around
  | .bind _ _ _ value rest =>
      value.leavesWithin around && rest.leavesWithin around
  | .perform term rest =>
      term.leavesWithin around && rest.leavesWithin around

/- The same for some arms. -/
def Arms.leavesWithin
    (around : List String) : Arms → Bool
  | .none => true
  | .plain _ value rest =>
      value.leavesWithin around && rest.leavesWithin around
  | .guarded _ guard value rest =>
      guard.leavesWithin around &&
        value.leavesWithin around &&
        rest.leavesWithin around

end

end Rust

end Abnf

------------------------------------------------------------
-- Reading Terms
------------------------------------------------------------

namespace Abnf

namespace Rust

/- The operator of a sign. -/
def operator? : String → Option Operator
  | "||" => some .or
  | "&&" => some .and
  | "==" => some .equal
  | "!=" => some .different
  | "<" => some .less
  | ">=" => some .atLeast
  | "&" => some .common
  | "<<" => some .shift
  | "+" => some .plus
  | "-" => some .minus
  | _ => none

/- How tightly an operator binds. -/
def Operator.level : Operator → Nat
  | or => 1
  | and => 2
  | equal => 3
  | different => 3
  | less => 3
  | atLeast => 3
  | common => 4
  | shift => 5
  | plus => 6
  | minus => 6

/- The operator at the start of some tokens. -/
def operatorAt? : List Token → Option (Operator × List Token)
  | .sign text :: rest => (operator? text).map (·, rest)
  | _ => none

/- The tokens behind a sign. -/
def after?
    (sign : String) : List Token → Option (List Token)
  | .sign text :: rest =>
      if text = sign then some rest else none
  | _ => none

/- Nothing of a term stands at the start of the tokens. -/
def endsHere : List Token → Bool
  | .sign text :: _ => [";", ",", "\x7d", ")"].contains text
  | [] => true
  | _ => false

/- The tokens start with a term that ends in a brace. -/
def startsBlock : List Token → Bool
  | .label _ :: _ => true
  | .word "match" :: _ => true
  | .word "if" :: _ => true
  | .sign "\x7b" :: _ => true
  | _ => false

/- A pattern, and the tokens behind it. -/
def readPattern : List Token → Option (Pattern × List Token)
  | .word "Some" :: .sign "(" :: .word x ::
      .sign ")" :: rest => some (.just x, rest)
  | .word "Some" :: .sign "(" :: .sign "&" :: .word x ::
      .sign ")" :: rest => some (.justRef x, rest)
  | .word "None" :: rest => some (.nothing, rest)
  | .word "_" :: rest => some (.any, rest)
  | _ => none

mutual

/-
  A term at the start of some tokens, and the tokens behind
  it. The number limits how deep the readers call each other.
-/
def readTerm :
    Nat → List Token → Option (Term × List Token)
  | 0, _ => none
  | fuel + 1, .word "break" :: .label label :: rest =>
      if endsHere rest then
        some (.leave label, rest)
      else do
        let (value, rest) ← readTerm fuel rest
        return (.leaveWith label value, rest)
  | fuel + 1, .word x :: .sign "=" :: rest => do
      let (value, rest) ← readTerm fuel rest
      return (.assign x value, rest)
  | fuel + 1, .word x :: .sign "+=" :: rest => do
      let (value, rest) ← readTerm fuel rest
      return (.increase x value, rest)
  | fuel + 1, tokens => readFrom fuel 0 tokens

/- A term whose operators have a level at least. -/
def readFrom :
    Nat → Nat → List Token → Option (Term × List Token)
  | 0, _, _ => none
  | fuel + 1, level, tokens => do
      let (left, rest) ← readOperand fuel tokens
      readChain fuel level left rest

/- The operators and operands behind a first operand. -/
def readChain :
    Nat → Nat → Term → List Token →
      Option (Term × List Token)
  | 0, _, _, _ => none
  | fuel + 1, level, left, tokens =>
      match operatorAt? tokens with
      | some (operator, rest) =>
          if level ≤ operator.level then do
            let (right, rest) ←
              readFrom fuel (operator.level + 1) rest
            readChain fuel level
              (.operate operator left right) rest
          else
            some (left, tokens)
      | none => some (left, tokens)

/- A term without operators outside of brackets. -/
def readOperand :
    Nat → List Token → Option (Term × List Token)
  | 0, _ => none
  | fuel + 1, .sign "&" :: .word "mut" :: rest => do
      let (value, rest) ← readOperand fuel rest
      return (.borrow value, rest)
  | _ + 1, .sign "(" :: .sign ")" :: rest =>
      some (.unit, rest)
  | fuel + 1, .sign "(" :: rest => do
      let (term, rest) ← readTerm fuel rest
      return (term, ← after? ")" rest)
  | _ + 1, .number value kind :: rest =>
      some (.number value kind, rest)
  | _ + 1, .byte value :: rest => some (.byte value, rest)
  | _ + 1, .word "true" :: rest => some (.truth true, rest)
  | _ + 1, .word "false" :: rest =>
      some (.truth false, rest)
  | _ + 1, .word "None" :: rest => some (.nothing, rest)
  | fuel + 1, .word "Some" :: .sign "(" :: rest => do
      let (value, rest) ← readTerm fuel rest
      return (.just value, ← after? ")" rest)
  | fuel + 1, .word "Self" :: .sign "::" :: .word f ::
      .sign "(" :: rest => do
      let (arguments, rest) ← readArguments fuel rest
      return (.call f arguments, rest)
  | fuel + 1, .word x :: .sign "." :: .word f ::
      .sign "(" :: rest => do
      let (arguments, rest) ← readArguments fuel rest
      return (.method (.name x) f arguments, rest)
  | fuel + 1, tokens =>
      if startsBlock tokens then
        readBlock fuel tokens
      else
        match tokens with
        | .word x :: rest =>
            if Source.keywords.contains x then none
            else some (.name x, rest)
        | _ => none

/- Terms up to a closing parenthesis. -/
def readArguments :
    Nat → List Token → Option (List Term × List Token)
  | 0, _ => none
  | _ + 1, .sign ")" :: rest => some ([], rest)
  | fuel + 1, tokens => do
      let (first, rest) ← readTerm fuel tokens
      match rest with
      | .sign "," :: rest =>
          let (others, rest) ← readArguments fuel rest
          return (first :: others, rest)
      | .sign ")" :: rest => return ([first], rest)
      | _ => none

/- A term that ends in a brace. -/
def readBlock :
    Nat → List Token → Option (Term × List Token)
  | 0, _ => none
  | fuel + 1, .label label :: .sign ":" ::
      .sign "\x7b" :: rest => do
      let (body, rest) ← readBody fuel rest
      return (.block (some label) body, rest)
  | fuel + 1, .label label :: .sign ":" ::
      .word "loop" :: .sign "\x7b" :: rest => do
      let (body, rest) ← readBody fuel rest
      return (.loop label body, rest)
  | fuel + 1, .label label :: .sign ":" ::
      .word "while" :: rest => do
      let (test, rest) ← readFrom fuel 0 rest
      let (body, rest) ←
        readBody fuel (← after? "\x7b" rest)
      return (.while label test body, rest)
  | fuel + 1, .word "match" :: rest => do
      let (subject, rest) ← readFrom fuel 0 rest
      let (arms, rest) ← readArms fuel (← after? "\x7b" rest)
      return (.select subject arms, rest)
  | fuel + 1, .word "if" :: rest => do
      let (test, rest) ← readFrom fuel 0 rest
      let (body, rest) ←
        readBody fuel (← after? "\x7b" rest)
      return (.when test body, rest)
  | fuel + 1, .sign "\x7b" :: rest => do
      let (body, rest) ← readBody fuel rest
      return (.block none body, rest)
  | _, _ => none

/- What stands before a closing brace. -/
def readBody :
    Nat → List Token → Option (Body × List Token)
  | 0, _ => none
  | _ + 1, .sign "\x7d" :: rest => some (.done, rest)
  | fuel + 1, .word "let" :: .word "mut" :: .word x ::
      rest => readBinding fuel x true rest
  | fuel + 1, .word "let" :: .word x :: rest =>
      readBinding fuel x false rest
  | fuel + 1, tokens =>
      if startsBlock tokens then do
        let (term, rest) ← readBlock fuel tokens
        let (body, rest) ← readBody fuel rest
        return (.behind term body, rest)
      else do
        let (term, rest) ← readTerm fuel tokens
        match rest with
        | .sign "\x7d" :: rest => return (.value term, rest)
        | .sign ";" :: rest =>
            let (body, rest) ← readBody fuel rest
            return (.perform term body, rest)
        | _ => none

/- What stands behind the name of a new variable. -/
def readBinding :
    Nat → String → Bool → List Token →
      Option (Body × List Token)
  | 0, _, _, _ => none
  | fuel + 1, x, changes, .sign ":" :: .word kind ::
      .sign "=" :: rest => do
      let (value, rest) ← readTerm fuel rest
      let (body, rest) ←
        readBody fuel (← after? ";" rest)
      return (.bind x changes (some kind) value body, rest)
  | fuel + 1, x, changes, .sign "=" :: rest => do
      let (value, rest) ← readTerm fuel rest
      let (body, rest) ←
        readBody fuel (← after? ";" rest)
      return (.bind x changes none value body, rest)
  | _, _, _, _ => none

/- Arms up to a closing brace. -/
def readArms :
    Nat → List Token → Option (Arms × List Token)
  | 0, _ => none
  | _ + 1, .sign "\x7d" :: rest => some (.none, rest)
  | fuel + 1, tokens => do
      let (pattern, rest) ← readPattern tokens
      match rest with
      | .word "if" :: rest =>
          let (guard, rest) ← readFrom fuel 0 rest
          let (value, rest) ←
            readArm fuel (← after? "=>" rest)
          let (arms, rest) ← readArms fuel rest
          return (.guarded pattern guard value arms, rest)
      | _ =>
          let (value, rest) ←
            readArm fuel (← after? "=>" rest)
          let (arms, rest) ← readArms fuel rest
          return (.plain pattern value arms, rest)

/-
  The value of an arm. A comma stands behind it, unless it
  is the last or a block.
-/
def readArm :
    Nat → List Token → Option (Term × List Token)
  | 0, _ => none
  | fuel + 1, .sign "\x7b" :: rest => do
      let (term, rest) ← readBlock fuel (.sign "\x7b" :: rest)
      match rest with
      | .sign "," :: rest => return (term, rest)
      | _ => return (term, rest)
  | fuel + 1, tokens => do
      let (term, rest) ← readTerm fuel tokens
      match rest with
      | .sign "," :: rest => return (term, rest)
      | .sign "\x7d" :: _ => return (term, rest)
      | _ => none

end

end Rust

end Abnf
