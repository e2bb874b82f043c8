import Abnf.Pattern.Expr

/-
  The stretches of a text that an expression describes.

  Spans tell for every place of a text how long a stretch
  from there can be. Each part of an expression is looked at
  once, so the work stays small however its copies nest.

  Key definitions include:
    * `Abnf.Pattern.Spans`
    * `Abnf.Pattern.Spans.compose`
    * `Abnf.Pattern.Spans.power`
    * `Abnf.Pattern.Expr.spans`
    * `Abnf.Pattern.Expr.isFound`
-/

------------------------------------------------------------
-- Spans
------------------------------------------------------------

namespace Abnf

namespace Pattern

/-
  For every place of a text, how long a stretch from there
  can be, as a number whose bits stand for lengths.
-/
abbrev Spans := List Nat

namespace Spans

/- The empty stretches, where a test holds. -/
def empties
    {α : Type}
    (test : α → Bool)
    (places : List α) : Spans :=
  places.map (fun place => if test place then 1 else 0)

/- The stretches of one character, where a test holds. -/
def singles
    {α : Type}
    (test : α → Bool)
    (places : List α) : Spans :=
  places.map (fun place => if test place then 2 else 0)

/- The empty stretches at all places. -/
def identity
    {α : Type}
    (places : List α) : Spans :=
  empties (fun _ => true) places

/- The stretches of either of two kinds. -/
def union
    (a b : Spans) : Spans :=
  List.zipWith (· ||| ·) a b

/-
  The lengths of stretches that go on after some lengths, as
  the spans of the places from here on tell.
-/
def through : Spans → Nat → Nat
  | [], _ => 0
  | row :: rest, lengths =>
      if lengths = 0 then
        0
      else if lengths % 2 = 1 then
        row ||| 2 * through rest (lengths / 2)
      else
        2 * through rest (lengths / 2)

/- A stretch of one kind, then one of another kind. -/
def compose : Spans → Spans → Spans
  | [], _ => []
  | row :: rest, b => through b row :: compose rest b.tail

/-
  Some stretches of a kind, one behind the other. The count
  is halved at each step, and the limit bounds the steps.
-/
def powerWithin
    (spans : Spans) :
    Nat → Nat → Spans
  | 0, _ => identity spans
  | limit + 1, count =>
      if count = 0 then
        identity spans
      else if count = 1 then
        spans
      else
        let half := powerWithin spans limit (count / 2)
        let whole := compose half half
        if count % 2 = 1 then compose whole spans else whole

/-
  Some stretches of a kind, one behind the other. Stretches
  that take no character can be left out, and no more than
  one for each place can take any, so larger counts give
  nothing new.
-/
def power
    (spans : Spans)
    (count : Nat) : Spans :=
  let bounded := min count spans.length
  powerWithin spans (bounded.log2 + 1) bounded

/-
  Join stretches until that gives nothing new. The lengths
  that are reached double at each step.
-/
def closure : Nat → Spans → Spans
  | 0, spans => spans
  | limit + 1, spans =>
      let next := compose spans spans
      if next = spans then spans else closure limit next

/- Any number of stretches, or up to a number. -/
def powerUpTo
    (spans : Spans)
    (count : Option Nat) : Spans :=
  let some? := union (identity spans) spans
  match count with
  | some count => power some? count
  | none => closure (spans.length.log2 + 1) some?

end Spans

end Pattern

end Abnf

------------------------------------------------------------
-- Expressions
------------------------------------------------------------

namespace Abnf

namespace Pattern

/- The characters before and behind a place. -/
abbrev Place := Option Char × Option Char

/- The places of a text behind a character. -/
def placesFrom
    (before : Option Char) :
    List Char → List Place
  | [] => [(before, none)]
  | c :: rest => (before, some c) :: placesFrom (some c) rest

namespace Expr

mutual

/- The stretches that an expression describes. -/
def spans
    (places : List Place) : Expr → Spans
  | empty => .identity places
  | setting => .identity places
  | one _ set =>
      .singles
        (fun place =>
          place.2.any (fun c => set.has c.toNat))
        places
  | look asked =>
      .empties
        (fun place => asked.holds place.1 place.2)
        places
  | sequence parts => sequenceSpans places parts
  | choice parts => choiceSpans places parts
  | group _ body => body.spans places
  | copies min max body =>
      let once := body.spans places
      (once.power min).compose
        (once.powerUpTo (max.map (· - min)))

/- The stretches of expressions one behind the other. -/
def sequenceSpans
    (places : List Place) : List Expr → Spans
  | [] => .identity places
  | part :: rest =>
      (part.spans places).compose
        (sequenceSpans places rest)

/- The stretches of one of some expressions. -/
def choiceSpans
    (places : List Place) : List Expr → Spans
  | [] => places.map (fun _ => 0)
  | part :: rest =>
      (part.spans places).union (choiceSpans places rest)

end

/- Some stretch of the text is as the expression says. -/
def isFound
    (expr : Expr)
    (text : String) : Bool :=
  (expr.spans (placesFrom none text.toList)).any (· != 0)

end Expr

end Pattern

end Abnf
