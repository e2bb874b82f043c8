import Abnf.Proofs.Rust.Spelling
import Abnf.Proofs.Rust.Term

/-
  How code is read.

  The tokens of an expression or a statement are read as the
  term that is meant: blocks and loops end where they should,
  and the operators of a condition bind as intended.

  Key definitions include:
    * `Abnf.Rust.Reads`
    * `Abnf.Source.conditionTerm`
    * `Abnf.Source.Expr.term`
    * `Abnf.Source.Stmt.before`

  Main declarations:
    * `Abnf.Source.reads_condition`
    * `Abnf.Source.Expr.reads_value`
    * `Abnf.Source.Stmt.reads_beforeAll`
-/

------------------------------------------------------------
-- Readers
------------------------------------------------------------

namespace Abnf

namespace Rust

variable {α : Type}
variable {read : Nat → List Token → Option (α × List Token)}
variable {depth depth' : Nat}
variable {tokens rest last : List Token}
variable {a : α}
variable {term : Term}
variable {body : Body}

/-
  A reader reads some tokens, and leaves some over, once the
  readers may call each other so deep.
-/
def Reads
    (read : Nat → List Token → Option (α × List Token))
    (depth : Nat)
    (tokens : List Token)
    (a : α)
    (rest : List Token) : Prop :=
  ∀ fuel, depth ≤ fuel → read fuel tokens = some (a, rest)

theorem Reads.deeper
    (h : Reads read depth tokens a rest)
    (hDepth : depth ≤ depth') :
    Reads read depth' tokens a rest :=
  fun fuel hFuel => h fuel (Nat.le_trans hDepth hFuel)

/- The depth can be written as a sum. -/
theorem Reads.ofAdd
    (h :
      ∀ n, read (n + depth) tokens = some (a, rest)) :
    Reads read depth tokens a rest := by
  intro fuel hFuel
  rw [← Nat.sub_add_cancel hFuel]
  exact h (fuel - depth)

theorem readBody_of_startsBlock
    (hStarts : startsBlock tokens = true)
    (fuel : Nat) :
    readBody (fuel + 1) tokens =
      (readBlock fuel tokens).bind (fun first =>
        (readBody fuel first.2).bind (fun others =>
          some (.behind first.1 others.1, others.2))) := by
  rw [readBody.eq_def]
  split <;> first | rfl | simp_all [startsBlock]

/- A term that ends in a brace stands before a body. -/
theorem Reads.behind
    (hStarts : startsBlock tokens = true)
    (h : Reads readBlock depth tokens term rest)
    (h' : Reads readBody depth' rest body last) :
    Reads readBody (depth + depth' + 1) tokens
      (.behind term body) last := by
  intro fuel hFuel
  rcases Nat.exists_eq_add_of_le' hFuel with ⟨n, rfl⟩
  rw [← Nat.add_assoc, readBody_of_startsBlock hStarts,
    h _ (by omega), Option.bind_some, h' _ (by omega),
    Option.bind_some]

/- The value of a variable is read before a body. -/
theorem Reads.bind
    (head : List Token)
    (x : String)
    (changes : Bool)
    (kind : Option String)
    {value : Term}
    (hHead :
      ∀ n tokens,
        readBody (n + 2) (head ++ tokens) =
          (readTerm n tokens).bind (fun first =>
            (after? ";" first.2).bind (fun rest =>
              (readBody n rest).bind (fun others =>
                some
                  (.bind x changes kind first.1 others.1,
                    others.2)))))
    (h :
      Reads readTerm depth tokens value
        (.sign ";" :: rest))
    (h' : Reads readBody depth' rest body last) :
    Reads readBody (depth + depth' + 2) (head ++ tokens)
      (.bind x changes kind value body) last := by
  intro fuel hFuel
  rcases Nat.exists_eq_add_of_le' hFuel with ⟨n, rfl⟩
  have hAfter :
      after? ";" (.sign ";" :: rest) = some rest := rfl
  rw [← Nat.add_assoc, hHead, h _ (by omega),
    Option.bind_some, hAfter, Option.bind_some,
    h' _ (by omega), Option.bind_some]

end Rust

end Abnf

------------------------------------------------------------
-- Conditions
------------------------------------------------------------

namespace Abnf

namespace Source

open Rust

/- The byte `c` is the given one. -/
def equalsTerm
    (b : UInt8) : Term :=
  .operate .equal (.name "c") (.byte b)

/- One of the bits of a mask is set at a place. -/
def bitTerm
    (place : Term)
    (mask : BitVec 64) : Term :=
  .operate .different
    (.operate .common
      (.operate .shift (.number 1 "u64") place)
      (.number mask.toNat ""))
    (.number 0 "")

/- The byte `c` has its bit in the low mask. -/
def lowTerm
    (low : BitVec 64) : Term :=
  .operate .and
    (.operate .less (.name "c") (.number 64 ""))
    (bitTerm (.name "c") low)

/- The byte `c` has its bit in the high mask. -/
def highTerm
    (high : BitVec 64) : Term :=
  .operate .and
    (.operate .and
      (.operate .atLeast (.name "c") (.number 64 ""))
      (.operate .less (.name "c") (.number 128 "")))
    (bitTerm
      (.operate .minus (.name "c") (.number 64 "")) high)

/- A condition, or else that `c` is one of some bytes. -/
def orEquals
    (first : Term)
    (bs : List UInt8) : Term :=
  bs.foldl
    (fun left b => .operate .or left (equalsTerm b)) first

/- The condition on `c` that stands for a test. -/
def conditionTerm : ByteTest → Term
  | .never => .truth false
  | .eq b => equalsTerm b
  | .oneOf [] => .truth false
  | .oneOf (b :: bs) => orEquals (equalsTerm b) bs
  | .mask low high =>
      if low = 0 then
        if high = 0 then .truth false
        else highTerm high
      else
        if high = 0 then lowTerm low
        else .operate .or (lowTerm low) (highTerm high)

/- The bytes of a list behind bars, up to an arrow. -/
def barTokens
    (more : List Token) : List UInt8 → List Token
  | [] => .sign "=>" :: more
  | b :: bs =>
      .sign "||" :: (equalsTokens b ++ barTokens more bs)

variable {more : List Token}

theorem intercalate_equalsTokens
    (b : UInt8)
    (bs : List UInt8) :
    [.sign "||"].intercalate
          ((b :: bs).map equalsTokens) ++
        .sign "=>" :: more =
      equalsTokens b ++ barTokens more bs := by
  induction bs generalizing b with
  | nil => simp [equalsTokens, barTokens]
  | cons b' bs ih =>
      have hRest := ih b'
      rw [List.map_cons] at hRest
      rw [List.map_cons, List.map_cons,
        List.intercalate_cons_cons, barTokens, ← hRest]
      simp

/- Behind a byte stands a bar or the arrow. -/
theorem exists_barTokens
    (bs : List UInt8) :
    ∃ sign others,
      barTokens more bs = .sign sign :: others ∧
      (sign = "||" ∨ sign = "=>") := by
  cases bs with
  | nil => exact ⟨"=>", more, rfl, .inr rfl⟩
  | cons b bs => exact ⟨"||", _, rfl, .inl rfl⟩

/-
  What stands behind bars is read bar by bar. The sign
  behind a byte binds less than the one before it, so the
  byte is read alone.
-/
theorem readChain_barTokens
    (bs : List UInt8)
    (first : Term)
    (n : Nat) :
    readChain (n + bs.length + 8) 0 first
        (barTokens more bs) =
      some (orEquals first bs, .sign "=>" :: more) := by
  induction bs generalizing first with
  | nil => rfl
  | cons b bs ih =>
      rcases @exists_barTokens more bs with
        ⟨sign, others, hTokens, hSign⟩
      have hStep :
          ∀ m,
            readChain (m + 9) 0 first
                (.sign "||" ::
                  (equalsTokens b ++
                    .sign sign :: others)) =
              readChain (m + 8) 0
                (.operate .or first (equalsTerm b))
                (.sign sign :: others) := by
        intro m
        rcases hSign with rfl | rfl <;> rfl
      have hRest := ih (.operate .or first (equalsTerm b))
      rw [hTokens] at hRest
      rw [barTokens, hTokens]
      exact (hStep (n + bs.length)).trans hRest

/- A list of bytes is read as one condition. -/
theorem readFrom_barTokens
    (b : UInt8)
    (bs : List UInt8)
    (n : Nat) :
    readFrom (n + bs.length + 10) 0
        (equalsTokens b ++ barTokens more bs) =
      some
        (orEquals (equalsTerm b) bs,
          .sign "=>" :: more) := by
  rcases @exists_barTokens more bs with
    ⟨sign, others, hTokens, hSign⟩
  have hStep :
      ∀ m,
        readFrom (m + 10) 0
            (equalsTokens b ++ .sign sign :: others) =
          readChain (m + 8) 0 (equalsTerm b)
            (.sign sign :: others) := by
    intro m
    rcases hSign with rfl | rfl <;> rfl
  have hRest :=
    @readChain_barTokens more bs (equalsTerm b) n
  rw [hTokens] at hRest
  rw [hTokens]
  exact (hStep (n + bs.length)).trans hRest

theorem length_conditionTokens_oneOf
    (b : UInt8)
    (bs : List UInt8) :
    (conditionTokens (.oneOf (b :: bs))).length =
      4 * bs.length + 3 := by
  rw [conditionTokens]
  induction bs generalizing b with
  | nil => rfl
  | cons b' bs ih =>
      have hRest := ih b'
      rw [List.map_cons] at hRest
      rw [List.map_cons, List.map_cons,
        List.intercalate_cons_cons, List.length_append,
        List.length_append, hRest]
      simp only [equalsTokens, List.length_cons,
        List.length_nil]
      omega

/- A condition is read up to the arrow behind it. -/
theorem reads_condition
    {test : ByteTest}
    (hTest : test ≠ .oneOf []) :
    Reads (fun fuel => readFrom fuel 0)
      ((conditionTokens test).length + 40)
      (conditionTokens test ++ .sign "=>" :: more)
      (conditionTerm test) (.sign "=>" :: more) := by
  have hForty :
      ∀ {tokens : List Token} {term : Term},
        (∀ n,
          readFrom (n + 40) 0 (tokens ++ .sign "=>" :: more) =
            some (term, .sign "=>" :: more)) →
        Reads (fun fuel => readFrom fuel 0)
          (tokens.length + 40)
          (tokens ++ .sign "=>" :: more) term
          (.sign "=>" :: more) :=
    fun h => (Reads.ofAdd h).deeper (by omega)
  cases test with
  | never => exact hForty (fun _ => rfl)
  | eq b => exact hForty (fun _ => rfl)
  | oneOf bs =>
      cases bs with
      | nil => exact absurd rfl hTest
      | cons b bs =>
          have hRead :
              Reads (fun fuel => readFrom fuel 0)
                (bs.length + 10)
                (equalsTokens b ++ barTokens more bs)
                (orEquals (equalsTerm b) bs)
                (.sign "=>" :: more) :=
            Reads.ofAdd (readFrom_barTokens b bs)
          rw [length_conditionTokens_oneOf,
            conditionTokens, intercalate_equalsTokens,
            conditionTerm]
          exact hRead.deeper (by omega)
  | mask low high =>
      rw [conditionTokens, conditionTerm]
      by_cases hLow : low = 0
      · rw [if_pos hLow, if_pos hLow]
        by_cases hHigh : high = 0
        · rw [if_pos hHigh, if_pos hHigh]
          exact hForty (fun _ => rfl)
        · rw [if_neg hHigh, if_neg hHigh]
          exact hForty (fun _ => rfl)
      · rw [if_neg hLow, if_neg hLow]
        by_cases hHigh : high = 0
        · rw [if_pos hHigh, if_pos hHigh]
          exact hForty (fun _ => rfl)
        · rw [if_neg hHigh, if_neg hHigh]
          exact hForty (fun _ => rfl)

end Source

end Abnf

------------------------------------------------------------
-- Code
------------------------------------------------------------

namespace Abnf

namespace Source

open Rust

/- What a call hands on. -/
def Passing.terms : Passing → List Term
  | nothing => []
  | listener => [.name "listener"]
  | deaf => [.borrow .unit]

/- The move to the end of a match, or the way out. -/
def advanceTerm
    (label : Label) : Term :=
  .select (.name "next")
    (.plain (.just "next") (.assign "index" (.name "next"))
      (.plain .nothing (.leaveWith label.name .nothing)
        .none))

/- The way out with a match. -/
def leaveMatchedTerm
    (label : Label) : Term :=
  .when (.method (.name "next") "is_some" [])
    (.perform (.leaveWith label.name (.name "next")) .done)

/- A loop. -/
def loopTerm
    (label : Label)
    (body : Body) :
    Option Nat → Term
  | some limit =>
      .while label.name
        (.operate .less (.name "count") (.number limit ""))
        body
  | none => .loop label.name body

/- What happens to a copy without input. -/
def lastCopyBody
    (label : Label)
    (min : Nat) : Body :=
  if 0 < min then
    .perform
      (.assign "count"
        (.method (.name "count") "max" [.number min ""]))
      (.perform (.leave label.name) .done)
  else
    .perform (.leave label.name) .done

/- What happens to a copy with input. -/
def countCopyBody
    (counted : Bool) : Body :=
  if counted then
    .perform (.increase "count" (.number 1 ""))
      (.perform (.assign "index" (.name "next")) .done)
  else
    .perform (.assign "index" (.name "next")) .done

/- The copy of a loop is taken. -/
def takeCopyTerm
    (label : Label)
    (min : Nat)
    (counted : Bool) : Term :=
  .select (.name "next")
    (.guarded (.just "next")
      (.operate .equal (.name "next") (.name "index"))
      (.block none (lastCopyBody label min))
      (.plain (.just "next")
        (.block none (countCopyBody counted))
        (.plain .nothing (.leave label.name) .none)))

/- The way out after too few copies. -/
def demandTerm
    (min : Nat)
    (label : Label) : Term :=
  .when
    (.operate .less (.name "count") (.number min ""))
    (.perform (.leaveWith label.name .nothing) .done)

mutual

/- The term of an expression. -/
def Expr.term : Expr → Term
  | .found => .just (.name "index")
  | .missing => .nothing
  | .byte test =>
      .select
        (.method (.name "input") "get" [.name "index"])
        (.guarded (.justRef "c") (conditionTerm test)
          (.just
            (.operate .plus (.name "index")
              (.number 1 "")))
          (.plain .any .nothing .none))
  | .call identifier passing =>
      .call ("parse_" ++ identifier)
        ([.name "input", .name "index"] ++ passing.terms)
  | .block label body value =>
      .block (some label.name)
        (Stmt.beforeAll (.value (Expr.term value)) body)

/- A statement before the rest of a body. -/
def Stmt.before
    (rest : Body) : Stmt → Body
  | .letIndex => .bind "index" true none (.name "index") rest
  | .letCount =>
      .bind "count" true (some "usize") (.number 0 "") rest
  | .letNext value =>
      .bind "next" false none (Expr.term value) rest
  | .advance label => .behind (advanceTerm label) rest
  | .leaveMatched label =>
      .behind (leaveMatchedTerm label) rest
  | .loop label limit body =>
      .behind
        (loopTerm label (Stmt.beforeAll .done body) limit)
        rest
  | .takeCopy label min counted =>
      .behind (takeCopyTerm label min counted) rest
  | .demand min label =>
      .behind (demandTerm min label) rest

/- Some statements before the rest of a body. -/
def Stmt.beforeAll
    (rest : Body) : List Stmt → Body
  | [] => rest
  | stmt :: others =>
      Stmt.before (Stmt.beforeAll rest others) stmt

end

variable {more last : List Token}
variable {rest : Body}
variable {depth : Nat}

/- The expression ends in a brace. -/
def Expr.endsInBrace : Expr → Bool
  | .byte _ => true
  | .block _ _ _ => true
  | _ => false

/- The body of a loop is read where the loop is. -/
theorem reads_loop
    {tokens : List Token}
    {body : Body}
    (label : Label)
    (limit : Option Nat)
    (h : Reads readBody depth tokens body more) :
    Reads readBlock (depth + 10)
      (headTokens label limit ++ tokens)
      (loopTerm label body limit) more := by
  intro fuel hFuel
  rcases Nat.exists_eq_add_of_le' hFuel with ⟨n, rfl⟩
  have hBody := h (n + depth + 9) (by omega)
  cases limit with
  | none =>
      have hRead :
          readBlock (n + depth + 9 + 1)
              (headTokens label none ++ tokens) =
            (readBody (n + depth + 9) tokens).bind
              (fun read =>
                some (.loop label.name read.1, read.2)) :=
        rfl
      exact hRead.trans (by rw [hBody]; rfl)
  | some limit =>
      have hRead :
          readBlock (n + depth + 9 + 1)
              (headTokens label (some limit) ++ tokens) =
            (readBody (n + depth + 9) tokens).bind
              (fun read =>
                some
                  (loopTerm label read.1 (some limit),
                    read.2)) :=
        rfl
      exact hRead.trans (by rw [hBody]; rfl)

/- A byte is read with the condition in it. -/
theorem reads_byte
    {test : ByteTest}
    (hTest : test ≠ .oneOf [])
    (more : List Token) :
    Reads readBlock (4 * (Expr.byte test).tokens.length)
      ((Expr.byte test).tokens ++ more)
      (Expr.byte test).term more := by
  have hLength :
      (Expr.byte test).tokens.length =
        (conditionTokens test).length + 27 := by
    simp only [Expr.tokens, List.length_append,
      List.length_cons, List.length_nil]
    omega
  intro fuel hFuel
  rw [hLength] at hFuel
  rcases Nat.exists_eq_add_of_le' hFuel with ⟨n, rfl⟩
  have hHead :
      ∀ m tokens,
        readBlock (m + 12)
            (.word "match" :: .word "input" :: .sign "." ::
              .word "get" :: .sign "(" :: .word "index" ::
              .sign ")" :: .sign "\x7b" :: tokens) =
          (readArms (m + 11) tokens).bind (fun arms =>
            some
              (.select
                (.method (.name "input") "get"
                  [.name "index"]) arms.1, arms.2)) :=
    fun _ _ => rfl
  have hArm :
      ∀ m tokens,
        readArms (m + 1)
            (.word "Some" :: .sign "(" :: .sign "&" ::
              .word "c" :: .sign ")" :: .word "if" ::
              tokens) =
          (readFrom m 0 tokens).bind (fun guard =>
            (after? "=>" guard.2).bind (fun rest =>
              (readArm m rest).bind (fun value =>
                (readArms m value.2).bind (fun arms =>
                  some
                    (.guarded (.justRef "c") guard.1
                      value.1 arms.1, arms.2))))) :=
    fun _ _ => rfl
  have hGuard :
      ∀ m others,
        (conditionTokens test).length + 40 ≤ m →
        readFrom m 0
            (conditionTokens test ++
              .sign "=>" :: others) =
          some (conditionTerm test, .sign "=>" :: others) :=
    fun m others hDepth => reads_condition hTest m hDepth
  obtain ⟨m, hDepth⟩ :
      ∃ m,
        n + 4 * ((conditionTokens test).length + 27) =
          m + 12 :=
    ⟨n + 4 * (conditionTokens test).length + 96, by omega⟩
  rw [hDepth, Expr.tokens]
  simp only [List.append_assoc, List.cons_append,
    List.nil_append]
  rw [hHead, hArm, hGuard (m + 10) _ (by omega)]
  rfl

variable {expr : Expr}

/-
  An expression is read as the value of a variable, if it is
  read at all when it ends in a brace.
-/
theorem reads_value_of
    (h :
      expr.endsInBrace = true → ∀ more,
        Reads readBlock (4 * expr.tokens.length)
          (expr.tokens ++ more) expr.term more)
    (more : List Token) :
    Reads readTerm (4 * expr.tokens.length + 8)
      (expr.tokens ++ .sign ";" :: more) expr.term
      (.sign ";" :: more) := by
  have hBlock :
      expr.endsInBrace = true →
      (∀ n tokens,
        readTerm (n + 8) (expr.tokens ++ tokens) =
          (readBlock (n + 5) (expr.tokens ++ tokens)).bind
            (fun first =>
              readChain (n + 6) 0 first.1 first.2)) →
      Reads readTerm (4 * expr.tokens.length + 8)
        (expr.tokens ++ .sign ";" :: more) expr.term
        (.sign ";" :: more) := by
    intro hEnds hRead fuel hFuel
    rcases Nat.exists_eq_add_of_le' hFuel with ⟨n, rfl⟩
    rw [← Nat.add_assoc, hRead, h hEnds _ _ (by omega)]
    rfl
  cases expr with
  | found => exact Reads.ofAdd (fun _ => rfl)
  | missing => exact Reads.ofAdd (fun _ => rfl)
  | call identifier passing =>
      cases passing <;> exact Reads.ofAdd (fun _ => rfl)
  | byte test =>
      apply hBlock rfl
      intro _ _
      rw [Expr.tokens]
      rfl
  | block label body value =>
      apply hBlock rfl
      intro _ _
      rw [Expr.tokens]
      rfl

/- An expression is read as the value of a block alike. -/
theorem reads_last_of
    (h :
      expr.endsInBrace = true → ∀ more,
        Reads readBlock (4 * expr.tokens.length)
          (expr.tokens ++ more) expr.term more)
    (more : List Token) :
    Reads readBody (4 * expr.tokens.length + 8)
      (expr.tokens ++ .sign "\x7d" :: more)
      (.value expr.term) more := by
  have hDone :
      Reads readBody 1 (.sign "\x7d" :: more) .done more :=
    Reads.ofAdd (fun _ => rfl)
  have hBlock :
      expr.endsInBrace = true →
      startsBlock
          (expr.tokens ++ .sign "\x7d" :: more) = true →
      Reads readBody (4 * expr.tokens.length + 8)
        (expr.tokens ++ .sign "\x7d" :: more)
        (.value expr.term) more :=
    fun hEnds hStarts =>
      ((h hEnds _).behind hStarts hDone).deeper (by omega)
  cases expr with
  | found => exact Reads.ofAdd (fun _ => rfl)
  | missing => exact Reads.ofAdd (fun _ => rfl)
  | call identifier passing =>
      cases passing <;> exact Reads.ofAdd (fun _ => rfl)
  | byte test =>
      apply hBlock rfl
      rw [Expr.tokens]
      rfl
  | block label body value =>
      apply hBlock rfl
      rw [Expr.tokens]
      rfl

/- The lines that take a copy are read. -/
theorem reads_takeCopy
    (label : Label)
    (min : Nat)
    (counted : Bool) :
    Reads readBlock 40
      (copyTokens label min counted ++ more)
      (takeCopyTerm label min counted) more := by
  rw [copyTokens, takeCopyTerm, lastCopyBody]
  by_cases hDue : 0 < min
  · simp only [if_pos hDue]
    cases counted <;> exact Reads.ofAdd (fun _ => rfl)
  · simp only [if_neg hDue]
    cases counted <;> exact Reads.ofAdd (fun _ => rfl)

theorem length_copyTokens
    (label : Label)
    (min : Nat)
    (counted : Bool) :
    32 ≤ (copyTokens label min counted).length := by
  simp only [copyTokens, List.length_append,
    List.length_cons, List.length_nil]
  omega

mutual

/- The tokens of code that ends in a brace are read. -/
theorem Expr.reads_block :
    ∀ expr : Expr, expr.Plain → expr.endsInBrace = true →
      ∀ more,
        Reads readBlock (4 * expr.tokens.length)
          (expr.tokens ++ more) expr.term more
  | .byte test, hPlain, _, more => by
      rw [Expr.Plain] at hPlain
      exact reads_byte hPlain more
  | .block label body value, hPlain, _, more => by
      rw [Expr.Plain] at hPlain
      have hValue :=
        reads_last_of (Expr.reads_block value hPlain.2.2)
          more
      have hBody :=
        Stmt.reads_beforeAll body hPlain.2.1 hValue
      rw [Expr.tokens, Expr.term]
      intro fuel hFuel
      simp only [List.length_append, List.length_cons,
        List.length_nil] at hFuel
      rcases fuel with _ | fuel
      · omega
      have hRead :
          ∀ tokens,
            readBlock (fuel + 1)
                (.label label.name :: .sign ":" ::
                  .sign "\x7b" :: tokens) =
              (readBody fuel tokens).bind (fun read =>
                some
                  (.block (some label.name) read.1,
                    read.2)) :=
        fun _ => rfl
      simp only [List.append_assoc, List.cons_append,
        List.nil_append]
      rw [hRead, hBody fuel (by omega), Option.bind_some]

/- A statement is read before the rest of a body. -/
theorem Stmt.reads_before :
    ∀ (stmt : Stmt), stmt.Plain →
      ∀ {depth : Nat} {more last : List Token}
        {rest : Body},
        Reads readBody depth more rest last →
        Reads readBody (4 * stmt.tokens.length + depth)
          (stmt.tokens ++ more) (stmt.before rest) last
  | .letIndex, _, _, more, _, _, h => by
      have hIndex :
          Reads readTerm 8
            (.word "index" :: .sign ";" :: more)
            (.name "index") (.sign ";" :: more) :=
        Reads.ofAdd (fun _ => rfl)
      have hBody :=
        Reads.bind
          [.word "let", .word "mut", .word "index",
            .sign "="]
          "index" true none (fun _ _ => rfl) hIndex h
      rw [Stmt.before]
      exact
        hBody.deeper
          (by simp only [Stmt.tokens, List.length_cons]; omega)
  | .letCount, _, _, more, _, _, h => by
      have hZero :
          Reads readTerm 8
            (.number 0 "" :: .sign ";" :: more)
            (.number 0 "") (.sign ";" :: more) :=
        Reads.ofAdd (fun _ => rfl)
      have hBody :=
        Reads.bind
          [.word "let", .word "mut", .word "count",
            .sign ":", .word "usize", .sign "="]
          "count" true (some "usize") (fun _ _ => rfl)
          hZero h
      rw [Stmt.before]
      exact
        hBody.deeper
          (by simp only [Stmt.tokens, List.length_cons]; omega)
  | .letNext value, hPlain, _, more, _, _, h => by
      rw [Stmt.Plain] at hPlain
      have hValue :=
        reads_value_of (Expr.reads_block value hPlain) more
      have hBody :=
        Reads.bind [.word "let", .word "next", .sign "="]
          "next" false none (fun _ _ => rfl) hValue h
      rw [Stmt.tokens, Stmt.before, List.append_assoc,
        List.append_assoc]
      apply hBody.deeper
      simp only [List.length_append, List.length_cons,
        List.length_nil]
      omega
  | .advance label, _, _, more, _, _, h => by
      have hRead :
          Reads readBlock 24
            ((Stmt.advance label).tokens ++ more)
            (advanceTerm label) more :=
        Reads.ofAdd (fun _ => rfl)
      rw [Stmt.before]
      apply (hRead.behind rfl h).deeper
      simp only [Stmt.tokens, List.length_cons]
      omega
  | .leaveMatched label, _, _, more, _, _, h => by
      have hRead :
          Reads readBlock 24
            ((Stmt.leaveMatched label).tokens ++ more)
            (leaveMatchedTerm label) more :=
        Reads.ofAdd (fun _ => rfl)
      rw [Stmt.before]
      apply (hRead.behind rfl h).deeper
      simp only [Stmt.tokens, List.length_cons]
      omega
  | .loop label limit body, hPlain, _, more, _, _, h => by
      rw [Stmt.Plain] at hPlain
      have hClose :
          Reads readBody 1 (.sign "\x7d" :: more) .done
            more :=
        Reads.ofAdd (fun _ => rfl)
      have hBody :=
        reads_loop label limit
          (Stmt.reads_beforeAll body hPlain.2 hClose)
      have hStarts :
          startsBlock
              (headTokens label limit ++
                (Stmt.tokensOfAll body ++
                  .sign "\x7d" :: more)) =
            true := by
        cases limit <;> rfl
      rw [Stmt.tokens, Stmt.before, List.append_assoc,
        List.append_assoc, List.append_assoc]
      apply (hBody.behind hStarts h).deeper
      have hHead : 4 ≤ (headTokens label limit).length := by
        cases limit <;> simp [headTokens]
      simp only [List.length_append, List.length_cons,
        List.length_nil]
      omega
  | .takeCopy label min counted, _, _, more, _, _, h => by
      have hStarts :
          startsBlock
              (copyTokens label min counted ++ more) =
            true := rfl
      have hRead :=
        @reads_takeCopy more label min counted
      have hLength := length_copyTokens label min counted
      rw [Stmt.tokens, Stmt.before]
      exact (hRead.behind hStarts h).deeper (by omega)
  | .demand min label, _, _, more, _, _, h => by
      have hRead :
          Reads readBlock 24
            ((Stmt.demand min label).tokens ++ more)
            (demandTerm min label) more :=
        Reads.ofAdd (fun _ => rfl)
      rw [Stmt.before]
      apply (hRead.behind rfl h).deeper
      simp only [Stmt.tokens, List.length_cons]
      omega

/- The same for some statements. -/
theorem Stmt.reads_beforeAll :
    ∀ (body : List Stmt), Stmt.AllPlain body →
      ∀ {depth : Nat} {more last : List Token}
        {rest : Body},
        Reads readBody depth more rest last →
        Reads readBody
          (4 * (Stmt.tokensOfAll body).length + depth)
          (Stmt.tokensOfAll body ++ more)
          (Stmt.beforeAll rest body) last
  | [], _, _, _, _, _, h => by
      rw [Stmt.tokensOfAll, Stmt.beforeAll]
      exact h.deeper (Nat.le_add_left _ _)
  | stmt :: others, hPlain, _, _, _, _, h => by
      rw [Stmt.AllPlain] at hPlain
      have hOthers :=
        Stmt.reads_beforeAll others hPlain.2 h
      have hFirst := Stmt.reads_before stmt hPlain.1 hOthers
      rw [Stmt.tokensOfAll, Stmt.beforeAll,
        List.append_assoc]
      apply hFirst.deeper
      rw [List.length_append]
      omega

end

end Source

end Abnf
