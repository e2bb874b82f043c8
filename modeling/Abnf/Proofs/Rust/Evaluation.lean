import Abnf.Proofs.Rust.Machine
import Abnf.Proofs.Rust.Parsing
import Mathlib.Data.Nat.Bitwise

/-
  How terms come to their values.

  Steps are put together from steps whose results are known.
  Variables that come in lie above those that are there, and
  what lies above goes when a block is left. Conditions
  change nothing; the condition of a test holds of a byte if
  and only if the test does.

  Key definitions include:
    * `Abnf.Rust.Machine.get?`
    * `Abnf.Rust.Term.Gives`

  Main declarations:
    * `Abnf.Rust.Step.inside_eq`
    * `Abnf.Rust.Step.assign_append`
    * `Abnf.Rust.gives_condition`
    * `Abnf.Rust.run_plain`
    * `Abnf.Rust.run_guarded`
    * `Abnf.Rust.run_when`
-/

------------------------------------------------------------
-- Steps
------------------------------------------------------------

namespace Abnf

namespace Rust

namespace Step

variable {α β : Type}
variable {step : Step α}
variable {machine after : Machine}

@[simp] theorem bind_eq_chain
    (step : Step α)
    (next : α → Step β) :
    step >>= next = chain step next := rfl

@[simp] theorem pure_eq_give
    (a : α) :
    (pure a : Step α) = give a := rfl

theorem chain_of_ok
    {a : α}
    (h : step machine = some (after, .ok a))
    (next : α → Step β) :
    chain step next machine = next a after := by
  simp [chain, h]

theorem chain_of_error
    {exit : Exit}
    (h : step machine = some (after, .error exit))
    (next : α → Step β) :
    chain step next machine =
      some (after, .error exit) := by
  simp [chain, h]

/- What came in on the way is gone at the end. -/
theorem inside_eq
    (added : List Variable)
    {base : List Variable}
    {notices : List Notice}
    {result : Except Exit α}
    (h :
      step machine = some (⟨added ++ base, notices⟩, result))
    (hLength : base.length = machine.locals.length) :
    inside step machine =
      some (⟨base, notices⟩, result) := by
  simp [inside, h, hLength]

theorem catching_of_ok
    {step : Step Value}
    {value : Value}
    (h : step machine = some (after, .ok value))
    (label : Option String) :
    catching label step machine =
      some (after, .ok value) := by
  simp [catching, h]

/- A way out to the label is the end of it. -/
theorem catching_of_error
    {step : Step Value}
    {label : String}
    {value : Value}
    (h :
      step machine = some (after, .error ⟨label, value⟩)) :
    catching (some label) step machine =
      some (after, .ok value) := by
  simp [catching, h]

end Step

end Rust

end Abnf

------------------------------------------------------------
-- Variables
------------------------------------------------------------

namespace Abnf

namespace Rust

variable {x y : String}
variable {value value' : Value}
variable {above below : List Variable}
variable {notices : List Notice}

/- The value of the last variable of a name. -/
def Machine.get?
    (machine : Machine)
    (x : String) : Option Value :=
  (machine.locals.find? (·.name == x)).map (·.value)

theorem Step.look_of_get?
    {machine : Machine}
    (h : machine.get? x = some value) :
    Step.look x machine = some (machine, .ok value) := by
  rw [Machine.get?] at h
  unfold Step.look
  cases hFound :
      machine.locals.find? (·.name == x) with
  | none => simp [hFound] at h
  | some found =>
      simp only [hFound, Option.map_some, Option.some.injEq]
        at h
      simp [h]

/- Variables of other names do not hide one. -/
theorem Machine.get?_append
    (hAbove : ∀ other ∈ above, other.name ≠ x) :
    Machine.get? ⟨above ++ below, notices⟩ x =
      Machine.get? ⟨below, notices⟩ x := by
  have hNone :
      above.find? (·.name == x) = none := by
    simpa using hAbove
  simp [Machine.get?, List.find?_append, hNone]

theorem Machine.get?_cons_same
    (changes : Bool) :
    Machine.get?
        ⟨⟨x, changes, value⟩ :: below, notices⟩ x =
      some value := by
  simp [Machine.get?]

/- A variable below others takes a value. -/
theorem Step.change_append
    (hAbove : ∀ other ∈ above, other.name ≠ x) :
    Step.change x value
        (above ++ ⟨x, true, value'⟩ :: below) =
      some (above ++ ⟨x, true, value⟩ :: below) := by
  induction above with
  | nil => simp [Step.change]
  | cons first above ih =>
      rw [List.forall_mem_cons] at hAbove
      simp [Step.change, hAbove.1, ih hAbove.2]

theorem Step.assign_append
    (hAbove : ∀ other ∈ above, other.name ≠ x) :
    Step.assign x value
        ⟨above ++ ⟨x, true, value'⟩ :: below, notices⟩ =
      some
        (⟨above ++ ⟨x, true, value⟩ :: below, notices⟩,
          .ok ()) := by
  simp [Step.assign, Step.change_append hAbove]

end Rust

end Abnf

------------------------------------------------------------
-- Conditions
------------------------------------------------------------

namespace Abnf

namespace Rust

open Source

variable {host : Host}
variable {rounds : Nat}
variable {machine : Machine}
variable {left right : Term}
variable {value value' result : Value}
variable {p q : Bool}

/- The term has a value and changes nothing. -/
def Term.Gives
    (host : Host)
    (rounds : Nat)
    (machine : Machine)
    (term : Term)
    (value : Value) : Prop :=
  term.run host rounds machine = some (machine, .ok value)

theorem gives_name
    {x : String}
    (h : machine.get? x = some value) :
    (Term.name x).Gives host rounds machine value := by
  rw [Term.Gives, Term.run]
  exact Step.look_of_get? h

theorem gives_number
    {n : Nat}
    {kind : String}
    {kind' : Kind}
    (h : Kind.ofName? kind = some kind') :
    (Term.number n kind).Gives host rounds machine
      (.number kind' n) := by
  simp [Term.Gives, Term.run, h, Step.lift, Step.chain,
    Step.give]

theorem gives_just
    {term : Term}
    (h : term.Gives host rounds machine value) :
    (Term.just term).Gives host rounds machine
      (.just value) := by
  rw [Term.Gives] at h ⊢
  rw [Term.run, Step.bind_eq_chain, Step.chain_of_ok h]
  rfl

/- Terms that change nothing have their values in order. -/
theorem runAll_of_gives
    {terms : List Term}
    {values : List Value}
    (h :
      List.Forall₂ (Term.Gives host rounds machine)
        terms values) :
    runAll host rounds terms machine =
      some (machine, .ok values) := by
  induction h with
  | nil => rfl
  | cons hFirst _ ih =>
      rw [Term.Gives] at hFirst
      rw [runAll, Step.bind_eq_chain,
        Step.chain_of_ok hFirst, Step.bind_eq_chain,
        Step.chain_of_ok ih]
      rfl

/- The call of a method whose step is known. -/
theorem run_method
    {receiver : Term}
    {name : String}
    {terms : List Term}
    {values : List Value}
    (hReceiver : receiver.Gives host rounds machine value)
    (hTerms :
      List.Forall₂ (Term.Gives host rounds machine)
        terms values) :
    (Term.method receiver name terms).run host rounds
        machine =
      host.method value name values machine := by
  rw [Term.Gives] at hReceiver
  rw [Term.run, Step.bind_eq_chain,
    Step.chain_of_ok hReceiver, Step.bind_eq_chain,
    Step.chain_of_ok (runAll_of_gives hTerms)]

/- The byte at an index of an input, if there is one. -/
theorem method_get
    (input : Array UInt8)
    (index : Nat) :
    host.method (.bytes input) "get" [.size index]
        machine =
      some
        (machine,
         .ok
          (match input[index]? with
           | some b =>
               .just (.borrowed (.number .u8 b.toNat))
           | none => .nothing)) := by
  cases hByte : input[index]? <;>
    simp [Host.method, Value.size, hByte, Step.give]

theorem gives_operate
    {operator : Operator}
    (hPlain : operator ≠ .or ∧ operator ≠ .and)
    (hLeft : left.Gives host rounds machine value)
    (hRight : right.Gives host rounds machine value')
    (h : operator.apply value value' = some result) :
    (Term.operate operator left right).Gives host rounds
      machine result := by
  rw [Term.Gives] at *
  rw [Term.run, Step.bind_eq_chain, Step.chain_of_ok hLeft,
    Step.bind_eq_chain, Step.chain_of_ok hRight, h]
  · rfl
  · exact hPlain.1
  · exact hPlain.2

/- What is done with a truth value. -/
theorem chain_asTruth
    {β : Type}
    {term : Term}
    (h : term.Gives host rounds machine (.truth p))
    (next : Bool → Step β) :
    Step.chain (term.run host rounds)
        (fun value => Step.chain value.asTruth next)
        machine =
      next p machine := by
  rw [Term.Gives] at h
  rw [Step.chain_of_ok h]
  rfl

/- The right side of `||` matters if the left is false. -/
theorem gives_or
    (hLeft : left.Gives host rounds machine (.truth p))
    (hRight :
      p = false →
      right.Gives host rounds machine (.truth q)) :
    (Term.operate .or left right).Gives host rounds machine
      (.truth (p || q)) := by
  rw [Term.Gives, Term.run]
  simp only [Step.bind_eq_chain, Step.pure_eq_give]
  rw [chain_asTruth hLeft]
  cases p with
  | true => rfl
  | false => exact chain_asTruth (hRight rfl) _

/- The right side of `&&` matters if the left is true. -/
theorem gives_and
    (hLeft : left.Gives host rounds machine (.truth p))
    (hRight :
      p = true →
      right.Gives host rounds machine (.truth q)) :
    (Term.operate .and left right).Gives host rounds machine
      (.truth (p && q)) := by
  rw [Term.Gives, Term.run]
  simp only [Step.bind_eq_chain, Step.pure_eq_give]
  rw [chain_asTruth hLeft]
  cases p with
  | false => rfl
  | true => exact chain_asTruth (hRight rfl) _

variable {b : UInt8}

variable {kind kind' met : Kind}
variable {m n k : Nat}

theorem compare_eq
    (hMeet : kind.meet? kind' = some met)
    (hLeft : met.holds m = true)
    (hRight : met.holds n = true)
    (test : Nat → Nat → Bool) :
    Operator.compare test (.number kind m)
        (.number kind' n) =
      some (.truth (test m n)) := by
  simp [Operator.compare, hMeet, hLeft, hRight]

theorem combine_eq
    {f : Nat → Nat → Option Nat}
    (hMeet : kind.meet? kind' = some met)
    (hLeft : met.holds m = true)
    (hRight : met.holds n = true)
    (hResult : f m n = some k)
    (hHolds : met.holds k = true) :
    Operator.combine f (.number kind m) (.number kind' n) =
      some (.number met k) := by
  simp [Operator.combine, hMeet, hLeft, hRight, hResult,
    hHolds]

theorem holds_toNat
    (b : UInt8) :
    Kind.u8.holds b.toNat = true := by
  simpa [Kind.holds, Kind.width?] using b.toNat_lt

theorem gives_equals
    (hByte :
      machine.get? "c" = some (.number .u8 b.toNat))
    (c : UInt8) :
    (equalsTerm c).Gives host rounds machine
      (.truth (b == c)) := by
  have hRight :
      (Term.byte c).Gives host rounds machine
        (.number .u8 c.toNat) := by
    rw [Term.Gives, Term.run]
    rfl
  apply gives_operate (by decide) (gives_name hByte) hRight
  have hSame : (b.toNat == c.toNat) = (b == c) := by
    rw [Bool.eq_iff_iff, beq_iff_eq, beq_iff_eq,
      UInt8.toNat_inj]
  rw [← hSame]
  exact
    compare_eq rfl (holds_toNat b) (holds_toNat c) (· == ·)

/- A condition, or else that the byte is one of some. -/
theorem gives_orEquals
    (hByte :
      machine.get? "c" = some (.number .u8 b.toNat))
    {first : Term}
    (hFirst : first.Gives host rounds machine (.truth p))
    (bs : List UInt8) :
    (orEquals first bs).Gives host rounds machine
      (.truth (p || bs.contains b)) := by
  induction bs generalizing first p with
  | nil => simpa [orEquals] using hFirst
  | cons c bs ih =>
      have hStep :=
        ih (gives_or hFirst (fun _ => gives_equals hByte c))
      rw [List.contains_cons, ← Bool.or_assoc]
      exact hStep

/- The byte is below a number. -/
theorem gives_less
    (hByte :
      machine.get? "c" = some (.number .u8 b.toNat))
    (hHolds : Kind.u8.holds n = true) :
    (Term.operate .less (.name "c") (.number n "")).Gives
      host rounds machine (.truth (b.toNat < n)) :=
  gives_operate (by decide) (gives_name hByte)
    (gives_number rfl)
    (compare_eq rfl (holds_toNat b) hHolds
      (fun m n => m < n))

/- The byte is at least a number. -/
theorem gives_atLeast
    (hByte :
      machine.get? "c" = some (.number .u8 b.toNat))
    (hHolds : Kind.u8.holds n = true) :
    (Term.operate .atLeast (.name "c") (.number n "")).Gives
      host rounds machine (.truth (b.toNat ≥ n)) :=
  gives_operate (by decide) (gives_name hByte)
    (gives_number rfl)
    (compare_eq rfl (holds_toNat b) hHolds
      (fun m n => m ≥ n))

/- A mask meets a single bit if it has that bit. -/
theorem and_shiftLeft_ne_zero
    (mask : BitVec 64)
    (hBound : n < 64) :
    ((1 <<< n) % 2 ^ 64 &&& mask.toNat != 0) =
      mask.getLsbD n := by
  have hBit : (1 <<< n) % 2 ^ 64 = 2 ^ n := by
    rw [Nat.one_shiftLeft]
    exact
      Nat.mod_eq_of_lt
        (Nat.pow_lt_pow_right (by decide) hBound)
  rw [hBit, Nat.two_pow_and, BitVec.getLsbD]
  cases mask.toNat.testBit n <;> simp

/- A bit of a mask is set at a place below its width. -/
theorem gives_bit
    {place : Term}
    (hPlace :
      place.Gives host rounds machine (.number kind n))
    (hBound : n < 64)
    (mask : BitVec 64) :
    (bitTerm place mask).Gives host rounds machine
      (.truth (mask.getLsbD n)) := by
  have hHolds :
      ∀ k, k < 2 ^ 64 → Kind.u64.holds k = true := by
    intro k hLess
    simpa [Kind.holds, Kind.width?] using hLess
  have hOne : (1 <<< n) % 2 ^ 64 < 2 ^ 64 :=
    Nat.mod_lt _ (by decide)
  have hBoth :
      (1 <<< n) % 2 ^ 64 &&& mask.toNat < 2 ^ 64 :=
    Nat.lt_of_le_of_lt Nat.and_le_right mask.isLt
  have hShift :
      (Term.operate .shift (.number 1 "u64") place).Gives
        host rounds machine
        (.number .u64 ((1 <<< n) % 2 ^ 64)) := by
    apply gives_operate (by decide) (gives_number rfl) hPlace
    simp [Operator.apply, Operator.shiftLeft, Kind.width?,
      hBound]
  have hCommon :
      (Term.operate .common
          (.operate .shift (.number 1 "u64") place)
          (.number mask.toNat "")).Gives
        host rounds machine
        (.number .u64
          ((1 <<< n) % 2 ^ 64 &&& mask.toNat)) := by
    apply gives_operate (by decide) hShift (gives_number rfl)
    exact
      combine_eq (f := fun m n => some (m &&& n)) rfl
        (hHolds _ hOne) (hHolds _ mask.isLt) rfl
        (hHolds _ hBoth)
  apply gives_operate (by decide) hCommon (gives_number rfl)
  rw [← and_shiftLeft_ne_zero mask hBound]
  exact
    compare_eq rfl (hHolds _ hBoth)
      (hHolds 0 (by decide)) (· != ·)

/- The low mask is looked at for a low byte only. -/
theorem gives_low
    (hByte :
      machine.get? "c" = some (.number .u8 b.toNat))
    (low : BitVec 64) :
    (lowTerm low).Gives host rounds machine
      (.truth (b.toNat < 64 && low.getLsbD b.toNat)) :=
  gives_and (gives_less hByte (by decide))
    (fun hLow =>
      gives_bit (gives_name hByte) (of_decide_eq_true hLow)
        low)

/- The high mask is looked at for a high byte only. -/
theorem gives_high
    (hByte :
      machine.get? "c" = some (.number .u8 b.toNat))
    (high : BitVec 64) :
    (highTerm high).Gives host rounds machine
      (.truth
        ((b.toNat ≥ 64 && b.toNat < 128) &&
          high.getLsbD (b.toNat - 64))) := by
  apply gives_and
  · exact
      gives_and (gives_atLeast hByte (by decide))
        (fun _ => gives_less hByte (by decide))
  · intro hHigh
    simp only [Bool.and_eq_true, decide_eq_true_eq] at hHigh
    have hPlace :
        (Term.operate .minus (.name "c")
            (.number 64 "")).Gives host rounds machine
          (.number .u8 (b.toNat - 64)) := by
      have hLess : b.toNat - 64 < 2 ^ 8 := by omega
      have hHolds : Kind.u8.holds (b.toNat - 64) = true := by
        simpa [Kind.holds, Kind.width?] using hLess
      apply gives_operate (by decide) (gives_name hByte)
        (gives_number rfl)
      exact
        combine_eq
          (f := fun m n =>
            if n ≤ m then some (m - n) else none)
          rfl (holds_toNat b)
          (show Kind.u8.holds 64 = true by decide)
          (if_pos hHigh.1) hHolds
    exact gives_bit hPlace (by omega) high

/- What the two masks say of a byte. -/
theorem accepts_mask
    (low high : BitVec 64)
    (b : UInt8) :
    (ByteTest.mask low high).accepts b =
      (b.toNat < 64 && low.getLsbD b.toNat ||
        ((b.toNat ≥ 64 && b.toNat < 128) &&
          high.getLsbD (b.toNat - 64))) := by
  rw [ByteTest.accepts, CharSet.containsByte,
    CharSet.hasCode, CharSet.tableSize]
  by_cases hHalf : b.toNat < 64
  · have hLess : ¬ 64 ≤ b.toNat := by omega
    simp [hHalf, hLess]
  · by_cases hWhole : b.toNat < 128
    · have hMore : 64 ≤ b.toNat := by omega
      simp [hHalf, hWhole, hMore]
    · simp [hHalf, hWhole]

theorem gives_false :
    (Term.truth false).Gives host rounds machine
      (.truth false) := rfl

/- The condition of a test holds if the test does. -/
theorem gives_condition
    (hByte :
      machine.get? "c" = some (.number .u8 b.toNat))
    (test : ByteTest) :
    (conditionTerm test).Gives host rounds machine
      (.truth (test.accepts b)) := by
  cases test with
  | never => rfl
  | eq c => exact gives_equals hByte c
  | oneOf bs =>
      cases bs with
      | nil => rfl
      | cons c bs =>
          rw [ByteTest.accepts, List.contains_cons]
          exact gives_orEquals hByte (gives_equals hByte c) bs
  | mask low high =>
      have hLow := @gives_low host rounds machine b hByte low
      have hHigh :=
        @gives_high host rounds machine b hByte high
      rw [accepts_mask, conditionTerm]
      by_cases hNoLow : low = 0
      · rw [if_pos hNoLow]
        have hNever : low.getLsbD b.toNat = false := by
          simp [hNoLow]
        rw [hNever, Bool.and_false, Bool.false_or]
        by_cases hNoHigh : high = 0
        · rw [if_pos hNoHigh]
          simp [hNoHigh, gives_false]
        · rw [if_neg hNoHigh]
          exact hHigh
      · rw [if_neg hNoLow]
        by_cases hNoHigh : high = 0
        · rw [if_pos hNoHigh]
          simpa [hNoHigh] using hLow
        · rw [if_neg hNoHigh]
          exact gives_or hLow (fun _ => hHigh)

end Rust

end Abnf

------------------------------------------------------------
-- Arms
------------------------------------------------------------

namespace Abnf

namespace Rust

variable {host : Host}
variable {rounds : Nat}
variable {machine : Machine}
variable {pattern : Pattern}
variable {subject : Value}
variable {bound : Option (String × Value)}
variable {guard value : Term}
variable {rest : Arms}
variable {added base : List Variable}
variable {notices : List Notice}
variable {result : Except Exit Value}

/- The variable that a pattern brings in. -/
def Pattern.locals : Option (String × Value) → List Variable
  | some (x, value) => [⟨x, false, value⟩]
  | none => []

theorem enter_eq
    (bound : Option (String × Value))
    (machine : Machine) :
    Pattern.enter bound machine =
      some
        (⟨Pattern.locals bound ++ machine.locals,
          machine.notices⟩, .ok ()) := by
  cases bound <;> rfl

/- An arm without a guard is taken. -/
theorem run_plain
    (hBound : pattern.bind? subject = some bound)
    (hValue :
      value.run host rounds
          ⟨Pattern.locals bound ++ machine.locals,
            machine.notices⟩ =
        some (⟨added ++ base, notices⟩, result))
    (hLength : base.length = machine.locals.length)
    (rest : Arms) :
    (Arms.plain pattern value rest).run host rounds subject
        machine =
      some (⟨base, notices⟩, result) := by
  rw [Arms.run]
  simp only [hBound]
  refine Step.inside_eq added ?_ hLength
  exact
    (Step.chain_of_ok (enter_eq bound machine) _).trans
      hValue

/- An arm that does not fit is passed over. -/
theorem run_plain_of_none
    (hBound : pattern.bind? subject = none)
    (value : Term)
    (rest : Arms) :
    (Arms.plain pattern value rest).run host rounds subject
        machine =
      rest.run host rounds subject machine := by
  rw [Arms.run]
  simp only [hBound]

theorem run_guarded_of_none
    (hBound : pattern.bind? subject = none)
    (guard value : Term)
    (rest : Arms) :
    (Arms.guarded pattern guard value rest).run host rounds
        subject machine =
      rest.run host rounds subject machine := by
  rw [Arms.run]
  simp only [hBound]

/- An arm is taken if its guard holds. -/
theorem run_guarded
    (hBound : pattern.bind? subject = some bound)
    (hGuard :
      guard.Gives host rounds
        ⟨Pattern.locals bound ++ machine.locals,
          machine.notices⟩ (.truth true))
    (hValue :
      value.run host rounds
          ⟨Pattern.locals bound ++ machine.locals,
            machine.notices⟩ =
        some (⟨added ++ base, notices⟩, result))
    (hLength : base.length = machine.locals.length)
    (rest : Arms) :
    (Arms.guarded pattern guard value rest).run host rounds
        subject machine =
      some (⟨base, notices⟩, result) := by
  rw [Arms.run]
  simp only [hBound, Step.bind_eq_chain,
    Step.pure_eq_give]
  cases result with
  | ok result =>
      refine
        (@Step.chain_of_ok _ _ _ machine ⟨base, notices⟩
          (some result) ?_ _).trans rfl
      refine Step.inside_eq added ?_ hLength
      rw [Step.chain_of_ok (enter_eq bound machine),
        chain_asTruth hGuard]
      exact Step.chain_of_ok hValue _
  | error exit =>
      refine
        @Step.chain_of_error _ _ _ machine ⟨base, notices⟩
          exit ?_ _
      refine Step.inside_eq added ?_ hLength
      rw [Step.chain_of_ok (enter_eq bound machine),
        chain_asTruth hGuard]
      exact Step.chain_of_error hValue _

/- An arm is passed over if its guard does not hold. -/
theorem run_guarded_of_not
    (hBound : pattern.bind? subject = some bound)
    (hGuard :
      guard.Gives host rounds
        ⟨Pattern.locals bound ++ machine.locals,
          machine.notices⟩ (.truth false))
    (value : Term)
    (rest : Arms) :
    (Arms.guarded pattern guard value rest).run host rounds
        subject machine =
      rest.run host rounds subject machine := by
  rw [Arms.run]
  simp only [hBound, Step.bind_eq_chain,
    Step.pure_eq_give]
  refine
    (@Step.chain_of_ok _ _ _ machine machine none ?_ _).trans
      rfl
  refine Step.inside_eq (Pattern.locals bound) ?_ rfl
  rw [Step.chain_of_ok (enter_eq bound machine),
    chain_asTruth hGuard]
  rfl

end Rust

end Abnf

------------------------------------------------------------
-- Tests
------------------------------------------------------------

namespace Abnf

namespace Rust

variable {host : Host}
variable {rounds : Nat}
variable {machine : Machine}
variable {test : Term}
variable {body : Body}

/- A body is run if its test holds. -/
theorem run_when
    {added base : List Variable}
    {notices : List Notice}
    {result : Except Exit Value}
    (hTest :
      test.Gives host rounds machine (.truth true))
    (hBody :
      body.run host rounds machine =
        some (⟨added ++ base, notices⟩, result))
    (hLength : base.length = machine.locals.length) :
    (Term.when test body).run host rounds machine =
      some (⟨base, notices⟩, result) := by
  rw [Term.run, Step.bind_eq_chain]
  simp only [Step.bind_eq_chain, Step.pure_eq_give]
  rw [chain_asTruth hTest, if_pos rfl]
  exact Step.inside_eq added hBody hLength

theorem run_when_of_not
    (hTest :
      test.Gives host rounds machine (.truth false))
    (body : Body) :
    (Term.when test body).run host rounds machine =
      some (machine, .ok .unit) := by
  rw [Term.run, Step.bind_eq_chain]
  simp only [Step.bind_eq_chain, Step.pure_eq_give]
  rw [chain_asTruth hTest]
  rfl

/- A block without a label is no end of a way out. -/
theorem run_unlabelled
    {added base : List Variable}
    {notices : List Notice}
    {result : Except Exit Value}
    (hBody :
      body.run host rounds machine =
        some (⟨added ++ base, notices⟩, result))
    (hLength : base.length = machine.locals.length) :
    (Term.block none body).run host rounds machine =
      some (⟨base, notices⟩, result) := by
  have hInside := Step.inside_eq added hBody hLength
  rw [Term.run]
  cases result with
  | ok value => exact Step.catching_of_ok hInside none
  | error exit => simp [Step.catching, hInside]

/- The way out of a block with a value. -/
theorem run_leaveWith
    {term : Term}
    {value : Value}
    (hValue : term.Gives host rounds machine value)
    (label : String) :
    (Term.leaveWith label term).run host rounds machine =
      some (machine, .error ⟨label, value⟩) := by
  rw [Term.run, Step.bind_eq_chain]
  exact Step.chain_of_ok hValue _

end Rust

end Abnf
