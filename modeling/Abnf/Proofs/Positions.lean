import Mathlib.Data.List.Induction
import Mathlib.Data.Prod.Lex
import Mathlib.Order.Interval.Set.Defs
import Mathlib.Order.Monotone.Basic
import Abnf.Text.Lines

/-
  Positions in order.

  A position is found by two scans of the bytes before an
  offset: the line by counting line feeds, the column from
  the last of them. One byte further, a line feed starts the
  next line, and everything else, the end of the text
  included, is the next column. So positions ascend with
  their offsets, and the offset of a position can be counted
  from the line feed that the line starts behind.

  Key definitions include:
    * `Abnf.Text.Position.key`
    * `Abnf.Text.afterLineFeeds?`

  Main declarations:
    * `Abnf.Text.position_succ`
    * `Abnf.Text.position_lt_succ`
    * `Abnf.Text.afterLineFeeds?_append`
    * `Abnf.Text.position_ascends`
-/

------------------------------------------------------------
-- Starts Of Lines
------------------------------------------------------------

namespace Abnf

namespace Text

theorem lineStart_le
    (before : List UInt8) :
    lineStart before ≤ before.length :=
  Nat.sub_le _ _

/- A line feed starts a line, and no other byte does. -/
theorem lineStart_append_singleton
    (before : List UInt8)
    (b : UInt8) :
    lineStart (before ++ [b]) =
      if b = lineFeed then before.length + 1
      else lineStart before := by
  by_cases hFeed : b = lineFeed
  · simp [lineStart, hFeed]
  · simp [lineStart, hFeed]

/-
  The offset just after so many line feeds, if there are as
  many; the first line starts where the text does.
-/
def afterLineFeeds? : Nat → List UInt8 → Option Nat
  | 0, _ => some 0
  | _ + 1, [] => none
  | n + 1, b :: rest =>
      (afterLineFeeds?
        (if b = lineFeed then n else n + 1) rest).map
          (· + 1)

/- Behind the next line feed there is one more of them. -/
theorem afterLineFeeds?_lineFeed
    (before rest : List UInt8) :
    afterLineFeeds? (before.count lineFeed + 1)
        (before ++ lineFeed :: rest) =
      some (before.length + 1) := by
  induction before with
  | nil => simp [afterLineFeeds?]
  | cons b before ih =>
      by_cases hFeed : b = lineFeed
      · simp [afterLineFeeds?, hFeed, ih]
      · simp [afterLineFeeds?, hFeed, ih]

/-
  The line of an offset starts after as many line feeds as
  there are before it, whatever is behind the offset.
-/
theorem afterLineFeeds?_append
    (before rest : List UInt8) :
    afterLineFeeds? (before.count lineFeed)
        (before ++ rest) =
      some (lineStart before) := by
  induction before using List.reverseRecOn
      generalizing rest with
  | nil => simp [afterLineFeeds?, lineStart]
  | append_singleton before b ih =>
      rw [List.append_assoc, List.singleton_append,
        lineStart_append_singleton, List.count_append]
      by_cases hFeed : b = lineFeed
      · rw [if_pos hFeed, hFeed, List.count_singleton_self]
        exact afterLineFeeds?_lineFeed before rest
      · rw [if_neg hFeed, List.count_singleton,
          if_neg (by simpa using hFeed), Nat.add_zero]
        exact ih (b :: rest)

end Text

end Abnf

------------------------------------------------------------
-- One Byte Further
------------------------------------------------------------

namespace Abnf

namespace Text

/- Positions are in the order of lines, then of columns. -/
def Position.key
    (position : Position) : Nat ×ₗ Nat :=
  toLex (position.line, position.column)

variable {text : Array UInt8}
variable {index : Nat}

theorem lineStart_take_le
    (text : Array UInt8)
    (index : Nat) :
    lineStart (text.toList.take index) ≤ index := by
  have hLength := List.length_take_le index text.toList
  have hStart := lineStart_le (text.toList.take index)
  omega

/- Below the limit the column does not start again. -/
theorem column_position
    (hIndex : index < columnLimit - 1) :
    (position text index).column =
      index - lineStart (text.toList.take index) + 1 := by
  rw [position]
  apply Nat.mod_eq_of_lt
  omega

/-
  A line feed leads to the start of the next line, and any
  other byte or none to the next column.
-/
theorem position_succ
    (hIndex : index + 1 < columnLimit - 1) :
    position text (index + 1) =
      if text[index]? = some lineFeed then
        ⟨(position text index).line + 1, 1⟩
      else
        ⟨(position text index).line,
          (position text index).column + 1⟩ := by
  have hHere : index < columnLimit - 1 := by omega
  have hLow := lineStart_take_le text index
  have hLine :
      ∀ place, (position text place).line =
        (text.toList.take place).count lineFeed + 1 :=
    fun _ => rfl
  have hTake :
      text.toList.take (index + 1) =
        text.toList.take index ++ text[index]?.toList := by
    rw [List.take_add_one, Array.getElem?_toList]
  have hSame :
      position text (index + 1) =
        ⟨(position text (index + 1)).line,
          (position text (index + 1)).column⟩ :=
    rfl
  rw [hSame, hLine, hLine, column_position hIndex,
    column_position hHere, hTake]
  cases hByte : text[index]? with
  | none =>
      rw [Option.toList_none, List.append_nil,
        if_neg nofun, Nat.sub_add_comm hLow]
  | some b =>
      have hLength :
          (text.toList.take index).length = index := by
        have hBound :=
          (Array.getElem?_eq_some_iff.mp hByte).1
        rw [List.length_take, Array.length_toList]
        omega
      rw [Option.toList_some, lineStart_append_singleton,
        List.count_append, hLength]
      by_cases hFeed : b = lineFeed
      · rw [hFeed, if_pos rfl, if_pos rfl,
          List.count_singleton_self, Nat.sub_self]
      · have hOther : some b ≠ some lineFeed :=
          fun hSome => hFeed (Option.some.inj hSome)
        rw [if_neg hFeed, if_neg hOther,
          List.count_singleton, if_neg (by simpa using hFeed),
          Nat.add_zero, Nat.sub_add_comm hLow]

/- Either way the position is a later one. -/
theorem position_lt_succ
    (hIndex : index + 1 < columnLimit - 1) :
    (position text index).key <
      (position text (index + 1)).key := by
  rw [position_succ hIndex]
  split
  · exact
      Prod.Lex.toLex_lt_toLex.mpr
        (Or.inl (Nat.lt_succ_self _))
  · exact
      Prod.Lex.toLex_lt_toLex.mpr
        (Or.inr ⟨rfl, Nat.lt_succ_self _⟩)

end Text

end Abnf

------------------------------------------------------------
-- All Offsets
------------------------------------------------------------

namespace Abnf

namespace Text

/- By induction on the bytes between the two offsets. -/
theorem position_strictMonoOn
    (text : Array UInt8) :
    StrictMonoOn (fun index => (position text index).key)
      (Set.Iio (columnLimit - 1)) := by
  intro first _ last hLast hLess
  induction last with
  | zero => exact absurd hLess (Nat.not_lt_zero first)
  | succ last ih =>
      have hStep := @position_lt_succ text last hLast
      rcases Nat.lt_succ_iff_lt_or_eq.mp hLess with
        hBefore | rfl
      · exact
          (ih (Nat.lt_of_succ_lt hLast) hBefore).trans hStep
      · exact hStep

/-
  Positions ascend with their offsets, within characters and
  past the end as well, so no two offsets share a position.
  The line starts at or before the offset, just after one
  line feed less than the number of the line, and the column
  counts from there.
-/
theorem position_ascends
    (text : Array UInt8) :
    StrictMonoOn (fun index => (position text index).key)
        (Set.Iio (columnLimit - 1)) ∧
      Set.InjOn (position text)
        (Set.Iio (columnLimit - 1)) ∧
      ∀ index < columnLimit - 1, ∃ start,
        afterLineFeeds? ((position text index).line - 1)
            text.toList = some start ∧
          lineStart (text.toList.take index) = start ∧
          start ≤ index ∧
          1 ≤ (position text index).column ∧
          index =
            start + (position text index).column - 1 := by
  have hAscends := position_strictMonoOn text
  refine ⟨hAscends, ?_, ?_⟩
  · intro first hFirst last hLast hSame
    apply hAscends.injOn hFirst hLast
    exact congrArg Position.key hSame
  · intro index hIndex
    have hLow := lineStart_take_le text index
    have hStart :=
      afterLineFeeds?_append (text.toList.take index)
        (text.toList.drop index)
    rw [List.take_append_drop] at hStart
    refine ⟨_, hStart, rfl, hLow, ?_⟩
    rw [column_position hIndex]
    omega

/-
  An offset past the end is one of the last line; a line feed
  is still in the line that it ends.
-/
example :
    [0, 1, 2, 3, 7].map
        (fun index =>
          (position (bytes "a\r\n") index).key) =
      [toLex (1, 1), toLex (1, 2), toLex (1, 3),
       toLex (2, 1), toLex (2, 5)] := by
  decide

end Text

end Abnf
