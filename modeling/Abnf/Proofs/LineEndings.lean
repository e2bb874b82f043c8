import Mathlib.Data.List.Induction
import Abnf.Text.Lines

/-
  Line endings of a text.

  A text is brought into form in one pass that remembers the
  character before. That character is always the last one
  read, so where a text grows by one character, what is
  written grows by what becomes of this character. By
  induction on the text from its end, a carriage return is
  written before each bare line feed and nowhere else, and
  no line feed is bare in what is written.

  Key definitions include:
    * `Abnf.Text.IsBareAt`
    * `Abnf.Text.endedAt`

  Main declarations:
    * `Abnf.Text.endLinesAfter_append`
    * `Abnf.Text.endLinesAfter_concat`
    * `Abnf.Text.endLinesAfter_eq_flatten`
    * `Abnf.Text.not_isBareAt_endLinesAfter`
    * `Abnf.Text.endLinesAfter_eq_self_iff`
    * `Abnf.Text.endLines_inserts`
-/

------------------------------------------------------------
-- Bare Line Feeds
------------------------------------------------------------

namespace Abnf

namespace Text

/- A line feed that does not follow a carriage return. -/
def IsBareAt
    (text : List Char)
    (index : Nat) : Prop :=
  text[index]? = some '\n' ∧
    (text.take index).getLast? ≠ some '\r'

instance
    (text : List Char)
    (index : Nat) :
    Decidable (IsBareAt text index) :=
  inferInstanceAs (Decidable (_ ∧ _))

variable {text : List Char}
variable {index : Nat}

theorem IsBareAt.lt_length
    (hBare : IsBareAt text index) :
    index < text.length :=
  (List.getElem?_eq_some_iff.mp hBare.1).1

/- What is behind a line feed does not matter. -/
theorem isBareAt_append_of_lt
    (more : List Char)
    (hIndex : index < text.length) :
    IsBareAt (text ++ more) index ↔ IsBareAt text index := by
  rw [IsBareAt, List.getElem?_append_left hIndex,
    List.take_append_of_le_length (Nat.le_of_lt hIndex),
    IsBareAt]

theorem isBareAt_length
    (text : List Char)
    (c : Char) :
    IsBareAt (text ++ [c]) text.length ↔
      c = '\n' ∧ text.getLast? ≠ some '\r' := by
  rw [IsBareAt, List.take_append_length]
  simp

/- One more character leaves those before as they were. -/
theorem forall_not_isBareAt_concat
    (text : List Char)
    (c : Char) :
    (∀ index, ¬ IsBareAt (text ++ [c]) index) ↔
      (∀ index, ¬ IsBareAt text index) ∧
        ¬ IsBareAt (text ++ [c]) text.length := by
  constructor
  · intro hNone
    refine ⟨fun index hBare => ?_, hNone _⟩
    apply hNone index
    exact (isBareAt_append_of_lt [c] hBare.lt_length).mpr hBare
  · rintro ⟨hNone, hLast⟩ index hBare
    have hLength := hBare.lt_length
    rw [List.length_append, List.length_singleton] at hLength
    rcases Nat.lt_succ_iff_lt_or_eq.mp hLength with
      hBefore | rfl
    · exact
        hNone index
          ((isBareAt_append_of_lt [c] hBefore).mp hBare)
    · exact hLast hBare

end Text

end Abnf

------------------------------------------------------------
-- Remembered Characters
------------------------------------------------------------

namespace Abnf

namespace Text

/-
  The pass goes on behind a text with the last character of
  it, by induction on the text for every character before.
-/
theorem endLinesAfter_append
    (last : Char)
    (front back : List Char) :
    endLinesAfter last (front ++ back) =
      endLinesAfter last front ++
        endLinesAfter (front.getLastD last) back := by
  induction front generalizing last with
  | nil => rw [endLinesAfter]; rfl
  | cons c front ih =>
      rw [List.cons_append, endLinesAfter, endLinesAfter, ih,
        List.getLastD_cons]
      split
      · rfl
      · rfl

/- The blank that is remembered at first is no return. -/
theorem getLastD_eq_return_iff
    (text : List Char) :
    text.getLastD ' ' = '\r' ↔
      text.getLast? = some '\r' := by
  rw [List.getLastD_eq_getLast?]
  cases text.getLast? with
  | none => simp
  | some c => simp

/-
  The character before matters only where it is a carriage
  return and a line feed follows.
-/
theorem endLinesAfter_eq_iff
    (last : Char)
    (text : List Char) :
    endLinesAfter last text = endLinesAfter ' ' text ↔
      ¬ (last = '\r' ∧ text.head? = some '\n') := by
  cases text with
  | nil => simp [endLinesAfter]
  | cons c rest =>
      by_cases hReturn : last = '\r'
      · by_cases hFeed : c = '\n'
        · simp [endLinesAfter, hReturn, hFeed]
        · simp [endLinesAfter, hFeed]
      · simp [endLinesAfter, hReturn]

end Text

end Abnf

------------------------------------------------------------
-- One Character More
------------------------------------------------------------

namespace Abnf

namespace Text

/-
  What becomes of a character: a bare line feed gets one
  carriage return before it, and any other stays alone.
-/
def endedAt
    (text : List Char)
    (index : Nat)
    (c : Char) : List Char :=
  if IsBareAt text index then ['\r', c] else [c]

theorem endedAt_append_of_lt
    {text : List Char}
    {index : Nat}
    (more : List Char)
    (c : Char)
    (hIndex : index < text.length) :
    endedAt (text ++ more) index c = endedAt text index c := by
  simp only [endedAt, isBareAt_append_of_lt more hIndex]

theorem endLinesAfter_concat
    (text : List Char)
    (c : Char) :
    endLinesAfter ' ' (text ++ [c]) =
      endLinesAfter ' ' text ++
        endedAt (text ++ [c]) text.length c := by
  rw [endLinesAfter_append]
  simp only [endLinesAfter, endedAt, isBareAt_length, ne_eq,
    getLastD_eq_return_iff]

/- The last character stays the last. -/
theorem getLast?_endLinesAfter
    (text : List Char) :
    (endLinesAfter ' ' text).getLast? = text.getLast? := by
  rcases List.eq_nil_or_concat text with rfl | ⟨text, c, rfl⟩
  · rfl
  · rw [List.concat_eq_append, endLinesAfter_concat, endedAt]
    split
    · simp
    · simp

end Text

end Abnf

------------------------------------------------------------
-- Whole Texts
------------------------------------------------------------

namespace Abnf

namespace Text

/- What becomes of each character is written in order. -/
theorem endLinesAfter_eq_flatten
    (text : List Char) :
    endLinesAfter ' ' text =
      (text.mapIdx (endedAt text)).flatten := by
  induction text using List.reverseRecOn with
  | nil => rfl
  | append_singleton text c ih =>
      have hBefore :
          text.mapIdx (endedAt (text ++ [c])) =
            text.mapIdx (endedAt text) :=
        List.mapIdx_eq_mapIdx_iff.mpr fun _ hIndex =>
          endedAt_append_of_lt [c] _ hIndex
      rw [endLinesAfter_concat, ih, List.mapIdx_concat,
        hBefore, List.flatten_append, List.flatten_singleton]

theorem not_isBareAt_endLinesAfter
    (text : List Char) :
    ∀ index, ¬ IsBareAt (endLinesAfter ' ' text) index := by
  induction text using List.reverseRecOn with
  | nil => simp [endLinesAfter, IsBareAt]
  | append_singleton text c ih =>
      rw [endLinesAfter_concat, endedAt]
      split
      next hBare =>
        -- The written return itself is no line feed.
        have hSplit :
            endLinesAfter ' ' text ++ ['\r', c] =
              endLinesAfter ' ' text ++ ['\r'] ++ [c] := by
          simp
        rw [hSplit, forall_not_isBareAt_concat,
          forall_not_isBareAt_concat, isBareAt_length,
          isBareAt_length]
        exact ⟨⟨ih, by simp⟩, by simp⟩
      next hOther =>
        rw [isBareAt_length] at hOther
        rw [forall_not_isBareAt_concat, isBareAt_length,
          getLast?_endLinesAfter]
        exact ⟨ih, hOther⟩

/-
  A text stays as it is if no line feed in it is bare. A
  return that is written before the last line feed would
  otherwise have been there already.
-/
theorem endLinesAfter_eq_self_iff
    (text : List Char) :
    endLinesAfter ' ' text = text ↔
      ∀ index, ¬ IsBareAt text index := by
  induction text using List.reverseRecOn with
  | nil => simp [endLinesAfter, IsBareAt]
  | append_singleton text c ih =>
      rw [endLinesAfter_concat, forall_not_isBareAt_concat,
        ← ih, endedAt]
      split
      next hBare =>
        refine iff_of_false (fun hSame => ?_)
          (fun hNone => hNone.2 hBare)
        have hText :
            endLinesAfter ' ' text ++ ['\r'] = text := by
          rw [← List.append_left_inj [c]]
          simpa using hSame
        have hReturn : text.getLast? = some '\r' := by
          rw [← hText, List.getLast?_concat]
        exact ((isBareAt_length text c).mp hBare).2 hReturn
      next hOther =>
        rw [List.append_left_inj]
        exact ⟨fun hSame => ⟨hSame, hOther⟩, And.left⟩

theorem endLinesAfter_append_iff
    (front back : List Char) :
    endLinesAfter ' ' (front ++ back) =
        endLinesAfter ' ' front ++ endLinesAfter ' ' back ↔
      ¬ (front.getLast? = some '\r' ∧
        back.head? = some '\n') := by
  rw [endLinesAfter_append, List.append_right_inj,
    endLinesAfter_eq_iff, getLastD_eq_return_iff]

theorem toList_endLines
    (text : String) :
    (endLines text).toList = endLinesAfter ' ' text.toList :=
  String.toList_ofList

theorem endLines_eq_self_iff
    (text : String) :
    endLines text = text ↔
      ∀ index, ¬ IsBareAt text.toList index := by
  rw [← String.toList_inj, toList_endLines]
  exact endLinesAfter_eq_self_iff text.toList

/-
  One carriage return is written before each bare line feed,
  and all else is kept. So every line feed that is written
  follows a carriage return, only a text without bare ones
  stays as it is, and a second pass changes nothing. Two
  texts can be ended apart unless a line ending is split
  between them.
-/
theorem endLines_inserts
    (text : String) :
    (endLines text).toList =
        (text.toList.mapIdx (endedAt text.toList)).flatten ∧
      (∀ index,
        (endLines text).toList[index]? = some '\n' →
          ((endLines text).toList.take index).getLast? =
            some '\r') ∧
      (endLines text = text ↔
        ∀ index, ¬ IsBareAt text.toList index) ∧
      endLines (endLines text) = endLines text ∧
      ∀ more : String,
        endLines (text ++ more) =
            endLines text ++ endLines more ↔
          ¬ (text.toList.getLast? = some '\r' ∧
            more.toList.head? = some '\n') := by
  have hNone :
      ∀ index, ¬ IsBareAt (endLines text).toList index := by
    rw [toList_endLines]
    exact not_isBareAt_endLinesAfter text.toList
  refine
    ⟨?_, ?_, endLines_eq_self_iff text,
      (endLines_eq_self_iff _).mpr hNone, ?_⟩
  · rw [toList_endLines]
    exact endLinesAfter_eq_flatten text.toList
  · intro index hFeed
    by_contra hBefore
    exact hNone index ⟨hFeed, hBefore⟩
  · intro more
    rw [← String.toList_inj, String.toList_append,
      toList_endLines, toList_endLines, toList_endLines,
      String.toList_append]
    exact
      endLinesAfter_append_iff text.toList more.toList

/-
  Only the first and the last of these three line feeds are
  bare.
-/
example :
    endLines "\na\r\r\n\n" = "\r\na\r\r\n\r\n" := by
  decide

end Text

end Abnf
