import Abnf.Proofs.Normalization
import Mathlib.Data.List.Chain

/-
  Normal forms of elements.

  An element is in normal form when none of the cases that
  normalizing resolves is left in it, at whatever depth.
  Normalizing takes every element there in one pass, and it
  changes no element that is there already.

  Key definitions include:
    * `Abnf.Element.Merges`
    * `Abnf.Element.IsNormal`
    * `Abnf.Element.mergeLast`

  Main declarations:
    * `Abnf.Element.foldl_mergeLast`
    * `Abnf.Element.isNormal_normalize`
    * `Abnf.Element.normalize_of_isNormal`
    * `Abnf.Element.normalize_eq_self_iff_isNormal`
-/

------------------------------------------------------------
-- Normal Form
------------------------------------------------------------

namespace Abnf

namespace Element

/-
  Two neighbours in a choice could be one set of characters.
  The empty set is the empty text, not a set to choose from.
-/
inductive Merges : Element → Element → Prop
  | sets {s t : CharSet} :
      s.isEmpty = false →
      t.isEmpty = false →
      Merges (terminal s) (terminal t)

/- An element in which nothing is left to be resolved. -/
inductive IsNormal : Element → Prop
  | ruleName (name : String) : IsNormal (ruleName name)
  | terminal (s : CharSet) : IsNormal (terminal s)
  /- A repetition asks for more than no copy or one copy. -/
  | repetition
      {min : Nat} {max : Option Nat} {body : Element} :
      (min, max) ≠ (0, some 0) →
      (min, max) ≠ (1, some 1) →
      IsNormal body →
      IsNormal (repetition min max body)
  /- A series does not stand for its only part. -/
  | concatenation {parts : List Element} :
      parts.length ≠ 1 →
      (∀ part ∈ parts, IsNormal part) →
      IsNormal (concatenation parts)
  /- In a choice, besides, no neighbours could be one set. -/
  | alternation {parts : List Element} :
      parts.length ≠ 1 →
      parts.IsChain (fun part next => ¬ Merges part next) →
      (∀ part ∈ parts, IsNormal part) →
      IsNormal (alternation parts)

end Element

end Abnf

------------------------------------------------------------
-- Merging
------------------------------------------------------------

namespace Abnf

namespace CharSet

theorem isEmpty_union_of_left
    {s t : CharSet}
    (hSome : s.isEmpty = false) :
    (s ∪ t).isEmpty = false := by
  rw [isEmpty_union, hSome, Bool.false_and]

theorem union_assoc
    (s t u : CharSet) :
    s ∪ (t ∪ u) = s ∪ t ∪ u := by
  change union s (union t u) = union (union s t) u
  simp only [union, BitVec.or_assoc]

end CharSet

namespace Element

theorem merges_iff
    {s t : CharSet} :
    Merges (terminal s) (terminal t) ↔
      (s.isEmpty || t.isEmpty) = false := by
  rw [Bool.or_eq_false_iff]
  constructor
  · rintro ⟨hFirst, hSecond⟩
    exact ⟨hFirst, hSecond⟩
  · rintro ⟨hFirst, hSecond⟩
    exact .sets hFirst hSecond

/- Sets that can be one become one. -/
theorem mergeNext_of_merges
    {s t : CharSet}
    (hMerges : Merges (terminal s) (terminal t))
    (rest : List Element) :
    mergeNext (terminal s) (terminal t :: rest) =
      terminal (s ∪ t) :: rest := by
  rw [mergeNext, merges_iff.mp hMerges]
  rfl

/- All other neighbours stay as they are. -/
theorem mergeNext_of_not_merges
    {part : Element}
    {rest : List Element}
    (hApart : ∀ next ∈ rest.head?, ¬ Merges part next) :
    mergeNext part rest = part :: rest := by
  unfold mergeNext
  split
  · rename_i s t rest
    have hNone := hApart (terminal t) rfl
    rw [merges_iff, Bool.not_eq_false] at hNone
    rw [if_pos hNone]
  · rfl

/-
  A union merges with what comes before it or behind it like
  its two sides do, since no side is empty.
-/
theorem merges_union_left_iff
    {s t : CharSet}
    (hMerges : Merges (terminal s) (terminal t))
    {next : Element} :
    Merges (terminal (s ∪ t)) next ↔
      Merges (terminal t) next := by
  rw [merges_iff, Bool.or_eq_false_iff] at hMerges
  constructor
  · rintro ⟨_, hNext⟩
    exact .sets hMerges.2 hNext
  · rintro ⟨_, hNext⟩
    exact
      .sets (CharSet.isEmpty_union_of_left hMerges.1) hNext

/- Putting a part in front leaves no neighbours to merge. -/
theorem isChain_mergeNext
    (part : Element)
    {rest : List Element}
    (hRest :
      rest.IsChain (fun part next => ¬ Merges part next)) :
    (mergeNext part rest).IsChain
      (fun part next => ¬ Merges part next) := by
  cases rest with
  | nil =>
      rw [mergeNext_of_not_merges (by simp)]
      exact List.isChain_singleton part
  | cons next rest =>
      by_cases hMerges : Merges part next
      · cases hMerges with
        | sets hFirst hSecond =>
            have hBoth := Merges.sets hFirst hSecond
            rw [mergeNext_of_merges hBoth]
            rw [List.isChain_cons] at hRest ⊢
            refine ⟨?_, hRest.2⟩
            intro behind hBehind
            rw [merges_union_left_iff hBoth]
            exact hRest.1 behind hBehind
      · rw [mergeNext_of_not_merges (by simpa using hMerges)]
        exact List.IsChain.cons_cons hMerges hRest

/- No neighbours are left to merge. -/
theorem isChain_mergeTerminals
    (parts : List Element) :
    (mergeTerminals parts).IsChain
      (fun part next => ¬ Merges part next) := by
  induction parts with
  | nil => exact List.isChain_nil
  | cons part parts ih => exact isChain_mergeNext part ih

/- Where there is nothing to merge, nothing changes. -/
theorem mergeTerminals_of_isChain
    {parts : List Element}
    (hParts :
      parts.IsChain (fun part next => ¬ Merges part next)) :
    mergeTerminals parts = parts := by
  induction parts with
  | nil => rfl
  | cons part parts ih =>
      rw [List.isChain_cons] at hParts
      rw [mergeTerminals, List.foldr_cons]
      rw [mergeTerminals] at ih
      rw [ih hParts.2, mergeNext_of_not_merges hParts.1]

/- What holds of every set outlasts merging. -/
theorem forall_mem_mergeNext
    {good : Element → Prop}
    (hSets : ∀ s, good (terminal s))
    {part : Element}
    {rest : List Element}
    (hPart : good part)
    (hRest : ∀ next ∈ rest, good next) :
    ∀ next ∈ mergeNext part rest, good next := by
  by_cases hApart : ∀ next ∈ rest.head?, ¬ Merges part next
  · rw [mergeNext_of_not_merges hApart]
    exact List.forall_mem_cons.mpr ⟨hPart, hRest⟩
  · push Not at hApart
    rcases hApart with ⟨next, hNext, hMerges⟩
    rcases List.head?_eq_some_iff.mp hNext with ⟨rest, rfl⟩
    cases hMerges with
    | sets hFirst hSecond =>
        rw [mergeNext_of_merges (.sets hFirst hSecond)]
        rw [List.forall_mem_cons] at hRest ⊢
        exact ⟨hSets _, hRest.2⟩

theorem forall_mem_mergeTerminals
    {good : Element → Prop}
    (hSets : ∀ s, good (terminal s))
    {parts : List Element}
    (hParts : ∀ part ∈ parts, good part) :
    ∀ part ∈ mergeTerminals parts, good part := by
  induction parts with
  | nil => exact hParts
  | cons part parts ih =>
      rw [List.forall_mem_cons] at hParts
      exact
        forall_mem_mergeNext hSets hParts.1 (ih hParts.2)

end Element

end Abnf

------------------------------------------------------------
-- Merging From The Left
------------------------------------------------------------

namespace Abnf

namespace Element

/-
  Put an alternative behind merged ones, of which the last
  one comes first. It merges with that one if it can.
-/
def mergeLast : List Element → Element → List Element
  | terminal s :: merged, terminal t =>
      if s.isEmpty || t.isEmpty then
        terminal t :: terminal s :: merged
      else
        terminal (s ∪ t) :: merged
  | merged, part => part :: merged

theorem mergeLast_of_merges
    {s t : CharSet}
    (hMerges : Merges (terminal s) (terminal t))
    (merged : List Element) :
    mergeLast (terminal s :: merged) (terminal t) =
      terminal (s ∪ t) :: merged := by
  rw [mergeLast, merges_iff.mp hMerges]
  rfl

theorem mergeLast_of_not_merges
    {last part : Element}
    (hApart : ¬ Merges last part)
    (merged : List Element) :
    mergeLast (last :: merged) part =
      part :: last :: merged := by
  unfold mergeLast
  split
  · rename_i s merged t hLast
    cases hLast
    rw [merges_iff, Bool.not_eq_false] at hApart
    rw [if_pos hApart]
  · rfl

/- What a part merges with does not show how it was merged. -/
theorem merges_head_mergeNext
    {last part next : Element}
    {rest : List Element}
    (hNext : next ∈ (mergeNext part rest).head?)
    (hMerges : Merges last next) :
    Merges last part := by
  by_cases hApart : ∀ next ∈ rest.head?, ¬ Merges part next
  · rw [mergeNext_of_not_merges hApart] at hNext
    cases hNext
    exact hMerges
  · push Not at hApart
    rcases hApart with ⟨other, _, ⟨hFirst, _⟩⟩
    cases hMerges with
    | sets hLast _ => exact .sets hLast hFirst

/- Three sets that can be one become one in either order. -/
theorem mergeNext_mergeNext
    {s t : CharSet}
    (hMerges : Merges (terminal s) (terminal t))
    (rest : List Element) :
    mergeNext (terminal s) (mergeNext (terminal t) rest) =
      mergeNext (terminal (s ∪ t)) rest := by
  have hUnion :
      ∀ next,
        Merges (terminal (s ∪ t)) next ↔
          Merges (terminal t) next :=
    fun _ => merges_union_left_iff hMerges
  by_cases hApart :
      ∀ next ∈ rest.head?, ¬ Merges (terminal t) next
  · rw [mergeNext_of_not_merges hApart,
      mergeNext_of_merges hMerges,
      mergeNext_of_not_merges]
    simpa only [hUnion] using hApart
  · push Not at hApart
    rcases hApart with ⟨next, hNext, hBoth⟩
    rcases List.head?_eq_some_iff.mp hNext with ⟨rest, rfl⟩
    cases hMerges with
    | sets hFirst hSecond =>
      cases hBoth with
      | sets _ hThird =>
          rw [mergeNext_of_merges (.sets hSecond hThird),
            mergeNext_of_merges, mergeNext_of_merges,
            CharSet.union_assoc]
          · exact (hUnion _).mpr (.sets hSecond hThird)
          · exact
              .sets hFirst
                (CharSet.isEmpty_union_of_left hSecond)

/-
  Merging from the left, with the last alternative at hand,
  gives the same list.
-/
theorem foldl_mergeLast
    (parts : List Element) :
    (parts.foldl mergeLast []).reverse =
      mergeTerminals parts := by
  have hBehind :
      ∀ parts last merged,
        (parts.foldl mergeLast (last :: merged)).reverse =
          merged.reverse ++ mergeTerminals (last :: parts) := by
    intro parts
    induction parts with
    | nil =>
        intro last merged
        simp [mergeTerminals, mergeNext]
    | cons part parts ih =>
        intro last merged
        rw [List.foldl_cons]
        by_cases hMerges : Merges last part
        · cases hMerges with
          | sets hFirst hSecond =>
              have hBoth := Merges.sets hFirst hSecond
              rw [mergeLast_of_merges hBoth, ih]
              exact
                congrArg (merged.reverse ++ ·)
                  (mergeNext_mergeNext hBoth
                    (mergeTerminals parts)).symm
        · rw [mergeLast_of_not_merges hMerges, ih]
          have hApart :
              mergeTerminals (last :: part :: parts) =
                last :: mergeTerminals (part :: parts) :=
            mergeNext_of_not_merges
              (fun next hNext hLast =>
                hMerges (merges_head_mergeNext hNext hLast))
          rw [hApart, List.reverse_cons, List.append_assoc]
          rfl
  cases parts with
  | nil => rfl
  | cons part parts =>
      rw [List.foldl_cons]
      exact hBehind parts part []

end Element

end Abnf

------------------------------------------------------------
-- Normalizing
------------------------------------------------------------

namespace Abnf

namespace Element

theorem isNormal_normalRepetition
    {min : Nat}
    {max : Option Nat}
    {body : Element}
    (hBody : IsNormal body) :
    IsNormal (normalRepetition min max body) := by
  unfold normalRepetition
  split
  · exact .terminal _
  · rename_i hNone
    split
    · exact hBody
    · rename_i hOne
      exact
        .repetition
          (fun h => hNone (Prod.mk.inj h))
          (fun h => hOne (Prod.mk.inj h)) hBody

/-
  A series that stands for its only part gives way to it;
  the conditions on any other series are left to show.
-/
theorem collapse_of_forall
    {good : Element → Prop}
    {series : List Element → Element}
    {parts : List Element}
    (hParts : ∀ part ∈ parts, good part)
    (hSeries : parts.length ≠ 1 → good (series parts)) :
    good (collapse series parts) := by
  unfold collapse
  split
  · rename_i part
    exact hParts part (List.mem_singleton_self part)
  · rename_i hMany
    apply hSeries
    intro hLength
    rcases List.length_eq_one_iff.mp hLength with ⟨part, rfl⟩
    exact hMany part rfl

theorem collapse_of_length_ne_one
    (series : List Element → Element)
    {parts : List Element}
    (hLength : parts.length ≠ 1) :
    collapse series parts = series parts := by
  unfold collapse
  split
  · exact absurd rfl hLength
  · rfl

mutual

/- Normalizing ends in a normal form. -/
theorem isNormal_normalize :
    ∀ element : Element, IsNormal element.normalize
  | ruleName name => by
      rw [normalize]
      exact .ruleName name
  | terminal s => by
      rw [normalize]
      exact .terminal s
  | repetition min max body => by
      rw [normalize]
      exact isNormal_normalRepetition (isNormal_normalize body)
  | concatenation parts => by
      have hParts := isNormal_normalizeAll parts
      rw [normalize]
      exact
        collapse_of_forall hParts
          (fun hLength => .concatenation hLength hParts)
  | alternation parts => by
      have hParts :=
        forall_mem_mergeTerminals .terminal
          (isNormal_normalizeAll parts)
      have hChain :=
        isChain_mergeTerminals (normalizeAll parts)
      rw [normalize]
      exact
        collapse_of_forall hParts
          (fun hLength => .alternation hLength hChain hParts)

theorem isNormal_normalizeAll :
    ∀ parts : List Element,
      ∀ part ∈ normalizeAll parts, IsNormal part
  | [] => by simp [normalizeAll]
  | part :: parts => by
      rw [normalizeAll, List.forall_mem_cons]
      exact
        ⟨isNormal_normalize part,
          isNormal_normalizeAll parts⟩

end

/- Parts that normalizing keeps make a list that it keeps. -/
theorem normalizeAll_eq_self
    {parts : List Element}
    (hParts : ∀ part ∈ parts, part.normalize = part) :
    normalizeAll parts = parts := by
  rw [normalizeAll_eq_map]
  exact (List.map_congr_left hParts).trans (List.map_id parts)

/- Normalizing changes nothing in a normal form. -/
theorem normalize_of_isNormal
    {element : Element}
    (h : IsNormal element) :
    element.normalize = element := by
  induction h with
  | ruleName name => rw [normalize]
  | terminal s => rw [normalize]
  | repetition hNone hOne _ ih =>
      rw [normalize, ih, normalRepetition,
        if_neg (fun h => hNone (Prod.ext h.1 h.2)),
        if_neg (fun h => hOne (Prod.ext h.1 h.2))]
  | concatenation hLength _ ih =>
      rw [normalize, normalizeAll_eq_self ih,
        collapse_of_length_ne_one _ hLength]
  | alternation hLength hChain _ ih =>
      rw [normalize, normalizeAll_eq_self ih,
        mergeTerminals_of_isChain hChain,
        collapse_of_length_ne_one _ hLength]

/-
  Normalizing ends in a normal form, keeps an element just
  when it is one, and does nothing more the second time.
-/
theorem normalize_eq_self_iff_isNormal
    (element : Element) :
    IsNormal element.normalize ∧
      (element.normalize = element ↔ IsNormal element) ∧
      element.normalize.normalize = element.normalize := by
  have hNormal := isNormal_normalize element
  refine ⟨hNormal, ?_, normalize_of_isNormal hNormal⟩
  constructor
  · intro hSame
    rwa [hSame] at hNormal
  · exact normalize_of_isNormal

end Element

end Abnf
