import Abnf.Proofs.ContextFree
import Abnf.Proofs.NormalForms

/-
  What normalizing keeps of an element.

  The normal form of a well formed element is well formed.
  It mentions the names of the element in their order, but
  for those under repetitions of no copies. It is nullable
  when the element is, and the calls that may come before
  any input are the same ones.

  Key definitions include:
    * `Abnf.Mention`
    * `Abnf.Element.mentions`
    * `Abnf.Mention.used`

  Main declarations:
    * `Abnf.Element.names_normalize`
    * `Abnf.Element.check_normalize`
    * `Abnf.Element.normalize_keeps`
-/

------------------------------------------------------------
-- Mentions
------------------------------------------------------------

namespace Abnf

/-
  A name in an element. It is unused when it stands under a
  repetition of no copies, at whatever depth.
-/
structure Mention where
  name : String
  isUnused : Bool
deriving DecidableEq

/- The names that are mentioned and used. -/
def Mention.used
    (mentions : List Mention) : List String :=
  (mentions.filter (!·.isUnused)).map (·.name)

namespace Element

mutual

/-
  The names in an element from left to right. `isUnused`
  tells whether the element itself stands under a repetition
  of no copies.
-/
def mentions
    (isUnused : Bool) : Element → List Mention
  | ruleName name => [⟨name, isUnused⟩]
  | terminal _ => []
  | repetition min max body =>
      mentions (isUnused || (min, max) == (0, some 0)) body
  | concatenation parts => mentionsOfAll isUnused parts
  | alternation parts => mentionsOfAll isUnused parts

/- The names in the elements of a list. -/
def mentionsOfAll
    (isUnused : Bool) : List Element → List Mention
  | [] => []
  | part :: parts =>
      mentions isUnused part ++ mentionsOfAll isUnused parts

end

mutual

/- The mentions of an element are its names in order. -/
theorem map_name_mentions
    (isUnused : Bool) :
    ∀ element : Element,
      (element.mentions isUnused).map (·.name) =
        element.names
  | ruleName name => rfl
  | terminal s => rfl
  | repetition min max body => by
      rw [mentions, names, map_name_mentions _ body]
  | concatenation parts => by
      rw [mentions, names, map_name_mentionsOfAll _ parts]
  | alternation parts => by
      rw [mentions, names, map_name_mentionsOfAll _ parts]

theorem map_name_mentionsOfAll
    (isUnused : Bool) :
    ∀ parts : List Element,
      (mentionsOfAll isUnused parts).map (·.name) =
        namesOfAll parts
  | [] => rfl
  | part :: parts => by
      rw [mentionsOfAll, namesOfAll, List.map_append,
        map_name_mentions _ part,
        map_name_mentionsOfAll _ parts]

end

end Element

end Abnf

------------------------------------------------------------
-- Names Of Normal Forms
------------------------------------------------------------

namespace Abnf

namespace Mention

theorem used_append
    (first second : List Mention) :
    used (first ++ second) = used first ++ used second := by
  rw [used, List.filter_append, List.map_append]
  rfl

end Mention

namespace Element

open Mention

mutual

/- Nothing under a repetition of no copies is used. -/
theorem used_mentions_true :
    ∀ element : Element, used (element.mentions true) = []
  | ruleName name => rfl
  | terminal s => rfl
  | repetition min max body => by
      rw [mentions, Bool.true_or]
      exact used_mentions_true body
  | concatenation parts => by
      rw [mentions]
      exact used_mentionsOfAll_true parts
  | alternation parts => by
      rw [mentions]
      exact used_mentionsOfAll_true parts

theorem used_mentionsOfAll_true :
    ∀ parts : List Element,
      used (mentionsOfAll true parts) = []
  | [] => rfl
  | part :: parts => by
      rw [mentionsOfAll, used_append,
        used_mentions_true part,
        used_mentionsOfAll_true parts]
      rfl

end

mutual

/- The normal form mentions the names that are used. -/
theorem names_normalize :
    ∀ element : Element,
      element.normalize.names =
        used (element.mentions false)
  | ruleName name => rfl
  | terminal s => rfl
  | repetition min max body => by
      rw [normalize, normalRepetition, mentions,
        Bool.false_or]
      split
      · rename_i hNone
        rw [hNone.1, hNone.2, beq_self_eq_true,
          used_mentions_true]
        rfl
      · rename_i hSome
        have hCopies :
            ((min, max) == (0, some 0)) = false := by
          rw [beq_eq_false_iff_ne]
          exact fun h => hSome (Prod.mk.inj h)
        rw [hCopies]
        split
        · exact names_normalize body
        · rw [names]
          exact names_normalize body
  | concatenation parts => by
      rw [normalize,
        names_collapse (fun parts => by rw [names]),
        mentions]
      exact namesOfAll_normalizeAll parts
  | alternation parts => by
      rw [normalize,
        names_collapse (fun parts => by rw [names]),
        namesOfAll_mergeTerminals, mentions]
      exact namesOfAll_normalizeAll parts

theorem namesOfAll_normalizeAll :
    ∀ parts : List Element,
      namesOfAll (normalizeAll parts) =
        used (mentionsOfAll false parts)
  | [] => rfl
  | part :: parts => by
      rw [normalizeAll, namesOfAll, mentionsOfAll,
        used_append, names_normalize part,
        namesOfAll_normalizeAll parts]

end

end Element

end Abnf

------------------------------------------------------------
-- Checks Of Normal Forms
------------------------------------------------------------

namespace Abnf

namespace Element

/- Some alternative is left when alternatives merge. -/
theorem mergeTerminals_ne_nil
    {parts : List Element}
    (hSome : parts ≠ []) :
    mergeTerminals parts ≠ [] := by
  cases parts with
  | nil => exact absurd rfl hSome
  | cons part parts =>
      rw [mergeTerminals, List.foldr_cons]
      unfold mergeNext
      split
      · split <;> exact List.cons_ne_nil _ _
      · exact List.cons_ne_nil _ _

theorem check_normalRepetition
    {min : Nat}
    {max : Option Nat}
    {body : Element}
    (hBounds : ∀ limit, max = some limit → min ≤ limit)
    (hBody : body.check = .ok ()) :
    (normalRepetition min max body).check = .ok () := by
  unfold normalRepetition
  split
  · rfl
  · split
    · exact hBody
    · exact check_repetition_iff.mpr ⟨hBounds, hBody⟩

mutual

/-
  Normalizing keeps elements well formed. A series loses
  parts only by merging, and gives way to the last one that
  is left.
-/
theorem check_normalize :
    ∀ element : Element,
      element.check = .ok () →
      element.normalize.check = .ok ()
  | ruleName name, h => h
  | terminal s, h => h
  | repetition min max body, h => by
      rw [check_repetition_iff] at h
      rw [normalize]
      exact
        check_normalRepetition h.1 (check_normalize body h.2)
  | concatenation parts, h => by
      rw [check_concatenation_iff] at h
      have hParts := check_normalizeAll parts h.2
      rw [normalize]
      apply collapse_of_forall hParts
      intro _
      rw [check_concatenation_iff, normalizeAll_eq_map,
        List.length_map, ← normalizeAll_eq_map]
      exact ⟨h.1, hParts⟩
  | alternation parts, h => by
      rw [check_alternation_iff] at h
      have hParts :=
        forall_mem_mergeTerminals (fun _ => rfl)
          (check_normalizeAll parts h.2)
      rw [normalize]
      apply collapse_of_forall hParts
      intro hMany
      have hSome :
          (mergeTerminals (normalizeAll parts)).length ≠
            0 := by
        rw [ne_eq, List.length_eq_zero_iff]
        apply mergeTerminals_ne_nil
        rw [normalizeAll_eq_map, ne_eq, List.map_eq_nil_iff,
          ← List.length_eq_zero_iff]
        omega
      exact
        check_alternation_iff.mpr ⟨by omega, hParts⟩

theorem check_normalizeAll :
    ∀ parts : List Element,
      (∀ part ∈ parts, part.check = .ok ()) →
      ∀ part ∈ normalizeAll parts, part.check = .ok ()
  | [], _ => by simp [normalizeAll]
  | part :: parts, h => by
      rw [List.forall_mem_cons] at h
      rw [normalizeAll, List.forall_mem_cons]
      exact
        ⟨check_normalize part h.1,
          check_normalizeAll parts h.2⟩

end

end Element

end Abnf

------------------------------------------------------------
-- All That Is Kept
------------------------------------------------------------

namespace Abnf

namespace Element

/-
  Normalizing keeps an element well formed. Of its names, it
  drops those that are unused and leaves the others in their
  order, and whatever names are known to be nullable, the
  element is nullable as before and leads to the same calls
  in the same order.
-/
theorem normalize_keeps
    (element : Element) :
    (element.check = .ok () →
      element.normalize.check = .ok ()) ∧
    (element.mentions false).map (·.name) = element.names ∧
    element.normalize.names =
      Mention.used (element.mentions false) ∧
    ∀ known,
      element.normalize.isNullable known =
        element.isNullable known ∧
      element.normalize.leading known =
        element.leading known :=
  ⟨check_normalize element,
    map_name_mentions false element,
    names_normalize element,
    fun known =>
      ⟨isNullable_normalize known element,
        leading_normalize known element⟩⟩

/-
  Letters that merge around the empty text, behind a name
  that is never called and one that is called once.
-/
def paddedLetter : Element :=
  .concatenation
    [.repetition 0 (some 0)
       (.repetition 1 none (.ruleName "skipped")),
     .repetition 1 (some 1) (.ruleName "pad"),
     .alternation
       [.chars "a", .chars "b", .empty, .chars "c",
        .repetition 1 (some 1) (.chars "d")]]

theorem normalize_keeps_paddedLetter :
    paddedLetter.check = .ok () ∧
      paddedLetter.normalize.check = .ok () ∧
      paddedLetter.names = ["skipped", "pad"] ∧
      paddedLetter.normalize.names = ["pad"] ∧
      paddedLetter.normalize.leading [] = ["pad"] := by
  have hCheck : paddedLetter.check = .ok () := by decide
  have hNames :
      Mention.used (paddedLetter.mentions false) =
        ["pad"] := by
    decide
  have hLeading : paddedLetter.leading [] = ["pad"] := by
    decide
  rcases normalize_keeps paddedLetter with
    ⟨hKept, _, hUsed, hKnown⟩
  exact
    ⟨hCheck, hKept hCheck, by decide, hUsed.trans hNames,
      (hKnown []).2.trans hLeading⟩

end Element

end Abnf
