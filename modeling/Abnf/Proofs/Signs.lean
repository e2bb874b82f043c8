import Abnf.Proofs.GrammarWords
import Abnf.Proofs.SetRuns

/-
  The characters of ABNF notation.

  The notation of an element is made of signs and of the
  characters of the names in it. So what is neither a sign
  nor a character of a name does not stand in it, such as
  the end of a line or an angle bracket.

  Key definitions include:
    * `Abnf.isSign`
    * `Abnf.IsSpelled`

  Main declarations:
    * `Abnf.Element.isSpelled_text`
    * `Abnf.Rule.isSpelled_text`
-/

------------------------------------------------------------
-- Spelled Texts
------------------------------------------------------------

namespace Abnf

/- The signs of the notation, digits among them. -/
def isSign
    (c : Char) : Bool :=
  Grammar.isHexDigit c || "%x-\"*()[]/= ".toList.contains c

theorem lt_of_isSign
    {c : Char}
    (h : isSign c = true) :
    c.toNat < CharSet.tableSize := by
  rw [isSign, Bool.or_eq_true] at h
  rcases h with hDigit | hOther
  · have hBounds := Grammar.lt_of_isHexDigit hDigit
    exact Nat.lt_of_le_of_lt hBounds.2 (by decide)
  · have hSigns : Grammar.IsAscii "%x-\"*()[]/= ".toList := by
      decide
    exact hSigns c (List.contains_iff_mem.mp hOther)

/- A text is made of signs and of characters of names. -/
def IsSpelled
    (names : List String)
    (text : String) : Prop :=
  ∀ c ∈ text.toList,
    isSign c = true ∨ ∃ name ∈ names, c ∈ name.toList

namespace IsSpelled

variable {names names' : List String}
variable {text text' : String}

theorem of_signs
    (h : text.toList.all isSign = true) :
    IsSpelled names text :=
  fun c hc => Or.inl (List.all_eq_true.mp h c hc)

theorem of_mem
    {name : String}
    (h : name ∈ names) :
    IsSpelled names name :=
  fun _ hc => Or.inr ⟨name, h, hc⟩

/- More names leave more to be spelled with. -/
theorem mono
    (h : IsSpelled names text)
    (hSubset : names ⊆ names') :
    IsSpelled names' text := by
  intro c hc
  rcases h c hc with hSign | ⟨name, hName, hIn⟩
  · exact Or.inl hSign
  · exact Or.inr ⟨name, hSubset hName, hIn⟩

theorem append
    (h : IsSpelled names text)
    (h' : IsSpelled names text') :
    IsSpelled names (text ++ text') := by
  intro c hc
  rw [String.toList_append, List.mem_append] at hc
  exact hc.elim (h c) (h' c)

theorem intercalate
    {separator : String}
    {texts : List String}
    (hSeparator : separator.toList.all isSign = true)
    (hTexts : ∀ text ∈ texts, IsSpelled names text) :
    IsSpelled names (separator.intercalate texts) := by
  induction texts with
  | nil => exact of_signs rfl
  | cons text texts ih =>
      rw [List.forall_mem_cons] at hTexts
      by_cases hNone : texts = []
      · rw [hNone, String.intercalate_singleton]
        exact hTexts.1
      · rw [String.intercalate_cons_of_ne_nil hNone]
        exact
          (hTexts.1.append (of_signs hSeparator)).append
            (ih hTexts.2)

end IsSpelled

end Abnf

------------------------------------------------------------
-- Spelled Elements
------------------------------------------------------------

namespace Abnf

open IsSpelled

variable {names : List String}

theorem isSpelled_toString
    (n : Nat) : IsSpelled names (toString n) := by
  intro c hc
  rw [Grammar.toList_toString] at hc
  have hDigit := Grammar.isDigit_of_mem_digitsOf hc
  left
  rw [isSign, Grammar.isHexDigit, hDigit]
  rfl

theorem CharSet.isSpelled_text
    (s : CharSet) : IsSpelled names s.text := by
  have hDigits :
      ∀ code < tableSize,
        IsSpelled names (Text.hexUpper 2 code) := by
    intro code hCode c hc
    have hAll := (Grammar.hexDigits_of_lt code hCode).1
    left
    rw [isSign, List.all_eq_true.mp hAll c hc]
    rfl
  have hRun :
      ∀ run ∈ s.runs, IsSpelled names (runText run) := by
    intro run hMember
    have hBounds := bounds_of_mem_runs hMember
    have hStart : IsSpelled names "%x" := of_signs (by decide)
    have hFirst := hStart.append (hDigits run.1 (by omega))
    rw [runText]
    split
    · exact hFirst
    · exact
        (hFirst.append (of_signs (by decide))).append
          (hDigits run.2 hBounds.2)
  rw [CharSet.text]
  split
  · exact of_signs (by decide)
  · exact
      intercalate (by decide) (List.forall_mem_map.mpr hRun)

namespace Element

theorem isSpelled_boundsText
    (min : Nat)
    (max : Option Nat) :
    IsSpelled names (boundsText min max) := by
  have hStar : IsSpelled names "*" := of_signs (by decide)
  have hMin := @isSpelled_toString names min
  cases max with
  | none =>
      rw [boundsText]
      split
      · exact hStar
      · exact hMin.append hStar
  | some max =>
      have hMax := @isSpelled_toString names max
      rw [boundsText]
      split
      · exact hMin
      · split
        · exact hStar.append hMax
        · exact (hMin.append hStar).append hMax

theorem isSpelled_grouped
    {text : String}
    (needed : Bool)
    (h : IsSpelled names text) :
    IsSpelled names (grouped needed text) := by
  rw [grouped]
  split
  · exact
      ((of_signs (by decide)).append h).append
        (of_signs (by decide))
  · exact h

mutual

/- An element is spelled with the names in it. -/
theorem isSpelled_text :
    ∀ element : Element, IsSpelled element.names element.text
  | ruleName name => by
      rw [text]
      exact of_mem List.mem_cons_self
  | terminal s => by
      rw [text]
      exact s.isSpelled_text
  | repetition min max body => by
      have hBody := isSpelled_text body
      rw [text, names]
      split
      · exact
          ((of_signs (by decide)).append hBody).append
            (of_signs (by decide))
      · exact
          (isSpelled_boundsText min max).append
            (isSpelled_grouped _ hBody)
  | concatenation parts => by
      have hParts := isSpelled_texts parts
      rw [text, names]
      apply intercalate (by decide)
      intro part hPart
      rw [← List.map_uncurry_zip_eq_zipWith,
        List.mem_map] at hPart
      rcases hPart with ⟨pair, hPair, rfl⟩
      apply isSpelled_grouped
      exact hParts _ (List.of_mem_zip hPair).2
  | alternation parts => by
      rw [text, names]
      exact intercalate (by decide) (isSpelled_texts parts)

/- So are some elements, with all the names in them. -/
theorem isSpelled_texts :
    ∀ parts : List Element,
      ∀ text ∈ texts parts, IsSpelled (namesOfAll parts) text
  | [], _, hNone => nomatch hNone
  | part :: parts, text, hText => by
      rw [texts, List.mem_cons] at hText
      rw [namesOfAll]
      rcases hText with rfl | hRest
      · exact
          (isSpelled_text part).mono
            (List.subset_append_left _ _)
      · exact
          (isSpelled_texts parts text hRest).mono
            (List.subset_append_right _ _)

end

end Element

/- A rule is spelled with its name and those in it. -/
theorem Rule.isSpelled_text
    (rule : Rule) :
    IsSpelled (rule.name :: rule.element.names) rule.text :=
  ((of_mem List.mem_cons_self).append
    (of_signs (by decide))).append
      (rule.element.isSpelled_text.mono
        (List.subset_cons_self _ _))

end Abnf
