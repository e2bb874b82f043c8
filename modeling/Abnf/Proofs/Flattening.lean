import Abnf.Proofs.ContextFree
import Abnf.Proofs.PublicRules
import Abnf.Proofs.SetRuns

/-
  Elements without nested series.

  The notation of a concatenation in a concatenation, of an
  alternation in an alternation, or of a set of several runs
  does not tell it from a flat series. `flat` gives the tree
  that the notation stands for. It is written like the
  element, it runs like the element, and it makes the same
  calls, so the rules of flat elements make programs that
  act like those of the given rules.

  Key definitions include:
    * `Abnf.Element.flat`
    * `Abnf.Rule.flat`
    * `Abnf.Element.Agrees`
    * `Abnf.Program.ActsLike`

  Main declarations:
    * `Abnf.Element.agrees_flat`
    * `Abnf.Element.text_flat`
    * `Abnf.Program.ofRules_map_flat`
-/

------------------------------------------------------------
-- Flat Elements
------------------------------------------------------------

namespace Abnf

namespace Element

/- The parts of an element as those of a concatenation. -/
def seriesParts : Element → List Element
  | concatenation parts => parts
  | part => [part]

/- The parts of an element as those of an alternation. -/
def choiceParts : Element → List Element
  | alternation parts => parts
  | part => [part]

mutual

/- The element with series of series made one series. -/
def flat : Element → Element
  | ruleName name => ruleName name
  | terminal s =>
      if s.isSingleRun then
        terminal s
      else
        alternation
          (s.runs.map (fun run => terminal (.ofRun run)))
  | repetition min max body => repetition min max (flat body)
  | concatenation parts => concatenation (flatSeries parts)
  | alternation parts => alternation (flatChoice parts)

/- The parts of a concatenation, with theirs if they are. -/
def flatSeries : List Element → List Element
  | [] => []
  | part :: parts =>
      seriesParts (flat part) ++ flatSeries parts

/- The parts of an alternation, with theirs if they are. -/
def flatChoice : List Element → List Element
  | [] => []
  | part :: parts =>
      choiceParts (flat part) ++ flatChoice parts

end

end Element

/- The rule with its element made flat. -/
def Rule.flat
    (rule : Rule) : Rule :=
  rule.withElement rule.element.flat

end Abnf

------------------------------------------------------------
-- Runs One After The Other
------------------------------------------------------------

namespace Abnf

namespace Run

theorem andThen_assoc
    (run : Run)
    (next next' : Nat → Run) :
    (run.andThen next).andThen next' =
      run.andThen (fun mid => (next mid).andThen next') := by
  cases hRun : run.outcome with
  | matched mid =>
    cases hNext : (next mid).outcome with
    | matched stop =>
      simp [andThen, hRun, hNext, after]
    | failed => simp [andThen, hRun, hNext, after]
    | noRoutine index => simp [andThen, hRun, hNext, after]
    | tooDeep => simp [andThen, hRun, hNext, after]
  | failed => simp [andThen, hRun]
  | noRoutine index => simp [andThen, hRun]
  | tooDeep => simp [andThen, hRun]

theorem orElse_assoc
    (run : Run)
    (other other' : Unit → Run) :
    (run.orElse other).orElse other' =
      run.orElse (fun _ => (other ()).orElse other') := by
  cases hRun : run.outcome with
  | matched mid => simp [orElse, hRun]
  | failed =>
    cases hOther : (other ()).outcome with
    | matched stop => simp [orElse, hRun, hOther, after]
    | failed => simp [orElse, hRun, hOther, after]
    | noRoutine index =>
      simp [orElse, hRun, hOther, after]
    | tooDeep => simp [orElse, hRun, hOther, after]
  | noRoutine index => simp [orElse, hRun]
  | tooDeep => simp [orElse, hRun]

end Run

namespace Element

variable (known : List String)
variable (input : Array UInt8)
variable (callee : String → Nat → Run)

theorem namesOfAll_append
    (parts parts' : List Element) :
    namesOfAll (parts ++ parts') =
      namesOfAll parts ++ namesOfAll parts' := by
  induction parts with
  | nil => simp [namesOfAll]
  | cons part parts ih => simp [namesOfAll, ih]

theorem allNullable_append
    (parts parts' : List Element) :
    allNullable known (parts ++ parts') =
      (allNullable known parts &&
        allNullable known parts') := by
  induction parts with
  | nil => simp [allNullable]
  | cons part parts ih =>
    simp [allNullable, ih, Bool.and_assoc]

theorem anyNullable_append
    (parts parts' : List Element) :
    anyNullable known (parts ++ parts') =
      (anyNullable known parts ||
        anyNullable known parts') := by
  induction parts with
  | nil => simp [anyNullable]
  | cons part parts ih =>
    simp [anyNullable, ih, Bool.or_assoc]

theorem leadingOfSeries_append
    (parts parts' : List Element) :
    leadingOfSeries known (parts ++ parts') =
      leadingOfSeries known parts ++
        if allNullable known parts then
          leadingOfSeries known parts'
        else
          [] := by
  induction parts with
  | nil => simp [leadingOfSeries, allNullable]
  | cons part parts ih =>
    cases hNull : part.isNullable known with
    | true => simp [leadingOfSeries, allNullable, hNull, ih]
    | false => simp [leadingOfSeries, allNullable, hNull]

theorem leadingOfAll_append
    (parts parts' : List Element) :
    leadingOfAll known (parts ++ parts') =
      leadingOfAll known parts ++
        leadingOfAll known parts' := by
  induction parts with
  | nil => simp [leadingOfAll]
  | cons part parts ih => simp [leadingOfAll, ih]

theorem runSeries_append
    (parts parts' : List Element)
    (index : Nat) :
    runSeries input callee (parts ++ parts') index =
      (runSeries input callee parts index).andThen
        (runSeries input callee parts') := by
  induction parts generalizing index with
  | nil => simp [runSeries, Run.andThen, Run.quiet, Run.after]
  | cons part parts ih =>
    rw [List.cons_append, runSeries, runSeries,
      Run.andThen_assoc]
    congr 1
    funext mid
    exact ih mid

theorem runFirst_append
    (parts parts' : List Element)
    (index : Nat) :
    runFirst input callee (parts ++ parts') index =
      (runFirst input callee parts index).orElse
        (fun _ => runFirst input callee parts' index) := by
  induction parts with
  | nil => simp [runFirst, Run.orElse_quiet_failed]
  | cons part parts ih =>
    rw [List.cons_append, runFirst, runFirst,
      Run.orElse_assoc, ih]

end Element

end Abnf

------------------------------------------------------------
-- Elements That Agree
------------------------------------------------------------

namespace Abnf

namespace Element

/-
  An element has the names of another one, and what it calls
  and how it runs do not differ.
-/
structure Agrees
    (element other : Element) : Prop where
  names : element.names = other.names
  isNullable :
    ∀ known, element.isNullable known = other.isNullable known
  leading :
    ∀ known, element.leading known = other.leading known
  run :
    ∀ input callee index,
      element.run input callee index =
        other.run input callee index

theorem Agrees.refl
    (element : Element) :
    Agrees element element :=
  ⟨rfl, fun _ => rfl, fun _ => rfl, fun _ _ _ => rfl⟩

theorem Agrees.trans
    {element other third : Element}
    (h : Agrees element other)
    (h' : Agrees other third) :
    Agrees element third where
  names := h.names.trans h'.names
  isNullable known :=
    (h.isNullable known).trans (h'.isNullable known)
  leading known := (h.leading known).trans (h'.leading known)
  run input callee index :=
    (h.run input callee index).trans
      (h'.run input callee index)

/- Repetitions of bodies that agree do. -/
theorem Agrees.repetition
    {body body' : Element}
    (h : Agrees body body')
    (min : Nat)
    (max : Option Nat) :
    Agrees (.repetition min max body)
      (.repetition min max body') where
  names := by
    rw [Element.names, Element.names, h.names]
  isNullable known := by
    rw [Element.isNullable, Element.isNullable,
      h.isNullable]
  leading known := by
    rw [Element.leading, Element.leading, h.leading]
  run input callee index := by
    have hBody :
        (fun i => body.run input callee i) =
          (fun i => body'.run input callee i) := by
      funext i
      exact h.run input callee i
    rw [Element.run, Element.run, hBody]

/- The parts of an element run as a concatenation. -/
theorem agrees_seriesParts
    (element : Element) :
    Agrees (concatenation element.seriesParts) element := by
  have hOne : Agrees (concatenation [element]) element := by
    refine ⟨?_, ?_, ?_, ?_⟩
    · simp [Element.names, namesOfAll]
    · intro known
      simp [Element.isNullable, allNullable]
    · intro known
      simp [Element.leading, leadingOfSeries]
    · intro input callee index
      simp [Element.run, runSeries, Run.andThen_matched]
  cases element with
  | concatenation parts => exact Agrees.refl _
  | ruleName name => exact hOne
  | terminal s => exact hOne
  | repetition min max body => exact hOne
  | alternation parts => exact hOne

/- The parts of an element run as an alternation. -/
theorem agrees_choiceParts
    (element : Element) :
    Agrees (alternation element.choiceParts) element := by
  have hOne : Agrees (alternation [element]) element := by
    refine ⟨?_, ?_, ?_, ?_⟩
    · simp [Element.names, namesOfAll]
    · intro known
      simp [Element.isNullable, anyNullable]
    · intro known
      simp [Element.leading, leadingOfAll]
    · intro input callee index
      simp [Element.run, runFirst, Run.orElse_failed]
  cases element with
  | alternation parts => exact Agrees.refl _
  | ruleName name => exact hOne
  | terminal s => exact hOne
  | repetition min max body => exact hOne
  | concatenation parts => exact hOne

/- A part of a concatenation can be put as several. -/
theorem Agrees.concatenation_append
    {part : Element}
    {inner parts parts' : List Element}
    (hPart : Agrees (concatenation inner) part)
    (hParts :
      Agrees (concatenation parts') (concatenation parts)) :
    Agrees (concatenation (inner ++ parts'))
      (concatenation (part :: parts)) where
  names := by
    have hFirst := hPart.names
    have hRest := hParts.names
    simp only [Element.names] at hFirst hRest
    simp only [Element.names, namesOfAll_append, namesOfAll,
      hFirst, hRest]
  isNullable known := by
    have hFirst := hPart.isNullable known
    have hRest := hParts.isNullable known
    simp only [Element.isNullable] at hFirst hRest
    simp only [Element.isNullable, allNullable_append,
      allNullable, hFirst, hRest]
  leading known := by
    have hFirst := hPart.leading known
    have hRest := hParts.leading known
    have hNull := hPart.isNullable known
    simp only [Element.leading] at hFirst hRest
    simp only [Element.isNullable] at hNull
    simp only [Element.leading, leadingOfSeries_append,
      leadingOfSeries, hFirst, hRest, hNull]
  run input callee index := by
    have hFirst := hPart.run input callee index
    have hRest :
        runSeries input callee parts' =
          runSeries input callee parts := by
      funext mid
      have hMid := hParts.run input callee mid
      simpa only [Element.run] using hMid
    simp only [Element.run] at hFirst
    simp only [Element.run, runSeries_append, runSeries,
      hFirst, hRest]

/- A part of an alternation can be put as several. -/
theorem Agrees.alternation_append
    {part : Element}
    {inner parts parts' : List Element}
    (hPart : Agrees (alternation inner) part)
    (hParts :
      Agrees (alternation parts') (alternation parts)) :
    Agrees (alternation (inner ++ parts'))
      (alternation (part :: parts)) where
  names := by
    have hFirst := hPart.names
    have hRest := hParts.names
    simp only [Element.names] at hFirst hRest
    simp only [Element.names, namesOfAll_append, namesOfAll,
      hFirst, hRest]
  isNullable known := by
    have hFirst := hPart.isNullable known
    have hRest := hParts.isNullable known
    simp only [Element.isNullable] at hFirst hRest
    simp only [Element.isNullable, anyNullable_append,
      anyNullable, hFirst, hRest]
  leading known := by
    have hFirst := hPart.leading known
    have hRest := hParts.leading known
    simp only [Element.leading] at hFirst hRest
    simp only [Element.leading, leadingOfAll_append,
      leadingOfAll, hFirst, hRest]
  run input callee index := by
    have hFirst := hPart.run input callee index
    have hRest := hParts.run input callee index
    simp only [Element.run] at hFirst hRest
    simp only [Element.run, runFirst_append, runFirst,
      hFirst, hRest]

end Element

end Abnf

------------------------------------------------------------
-- Sets As Alternations
------------------------------------------------------------

namespace Abnf

namespace Element

/- Runs take a byte that lies in one of them. -/
theorem runFirst_ofRuns
    (input : Array UInt8)
    (callee : String → Nat → Run)
    (runs : List (Nat × Nat))
    (hRuns :
      ∀ run ∈ runs,
        run.1 ≤ run.2 ∧ run.2 < CharSet.tableSize)
    (index : Nat) :
    runFirst input callee
        (runs.map (fun run => terminal (.ofRun run))) index =
      .quiet
        (match input[index]? with
        | some b =>
            if runs.any (fun run =>
                (CharSet.ofRun run).containsByte b) then
              .matched (index + 1)
            else
              .failed
        | none => .failed) := by
  induction runs with
  | nil =>
    cases hByte : input[index]? with
    | none => simp [runFirst]
    | some b => simp [runFirst]
  | cons run runs ih =>
    have hBounds := hRuns run List.mem_cons_self
    have hSome :=
      CharSet.not_isEmpty_ofRun hBounds.1 hBounds.2
    have hRest := ih (fun other hOther =>
      hRuns other (List.mem_cons_of_mem _ hOther))
    rw [List.map_cons, runFirst, Element.run, runSet, hSome,
      hRest]
    cases hByte : input[index]? with
    | none => simp [Run.orElse_quiet_failed]
    | some b =>
      cases hHere : (CharSet.ofRun run).containsByte b with
      | true => simp [hHere, Run.orElse_quiet_matched]
      | false =>
        simp only [List.any_cons, hHere, Bool.false_or,
          Bool.false_eq_true, if_false,
          Run.orElse_quiet_failed]

/- A set of several runs is the alternation of them. -/
theorem agrees_runs
    {s : CharSet}
    (hMany : s.isSingleRun = false) :
    Agrees
      (alternation
        (s.runs.map (fun run => terminal (.ofRun run))))
      (terminal s) := by
  have hBounds :
      ∀ run ∈ s.runs,
        run.1 ≤ run.2 ∧ run.2 < CharSet.tableSize :=
    fun run hRun => CharSet.bounds_of_mem_runs hRun
  have hSome : s.isEmpty = false := by
    rw [Bool.eq_false_iff]
    intro hEmpty
    have hNone := CharSet.isEmpty_iff.mp hEmpty
    have hSize := CharSet.one_lt_size_of_not_isSingleRun hMany
    rw [← CharSet.length_codes] at hSize
    rcases List.exists_mem_of_length_pos
        (Nat.lt_trans Nat.zero_lt_one hSize) with
      ⟨code, hCode⟩
    rw [CharSet.mem_codes_iff, hNone code] at hCode
    cases hCode
  have hNotEmpty :
      ∀ run ∈ s.runs, (CharSet.ofRun run).isEmpty = false :=
    fun run hRun =>
      CharSet.not_isEmpty_ofRun (hBounds run hRun).1
        (hBounds run hRun).2
  refine ⟨?_, ?_, ?_, ?_⟩
  · rw [Element.names, Element.names]
    induction s.runs with
    | nil => rfl
    | cons run runs ih =>
      rw [List.map_cons, namesOfAll, ih]
      rfl
  · intro known
    rw [Element.isNullable, Element.isNullable, hSome]
    generalize s.runs = runs at hNotEmpty
    induction runs with
    | nil => rfl
    | cons run runs ih =>
      rw [List.map_cons, anyNullable, Element.isNullable,
        hNotEmpty run List.mem_cons_self, Bool.false_or]
      exact ih (fun other hOther =>
        hNotEmpty other (List.mem_cons_of_mem _ hOther))
  · intro known
    rw [Element.leading, Element.leading]
    induction s.runs with
    | nil => rfl
    | cons run runs ih =>
      rw [List.map_cons, leadingOfAll, ih]
      rfl
  · intro input callee index
    rw [run, run, runFirst_ofRuns _ _ _ hBounds, runSet,
      hSome]
    cases hByte : input[index]? with
    | none => rfl
    | some b =>
      have hAny :
          s.runs.any (fun run =>
              (CharSet.ofRun run).containsByte b) =
            s.containsByte b := by
        rw [Bool.eq_iff_iff, List.any_eq_true]
        simp only [CharSet.containsByte]
        rw [CharSet.hasCode_iff_exists_run]
        apply exists_congr
        intro run
        apply and_congr_right
        intro hRun
        exact
          CharSet.hasCode_ofRun (hBounds run hRun).1
            (hBounds run hRun).2 _
      simp [hAny]

mutual

/- A flat element agrees with the element it is made of. -/
theorem agrees_flat :
    ∀ element : Element, Agrees element.flat element
  | ruleName name => by
      rw [flat]
      exact Agrees.refl _
  | terminal s => by
      rw [flat]
      split
      · exact Agrees.refl _
      · rename_i hMany
        exact agrees_runs (Bool.eq_false_iff.mpr hMany)
  | repetition min max body => by
      rw [flat]
      exact (agrees_flat body).repetition min max
  | concatenation parts => by
      rw [flat]
      exact agrees_flatSeries parts
  | alternation parts => by
      rw [flat]
      exact agrees_flatChoice parts

theorem agrees_flatSeries :
    ∀ parts : List Element,
      Agrees (concatenation (flatSeries parts))
        (concatenation parts)
  | [] => by
      rw [flatSeries]
      exact Agrees.refl _
  | part :: parts => by
      rw [flatSeries]
      exact
        ((agrees_seriesParts part.flat).trans
          (agrees_flat part)).concatenation_append
            (agrees_flatSeries parts)

theorem agrees_flatChoice :
    ∀ parts : List Element,
      Agrees (alternation (flatChoice parts))
        (alternation parts)
  | [] => by
      rw [flatChoice]
      exact Agrees.refl _
  | part :: parts => by
      rw [flatChoice]
      exact
        ((agrees_choiceParts part.flat).trans
          (agrees_flat part)).alternation_append
            (agrees_flatChoice parts)

end

end Element

end Abnf

------------------------------------------------------------
-- The Notation Of Flat Elements
------------------------------------------------------------

namespace Abnf

namespace Element

/- An element as it is written in a concatenation. -/
def itemText
    (element : Element) : String :=
  grouped element.groupedInConcatenation element.text

theorem texts_eq_map
    (parts : List Element) :
    texts parts = parts.map text := by
  induction parts with
  | nil => rfl
  | cons part parts ih => rw [texts, ih, List.map_cons]

theorem text_concatenation
    (parts : List Element) :
    (concatenation parts).text =
      " ".intercalate (parts.map itemText) := by
  rw [text, texts_eq_map, List.zipWith_map, List.zipWith_self]
  rfl

theorem text_alternation
    (parts : List Element) :
    (alternation parts).text =
      " / ".intercalate (parts.map text) := by
  rw [text, texts_eq_map]

/- The notation of a run. -/
theorem text_ofRun
    {run : Nat × Nat}
    (hOrdered : run.1 ≤ run.2)
    (hTable : run.2 < CharSet.tableSize) :
    (CharSet.ofRun run).text = CharSet.runText run := by
  simp [CharSet.text, CharSet.runs_ofRun hOrdered hTable]

/- The notation of a set is that of its runs. -/
theorem text_alternation_runs
    {s : CharSet}
    (hMany : s.isSingleRun = false) :
    (alternation
        (s.runs.map
          (fun run => terminal (.ofRun run)))).text =
      s.text := by
  have hSome : s.runs.isEmpty = false := by
    rw [Bool.eq_false_iff, ne_eq, List.isEmpty_iff]
    intro hNone
    have hSingle :=
      (CharSet.isSingleRun_iff s).mpr (by simp [hNone])
    rw [hMany] at hSingle
    cases hSingle
  rw [text_alternation, CharSet.text, hSome, List.map_map,
    if_neg Bool.false_ne_true]
  congr 1
  apply List.map_congr_left
  intro run hRun
  have hBounds := CharSet.bounds_of_mem_runs hRun
  exact text_ofRun hBounds.1 hBounds.2

/- Parts in place of a part keep the notation of a list. -/
theorem intercalate_append_map
    (separator : String)
    (write : Element → String)
    {part : Element}
    {inner parts parts' : List Element}
    (hInner : inner ≠ [])
    (hPart :
      separator.intercalate (inner.map write) = write part)
    (hNil : parts' = [] ↔ parts = [])
    (hParts :
      separator.intercalate (parts'.map write) =
        separator.intercalate (parts.map write)) :
    separator.intercalate ((inner ++ parts').map write) =
      separator.intercalate ((part :: parts).map write) := by
  by_cases hNone : parts = []
  · have hNone' := hNil.mpr hNone
    subst hNone hNone'
    simpa using hPart
  · have hSome : parts'.map write ≠ [] := by
      rw [ne_eq, List.map_eq_nil_iff, hNil]
      exact hNone
    rw [List.map_append,
      String.intercalate_append_of_ne_nil
        (by simpa using hInner) hSome,
      hPart, hParts, List.map_cons,
      String.intercalate_cons_of_ne_nil
        (by simpa using hNone)]

/- The parts of an element are written like the element. -/
theorem intercalate_seriesParts
    (element : Element) :
    " ".intercalate (element.seriesParts.map itemText) =
      element.itemText := by
  cases element with
  | concatenation parts =>
    rw [seriesParts, ← text_concatenation]
    rfl
  | ruleName name => exact String.intercalate_singleton
  | terminal s => exact String.intercalate_singleton
  | repetition min max body =>
    exact String.intercalate_singleton
  | alternation parts => exact String.intercalate_singleton

theorem intercalate_choiceParts
    (element : Element) :
    " / ".intercalate (element.choiceParts.map text) =
      element.text := by
  cases element with
  | alternation parts =>
    rw [choiceParts, ← text_alternation]
  | ruleName name => exact String.intercalate_singleton
  | terminal s => exact String.intercalate_singleton
  | repetition min max body =>
    exact String.intercalate_singleton
  | concatenation parts => exact String.intercalate_singleton

/- A flat element needs the parentheses of the element. -/
theorem groupedInConcatenation_flat
    (element : Element) :
    element.flat.groupedInConcatenation =
      element.groupedInConcatenation := by
  cases element with
  | terminal s =>
    rw [flat]
    split
    · rfl
    · rename_i hMany
      simp [groupedInConcatenation, hMany]
  | ruleName name => rw [flat]
  | repetition min max body => rw [flat]; rfl
  | concatenation parts => rw [flat]; rfl
  | alternation parts => rw [flat]; rfl

theorem groupedInRepetition_flat
    (element : Element) :
    element.flat.groupedInRepetition =
      element.groupedInRepetition := by
  cases element with
  | terminal s =>
    rw [flat]
    split
    · rfl
    · rename_i hMany
      have hSize :=
        CharSet.one_lt_size_of_not_isSingleRun
          (Bool.eq_false_iff.mpr hMany)
      simp [groupedInRepetition, hMany, hSize]
  | ruleName name => rw [flat]
  | repetition min max body => rw [flat]; rfl
  | concatenation parts => rw [flat]; rfl
  | alternation parts => rw [flat]; rfl

mutual

/- There is a part wherever there was one. -/
theorem seriesParts_flat_ne_nil :
    ∀ element : Element,
      element.check = .ok () → element.flat.seriesParts ≠ []
  | ruleName name, _ => by simp [flat, seriesParts]
  | terminal s, _ => by
      rw [flat]
      split
      · simp [seriesParts]
      · simp [seriesParts]
  | repetition min max body, _ => by
      simp [flat, seriesParts]
  | concatenation parts, hCheck => by
      have hParts := check_concatenation_iff.mp hCheck
      have hLength := length_le_flatSeries parts hParts.2
      rw [flat, seriesParts, ne_eq,
        ← List.length_eq_zero_iff]
      omega
  | alternation parts, _ => by simp [flat, seriesParts]

/- A flat concatenation has no fewer parts. -/
theorem length_le_flatSeries :
    ∀ parts : List Element,
      (∀ part ∈ parts, part.check = .ok ()) →
        parts.length ≤ (flatSeries parts).length
  | [], _ => Nat.zero_le _
  | part :: parts, hCheck => by
      have hPart :=
        seriesParts_flat_ne_nil part
          (hCheck part List.mem_cons_self)
      have hParts :=
        length_le_flatSeries parts
          (fun other hOther =>
            hCheck other (List.mem_cons_of_mem _ hOther))
      have hSome := List.length_pos_iff.mpr hPart
      rw [flatSeries, List.length_append, List.length_cons]
      omega

end

mutual

theorem choiceParts_flat_ne_nil :
    ∀ element : Element,
      element.check = .ok () → element.flat.choiceParts ≠ []
  | ruleName name, _ => by simp [flat, choiceParts]
  | terminal s, _ => by
      rw [flat]
      split
      · simp [choiceParts]
      · rename_i hMany
        rw [CharSet.isSingleRun_iff] at hMany
        rw [choiceParts, ne_eq, List.map_eq_nil_iff]
        intro hNone
        simp [hNone] at hMany
  | repetition min max body, _ => by
      simp [flat, choiceParts]
  | concatenation parts, _ => by simp [flat, choiceParts]
  | alternation parts, hCheck => by
      have hParts := check_alternation_iff.mp hCheck
      have hLength := length_le_flatChoice parts hParts.2
      rw [flat, choiceParts, ne_eq,
        ← List.length_eq_zero_iff]
      omega

/- A flat alternation has no fewer parts. -/
theorem length_le_flatChoice :
    ∀ parts : List Element,
      (∀ part ∈ parts, part.check = .ok ()) →
        parts.length ≤ (flatChoice parts).length
  | [], _ => Nat.zero_le _
  | part :: parts, hCheck => by
      have hPart :=
        choiceParts_flat_ne_nil part
          (hCheck part List.mem_cons_self)
      have hParts :=
        length_le_flatChoice parts
          (fun other hOther =>
            hCheck other (List.mem_cons_of_mem _ hOther))
      have hSome := List.length_pos_iff.mpr hPart
      rw [flatChoice, List.length_append, List.length_cons]
      omega

end

mutual

/- A flat element is written like the element. -/
theorem text_flat :
    ∀ element : Element,
      element.check = .ok () →
        element.flat.text = element.text
  | ruleName name, _ => by rw [flat]
  | terminal s, _ => by
      rw [flat]
      split
      · rfl
      · rename_i hMany
        rw [text_alternation_runs
          (Bool.eq_false_iff.mpr hMany), text]
  | repetition min max body, hCheck => by
      have hBody :=
        text_flat body (check_repetition_iff.mp hCheck).2
      rw [flat, text, text, hBody, groupedInRepetition_flat]
  | concatenation parts, hCheck => by
      rw [flat, text_concatenation, text_concatenation]
      exact
        (text_flatSeries parts
          (check_concatenation_iff.mp hCheck).2).2
  | alternation parts, hCheck => by
      rw [flat, text_alternation, text_alternation]
      exact
        (text_flatChoice parts
          (check_alternation_iff.mp hCheck).2).2

theorem text_flatSeries :
    ∀ parts : List Element,
      (∀ part ∈ parts, part.check = .ok ()) →
        (flatSeries parts = [] ↔ parts = []) ∧
        " ".intercalate ((flatSeries parts).map itemText) =
          " ".intercalate (parts.map itemText)
  | [], _ => by simp [flatSeries]
  | part :: parts, hCheck => by
      have hPart := hCheck part List.mem_cons_self
      have hSome := seriesParts_flat_ne_nil part hPart
      have hItem :
          " ".intercalate
              (part.flat.seriesParts.map itemText) =
            part.itemText := by
        rw [intercalate_seriesParts, itemText, itemText,
          groupedInConcatenation_flat, text_flat part hPart]
      have hParts :=
        text_flatSeries parts
          (fun other hOther =>
            hCheck other (List.mem_cons_of_mem _ hOther))
      rw [flatSeries]
      refine ⟨by simp [hSome], ?_⟩
      exact
        intercalate_append_map " " itemText hSome hItem
          hParts.1 hParts.2

theorem text_flatChoice :
    ∀ parts : List Element,
      (∀ part ∈ parts, part.check = .ok ()) →
        (flatChoice parts = [] ↔ parts = []) ∧
        " / ".intercalate ((flatChoice parts).map text) =
          " / ".intercalate (parts.map text)
  | [], _ => by simp [flatChoice]
  | part :: parts, hCheck => by
      have hPart := hCheck part List.mem_cons_self
      have hSome := choiceParts_flat_ne_nil part hPart
      have hText :
          " / ".intercalate
              (part.flat.choiceParts.map text) =
            part.text := by
        rw [intercalate_choiceParts, text_flat part hPart]
      have hParts :=
        text_flatChoice parts
          (fun other hOther =>
            hCheck other (List.mem_cons_of_mem _ hOther))
      rw [flatChoice]
      refine ⟨by simp [hSome], ?_⟩
      exact
        intercalate_append_map " / " text hSome hText
          hParts.1 hParts.2

end

end Element

/- A rule of a flat element is written like the rule. -/
theorem Rule.text_flat
    {rule : Rule}
    (hCheck : rule.element.check = .ok ()) :
    rule.flat.text = rule.text := by
  rw [Rule.text, Rule.text]
  simp only [Rule.flat, withElement,
    Element.text_flat rule.element hCheck]

end Abnf

------------------------------------------------------------
-- Programs Of Flat Rules
------------------------------------------------------------

namespace Abnf

/- Making a rule flat keeps what is known of its calls. -/
theorem Rule.isRewrite_flat :
    Rule.IsRewrite Rule.flat where
  name _ := rfl
  isNullable known rule :=
    (Element.agrees_flat rule.element).isNullable known
  leading known rule :=
    (Element.agrees_flat rule.element).leading known
  names rule := by
    intro name hName
    have hSame := (Element.agrees_flat rule.element).names
    rw [← hSame]
    exact hName

/- The core rules are flat. -/
theorem map_flat_coreRules :
    coreRules.map Rule.flat = coreRules := by
  set_option maxRecDepth 8000 in decide

namespace Scope

theorem ofRules_map_flat
    (rules : List Rule) :
    ofRules (rules.map Rule.flat) =
      (ofRules rules).map Rule.flat := by
  rw [ofRules, ofRules, map, map_flat_coreRules]

/- Flat rules run like the rules they are made of. -/
theorem invoke_flat
    (scope : Scope) :
    (scope.map Rule.flat).invoke = scope.invoke := by
  apply invoke_map Rule.isRewrite_flat.name
  intro rule input callee _ start
  exact
    (Element.agrees_flat rule.element).run input callee start

/- Flat rules have the references of the rules. -/
theorem references_map_flat
    (scope : Scope)
    (rules : List Rule) :
    (scope.map Rule.flat).references
        (rules.map Rule.flat) =
      scope.references rules := by
  have hRule :
      ∀ rule : Rule, rule.flat.references = rule.references := by
    intro rule
    rw [Rule.references, Rule.references]
    simp only [Rule.flat, Rule.withElement,
      (Element.agrees_flat rule.element).names]
  have hStart :
      (rules.map Rule.flat).flatMap Rule.references =
        rules.flatMap Rule.references := by
    rw [List.flatMap_map]
    exact List.flatMap_congr (fun rule _ => hRule rule)
  have hFind := find?_map Rule.isRewrite_flat.name scope
  have hReached :
      (scope.map Rule.flat).explore Rule.references
          (rules.flatMap Rule.references) =
        scope.explore Rule.references
          (rules.flatMap Rule.references) := by
    apply explore_congr
    · exact List.length_map _
    · exact List.length_map _
    · intro name
      rw [hFind, Option.map_map]
      congr 1
      funext rule
      exact hRule rule
  simp only [references, hStart, hReached, hFind,
    Option.isNone_map]

end Scope

/- Flat rules are accepted when the rules are. -/
theorem Entry.accept_map_flat
    (rules : List Rule) :
    accept (rules.map Rule.flat) = accept rules := by
  have hNames :
      checkDuplicates (rules.map Rule.flat) =
        checkDuplicates rules := by
    rw [checkDuplicates, checkDuplicates,
      map_name_rewrite Rule.isRewrite_flat]
  rw [accept, accept, hNames, Scope.ofRules_map_flat,
    Scope.references_map_flat,
    Scope.checkLeftRecursion_map Rule.isRewrite_flat]

namespace Program

/-
  Two programs have the same public rules in the same order,
  which match and report the same on every text from every
  offset.
-/
structure ActsLike
    (program other : Program) : Prop where
  ruleNames : program.ruleNames = other.ruleNames
  traces :
    ∀ name ∈ program.ruleNames, ∃ entry entry',
      program.entry? name = some entry ∧
      other.entry? name = some entry' ∧
      ∀ input start,
        program.run entry input start =
            other.run entry' input start ∧
          (program.trace entry input start).events =
            (other.trace entry' input start).events

/- Flat rules and the rules are refused or act alike. -/
theorem ofRules_map_flat
    (rules : List Rule) :
    (∃ cause,
      ofRules (rules.map Rule.flat) = .error cause ∧
      ofRules rules = .error cause) ∨
    (∃ program other,
      ofRules (rules.map Rule.flat) = .ok program ∧
      ofRules rules = .ok other ∧
      program.ActsLike other) := by
  have hRewrite := Rule.isRewrite_normalize
  have hInvoke := (Scope.ofRules rules).invoke_normalize
  have hInvoke' :=
    (Scope.ofRules (rules.map Rule.flat)).invoke_normalize
  have hFlat :
      (Scope.ofRules (rules.map Rule.flat)).invoke =
        (Scope.ofRules rules).invoke := by
    rw [Scope.ofRules_map_flat, Scope.invoke_flat]
  have hAccept := Entry.accept_map_flat rules
  rcases ofRulesWith_eq hRewrite rules with
    ⟨cause, hRefused, hError⟩ |
    ⟨routines, hAccepted, hRoutines, hProgram⟩
  · rcases ofRulesWith_eq hRewrite (rules.map Rule.flat) with
      ⟨cause', hRefused', hError'⟩ | ⟨_, hAccepted', _⟩
    · rw [hAccept, hRefused] at hRefused'
      cases hRefused'
      exact Or.inl ⟨cause, hError', hError⟩
    · rw [hAccept, hRefused] at hAccepted'
      cases hAccepted'
  · rcases ofRulesWith_eq hRewrite (rules.map Rule.flat) with
      ⟨cause', hRefused', _⟩ |
      ⟨routines', _, hRoutines', hProgram'⟩
    · rw [hAccept, hAccepted] at hRefused'
      cases hRefused'
    · have hNames := ruleNames_ofRoutines hRewrite hRoutines
      have hNames' :
          (ofRoutines routines').ruleNames =
            rules.map (·.name) := by
        rw [ruleNames_ofRoutines hRewrite hRoutines',
          Entry.map_name_rewrite Rule.isRewrite_flat]
      refine
        Or.inr
          ⟨_, _, hProgram', hProgram,
            hNames'.trans hNames.symm, ?_⟩
      intro name hName
      rw [hNames'] at hName
      rcases List.mem_map.mp hName with ⟨rule, hRule, rfl⟩
      rcases exists_trace_eq_invoke hRewrite hInvoke'
          hProgram'
          (List.mem_map_of_mem hRule) with
        ⟨entry, hEntry, hTrace⟩
      rcases exists_trace_eq_invoke hRewrite hInvoke
          hProgram hRule with
        ⟨entry', hEntry', hTrace'⟩
      refine ⟨entry, entry', hEntry, hEntry', ?_⟩
      intro input start
      have hSame :
          (ofRoutines routines').trace entry input start =
            (ofRoutines routines).trace entry' input
              start := by
        rcases hTrace input start with
          ⟨depth, hRun, hSettled⟩
        rcases hTrace' input start with
          ⟨depth', hRun', hSettled'⟩
        rw [hFlat] at hRun
        rw [hRun] at hSettled ⊢
        rw [hRun'] at hSettled' ⊢
        exact
          Scope.invoke_eq_of_isSettled hSettled hSettled'
      rw [run, run, hSame]
      exact ⟨rfl, rfl⟩

end Program

end Abnf
