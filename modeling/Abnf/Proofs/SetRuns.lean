import Mathlib.Algebra.Ring.Nat
import Mathlib.Data.List.Basic
import Abnf.Proofs.ByteTest

/-
  Sets of characters as runs.

  The runs of a set are intervals that do not touch each
  other, and together they hold the members of the set and
  nothing else. A set that is one interval has one run, so
  `isSingleRun` tells whether a set has more than one.

  Main declarations:
    * `Abnf.CharSet.ofRun`
    * `Abnf.CharSet.hasCode_iff_exists_run`
    * `Abnf.CharSet.runs_ofRun`
    * `Abnf.CharSet.isSingleRun_iff`
-/

------------------------------------------------------------
-- Sets And Their Members
------------------------------------------------------------

namespace Abnf

namespace CharSet

/- Sets with the same members are equal. -/
theorem eq_of_hasCode
    {s t : CharSet}
    (h : ∀ code, s.hasCode code = t.hasCode code) :
    s = t := by
  have hLow : s.low = t.low := by
    apply BitVec.eq_of_getLsbD_eq
    intro i hi
    have hBit := h i
    simpa [hasCode, hi] using hBit
  have hHigh : s.high = t.high := by
    apply BitVec.eq_of_getLsbD_eq
    intro i hi
    have hBit := h (64 + i)
    have hTable : 64 + i < tableSize := by
      simp only [tableSize]
      omega
    have hHalf : ¬ 64 + i < 64 := by omega
    simpa [hasCode, hTable, hHalf] using hBit
  cases s
  cases t
  simp_all

/- A set is empty when it has no members. -/
theorem isEmpty_iff
    {s : CharSet} :
    s.isEmpty = true ↔ ∀ code, s.hasCode code = false := by
  constructor
  · intro h code
    simp only [isEmpty, Bool.and_eq_true, beq_iff_eq] at h
    simp [hasCode, h.1, h.2]
  · intro h
    have hEmpty : s = empty := by
      apply eq_of_hasCode
      intro code
      rw [h code, hasCode_empty]
    rw [hEmpty]
    rfl

/- A set with a member is not empty. -/
theorem not_isEmpty_of_hasCode
    {s : CharSet}
    {code : Nat}
    (h : s.hasCode code = true) :
    s.isEmpty = false := by
  rw [Bool.eq_false_iff]
  intro hEmpty
  rw [isEmpty_iff.mp hEmpty code] at h
  cases h

end CharSet

end Abnf

------------------------------------------------------------
-- Runs Of Codes
------------------------------------------------------------

namespace Abnf

namespace CharSet

/- A code lies in a run. -/
def InRun
    (run : Nat × Nat)
    (code : Nat) : Prop :=
  run.1 ≤ code ∧ code ≤ run.2

/-
  The runs of some codes: what they hold, how they start,
  and how many codes they have.
-/
structure AreRuns
    (codes : List Nat)
    (runs : List (Nat × Nat)) : Prop where
  ordered : ∀ run ∈ runs, run.1 ≤ run.2
  mem : ∀ code, (∃ run ∈ runs, InRun run code) ↔ code ∈ codes
  head : runs.head?.map (·.1) = codes.head?
  count :
    (runs.map (fun run => run.2 + 1 - run.1)).sum =
      codes.length

/- A code in front of some codes goes into their runs. -/
theorem AreRuns.consRun
    {codes : List Nat}
    {runs : List (Nat × Nat)}
    (h : AreRuns codes runs)
    (code : Nat) :
    AreRuns (code :: codes) (consRun code runs) := by
  rcases runs with _ | ⟨⟨first, last⟩, rest⟩
  · have hNone : codes = [] := by
      have hCount := h.count
      simpa [eq_comm] using hCount
    subst hNone
    refine ⟨?_, ?_, ?_, ?_⟩
    · simp [CharSet.consRun]
    · simp [CharSet.consRun, InRun]
      omega
    · simp [CharSet.consRun]
    · simp [CharSet.consRun]
  · have hOrdered : first ≤ last :=
      h.ordered (first, last) List.mem_cons_self
    have hCount := h.count
    simp only [List.map_cons, List.sum_cons] at hCount
    by_cases hNext : code + 1 = first
    · rw [CharSet.consRun, if_pos hNext]
      refine ⟨?_, ?_, ?_, ?_⟩
      · intro run hRun
        rcases List.mem_cons.mp hRun with rfl | hRest
        · dsimp only
          omega
        · exact h.ordered run (List.mem_cons_of_mem _ hRest)
      · intro other
        rw [List.mem_cons, ← h.mem other,
          List.exists_mem_cons_iff,
          List.exists_mem_cons_iff, ← or_assoc]
        apply or_congr_left
        simp only [InRun]
        omega
      · rfl
      · simp only [List.map_cons, List.sum_cons,
          List.length_cons]
        omega
    · rw [CharSet.consRun, if_neg hNext]
      refine ⟨?_, ?_, ?_, ?_⟩
      · intro run hRun
        rcases List.mem_cons.mp hRun with rfl | hRest
        · exact Nat.le_refl _
        · exact h.ordered run hRest
      · intro other
        rw [List.mem_cons, ← h.mem other,
          List.exists_mem_cons_iff]
        apply or_congr_left
        simp only [InRun]
        omega
      · rfl
      · simp only [List.map_cons, List.sum_cons,
          List.length_cons]
        omega

/- The folded runs are runs of their codes. -/
theorem areRuns_foldr
    (codes : List Nat) :
    AreRuns codes (codes.foldr consRun []) := by
  induction codes with
  | nil => exact ⟨by simp, by simp, rfl, rfl⟩
  | cons code codes ih => exact ih.consRun code

/- Runs of ascending codes do not touch each other. -/
theorem pairwise_foldr
    {codes : List Nat}
    (hCodes : codes.Pairwise (· < ·)) :
    (codes.foldr consRun []).Pairwise
      (fun run run' => run.2 + 1 < run'.1) := by
  induction codes with
  | nil => exact List.Pairwise.nil
  | cons code codes ih =>
    rw [List.pairwise_cons] at hCodes
    have hApart := ih hCodes.2
    have hRuns := areRuns_foldr codes
    rw [List.foldr_cons]
    generalize codes.foldr consRun [] = runs at hApart hRuns
    rcases runs with _ | ⟨⟨first, last⟩, rest⟩
    · exact List.pairwise_singleton _ _
    · have hOrdered : first ≤ last :=
        hRuns.ordered (first, last) List.mem_cons_self
      have hLess : code < first := by
        apply hCodes.1
        rw [← hRuns.mem]
        exact ⟨_, List.mem_cons_self, Nat.le_refl _, hOrdered⟩
      rw [List.pairwise_cons] at hApart
      by_cases hNext : code + 1 = first
      · rw [consRun, if_pos hNext, List.pairwise_cons]
        exact hApart
      · rw [consRun, if_neg hNext, List.pairwise_cons,
          List.pairwise_cons]
        refine ⟨?_, hApart⟩
        intro run hRun
        rcases List.mem_cons.mp hRun with rfl | hRest
        · dsimp only
          omega
        · have hFar := hApart.1 run hRest
          dsimp only at hFar ⊢
          omega

end CharSet

end Abnf

------------------------------------------------------------
-- Runs Of Sets
------------------------------------------------------------

namespace Abnf

namespace CharSet

/- The set of the codes of a run. -/
def ofRun
    (run : Nat × Nat) : CharSet :=
  ofSpan run.1 (run.2 + 1)

/- The runs of a set are runs of its codes. -/
theorem areRuns_runs
    (s : CharSet) :
    AreRuns s.codes s.runs :=
  areRuns_foldr s.codes

/- The members of a set are the codes in its runs. -/
theorem hasCode_iff_exists_run
    (s : CharSet)
    (code : Nat) :
    s.hasCode code = true ↔ ∃ run ∈ s.runs, InRun run code := by
  rw [← mem_codes_iff, ← s.areRuns_runs.mem]

/- The bounds of a run are members in their order. -/
theorem bounds_of_mem_runs
    {s : CharSet}
    {run : Nat × Nat}
    (hRun : run ∈ s.runs) :
    run.1 ≤ run.2 ∧ run.2 < tableSize := by
  have hOrdered := s.areRuns_runs.ordered run hRun
  refine ⟨hOrdered, ?_⟩
  apply lt_tableSize_of_hasCode
  exact (s.hasCode_iff_exists_run run.2).mpr
    ⟨run, hRun, hOrdered, Nat.le_refl _⟩

/- The members of the set of a run are the codes in it. -/
theorem hasCode_ofRun
    {run : Nat × Nat}
    (hOrdered : run.1 ≤ run.2)
    (hTable : run.2 < tableSize)
    (code : Nat) :
    (ofRun run).hasCode code = true ↔ InRun run code := by
  rw [ofRun, hasCode_ofSpan (by omega), decide_eq_true_iff,
    InRun]
  omega

/- The set of a run has members. -/
theorem not_isEmpty_ofRun
    {run : Nat × Nat}
    (hOrdered : run.1 ≤ run.2)
    (hTable : run.2 < tableSize) :
    (ofRun run).isEmpty = false :=
  not_isEmpty_of_hasCode
    ((hasCode_ofRun hOrdered hTable run.1).mpr
      ⟨Nat.le_refl _, hOrdered⟩)

/- A set with all codes between two members has one run. -/
theorem length_runs_le_one
    {s : CharSet}
    (hConvex :
      ∀ low code high,
        low ≤ code →
        code ≤ high →
        s.hasCode low = true →
        s.hasCode high = true →
          s.hasCode code = true) :
    s.runs.length ≤ 1 := by
  have hAscending : s.codes.Pairwise (· < ·) :=
    List.Pairwise.filter _ List.pairwise_lt_range
  have hApart := pairwise_foldr hAscending
  have hMember := s.hasCode_iff_exists_run
  have hOrdered := s.areRuns_runs.ordered
  change s.runs.Pairwise _ at hApart
  generalize s.runs = runs at hApart hMember hOrdered
  match runs, hApart, hMember, hOrdered with
  | [], _, _, _ => exact Nat.zero_le _
  | [_], _, _, _ => exact Nat.le_refl _
  | first :: second :: rest, hApart, hMember, hOrdered =>
    exfalso
    rw [List.pairwise_cons] at hApart
    have hFirst := hOrdered first (by simp)
    have hSecond := hOrdered second (by simp)
    have hGap := hApart.1 second (by simp)
    -- the code behind the first run lies between members
    have hBetween : s.hasCode (first.2 + 1) = true := by
      apply hConvex first.2 (first.2 + 1) second.1
        (by omega) (by omega)
      · exact (hMember _).mpr
          ⟨first, by simp, hFirst, Nat.le_refl _⟩
      · exact (hMember _).mpr
          ⟨second, by simp, Nat.le_refl _, hSecond⟩
    rcases (hMember _).mp hBetween with
      ⟨run, hRun, hLow, hHigh⟩
    rcases List.mem_cons.mp hRun with rfl | hLater
    · omega
    · have hFar := hApart.1 run hLater
      omega

/- A span has all codes between two members. -/
theorem length_runs_ofSpan_le_one
    {first stop : Nat}
    (h : first ≤ stop) :
    (ofSpan first stop).runs.length ≤ 1 := by
  apply length_runs_le_one
  intro low code high hLow hHigh
  simp only [hasCode_ofSpan h, decide_eq_true_iff]
  omega

/- A set of one run is the set of that run. -/
theorem eq_ofRun_of_runs
    {s : CharSet}
    {run : Nat × Nat}
    (h : s.runs = [run]) :
    s = ofRun run := by
  have hBounds : run.1 ≤ run.2 ∧ run.2 < tableSize := by
    apply @bounds_of_mem_runs s
    rw [h]
    exact List.mem_singleton_self run
  apply eq_of_hasCode
  intro code
  rw [Bool.eq_iff_iff, hasCode_iff_exists_run, h,
    hasCode_ofRun hBounds.1 hBounds.2]
  simp

/- A set without runs is empty. -/
theorem eq_empty_of_runs
    {s : CharSet}
    (h : s.runs = []) :
    s = empty := by
  apply eq_of_hasCode
  intro code
  rw [hasCode_empty, Bool.eq_false_iff]
  intro hCode
  rw [hasCode_iff_exists_run, h] at hCode
  simp at hCode

/- The set of a run has that run only. -/
theorem runs_ofRun
    {run : Nat × Nat}
    (hOrdered : run.1 ≤ run.2)
    (hTable : run.2 < tableSize) :
    (ofRun run).runs = [run] := by
  have hShort : (ofRun run).runs.length ≤ 1 :=
    length_runs_ofSpan_le_one (by omega)
  have hMember :
      ∀ code,
        (∃ other ∈ (ofRun run).runs, InRun other code) ↔
          InRun run code := by
    intro code
    rw [← hasCode_iff_exists_run,
      hasCode_ofRun hOrdered hTable]
  have hBounds := (ofRun run).areRuns_runs.ordered
  generalize (ofRun run).runs = runs at hShort hMember hBounds
  match runs, hShort, hMember, hBounds with
  | [], _, hMember, _ =>
    have hFirst :=
      (hMember run.1).mpr ⟨Nat.le_refl _, hOrdered⟩
    simp at hFirst
  | [other], _, hMember, hBounds =>
    have hOther := hBounds other (by simp)
    have hSame : ∀ code, InRun other code ↔ InRun run code := by
      intro code
      simpa using hMember code
    simp only [InRun] at hSame
    have hLow := (hSame run.1).mpr ⟨Nat.le_refl _, hOrdered⟩
    have hHigh := (hSame run.2).mpr ⟨hOrdered, Nat.le_refl _⟩
    have hLow' := (hSame other.1).mp ⟨Nat.le_refl _, hOther⟩
    have hHigh' := (hSame other.2).mp ⟨hOther, Nat.le_refl _⟩
    have hEq : other = run := by
      apply Prod.ext
      · omega
      · omega
    rw [hEq]
  | _ :: _ :: _, hShort, _, _ =>
    simp at hShort

/- `isSingleRun` tells that there is at most one run. -/
theorem isSingleRun_iff
    (s : CharSet) :
    s.isSingleRun = true ↔ s.runs.length ≤ 1 := by
  have hRuns := s.areRuns_runs
  constructor
  · intro h
    unfold isSingleRun at h
    split at h
    · rename_i hHead
      have hNone : s.codes = [] :=
        List.head?_eq_none_iff.mp hHead
      simp [runs, hNone]
    · rw [decide_eq_true_iff] at h
      rw [h]
      exact length_runs_ofSpan_le_one (by omega)
  · intro h
    unfold isSingleRun
    match hShape : s.runs, h with
    | [], _ =>
      have hHead := hRuns.head
      rw [hShape] at hHead
      rw [← hHead]
      rfl
    | [run], _ =>
      have hHead := hRuns.head
      have hCount := hRuns.count
      have hOrdered := hRuns.ordered run (by simp [hShape])
      rw [hShape] at hHead hCount
      rw [length_codes] at hCount
      simp only [List.map_cons, List.map_nil,
        List.sum_singleton] at hCount
      have hStop : run.1 + s.size = run.2 + 1 := by omega
      rw [← hHead]
      simp only [List.head?_cons, Option.map_some,
        decide_eq_true_iff]
      rw [hStop]
      exact eq_ofRun_of_runs hShape

/- A set of more runs than one has more members than one. -/
theorem one_lt_size_of_not_isSingleRun
    {s : CharSet}
    (h : s.isSingleRun = false) :
    1 < s.size := by
  have hRuns := s.areRuns_runs
  have hMany : ¬ s.runs.length ≤ 1 := by
    rw [← isSingleRun_iff, h]
    exact Bool.false_ne_true
  have hCount := hRuns.count
  rw [length_codes] at hCount
  have hOrdered := hRuns.ordered
  generalize s.runs = runs at hMany hCount hOrdered
  match runs, hMany, hCount, hOrdered with
  | [], hMany, _, _ => simp at hMany
  | [_], hMany, _, _ => simp at hMany
  | first :: second :: rest, _, hCount, hOrdered =>
    have hFirst := hOrdered first (by simp)
    have hSecond := hOrdered second (by simp)
    simp only [List.map_cons, List.sum_cons] at hCount
    omega

end CharSet

end Abnf
