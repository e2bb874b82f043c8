import Abnf.Element.Text
import Abnf.Proofs.Members

/-
  The runs that are written for a set.

  The notation of a set and its description list the same
  runs, which one pass over the members in ascending order
  makes: a member goes on with the last run or starts a new
  one. The runs are as long as they can be, and together they
  are the set. So a set is written as an alternation exactly
  if it has more than one run, and then it is put in
  parentheses.

  Key definitions include:
    * `Abnf.CharSet.snocRun`
    * `Abnf.CharSet.collectRuns`

  Main declarations:
    * `Abnf.CharSet.collectRuns_eq`
    * `Abnf.CharSet.foldr_union_runs`
    * `Abnf.CharSet.slash_mem_text_iff`
    * `Abnf.CharSet.runs_written`
-/

------------------------------------------------------------
-- One Pass Over The Members
------------------------------------------------------------

namespace Abnf

namespace CharSet

/-
  Put a code behind the runs of the codes below it: it
  extends the last run when it is the code just behind it.
-/
def snocRun
    (code : Nat) :
    List (Nat × Nat) → List (Nat × Nat)
  | [] => [(code, code)]
  | [(first, last)] =>
      if last + 1 = code then
        [(first, code)]
      else
        [(first, last), (code, code)]
  | run :: next :: rest => run :: snocRun code (next :: rest)

/- The runs that one pass over the members makes. -/
def collectRuns
    (s : CharSet) : List (Nat × Nat) :=
  s.codes.foldl (fun runs code => snocRun code runs) []

/- It does not matter which end is extended first. -/
theorem consRun_snocRun
    (before behind : Nat)
    (runs : List (Nat × Nat)) :
    consRun before (snocRun behind runs) =
      snocRun behind (consRun before runs) := by
  rcases runs with
    _ | ⟨⟨first, last⟩, _ | ⟨next, rest⟩⟩
  · by_cases hNext : before + 1 = behind
    · simp [snocRun, consRun, hNext]
    · simp [snocRun, consRun, hNext]
  · by_cases hBefore : before + 1 = first <;>
      by_cases hBehind : last + 1 = behind <;>
      simp [snocRun, consRun, hBefore, hBehind]
  · by_cases hBefore : before + 1 = first
    · simp [snocRun, consRun, hBefore]
    · simp [snocRun, consRun, hBefore]

/- A code behind others goes behind their runs. -/
theorem foldr_consRun_append_singleton
    (codes : List Nat)
    (code : Nat) :
    (codes ++ [code]).foldr consRun [] =
      snocRun code (codes.foldr consRun []) := by
  induction codes with
  | nil => rfl
  | cons before codes ih =>
      rw [List.cons_append, List.foldr_cons, ih,
        consRun_snocRun, List.foldr_cons]

/- The pass makes the runs of the set. -/
theorem collectRuns_eq
    (s : CharSet) : s.collectRuns = s.runs := by
  rw [collectRuns, runs]
  induction s.codes using List.reverseRecOn with
  | nil => rfl
  | append_singleton codes code ih =>
      rw [List.foldl_append, List.foldl_cons,
        List.foldl_nil, ih, foldr_consRun_append_singleton]

end CharSet

end Abnf

------------------------------------------------------------
-- Maximal Runs
------------------------------------------------------------

namespace Abnf

namespace CharSet

/- Runs follow each other with a gap in between. -/
theorem pairwise_runs
    (s : CharSet) :
    s.runs.Pairwise
      (fun run next => run.2 + 1 < next.1) :=
  pairwise_foldr (List.pairwise_lt_range.filter _)

/- A code next to a run is in no run. -/
theorem hasCode_beside
    {s : CharSet}
    {run : Nat × Nat}
    (hRun : run ∈ s.runs)
    {code : Nat}
    (hCode : code + 1 = run.1 ∨ run.2 + 1 = code) :
    s.hasCode code = false := by
  rw [Bool.eq_false_iff]
  intro hMember
  have hApart := List.pairwise_iff_getElem.mp s.pairwise_runs
  have hBounds := bounds_of_mem_runs hRun
  rcases (s.hasCode_iff_exists_run code).mp hMember with
    ⟨other, hOther, hLow, hHigh⟩
  rcases List.mem_iff_getElem.mp hRun with ⟨i, hi, rfl⟩
  rcases List.mem_iff_getElem.mp hOther with ⟨j, hj, rfl⟩
  rcases Nat.lt_trichotomy i j with hBehind | rfl | hBefore
  · have hGap := hApart i j hi hj hBehind
    omega
  · omega
  · have hGap := hApart j i hj hi hBefore
    omega

/- The set is the union of the ranges that its runs are. -/
theorem foldr_union_runs
    (s : CharSet) :
    s.runs.foldr
        (fun run t =>
          ofRange (Char.ofNat run.1) (Char.ofNat run.2) ∪ t)
        empty = s := by
  have hRange :
      ∀ run ∈ s.runs, ∀ code,
        (ofRange (Char.ofNat run.1)
            (Char.ofNat run.2)).hasCode code = true ↔
          InRun run code := by
    intro run hRun code
    have hBounds := bounds_of_mem_runs hRun
    have hFirst := toNat_ofNat_of_lt run.1 (by omega)
    have hLast := toNat_ofNat_of_lt run.2 hBounds.2
    rw [ofRange, if_pos, hFirst, hLast]
    · exact hasCode_ofRun hBounds.1 hBounds.2 code
    · rw [le_iff_toNat_le, hFirst, hLast]
      exact hBounds.1
  apply eq_of_hasCode
  intro code
  rw [Bool.eq_iff_iff, s.hasCode_iff_exists_run]
  generalize s.runs = runs at hRange
  induction runs with
  | nil => simp
  | cons run runs ih =>
      rw [List.forall_mem_cons] at hRange
      rw [List.foldr_cons, hasCode_union, Bool.or_eq_true,
        hRange.1, ih hRange.2, List.exists_mem_cons_iff]

end CharSet

end Abnf

------------------------------------------------------------
-- Alternations Of Runs
------------------------------------------------------------

namespace Abnf

namespace CharSet

/- No run is written with a slash. -/
theorem slash_not_mem_runText
    {run : Nat × Nat}
    (hOrdered : run.1 ≤ run.2)
    (hTable : run.2 < tableSize) :
    '/' ∉ (runText run).toList := by
  have hDigits :
      ∀ code < tableSize,
        '/' ∉ (Text.hexUpper 2 code).toList := by
    set_option maxRecDepth 8000 in decide
  have hFirst := hDigits run.1 (by omega)
  have hLast := hDigits run.2 hTable
  rw [runText]
  split
  · simp [hFirst]
  · simp [hFirst, hLast]

/- Only the slashes between runs are written. -/
theorem slash_mem_text_iff
    (s : CharSet) :
    '/' ∈ s.text.toList ↔ 1 < s.runs.length := by
  have hRun :
      ∀ run ∈ s.runs, '/' ∉ (runText run).toList := by
    intro run hRun
    have hBounds := bounds_of_mem_runs hRun
    exact slash_not_mem_runText hBounds.1 hBounds.2
  rw [text]
  match s.runs, hRun with
  | [], _ => decide
  | [run], hRun =>
      simpa using hRun run (List.mem_singleton_self run)
  | first :: second :: rest, _ =>
      simp [String.intercalate_cons_of_ne_nil]

end CharSet

namespace Element

/-
  Parentheses stand around the notation of a set of several
  runs, in a series as well as below a repetition.
-/
theorem grouped_terminal_iff
    (s : CharSet) :
    ((terminal s).groupedInConcatenation = true ↔
      1 < s.runs.length) ∧
    ((terminal s).groupedInRepetition = true ↔
      1 < s.runs.length) := by
  have hSingle := s.isSingleRun_iff
  rw [groupedInConcatenation, groupedInRepetition]
  cases hRuns : s.isSingleRun with
  | true =>
      have hFew := hSingle.mp hRuns
      simp [Nat.not_lt.mpr hFew]
  | false =>
      have hMany := CharSet.one_lt_size_of_not_isSingleRun hRuns
      rw [hRuns] at hSingle
      have hSome : ¬ s.runs.length ≤ 1 :=
        fun hFew => nomatch hSingle.mpr hFew
      simp [hMany, Nat.not_le.mp hSome]

end Element

end Abnf

------------------------------------------------------------
-- What Is Written
------------------------------------------------------------

namespace Abnf

namespace CharSet

/-
  One pass over the members makes the runs that are written
  both in the notation and in the description of a set. Each
  run has members, no two touch, and the code on either side
  of a run is no member; the union of the runs is the set.
  The test for a single run tells whether there are more, and
  a set that is written without parentheses, in a series or
  below a repetition, is no alternation.
-/
theorem runs_written
    (s : CharSet) :
    s.collectRuns = s.runs ∧
    s.text =
      (if s.collectRuns.isEmpty then "\"\""
      else " / ".intercalate (s.collectRuns.map runText)) ∧
    s.describe =
      "CharSet[" ++
        ", ".intercalate (s.collectRuns.map describeRun) ++
        "]" ∧
    (∀ run ∈ s.runs,
      run.1 ≤ run.2 ∧ run.2 < tableSize ∧
        ∀ code,
          code + 1 = run.1 ∨ run.2 + 1 = code →
            s.hasCode code = false) ∧
    s.runs.Pairwise
      (fun run next => run.2 + 1 < next.1) ∧
    s.runs.foldr
        (fun run t =>
          ofRange (Char.ofNat run.1) (Char.ofNat run.2) ∪ t)
        empty = s ∧
    (s.isSingleRun = true ↔ s.runs.length ≤ 1) ∧
    ((Element.terminal s).groupedInConcatenation = true ↔
      '/' ∈ s.text.toList) ∧
    ((Element.terminal s).groupedInRepetition = true ↔
      '/' ∈ s.text.toList) := by
  have hGrouped := Element.grouped_terminal_iff s
  rw [s.collectRuns_eq, s.slash_mem_text_iff]
  refine
    ⟨rfl, rfl, rfl, ?_, s.pairwise_runs,
      s.foldr_union_runs, s.isSingleRun_iff, hGrouped⟩
  intro run hRun
  have hBounds := bounds_of_mem_runs hRun
  exact
    ⟨hBounds.1, hBounds.2,
      fun _ hBeside => hasCode_beside hRun hBeside⟩

end CharSet

end Abnf
