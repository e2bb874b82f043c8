import Abnf.Proofs.Events
import Abnf.Proofs.GrammarFrames

/-
  Spans that can be cut out of a text.

  Offsets count bytes, and texts may hold characters of
  several bytes. A set of characters has ASCII members only,
  so whatever a run takes is a row of ASCII bytes. Such a row
  starts at the boundary of a character only if it also ends
  at one. What is reported starts behind such a row as well,
  so all that a run from a boundary reports can be cut out
  of the text.

  Key definitions include:
    * `Abnf.Text.IsBoundary`
    * `Abnf.Text.IsAsciiSpan`
    * `Abnf.Run.KeepsToAscii`
    * `Abnf.Text.IsSafeSpan`

  Main declarations:
    * `Abnf.Text.IsAsciiSpan.isBoundary`
    * `Abnf.Scope.invoke_keepsToAscii`
    * `Abnf.Program.exists_spans`
-/

------------------------------------------------------------
-- Boundaries Of Characters
------------------------------------------------------------

namespace Abnf

namespace Text

variable {text : String}

/- A character of the text or its end is at the offset. -/
def IsBoundary
    (text : String)
    (index : Nat) : Prop :=
  ∃ place : text.Pos, place.offset.byteIdx = index

/- The character of an ASCII byte has no further bytes. -/
theorem utf8ByteSize_of_ascii
    {b : UInt8}
    (hAscii : b < 128)
    (hFirst : b.IsUTF8FirstByte) :
    b.utf8ByteSize hFirst = 1 := by
  have hCodes :
      ∀ code < 128, UInt8.ofNat code &&& 0x80 = 0 := by
    decide
  have hByte :=
    hCodes b.toNat (UInt8.lt_iff_toNat_lt.mp hAscii)
  rw [UInt8.ofNat_toNat] at hByte
  simp [UInt8.utf8ByteSize, hByte]

/- There is a boundary behind an ASCII byte at a boundary. -/
theorem isBoundary_succ
    {index : Nat}
    {b : UInt8}
    (hBoundary : IsBoundary text index)
    (hByte : (bytes text)[index]? = some b)
    (hAscii : b < 128) :
    IsBoundary text (index + 1) := by
  rcases hBoundary with ⟨place, rfl⟩
  rcases Array.getElem?_eq_some_iff.mp hByte with
    ⟨hSize, hSame⟩
  have hEnd : place ≠ text.endPos := by
    rw [← String.Pos.offset_lt_rawEndPos_iff]
    exact hSize
  have hFirst : place.byte hEnd = b := by
    rw [← String.Pos.getUTF8Byte_offset, ← hSame]
    rfl
  refine ⟨place.next hEnd, ?_⟩
  rw [String.Pos.byteIdx_offset_next,
    ← String.Pos.utf8ByteSize_byte,
    utf8ByteSize_of_ascii (hFirst.symm ▸ hAscii)]

/- Boundaries lie in the text. -/
theorem IsBoundary.le_size
    {index : Nat}
    (hBoundary : IsBoundary text index) :
    index ≤ (bytes text).size := by
  rcases hBoundary with ⟨place, rfl⟩
  exact place.isValid.le_utf8ByteSize

end Text

end Abnf

------------------------------------------------------------
-- Rows Of ASCII Bytes
------------------------------------------------------------

namespace Abnf

namespace Text

/- All that lies between two offsets is ASCII. -/
structure IsAsciiSpan
    (input : Array UInt8)
    (start stop : Nat) : Prop where
  le : start ≤ stop
  ascii :
    ∀ index, start ≤ index → index < stop →
      ∃ b, input[index]? = some b ∧ b < 128

namespace IsAsciiSpan

variable {input : Array UInt8}
variable {start mid stop : Nat}

theorem refl
    (input : Array UInt8)
    (index : Nat) :
    IsAsciiSpan input index index where
  le := Nat.le_refl index
  ascii _ hLow hHigh := absurd hLow (Nat.not_le.mpr hHigh)

theorem single
    {index : Nat}
    {b : UInt8}
    (hByte : input[index]? = some b)
    (hAscii : b < 128) :
    IsAsciiSpan input index (index + 1) where
  le := Nat.le_succ index
  ascii := by
    intro i hLow hHigh
    have hSame : i = index := by omega
    rw [hSame]
    exact ⟨b, hByte, hAscii⟩

/- Spans that meet make one span. -/
theorem trans
    (hFirst : IsAsciiSpan input start mid)
    (hSecond : IsAsciiSpan input mid stop) :
    IsAsciiSpan input start stop where
  le := Nat.le_trans hFirst.le hSecond.le
  ascii := by
    intro index hLow hHigh
    by_cases hMid : index < mid
    · exact hFirst.ascii index hLow hMid
    · exact hSecond.ascii index (by omega) hHigh

/- A span is empty or lies in the text. -/
theorem le_max
    (hSpan : IsAsciiSpan input start stop) :
    stop ≤ max start input.size := by
  by_cases hEmpty : stop ≤ start
  · omega
  · rcases hSpan.ascii (stop - 1) (by omega) (by omega) with
      ⟨b, hByte, _⟩
    have hSize := (Array.getElem?_eq_some_iff.mp hByte).1
    omega

/-
  A span that starts at a boundary ends at one. The induction
  goes from byte to byte: each of them is a character.
-/
theorem isBoundary
    {text : String}
    (hSpan : IsAsciiSpan (bytes text) start stop)
    (hStart : IsBoundary text start) :
    IsBoundary text stop := by
  have hEach :
      ∀ index, start ≤ index → index ≤ stop →
        IsBoundary text index := by
    intro index hLow
    induction index, hLow using Nat.le_induction with
    | base => exact fun _ => hStart
    | succ index hLow ih =>
        intro hHigh
        rcases hSpan.ascii index hLow hHigh with
          ⟨b, hByte, hAscii⟩
        exact
          isBoundary_succ (ih (Nat.le_of_succ_le hHigh))
            hByte hAscii
  exact hEach stop hSpan.le (Nat.le_refl stop)

end IsAsciiSpan

end Text

end Abnf

------------------------------------------------------------
-- Runs Keep To ASCII
------------------------------------------------------------

namespace Abnf

open Text

/-
  What a run from an offset matches is ASCII. So is what
  lies between the offset and each reported start, and what
  lies in each reported match.
-/
structure Run.KeepsToAscii
    (input : Array UInt8)
    (index : Nat)
    (run : Run) : Prop where
  stops :
    ∀ stop, run.outcome = .matched stop →
      IsAsciiSpan input index stop
  exits :
    run.Tells
      (fun _ start stop? =>
        IsAsciiSpan input index start ∧
          ∀ stop, stop? = some stop →
            IsAsciiSpan input start stop)

variable {input : Array UInt8}

namespace Run

theorem keepsToAscii_quiet
    {index : Nat}
    {outcome : Outcome}
    (h :
      ∀ stop, outcome = .matched stop →
        IsAsciiSpan input index stop) :
    (quiet outcome).KeepsToAscii input index :=
  ⟨h, tells_quiet outcome⟩

/- A run may be preceded by what keeps to ASCII. -/
theorem KeepsToAscii.after
    {index mid : Nat}
    {run rest : Run}
    (hRun : run.KeepsToAscii input index)
    (hSpan : IsAsciiSpan input index mid)
    (hRest : rest.KeepsToAscii input mid) :
    (Run.after run.calls rest).KeepsToAscii input index where
  stops stop hStop :=
    hSpan.trans (hRest.stops stop hStop)
  exits := by
    apply tells_after hRun.exits
    intro rule start stop? hExit
    have hSpans := hRest.exits rule start stop? hExit
    exact ⟨hSpan.trans hSpans.1, hSpans.2⟩

theorem keepsToAscii_composes
    (input : Array UInt8) :
    Composes
      (fun index run _ => run.KeepsToAscii input index)
    where
  stay index := by
    apply keepsToAscii_quiet
    intro stop hStop
    cases hStop
    exact IsAsciiSpan.refl input index
  fail index := by
    apply keepsToAscii_quiet
    intro stop hStop
    cases hStop
  exhaust index := by
    apply keepsToAscii_quiet
    intro stop hStop
    cases hStop
  resume := by
    intro index run _ onMatch _ onFailure _
      hRun hMatch hFailure
    rcases run.matched_or_failed_or_not with
      ⟨stop, hOutcome⟩ | hOutcome | hSettled
    · rw [resume_of_matched hOutcome]
      exact
        hRun.after (hRun.stops stop hOutcome)
          (hMatch stop hOutcome)
    · rw [resume_of_failed hOutcome]
      exact
        hRun.after (IsAsciiSpan.refl input index) hFailure
    · rw [resume_of_not_isSettled hSettled]
      exact hRun

end Run

/- The match of a set is empty or an ASCII byte. -/
theorem Element.runSet_keepsToAscii
    (s : CharSet)
    (index : Nat) :
    (Run.quiet (runSet input s index)).KeepsToAscii
      input index := by
  apply Run.keepsToAscii_quiet
  intro stop hStop
  unfold runSet at hStop
  split at hStop
  · cases hStop
    exact IsAsciiSpan.refl input index
  · cases hByte : input[index]? with
    | none =>
        rw [hByte] at hStop
        cases hStop
    | some b =>
        rw [hByte] at hStop
        dsimp only at hStop
        split at hStop
        · rename_i hMember
          cases hStop
          have hCode := CharSet.lt_tableSize_of_hasCode hMember
          exact
            IsAsciiSpan.single hByte
              (UInt8.lt_iff_toNat_lt.mpr hCode)
        · cases hStop

/-
  The run of a rule keeps to ASCII. By induction on the
  depth: what it reports itself is what it matches.
-/
theorem Scope.invoke_keepsToAscii
    (scope : Scope)
    (input : Array UInt8)
    (depth : Nat)
    (name : String)
    (start : Nat) :
    (scope.invoke input depth name start).KeepsToAscii
      input start := by
  induction depth generalizing name start with
  | zero =>
      exact (Run.keepsToAscii_composes input).exhaust start
  | succ depth ih =>
      cases hRule : scope.find? name with
      | none =>
          rw [invoke, hRule]
          apply Run.keepsToAscii_quiet
          intro stop hStop
          cases hStop
      | some rule =>
          have hBody :=
            @Element.run_composes input _
              (scope.invoke input depth)
              (scope.invoke input depth)
              (Run.keepsToAscii_composes input)
              Element.runSet_keepsToAscii
              rule.element start (fun other _ i => ih other i)
          rw [invoke_succ hRule, report]
          split
          · refine ⟨hBody.stops, ?_⟩
            apply Run.tells_reported _ hBody.exits
            refine ⟨IsAsciiSpan.refl input start, ?_⟩
            intro stop hStop
            exact
              hBody.stops stop
                (Outcome.eq_matched_of_stop? hStop)
          · exact ⟨hBody.stops, Run.tells_quiet _⟩

end Abnf

------------------------------------------------------------
-- What Programs Report
------------------------------------------------------------

namespace Abnf

namespace Text

/-
  A span of a text holds ASCII only and lies in the text
  unless it is empty. It ends between characters if it
  starts there.
-/
structure IsSafeSpan
    (text : String)
    (start stop : Nat) : Prop where
  le : start ≤ stop
  bounded : stop ≤ max start (bytes text).size
  ascii :
    ∀ index, start ≤ index → index < stop →
      ∃ b, (bytes text)[index]? = some b ∧ b < 128
  boundary : IsBoundary text start → IsBoundary text stop

theorem IsAsciiSpan.isSafeSpan
    {text : String}
    {start stop : Nat}
    (hSpan : IsAsciiSpan (bytes text) start stop) :
    IsSafeSpan text start stop where
  le := hSpan.le
  bounded := hSpan.le_max
  ascii := hSpan.ascii
  boundary := hSpan.isBoundary

/- A span from a boundary can be cut out of the text. -/
theorem IsAsciiSpan.exists_places
    {text : String}
    {start stop : Nat}
    (hSpan : IsAsciiSpan (bytes text) start stop)
    (hStart : IsBoundary text start) :
    ∃ first last : text.Pos,
      first.offset.byteIdx = start ∧
      last.offset.byteIdx = stop ∧
      first ≤ last ∧
      (Grammar.slice? (bytes text) start stop).isSome =
        true := by
  have hStop := hSpan.isBoundary hStart
  have hSlice :=
    Grammar.slice?_of_ascii hSpan.le hStop.le_size
      hSpan.ascii
  rcases hStart with ⟨first, rfl⟩
  rcases hStop with ⟨last, rfl⟩
  refine ⟨first, last, rfl, rfl, ?_, ?_⟩
  · rw [String.Pos.le_iff]
    exact hSpan.le
  · rw [hSlice]
    rfl

end Text

namespace Program

open Text

variable {rules : List Rule}
variable {program : Program}

/-
  What a public routine matches of a text is a row of ASCII
  bytes, which ends at the boundary of a character if it
  starts there. So is each match that is reported on the
  way. In a run from a boundary these can be cut out of the
  text.
-/
theorem exists_spans
    (hProgram : ofRules rules = .ok program)
    {name : String}
    (hName : name ∈ program.ruleNames) :
    ∃ entry, program.entry? name = some entry ∧
      ∀ (text : String) (start : Nat),
        (∀ stop,
          program.run entry (bytes text) start =
              .matched stop →
          IsSafeSpan text start stop) ∧
        ∀ rule first last,
          .exit rule first (some last) ∈
              (program.trace entry
                (bytes text) start).events →
          IsSafeSpan text first last ∧
          (IsBoundary text start →
            ∃ place place' : text.Pos,
              place.offset.byteIdx = first ∧
              place'.offset.byteIdx = last ∧
              place ≤ place' ∧
              (Grammar.slice? (bytes text)
                first last).isSome = true) := by
  have hOwn := (mem_ruleNames_iff hProgram).mp hName
  rcases exists_trace_eq_of_hasName hProgram hOwn with
    ⟨entry, hEntry, hTrace⟩
  refine ⟨entry, hEntry, ?_⟩
  intro text start
  rcases hTrace (bytes text) start with ⟨depth, hRun, _⟩
  have hAscii :=
    (Scope.ofRules rules).invoke_keepsToAscii (bytes text)
      depth name start
  rw [← hRun] at hAscii
  constructor
  · intro stop hStop
    exact (hAscii.stops stop hStop).isSafeSpan
  · intro rule first last hExit
    have hSpans := hAscii.exits rule first (some last) hExit
    have hMatch := hSpans.2 last rfl
    refine ⟨hMatch.isSafeSpan, ?_⟩
    intro hStart
    exact
      hMatch.exists_places (hSpans.1.isBoundary hStart)

/- Words of letters, each of which is reported. -/
def letterWords : List Rule :=
  [⟨"word", .repetition 1 none (.ruleName "letter")⟩,
   ⟨"letter", .ruleName "ALPHA"⟩]

/- A word stops before a character of two bytes. -/
theorem exists_spans_letterWords :
    ∃ program entry,
      ofRules letterWords = .ok program ∧
      "word" ∈ program.ruleNames ∧
      program.entry? "word" = some entry ∧
      program.run entry (bytes "caf\u00e9") 0 = .matched 3 ∧
      IsSafeSpan "caf\u00e9" 0 3 := by
  have hRuns :
      (ofRules letterWords).toOption.map
          (fun program =>
            (program.ruleNames, program.entry? "word",
             program.run 0 (bytes "caf\u00e9") 0)) =
        some
          (["word", "letter"], some 0, .matched 3) := by
    decide +kernel
  cases hProgram : ofRules letterWords with
  | error cause =>
      rw [hProgram] at hRuns
      cases hRuns
  | ok program =>
      rw [hProgram] at hRuns
      have hParts := Option.some.inj hRuns
      rw [Prod.mk.injEq, Prod.mk.injEq] at hParts
      rcases hParts with ⟨hNames, hEntry, hRun⟩
      have hName : "word" ∈ program.ruleNames := by
        rw [hNames]
        exact List.mem_cons_self
      rcases exists_spans hProgram hName with
        ⟨entry, hFound, hSpans⟩
      rw [hEntry] at hFound
      cases hFound
      exact
        ⟨program, 0, rfl, hName, hEntry, hRun,
          (hSpans _ 0).1 3 hRun⟩

end Program

end Abnf
