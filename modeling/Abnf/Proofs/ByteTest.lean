import Abnf.CharSet.Test

/-
  Byte tests decide membership.

  The test that is chosen for a set accepts the members of
  the set and no other byte, whichever of the four kinds of
  tests it is.

  Main declarations:
    * `Abnf.CharSet.mem_codes_iff`
    * `Abnf.CharSet.length_codes`
    * `Abnf.CharSet.accepts_test`
-/

------------------------------------------------------------
-- Members And Their Number
------------------------------------------------------------

namespace Abnf

namespace CharSet

/- Members lie in the ASCII table. -/
theorem lt_tableSize_of_hasCode
    {s : CharSet}
    {code : Nat}
    (h : s.hasCode code = true) :
    code < tableSize := by
  by_cases hLow : code < 64
  · have hTable : (64 : Nat) ≤ tableSize := by decide
    omega
  · by_cases hHigh : code < tableSize
    · exact hHigh
    · simp [hasCode, hLow, hHigh] at h

/- The listed codes are those of the members. -/
theorem mem_codes_iff
    (s : CharSet)
    (code : Nat) :
    code ∈ s.codes ↔ s.hasCode code = true := by
  simp only [codes, List.mem_filter, List.mem_range]
  constructor
  · intro h
    exact h.2
  · intro h
    exact ⟨lt_tableSize_of_hasCode h, h⟩

/- There are as many listed codes as members. -/
theorem length_codes
    (s : CharSet) :
    s.codes.length = s.size := by
  have hRange :
      List.range tableSize =
        List.range 64 ++ (List.range 64).map (64 + ·) := by
    rw [show tableSize = 64 + 64 from rfl, List.range_add]
  have hLow :
      (List.range 64).countP s.hasCode = bitCount s.low := by
    apply List.countP_congr
    intro code hCode
    simp [hasCode, List.mem_range.mp hCode]
  have hHigh :
      (List.range 64).countP (s.hasCode ∘ (64 + ·)) =
        bitCount s.high := by
    apply List.countP_congr
    intro code hCode
    have hBound := List.mem_range.mp hCode
    have hTable : 64 + code < tableSize := by
      simp only [tableSize]
      omega
    simp [hasCode, hTable]
  rw [codes, ← List.countP_eq_length_filter, hRange,
    List.countP_append, List.countP_map, hLow, hHigh, size]

/- The listed bytes are the members. -/
theorem mem_bytes_iff
    (s : CharSet)
    (b : UInt8) :
    b ∈ s.bytes ↔ s.containsByte b = true := by
  simp only [bytes, List.mem_map, mem_codes_iff,
    containsByte]
  constructor
  · rintro ⟨code, hCode, rfl⟩
    have hBound := lt_tableSize_of_hasCode hCode
    have hNat : (UInt8.ofNat code).toNat = code := by
      rw [UInt8.toNat_ofNat']
      simp only [tableSize] at hBound
      omega
    rw [hNat]
    exact hCode
  · intro h
    exact ⟨b.toNat, h, by simp⟩

end CharSet

end Abnf

------------------------------------------------------------
-- Tests
------------------------------------------------------------

namespace Abnf

namespace CharSet

/- The test of a set accepts exactly the members. -/
theorem accepts_test
    (s : CharSet)
    (b : UInt8) :
    s.test.accepts b = s.containsByte b := by
  have hLength : s.bytes.length = s.size := by
    simp [bytes, length_codes]
  rw [Bool.eq_iff_iff, ← mem_bytes_iff]
  unfold test
  split
  · rename_i hSize
    have hNil : s.bytes = [] := by
      apply List.eq_nil_of_length_eq_zero
      omega
    simp [ByteTest.accepts, hNil]
  · rename_i hSize
    rw [hSize] at hLength
    rcases List.length_eq_one_iff.mp hLength with
      ⟨c, hOne⟩
    simp [ByteTest.accepts, hOne]
  · simp [ByteTest.accepts]
  · simp [ByteTest.accepts]
  · simp [ByteTest.accepts, mem_bytes_iff]

end CharSet

end Abnf
