import Mathlib.Data.Finset.Dedup
import Mathlib.Data.Set.Card
import Abnf.Proofs.SetRuns

/-
  Sets of characters by their members.

  The two masks of a set stand for the ASCII characters in
  it. Ranges, lists of characters and unions have the members
  that they name, the size is their number, and two sets are
  equal when they have the same ones. The test of a set is of
  the kind that its size calls for and passes the members.

  Key definitions include:
    * `Abnf.CharSet.Adds`
    * `Abnf.ByteTest.Suits`

  Main declarations:
    * `Abnf.CharSet.contains_ofRange`
    * `Abnf.CharSet.adds_ofChars`
    * `Abnf.CharSet.encard_contains`
    * `Abnf.CharSet.eq_iff_contains`
    * `Abnf.CharSet.suits_test`
    * `Abnf.CharSet.represents_members`
-/

------------------------------------------------------------
-- Characters And Their Codes
------------------------------------------------------------

namespace Abnf

/- Characters are in the order of their codes. -/
theorem le_iff_toNat_le
    {c d : Char} : c ≤ d ↔ c.toNat ≤ d.toNat := by
  rw [Char.le_def, UInt32.le_iff_toNat_le]
  rfl

namespace CharSet

/- The codes of the table are those of characters. -/
theorem toNat_ofNat_of_lt :
    ∀ code < tableSize, (Char.ofNat code).toNat = code := by
  set_option maxRecDepth 8000 in decide

theorem contains_empty
    (c : Char) : empty.contains c = false :=
  hasCode_empty c.toNat

/- A union has the members of both sides. -/
theorem contains_union
    (s t : CharSet)
    (c : Char) :
    (s ∪ t).contains c = (s.contains c || t.contains c) :=
  hasCode_union s t c.toNat

/- A range has the characters between its ends. -/
theorem contains_ofRange
    (first last c : Char) :
    (ofRange first last).contains c =
      decide
        (first ≤ c ∧ c ≤ last ∧ c.toNat < tableSize) := by
  rw [ofRange, contains]
  split
  · rename_i hOrder
    rw [le_iff_toNat_le] at hOrder
    rw [hasCode_ofSpan (by omega), decide_eq_decide,
      le_iff_toNat_le, le_iff_toNat_le, Nat.lt_succ_iff]
  · rename_i hReversed
    rw [hasCode_empty, eq_comm, decide_eq_false_iff_not]
    rintro ⟨hLow, hHigh, -⟩
    exact hReversed (Char.le_trans hLow hHigh)

/- The set of one ASCII character. -/
theorem ofChar_eq
    {c : Char}
    (hAscii : c.toNat < tableSize) :
    ofChar c = .ok (.ofSpan c.toNat (c.toNat + 1)) ∧
      ∀ code,
        (ofSpan c.toNat (c.toNat + 1)).hasCode code = true ↔
          code = c.toNat := by
  refine ⟨if_pos hAscii, ?_⟩
  intro code
  rw [hasCode_ofSpan (Nat.le_succ _), decide_eq_true_iff]
  omega

end CharSet

end Abnf

------------------------------------------------------------
-- Sets Of Listed Characters
------------------------------------------------------------

namespace Abnf

namespace CharSet

/-
  What may come of adding characters to a set: a set that
  has them as well, if all are ASCII, or else a report of the
  first that is not.
-/
def Adds
    (s : CharSet)
    (cs : List Char) :
    Except CharSetError CharSet → Prop
  | .ok t =>
      (∀ c ∈ cs, c.toNat < tableSize) ∧
        ∀ c, t.contains c = true ↔
          s.contains c = true ∨ c ∈ cs
  | .error cause =>
      ∃ c,
        cs.find? (tableSize ≤ ·.toNat) = some c ∧
          cause = .nonAscii c

/- By induction on the characters still to be added. -/
theorem adds_foldlM
    (cs : List Char)
    (s : CharSet) :
    Adds s cs
      (cs.foldlM (fun s c => return s ∪ (← ofChar c)) s) := by
  induction cs generalizing s with
  | nil => exact ⟨List.forall_mem_nil _, by simp⟩
  | cons c cs ih =>
      rw [List.foldlM_cons]
      by_cases hAscii : c.toNat < tableSize
      · have hChar := ofChar_eq hAscii
        have hMember :
            ∀ d,
              (ofSpan c.toNat (c.toNat + 1)).contains d =
                  true ↔
                d = c := by
          intro d
          rw [contains, hChar.2, Char.toNat_inj]
        have hRest := ih (s ∪ ofSpan c.toNat (c.toNat + 1))
        rw [hChar.1]
        change Adds s (c :: cs)
          (cs.foldlM _ (s ∪ ofSpan c.toNat (c.toNat + 1)))
        revert hRest
        generalize
          cs.foldlM (fun s c => return s ∪ (← ofChar c))
            (s ∪ ofSpan c.toNat (c.toNat + 1)) = result
        intro hRest
        cases result with
        | ok t =>
            refine
              ⟨List.forall_mem_cons.mpr ⟨hAscii, hRest.1⟩,
                ?_⟩
            intro d
            rw [hRest.2 d, contains_union, Bool.or_eq_true,
              hMember d, List.mem_cons, or_assoc]
        | error cause =>
            rcases hRest with ⟨d, hFirst, rfl⟩
            refine ⟨d, ?_, rfl⟩
            rw [List.find?_cons_of_neg (by simpa using hAscii)]
            exact hFirst
      · rw [ofChar, if_neg hAscii]
        refine ⟨c, ?_, rfl⟩
        rw [List.find?_cons_of_pos
          (by simpa using Nat.not_lt.mp hAscii)]

theorem adds_ofChars
    (cs : List Char) : Adds empty cs (ofChars cs) :=
  adds_foldlM cs empty

/- A set can be built of characters that are all ASCII. -/
theorem exists_ofChars_iff
    (cs : List Char) :
    (∃ s, ofChars cs = .ok s) ↔
      ∀ c ∈ cs, c.toNat < tableSize := by
  have hAdds := adds_ofChars cs
  constructor
  · rintro ⟨s, hBuilt⟩
    rw [hBuilt] at hAdds
    exact hAdds.1
  · intro hAscii
    cases hResult : ofChars cs with
    | ok s => exact ⟨s, rfl⟩
    | error cause =>
        rw [hResult] at hAdds
        rcases hAdds with ⟨c, hFirst, -⟩
        have hOther := List.find?_some hFirst
        have hBelow :=
          hAscii c (List.mem_of_find?_eq_some hFirst)
        rw [decide_eq_true_iff] at hOther
        exact absurd hBelow (Nat.not_lt.mpr hOther)

/- The members are then the listed characters. -/
theorem contains_of_ofChars
    {cs : List Char}
    {s : CharSet}
    (h : ofChars cs = .ok s)
    (c : Char) :
    s.contains c = true ↔ c ∈ cs := by
  have hAdds := adds_ofChars cs
  rw [h] at hAdds
  rw [hAdds.2 c, contains_empty]
  simp

/- Otherwise the first one that is not ASCII is reported. -/
theorem ofChars_eq_error_iff
    {cs : List Char}
    {cause : CharSetError} :
    ofChars cs = .error cause ↔
      ∃ c,
        cs.find? (tableSize ≤ ·.toNat) = some c ∧
          cause = .nonAscii c := by
  have hAdds := adds_ofChars cs
  cases hResult : ofChars cs with
  | ok s =>
      rw [hResult] at hAdds
      refine iff_of_false nofun ?_
      rintro ⟨c, hFirst, -⟩
      have hOther := List.find?_some hFirst
      rw [decide_eq_true_iff] at hOther
      exact
        absurd
          (hAdds.1 c (List.mem_of_find?_eq_some hFirst))
          (Nat.not_lt.mpr hOther)
  | error cause' =>
      rw [hResult] at hAdds
      rcases hAdds with ⟨c, hFirst, rfl⟩
      rw [hFirst]
      constructor
      · intro hSame
        cases hSame
        exact ⟨c, rfl, rfl⟩
      · rintro ⟨d, hSame, rfl⟩
        cases hSame
        rfl

end CharSet

end Abnf

------------------------------------------------------------
-- Numbers Of Members
------------------------------------------------------------

namespace Abnf

namespace CharSet

/- The listed codes are those of the members. -/
theorem mem_map_codes_iff
    (s : CharSet)
    (c : Char) :
    c ∈ s.codes.map Char.ofNat ↔ s.contains c = true := by
  rw [List.mem_map]
  constructor
  · rintro ⟨code, hCode, rfl⟩
    rw [mem_codes_iff] at hCode
    rw [contains,
      toNat_ofNat_of_lt _ (lt_tableSize_of_hasCode hCode)]
    exact hCode
  · intro hMember
    exact
      ⟨c.toNat, (mem_codes_iff s _).mpr hMember,
        Char.ofNat_toNat c⟩

/- No member is listed twice. -/
theorem nodup_map_codes
    (s : CharSet) : (s.codes.map Char.ofNat).Nodup := by
  apply List.Nodup.map_on
  · intro code hCode code' hCode' hSame
    rw [mem_codes_iff] at hCode hCode'
    have hNat := toNat_ofNat_of_lt
    rw [← hNat code (lt_tableSize_of_hasCode hCode), hSame,
      hNat code' (lt_tableSize_of_hasCode hCode')]
  · exact List.nodup_range.filter _

/- The size of a set is the number of its members. -/
theorem encard_contains
    (s : CharSet) :
    {c : Char | s.contains c = true}.encard = s.size := by
  have hList :
      {c : Char | s.contains c = true} =
        ((s.codes.map Char.ofNat).toFinset : Set Char) := by
    ext c
    rw [Finset.mem_coe, List.mem_toFinset,
      mem_map_codes_iff]
    rfl
  rw [hList, Set.encard_coe_eq_coe_finsetCard,
    List.toFinset_card_of_nodup s.nodup_map_codes,
    List.length_map, length_codes]

/- Sets with the same members are equal, and only these. -/
theorem eq_iff_contains
    {s t : CharSet} :
    s = t ↔ ∀ c, s.contains c = t.contains c := by
  constructor
  · rintro rfl c
    rfl
  · intro hSame
    apply eq_of_hasCode
    intro code
    by_cases hTable : code < tableSize
    · have hCode := hSame (Char.ofNat code)
      rw [contains, contains,
        toNat_ofNat_of_lt code hTable] at hCode
      exact hCode
    · have hNone :
          ∀ u : CharSet, u.hasCode code = false :=
        fun u =>
          Bool.eq_false_iff.mpr
            (fun hMember =>
              hTable (lt_tableSize_of_hasCode hMember))
      rw [hNone s, hNone t]

end CharSet

end Abnf

------------------------------------------------------------
-- Kinds Of Tests
------------------------------------------------------------

namespace Abnf

/-
  The kind of test for a number of members. Listed bytes are
  as many as the members and leave the table its length.
-/
def ByteTest.Suits
    (size : Nat) : ByteTest → Prop
  | never => size = 0
  | eq _ => size = 1
  | oneOf bs =>
      (size = 2 ∨ size = 3) ∧ bs.length = size ∧
        (entries bs).length = 3
  | mask _ _ => 4 ≤ size

namespace CharSet

/- The kind of the test of a set is fixed by its size. -/
theorem suits_test
    (s : CharSet) : s.test.Suits s.size := by
  have hLength : s.bytes.length = s.size := by
    rw [bytes, List.length_map, length_codes]
  have hListed :
      s.size = 2 ∨ s.size = 3 →
        (ByteTest.oneOf s.bytes).Suits s.size := by
    intro hSize
    refine ⟨hSize, hLength, ?_⟩
    rw [ByteTest.entries, List.length_append,
      List.length_replicate]
    omega
  unfold test
  split
  · assumption
  · assumption
  · rename_i hTwo
    exact hListed (Or.inl hTwo)
  · rename_i hThree
    exact hListed (Or.inr hThree)
  · rename_i hNone hOne hTwo hThree
    change s.size ≠ 0 at hNone
    change s.size ≠ 1 at hOne
    change s.size ≠ 2 at hTwo
    change s.size ≠ 3 at hThree
    change 4 ≤ s.size
    omega

/-
  Sets of characters are what their members make them. A
  range has the ASCII characters between its ends, and a list
  of ASCII characters those in it, while of any other list
  the first character that is not ASCII is reported. Unions
  have the members of both sides, the size is the number of
  members, and only equal sets have the same ones. The test
  passes the bytes of the members, and its kind is fixed by
  their number.
-/
theorem represents_members :
    (∀ first last c,
      (ofRange first last).contains c =
        decide
          (first ≤ c ∧ c ≤ last ∧ c.toNat < tableSize)) ∧
    (∀ cs : List Char,
      ((∃ s, ofChars cs = .ok s) ↔
        ∀ c ∈ cs, c.toNat < tableSize) ∧
      (∀ s, ofChars cs = .ok s →
        ∀ c, s.contains c = true ↔ c ∈ cs) ∧
      ∀ cause,
        ofChars cs = .error cause ↔
          ∃ c,
            cs.find? (tableSize ≤ ·.toNat) = some c ∧
              cause = .nonAscii c) ∧
    (∀ (s t : CharSet) (c : Char),
      (s ∪ t).contains c =
        (s.contains c || t.contains c)) ∧
    (∀ s : CharSet,
      {c : Char | s.contains c = true}.encard = s.size) ∧
    (∀ s t : CharSet,
      s = t ↔ ∀ c, s.contains c = t.contains c) ∧
    ∀ s : CharSet,
      (∀ b, s.test.accepts b = s.containsByte b) ∧
        s.test.Suits s.size := by
  refine
    ⟨contains_ofRange, ?_, contains_union, encard_contains,
      fun _ _ => eq_iff_contains, ?_⟩
  · intro cs
    exact
      ⟨exists_ofChars_iff cs,
        fun _ hBuilt => contains_of_ofChars hBuilt,
        fun _ => ofChars_eq_error_iff⟩
  · intro s
    exact ⟨accepts_test s, suits_test s⟩

end CharSet

end Abnf
