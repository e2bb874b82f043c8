import Abnf.Text.Runs

/-
  Letters that differ in case only.

  Letters of one orbit are the same but for their case. Most
  orbits have two members, a few have three or four.

  Key definitions include:
    * `Abnf.Folding.orbit`
    * `Abnf.Folding.close`
-/

------------------------------------------------------------
-- Pairs
------------------------------------------------------------

namespace Abnf

namespace Folding

/-
  The pairs of the least member of an orbit and another one.
  An entry holds the distance from the start of the entry
  before, the number of pairs, the step between pairs, and
  the distance inside a pair.
-/
def table : String :=
  String.join
    ["cNbABbGKBBmlRIBBlOdUBBbcPABBbdVLXBbGFBBmhATHBbGHBB",
     "lgXbGBBeRBYCBbYDCBHICBRXCBbVDCBHBBhNBBBiCBCCBEBBhY",
     "BBBBCCBhXCBBBDBBdBBBBhUBBBhVBBBBCBBhXBBBhZBBBdTBBB",
     "iDBBBiBBBBBCBBgHBBBckyZBBBiDBBBiFBBBfABBBiGBDCBGBB",
     "iKBBBBCBBiKDBBBCBBiKBBBBCCBiJCCCBEBBiLBBBBEBBBDBBc",
     "EFBBBABBCDBBBABBCDBBBABBCDICBRJCBTBBBABBCDBBBEUCBb",
     "QJCBYBBpzFBBBBDBBpzCBCBpzZCBBBDBBcRBBBcTBFCBKBBpyT",
     "BBBpyQBBBpySKBBckpRFBBckpNDBBckqPBBBckoEBBBckpGEBB",
     "ckpGBBBpxFBBBckpDFBBpxLMBBpwPFBBckpFFBBckoGWBBcknL",
     "BBBcknIgLBBdGABBeMABBkuJbRCCBGBBBFDBfAEBBeMHBBbMCD",
     "BbLEBBcMCCBcLCBBksHBIBbGBBBcKDBBdSDBBcFABBdOCBBdIA",
     "CBbGDFBbGDBBcCBBBdCCBBbFAJBbGDBBbVDBBleJHBBkrRbFBB",
     "IJMCBbABBHFBBBDBBBGQBdCQbGBbGCBBjgOCBBjgNKBBjgEDCB",
     "jgCBBBjgDIBBjfWcCRCBCBBjdTbObBCBcCBBPBHCBPbWCBdTbM",
     "BbWeiPbMBktKbNBBktKGBBktKDbRBelSbTDBelSzZdCBcfmUdC",
     "GBIdgQBBcaeKABBcaeLBBBBjGBBcagYEBBfqSRBBcaiYeKcXCB",
     "dSBBcHcMbWCBdSIBIQGBIQIBIQIBIQGBIRECIPIBIQCBcWCEBd",
     "IECBdWCCBeYCCBeICCBeWEIBIQIBIQIBIQCBIDBBJQBBJNCBIQ",
     "CBIFBBHOBBJmHBBbCbUQBQbJBBBbfNbABbActUbWBbWdSBBBHD",
     "CBLBBBDBBBLbYCBeDCCBHBBBbtyKFCBMRCBcAOCBgGHCBQbFCB",
     "cTCCBFFCBNBBBFCCBEBBbWCKCBbDBBbjSBICBTCCBFICBbPBBB",
     "bflWBBBboMbABbGbvZbOBbOgUbKBbOhKLBbNMPBbNQHBbNICBb",
     "NcqEbZBcMiAWBbGehKbGBbGbglCbGBbGdSZBbBbuiYbIBbI"]

/- The pairs of some entries, from a place on. -/
def pairsFrom :
    Nat → List Nat → List (Nat × Nat)
  | place, skipped :: count :: step :: distance :: rest =>
      let first := place + skipped
      (List.range count).map
        (fun i =>
          (first + i * step, first + i * step + distance)) ++
        pairsFrom first rest
  | _, _ => []

/- All pairs. -/
def pairs : List (Nat × Nat) :=
  pairsFrom 0 (Runs.numbers table)

end Folding

end Abnf

------------------------------------------------------------
-- Orbits
------------------------------------------------------------

namespace Abnf

namespace Folding

/- The least member of the orbit of a code point. -/
def least
    (code : Nat) : Nat :=
  match pairs.find? (·.2 = code) with
  | some pair => pair.1
  | none => code

/- The code points that differ in case only. -/
def orbit
    (code : Nat) : List Nat :=
  least code ::
    pairs.filterMap
      (fun pair =>
        if pair.1 = least code then some pair.2 else none)

/- A set with all that differs from its members in case. -/
def close
    (set : Runs) : Runs :=
  let touched := pairs.filter
    (fun pair => set.has pair.1 || set.has pair.2)
  let centres := touched.map (·.1)
  let reached := pairs.filter
    (fun pair => centres.contains pair.1)
  Runs.unionAll
    [set,
     .ofList
       (reached.flatMap
         (fun pair =>
           [(pair.1, pair.1), (pair.2, pair.2)]))]

/- A set with all that differs in case within ASCII. -/
def closeAscii
    (set : Runs) : Runs :=
  let small := (List.range 26).map (· + 'a'.toNat)
  Runs.unionAll
    [set,
     .ofList
       ((small.filter
         (fun code => set.has code || set.has (code - 32))
        ).flatMap
         (fun code =>
           [(code - 32, code - 32), (code, code)]))]

end Folding

end Abnf
