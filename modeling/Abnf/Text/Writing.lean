import Abnf.Text.Runs

/-
  Scripts of code points.

  A code point belongs to one script, or to none. Those that
  several scripts share can be counted to each of them.

  Key definitions include:
    * `Abnf.Writing.number?`
    * `Abnf.Writing.members`
    * `Abnf.Writing.extended`
-/

------------------------------------------------------------
-- Names
------------------------------------------------------------

namespace Abnf

namespace Writing

/- The names of each script, in the order of their numbers. -/
def names : List String :=
  ["adlm adlam", "aghb caucasianalbanian", "ahom",
   "arab arabic", "armi imperialaramaic", "armn armenian",
   "avst avestan", "bali balinese", "bamu bamum",
   "bass bassavah", "batk batak", "beng bengali",
   "berf beriaerfe", "bhks bhaiksuki", "bopo bopomofo",
   "brah brahmi", "brai braille", "bugi buginese",
   "buhd buhid", "cakm chakma", "cans canadianaboriginal",
   "cari carian", "cham", "cher cherokee",
   "chrs chorasmian", "copt coptic qaac",
   "cpmn cyprominoan", "cprt cypriot", "cyrl cyrillic",
   "deva devanagari", "diak divesakuru", "dogr dogra",
   "dsrt deseret", "dupl duployan",
   "egyp egyptianhieroglyphs", "elba elbasan",
   "elym elymaic", "ethi ethiopic", "gara garay",
   "geor georgian", "glag glagolitic", "gong gunjalagondi",
   "gonm masaramgondi", "goth gothic", "gran grantha",
   "grek greek", "gujr gujarati", "gukh gurungkhema",
   "guru gurmukhi", "hang hangul", "hani han",
   "hano hanunoo", "hatr hatran", "hebr hebrew",
   "hira hiragana", "hluw anatolianhieroglyphs",
   "hmng pahawhhmong", "hmnp nyiakengpuachuehmong",
   "hung oldhungarian", "ital olditalic", "java javanese",
   "kali kayahli", "kana katakana", "kawi",
   "khar kharoshthi", "khmr khmer", "khoj khojki",
   "kits khitansmallscript", "knda kannada",
   "krai kiratrai", "kthi kaithi", "lana taitham",
   "laoo lao", "latn latin", "lepc lepcha", "limb limbu",
   "lina lineara", "linb linearb", "lisu", "lyci lycian",
   "lydi lydian", "mahj mahajani", "maka makasar",
   "mand mandaic", "mani manichaean", "marc marchen",
   "medf medefaidrin", "mend mendekikakui",
   "merc meroiticcursive", "mero meroitichieroglyphs",
   "mlym malayalam", "modi", "mong mongolian", "mroo mro",
   "mtei meeteimayek", "mult multani", "mymr myanmar",
   "nagm nagmundari", "nand nandinagari",
   "narb oldnortharabian", "nbat nabataean", "newa",
   "nkoo nko", "nshu nushu", "ogam ogham", "olck olchiki",
   "onao olonal", "orkh oldturkic", "orya oriya",
   "osge osage", "osma osmanya", "ougr olduyghur",
   "palm palmyrene", "pauc paucinhau", "perm oldpermic",
   "phag phagspa", "phli inscriptionalpahlavi",
   "phlp psalterpahlavi", "phnx phoenician", "plrd miao",
   "prti inscriptionalparthian", "rjng rejang",
   "rohg hanifirohingya", "runr runic", "samr samaritan",
   "sarb oldsoutharabian", "saur saurashtra",
   "sgnw signwriting", "shaw shavian", "shrd sharada",
   "sidd siddham", "sidt sidetic", "sind khudawadi",
   "sinh sinhala", "sogd sogdian", "sogo oldsogdian",
   "sora sorasompeng", "soyo soyombo", "sund sundanese",
   "sunu sunuwar", "sylo sylotinagri", "syrc syriac",
   "tagb tagbanwa", "takr takri", "tale taile",
   "talu newtailue", "taml tamil", "tang tangut",
   "tavt taiviet", "tayo taiyo", "telu telugu",
   "tfng tifinagh", "tglg tagalog", "thaa thaana", "thai",
   "tibt tibetan", "tirh tirhuta", "tnsa tangsa",
   "todr todhri", "tols tolongsiki", "toto",
   "tutg tulutigalari", "ugar ugaritic", "vaii vai",
   "vith vithkuqi", "wara warangciti", "wcho wancho",
   "xpeo oldpersian", "xsux cuneiform", "yezi yezidi",
   "yiii yi", "zanb zanabazarsquare", "zinh inherited qaai",
   "zyyy common"]

/-
  The number of the script of a name, written in small
  letters without blanks. Numbers start at one.
-/
def number?
    (name : String) : Option Nat :=
  (names.findIdx?
    (fun all => (all.splitOn " ").contains name)).map
    (· + 1)

end Writing

end Abnf

------------------------------------------------------------
-- Tables
------------------------------------------------------------

namespace Abnf

namespace Writing

/-
  The scripts of all code points: how many have the same
  one, and its number or zero, in turns.
-/
def table : String :=
  String.join
    ["cNgSbAcWGgSbAcWbVgSBcWPgSBcWFgSXcWBgSbFcWBgSrHcWbN",
     "gSFcWFgSCPUgSeIgREbUBgSDbUCAEbUBgSBbUEABbUBgSBbUBg",
     "SDbUBABbUBAUbUBAcLbUObAQbUfDbDCgRgNbDBAbMGCAbYGCAD",
     "GBAcDcCIAbBcCEAGcCLAFEBgSGEBgSOEBgSDEBgSbGEBgSKELg",
     "RbAEBgReEEBgSbIEOfMBAcIfMCADfMbWEbYfYOAcHdZCADdZbU",
     "eVCAPeVBAbCdGCABdGBALfMFAbIEFAcXEBgSbDEdDbEEgRPbEC",
     "gSbAbEEMBAIMCACMCAWMBAHMBABMDAEMCAJMCACMCAEMIABMEA",
     "CMBAFMCAZMCADbXBAGbXEACbXCAWbXBAHbXBACbXBACbXBACbX",
     "CABbXBAFbXEACbXCADbXDABbXHAEbXBABbXHARbXKADbVBAJbV",
     "BADbVBAWbVBAHbVBACbVBAFbVCAKbVBADbVBADbVCABbVPAEbV",
     "CAMbVHAHbVBADeFBAIeFCACeFCAWeFBAHeFBACeFBAFeFCAJeF",
     "CACeFCADeFHADeFEACeFBAFeFCASeFKACfRBAGfRDADfRBAEfR",
     "DACfRBABfRBACfRDACfRDADfRDAMfREAFfRDADfRBAEfRCABfR",
     "GABfROAVfRFANfVBADfVBAXfVBAQfVCAJfVBADfVBAEfVHACfV",
     "BADfVBACfVCAEfVCAKfVHAJfVNcRBADcRBAXcRBAKcRBAFcRCA",
     "JcRBADcRBAEcRHACcRFADcRBAEcRCAKcRBADcRMANdNBADdNBA",
     "bZdNBADdNBAGdNEAQdNCAbAdNBADfEBASfEDAYfEBAJfEBABfE",
     "CAHfEDABfEEAGfEBABfEBAIfEGAKfECADfEMAcGfZEABgSbCfZ",
     "bLACcVBABcVBAFcVBAYcVBABcVBAXcVCAFcVBABcVBAHcVBAKc",
     "VCAEcVbGAcUgABAbKgAEAbNgABAbKgABAPgABAHgAEgSCgAbLA",
     "gEdTbMbOBABbOFABbOCAbRbOBgSEbOjWbYcVbMBAEbMCAHbMBA",
     "BbMBAEbMCAbPbMBAEbMCAbHbMBAEbMCAHbMBABbMBAEbMCAPbM",
     "BAcFbMBAEbMCAcPbMCAbGbMDAbAbMGAdIYCAGYCAyQVbDeBDAc",
     "XeUDgSLeUHAWfXJABfXVcACgSJAUTMANfNBADfNBACfNMAdQcO",
     "CAKcOGAKcOGACdPCgSBdPBgSUdPGAdLdPHAbRdPFAcSVKAbFcY",
     "BAMcYEAMcYEABcYDAMcYbEfPCAFfPLAbSfQEAbAfQGALfQDACf",
     "QbGcObCSCACScLcUBAbDcUCALcUGAKcUGAOcUCAbUgRCAMgRUA",
     "cZIBAbYIcMfJcALIAELcEcXDAPcXDADcXbWeCLbDFAbRbOCADb",
     "OIfJIADgRBgSNgRBgSHgREgSBgRGgSBgRDgSCgRBgSFAbMcWFb",
     "UBbDbXcWFbUEcWFbUNcWBbDcScWBbUcMgRjWcWWbUCAGbUCAbM",
     "bUCAGbUCAIbUBABbUBABbUBABbUBAbFbUCAcBbUBAPbUBAObUC",
     "AGbUBATbUCADbUBAJbUBAMgSCgRdJgSBALgSBcWCALgSBcWPgS",
     "BANcWDAbIgSOAbHgRPAbMgSBbUDgSCcWGgSBcWbBgSBcWRgSbP",
     "cWDgSEAzQgSWALgSVAbjSgSjWRyEgSCAfIgSdSbPbGcWeMbAFA",
     "HbAbMbOBABbOFABbOCAcEfWHACfWOABfWXbMJAHbMBAHbMBAHb",
     "MBAHbMBAHbMBAHbMBAHbMBAHbMBAbGbDdQgSbIAbAbZBAdLbZM",
     "AiGbZbAAVgSBbZBgSBbZZgSJbZEgRCbYIgSEbZEgSBAdIcDCAC",
     "gRCgSDcDBgSdMcLCgSDcLFAbRPBAdQbYBAQgSbGPbMgSJABgSQ",
     "cLbFbYBAcMgSbFbYdDgSbVcLBgSdKcLgMgSjtObZcMgSbfbKbZ",
     "bsVgPDAcDgPJAbWdBlOgIUAdSbDdKJIAbIgSdYcWDgSdEcWUAP",
     "cWbTfLDAKgSGAcEeMIAcSeXIAMeXGAbGbEbUcKBgSBcKbKeSLA",
     "BeSbDbYDAdAcJBABgSKcJEACcJbFdTBAcDXJAOXCAKXCAEXbGd",
     "TcPfTYAFfTXdRKAGbMCAGbMCAGbMJAHbMBAHbMBAbRcWBgSJcW",
     "BbUEcWCgSEAdCYbUdRCAKdRGAqnSbYMAXbYEAbXbYmnCAoCbZC",
     "AeCbZbMAHcWMAFGFAbAcCBAFcCBABcCBACcCBACcCBAKcCtAEC",
     "gSfOEbGAQEQgRKgSGAOgRCbDbJgSBATgSBAEgSEAFEBAfFECAB",
     "gSBAbGgSbAcWGgSbAcWLgSKcLBgSbTcLCgSbFbYDAGbYCAGbYC",
     "AGbYCADbYDAHgSBAHgSKAFgSCAMdABAbAdABATdABACdABAPdA",
     "CAOdAbIAeTdAFADgSEAbTgSDAJgSdBbUBANgSDABbUbVAbTgSB",
     "gRfAAbDdCDAbXWPABgRbBgSEAbKcIJADcIbBbSFAbReLFAbEgH",
     "BABgHbKgMEAOgMbQAdCbHbWeZbEeHCAKeHGAbKeGEAbKeGEAbO",
     "bKIAcACLABCLgJBAPgJBAHgJBACgJBALgJBAPgJBAHgJBACgJD",
     "AcAgDMAlZcZJAWcZKAIcZYAGcWBAbQcWBAJcWcRAGbCCABbCBA",
     "bSbCBACbCDABbCCABbCWFBAJFbGeJbFdXIAJdXbWATcBBACcBF",
     "AFcBbCePDABePbAdDFABdDbAfCbMAbGdMYdLEAUdLCAbUdLEcN",
     "BACcNFAIcNBADcNBAbDcNCADcNEAKcNHAJcNHAbGeWbGdWbGAb",
     "NdHEAMdHJAcCHDAHHWeRCAIeRTeNFAIeNSeOHAEeOMAHeOdCAc",
     "VeEcDAbZcHNAbZcHHAGcHbOeTIAKeTGAbMbNDAbDbNIACbNiAA",
     "bFEBAbQgOBADgOCACgOQAGEIAJEbHAGEbOfGIAbQfFWAbAeIbM",
     "AbCZUAXbLJAdAQEAbKQJABQcPcTKABcTCAZfHHAKfHGAcBUBAS",
     "UIAbNdEJAdSfABAUfELAScPBAbVcPcKAHdSBABdSBAEdSBAPdS",
     "BALdSGAcHfDFAKfDGAEbTBAIbTCACbTCAWbTBAHbTBACbTBAFb",
     "TBABgRJbTCACbTCADbTCABbTGABbTFAHbTCAHbTDAFbTLAKgGB",
     "ABgGCABgGBAbMgGBAKgGBABgGCABgGBAEgGBAKgGBACgGIACgG",
     "bDAdOdYBAFdYbEAcUgBIAKgBgKAcCfBCAbMfBbIAcRdOLAKdOG",
     "ANdPTAcGfOGAKfOGAUdTbCAbBDCAPDEAXDhDAcIbGdWAdFgKMA",
     "BgKHbFCABbFCAIbFBACbFBAbEbFBACbFCAMbFJAKbFcSAIdVCA",
     "bUdVCALdVbBAcUgQIAdFfINAQVcFeKHAKbEdIAIfAdKAbIfKOA",
     "KfKGAJOBAbTOBAOOKAbDODAbGdICAWdIBAOdIcVAHbRBACbRBA",
     "bSbRDABbRBACbRBAJbRIAKbRGAGbQBACbQBAbLbQBACbQBAGbQ",
     "HAKbQGAbSgEEAKgEjMAZdFHARcMBAbPcMDAbDcMdHABdBPAbYf",
     "RNABfRbjMgNdYAeHgNBAFgNLAhOgNdxKAdVbBNAbqSbJKAfxRb",
     "JFAwLcEkdDAcGbWcoSAvXJHAbFdQBAKdQEACdQdBgCBAKgCGAb",
     "EKCAGKKAcScFKAKcFBAHcFBAVcFFATcFqQAcGcShQAdNdJFAZN",
     "CAZNbSAcXeQEAcFeQHAReQcMABfSBeACbZBcQLAHbZJAkfWfSs",
     "CcQbPABcQbFfSdTAeLfSmwRAEcLBAHcLBACcLBABcLlBcDDcLP",
     "ABcDbDADcDCABcLOAEcLIApGeAdkUAeDbIFANbIDAJbIHAKbIC",
     "AEbIEgSfvGAjTgSDAqUgSGAXgSPARgSPAbUgRCAXgRJAeMgScI",
     "AjMgSKAbNgSCAcKgSDgRRgSIgRCgSHgRbEgSEgRcJgSVAcSbUe",
     "SAUgSMAUgSMAdJgSJAZgSfFAdHgSBAcTgSBACgSCABgSCACgSC",
     "AEgSBAMgSBABgSBAHgSBAcNgSBAEgSCAIgSBAHgSBAbCgSBAEg",
     "SBAFgSBABgSDAHgSBAnCgSCAlGgSCAbYgSzCeYPAFeYBAPeYbq",
     "MAbFcWGAGcWiFAHbPBARbPCAHbPBACbPBAFbPFAcKbDbHABbDe",
     "IAbTcGDAOcGCAKcGEACcGmIAbFgFRAcGgLFABgLrWAbQdUiGAb",
     "ReDEABeDhKAbFfUBAWfUIACfUiQAHbMBAEbMBACbMBAPbMBAhP",
     "dKCAQdKbPAcYBEAKBEACBbeFAcQgScYAcJgShMAEEBAbBEBACE",
     "BABECABEBAKEBAEEBABEBABEGABEEABEBABEBABEBADEBACEBA",
     "BECABEBABEBABEBABEBABEBACEBABECAEEBAHEBAEEBAEEBABE",
     "BAKEBAREFADEBAFEBAREcAACEkKAbSgSEAdWgSMAPgSCAPgSBA",
     "PgSBAbLgSKAgSgScEAbAgSBcDCgSNAbSgSEAJgSHACgSOAGgSf",
     "YAblXgSDARgSDANgSDAiKgSGAMgSEABgSPAMgSEAcEgSIAKgSG",
     "AbOgSIAbEgSCAMgSEACgSOAJgSbNAnGgSIAOgSCANgSDALgSDA",
     "cFgSBABgSEAQgSCAMgSEAKgSHAfRgSBAdZgSbnPAclfCbZbGAg",
     "mObZCAioCbZCAlbLbZPAxYbZdqWAuWbZcfYAhhZbZFAmoObZbo",
     "goDABgSbEAdSgSeYAjGgRlecUA"]

/-
  The code points that several scripts share: how many to
  skip, how many to take, the number of scripts and their
  numbers.
-/
def sharedTable : String :=
  String.join
    ["hBBQHWbAbIbKbObPbQbSbUbZcWdDdEeLeZtWBHMbDbEcWdBfZg",
     "FKBCPcWBDCPcWBBCcWdBJBCcWfZBBCPcWbMBIYbAbDbUcWeLfK",
     "fPABIYbDbUcWeGfKfPgDABEYbDcWfWABFbPcWfKfMfZABLCYbA",
     "bDbSbUcWeGfMfWgDABGbAbKbPbScLcWABFbDbUcWeLfWABJbAb",
     "IcCcWeLfMfPfWgDABLGbDbIbSbUcCcWeLfMfPfWABCcWfWABDb",
     "IcWfMABEYbDcWeGABDYcWfPABCcWfKABCbMcWBBCcWfKABDbDc",
     "WgDBBEbUcWeLgDPBGYbIcLcWfMfWABEYbIcWfMABCcWfMHBDcW",
     "fKfMABCcWfMBBDYcWfMABHCYbScWfKfMfZQBBbUCBBbUSBCcWe",
     "GFBDCcWgDENBcWECCbAbUkJBCbDeLABCbDbPACCbDcWABCbDbP",
     "jXBDGbObPfABHEbNdZeTfMfYgOOBHEbNdZeTfMfYgOABDEfMfY",
     "CBIBEbNdZeTfMfYgObGBJBEdGdHeIeOeTfFfMKLCEfMKKDEfYg",
     "OGBCEfMdVBCEeTyMBPMbEbTbVbXcRcWdNdVdYeFfAfRfVgBABN",
     "MbEbTbVbXcRcWdNdYeFfRfVgBRBVMbEbGbQbRbTbVbXcRdEdNd",
     "VeDeFfDfEfLfOfRfVgBABXMbEbGbQbRbTbVbWbXcRcYdEdNdVe",
     "DeFfDfEfLfOfRfVgBAKEbEbGcTdEeOKDMUfLeOKCbXdSeOKCbV",
     "cPjMOCbTfRjIKDcRdVgGbgQKDUdTfPgVBDbObPcWcgLDBeUcTC",
     "ETcAfNfXhVCCdPeMBBCdPeMbvEBEMbEbTcRABBbEABEMbEbTcR",
     "ABDbEbTcRABBbEABFMbEdYfVgBABDMbEfVABDbEdYfAABEMbEd",
     "YfVABCbEfAABGbEcRdNeFfRfVABBbEACCbEfAACBbEABCbEfAA",
     "BCMbEABDbEdYgBAGBbEABDbEdVdYABDMbEfAABCbEdYABBbEAB",
     "EMbEdYfAAEBbEABLMbEbTcRdNdVeFfEfVgBgGABCbEbTABEbEb",
     "TcRgGACCMbEABBMACCbEbTABBdVhPCBbUcCBDbDcWfMBBBfMvS",
     "BDcWdPeMbFBCBEKBGWbObPcHdCeECBEWbUcHdMfQBDbEbTcWez",
     "MBCbAcWYBCHeEABHHWbOcHcTdDeVKBBbIEBDBEcHBBCbDbPqMQ",
     "CbZfSBBHPbYbZcDcLdPgPABIPbYbZcDcLdPeMgPABFPbYbZcDc",
     "LCBBbZBCIPbYbZcDcLdPgAgPACJPbYbZcDcLdBdPgAgPAGGPbY",
     "bZcDcLgPBBFPbYbZcDcLAIGPbYbZcDcLgPAEFPbYbZcDcLKECP",
     "bZCBFPbYbZcDcLAFCcDcLBBFPbYbZcDcLECDbZcDcLACBbZdLE",
     "CcDcLDBCcDcLdMBGPbYbZcDcLgPABCcDcLfRQBbZbGbMBbZJBC",
     "bZfSbWbOBbZcEbXBbZPMBbZbZBBbZdKZBbZKFBbZdSbFBbZbri",
     "UBCbDbPfOICbZcWlKDQbEbGbVbXcPcRcTdEdNdOdVfAfDfOgBg",
     "GADPbEbGbVbXcPcRcTdEdOdVfAfDfOgBgGACLbEbGbVbXcPcTd",
     "EdOfDfOgBABMbEbGbVbXcPcTdEdOfAfDfOgBABLbEbGbVbXcPc",
     "TdEdOfDfOgBhBBDMbEgGBBCbEfRcGBDcKcWdTgEBCScJbfpMCC",
     "EdZgWBCEfYKBCEfYcTCFPbYbZcDcLkWFGPbYbZcDcLgPKBCcDc",
     "LbTCCcDcLnOCDbBbCdAABCbCdAEbTDbCcZdADJCbCdAqAbCCEb",
     "AdaKBCdHeIdbIBCbTfRBBCbTfRcDCCbTfRetVCCbTfRBBCbTfR",
     "chjWEBbIipWSBbZlrYCBbZ"]

/- The runs with the numbers of their scripts. -/
def runsFrom :
    Nat → List Nat → List ((Nat × Nat) × Nat)
  | place, size :: number :: rest =>
      ((place, place + size - 1), number) ::
        runsFrom (place + size) rest
  | _, _ => []

/-
  The shared runs with the numbers of their scripts. The
  limit is the length of the table.
-/
def sharedFrom :
    Nat → Nat → List Nat → List ((Nat × Nat) × List Nat)
  | limit + 1, place, skipped :: size :: count :: rest =>
      let first := place + skipped
      ((first, first + size - 1), rest.take count) ::
        sharedFrom limit (first + size) (rest.drop count)
  | _, _, _ => []

/- The code points of the script of a number. -/
def members
    (number : Nat) : Runs :=
  .ofSorted
    ((runsFrom 0 (Runs.numbers table)).filterMap
      (fun run =>
        if run.2 = number then some run.1 else none))

/- The code points that the script of a number shares. -/
def extended
    (number : Nat) : Runs :=
  let entries := Runs.numbers sharedTable
  let shared := sharedFrom entries.length 0 entries
  let taken : Runs := .ofSorted (shared.map (·.1))
  ((members number).diff taken).union
    (.ofSorted
      (shared.filterMap
        (fun run =>
          if run.2.contains number then some run.1
          else none)))

end Writing

end Abnf
