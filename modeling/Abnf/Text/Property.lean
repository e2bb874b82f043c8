import Abnf.Text.Category

/-
  Properties of code points that hold or do not hold.

  Most properties follow the general categories closely. A
  property is given by categories and by the code points
  where it differs from them.

  Key definitions include:
    * `Abnf.Property`
    * `Abnf.Property.members`
    * `Abnf.Property.all`
    * `Abnf.Property.named?`
-/

------------------------------------------------------------
-- Properties
------------------------------------------------------------

namespace Abnf

/- A property of code points. -/
structure Property where
  /- Its names, in small letters without blanks. -/
  names : List String
  /- The categories that it follows. -/
  categories : List Category
  /- The gaps of the code points where it differs. -/
  exceptions : String
deriving DecidableEq, Inhabited

namespace Property

/- The code points that have the property. -/
def members
    (property : Property) : Runs :=
  (Category.members property.categories).symmDiff
    (.ofGaps property.exceptions)

/- Letters and what belongs to them. -/
def alphabetic : Property :=
  ⟨["alphabetic", "alpha"],
    Category.letters ++ [.letterNumber],
    String.join
      ["bgFBbDNwEOBBBCBCBBcULbWNBHQBdXHEECCEBbJBbEQdYL",
       "dXCDJBDBEeCBcIMDHGUcCCCPBCFDKCbDDcGHCCCCKBKCbD",
       "DcGFECCCEBbECDBLDcGIBDBCVCWDEDcGHCCCCJCKCbEBcH",
       "FDDBDKBbOFcFHBDBDICLCbDDcGHBDBDICLCPBMEcGHBDBD",
       "KBKCbDDcXGBBBISCcJBCHSBdVBCGBCQBgHTJLBbKeGMBBC",
       "EXEEDBDCHDENMBBKEclOCbECbECbECcOThGCbIBeOMEJiO",
       "FcFKCUcWCLDbXFbWPcIDbEJCCcFLbYTpWbIcoNcAdkGbGb",
       "tqAIbICnQBIBXFdKCbYQBBcFBbMFbCMbTEbWMbLBcPOMBI",
       "CbTDbYBBDCCFBbSFFBjDIbdzVBdeDFcmGDBCFEbeIEcNBm",
       "JCcZDjZDcBObTCLDbTJJBcJDbKMSCcFDbWNOCdOJCBGBCB",
       "gBKXEcGHCCCCKBKCdGJBBCBBEBCdZNBDeCSjDHCHbDCdEP",
       "BBeCLdZOjXNjNGBCCCDBBBfMHCGEBbCKbQFBESLbUOhSIh",
       "RIBHdFWBOeSGDBBCBDBBDBcOFBCBEnKEJCBBbWHDDyyNRf",
       "jCBBcDHEdPCbdaYBnkJHBRCHBCBFdWBckHBCBHCFBwVBcz",
       "WbAGbAGbA"]⟩

/- What is not shown where it is not supported. -/
def defaultIgnorable : Property :=
  ⟨["defaultignorablecodepoint", "di"],
    [],
    String.join
      ["gRBzXBbbOBegWCckHCdHFdaPFbAFbXQgkYBczmPQjFBgEB",
       "dBJctlNEhwXIbtkzLgbO"]⟩

/- What adds to the character before it. -/
def graphemeExtend : Property :=
  ⟨["graphemeextend", "grext"],
    [.nonspacingMark, .enclosingMark],
    String.join
      ["drYBYBnUBYBdYBYBiYBBBECBCJCdZBYBePBPBdmRBbEBbn",
       "KBFBBBFCdXBcTCboIBgcVCbtwTBeEBbgnLCgwMBeMBkEBO",
       "BJBdSBJBCBBDFBiQBMBjHBkCByJBMBchFBbeoKCbkxNCGG",
       "btlaZdS"]⟩

/- What says whether characters join. -/
def joinControl : Property :=
  ⟨["joincontrol", "joinc"],
    [],
    "mdOC"⟩

/- Blanks, tabs and ends of lines. -/
def whiteSpace : Property :=
  ⟨["whitespace", "space"],
    Category.separators,
    "JFePB"⟩

end Property

end Abnf

------------------------------------------------------------
-- All Properties
------------------------------------------------------------

namespace Abnf

namespace Property

/- The properties that can be named. -/
def all : List Property :=
  [⟨["asciihexdigit", "ahex"],
    [],
    "bWKHGbAG"⟩,
   alphabetic,
   ⟨["bidicontrol", "bidic"],
    [],
    "ciEBjvLCbAFcDE"⟩,
   ⟨["caseignorable", "ci"],
    [.nonspacingMark, .enclosingMark, .format,
      .modifierLetter, .modifierSymbol],
    "bNBGBLBeUBbbRBsDBfSBjxJCKBCBdgbBBcKBCBgVBGBLB"⟩,
   ⟨["cased"],
    Category.casedLetters,
    String.join
      ["gOBPBtHJHCbEFdSBcABfcZBepZcLNBbIbLbaNBNBQNhNbG",
       "bfQcAcwOCbugKCiCBeYEDCbhIEJBbiwSBCDBbQBJddzHcK",
       "gjAbAGbAGbA"]⟩,
   ⟨["changeswhencasefolded", "cwcf"],
    [.uppercaseLetter, .titlecaseLetter],
    String.join
      ["gZBbPBeBBcBBrLBeUBNHZCDBpLBfiUdICGdfUJuJCiUIII",
       "IIKDCBKDCBbQDCBkGBEBDDCDCBDFGBDBDCCCBBKCFBbAQb",
       "gGbAbyzOdCbeaIHMFdedSbAbAbAbAbAbABBCCBCCCEBIbA",
       "bAbACBECIBHbBCBEBFBBDHbBbAbAbAbAbAbAbAbAbAbAbA",
       "bEZbHZbHZbHZbHZbHB"]⟩,
   ⟨["changeswhencasemapped", "cwcm"],
    [],
    String.join
      ["cNbAGbAcGBKXBbFBcMBdGBbCCOCCBBEdPBSGbBBCBBBCDC",
       "BEBFCBBCCBHBCBBCDGFBKCgKBbQECCDDBBGBBDBBBUBbVD",
       "bHBFBfDIgKBbMKbNefGbMBBFBCbRCDzWdICGdfULFbRCDh",
       "DBDBQBeJgACBBeOCGCbMCGCIBBBBBBBbFCcBBHBBDDBHDE",
       "CGENFDBHlLBDCGBbBBRbGDCbfLcAcrUeJBCBCHdYHEDCMb",
       "MBBFBbtwCbUSbCfEOCcKJPDDCFBZBbTYCbhCBbCdCbeaIH",
       "MFbnTbAGbAbtTdCdSbKEbKeMLBPBHBCBLBPBHBCcoPbZNb",
       "ZdPWKWefIcMbgiQcMbGZCZbugYcQ"]⟩,
   ⟨["changeswhenlowercased", "cwl"],
    [.uppercaseLetter, .titlecaseLetter],
    String.join
      ["blQDlbHBEBDDCDCBDFGBDBDCCCBBKCFBbAQbgGbAghhObA",
       "bAbAbAbAbABBCCBCCCEBIbAbAbACBECIBHbBCBEBFBBDHb",
       "BbAbAbAbAbAbAbAbAbAbAbAbEZbHZbHZbHZbHZbHB"]⟩,
   ⟨["changeswhentitlecased", "cwt"],
    [.lowercaseLetter],
    String.join
      ["mABdGBbCCOBDBFBCBCBbMBbVBSGbBBCBBBCDCBEBFCBBCC",
       "BHBCBBCDGFBBCHCRfTBhABnRBbNBehBbRCDeoEbScLNCDB",
       "QBMjXCBBxUBDCDBbBBEBEBCCIEbMQbgQbAcwDBCBCFeABb",
       "uiDCcLIVBGBZBcWBbfPbJBHFJeijHbAbAHBSbAbAbAEBBB",
       "HBLbAbAbAbAbAbAbAbAbAbAbAbAbAbAbAbAbAbCbCZBGbA",
       "ZBGbAZBGbAZBGbAZBGBBcsYKBUGG"]⟩,
   ⟨["changeswhenuppercased", "cwu"],
    [.lowercaseLetter, .titlecaseLetter],
    String.join
      ["mABdGBbCCOBDBdUBSGbBBCBBBCDCBEBFCBBCCBHBCBBCDG",
       "FBBCHCRfTBhABnRBbNBixBbScLNCDBQBMjXCBBxUBDCDBb",
       "BBEBEBCCIEbMQbgQbAcwDBCBCFeABbuiDCcLIVBGBZBcWB",
       "bfPbJBHFJeijHbAbAHBSbAbAbAEBBBHBLbAbAbAbAbAbAb",
       "AbAbAbAbAbAbAbAbAbAbAbCbCZBGbAZBGbAZBGbAZBGbAZ",
       "BGBBcsYKBUGG"]⟩,
   ⟨["dash"],
    [.dashPunctuation],
    "mgHBbNBPBpAB"⟩,
   defaultIgnorable,
   ⟨["deprecated", "dep"],
    [],
    "mRBbyVBdkTBBBdcJCdiJGbaVCbzryKB"⟩,
   ⟨["diacritic", "dia"],
    [.modifierSymbol],
    String.join
      ["hBBtKSEMOFHBBBRdBBIFGRBFBkEFiBBcDbTBBBCBCBBfBI",
       "ECfECECDDcPbBdNLcGLbICeGBPIbPKQbCcJBQBDEbCBcWB",
       "QBeGBQBeGBQBbVDcIBQBHBePBeGBQBeGBQBeFCQBeUBeHB",
       "MGBBeDBNFcXCbBBBBBBECcODBCcKBeIBBCbOCEFZHBBKCb",
       "bDDbkMCbEBfSLJBnJDlGBUICBbWPCLDPCMcUBPBbMJcCCc",
       "GBLCcOCcMGdEZEBGBCDbYcLbWbKFMbLLfrBDmFBtMGeBCd",
       "TBbsmKBMCBBbCCdECbLJeABeABGCMBbLBfVBbBScFEbKBd",
       "RBMBbKBfTDcNEbZBdXEJBfACbdzSBfRRxHQmIBbTCbgABb",
       "tNGBbQBJyNDEBgJCvZGbMBbAFpGBCDcSLbXEhKBbPBcUCe",
       "QCcKBcYBJDeACgWCdCCQBYHDFdLDBCNCdRBDBeTCjRCeWB",
       "eOCeLBkJCjYCEBgABdFBSBdDBqFBjYBBCdDBcNBnVCXBhy",
       "APqzPBdsAFcHHvSCvARdCCygCEBHBCltHbUCXuYDDGIICH",
       "bEEfmWcKhMHoLBcJEbdMCbcIHeFDBDebGF"]⟩,
   ⟨["emoji"],
    [],
    String.join
      ["bJBGBFKeHBEBlyRBMBiIBWBdMGPCoDCMBgKBZLEDhRBiXC",
       "KBJBcGEBFJBCBCCCBEBCBBCCBDBDCIDFBBBFMLCCBBCBBS",
       "BCCSGBBBCDCFBCCECLCFCCBFCBBBCUCFGBECBEBCBCGBBC",
       "BBBBBGBDBGBKCPBCBEBBBEDBBLCbWDJBOBOBoICrVDTCbZ",
       "BEBbvUBMBxDBBBgmrQBhUBgECMCOBCKcXbABCXBUBCJVCg",
       "SbICeICCBDCdFCDBkDBcLLGBYHCCIMBCECBECNCCBICJBF",
       "DMDIDCBBBEBGBDBGdIbWcSFICEDKDBBCDBCKiTMEBkXbVB",
       "KBhDeINDLDcFBBEQCMEK"]⟩,
   ⟨["emojicomponent", "ecomp"],
    [],
    "bJBGBFKmbJBiFBdftRBdoiWbAtNFceAEbsvuQdS"⟩,
   ⟨["emojimodifier", "emod"],
    [],
    "hhiXF"⟩,
   ⟨["emojimodifierbase", "ebase"],
    [],
    String.join
      ["olHBiLBQEgsjVBcIDCBCDeNCCLVTDBEDBDHBBBYBhTCEBV",
       "BECgSDDFdFBQDJBLBwDBCBIIGBJKCDcEBcJCBCBBRDBNiV",
       "DbQJ"]⟩,
   ⟨["emojipresentation", "epres"],
    [],
    String.join
      ["nhQChXEDBCBuBCVCbYMbRBTBNBICRCFCIBFBVBHCBBEBCB",
       "HBECbCBbJBBBEDBBcJDYBOBbhBCbZBEBgplEBhUBhIBCKc",
       "XbABBYBUBCFBDVCgSbHMJBcSBWMbREFMRDBDcTBBBhFCcL",
       "NEBYSBbACNBdIdHbWcSGBDDCEDELCHJiTMEBkXbVBKBhDe",
       "INDLDcFBBEQCMEK"]⟩,
   ⟨["extendedpictographic", "extpict"],
    [],
    String.join
      ["gNBEBlyRBMBiIBWBdMGPCoDCMBgKBZLEDhRBiXCKBJBcGE",
       "BFJBCBCCCBEBCBBCCBDBDCIDFBBBFMLCCBBCBBSBCCSGBB",
       "BCDCFBCCECLCFCCBFCBBBCUCFGBECBEBCBCGBBCBBBBBGB",
       "DBGBKCPBCBEBBBEDBBLCbWDJBOBOBoICrVDTCbZBEBbvUB",
       "MBxDBBBgmrQBbNEdWMPCPBOCbLKeICMCOBCKTcEbBPKBUB",
       "CJBEJXGhGCeICCBDCdFCDBEFjUBcLLGBYHCCIMBCECBECN",
       "CCBICJBFDMDIDCBBBEBGBDBGdIbWcSFICRDBBGCNiKbMME",
       "cEIKGbOIbECMECOJbNMbVBKBhDdKIOfQjWbnI"]⟩,
   ⟨["extender", "ext"],
    [],
    String.join
      ["hBBuQCbhUBqZByGBfHBdLBbcYBeXBdnFBcEBxNBpIBcQBh",
       "kJBbRFdZCdPDbqbUBcgSBblABWBfHBeEBVCbfzVBdbKCcf",
       "BBbBBEBbvBBlHBeMCtEDbvJBbgABbdiECbtKCBBOCbqxKC",
       "buFBbgUD"]⟩,
   ⟨["graphemebase", "grbase"],
    Category.letters ++ [.spacingMark] ++
      Category.numerals ++ Category.punctuation ++
      Category.symbols ++ [.spaceSeparator],
    String.join
      ["drYBYBnUBYBdYBYBiYBBBECBCJCdZBYBePBPBdmRBbEBbn",
       "KBFBBBFCdXBcTChrECbtwTBeEBbgnLCgwMBeMBkEBOBJBd",
       "SBJBCBBDFBiQBMBjHBkCByJBMBchFBbeoKCbkxNCGG"]⟩,
   graphemeExtend,
   ⟨["hexdigit", "hex"],
    [],
    "bWKHGbAGdslLKHGbAG"⟩,
   ⟨["idsbinaryoperator", "idsb"],
    [],
    "seACCKtDB"⟩,
   ⟨["idstrinaryoperator", "idst"],
    [],
    "seCC"⟩,
   ⟨["idcontinue", "idc"],
    Category.letters ++
      [.letterNumber, .nonspacingMark, .spacingMark,
       .decimalNumber, .connectorPunctuation],
    "hBBbbRBgaJJclCBciZCkGBVBeyABxVCdQBdaeJB"⟩,
   ⟨["idstart", "ids"],
    Category.letters ++ [.letterNumber],
    "jhLCdgJBVBeyABxVC"⟩,
   ⟨["ideographic", "ideo"],
    [],
    String.join
      ["seWCZJODblDjtOcMbfbKbhsIoCCeCbsiKBNFJkxYbPbGdT",
       "eLnlLpGbdeIclfCbGgmOCioCClbLPxYdqWuWcfYhhZFmoO"]⟩,
   joinControl,
   ⟨["logicalorderexception", "loe"],
    [],
    "fkIFeTFedSDCBccxMCCBBC"⟩,
   ⟨["lowercase", "lower"],
    [.lowercaseLetter],
    String.join
      ["gOBPBtHJHCbEFdSBcABfcZBepZcLNBbIbLbaNBNBQNiDQb",
       "gQbAcwOCbugKCiCBeYEDCbhIEJBbiwSBCDBbQBJddzHcK"]⟩,
   ⟨["math"],
    [.mathSymbol],
    String.join
      ["dQBbhXDCBbACCCkqYBbBDLBbGEYCOCcNNEBDCEFSBEBCKB",
       "BDFGBDCCCBDBGDEFFcXFCEBCBCBBBFCCECESCCBBBHBBGC",
       "lEEgMCBBYBRBrDCMJFFFCCCDFOBBBCGYCcFBBBbDEJCnEC",
       "bFKpNWcLEbGCdclFBBBEBiDBBBdcoVdHBcTBCCBCCCEBMB",
       "BBHBcNBECIBHBbCBEBFBBDHBnCCZBZBbFBZBbFBZBbFBZB",
       "bFBZBICbYiiQEBbBBCBBCBBKBEBBBBGBEBBBBBBDBCBBCB",
       "BBBBBBBBBCBBCEBHBEBEBBBKBRFDBFBR"]⟩,
   ⟨["noncharactercodepoint", "nchar"],
    [],
    String.join
      ["dsdCbGuGCdsyOCdsyOCdsyOCdsyOCdsyOCdsyOCdsyOCds",
       "yOCdsyOCdsyOCdsyOCdsyOCdsyOCdsyOCdsyOCdsyOC"]⟩,
   ⟨["patternsyntax", "patsyn"],
    [],
    String.join
      ["bHPKHbAEBBbAEbIHBBBCBBBCEBEBDBXBbFBluEYIPCTBKl",
       "TbbSgEyGbEbrOtSeYoVDEZPBczqZCkBC"]⟩,
   ⟨["patternwhitespace", "patws"],
    [],
    "JFSBdWBlyMCYC"⟩,
   ⟨["quotationmark", "qmark"],
    [],
    "bIBEBfBBPBlwUIZCfiDBrPENDdabPEhHBEBdMC"⟩,
   ⟨["radical"],
    [],
    "rpWbABdLMiG"⟩,
   ⟨["regionalindicator", "ri"],
    [],
    "hgoKbA"⟩,
   ⟨["sentenceterminal", "sterm"],
    [],
    String.join
      ["bHBMBQBcaBBfRDgYBbRDjMBcJBBBDClHCcpWCbeKBECbdT",
       "BhQCgBCbTBFBmCCnQEgGCKCCCbDDhFCcNCbjWBXCJDeuXD",
       "lUBNBWCqNBbshWBkKCiTBDBoSCdICdRBfWCfRDfOCjPBbf",
       "cWBCCcHBDCgNBMBQBcNBedWCbxDFbSEhHCeNEeXDeZCGBQ",
       "CdKCBCeEBlMCeNCoJCFPeBCjPDtXBBBjRCdJCqECbaQCcW",
       "CbcmBCfDBcNCLBvHClKBbdoGBliMB"]⟩,
   ⟨["softdotted", "sd"],
    [],
    String.join
      ["eBChOBkVBbEBcABUBmIBdUBBBjmNBbZBNBDBfCBgBBqFBi",
       "GCegGBgelHCbYCbYCbYCbYCbYCbYCbYCbYCbYCbYCbYCbY",
       "CdfYBlTCbAB"]⟩,
   ⟨["terminalpunctuation", "term"],
    [],
    String.join
      ["bHBKBBBLCDBbfYBIBtTBcFBcUBOBBDgYBbRLBBjBCcCGBI",
       "bFBkBCbwUCgQBEGlZCbeJIbdTBeUDcTCgBDDBbNECCmCCn",
       "QEgGCKCBDbDDhFFcKCbjWBXCJDeuXDlUBNBEBKBBCDCqMC",
       "bshVCkJDiTFoSCdICdRBfVDfRDeXBQCjPBbfcWBCCcFDBE",
       "gNBKBBBLCDBcNBCBbpQBbWBbsOBhRBlYCfWGcQGdLEbkQF",
       "bSEhHHeIEeXDeZCGBQCdKFeEBlMCeNDMCnUEDPeBCjPDtX",
       "BBBjRCdJCECpYDbTByVCcWCbyXFbamZCfDBcNDKBvHClJC",
       "bdoGBliLE"]⟩,
   ⟨["unifiedideograph", "uideo"],
    [],
    String.join
      ["tsAjtOcMbfbKbicSCBBBCKBBBBCCDdveCclfCbGgmOCioC",
       "ClbLPxYgrQhhZFmoO"]⟩,
   ⟨["uppercase", "upper"],
    [.uppercaseLetter],
    "mqQQbgGbAgsiYbAGbAGbA"⟩,
   ⟨["variationselector", "vs"],
    [],
    "jcTDBBdjcAQbwnkYjG"⟩,
   whiteSpace,
   ⟨["xidcontinue", "xidc"],
    Category.letters ++
      [.letterNumber, .nonspacingMark, .spacingMark,
       .decimalNumber, .connectorPunctuation],
    String.join
      ["hBBbbEBMBgaJJclCBciZCkGBVBeyABbbNBczaOGpQCeMBB",
       "BBBBBBBBBBBBBiWB"]⟩,
   ⟨["xidstart", "xids"],
    Category.letters ++ [.letterNumber],
    String.join
      ["biGBebOBeXBdsRCdgJBVBeyABdacCGpQCeMBBBBBBBBBBB",
       "BBBBlBC"]⟩]

/- The code points that have the property of a name. -/
def named?
    (name : String) : Option Runs :=
  (all.find? (·.names.contains name)).map members

end Property

end Abnf
