import Abnf.Text.Runs

/-
  General categories of code points.

  Every code point has one of thirty categories, as Unicode
  classes them.

  Key definitions include:
    * `Abnf.Category`
    * `Abnf.Category.table`
    * `Abnf.Category.ofCode`
    * `Abnf.Category.members`
    * `Abnf.Category.named?`
-/

------------------------------------------------------------
-- Categories
------------------------------------------------------------

namespace Abnf

/- What kind of character a code point stands for. -/
inductive Category where
  | uppercaseLetter
  | lowercaseLetter
  | titlecaseLetter
  | modifierLetter
  | otherLetter
  | nonspacingMark
  | spacingMark
  | enclosingMark
  | decimalNumber
  | letterNumber
  | otherNumber
  | connectorPunctuation
  | dashPunctuation
  | openPunctuation
  | closePunctuation
  | initialPunctuation
  | finalPunctuation
  | otherPunctuation
  | mathSymbol
  | currencySymbol
  | modifierSymbol
  | otherSymbol
  | spaceSeparator
  | lineSeparator
  | paragraphSeparator
  | control
  | format
  | surrogate
  | privateUse
  | unassigned
deriving DecidableEq, Inhabited

namespace Category

/- All categories, in the order of their numbers. -/
def all : List Category :=
  [.uppercaseLetter, .lowercaseLetter, .titlecaseLetter,
   .modifierLetter, .otherLetter, .nonspacingMark,
   .spacingMark, .enclosingMark, .decimalNumber,
   .letterNumber, .otherNumber, .connectorPunctuation,
   .dashPunctuation, .openPunctuation, .closePunctuation,
   .initialPunctuation, .finalPunctuation,
   .otherPunctuation, .mathSymbol, .currencySymbol,
   .modifierSymbol, .otherSymbol, .spaceSeparator,
   .lineSeparator, .paragraphSeparator, .control, .format,
   .surrogate, .privateUse, .unassigned]

/- The category of a number. -/
def ofNumber
    (number : Nat) : Category :=
  all.getD number .unassigned

end Category

end Abnf

------------------------------------------------------------
-- The Table
------------------------------------------------------------

namespace Abnf

namespace Category

/-
  The categories of all code points: how many have the same
  one, and the number of that one, in turns.
-/
def table : String :=
  String.join
    ["bGZBWDRBTDRBNBOBRBSBRBMCRKICRDSCRbAABNBRBOBUBLBUbA",
     "BBNBSBOBSbHZBWBRETBVBRBUBVBEBPBSBbABVBUBVBSCKBUBBC",
     "RBUBKBEBQDKBRXABSHAYBBSIBBABBBABBBABBBABBBABBBABBB",
     "ABBBABBBABBBABBBABBBABBBABBBABBBABBBABBBABBBABBBAB",
     "BBABBBABBBABBBABBBABBBABBBABBBABBBACBBABBBABBBABBB",
     "ABBBABBBABBBABBBACBBABBBABBBABBBABBBABBBABBBABBBAB",
     "BBABBBABBBABBBABBBABBBABBBABBBABBBABBBABBBABBBABBB",
     "ABBBABBBABBCABBBABBBADBCABBBABBCABBDACBEABBCABBDAD",
     "BCABBCABBBABBBABBCABBBACBBABBCABBDABBBABBCACBBEBAD",
     "BEEBABCBBBABCBBBABCBBBABBBABBBABBBABBBABBBABBBABBB",
     "ACBBABBBABBBABBBABBBABBBABBBABBBABBBACBBABCBBBABBD",
     "ABBBABBBABBBABBBABBBABBBABBBABBBABBBABBBABBBABBBAB",
     "BBABBBABBBABBBABBBABBBABBBABBBABBBABBBABBBABBBABBB",
     "ABBBABBBABBBABBBAHBCABBCACBBABBEABBBABBBABBBABBBAc",
     "RBCEbABSDEUMDOUFDHUBDBUBDRUeIFBABBBABBBDBUBABBCbDB",
     "DDBBRBAEbDCUBABRDABbDBABbDCABBRABbDJAbJBBACBDADBBA",
     "BBBABBBABBBABBBABBBABBBABBBABBBABBBABBBABBBAFBBABB",
     "BSBABBCACBbZAbWBBABBBABBBABBBABBBABBBABBBABBBABBBA",
     "BBBABBBABBBABBBABBBABBBABBBABBBABBBVFFCHBABBBABBBA",
     "BBBABBBABBBABBBABBBABBBABBBABBBABBBABBBABBBABBBABB",
     "BABBBABBBABBBABBBABBBABBBABBBABBBABBBABBBABBBABBCA",
     "BBBABBBABBBABBBABBBABBBACBBABBBABBBABBBABBBABBBABB",
     "BABBBABBBABBBABBBABBBABBBABBBABBBABBBABBBABBBABBBA",
     "BBBABBBABBBABBBABBBABBBABBBABBBABBBABBBABBBABBBABB",
     "BABBBABBBABBBABBBABBBABBBABBBABBBABBBABBBABBBABBBA",
     "BBBABBBABBBABBBABBBbDbMACbDBDGRbPBBRBMCbDCVBTBbDbT",
     "FBMBFBRCFBRCFBRBFIbDbBEEbDEECRLbDGbADSCRBTCRCVLFBR",
     "BbADRbGEBDKEVFKIERCEBFdVEBRBEHFBbABVGFCDCFBVEFCEKI",
     "DECVBEORBbDBbABEBFbEEbBFCbDdLELFBEObDKIbHEJFCDBVDR",
     "BDCbDBFCTWEEFBDJFBDDFBDFFCbDPRBbDZEDFCbDBRBbDLEFbD",
     "YEBUHECbAFbDJFbPEBDYFBbAbGFBGcCEBFBGBFBEDGIFEGBFCG",
     "BEHFKECFCRKIBRBDPEBFCGBbDIECbDCECbDWEBbDHEBbDBEDbD",
     "EECbDBFBEDGEFCbDCGCbDCGBFBEIbDBGEbDCEBbDDECFCbDKIC",
     "ECTGKBVBTBEBRBFCbDCFBGBbDGEEbDCECbDWEBbDHEBbDCEBbD",
     "CEBbDCECbDBFBbDDGCFEbDCFCbDDFDbDBFHbDEEBbDBEHbDKIC",
     "FDEBFBRKbDCFBGBbDJEBbDDEBbDWEBbDHEBbDCEBbDFECbDBFB",
     "EDGFFBbDCFBGBbDCGBFCbDBEPbDCECFCbDKIBRBTHbDBEGFBbD",
     "BFCGBbDIECbDCECbDWEBbDHEBbDCEBbDFECbDBFBEBGBFBGEFC",
     "bDCGCbDCGBFHbDCFBGEbDCEBbDDECFCbDKIBVBEGKKbDBFBEBb",
     "DGEDbDDEBbDEEDbDCEBbDBEBbDCEDbDCEDbDDEDbDMEEbDCGBF",
     "CGDbDDGBbDDGBFCbDBEGbDBGObDKIDKGVBTBVFbDBFDGBFIEBb",
     "DDEBbDXEBbDQECbDBFBEDFEGBbDDFBbDEFHbDCFBbDDEBbDCEC",
     "bDCECFCbDKIHbDBRHKBVBEBFCGBRIEBbDDEBbDXEBbDKEBbDFE",
     "CbDBFBEBGBFFGBbDBFCGBbDCGCFHbDCGFbDDEBbDCECFCbDKIB",
     "bDCEBGMbDCFCGJEBbDDEBbDbPECFBEDGEFBbDDGBbDDGBFBEBV",
     "EbDDEBGHKDECFCbDKIJKBVGEBbDBFCGBbDSEDbDYEBbDJEBbDB",
     "ECbDHEDbDBFEbDDGDFBbDBFBbDIGGbDKICbDCGBRMbDbWEBFCE",
     "HFEbDBTGEBDIFBRKICRbLbDCEBbDBEBbDFEBbDYEBbDBEBbDKE",
     "BFCEJFBECbDFEBbDBDBbDHFBbDKICbDEEbGbDBEDVPRBVBRDVC",
     "FGVKIKKBVBFBVBFBVBFBNBOBNBOCGIEBbDbKEEbDOFBGFFBRCF",
     "FELFBbDbKFBbDIVBFGVBbDCVFREVCRbLbDbRECGEFBGGFBGCFC",
     "GCFBEKIGRGECGCFEEDFBEDGCEHGDEEFNEBFCGCFGGBFBEBGKID",
     "GBFCVbMABbDBAFbDBACbDbRBBRBDDBmREBbDEECbDHEBbDBEBb",
     "DEECbDbPEBbDEECbDbHEBbDEECbDHEBbDBEBbDEECbDPEBbDcF",
     "EBbDEECbDcPECbDDFJRUKDbDQEKVGbDdIACbDGBCbDBMxWEBVB",
     "RREBWbAEBNBODbDcXEDRDJIEHbDSEDFBGJbDTECFBGCRJbDSEC",
     "FMbDNEBbDDEBbDCFMbDcAECFBGHFIGBFCGLFDRBDDRBTBEBFCb",
     "DKIGbDKKGbDGRBMERDFBbABFKIGbDbJEBDcBEHbDFECFbIEBFB",
     "EFbDcSEKbDbFEBbDDFEGCFDGEbDCGBFGGDFEbDBVDbDCRKIbEE",
     "CbDFELbDbSEEbDbAEGbDKIBKDbDbIVXECFCGBFCbDCRcBEBGBF",
     "BGHFBbDBFBGBFCGIFGGKFCbDBFKIGbDKIGbDHRBDGRCbDOFBHb",
     "FFCbDMFUbDEFBGbVEBFBGFFBGBFFGBFCGIEBbDCRKIHRKVJFJV",
     "DRCFBGbEEBGEFCGCFBGDFCEKIbSEBFBGCFDGBFBGDFCGIbDERb",
     "KEIGIFCGCFDbDFRKIDbDDEKIbEEGDCRJBBABBFbDbRACbDDAIR",
     "IbDDFBRNFBGHFEEBFGEBFCEBGCFBEFbDbSBcLDNBBDbIBbLDcM",
     "FBABBBABBBABBBABBBABBBABBBABBBABBBABBBABBBABBBABBB",
     "ABBBABBBABBBABBBABBBABBBABBBABBBABBBABBBABBBABBBAB",
     "BBABBBABBBABBBABBBABBBABBBABBBABBBABBBABBBABBBABBB",
     "ABBBABBBABBBABBBABBBABBBABBBABBBABBBABBBABBBABBBAB",
     "BBABBBABBBABBBABBBABBBABBBABBBABBBABBBABBBABBBABBB",
     "ABBBABBBABBBABBBABBBABBBABBBABBBABBBABBBABBBABBBAJ",
     "BBABBBABBBABBBABBBABBBABBBABBBABBBABBBABBBABBBABBB",
     "ABBBABBBABBBABBBABBBABBBABBBABBBABBBABBBABBBABBBAB",
     "BBABBBABBBABBBABBBABBBABBBABBBABBBABBBABBBABBBABBB",
     "ABBBABBBABBBABBBABBBABBBABBBABBBABBBABBBABBBAJBIAG",
     "BCbDGACbDIBIAIBIAGBCbDGACbDIBBbDBABbDBABbDBABbDBAI",
     "BIAOBCbDIBICIBICIBICFBBbDCBEABCBUBBDUDBBbDCBEABCDU",
     "EBCbDCBEABbDDUIBFADUCbDDBBbDCBEABCCUBbDLWFbAGMCRBP",
     "BQBNCPBQBNBPIRBXBYFbABWJRBPBQERCLDRBSBNBOLRBSBRBLK",
     "RBWFbABbDKbABKBDCbDGKDSBNBOBDKKDSBNBOBbDNDDbDbITOb",
     "DNFEHBFDHMFPbDCVBAEVBACVBBDACBDABBBVBACVBSFAGVBABV",
     "BABVBABVEABVBBEABBEEBBCVCBCAFSBAEBBVBSCVBBBVQKbJJB",
     "ABBEJBKCVEbDFSFVCSEVBSCVBSCVBSHVBSbFVCSCVBSBVBSbFV",
     "kISIVBNBOBNBOUVCSHVBNBOdDVBSbEVZSbOVGScUVWbDLVVbDc",
     "IKdAVWKhBVBSJVBScCVISeHVBSjOVBNBOBNBOBNBOBNBOBNBOB",
     "NBOBNBObEKbSVFSBNBObFSBNBOBNBOBNBOBNBOBNBOQSjWVfBS",
     "BNBOBNBOBNBOBNBOBNBOBNBOBNBOBNBOBNBOBNBOBNBOcLSBNB",
     "OBNBObGSBNBOjYSbWVVSCVGSbNVCbDfIVbWAbWBBABBDACBBAB",
     "BBABBBABBEABBBACBBAGBCDDABBBABBBABBBABBBABBBABBBAB",
     "BBABBBABBBABBBABBBABBBABBBABBBABBBABBBABBBABBBABBB",
     "ABBBABBBABBBABBBABBBABBBABBBABBBABBBABBBABBBABBBAB",
     "BBABBBABBBABBBABBBABBBABBBABBBABBBABBBABBBABBBABBB",
     "ABBBABBBABBBABBBABBBACBGVBABBBABBDFBABBFbDERBKCRbM",
     "BBbDBBFbDBBCbDcEEHbDBDBRObDBFXEJbDHEBbDHEBbDHEBbDH",
     "EBbDHEBbDHEBbDHEBbDHEBbDbGFCRBPBQBPBQDRBPBQBRBPBQJ",
     "RBMCRBMBRBPBQCRBPBQBNBOBNBOBNBOBNBOFRBDKRCMERBMBRB",
     "NNRCVDRBNBOBNBOBNBOBNBOBMbIbDbAVBbDdLVMbDiGVbAbDQV",
     "BWDRBVBDBEBJBNBOBNBOBNBOBNBOBNBOCVBNBOBNBOBNBOBNBO",
     "BMBNCOBVJJEFCGBMFDCVDJBDBEBRCVBbDdIECbDCFCUCDBEBMd",
     "MEBRDDBEFbDbREBbDdQEBbDCVEKKVbGEbMVJbDBVQEbFVBbDKK",
     "bEVIKBVPKbGVKKbNVPKmIVjtOEcMVbfcFEBDbrZEDbDcDVJbDb",
     "OEGDCRkIEBDDRQEKICEUbDBABBBABBBABBBABBBABBBABBBABB",
     "BABBBABBBABBBABBBABBBABBBABBBABBBABBBABBBABBBABBBA",
     "BBBABBBABBBABBBEBFDHBRKFBRBDBABBBABBBABBBABBBABBBA",
     "BBBABBBABBBABBBABBBABBBABBBABBBABBCDCFcSEKJCFGRIbD",
     "XUJDCUBABBBABBBABBBABBBABBBABBBADBBABBBABBBABBBABB",
     "BABBBABBBABBBABBBABBBABBBABBBABBBABBBABBBABBBABBBA",
     "BBBABBBABBBABBBABBBABBBABBBABBBABBBABBBABBBABBBABB",
     "BABBBABBBDIBBABBBABBCABBBABBBABBBABBBABBBDCUBABBBA",
     "BBBEBABBBADBBABBBABBBABBBABBBABBBABBBABBBABBBABBBA",
     "BBFABBFABBBABBBABBBABBBABBBABBBABBBABBEABBBABBCABB",
     "BABBBABBBABBBABBBABBBABBBABBBAUbDEDBABBBECDBBHEBFD",
     "EBFEEBFXECGCFBGEVBFDbDGKCVBTBVGbDcAEERIbDCGbYEQGCF",
     "IbDCRKIGbDSFGEDRBEBRCEBFKIbCEIFCRXELFCGLbDBRbDEDbD",
     "DFBGbVEBFCGEFCGCFDGNRBbDBDKIEbDCRFEBFBDJEKIFEBbDbP",
     "EGFCGCFCGCFJbDDEBFIEBFBGCbDKICbDERQEBDGEDVBEBGBFBG",
     "bYEBFBEDFCECFFECFBEBFBEYbDCEBDCRLEBGCFCGCRBECDBGBF",
     "KbDGECbDGECbDGEJbDHEBbDHEBbDbRBBUEDJBBDCUEbDdCBbJE",
     "CGBFCGBFCGBRBGBFCbDKIGbDqnSEMbDXEEbDbXEEbDdaUbBjmE",
     "bCoCECbDeCEbMbDHBMbDFBFbDBEBFKEBSNEBbDFEBbDBEBbDCE",
     "BbDCEBbDeEERUQVnZEBOBNQVcMECVcCEIVbGbDMEBTDVQFHRBN",
     "BOBRGbDQFBRCMCLBNBOBNBOBNBOBNBOBNBOBNBOBNBOBNBOCRB",
     "NBOERDLDRBbDERBMBNBOBNBOBNBODRBSBMDSBbDBRBTCREbDFE",
     "BbDfFECbDBbABbDDRBTDRBNBOBRBSBRBMCRKICRDSCRbAABNBR",
     "BOBUBLBUbABBNBSBOBSBNBOBRBNBOCRKEBDbTECDbFEDbDGECb",
     "DGECbDGECbDDEDbDCTBSBUBVCTBbDBVESCVKbDDbACVCbDMEBb",
     "DbAEBbDTEBbDCEBbDPECbDOEbIbDeTEFbDDREbDbTKDbDJVcBJ",
     "EKRVCKDVBbDNVDbDBVbVbDbTVBFfAbDbDEDbDbXEPbDBFbBKEb",
     "DbGEEKJbDUEBJIEBJFbDbMEFFFbDbEEBbDBRbKEEbDIEBRFJbQ",
     "bDbOAbOBdAECbDKIGbDbKAEbDbKBEbDbOEIbDcAELbDBRLABbD",
     "PABbDHABbDCABbDLBBbDPBBbDHBBbDCBDbDcAEMbDlZEJbDWEK",
     "bDIEYbDGDBbDbQDBbDJDcRbDGECbDBEBbDbSEBbDCEDbDBECbD",
     "XEBbDBRIKXECVHKbFEIbDJKbWbDTEBbDCEFbDFKWEGKDbDBRbA",
     "EFbDBRbAEbMbDcEEEbDCKCEQKCbDbUKBEDFBbDCFFbDEFEEBbD",
     "DEBbDbDECbDDFEbDBFJKHbDJRHbDbDECKBRbDEDKbGbDIEBVbC",
     "ECFEbDFKHRJbDcCEDbDHRWECbDIKTEFbDIKSEHbDERMbDHKdCb",
     "DcVEcDbDbZANbDbZBHbDGKbKEEFIbDKIGbDKIEEBDBEWADbDFF",
     "BMBDWBIbDCSiAbDbFKBbDbQEBbDCFBMCbDCEQbDDEBDCEIbDBR",
     "IVbHbDGFbDEKKBEIbDWELFEKFRWbDSEEFERbMbDVEHKUbDXEJb",
     "DBGBFBGcBEPFHREbDUKKIBFCECFBEJbDDFBGbTEDGEFCGCFCRB",
     "bAERBFKbDBbACbDZEHbDKIGbDDFbKEFFBGIFBbDKIERBECGBEI",
     "bDbJEBFCRBEJbDCFBGbWEDGJFCGEEEREFBRBGBFKIBEBRBEDRB",
     "bDUKLbDSEBbDZEDGDFCGBFBGCFGRBFCEBFcKbDHEBbDBEBbDEE",
     "BbDPEBbDKEBRGbDbVEBFDGIFFbDKIGbDCFCGBbDIECbDCECbDW",
     "EBbDHEBbDCEBbDFEBbDCFBECGBFEGCbDCGCbDDGCbDBEGbDBGF",
     "bDFECGCbDHFDbDFFLbDKEBbDBECbDBEBbDbMEBbDBEDGGFBbDB",
     "GCbDBGBbDEGBbDCGBFBGBFBEBFBECRBbDCRIbDCFbDbDcBEDGI",
     "FCGDFBGBFEEFRKICRBbDBRBFDEbEbDbWEDGGFBGBFEGCFBGCFC",
     "EBRBEIbDKIgKbDbVEDGEFCbDEGCFBGCFXREECFbIbDbWEDGIFC",
     "GBFBGCFDRBELbDKIGbDNRTbDbREBFBGBFCGGFBGBFBEBRGbDKI",
     "GbDUIbCbDbBECbDBFBGBFCGEFBGFFEbDKICKDRBVHEhDbDbSED",
     "GJFBGCFBRdWbDbGAbGBKIJKMbDIECbDBECbDIEBbDCEBbDYEGG",
     "BbDCGCbDCFBGBFBEBGBEBGBFDRJbDKIcSbDIECbDbNEDGEFCbD",
     "CFEGBFBEBRBEBGbBbDBEKFbOEGFBGBEEFIRBFIbDBEGFCGDFbU",
     "ENFBGCFDRBEFRNbDcVEHbDKRdIbDBFBGDFBGBFBGdKbDbHEBRO",
     "bDKIGbDJEBbDbLEBGHFBbDGFBGBFBEFRKbDKITKDbDCRbEECbD",
     "WFBbDBGHFBGCFBGCFcVbDHEBbDCEBbDbMEGFDbDBFBbDCFBbDH",
     "FBEBFIbDKIGbDGEBbDCEBbDbGEFGBbDCFBbDCGBFBGBFBEHbDK",
     "IGbDbPEBDCEEbDKIjMbDTECFCGCRHbDCFBEBGNEBbDbIECGFFD",
     "bDCGBFBGBFNRKIBFdHbDBEPbDVKIVETRVNbDBRbjMEdYbDeHJB",
     "bDFRLbDhOEdxKbDdTECRNbDbpGEQbABFGEPFKbDfxREFbDwLEk",
     "dDbDbEEMFDGDFKIcoSbDvXEHbDbFEBbDKIEbDCRdBEBbDKIGbD",
     "bEECbDFFBRKbDbWEHFFREVEDBRBVKbDKIBbDHKBbDVEFbDTEqQ",
     "bDDDbOECDDRKIhQbDbGAbGBXKERFbDZACbDZBbSbDcXEEbDBFB",
     "EcDGHbDEFNDcMbDCDBRBDBFLbDCGCDDJJbDkxYEbPbDbGEdTbD",
     "eLEmwRbDEDBbDHDBbDCDBbDlFEPbDBEbDbDDECbDBEObDEEIbD",
     "pGEdkUbDeDEFbDNEDbDJEHbDKECbDBVCFBREbAfvGbDjGVKIDV",
     "DbDqUVGbDXVPbDQVBSPbDbUFCbDXFJbDeMVcIbDjMVKbDbNVCb",
     "DcIVCGDFDVGGIbAIFCVHFbEVEFcJVVbDcOVDFBVeSbDUKMbDUK",
     "MbDdJVJbDZKfFbDbAAbABbAAHBBbDSBbAAbABBABbDCACbDBAC",
     "bDCACbDEABbDIAEBBbDBBBbDHBBbDLBbAAbABCABbDEACbDIAB",
     "bDHABbDbABCABbDEABbDFABbDBADbDHABbDbABbAAbABbAAbAB",
     "bAAbABbAAbABbAAbABbAAbCBCbDZABSZBBSGBZABSZBBSGBZAB",
     "SZBBSGBZABSZBBSGBZABSZBBSGBBABBCbDbYItSVcDFEVbYFIV",
     "BFOVBFCVFRPbDFFBbDPFbqMbDKBBEUBGbDGBiFbDHFBbDRFCbD",
     "HFBbDCFBbDFFFbDcKDbHbDBFeIbDbTEDbDHFHDCbDKIEbDBEBV",
     "mIbDbEEBFRbDbSEEFKIFbDBTrWbDbBEBDEFKIiGbDbEECFBEKI",
     "EbDBRhKbDbFEBbDDEBFCEBFHECFFEBFIbDBEBDiQbDHEBbDEEB",
     "bDCEBbDPEBbDhPECbDJKHFbPbDbIAbIBHFBDEbDKIEbDCRbeFb",
     "DcHKBVDKBTEKcYbDbTKBVPKhMbDEEBbDbBEBbDCEBbDBECbDBE",
     "BbDKEBbDEEBbDBEBbDBEGbDBEEbDBEBbDBEBbDBEBbDDEBbDCE",
     "BbDBECbDBEBbDBEBbDBEBbDBEBbDBEBbDCEBbDBECbDEEBbDHE",
     "BbDEEBbDEEBbDBEBbDKEBbDREFbDDEBbDFEBbDREcAbDCSkKbD",
     "bSVEbDdWVMbDPVCbDPVBbDPVBbDbLVKbDNKgFVcEbDbDVNbDbS",
     "VEbDJVHbDCVObDGVfYbDjRVFUbcBVDbDRVDbDNVDbDiKVGbDMV",
     "EbDBVPbDMVEbDcEVIbDKVGbDbOVIbDbEVCbDMVEbDCVObDJSbN",
     "bDnGVIbDOVCbDNVDbDLVDbDcFVBbDBVEbDQVCbDMVEbDKVHbDf",
     "RVBbDdOVKIBVbnPbDclfCEbGbDgmOECbDioCECbDlbLEPbDxYE",
     "dqWbDuWEcfYbDhhZEFbDmoOEbogoDbDBbAbEbDdSbAeYbDjGFd",
     "sfObDdsyObCCbDdsyObCCbD"]

/- The runs with their categories, from a place on. -/
def runsFrom :
    Nat → List Nat → List ((Nat × Nat) × Category)
  | place, size :: number :: rest =>
      ((place, place + size - 1), ofNumber number) ::
        runsFrom (place + size) rest
  | _, _ => []

/- The runs of code points of one category. -/
def runs : List ((Nat × Nat) × Category) :=
  runsFrom 0 (Runs.numbers table)

/- The category of a code point. -/
def ofCode
    (code : Nat) : Category :=
  match runs.find? (fun run => code ≤ run.1.2) with
  | some run => run.2
  | none => .unassigned

/- The code points of some categories. -/
def members
    (categories : List Category) : Runs :=
  .ofSorted
    (runs.filterMap
      (fun run =>
        if categories.contains run.2 then
          some run.1
        else
          none))

end Category

end Abnf

------------------------------------------------------------
-- Groups And Names
------------------------------------------------------------

namespace Abnf

namespace Category

/- Letters that have a case. -/
def casedLetters : List Category :=
  [.uppercaseLetter, .lowercaseLetter, .titlecaseLetter]

def letters : List Category :=
  casedLetters ++ [.modifierLetter, .otherLetter]

def marks : List Category :=
  [.nonspacingMark, .spacingMark, .enclosingMark]

def numerals : List Category :=
  [.decimalNumber, .letterNumber, .otherNumber]

def punctuation : List Category :=
  [.connectorPunctuation, .dashPunctuation,
   .openPunctuation, .closePunctuation,
   .initialPunctuation, .finalPunctuation,
   .otherPunctuation]

def symbols : List Category :=
  [.mathSymbol, .currencySymbol, .modifierSymbol,
   .otherSymbol]

def separators : List Category :=
  [.spaceSeparator, .lineSeparator, .paragraphSeparator]

/- Neither letters, marks, numbers, signs nor blanks. -/
def others : List Category :=
  [.control, .format, .privateUse, .unassigned]

/- The names of categories and of groups of them. -/
def names : List (List String × List Category) :=
  [(["lu", "uppercaseletter"], [.uppercaseLetter]),
   (["ll", "lowercaseletter"], [.lowercaseLetter]),
   (["lt", "titlecaseletter"], [.titlecaseLetter]),
   (["lc", "casedletter"], casedLetters),
   (["lm", "modifierletter"], [.modifierLetter]),
   (["lo", "otherletter"], [.otherLetter]),
   (["l", "letter"], letters),
   (["mn", "nonspacingmark"], [.nonspacingMark]),
   (["mc", "spacingmark"], [.spacingMark]),
   (["me", "enclosingmark"], [.enclosingMark]),
   (["m", "mark", "combiningmark"], marks),
   (["nd", "decimalnumber", "digit"], [.decimalNumber]),
   (["nl", "letternumber"], [.letterNumber]),
   (["no", "othernumber"], [.otherNumber]),
   (["n", "number"], numerals),
   (["pc", "connectorpunctuation"],
    [.connectorPunctuation]),
   (["pd", "dashpunctuation"], [.dashPunctuation]),
   (["ps", "openpunctuation"], [.openPunctuation]),
   (["pe", "closepunctuation"], [.closePunctuation]),
   (["pi", "initialpunctuation"], [.initialPunctuation]),
   (["pf", "finalpunctuation"], [.finalPunctuation]),
   (["po", "otherpunctuation"], [.otherPunctuation]),
   (["p", "punctuation", "punct"], punctuation),
   (["sm", "mathsymbol"], [.mathSymbol]),
   (["sc", "currencysymbol"], [.currencySymbol]),
   (["sk", "modifiersymbol"], [.modifierSymbol]),
   (["so", "othersymbol"], [.otherSymbol]),
   (["s", "symbol"], symbols),
   (["zs", "spaceseparator"], [.spaceSeparator]),
   (["zl", "lineseparator"], [.lineSeparator]),
   (["zp", "paragraphseparator"], [.paragraphSeparator]),
   (["z", "separator"], separators),
   (["cc", "control", "cntrl"], [.control]),
   (["cf", "format"], [.format]),
   (["co", "privateuse"], [.privateUse]),
   (["cn", "unassigned"], [.unassigned]),
   (["c", "other"], others)]

/-
  The code points of a category of a name, written in small
  letters without blanks.
-/
def named?
    (name : String) : Option Runs :=
  if name = "any" then
    some .all
  else if name = "assigned" then
    some (members [.unassigned]).complement
  else if name = "ascii" then
    some (.range 0 127)
  else
    (names.find? (·.1.contains name)).map
      (fun group => members group.2)

end Category

end Abnf
