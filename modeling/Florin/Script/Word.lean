import Florin.Text.Identifier

/-! # Characters of words

A word of a script is made of the characters of an identifier and of some more: those that only a
change of their form keeps from one, and those of younger scripts.
-/
namespace Florin.Script
open Text

/-- Code points that start a word but no identifier, as closed ranges in ascending order. -/
def wordStartRanges : List (Nat × Nat) := [
  (0x37A, 0x37A), (0x557, 0x558), (0x88F, 0x88F), (0xC5C, 0xC5C), (0xCDC, 0xCDC), (0xE33, 0xE33),
  (0xEB3, 0xEB3), (0x309B, 0x309C), (0xA7CE, 0xA7CF), (0xA7D2, 0xA7D2), (0xA7D4, 0xA7D4),
  (0xA7F1, 0xA7F1), (0xFC5E, 0xFC63), (0xFDFA, 0xFDFB), (0xFE70, 0xFE70), (0xFE72, 0xFE72),
  (0xFE74, 0xFE74), (0xFE76, 0xFE76), (0xFE78, 0xFE78), (0xFE7A, 0xFE7A), (0xFE7C, 0xFE7C),
  (0xFE7E, 0xFE7E), (0xFF9E, 0xFF9F), (0x10940, 0x10959), (0x10EC5, 0x10EC7), (0x11DB0, 0x11DDB),
  (0x16D80, 0x16D9F), (0x16EA0, 0x16EB8), (0x16EBB, 0x16ED3), (0x16FF2, 0x16FF6),
  (0x187F8, 0x187FF), (0x18D09, 0x18D1E), (0x18D80, 0x18DF2), (0x18E00, 0x19191),
  (0x1B123, 0x1B124), (0x1E6C0, 0x1E6DE), (0x1E6E0, 0x1E6E2), (0x1E6E4, 0x1E6E5),
  (0x1E6E7, 0x1E6ED), (0x1E6F0, 0x1E6F4), (0x1E6FE, 0x1E6FF), (0x2B73A, 0x2B73F),
  (0x2CEA2, 0x2CEAD), (0x323B0, 0x33479), (0x3D000, 0x3FC3F)]

/-- Code points that go on with a word and neither start one nor go on with an identifier. -/
def wordPartRanges : List (Nat × Nat) := [
  (0x5C8, 0x5C8), (0xB53, 0xB54), (0x1ACF, 0x1ADD), (0x1AE0, 0x1AEF), (0x10EFA, 0x10EFB),
  (0x11B60, 0x11B67), (0x11DE0, 0x11DE9), (0x16DA0, 0x16DA9), (0x1D25F, 0x1D25F),
  (0x1E6E3, 0x1E6E3), (0x1E6E6, 0x1E6E6), (0x1E6EE, 0x1E6EF), (0x1E6F5, 0x1E6F5)]

def isWordStart (c : Char) : Bool := Identifier.isStart c || inRanges wordStartRanges c

def isWordPart (c : Char) : Bool :=
  Identifier.isContinue c || inRanges wordStartRanges c || inRanges wordPartRanges c

end Florin.Script
