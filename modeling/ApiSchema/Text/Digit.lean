/-
# Digits of all scripts

A decimal digit has a place value in some script; a digit-like character (a superscript, a circled
number) is a digit without a place value.
-/
import ApiSchema.Text.CodeRange

namespace ApiSchema.Text

/-- The decimal digits; each range is a whole number of runs from zero to nine. -/
def decimalDigitRanges : List CodeRange :=
  CodeRange.ofGaps 0
    [48, 9, 1574, 9, 134, 9, 198, 9, 412, 9, 118, 9, 118, 9, 118, 9, 118, 9, 118, 9, 118, 9, 118, 9,
      118, 9, 118, 9, 96, 9, 118, 9, 70, 9, 278, 9, 70, 9, 1862, 9, 38, 9, 300, 9, 128, 9, 166, 9,
      6, 9, 182, 9, 86, 9, 134, 9, 6, 9, 35270, 9, 678, 9, 38, 9, 198, 9, 22, 9, 86, 9, 406, 9,
      21270, 9, 1414, 9, 2182, 9, 812, 9, 128, 9, 60, 9, 144, 9, 278, 9, 342, 9, 118, 9, 374, 9,
      102, 9, 102, 9, 422, 9, 102, 9, 758, 9, 246, 9, 70, 9, 19638, 9, 86, 9, 134, 9, 27764, 49,
      2368, 9, 422, 9, 1622, 9, 4758, 9]

/-- Digits that have no place value. -/
def digitLikeRanges : List CodeRange :=
  CodeRange.ofGaps 0
    [178, 1, 5, 0, 4783, 8, 1640, 0, 1685, 0, 3, 5, 6, 9, 982, 8, 11, 8, 11, 8, 89, 0, 10, 8, 1, 0,
      630, 8, 1, 8, 1, 8, 58029, 3, 1052, 8, 489, 8, 57509, 10]

def digitValue? (c : Char) : Option Nat :=
  (decimalDigitRanges.find? (·.contains c.toNat)).map fun range => (c.toNat - range.first) % 10

/-- Whether a character is a digit, with or without a place value. -/
def isDigitOfAnyScript (c : Char) : Bool :=
  inRanges decimalDigitRanges c.toNat || inRanges digitLikeRanges c.toNat

end ApiSchema.Text
