/-
# Ranges of code points

Character classes are lists of closed ranges of code points.
-/

namespace ApiSchema.Text

/-- The code points from `first` to `last`, both included. -/
structure CodeRange where
  first : Nat
  last : Nat

def CodeRange.contains (range : CodeRange) (code : Nat) : Bool :=
  range.first ≤ code && code ≤ range.last

/-- Ranges that are written as two numbers in turn: how many code points are passed over, counted
from `next` for the first range, and how many lie behind the first one of the range. -/
def CodeRange.ofGaps (next : Nat) : List Nat → List CodeRange
  | gap :: more :: rest => ⟨next + gap, next + gap + more⟩ :: ofGaps (next + gap + more + 1) rest
  | _ => []

def inRanges (ranges : List CodeRange) (code : Nat) : Bool :=
  ranges.any (·.contains code)

end ApiSchema.Text
