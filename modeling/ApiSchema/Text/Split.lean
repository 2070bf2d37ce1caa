/-
# Splitting texts
-/

namespace ApiSchema.Text

/-- The parts between the occurrences of a mark, with empty ones where marks meet or stand at an
end. -/
def splitAtMark (mark : Char) : List Char → List (List Char)
  | [] => [[]]
  | c :: cs =>
    if c = mark then [] :: splitAtMark mark cs
    else
      match splitAtMark mark cs with
      | [] => [[c]]
      | part :: parts => (c :: part) :: parts

/-- Replaces every occurrence of a text, from the left and without overlaps. The first argument is
the number of characters that still belong to an occurrence. -/
def replaceFrom (old new : List Char) : Nat → List Char → List Char
  | _, [] => []
  | skip + 1, _ :: cs => replaceFrom old new skip cs
  | 0, c :: cs =>
    if old.isPrefixOf (c :: cs) then new ++ replaceFrom old new (old.length - 1) cs
    else c :: replaceFrom old new 0 cs

/-- Replaces every occurrence of a text that is not empty. -/
def replaceAll (old new cs : List Char) : List Char := replaceFrom old new 0 cs

end ApiSchema.Text
