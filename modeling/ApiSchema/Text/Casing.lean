/-
# Upper, lower and title case

Full case mapping: a character may map to several. Only a sigma looks at its neighbours.
-/
import ApiSchema.Text.CaseTable

namespace ApiSchema.Text

/-- Looks a character up among the several-character mappings, then among the runs; a character in
neither maps to itself. -/
def mapCase (specials : List (Nat × List Nat)) (runs : List CaseRun) (c : Char) : List Char :=
  match specials.lookup c.toNat with
  | some codes => codes.map Char.ofNat
  | none =>
    match runs.find? (·.contains c.toNat) with
    | some run => [Char.ofNat (run.apply c.toNat)]
    | none => [c]

def upperChar (c : Char) : List Char := mapCase upperSpecials upperRuns c

def lowerChar (c : Char) : List Char := mapCase lowerSpecials lowerRuns c

def titleChar (c : Char) : List Char :=
  match titleSpecials.lookup c.toNat with
  | some codes => codes.map Char.ofNat
  | none =>
    match titleRuns.find? (·.contains c.toNat) with
    | some run => [Char.ofNat (run.apply c.toNat)]
    | none => upperChar c

def upperFirst : List Char → List Char
  | [] => []
  | c :: cs => upperChar c ++ cs

def lowerFirst : List Char → List Char
  | [] => []
  | c :: cs => lowerChar c ++ cs

/-! ## Lower case in context -/

/-- Whether the nearest character that is not passed over has case. -/
def meetsCased (cs : List Char) : Bool :=
  match cs.dropWhile (fun c => inRanges caseIgnorableRanges c.toNat) with
  | [] => false
  | c :: _ => inRanges casedRanges c.toNat

/-- The lower-case form of a character between the text before it, given backwards, and the text
after it: a sigma that ends a word has a form of its own. -/
def lowerBetween (before : List Char) (c : Char) (after : List Char) : List Char :=
  if c = 'Σ' then
    if meetsCased before && !meetsCased after then ['ς'] else ['σ']
  else
    lowerChar c

/-- The lower-case form of `cs` after the text `before`, which is given backwards. -/
def lowerAfter (before : List Char) : List Char → List Char
  | [] => []
  | c :: cs => lowerBetween before c cs ++ lowerAfter (c :: before) cs

/-- First character in title case, the rest in lower case. -/
def capitalize : List Char → List Char
  | [] => []
  | c :: cs => titleChar c ++ lowerAfter [c] cs

end ApiSchema.Text
