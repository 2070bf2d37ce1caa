/-
# Patterns of paths

A star stands for any characters of a name, a question mark for one, and brackets for one of some
characters. The name `**` stands for any number of folders. Names that start with a dot are only
found by patterns that do so too.
-/
import ApiSchema.Files.Folder

namespace ApiSchema.Glob

/-! ## Patterns of names -/

/-- A piece of the pattern of a name. -/
inductive Piece
  | exactly (c : Char)
  | one
  | any
  | oneOf (negated : Bool) (ranges : List (Char × Char))
deriving DecidableEq, Inhabited

/-- The suffixes of a list, the longest first. -/
def suffixes {α : Type} : List α → List (List α)
  | [] => [[]]
  | a :: as => (a :: as) :: suffixes as

def pieceMatches : List Piece → List Char → Bool
  | [], cs => cs.isEmpty
  | .any :: pieces, cs => (suffixes cs).any (pieceMatches pieces)
  | .exactly c :: pieces, cs =>
    match cs with
    | [] => false
    | d :: ds => c == d && pieceMatches pieces ds
  | .one :: pieces, cs =>
    match cs with
    | [] => false
    | _ :: ds => pieceMatches pieces ds
  | .oneOf negated ranges :: pieces, cs =>
    match cs with
    | [] => false
    | d :: ds =>
      (ranges.any (fun (low, high) => low ≤ d && d ≤ high) != negated) && pieceMatches pieces ds

/-- The ranges of a list of characters between brackets. A hyphen between two characters stands for
all characters from the one to the other, none if they are the wrong way round. -/
def ranges : List Char → List (Char × Char)
  | low :: '-' :: high :: rest => (if low ≤ high then [(low, high)] else []) ++ ranges rest
  | c :: rest => (c, c) :: ranges rest
  | [] => []

/-- The characters up to the closing bracket and what follows it. A bracket that comes first does
not close. -/
def bracketed? (cs : List Char) : Option (Bool × List Char × List Char) :=
  let negated := cs.head? == some '!'
  let body := if negated then cs.drop 1 else cs
  let first := if body.head? == some ']' then [']'] else []
  let rest := body.drop first.length
  let inner := rest.takeWhile (· != ']')
  match rest.dropWhile (· != ']') with
  | [] => none
  | _ :: after => some (negated, first ++ inner, after)

/-- The pieces of a pattern. The first argument bounds their number. -/
def pieces : Nat → List Char → List Piece
  | 0, _ => []
  | _, [] => []
  | fuel + 1, c :: cs =>
    if c = '*' then .any :: pieces fuel cs
    else if c = '?' then .one :: pieces fuel cs
    else if c = '[' then
      match bracketed? cs with
      | some (negated, inner, after) => .oneOf negated (ranges inner) :: pieces fuel after
      | none => .exactly c :: pieces fuel cs
    else .exactly c :: pieces fuel cs

def nameMatches (pattern name : String) : Bool :=
  pieceMatches (pieces pattern.length pattern.toList) name.toList

/-! ## Patterns of paths -/

/-- Whether a pattern has a character with a meaning. -/
def isPattern (text : String) : Bool := text.toList.any fun c => c = '*' || c = '?' || c = '['

/-- Whether a name starts with a dot. -/
def isHidden (name : String) : Bool := name.toList.head? == some '.'

/-- The names in the folder under a path that match the pattern of a name. An empty path is the
outermost folder. -/
def namesIn (folder : Folder) (foldersOnly : Bool) (path pattern : String) : List String :=
  match if path.isEmpty then some [] else folder.folder? path with
  | none => []
  | some names =>
    let found := (folder.below names).filter fun (_, isFile) => !(foldersOnly && isFile)
    if pattern = "**" then
      "" :: (found.filter fun (names, _) => !names.any isHidden).map fun (names, _) =>
        "/".intercalate names
    else if isPattern pattern then
      found.filterMap fun (names, _) =>
        match names with
        | [name] =>
          if (isHidden pattern || !isHidden name) && nameMatches pattern name then some name
          else none
        | _ => none
    else if pattern.isEmpty || folder.has (Path.join path pattern) then [pattern]
    else []

/-- The paths that match a pattern. The first argument bounds the number of names in the pattern. -/
def expand (folder : Folder) : Nat → Bool → String → List String
  | 0, _, _ => []
  | fuel + 1, foldersOnly, pattern =>
    let base := Path.base pattern
    let directory := Path.directory pattern
    if !isPattern pattern then
      if base.isEmpty then if (folder.folder? directory).isSome then [pattern] else []
      else if folder.has pattern then [pattern]
      else []
    else if directory.isEmpty then namesIn folder foldersOnly "" base
    else
      let directories :=
        if isPattern directory then expand folder fuel true directory else [directory]
      directories.flatMap fun directory =>
        (namesIn folder foldersOnly directory base).map (Path.join directory)

def paths (folder : Folder) (pattern : String) : List String :=
  (expand folder (pattern.length + 1) false pattern).mergeSort

/-- The files that match some patterns, pattern by pattern and each once. -/
def files (folder : Folder) (patterns : List String) : List String :=
  (patterns.flatMap fun pattern => (paths folder pattern).filter folder.hasFile).foldl
    (fun found path => if found.contains path then found else found ++ [path]) []

end ApiSchema.Glob
