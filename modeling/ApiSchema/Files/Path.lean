/-
# Paths

Paths are texts in which slashes stand between names.
-/
import ApiSchema.Text.Split

namespace ApiSchema.Path

/-! ## Parts -/

/-- The names between slashes, with empty ones where slashes meet or stand at an end. -/
def parts (path : String) : List String := (Text.splitAtMark '/' path.toList).map String.ofList

/-- Removes slashes at the end, unless there is nothing else. -/
def dropSlashes (cs : List Char) : List Char :=
  let rest := (cs.reverse.dropWhile (· == '/')).reverse
  if rest.isEmpty then cs else rest

/-- What stands after the last slash. -/
def base (path : String) : String :=
  String.ofList (path.toList.reverse.takeWhile (· != '/')).reverse

/-- What stands before the last slash, without slashes at the end. -/
def directory (path : String) : String :=
  String.ofList (dropSlashes (path.toList.reverse.dropWhile (· != '/')).reverse)

def join (directory name : String) : String :=
  if directory.isEmpty then name
  else if directory.toList.getLast? == some '/' then directory ++ name
  else directory ++ "/" ++ name

/-! ## Normal form -/

/-- A path without empty names and names that stand for the same place. -/
def normalize (path : String) : String :=
  let slashes := (path.toList.takeWhile (· == '/')).length
  let root := if slashes = 0 then "" else if slashes = 2 then "//" else "/"
  let names := (parts path).filter fun name => name != "" && name != "."
  if root.isEmpty && names.isEmpty then "." else root ++ "/".intercalate names

/-- The end of a name from its last dot on, unless the dot is its first or last character. -/
def suffix (path : String) : String :=
  let name := (base path).toList
  let after := (name.reverse.takeWhile (· != '.')).reverse
  let before := name.length - after.length
  if after.isEmpty || before ≤ 1 then "" else String.ofList ('.' :: after)

def endsInAny (endings : List String) (path : String) : Bool :=
  endings.any fun ending => ending.toList.isSuffixOf path.toList

end ApiSchema.Path
