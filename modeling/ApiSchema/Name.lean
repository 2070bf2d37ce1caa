/-
# Names

How the names found in an API description become names of entries, bindings and object keys.
-/
import ApiSchema.Text.Blank
import ApiSchema.Text.Casing
import ApiSchema.Text.Quoted

namespace ApiSchema.Name

open Text

/-! ## Words -/

/-- A character that stands between the words of a name. -/
def isSeparator (c : Char) : Bool := c = '-' || c = '_' || isBlank c

/-- Removes the separators, and puts the character after each run of them in upper case. The flag
says whether a separator stands just before. -/
def joinWords : Bool → List Char → List Char
  | _, [] => []
  | raised, c :: cs =>
    if isSeparator c then joinWords true cs
    else (if raised then upperChar c else [c]) ++ joinWords false cs

/-- The words of a name joined, each with an upper-case initial. -/
def pascalChars (cs : List Char) : List Char := upperFirst (joinWords false cs)

/-- The words of a name joined, each with an upper-case initial. -/
def pascalCase (name : String) : String := String.ofList (pascalChars name.toList)

/-- The words of a name joined, each but the first with an upper-case initial. -/
def camelCase (name : String) : String := String.ofList (lowerFirst (pascalChars name.toList))

/-! ## Entries and bindings -/

/-- The binding that holds the schema of an entry. -/
def binding (entry : String) : String := String.ofList (lowerFirst entry.toList) ++ "Schema"

def fragmentEntry (fragment : String) : String := pascalCase fragment ++ "Fragment"

/-- The entry of an operation's response; `kind` is the kind of the operation. -/
def responseEntry (operation kind : String) : String :=
  pascalCase operation ++ String.ofList (capitalize kind.toList)

def variablesEntry (operation kind : String) : String :=
  responseEntry operation kind ++ "Variables"

/-! ## Object keys -/

def isIdentifierStart (c : Char) : Bool :=
  ('a' ≤ c && c ≤ 'z') || ('A' ≤ c && c ≤ 'Z') || c = '_' || c = '$'

def isIdentifierPart (c : Char) : Bool := isIdentifierStart c || ('0' ≤ c && c ≤ '9')

/-- Whether the rest of an identifier is in order; a line break at the very end is let pass. -/
def isIdentifierRest : List Char → Bool
  | [] => true
  | ['\n'] => true
  | c :: cs => isIdentifierPart c && isIdentifierRest cs

/-- Whether a key may be written without quotes. -/
def isIdentifier (name : String) : Bool :=
  match name.toList with
  | [] => false
  | c :: cs => isIdentifierStart c && isIdentifierRest cs

/-- An object key: an identifier as it is, any other text in quotes. -/
def propertyKey (name : String) : String := if isIdentifier name then name else quote name

end ApiSchema.Name
