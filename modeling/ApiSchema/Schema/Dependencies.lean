/-
# Dependencies between entries

The names that a schema mentions, as references or as spread fragments, at any depth.
-/
import ApiSchema.Schema.Basic

namespace ApiSchema

/-! ## Sets of names -/

/-- Adds the names of the second list that are not yet there, in order. -/
def unionNames (names extra : List String) : List String :=
  extra.foldl (fun names name => if names.contains name then names else names ++ [name]) names

/-- Puts a name into its place in an ascending list; a name that is there stays single. -/
def insertName (name : String) : List String → List String
  | [] => [name]
  | head :: rest =>
    if name < head then name :: head :: rest
    else if name = head then head :: rest
    else head :: insertName name rest

/-- The set of names in ascending order of code points. -/
def sortNames (names : List String) : List String := names.foldr insertName []

namespace Schema

mutual

/-- The names that a schema mentions, in the order of their occurrence and with repetitions. -/
def mentions : Schema → List String
  | .ref name => [name]
  | .object fields undeclared spreads =>
    mentionsOfFields fields ++ mentionsOfUndeclared undeclared ++ spreads
  | .array items => mentions items
  | .tuple items => mentionsOfAll items
  | .record key value => mentions key ++ mentions value
  | .union members => mentionsOfAll members
  | .intersection members => mentionsOfAll members
  | _ => []

def mentionsOfAll : List Schema → List String
  | [] => []
  | schema :: rest => mentions schema ++ mentionsOfAll rest

def mentionsOfFields : List (Field Schema) → List String
  | [] => []
  | ⟨_, schema, _⟩ :: rest => mentions schema ++ mentionsOfFields rest

def mentionsOfUndeclared : Undeclared Schema → List String
  | .checked schema => mentions schema
  | _ => []

end

def dependencies (schema : Schema) : List String := unionNames [] schema.mentions

end Schema

/-- An entry with the dependencies of its schema and some more, never its own name. -/
def Entry.of (name : String) (schema : Schema) (category : Category)
    (extra : List String) : Entry :=
  { name, schema, category,
    dependencies := (unionNames schema.dependencies extra).filter (· != name) }

end ApiSchema
