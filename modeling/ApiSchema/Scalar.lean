/-
# Scalars

A registry maps the scalars of a GraphQL schema to schemas. The common scalars are there from the
start; code in the words of a validator library can be put in the place of any of them, if it
starts the way expressions of that library start.
-/
import ApiSchema.Schema.Basic
import ApiSchema.Validator.Library
import ApiSchema.Value.Display

namespace ApiSchema

/-! ## Code of a library -/

/-- How the expressions of a library start. -/
def Library.openings : Library → List String
  | .zod => ["z."]
  | .valibot => ["v."]
  | .arktype => ["type(", "type."]
  | .effect => ["Schema."]

/-- Whether code starts the way expressions of a library start. -/
def Library.accepts (library : Library) (code : String) : Bool :=
  library.openings.any fun opening => opening.toList.isPrefixOf code.toList

/-- What a user may have meant, and the expression for it. -/
def Library.suggestions : Library → List (String × String)
  | .zod =>
    [("string", "z.string()"), ("number", "z.number()"), ("boolean", "z.boolean()"),
      ("date", "z.string()"), ("object", "z.object(\x7b\x7d)"), ("any", "z.any()"),
      ("unknown", "z.unknown()")]
  | .valibot =>
    [("string", "v.string()"), ("number", "v.number()"), ("boolean", "v.boolean()"),
      ("date", "v.string()"), ("object", "v.object(\x7b\x7d)"), ("any", "v.any()"),
      ("unknown", "v.unknown()")]
  | .arktype =>
    [("string", "type(\"string\")"), ("number", "type(\"number\")"),
      ("boolean", "type(\"boolean\")"), ("date", "type(\"string\")"), ("object", "type(\x7b\x7d)"),
      ("any", "type(\"unknown\")"), ("unknown", "type(\"unknown\")")]
  | .effect =>
    [("string", "Schema.String"), ("number", "Schema.Number"), ("boolean", "Schema.Boolean"),
      ("date", "Schema.String"), ("object", "Schema.Struct(\x7b\x7d)"), ("any", "Schema.Unknown"),
      ("unknown", "Schema.Unknown")]

def Library.textCode : Library → String
  | .zod => "z.string()"
  | .valibot => "v.string()"
  | .arktype => "type(\"string\")"
  | .effect => "Schema.String"

/-- Capitalised spellings of what a user may have meant. -/
def suggestionAliases : List (String × String) :=
  [("String", "string"), ("Number", "number"), ("Boolean", "boolean"), ("Date", "date")]

/-- An expression of the library in the place of what was typed. -/
def Library.suggest (library : Library) (code : String) : String :=
  let key := (suggestionAliases.lookup code).getD code
  (library.suggestions.lookup key).getD library.textCode

/-! ## Registries -/

/-- Why code cannot stand for a scalar. -/
inductive ScalarError
  /-- The code does not start like an expression of the library. -/
  | foreignCode (scalar code : String) (library : Library)
  | notALibrary (name : String)
deriving DecidableEq, Inhabited

def ScalarError.message : ScalarError → String
  | .foreignCode scalar code library =>
    "Invalid scalar mapping for \"" ++ scalar ++ "\": received \"" ++ code ++ "\". For " ++
      library.name ++ ", scalar values must be valid " ++ library.name ++
      " expressions. Did you mean \"" ++ library.suggest code ++ "\"?"
  | .notALibrary name => Text.displayQuoted name ++ " is not a valid ValidatorLibrary"

/-- The schemas of scalars, and the library that code has to be written for, if any. -/
structure Registry where
  library : Option Library
  schemas : List (String × Schema)
deriving Inhabited

namespace Registry

/-- The scalars known from the start. -/
def defaults : List (String × Schema) :=
  [("ID", .text), ("String", .text), ("Int", .number true), ("Float", .number false),
    ("Boolean", .keyword .boolean), ("DateTime", .string (some .datetime)),
    ("Date", .string (some .date)), ("Time", .string (some .time)), ("JSON", .unknown),
    ("JSONObject", .record .text .unknown), ("BigInt", .keyword .bigint),
    ("UUID", .string (some .uuid)), ("Email", .string (some .email)),
    ("URL", .string (some .url))]

def register (registry : Registry) (scalar : String) (schema : Schema) : Registry :=
  { registry with schemas := Assoc.put registry.schemas scalar schema }

def registerCode (registry : Registry) (scalar code : String) : Except ScalarError Registry :=
  match registry.library with
  | some library =>
    if library.accepts code then .ok (registry.register scalar (.raw code))
    else .error (.foreignCode scalar code library)
  | none => .ok (registry.register scalar (.raw code))

/-- Registers the code of each override in order. -/
def registerAll (registry : Registry) : List (String × String) → Except ScalarError Registry
  | [] => .ok registry
  | (scalar, code) :: rest => do (← registry.registerCode scalar code).registerAll rest

/-- The registry of the common scalars with some of them overridden. -/
def of (library : Option Library) (overrides : List (String × String)) :
    Except ScalarError Registry :=
  Registry.registerAll ⟨library, defaults⟩ overrides

/-- The registry for the library of a name, if one is given. -/
def ofName (name : Option String) (overrides : List (String × String)) :
    Except ScalarError Registry :=
  match name with
  | none => of none overrides
  | some name =>
    match Library.ofName? name with
    | some library => of (some library) overrides
    | none => .error (.notALibrary name)

/-- The schema of a scalar. -/
def get? (registry : Registry) (scalar : String) : Option Schema :=
  Assoc.get? registry.schemas scalar

def has (registry : Registry) (scalar : String) : Bool := (registry.get? scalar).isSome

/-- A replacement for code that was refused; without a library, one for Zod. -/
def suggest (registry : Registry) (code : String) : String :=
  (registry.library.getD .zod).suggest code

end Registry

end ApiSchema
