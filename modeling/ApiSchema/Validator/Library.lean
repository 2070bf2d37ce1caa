/-
# Validator libraries

The libraries that schemas can be written for, and what a module of each looks like around its
schemas.
-/
import ApiSchema.Schema.Basic
import ApiSchema.Value.Written

namespace ApiSchema

/-- A supported validator library. -/
inductive Library
  | zod
  | valibot
  | arktype
  | effect
deriving DecidableEq, Inhabited

namespace Library

/-- All libraries, in the order in which they are listed. -/
def all : List Library := [zod, valibot, arktype, effect]

def name : Library → String
  | zod => "zod"
  | valibot => "valibot"
  | arktype => "arktype"
  | effect => "effect"

/-- The name of a library in headings. -/
def title : Library → String
  | zod => "Zod"
  | valibot => "Valibot"
  | arktype => "ArkType"
  | effect => "Effect"

/-- The names of the supported libraries. -/
def names : List String := all.map name

def ofName? (name : String) : Option Library := all.find? (·.name == name)

/-- The import line of a module. -/
def importStatement : Library → String
  | zod => "import * as z from \"zod\";"
  | valibot => "import * as v from \"valibot\";"
  | arktype => "import \x7b type \x7d from \"arktype\";"
  | effect => "import \x7b Schema \x7d from \"effect\";"

/-- The exported type that is inferred from the binding of a schema. -/
def typeExport (library : Library) (binding type : String) : String :=
  "export type " ++ type ++ " = " ++
    (match library with
      | zod => "z.infer<typeof " ++ binding ++ ">;"
      | valibot => "v.InferOutput<typeof " ++ binding ++ ">;"
      | arktype => "typeof " ++ binding ++ ".infer;"
      | effect => "typeof " ++ binding ++ ".Type;")

end Library

/-! ## Failures -/

/-- Why a schema has no form in a library. -/
inductive EmitError
  | unknownLibrary (name : String)
  | unknownFormat (name : String)
  | keyNotText
  /-- A value has no JSON form. -/
  | valueNotWritable (cause : Unwritable)
  /-- Nothing can be looked for in a literal, because it is neither a text nor a container. -/
  | literalNotSearchable
  /-- Entries share a name, and some of them are objects and some are not. -/
  | mixedEntries (name : String)
deriving DecidableEq, Inhabited

def unknownLibraryMessage (name : String) : String :=
  "Unknown validator library \"" ++ name ++ "\". Supported libraries: " ++
    ", ".intercalate Library.names

/-! ## Text formats as regular expressions -/

/-- The pattern of a text format, for libraries that do not know the format. -/
def Format.pattern? : Format → Option String
  | email => some "^[^\\s@]+@[^\\s@]+\\.[^\\s@]+$"
  | url => some "^[a-zA-Z][a-zA-Z\\d+\\-.]*:\\/\\/[^\\s]+$"
  | datetime =>
    some ("^\\d\x7b4\x7d-\\d\x7b2\x7d-\\d\x7b2\x7dT\\d\x7b2\x7d:\\d\x7b2\x7d:\\d\x7b2\x7d" ++
      "(\\.\\d+)?(Z|[+-]\\d\x7b2\x7d:\\d\x7b2\x7d)$")
  | date => some "^\\d\x7b4\x7d-\\d\x7b2\x7d-\\d\x7b2\x7d$"
  | time => some "^\\d\x7b2\x7d:\\d\x7b2\x7d(:\\d\x7b2\x7d(\\.\\d+)?)?$"
  | ipv4 =>
    some ("^(25[0-5]|2[0-4]\\d|1\\d\\d|[1-9]?\\d)" ++
      "(\\.(25[0-5]|2[0-4]\\d|1\\d\\d|[1-9]?\\d))\x7b3\x7d$")
  | ipv6 =>
    some ("^(([0-9a-fA-F]\x7b1,4\x7d:)\x7b7\x7d[0-9a-fA-F]\x7b1,4\x7d|" ++
      "([0-9a-fA-F]\x7b1,4\x7d:)\x7b0,6\x7d[0-9a-fA-F]\x7b0,4\x7d::" ++
      "([0-9a-fA-F]\x7b1,4\x7d:)\x7b0,6\x7d[0-9a-fA-F]\x7b0,4\x7d)$")
  | _ => none

end ApiSchema
