/-
# Valibot

Schemas as nested calls of `v` functions.
-/
import ApiSchema.Validator.Dialect

namespace ApiSchema.Valibot

open TypeScript

/-- A function without arguments. -/
def plain (function : String) : Expr := .apply ("v." ++ function) []

def check : Format → Option String
  | .email => some "email"
  | .url => some "url"
  | .uuid => some "uuid"
  | .datetime => some "isoTimestamp"
  | .date => some "isoDate"
  | .time => some "isoTime"
  | .ipv4 => some "ipv4"
  | .ipv6 => some "ipv6"
  | .other _ => none

/-- An object with a block of fields. -/
def object (body : Expr) : Undeclared Expr → Expr
  | .checked rest => .apply "v.objectWithRest" [body, rest]
  | undeclared => .apply (if undeclared.isKept then "v.looseObject" else "v.object") [body]

/-- An intersection, which is the schema itself if there is just one. -/
def intersection (first : Expr) (others : List Expr) : Expr :=
  if others.isEmpty then first else .apply "v.intersect" [.array (first :: others)]

def dialect : Dialect where
  library := .valibot
  text := plain "string"
  format f := (check f).map fun name => .apply "v.pipe" [plain "string", plain name]
  number integer :=
    if integer then .apply "v.pipe" [plain "number", plain "integer"] else plain "number"
  keyword word := plain word.name
  array items := .apply "v.array" [items]
  tuple items := .apply "v.tuple" [.array items]
  record key value := .apply "v.record" [key, value]
  enumeration values := .apply "v.picklist" [.array (values.map .literal)]
  literal value := .apply "v.literal" [.literal value]
  widened modifier inner := .apply ("v." ++ modifier.name) [inner]
  union members := .apply "v.union" [.array members]
  intersection := intersection
  deferred target := .apply "v.lazy" [.thunk target]
  missing value := .apply "v.nullish" [value]
  fields := "entries"
  object := object
  merged others body :=
    if others.isEmpty then body else .apply "v.intersect" [.array (others ++ [body])]

end ApiSchema.Valibot
