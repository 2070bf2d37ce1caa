/-
# Effect

Schemas as members and functions of `Schema`.
-/
import ApiSchema.Validator.Dialect

namespace ApiSchema.Effect

open TypeScript

def plain (field : String) : Expr := .name ("Schema." ++ field)

/-- The schemas without parameters. -/
def keyword : Keyword → Expr
  | .boolean => plain "Boolean"
  | .bigint => plain "BigIntFromSelf"
  | .null => plain "Null"
  | .undefined => plain "Undefined"
  | .unknown => plain "Unknown"
  | .never => plain "Never"
  | .date => plain "DateFromSelf"

/-- A text of some format: a unique identifier has a schema of its own, the others are checked
against a pattern. -/
def format : Format → Option Expr
  | .uuid => some (plain "UUID")
  | f =>
    f.pattern?.map fun pattern =>
      (plain "String").method "pipe" [.apply "Schema.pattern" [.regex pattern]]

/-- The function that widens a schema. -/
def widening : Modifier → String
  | .nullable => "Schema.NullOr"
  | .optional => "Schema.UndefinedOr"
  | .nullish => "Schema.NullishOr"

def record (key value : Expr) : Expr :=
  .apply "Schema.Record" [.inlineObject [("key", key), ("value", value)]]

def keepUndeclared : Expr :=
  .inlineObject [("parseOptions", .inlineObject [("onExcessProperty", .text "preserve")])]

/-- An object with a block of fields. -/
def object (body : Expr) : Undeclared Expr → Expr
  | .checked rest => .apply "Schema.Struct" [body, record (plain "String") rest]
  | undeclared =>
    let struct := Expr.apply "Schema.Struct" [body]
    if undeclared.isKept then struct.method "annotations" [keepUndeclared] else struct

def dialect : Dialect where
  library := .effect
  text := plain "String"
  format := format
  number integer :=
    if integer then (plain "Number").method "pipe" [.apply "Schema.int" []] else plain "Number"
  keyword := keyword
  array items := .apply "Schema.Array" [items]
  tuple items := .apply "Schema.Tuple" items
  record := record
  enumeration values := .apply "Schema.Literal" (values.map .literal)
  literal value := .apply "Schema.Literal" [.literal value]
  widened modifier inner := .apply (widening modifier) [inner]
  union members := .apply "Schema.Union" members
  intersection first others :=
    others.foldl (fun expr member => .apply "Schema.extend" [expr, member]) first
  deferred target := .apply "Schema.suspend" [.thunk target]
  missing value := .apply "Schema.optional" [.apply "Schema.NullOr" [value]]
  fields := "fields"
  object := object
  merged others body :=
    others.foldl (fun expr other => .apply "Schema.extend" [other, expr]) body

end ApiSchema.Effect
