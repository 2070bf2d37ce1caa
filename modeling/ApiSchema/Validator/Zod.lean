/-
# Zod

Schemas as methods chained on `z` constructors.
-/
import ApiSchema.Validator.Dialect

namespace ApiSchema.Zod

open TypeScript

/-- A constructor without arguments. -/
def plain (constructor : String) : Expr := .apply ("z." ++ constructor) []

def format : Format → Option Expr
  | .email => some (plain "email")
  | .url => some (plain "url")
  | .uuid => some (plain "uuid")
  | .datetime => some (plain "iso.datetime")
  | .date => some (plain "iso.date")
  | .time => some (plain "iso.time")
  | .ipv4 => some (plain "ipv4")
  | .ipv6 => some (plain "ipv6")
  | .other _ => none

def literal (value : Value) : Expr := .apply "z.literal" [.literal value]

/-- Texts alone form an enumeration; other values are literals, and a union of them if there are
several. -/
def enumeration (values : List Value) : Expr :=
  if values.all (·.text?.isSome) then .apply "z.enum" [.array (values.map .literal)]
  else
    match values with
    | [value] => literal value
    | values => .apply "z.union" [.array (values.map literal)]

/-- An object with a block of fields. -/
def object (body : Expr) : Undeclared Expr → Expr
  | .checked rest => (Expr.apply "z.object" [body]).method "catchall" [rest]
  | undeclared => .apply (if undeclared.isKept then "z.looseObject" else "z.object") [body]

def dialect : Dialect where
  library := .zod
  text := plain "string"
  format := format
  number integer := if integer then (plain "number").method "int" [] else plain "number"
  keyword word := plain word.name
  array items := .apply "z.array" [items]
  tuple items := .apply "z.tuple" [.array items]
  record key value := .apply "z.record" [key, value]
  enumeration := enumeration
  literal := literal
  widened modifier inner := inner.method modifier.name []
  union members := .apply "z.union" [.array members]
  intersection first others := others.foldl (fun expr member => expr.method "and" [member]) first
  deferred target := .apply "z.lazy" [.thunk target]
  missing value := value.method "nullish" []
  fields := "shape"
  object := object
  merged others body := others.foldl (fun expr other => other.method "and" [expr]) body

end ApiSchema.Zod
