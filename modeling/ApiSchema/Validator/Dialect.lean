/-
# Dialects

Three libraries build schemas from combinators of the same shape. A dialect says how each
combinator is written; one traversal then serves all of them.
-/
import ApiSchema.Name
import ApiSchema.Schema.Nullability
import ApiSchema.TypeScript.Expr
import ApiSchema.Validator.Scope

namespace ApiSchema

open TypeScript

/-- How a library writes each kind of schema. -/
structure Dialect where
  library : Library
  text : Expr
  format : Format → Option Expr
  /-- A number, whole if the flag is set. -/
  number : Bool → Expr
  keyword : Keyword → Expr
  array : Expr → Expr
  tuple : List Expr → Expr
  record : Expr → Expr → Expr
  /-- One of the values, of which there is at least one. -/
  enumeration : List Value → Expr
  literal : Value → Expr
  /-- A schema widened by null or the undefined value. -/
  widened : Modifier → Expr → Expr
  /-- One of several schemas. -/
  union : List Expr → Expr
  /-- All of several schemas: the first one and the others. -/
  intersection : Expr → List Expr → Expr
  /-- A reference to a binding that comes later. -/
  deferred : Expr → Expr
  /-- The value of a key that may be missing. -/
  missing : Expr → Expr
  /-- The member of an object schema that holds its fields. -/
  fields : String
  /-- An object with the given block of fields. -/
  object : Expr → Undeclared Expr → Expr
  /-- An object together with spread entries that are no plain objects. -/
  merged : List Expr → Expr → Expr

namespace Dialect

/-- The expression of a text schema. -/
def string (d : Dialect) : Option Format → Except EmitError Expr
  | none => .ok d.text
  | some format =>
    match d.format format with
    | some expr => .ok expr
    | none => .error (.unknownFormat format.name)

def enumerated (d : Dialect) (values : List Value) : Except EmitError Expr :=
  if values.isEmpty then .ok (d.keyword .never)
  else
    match Value.firstUnwritable? values with
    | none => .ok (d.enumeration values)
    | some cause => .error (.valueNotWritable cause)

/-- The expression of a union from those of its members. A union of one schema with null or the
undefined value is that schema widened, or just that schema where the widening is said
elsewhere. -/
def unite (d : Dialect) (bare : Bool) (members : List Schema) (exprs : List Expr) : Expr :=
  match Schema.modifier? members, Schema.concreteResult? members exprs with
  | some modifier, some inner => if bare then inner else d.widened modifier inner
  | _, _ =>
    match exprs with
    | [] => d.keyword .never
    | [expr] => expr
    | exprs => d.union exprs

def intersect (d : Dialect) : List Expr → Expr
  | [] => d.keyword .unknown
  | expr :: rest => d.intersection expr rest

def assemble (d : Dialect) (scope : Scope) (spreads : List String) (fields : List (String × Expr))
    (undeclared : Undeclared Expr) : Expr :=
  let bindings (names : List String) := names.map fun name => Expr.name (Name.binding name)
  let plain := bindings (spreads.filter scope.spreadable.contains)
  let others := bindings (spreads.filter (!scope.spreadable.contains ·))
  d.merged others (d.object (.block (plain.map (.member · d.fields)) fields) undeclared)

/-- A reference, deferred if its binding comes later. -/
def reference (d : Dialect) (scope : Scope) (name : String) : Expr :=
  let target := Expr.name (Name.binding name)
  if scope.isForward name then d.deferred target else target

mutual

/-- The expression of a schema. With `bare` set, a widened schema is written without its
widening. -/
def express (d : Dialect) (scope : Scope) (bare : Bool) : Schema → Except EmitError Expr
  | .string format => d.string format
  | .number integer => .ok (d.number integer)
  | .keyword word => .ok (d.keyword word)
  | .object fields undeclared spreads => do
    let fields ← expressFields d scope fields
    let undeclared ← expressUndeclared d scope undeclared
    return d.assemble scope spreads fields undeclared
  | .array items => do return d.array (← express d scope false items)
  | .tuple items => do return d.tuple (← expressAll d scope items)
  | .record key value => do
    let key ← express d scope false key
    let value ← express d scope false value
    return d.record key value
  | .enumeration values => d.enumerated values
  | .literal value =>
    match value.unwritable? with
    | none => .ok (d.literal value)
    | some cause => .error (.valueNotWritable cause)
  | .union members => do return d.unite bare members (← expressAll d scope members)
  | .intersection members => do return d.intersect (← expressAll d scope members)
  | .ref name => .ok (d.reference scope name)
  | .raw code => .ok (.verbatim code)
  | .unsupported _ => .ok (d.keyword .unknown)

/-- The expressions of several schemas. -/
def expressAll (d : Dialect) (scope : Scope) : List Schema → Except EmitError (List Expr)
  | [] => .ok []
  | schema :: rest => do
    let expr ← express d scope false schema
    let exprs ← expressAll d scope rest
    return expr :: exprs

/-- The fields of an object. A field that may be missing may also be null. -/
def expressFields (d : Dialect) (scope : Scope) :
    List (Field Schema) → Except EmitError (List (String × Expr))
  | [] => .ok []
  | ⟨.text key, schema, required⟩ :: rest => do
    let expr ← express d scope (!required) schema
    let fields ← expressFields d scope rest
    return (Name.propertyKey key, if required then expr else d.missing expr) :: fields
  | _ :: _ => .error .keyNotText

/-- The treatment of undeclared keys. -/
def expressUndeclared (d : Dialect) (scope : Scope) :
    Undeclared Schema → Except EmitError (Undeclared Expr)
  | .dropped => .ok .dropped
  | .marked mark => .ok (.marked mark)
  | .checked schema => do return .checked (← express d scope false schema)

end

end Dialect

end ApiSchema
