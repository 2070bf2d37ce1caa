/-
# ArkType

ArkType reads definitions from texts in a small notation of its own. A schema that can be written in
the notation is kept as such a text, so that unions and arrays stay compact; every other schema is
an expression built from `type`.
-/
import ApiSchema.Name
import ApiSchema.Schema.Nullability
import ApiSchema.TypeScript.Expr
import ApiSchema.Validator.Scope
import ApiSchema.Value.Display

namespace ApiSchema.Arktype

open TypeScript

/-! ## The text notation -/

/-- The word for a text format. -/
def formatWord? : Format → Option String
  | .email => some "string.email"
  | .url => some "string.url"
  | .uuid => some "string.uuid"
  | .datetime => some "string.date.iso"
  | .ipv4 => some "string.ip.v4"
  | .ipv6 => some "string.ip.v6"
  | _ => none

/-- The word for a schema without parameters. -/
def keywordWord : Keyword → String
  | .date => "Date"
  | word => word.name

/-- A quote or a backslash; a text with one of them has no form in the notation. -/
def isMark (c : Char) : Bool := c = '\'' || c = '\\'

/-- Whether an atom is a text of exactly one such character. -/
def isMarkText : Atom → Bool
  | .text s => s == "'" || s == "\\"
  | _ => false

/-- The atoms among the parts of a value in which one may look for a text: the items of a list, the
keys of a map. -/
def searched : Value → List Atom
  | .list items => items.filterMap Value.atom?
  | .tuple items => items.filterMap Value.atom?
  | .set members => members
  | .map entries => entries.map (·.1)
  | _ => []

/-- A literal in the notation: a text between single quotes unless it holds a quote or a backslash.
A list with such a character among its items, or a map with one among its keys, is refused in the
same way. -/
def literalText? : Value → Except EmitError (Option String)
  | .atom (.bool b) => .ok (some (if b then "true" else "false"))
  | .atom (.int n) =>
    match (Atom.int n).unwritable? with
    | none => .ok (some (Atom.int n).jsonText)
    | some cause => .error (.valueNotWritable cause)
  | .atom (.float x) => .ok (some (Atom.float x).jsonText)
  | .atom (.text s) => .ok (if s.toList.any isMark then none else some ("'" ++ s ++ "'"))
  | .atom _ => .error .literalNotSearchable
  | value =>
    if (searched value).any isMarkText then .ok none
    else if value.isShowable then .ok (some ("'" ++ value.display ++ "'"))
    else .error (.valueNotWritable .tooLong)

/-- Whether a definition has a blank, so that it needs parentheses inside another one. -/
def hasBlank (definition : String) : Bool := definition.toList.contains ' '

/-- A definition as a part of another one. -/
def grouped (definition : String) : String :=
  if hasBlank definition then "(" ++ definition ++ ")" else definition

mutual

/-- The text that defines a schema in the notation, if it has one. -/
def notated? : Schema → Except EmitError (Option String)
  | .string none => .ok (some "string")
  | .string (some format) => .ok (formatWord? format)
  | .number integer => .ok (some (if integer then "number.integer" else "number"))
  | .keyword word => .ok (some (keywordWord word))
  | .literal value => literalText? value
  | .array items => do return (← notated? items).map (grouped · ++ "[]")
  | .union members => do return (← notatedAll? members).map (" | ".intercalate ·)
  | .intersection members => do
    return (← notatedAll? members).map fun parts => " & ".intercalate (parts.map grouped)
  | _ => .ok none

/-- The texts of several schemas; `none` if there are none, or if one has no text. -/
def notatedAll? : List Schema → Except EmitError (Option (List String))
  | [] => .ok none
  | [schema] => do return (← notated? schema).map ([·])
  | schema :: rest => do
    let first ← notated? schema
    let others ← notatedAll? rest
    return first.bind fun text => others.map (text :: ·)

end

/-! ## Expressions -/

def defined (definition : String) : Expr := .apply "type" [.text definition]

/-- The keywords that a modifier adds. -/
def addedWords : Modifier → List String
  | .nullable => ["null"]
  | .optional => ["undefined"]
  | .nullish => ["null", "undefined"]

def alternatives (first : Expr) (others : List Expr) : Expr :=
  others.foldl (fun expr other => expr.method "or" [other]) first

def unite (bare : Bool) (members : List Schema) (exprs : List Expr) : Expr :=
  match Schema.modifier? members, Schema.concreteResult? members exprs with
  | some modifier, some inner =>
    if bare then inner else alternatives inner ((addedWords modifier).map defined)
  | _, _ =>
    match exprs with
    | [] => defined "never"
    | expr :: rest => alternatives expr rest

def intersect : List Expr → Expr
  | [] => defined "unknown"
  | expr :: rest => rest.foldl (fun expr other => expr.method "and" [other]) expr

/-- The expression of a text format outside the notation. -/
def patterned : Option Format → Except EmitError Expr
  | none => .ok (defined "string")
  | some format =>
    match format.pattern? with
    | some pattern => .ok (defined ("/" ++ pattern ++ "/"))
    | none => .error (.unknownFormat format.name)

def enumerated (values : List Value) : Except EmitError Expr :=
  if values.isEmpty then .ok (defined "never")
  else
    match Value.firstUnwritable? values with
    | none => .ok (.apply "type.enumerated" (values.map .literal))
    | some cause => .error (.valueNotWritable cause)

def reference (name : String) : Expr := .name (Name.binding name)

/-- An object from its fields and the treatment of undeclared keys, under the spread entries. -/
def assemble (fields : List (String × Expr)) (spreads : List String) : Expr :=
  spreads.foldr (fun name expr => (reference name).method "and" [expr])
    (.apply "type" [.block [] fields])

/-- The value of a key that may be missing: null is allowed, once. -/
def orNull (schema : Schema) (definition : Option String) (expr : Expr) : Expr :=
  match schema.stripNullability.acceptsNull, definition with
  | true, some text => .text text
  | true, none => expr
  | false, some text => .text (text ++ " | null")
  | false, none => alternatives expr [defined "null"]

/-- The definition by a text in the notation if there is one, and else an expression. -/
def definedOr (definition : Except EmitError (Option String)) (expr : Except EmitError Expr) :
    Except EmitError Expr := do
  match ← definition with
  | some text => return defined text
  | none => expr

/-- A text in the notation if there is one, and else an expression. -/
def textOr (definition : Except EmitError (Option String)) (expr : Except EmitError Expr) :
    Except EmitError Expr := do
  match ← definition with
  | some text => return .text text
  | none => expr

mutual

/-- The expression of a schema that has no text in the notation. With `bare` set, a widened schema
is written without its widening. -/
def expressed (bare : Bool) : Schema → Except EmitError Expr
  | .string format => patterned format
  | .number integer => .ok (defined (if integer then "number.integer" else "number"))
  | .keyword word => .ok (defined (keywordWord word))
  | .object fields undeclared spreads => do
    let fields ← expressFields fields
    let undeclared ← expressUndeclared undeclared
    return assemble (fields ++ [undeclared]) spreads
  | .array items => do
    return (← definedOr (notated? items) (expressed false items)).method "array" []
  | .tuple items => do return .apply "type" [.array (← valueAll items)]
  | .record key value => do
    let key := (← notated? key).getD "string"
    let value ← textOr (notated? value) (expressed false value)
    return .apply "type" [.inlineObject [(Text.quote ("[" ++ key ++ "]"), value)]]
  | .enumeration values => enumerated values
  | .literal value =>
    match value.unwritable? with
    | none => .ok (.apply "type.unit" [.literal value])
    | some cause => .error (.valueNotWritable cause)
  | .union members => do return unite bare members (← expressAll members)
  | .intersection members => do return intersect (← expressAll members)
  | .ref name => .ok (reference name)
  | .raw code => .ok (.verbatim code)
  | .unsupported _ => .ok (defined "unknown")

/-- The expressions of several schemas. -/
def expressAll : List Schema → Except EmitError (List Expr)
  | [] => .ok []
  | schema :: rest => do
    let expr ← definedOr (notated? schema) (expressed false schema)
    let exprs ← expressAll rest
    return expr :: exprs

/-- Several schemas as values of keys: texts in the notation, or expressions. -/
def valueAll : List Schema → Except EmitError (List Expr)
  | [] => .ok []
  | schema :: rest => do
    let expr ← textOr (notated? schema) (expressed false schema)
    let exprs ← valueAll rest
    return expr :: exprs

/-- The fields of an object. The key of a field that may be missing ends in a question mark. -/
def expressFields : List (Field Schema) → Except EmitError (List (String × Expr))
  | [] => .ok []
  | ⟨.text key, schema, true⟩ :: rest => do
    let value ← textOr (notated? schema) (expressed false schema)
    let fields ← expressFields rest
    return (Name.propertyKey key, value) :: fields
  | ⟨.text key, schema, false⟩ :: rest => do
    let definition ← notated? schema.stripNullability
    let expr ← definedOr (.ok definition) (expressed true schema)
    let fields ← expressFields rest
    return (Text.quote (key ++ "?"), orNull schema definition expr) :: fields
  | ⟨_, _, true⟩ :: _ => .error .keyNotText
  | ⟨_, schema, false⟩ :: _ => do
    let _ ← definedOr (notated? schema.stripNullability) (expressed true schema)
    .error .keyNotText

/-- The line that says what becomes of undeclared keys. -/
def expressUndeclared : Undeclared Schema → Except EmitError (String × Expr)
  | .dropped => .ok (Text.quote "+", .text "delete")
  | .marked mark => .ok (Text.quote "+", .text (if mark == keepMark then "ignore" else "delete"))
  | .checked schema => do
    return (Text.quote "[string]", ← textOr (notated? schema) (expressed false schema))

end

def express (schema : Schema) : Except EmitError Expr :=
  definedOr (notated? schema) (expressed false schema)

end ApiSchema.Arktype
