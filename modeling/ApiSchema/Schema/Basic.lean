/-
# Schemas

A schema describes a set of values independently of any validator library. Named schemas are
entries; an entry records the names its schema depends on.
-/
import ApiSchema.Value.Basic

namespace ApiSchema

/-! ## Schemas -/

/-- A well-known text format. A format that no library knows is kept by its name. -/
inductive Format
  | email
  | url
  | uuid
  | datetime
  | date
  | time
  | ipv4
  | ipv6
  | other (name : String)
deriving DecidableEq, Inhabited

namespace Format

/-- The formats that have a meaning, by name. -/
def known : List (String × Format) :=
  [("email", email), ("url", url), ("uuid", uuid), ("datetime", datetime), ("date", date),
    ("time", time), ("ipv4", ipv4), ("ipv6", ipv6)]

/-- The format of a name. -/
def ofName (name : String) : Format := (known.lookup name).getD (other name)

def name : Format → String
  | email => "email"
  | url => "url"
  | uuid => "uuid"
  | datetime => "datetime"
  | date => "date"
  | time => "time"
  | ipv4 => "ipv4"
  | ipv6 => "ipv6"
  | other name => name

end Format

/-- The schemas without parameters. -/
inductive Keyword
  | boolean
  | bigint
  | null
  | undefined
  | unknown
  | never
  | date
deriving DecidableEq, Inhabited

def Keyword.name : Keyword → String
  | boolean => "boolean"
  | bigint => "bigint"
  | null => "null"
  | undefined => "undefined"
  | unknown => "unknown"
  | never => "never"
  | date => "date"

/-- A declared key of an object. -/
structure Field (α : Type) where
  key : Atom
  schema : α
  required : Bool
deriving Inhabited

/-- What becomes of the keys that an object does not declare: they are dropped, treated as a mark
says, or checked against a schema. -/
inductive Undeclared (α : Type)
  | dropped
  | marked (mark : String)
  | checked (schema : α)
deriving Inhabited

def keepMark : String := "passthrough"

namespace Undeclared

/-- Undeclared keys are kept. -/
def kept {α : Type} : Undeclared α := marked keepMark

def isKept {α : Type} : Undeclared α → Bool
  | marked mark => mark == keepMark
  | _ => false

end Undeclared

/-- A description of a set of values. A schema of kind `unsupported` has no form in any validator
library. -/
inductive Schema
  | string (format : Option Format)
  | number (integer : Bool)
  | keyword (word : Keyword)
  | object (fields : List (Field Schema)) (undeclared : Undeclared Schema) (spreads : List String)
  | array (items : Schema)
  | tuple (items : List Schema)
  | record (key value : Schema)
  | enumeration (values : List Value)
  | literal (value : Value)
  | union (members : List Schema)
  | intersection (members : List Schema)
  | ref (name : String)
  | raw (code : String)
  | unsupported (kind : String)
deriving Inhabited

namespace Schema

def text : Schema := string none

/-- Any value. -/
def unknown : Schema := keyword .unknown

/-- Null alone. -/
def null : Schema := keyword .null

/-- The undefined value alone. -/
def undefined : Schema := keyword .undefined

def isObject : Schema → Bool
  | object .. => true
  | _ => false

/-- The fragment entries whose fields an object merges. -/
def spreads : Schema → List String
  | object _ _ spreads => spreads
  | _ => []

def isNull : Schema → Bool
  | keyword .null => true
  | _ => false

def isUndefined : Schema → Bool
  | keyword .undefined => true
  | _ => false

/-- The schema, or null. -/
def nullable (schema : Schema) : Schema := union [schema, null]

/-- The schema, or the undefined value. -/
def orUndefined (schema : Schema) : Schema := union [schema, undefined]

/-- The schema, null, or the undefined value. -/
def nullish (schema : Schema) : Schema := union [schema, null, undefined]

end Schema

/-! ## Entries -/

/-- The role of an entry. -/
inductive Category
  | component
  | enum
  | input
  | fragment
  | operationVariables
  | response
  | params
  | other (name : String)
deriving DecidableEq, Inhabited

namespace Category

/-- The roles with a meaning, by name. -/
def known : List (String × Category) :=
  [("component", component), ("enum", enum), ("input", input), ("fragment", fragment),
    ("variables", operationVariables), ("response", response), ("params", params)]

def ofName (name : String) : Category := (known.lookup name).getD (other name)

def name : Category → String
  | component => "component"
  | enum => "enum"
  | input => "input"
  | fragment => "fragment"
  | operationVariables => "variables"
  | response => "response"
  | params => "params"
  | other name => name

end Category

/-- A named schema with the names it depends on. -/
structure Entry where
  name : String
  schema : Schema
  dependencies : List String
  category : Category
deriving Inhabited

/-- Entries in an order fit for a module, and what was noticed on the way. -/
structure Catalog where
  entries : List Entry
  warnings : List String
deriving Inhabited

def Catalog.find? (catalog : Catalog) (name : String) : Option Entry :=
  catalog.entries.find? (·.name == name)

end ApiSchema
