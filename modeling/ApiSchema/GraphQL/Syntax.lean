/-
# GraphQL documents

The definitions that a document is made of: operations and fragments of a client, types, directives
and roots of a server, and extensions of these. Descriptions and the contents of numbers and texts
are left out.
-/

namespace ApiSchema.GraphQL

/-! ## Types and values -/

inductive TypeRef
  | named (name : String)
  | list (item : TypeRef)
  | nonNull (inner : TypeRef)
deriving DecidableEq, Inhabited

namespace TypeRef

/-- The named type inside a reference. -/
def baseName : TypeRef → String
  | named name => name
  | list item => item.baseName
  | nonNull inner => inner.baseName

/-- Whether null is excluded. -/
def isNonNull : TypeRef → Bool
  | nonNull _ => true
  | _ => false

end TypeRef

/-- A value as it is written; a reference is to a variable. -/
inductive Literal
  | reference (name : String)
  | number
  | text
  | boolean
  | null
  | enum (name : String)
  | list (items : List Literal)
  | object (fields : List (String × Literal))
deriving Inhabited

structure Directive where
  name : String
  arguments : List (String × Literal)
deriving Inhabited

/-! ## Client definitions -/

/-- A selection: a field, the spread of a fragment, or selections under a type condition. -/
inductive Selection
  | field (responseName : Option String) (name : String) (arguments : List (String × Literal))
      (directives : List Directive) (selections : Option (List Selection))
  | spread (fragment : String) (directives : List Directive)
  | inline (condition : Option String) (directives : List Directive)
      (selections : List Selection)
deriving Inhabited

inductive OperationKind
  | query
  | mutation
  | subscription
deriving DecidableEq, Inhabited

def OperationKind.name : OperationKind → String
  | query => "query"
  | mutation => "mutation"
  | subscription => "subscription"

structure Variable where
  name : String
  type : TypeRef
  default : Option Literal
  directives : List Directive
deriving Inhabited

structure Operation where
  kind : OperationKind
  name : Option String
  variableDefs : List Variable
  directives : List Directive
  selections : List Selection
deriving Inhabited

/-- A fragment: selections on a type, under a name. -/
structure Fragment where
  name : String
  condition : String
  directives : List Directive
  selections : List Selection
deriving Inhabited

/-! ## Server definitions -/

/-- An argument or an input field. -/
structure InputValue where
  name : String
  type : TypeRef
  default : Option Literal
  directives : List Directive
deriving Inhabited

/-- A field of an object or interface. -/
structure FieldDefinition where
  name : String
  arguments : List InputValue
  type : TypeRef
  directives : List Directive
deriving Inhabited

structure EnumValue where
  name : String
  directives : List Directive
deriving Inhabited

/-- What a type is made of. -/
inductive TypeBody
  | scalar
  | object (interfaces : List String) (fields : List FieldDefinition)
  | interface (interfaces : List String) (fields : List FieldDefinition)
  | union (members : List String)
  | enum (values : List EnumValue)
  | input (fields : List InputValue)
deriving Inhabited

structure TypeDefinition where
  name : String
  directives : List Directive
  body : TypeBody
deriving Inhabited

/-- The root types of a schema, or an extension of them. -/
structure SchemaDefinition where
  directives : List Directive
  roots : List (OperationKind × String)
deriving Inhabited

structure DirectiveDefinition where
  name : String
  arguments : List InputValue
  repeatable : Bool
  locations : List String
deriving Inhabited

/-! ## Documents -/

inductive Definition
  | operation (operation : Operation)
  | fragment (fragment : Fragment)
  | schema (definition : SchemaDefinition)
  | schemaExtension (definition : SchemaDefinition)
  | type (definition : TypeDefinition)
  | typeExtension (definition : TypeDefinition)
  | directive (definition : DirectiveDefinition)
deriving Inhabited

abbrev Document := List Definition

end ApiSchema.GraphQL
