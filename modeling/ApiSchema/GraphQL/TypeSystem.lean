/-
# Type systems

The types that documents are read against. Every type system knows the scalars `String` and
`Boolean` and the types that describe type systems themselves.
-/
import ApiSchema.GraphQL.Syntax

namespace ApiSchema.GraphQL

/-! ## Named types -/

/-- An input field; a default makes no difference to its type. -/
structure InputField where
  name : String
  type : TypeRef
  hasDefault : Bool
deriving DecidableEq, Inhabited

/-- What a named type is; fields are given by name and type. -/
inductive TypeKind
  | scalar
  | object (fields : List (String × TypeRef))
  | interface (fields : List (String × TypeRef))
  | union
  | enum (values : List String)
  | input (fields : List InputField)
deriving DecidableEq, Inhabited

structure NamedType where
  name : String
  kind : TypeKind
deriving DecidableEq, Inhabited

namespace NamedType

def isObject (type : NamedType) : Bool :=
  match type.kind with
  | .object _ => true
  | _ => false

/-- Whether the type stands for several objects. -/
def isAbstract (type : NamedType) : Bool :=
  match type.kind with
  | .interface _ => true
  | .union => true
  | _ => false

def isUnion (type : NamedType) : Bool :=
  match type.kind with
  | .union => true
  | _ => false

/-- Whether something can be selected on the type. -/
def isComposite (type : NamedType) : Bool := type.isObject || type.isAbstract

def isEnum (type : NamedType) : Bool :=
  match type.kind with
  | .enum _ => true
  | _ => false

def isInput (type : NamedType) : Bool :=
  match type.kind with
  | .input _ => true
  | _ => false

def inputFields (type : NamedType) : List InputField :=
  match type.kind with
  | .input fields => fields
  | _ => []

/-- The type of a field of an object, an interface or an input object. -/
def fieldType? (type : NamedType) (field : String) : Option TypeRef :=
  match type.kind with
  | .object fields => fields.lookup field
  | .interface fields => fields.lookup field
  | .input fields => (fields.find? (·.name == field)).map (·.type)
  | _ => none

end NamedType

/-! ## Type systems -/

/-- The named types of a schema and the types at which operations start. -/
structure TypeSystem where
  types : List NamedType
  query : Option String
  mutation : Option String
deriving Inhabited

namespace TypeSystem

def type? (system : TypeSystem) (name : String) : Option NamedType :=
  system.types.find? (·.name == name)

/-- The type at which operations of a kind start. -/
def root? (system : TypeSystem) : OperationKind → Option NamedType
  | .mutation => system.mutation.bind system.type?
  | _ => system.query.bind system.type?

end TypeSystem

/-! ## Types that are always there -/

/-- The scalars that a schema need not define. -/
def standardScalars : List String := ["Int", "Float", "String", "Boolean", "ID"]

/-- A type that excludes null. -/
def required (name : String) : TypeRef := .nonNull (.named name)

/-- A list without nulls that may itself be null. -/
def listOf (name : String) : TypeRef := .list (required name)

/-- A list without nulls. -/
def requiredListOf (name : String) : TypeRef := .nonNull (listOf name)

/-- The types that describe a type system. -/
def introspectionTypes : List NamedType :=
  [⟨"__Schema", .object
      [("description", .named "String"), ("types", requiredListOf "__Type"),
        ("queryType", required "__Type"), ("mutationType", .named "__Type"),
        ("subscriptionType", .named "__Type"), ("directives", requiredListOf "__Directive")]⟩,
    ⟨"__Directive", .object
      [("name", required "String"), ("description", .named "String"),
        ("isRepeatable", required "Boolean"), ("locations", requiredListOf "__DirectiveLocation"),
        ("args", requiredListOf "__InputValue")]⟩,
    ⟨"__DirectiveLocation", .enum
      ["QUERY", "MUTATION", "SUBSCRIPTION", "FIELD", "FRAGMENT_DEFINITION", "FRAGMENT_SPREAD",
        "INLINE_FRAGMENT", "VARIABLE_DEFINITION", "SCHEMA", "SCALAR", "OBJECT",
        "FIELD_DEFINITION", "ARGUMENT_DEFINITION", "INTERFACE", "UNION", "ENUM", "ENUM_VALUE",
        "INPUT_OBJECT", "INPUT_FIELD_DEFINITION"]⟩,
    ⟨"__Type", .object
      [("kind", required "__TypeKind"), ("name", .named "String"),
        ("description", .named "String"), ("specifiedByURL", .named "String"),
        ("fields", listOf "__Field"), ("interfaces", listOf "__Type"),
        ("possibleTypes", listOf "__Type"), ("enumValues", listOf "__EnumValue"),
        ("inputFields", listOf "__InputValue"), ("ofType", .named "__Type"),
        ("isOneOf", .named "Boolean")]⟩,
    ⟨"__Field", .object
      [("name", required "String"), ("description", .named "String"),
        ("args", requiredListOf "__InputValue"), ("type", required "__Type"),
        ("isDeprecated", required "Boolean"), ("deprecationReason", .named "String")]⟩,
    ⟨"__InputValue", .object
      [("name", required "String"), ("description", .named "String"),
        ("type", required "__Type"), ("defaultValue", .named "String"),
        ("isDeprecated", required "Boolean"), ("deprecationReason", .named "String")]⟩,
    ⟨"__EnumValue", .object
      [("name", required "String"), ("description", .named "String"),
        ("isDeprecated", required "Boolean"), ("deprecationReason", .named "String")]⟩,
    ⟨"__TypeKind", .enum
      ["SCALAR", "OBJECT", "INTERFACE", "UNION", "ENUM", "INPUT_OBJECT", "LIST", "NON_NULL"]⟩]

/-- The types that every type system knows. -/
def commonTypes : List NamedType :=
  ⟨"String", .scalar⟩ :: ⟨"Boolean", .scalar⟩ :: introspectionTypes

/-- A type that a schema need not define. -/
def standardType? (name : String) : Option NamedType :=
  if standardScalars.contains name then some ⟨name, .scalar⟩
  else introspectionTypes.find? (·.name == name)

end ApiSchema.GraphQL
