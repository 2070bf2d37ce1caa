/-
# Checks of schema documents

The rules that the definitions of a schema have to keep before a type system is built from them.
-/
import ApiSchema.GraphQL.Grammar
import ApiSchema.GraphQL.TypeSystem

namespace ApiSchema.GraphQL

/-! ## Views of a document -/

/-- A place where directives stand. The directives of a schema or of a type are counted over its
definition and all its extensions together; `owner` says whose they are. -/
structure Site where
  location : String
  owner : Option String
  directives : List Directive
deriving Inhabited

/-- The word for the place of a type's directives. -/
def TypeBody.location : TypeBody → String
  | scalar => "SCALAR"
  | object .. => "OBJECT"
  | interface .. => "INTERFACE"
  | union _ => "UNION"
  | enum _ => "ENUM"
  | input _ => "INPUT_OBJECT"

/-- The word for the place of an operation's directives. -/
def OperationKind.location : OperationKind → String
  | query => "QUERY"
  | mutation => "MUTATION"
  | subscription => "SUBSCRIPTION"

namespace Selection

mutual

def sites : Selection → List Site
  | .field _ _ _ directives none => [⟨"FIELD", none, directives⟩]
  | .field _ _ _ directives (some selections) =>
    ⟨"FIELD", none, directives⟩ :: sitesOfAll selections
  | .spread _ directives => [⟨"FRAGMENT_SPREAD", none, directives⟩]
  | .inline _ directives selections =>
    ⟨"INLINE_FRAGMENT", none, directives⟩ :: sitesOfAll selections

def sitesOfAll : List Selection → List Site
  | [] => []
  | selection :: rest => sites selection ++ sitesOfAll rest

end

mutual

def conditions : Selection → List String
  | .field _ _ _ _ none => []
  | .field _ _ _ _ (some selections) => conditionsOfAll selections
  | .spread .. => []
  | .inline condition _ selections => condition.toList ++ conditionsOfAll selections

def conditionsOfAll : List Selection → List String
  | [] => []
  | selection :: rest => conditions selection ++ conditionsOfAll rest

end

mutual

def fieldArguments : Selection → List (List (String × Literal))
  | .field _ _ arguments _ none => [arguments]
  | .field _ _ arguments _ (some selections) => arguments :: fieldArgumentsOfAll selections
  | .spread .. => []
  | .inline _ _ selections => fieldArgumentsOfAll selections

def fieldArgumentsOfAll : List Selection → List (List (String × Literal))
  | [] => []
  | selection :: rest => fieldArguments selection ++ fieldArgumentsOfAll rest

end

end Selection

/-- The fields of objects and interfaces. -/
def TypeBody.fieldDefinitions : TypeBody → List FieldDefinition
  | object _ fields => fields
  | interface _ fields => fields
  | _ => []

/-- The fields of input objects. -/
def TypeBody.inputValues : TypeBody → List InputValue
  | input fields => fields
  | _ => []

def TypeBody.enumValues : TypeBody → List EnumValue
  | enum values => values
  | _ => []

def TypeBody.fieldNames (body : TypeBody) : List String :=
  body.fieldDefinitions.map (·.name) ++ body.inputValues.map (·.name)

def argumentSites (arguments : List InputValue) : List Site :=
  arguments.map fun argument => ⟨"ARGUMENT_DEFINITION", none, argument.directives⟩

/-- The sites of a type definition. Only in a definition, and not in an extension, input fields are
places of their own. -/
def TypeDefinition.sites (definition : TypeDefinition) (extension : Bool) : List Site :=
  let inputLocation := if extension then "ARGUMENT_DEFINITION" else "INPUT_FIELD_DEFINITION"
  ⟨definition.body.location, some ("type " ++ definition.name), definition.directives⟩ ::
    (definition.body.fieldDefinitions.flatMap fun field =>
      ⟨"FIELD_DEFINITION", none, field.directives⟩ :: argumentSites field.arguments) ++
    (definition.body.enumValues.map fun value => ⟨"ENUM_VALUE", none, value.directives⟩) ++
    (definition.body.inputValues.map fun value => ⟨inputLocation, none, value.directives⟩)

def Definition.sites : Definition → List Site
  | operation o =>
    ⟨o.kind.location, none, o.directives⟩ ::
      (o.variableDefs.map fun v => ⟨"VARIABLE_DEFINITION", none, v.directives⟩) ++
      Selection.sitesOfAll o.selections
  | fragment f => ⟨"FRAGMENT_DEFINITION", none, f.directives⟩ :: Selection.sitesOfAll f.selections
  | schema s => [⟨"SCHEMA", some "schema", s.directives⟩]
  | schemaExtension s => [⟨"SCHEMA", some "schema", s.directives⟩]
  | type t => t.sites false
  | typeExtension t => t.sites true
  | directive d => argumentSites d.arguments

def TypeDefinition.typeNames (definition : TypeDefinition) : List String :=
  (match definition.body with
    | .object interfaces _ => interfaces
    | .interface interfaces _ => interfaces
    | .union members => members
    | _ => []) ++
    (definition.body.fieldDefinitions.flatMap fun field =>
      field.type.baseName :: field.arguments.map (·.type.baseName)) ++
    definition.body.inputValues.map (·.type.baseName)

def Definition.serverTypeNames : Definition → List String
  | schema s => s.roots.map (·.2)
  | schemaExtension s => s.roots.map (·.2)
  | type t => t.typeNames
  | typeExtension t => t.typeNames
  | directive d => d.arguments.map (·.type.baseName)
  | _ => []

def Definition.clientTypeNames : Definition → List String
  | operation o => o.variableDefs.map (·.type.baseName) ++ Selection.conditionsOfAll o.selections
  | fragment f => f.condition :: Selection.conditionsOfAll f.selections
  | _ => []

def Definition.argumentLists : Definition → List (List InputValue)
  | type t => t.body.fieldDefinitions.map (·.arguments)
  | typeExtension t => t.body.fieldDefinitions.map (·.arguments)
  | directive d => [d.arguments]
  | _ => []

def Definition.inputValues : Definition → List InputValue
  | type t => t.body.inputValues ++ t.body.fieldDefinitions.flatMap (·.arguments)
  | typeExtension t => t.body.inputValues ++ t.body.fieldDefinitions.flatMap (·.arguments)
  | directive d => d.arguments
  | _ => []

def Definition.givenArguments (definition : Definition) : List (List (String × Literal)) :=
  (definition.sites.flatMap fun site => site.directives.map (·.arguments)) ++
    (match definition with
      | operation o => Selection.fieldArgumentsOfAll o.selections
      | fragment f => Selection.fieldArgumentsOfAll f.selections
      | _ => [])

def Definition.defaults (definition : Definition) : List Literal :=
  (match definition with
    | operation o => o.variableDefs.filterMap (·.default)
    | _ => []) ++ definition.inputValues.filterMap (·.default)

/-! ## Rules -/

/-- A rule that a schema document breaks. -/
inductive SchemaFault
  | repeatedSchema
  | repeatedRoot
  | repeatedType
  | repeatedEnumValue
  | repeatedField
  | repeatedArgument
  | repeatedDirectiveDefinition
  | unknownType
  | unknownDirective
  | misplacedDirective
  | repeatedDirective
  | impossibleExtension
  | unknownArgument
  | repeatedGivenArgument
  | repeatedInputField
  | missingArgument
  | unfitArgument
deriving DecidableEq, Inhabited

/-- Whether the names are pairwise distinct. -/
def distinct : List String → Bool
  | [] => true
  | name :: rest => !rest.contains name && distinct rest

namespace Literal

mutual

/-- Whether no object in the value has a field twice. -/
def hasDistinctFields : Literal → Bool
  | .list items => haveDistinctFields items
  | .object fields => distinct (fields.map (·.1)) && fieldsHaveDistinctFields fields
  | _ => true

/-- Whether no object in the values has a field twice. -/
def haveDistinctFields : List Literal → Bool
  | [] => true
  | item :: rest => hasDistinctFields item && haveDistinctFields rest

/-- Whether no object in the field values has a field twice. -/
def fieldsHaveDistinctFields : List (String × Literal) → Bool
  | [] => true
  | (_, value) :: rest => hasDistinctFields value && fieldsHaveDistinctFields rest

end

end Literal

/-- The directives that a document need not define. -/
def standardDirectives : List DirectiveDefinition :=
  let condition : InputValue := ⟨"if", .nonNull (.named "Boolean"), none, []⟩
  let reason : InputValue := ⟨"reason", .named "String", none, []⟩
  let url : InputValue := ⟨"url", .nonNull (.named "String"), none, []⟩
  let selections := ["FIELD", "FRAGMENT_SPREAD", "INLINE_FRAGMENT"]
  [⟨"include", [condition], false, selections⟩, ⟨"skip", [condition], false, selections⟩,
    ⟨"deprecated", [reason], false,
      ["FIELD_DEFINITION", "ARGUMENT_DEFINITION", "INPUT_FIELD_DEFINITION", "ENUM_VALUE"]⟩,
    ⟨"specifiedBy", [url], false, ["SCALAR"]⟩, ⟨"oneOf", [], false, ["INPUT_OBJECT"]⟩]

namespace Document

def directiveDefinitions (document : Document) : List DirectiveDefinition :=
  document.filterMap fun
    | .directive d => some d
    | _ => none

/-- The definition of a directive; one in the document goes before a standard one. -/
def directive? (document : Document) (name : String) : Option DirectiveDefinition :=
  (document.directiveDefinitions.reverse ++ standardDirectives).find? (·.name == name)

def typeDefinitions (document : Document) : List TypeDefinition :=
  document.filterMap fun
    | .type t => some t
    | _ => none

def typeExtensions (document : Document) : List TypeDefinition :=
  document.filterMap fun
    | .typeExtension t => some t
    | _ => none

def schemaDefinitions (document : Document) : List SchemaDefinition :=
  document.filterMap fun
    | .schema s => some s
    | _ => none

def schemaExtensions (document : Document) : List SchemaDefinition :=
  document.filterMap fun
    | .schemaExtension s => some s
    | _ => none

def sites (document : Document) : List Site := document.flatMap (·.sites)

/-- For each type, the names that its definition and its extensions list. -/
def namesByType (document : Document) (names : TypeBody → List String) : List (List String) :=
  let all := document.typeDefinitions ++ document.typeExtensions
  (all.map (·.name)).eraseDups.map fun type =>
    (all.filter (·.name == type)).flatMap fun definition => names definition.body

/-- Whether an extension is of a type that the document defines, and of the same kind. -/
def extensionFits (document : Document) (extension : TypeDefinition) : Bool :=
  match document.typeDefinitions.find? (·.name == extension.name) with
  | some definition => definition.body.location == extension.body.location
  | none => false

def hasRequired (document : Document) (directive : Directive) : Bool :=
  match document.directive? directive.name with
  | none => true
  | some definition =>
    definition.arguments.all fun argument =>
      !(argument.type.isNonNull && argument.default.isNone) ||
        directive.arguments.any (·.1 == argument.name)

/-- Whether a directive is given only arguments that it has. -/
def hasKnownArguments (document : Document) (directive : Directive) : Bool :=
  match document.directive? directive.name with
  | none => true
  | some definition =>
    directive.arguments.all fun (name, _) => definition.arguments.any (·.name == name)

/-- Whether a name is of a directive that may stand once only. -/
def isSingle (document : Document) (name : String) : Bool :=
  match document.directive? name with
  | none => false
  | some definition => !definition.repeatable

/-- The directives that may stand once only, for each place at which they are counted. -/
def singleDirectives (document : Document) : List (List String) :=
  let single (site : Site) :=
    (site.directives.map (·.name)).filter document.isSingle
  let owned := document.sites.filter (·.owner.isSome)
  (document.sites.filter (·.owner.isNone)).map single ++
    (owned.map (·.owner)).eraseDups.map fun owner =>
      (owned.filter (·.owner == owner)).flatMap single

/-- Whether the references of a definition are to known types. Only a server definition may refer
to types that need no definition. -/
def knowsTypes (document : Document) (definition : Definition) : Bool :=
  let defined (name : String) := document.typeDefinitions.any (·.name == name)
  definition.serverTypeNames.all (fun name => defined name || (standardType? name).isSome) &&
    definition.clientTypeNames.all defined

def mayStand (document : Document) (location : String) (directive : Directive) : Bool :=
  match document.directive? directive.name with
  | none => true
  | some definition => definition.locations.contains location

/-- Whether the argument of a standard directive fits at a site, if the directive is there: it has
to be a text. A nullable one may also be null or missing. -/
def fits (directive argument : String) (nullable : Bool) (site : Site) : Bool :=
  match site.directives.find? (·.name == directive) with
  | none => true
  | some found =>
    match found.arguments.lookup argument with
    | some .text => true
    | some .null => nullable
    | some _ => false
    | none => nullable

/-- Whether a type system takes nothing from a definition, because its name is that of a standard
type. -/
def isIdle : Definition → Bool
  | .type t => (standardType? t.name).isSome
  | .typeExtension t => (standardType? t.name).isSome
  | _ => false

/-- The sites from which a type system takes reasons for a deprecation. -/
def reasonSites (document : Document) : List Site :=
  (document.filter (!isIdle ·)).flatMap fun definition => definition.sites.filter fun site =>
    ["FIELD_DEFINITION", "ARGUMENT_DEFINITION", "INPUT_FIELD_DEFINITION", "ENUM_VALUE"].contains
      site.location

/-- The sites from which a type system takes addresses of specifications. -/
def addressSites (document : Document) : List Site :=
  (document.typeDefinitions.filter fun t => (standardType? t.name).isNone).flatMap fun definition =>
    (definition.sites false).filter (·.location == "SCALAR")

/-- The rules, each with the fault of breaking it. -/
def rules (document : Document) : List (Bool × SchemaFault) :=
  let directives := document.sites.flatMap (·.directives)
  let given := document.flatMap (·.givenArguments)
  let roots := (document.schemaDefinitions ++ document.schemaExtensions).flatMap (·.roots)
  [(document.schemaDefinitions.length ≤ 1, .repeatedSchema),
    (distinct (roots.map (·.1.name)), .repeatedRoot),
    (distinct (document.typeDefinitions.map (·.name)), .repeatedType),
    ((document.namesByType fun body => body.enumValues.map (·.name)).all distinct,
      .repeatedEnumValue),
    ((document.namesByType (·.fieldNames)).all distinct, .repeatedField),
    ((document.flatMap (·.argumentLists)).all (fun list => distinct (list.map (·.name))),
      .repeatedArgument),
    (distinct (document.directiveDefinitions.map (·.name)), .repeatedDirectiveDefinition),
    (document.all document.knowsTypes, .unknownType),
    (directives.all (fun d => (document.directive? d.name).isSome), .unknownDirective),
    (document.sites.all (fun site => site.directives.all (document.mayStand site.location)),
      .misplacedDirective),
    (document.singleDirectives.all distinct, .repeatedDirective),
    (document.typeExtensions.all document.extensionFits, .impossibleExtension),
    (directives.all document.hasKnownArguments, .unknownArgument),
    (given.all (fun list => distinct (list.map (·.1))), .repeatedGivenArgument),
    ((given.flatMap (·.map (·.2)) ++ document.flatMap (·.defaults)).all
      Literal.hasDistinctFields, .repeatedInputField),
    (directives.all document.hasRequired, .missingArgument),
    (document.reasonSites.all (fits "deprecated" "reason" true) &&
      document.addressSites.all (fits "specifiedBy" "url" false), .unfitArgument)]

/-- The first rule that the document breaks. -/
def fault? (document : Document) : Option SchemaFault :=
  (document.rules.find? (!·.1)).map (·.2)

end Document

/-! ## Building a type system -/

/-- The kind of a type from its definition and its extensions. -/
def TypeBody.merged (body : TypeBody) (extensions : List TypeBody) : TypeKind :=
  let bodies := body :: extensions
  let fields := bodies.flatMap fun b => b.fieldDefinitions.map fun field => (field.name, field.type)
  match body with
  | scalar => .scalar
  | object .. => .object fields
  | interface .. => .interface fields
  | union _ => .union
  | enum _ => .enum (bodies.flatMap fun b => b.enumValues.map (·.name))
  | input _ =>
    .input (bodies.flatMap fun b =>
      b.inputValues.map fun value => ⟨value.name, value.type, value.default.isSome⟩)

namespace TypeSystem

/-- The types of a document: the defined ones, the standard scalars that it refers to, and the ones
that are always there. A standard type cannot be redefined. -/
def typesOf (document : Document) : List NamedType :=
  let defined := document.typeDefinitions.map fun definition =>
    let extensions := document.typeExtensions.filter (·.name == definition.name)
    (standardType? definition.name).getD
      ⟨definition.name, definition.body.merged (extensions.map (·.body))⟩
  let mentioned := (document.flatMap (·.serverTypeNames)).filterMap standardType?
  defined ++ commonTypes ++ mentioned

/-- The root of a kind of operation: with a schema definition what it and its extensions say, and
without one the type of the usual name, or else what an extension says. -/
def rootOf (document : Document) (types : List NamedType) (kind : OperationKind) (usual : String) :
    Option String :=
  let stated :=
    (((document.schemaDefinitions ++ document.schemaExtensions).flatMap (·.roots)).find?
      (·.1 == kind)).map (·.2)
  if document.schemaDefinitions.isEmpty && types.any (·.name == usual) then some usual else stated

/-- The type system of a document that keeps the rules. -/
def ofDocument (document : Document) : Except SchemaFault TypeSystem :=
  match document.fault? with
  | some fault => .error fault
  | none =>
    let types := typesOf document
    .ok ⟨types, rootOf document types .query "Query", rootOf document types .mutation "Mutation"⟩

end TypeSystem

end ApiSchema.GraphQL
