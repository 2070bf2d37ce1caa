/-
# Schemas of documents

The schema that a part of a document describes. A part that is a named component is described by a
reference to the component, wherever it stands.
-/
import ApiSchema.OpenApi.Operation
import ApiSchema.Schema.Nullability
import ApiSchema.Schema.Order

namespace ApiSchema.OpenApi

/-! ## Components -/

/-- A document and the components in it. -/
structure Setting where
  graph : Graph
  /-- The parts under the names of components. -/
  components : List (Atom × Item)
deriving Inhabited

namespace Setting

def of (graph : Graph) : Reading Setting := do
  let components ← field graph graph.root "components"
  let schemas ← if graph.isBlank components then pure .null else field graph components "schemas"
  return ⟨graph, ← entriesOf graph schemas⟩

/-- The first name of a component; null is no name. -/
def componentName? (setting : Setting) (item : Item) : Option Atom :=
  ((setting.components.find? (·.2 == item)).map (·.1)).filter (· != .null)

def component (setting : Setting) (name : String) : Item :=
  (Assoc.get? setting.components (.text name)).getD .null

end Setting

/-- The name of a component as that of an entry, which is a text. A document can give a component a
key that is no text, such as a number: what refers to this component has no schema here, and no
catalog with it comes about. -/
def entryName : Atom → Reading String
  | .text name => .ok name
  | _ => .error .componentNotText

/-! ## Reachable components -/

/-- The maps that were entered, and the components among them in the order in which they were met.
-/
structure Reached where
  seen : List Nat
  used : List String
deriving Inhabited

/-- Notes the component that a map is. -/
def Reached.meet (reached : Reached) (setting : Setting) (item : Item) : Reading Reached := do
  match setting.componentName? item with
  | none => return reached
  | some name =>
    let name ← entryName name
    if reached.used.contains name then return reached
    else return { reached with used := reached.used ++ [name] }

/-- Goes through a part and the schemas inside it: items, properties, further properties, and
members of combinations. The first argument bounds the depth, which never exceeds the number of
maps. -/
def reach (setting : Setting) : Nat → Reached → Item → Reading Reached
  | 0, reached, _ => .ok reached
  | _, reached, .atom _ => .ok reached
  | fuel + 1, reached, .node id =>
    let graph := setting.graph
    let schema := Item.node id
    if !graph.isMap schema || reached.seen.contains id then .ok reached
    else do
      let reached ← Reached.meet { reached with seen := id :: reached.seen } setting schema
      let items ← field graph schema "items"
      let reached ← if graph.isMap items then reach setting fuel reached items else pure reached
      let properties ← entriesOf graph (← field graph schema "properties")
      let reached ← (properties.map (·.2)).foldlM (reach setting fuel) reached
      let further ← field graph schema "additionalProperties"
      let reached ← if graph.isMap further then reach setting fuel reached further else pure reached
      ["allOf", "oneOf", "anyOf"].foldlM
        (fun reached key => do
          (← optionalItemsOf graph (← field graph schema key)).foldlM (reach setting fuel) reached)
        reached

/-! ## Building -/

/-- The entries so far, the names that are taken, the components that are referred to and have no
entry yet, and the warnings. -/
structure Progress where
  entries : List Entry
  taken : List String
  pending : List String
  warnings : List String
deriving Inhabited

namespace Progress

/-- Nothing done. -/
def start : Progress := ⟨[], [], [], []⟩

/-- Notes a warning, each text once. -/
def warn (progress : Progress) (text : String) : Progress :=
  if progress.warnings.contains text then progress
  else { progress with warnings := progress.warnings ++ [text] }

def take (progress : Progress) (name : String) : Progress :=
  if progress.taken.contains name then progress
  else { progress with taken := progress.taken ++ [name] }

def add (progress : Progress) (name : String) (schema : Schema) (category : Category) : Progress :=
  { progress.take name with entries := progress.entries ++ [Entry.of name schema category []] }

/-- Queues a component that has no entry. -/
def ensure (progress : Progress) (name : String) : Progress :=
  if progress.taken.contains name || progress.pending.contains name then progress
  else { progress with pending := progress.pending ++ [name] }

end Progress

/-- A step in the making of a catalog. -/
abbrev Builder := StateT Progress Reading

/-- The schema of a part, given the schemas of the parts inside it. -/
abbrev Converter := Item → Builder Schema

/-! ## Types -/

/-- The formats of texts by the names that documents give them. -/
def formatNames : List (String × Format) :=
  [("date-time", .datetime), ("date", .date), ("time", .time), ("email", .email), ("uri", .url),
    ("url", .url), ("uuid", .uuid), ("ipv4", .ipv4), ("ipv6", .ipv6)]

/-- The types that a schema allows besides null: one, which may be missing, or several. -/
inductive Types
  | one (type : Item)
  | several (types : List Item)
deriving Inhabited

/-- The types that a schema allows, and whether null is among them. A list inside a list of one is
taken as the list. -/
def typesOf (graph : Graph) (type : Item) : Types × Bool :=
  match graph.list? type with
  | none => (.one type, false)
  | some types =>
    let nullable := types.any (·.isText "null")
    match types.filter (!·.isText "null") with
    | [] => (.one .null, nullable)
    | [type] => (((graph.list? type).map Types.several).getD (.one type), nullable)
    | types => (.several types, nullable)

/-- The key that is required; a tuple of keys is none. -/
def requiredKey (graph : Graph) (item : Item) : Reading (Option Atom) := do
  match graph.node? item with
  | some (.tuple items) =>
    items.forM fun item => discard (keyOf item)
    return none
  | _ => return some (← keyOf item)

def requiredKeys (graph : Graph) (schema : Item) : Reading (List Atom) := do
  let items ← optionalItemsOf graph (← field graph schema "required")
  return (← items.mapM (requiredKey graph)).reduceOption

def isTrue : Item → Bool
  | .atom (.bool b) => b
  | _ => false

def propertyFields (convert : Converter) (required : List Atom) (properties : List (Atom × Item)) :
    Builder (List (Field Schema)) :=
  properties.mapM fun (key, property) =>
    return ⟨key, ← convert property, required.any (· == key)⟩

/-- The schema of an object: with properties of its own, or with any keys. -/
def objectSchema (setting : Setting) (convert : Converter) (schema : Item) : Builder Schema := do
  let graph := setting.graph
  let properties ← field graph schema "properties"
  let further ← field graph schema "additionalProperties"
  if graph.isBlank properties && (isTrue further || graph.isMap further) then
    let value ←
      if graph.isMap further && !graph.isBlank further then convert further
      else pure .unknown
    return .record .text value
  else
    let required ← requiredKeys graph schema
    let fields ← propertyFields convert required (← entriesOf graph properties)
    if isTrue further || (graph.isMap further && graph.isBlank further) then
      return .object fields .kept []
    else if graph.isMap further then return .object fields (.checked (← convert further)) []
    else return .object fields .dropped []

/-- The schema of an array: a tuple where each position has a schema. -/
def arraySchema (setting : Setting) (convert : Converter) (schema : Item) : Builder Schema := do
  let graph := setting.graph
  match graph.get? schema "prefixItems" with
  | some positions => return .tuple (← (← itemsOf graph positions).mapM convert)
  | none =>
    let items ← field graph schema "items"
    if graph.isMap items then return .array (← convert items) else return .array .unknown

def textSchema (setting : Setting) (schema : Item) : Builder Schema := do
  match ← keyOf (← field setting.graph schema "format") with
  | .text name => return .string (formatNames.lookup name)
  | _ => return .string none

/-- The schema of a part for one type. Without a known type, properties make it an object. -/
def typedSchema (setting : Setting) (convert : Converter) (schema type : Item) :
    Builder Schema := do
  let graph := setting.graph
  let other : Builder Schema := do
    if (graph.get? schema "properties").isSome ||
        (graph.get? schema "additionalProperties").isSome then
      objectSchema setting convert schema
    else
      if !type.isNull then
        let name ← shown graph type
        modify (·.warn ("Unsupported schema type \"" ++ name ++ "\", using unknown"))
      return .unknown
  match type.text? with
  | some "string" => textSchema setting schema
  | some "number" => return .number false
  | some "integer" => return .number true
  | some "boolean" => return .keyword .boolean
  | some "null" => return .null
  | some "array" => arraySchema setting convert schema
  | some "object" => objectSchema setting convert schema
  | _ => other

/-- The schema of an enumeration; null among its members makes it nullable. -/
def enumSchema (graph : Graph) (members : Item) : Reading Schema := do
  let unsearchable := match members with
    | .atom (.text _) => true
    | .atom (.bytes _) => true
    | _ => false
  if unsearchable then .error .enumIsText
  else
    let items ← itemsOf graph members
    let schema := Schema.enumeration ((items.filter (!·.isNull)).map graph.toValue)
    return if items.any (·.isNull) then schema.nullable else schema

/-- A single schema as it is, and several joined. -/
def joined (join : List Schema → Schema) : List Schema → Schema
  | [schema] => schema
  | schemas => join schemas

/-- The schema of a part apart from its nullability: a constant, an enumeration, a combination, or
what its types say, whichever comes first. -/
def bareSchema (setting : Setting) (convert : Converter) (schema : Item) (types : Types) :
    Builder Schema := do
  let graph := setting.graph
  match graph.get? schema "const" with
  | some value => return if value.isNull then .null else .literal (graph.toValue value)
  | none =>
    match graph.get? schema "enum" with
    | some members => enumSchema graph members
    | none =>
      match graph.get? schema "allOf" with
      | some members => return joined .intersection (← (← itemsOf graph members).mapM convert)
      | none =>
        match (graph.get? schema "oneOf").orElse fun _ => graph.get? schema "anyOf" with
        | some members => return joined .union (← (← itemsOf graph members).mapM convert)
        | none =>
          match types with
          | .several types => return .union (← types.mapM (typedSchema setting convert schema))
          | .one type => typedSchema setting convert schema type

/-! ## Conversion -/

/-- The schema of a part in full, also if it is a component. -/
def fullSchema (setting : Setting) (convert : Converter) (schema : Item) : Builder Schema := do
  let graph := setting.graph
  let (types, withNull) := typesOf graph (← field graph schema "type")
  let nullable := !graph.isBlank (← field graph schema "nullable") || withNull
  let bare ← bareSchema setting convert schema types
  return if nullable && !bare.acceptsNull then bare.nullable else bare

/-- A reference to a component, which is queued if it has no entry. -/
def refer (name : Atom) : Builder Schema := do
  let name ← entryName name
  modify (·.ensure name)
  return .ref name

/-- The schema of a part: a reference if it is a component other than `current`. Parts nested deeper
than the first argument says contain themselves, if it is more than the number of maps. -/
def convert (setting : Setting) : Nat → Option String → Item → Builder Schema
  | 0, _, _ => throw .endless
  | fuel + 1, current, schema => do
    if !setting.graph.isMap schema then return .unknown
    else
      match setting.componentName? schema with
      | some name =>
        if current.map Atom.text == some name then
          fullSchema setting (convert setting fuel none) schema
        else refer name
      | none => fullSchema setting (convert setting fuel none) schema

def schemaOf (setting : Setting) (current : Option String) (schema : Item) : Builder Schema :=
  convert setting (setting.graph.maps.length + 2) current schema

end ApiSchema.OpenApi
