/-
# Catalogs of API documents

One entry for each component that is used, and for the request, the response and the parameters of
each operation.
-/
import ApiSchema.Name
import ApiSchema.OpenApi.Convert

namespace ApiSchema.OpenApi

/-! ## Components -/

/-- Adds the entry of a component, unless its name is taken. -/
def addComponent (setting : Setting) (name : String) : Builder Unit := do
  if (← get).taken.contains name then return
  else
    modify (·.take name)
    let schema ← schemaOf setting (some name) (setting.component name)
    modify (·.add name schema .component)

/-- Adds the entries of queued components until none is left. Every component is queued at most
once, so their number bounds the number of rounds. -/
def addPending (setting : Setting) : Nat → Builder Unit
  | 0 => do
    if (← get).pending.isEmpty then return else throw .endless
  | fuel + 1 => do
    match (← get).pending with
    | [] => return
    | name :: rest =>
      modify fun progress => { progress with pending := rest }
      addComponent setting name
      addPending setting fuel

/-! ## Operations -/

def Operation.parameters (operation : Operation) : List Item :=
  operation.pathParameters ++ operation.queryParameters

/-- The schemas of an operation: request, response, parameters. -/
def Operation.schemas (graph : Graph) (operation : Operation) : List Item :=
  operation.request :: operation.response ::
    operation.parameters.filterMap fun parameter => graph.get? parameter "schema"

/-- Adds the entry for a part of an operation, if there is one and the name is not taken. -/
def addPart (setting : Setting) (name : String) (part : Item) (category : Category) :
    Builder Unit := do
  if part.isNull || (← get).taken.contains name then return
  else
    let schema ← schemaOf setting none part
    modify (·.add name schema category)

/-- The field for a parameter. One that is part of the path always has to be there. -/
def parameterField (setting : Setting) (parameter : Item) :
    Builder (Atom × Schema × Bool) := do
  let graph := setting.graph
  let schema ← field graph parameter "schema"
  let schema ← if graph.isMap schema then schemaOf setting none schema else pure .unknown
  let required := !graph.isBlank (← field graph parameter "required")
  match graph.get? parameter "name" with
  | none => throw .nameMissing
  | some name => return (← keyOf name, schema, isIn graph "path" parameter || required)

def addParameters (setting : Setting) (name : String) (parameters : List Item) :
    Builder Unit := do
  if parameters.isEmpty || (← get).taken.contains name then return
  else
    let fields := Assoc.ofList (← parameters.mapM (parameterField setting))
    let fields := fields.map fun (key, schema, required) => Field.mk key schema required
    modify (·.add name (.object fields .dropped []) .params)

/-- The start of the names of an operation's entries. -/
def Operation.entryBase (operation : Operation) : Reading String :=
  match operation.id with
  | .atom (.text id) => .ok (Name.pascalCase id)
  | _ => .error .idNotText

def addOperation (setting : Setting) (operation : Operation) : Builder Unit := do
  let base ← operation.entryBase
  addPart setting (base ++ "Request") operation.request .input
  addPart setting (base ++ "Response") operation.response .response
  addParameters setting (base ++ "Params") operation.parameters

/-! ## Catalogs -/

/-- The operations with certain names; without a list all of them. -/
def selectOperations (ids : Option (List String)) (operations : List Operation) :
    Reading (List Operation) :=
  match ids with
  | none => .ok operations
  | some ids =>
    operations.filterM fun operation => do
      match ← keyOf operation.id with
      | .text id => return ids.contains id
      | _ => return false

def usedComponents (setting : Setting) (operations : List Operation) : Reading (List String) := do
  let reached ← (operations.flatMap (·.schemas setting.graph)).foldlM
    (reach setting (setting.graph.maps.length + 1)) ⟨[], []⟩
  return reached.used

/-- Adds all entries: components that operations lead to, operations, and components that have only
been met on the way. -/
def addAll (setting : Setting) (operations : List Operation) : Builder Unit := do
  let used ← usedComponents setting operations
  used.forM (addComponent setting)
  addPending setting (setting.components.length + 1)
  operations.forM (addOperation setting)
  addPending setting (setting.components.length + 1)

/-- The catalog of some operations of a document without references, in an order of declaration. -/
def catalogOf (setting : Setting) (operations : List Operation) : Reading Catalog := do
  let ((), progress) ← (addAll setting operations).run .start
  return ⟨topologicalSort progress.entries, progress.warnings⟩

def catalog (graph : Graph) (operations : List Operation) (ids : Option (List String)) :
    Reading Catalog := do
  let operations ← selectOperations ids operations
  catalogOf (← Setting.of graph) operations

end ApiSchema.OpenApi
