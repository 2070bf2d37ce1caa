/-
# Catalogs of client documents

One entry for each enumeration and input object that is used, for each fragment, and for the
variables and the response of each operation.
-/
import ApiSchema.GraphQL.Selected
import ApiSchema.Name

namespace ApiSchema.GraphQL

/-! ## Fragments -/

/-- Adds the entry of a fragment on a known type, unless the name of the entry is taken. -/
def addFragmentEntry (setting : Setting) (fragment : SourcedFragment) : Builder Unit := do
  let unresolved := "Unable to resolve type \"" ++ fragment.condition ++ "\" for fragment \"" ++
    fragment.name ++ "\""
  match setting.system.type? fragment.condition with
  | none => Builder.warn unresolved
  | some type =>
    if !type.isComposite then Builder.warn unresolved
    else
      let entry := Name.fragmentEntry fragment.name
      if !(← get).has entry then
        let schema ← schemaOf setting [fragment.name] type fragment.selections
        modify fun progress =>
          { progress.add entry schema .fragment with
            fragmentEntries := Assoc.put progress.fragmentEntries fragment.name entry }

/-- Adds the entries of the fragments that a fragment spreads, and then its own. `opened` are the
fragments met on the way down; the first argument bounds their number. -/
def addFragment (setting : Setting) : Nat → List String → SourcedFragment → Builder Unit
  | 0, _, _ => throw .endless
  | fuel + 1, opened, fragment => do
    if Assoc.has (← get).fragmentEntries fragment.name || opened.contains fragment.name then return
    else
      (fragment.spreads.filterMap setting.documents.fragment?).forM
        (addFragment setting fuel (fragment.name :: opened))
      addFragmentEntry setting fragment

/-! ## Operations -/

/-- The field for a variable. One with a default may be left out. -/
def variableField (setting : Setting) (operation : String) (v : Variable) :
    Builder (String × Described) := do
  let schema ← variableSchema setting operation v.type
  return (v.name, ⟨schema, v.type.isNonNull && v.default.isNone⟩)

def addVariables (setting : Setting) (operation : NamedOperation) : Builder Unit := do
  if !operation.variableDefs.isEmpty then
    let fields ← operation.variableDefs.mapM (variableField setting operation.name)
    let entry := Name.variablesEntry operation.name operation.kind.name
    if !(← get).has entry then
      modify (·.add entry (Selected.object ⟨Assoc.ofList fields, [], []⟩) .operationVariables)

def addResponse (setting : Setting) (operation : NamedOperation) : Builder Unit := do
  match setting.system.root? operation.kind with
  | none =>
    Builder.warn ("No " ++ operation.kind.name ++ " type in schema for operation \"" ++
      operation.name ++ "\"")
  | some root =>
    let entry := Name.responseEntry operation.name operation.kind.name
    if !(← get).has entry then
      let schema ← schemaOf setting [] root operation.selections
      modify (·.add entry schema .response)

def addOperation (setting : Setting) (operation : NamedOperation) : Builder Unit := do
  addVariables setting operation
  addResponse setting operation

/-! ## Catalogs -/

/-- Adds all entries: types that variables and selections lead to, fragments, operations, and types
that have only been met on the way. -/
def addAll (setting : Setting) : Builder Unit := do
  let inputs := setting.system.inputsOf setting.documents.operations
  (inputs.filter (·.isEnum)).forM addEnum
  (setting.system.enumsOf setting.documents).forM addEnum
  (inputs.filter (·.isInput)).forM (addInput setting)
  addPending setting (setting.system.types.length + 1)
  setting.documents.fragments.forM
    (addFragment setting (setting.documents.fragments.length + 1) [])
  setting.documents.operations.forM (addOperation setting)
  addPending setting (setting.system.types.length + 1)

/-- The catalog of some documents, in an order of declaration. -/
def catalog (setting : Setting) : Except BuildError Catalog := do
  let ((), progress) ← (addAll setting).run .start
  return ⟨topologicalSort progress.entries, progress.warnings⟩

end ApiSchema.GraphQL
