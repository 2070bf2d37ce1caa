/-
# Building entries

The state in which the entries of a GraphQL catalog come about: the entries so far, the types that
still need one, what was noticed, and which entry belongs to which fragment.
-/
import ApiSchema.GraphQL.Reach
import ApiSchema.Scalar
import ApiSchema.Schema.Order

namespace ApiSchema.GraphQL

/-! ## State -/

/-- What entries are built from. -/
structure Setting where
  system : TypeSystem
  documents : Documents
  registry : Registry
deriving Inhabited

/-- The entries so far, the types that are referred to and have no entry yet, the warnings, and the
entry of each fragment that has one. -/
structure Progress where
  entries : List Entry
  pending : List NamedType
  warnings : List String
  fragmentEntries : List (String × String)
deriving Inhabited

namespace Progress

/-- Nothing done. -/
def start : Progress := ⟨[], [], [], []⟩

def has (progress : Progress) (name : String) : Bool := progress.entries.any (·.name == name)

/-- Notes a warning, each text once. -/
def warn (progress : Progress) (text : String) : Progress :=
  if progress.warnings.contains text then progress
  else { progress with warnings := progress.warnings ++ [text] }

/-- The names that the entries mentioned by a schema depend on. -/
def inherited (progress : Progress) (schema : Schema) : List String :=
  schema.dependencies.flatMap fun name =>
    match progress.entries.find? (·.name == name) with
    | some entry => entry.dependencies
    | none => []

/-- Adds an entry, which depends on all that the entries it mentions depend on. -/
def add (progress : Progress) (name : String) (schema : Schema) (category : Category) : Progress :=
  { progress with
    entries := progress.entries ++ [Entry.of name schema category (progress.inherited schema)] }

/-- Queues a type that has no entry. -/
def ensure (progress : Progress) (type : NamedType) : Progress :=
  if progress.has type.name || progress.pending.any (·.name == type.name) then progress
  else { progress with pending := progress.pending ++ [type] }

end Progress

/-- Why no catalog comes about. -/
inductive BuildError
  /-- Selections lead back into themselves. -/
  | endless
deriving DecidableEq, Inhabited

/-- A step in the making of a catalog. -/
abbrev Builder := StateT Progress (Except BuildError)

namespace Builder

def warn (text : String) : Builder Unit := modify (·.warn text)

/-- A reference to a type, which is queued if it has no entry. -/
def refer (type : NamedType) : Builder Schema := do
  modify (·.ensure type)
  return .ref type.name

/-- The unknown schema, with a warning. -/
def unknown (text : String) : Builder Schema := do
  warn text
  return .unknown

end Builder

/-! ## Types -/

/-- The schema of a type reference, given the schemas of named types: what is not marked as non-null
may be null, at each level of nesting. -/
def TypeRef.schema {m : Type → Type} [Monad m] (leaf : String → m Schema) : TypeRef → m Schema
  | named name => return (← leaf name).nullable
  | list item => return (Schema.array (← item.schema leaf)).nullable
  | nonNull (named name) => leaf name
  | nonNull (list item) => return .array (← item.schema leaf)
  | nonNull (nonNull inner) => (nonNull inner).schema leaf

/-- The schema of a scalar: the registered one, or else unknown. -/
def scalarSchema (setting : Setting) (name : String) : Builder Schema :=
  match setting.registry.get? name with
  | some schema => return schema
  | none =>
    .unknown ("Unknown scalar type \"" ++ name ++
      "\", using unknown. Consider adding a scalar mapping.")

def inputLeaf (setting : Setting) (name : String) : Builder Schema :=
  match setting.system.type? name with
  | none => return .unknown
  | some type =>
    match type.kind with
    | .scalar => scalarSchema setting name
    | .enum _ => Builder.refer type
    | .input _ => Builder.refer type
    | _ => return .unknown

def inputSchema (setting : Setting) (type : TypeRef) : Builder Schema :=
  type.schema (inputLeaf setting)

/-- The schema of a named type in a variable of an operation. A registered scalar goes before a type
of that name. -/
def variableLeaf (setting : Setting) (operation name : String) : Builder Schema :=
  match setting.registry.get? name with
  | some schema => return schema
  | none =>
    match setting.system.type? name with
    | some _ => inputLeaf setting name
    | none =>
      .unknown ("Unknown type \"" ++ name ++ "\" in variables of operation \"" ++ operation ++
        "\", using unknown")

def variableSchema (setting : Setting) (operation : String) (type : TypeRef) : Builder Schema :=
  type.schema (variableLeaf setting operation)

/-! ## Enumerations and input objects -/

def addEnum (type : NamedType) : Builder Unit := do
  match type.kind with
  | .enum values =>
    if !(← get).has type.name then
      modify (·.add type.name (.enumeration (values.map fun value => .atom (.text value))) .enum)
  | _ => return

/-- The field of an input object. Only the type decides whether it has to be there. -/
def inputField (setting : Setting) (field : InputField) : Builder (Field Schema) := do
  return ⟨.text field.name, ← inputSchema setting field.type, field.type.isNonNull⟩

def addInput (setting : Setting) (type : NamedType) : Builder Unit := do
  match type.kind with
  | .input fields =>
    if !(← get).has type.name then
      let fields ← fields.mapM (inputField setting)
      modify (·.add type.name (.object fields .dropped []) .input)
  | _ => return

/-- Adds the entry of an enumeration or an input object, if it has none. -/
def addType (setting : Setting) (type : NamedType) : Builder Unit := do
  addEnum type
  addInput setting type

/-- Adds the entries of queued types until none is left. Every type is queued at most once, so the
number of types bounds the number of rounds. -/
def addPending (setting : Setting) : Nat → Builder Unit
  | 0 => do
    if (← get).pending.isEmpty then return else throw .endless
  | fuel + 1 => do
    match (← get).pending with
    | [] => return
    | type :: rest =>
      modify fun progress => { progress with pending := rest }
      addType setting type
      addPending setting fuel

end ApiSchema.GraphQL
