/-
# Selections

The schema of what a client selects. Selections on an object give an object. On an interface or a
union, what is selected for particular object types gives one object for each of these types, told
apart by their type name.
-/
import ApiSchema.GraphQL.Builder

namespace ApiSchema.GraphQL

/-! ## Collected selections -/

/-- The schema under a response key, and whether the key has to be there. -/
structure Described where
  schema : Schema
  required : Bool
deriving Inhabited

/-- What selections on one type amount to: response keys, entries of fragments whose fields are
merged, and selections that apply to a particular object type only. -/
structure Selected where
  keys : List (String × Described)
  spreads : List String
  narrowed : List (String × List Selection)
deriving Inhabited

namespace Selected

def empty : Selected := ⟨[], [], []⟩

/-- Sets what is under a response key. -/
def put (selected : Selected) (key : String) (schema : Schema) (required : Bool) : Selected :=
  { selected with keys := Assoc.put selected.keys key ⟨schema, required⟩ }

/-- Merges the fields of a fragment's entry. -/
def spread (selected : Selected) (entry : String) : Selected :=
  if selected.spreads.contains entry then selected
  else { selected with spreads := selected.spreads ++ [entry] }

/-- Adds selections that apply to an object type only. -/
def narrow (selected : Selected) (type : String) (selections : List Selection) : Selected :=
  let before := (Assoc.get? selected.narrowed type).getD []
  { selected with narrowed := Assoc.put selected.narrowed type (before ++ selections) }

/-- The object with the response keys. -/
def object (selected : Selected) : Schema :=
  .object (selected.keys.map fun (key, described) =>
    ⟨.text key, described.schema, described.required⟩) .dropped selected.spreads

end Selected

/-- The response key that tells object types apart. -/
def typeNameKey : String := "__typename"

def textLiteral (text : String) : Schema := .literal (.atom (.text text))

/-- Whether a type condition picks an object type out of an interface or a union. -/
def narrows (parent condition : NamedType) : Bool :=
  parent.isAbstract && condition.isObject && condition.name != parent.name

/-- The type on which the selections under a condition are read: an object stays what it is. -/
def conditioned (parent condition : NamedType) : NamedType :=
  if parent.isObject then parent else condition

/-! ## Schemas of selections -/

/-- A way to collect selections on a type, given the fragments that are being merged in place. -/
abbrev Collector := List String → NamedType → Selected → List Selection → Builder Selected

/-- The object for one object type: what is selected for all types, and what is selected for this
one. It always tells its type name. -/
def memberSchema (setting : Setting) (collect : Collector) (merging : List String)
    (common : Selected) (type : String) (selections : List Selection) : Builder Schema := do
  match setting.system.type? type with
  | none => return .unknown
  | some concrete =>
    let marked := Selected.empty.put typeNameKey (textLiteral type) true
    let start : Selected := ⟨Assoc.putAll marked.keys common.keys, common.spreads, []⟩
    let selected ← collect merging concrete start selections
    return (selected.put typeNameKey (textLiteral type) true).object

/-- The schema of selections on an interface or a union. -/
def abstractSchema (setting : Setting) (collect : Collector) (merging : List String)
    (parent : NamedType) (selected : Selected) : Builder Schema := do
  if selected.narrowed.isEmpty then
    if parent.isUnion then
      .unknown ("Union type \"" ++ parent.name ++ "\" has no inline fragments. " ++
        "Consider adding \"... on TypeName \x7b fields \x7d\" to select specific fields.")
    else if selected.keys.isEmpty && selected.spreads.isEmpty then
      .unknown ("Interface type \"" ++ parent.name ++
        "\" has no selected fields or inline fragments, using unknown")
    else return selected.object
  else
    let members ← selected.narrowed.mapM fun (type, selections) =>
      memberSchema setting collect merging selected type selections
    match members with
    | [member] => return member
    | members => return .union members

/-- The schema of selections on a type; without selections nothing is known. -/
def selectionSchema (setting : Setting) (collect : Collector) (merging : List String)
    (parent : NamedType) : Option (List Selection) → Builder Schema
  | none => return .unknown
  | some selections => do
    let selected ← collect merging parent .empty selections
    if parent.isAbstract then abstractSchema setting collect merging parent selected
    else return selected.object

/-- The schema of a named type in an output position, with what is selected on it. -/
def outputLeaf (setting : Setting) (collect : Collector) (merging : List String)
    (selections : Option (List Selection)) (name : String) : Builder Schema :=
  match setting.system.type? name with
  | none => return .unknown
  | some type =>
    match type.kind with
    | .scalar => scalarSchema setting name
    | .enum _ => Builder.refer type
    | _ => selectionSchema setting collect merging type selections

def collectField (setting : Setting) (collect : Collector) (merging : List String)
    (parent : NamedType) (selected : Selected) (key name : String)
    (selections : Option (List Selection)) : Builder Selected := do
  if name = typeNameKey then
    return selected.put key (if parent.isObject then textLiteral parent.name else .text) true
  else
    match parent.fieldType? name with
    | none =>
      Builder.warn ("Unknown field \"" ++ name ++ "\" on type \"" ++ parent.name ++
        "\", using unknown")
      return selected.put key .unknown false
    | some type =>
      let schema ← type.schema (outputLeaf setting collect merging selections)
      return selected.put key schema type.isNonNull

/-- Collects the spread of a fragment: for a particular object type, through the fragment's entry,
or by merging its selections in place. -/
def collectSpread (setting : Setting) (collect : Collector) (merging : List String)
    (parent : NamedType) (selected : Selected) (name : String) (spread : Selection) :
    Builder Selected := do
  match setting.documents.fragment? name with
  | none =>
    Builder.warn ("Unknown fragment \"" ++ name ++ "\"")
    return selected
  | some fragment =>
    let type := setting.system.type? fragment.condition
    if type.any (narrows parent) then return selected.narrow fragment.condition [spread]
    else
      match Assoc.get? (← get).fragmentEntries name with
      | some entry => return selected.spread entry
      | none =>
        if merging.contains name then
          Builder.warn ("Cyclic spread of fragment \"" ++ name ++ "\" ignored")
          return selected
        else
          match type with
          | none => return selected
          | some type =>
            if type.isComposite then
              collect (name :: merging) (conditioned parent type) selected fragment.selections
            else return selected

def collectOne (setting : Setting) (collect : Collector) (merging : List String)
    (parent : NamedType) (selected : Selected) : Selection → Builder Selected
  | .field responseName name _ _ selections =>
    collectField setting collect merging parent selected (responseName.getD name) name selections
  | .spread name directives =>
    collectSpread setting collect merging parent selected name (.spread name directives)
  | .inline condition _ selections =>
    let type := (condition.bind setting.system.type?).getD parent
    if narrows parent type then return selected.narrow type.name selections
    else collect merging (conditioned parent type) selected selections

/-- Collects selections to a depth. Selections that are nested deeper, counting the fragments merged
in place, lead back into themselves if the depth is that of the setting. -/
def collect (setting : Setting) : Nat → Collector
  | 0, _, _, _, _ => throw .endless
  | fuel + 1, merging, parent, selected, selections =>
    selections.foldlM (collectOne setting (collect setting fuel) merging parent) selected

/-- A depth that no selections of the setting exceed, unless they lead back into themselves: on the
way down the fragments that are being merged only become more, and with the same fragments no
selections can be met twice on the same type. -/
def Setting.depth (setting : Setting) : Nat :=
  let fragments := setting.documents.fragments.length
  let selections := setting.documents.size + fragments + 1
  (fragments + 1) * (selections + 1) * (selections + 1) * (setting.system.types.length + 1)

/-- The schema of the selections of an operation or a fragment on a type. -/
def schemaOf (setting : Setting) (merging : List String) (type : NamedType)
    (selections : List Selection) : Builder Schema :=
  selectionSchema setting (collect setting setting.depth) merging type (some selections)

end ApiSchema.GraphQL
