/-
# Notices about schemas

What a library cannot express faithfully is noticed, in the order in which the schema is written.
-/
import ApiSchema.Validator.Scope

namespace ApiSchema

/-- Something worth a warning. -/
inductive Notice
  /-- A schema of a kind that no library supports. -/
  | unsupported (kind : String)
  | reference (name : String)
deriving DecidableEq, Inhabited

namespace Schema

mutual

/-- The references and unsupported parts of a schema, in the order of writing. Keys of records count
only if `keys` is set. -/
def notices (keys : Bool) : Schema → List Notice
  | .object fields undeclared _ =>
    noticesOfFields keys fields ++ noticesOfUndeclared keys undeclared
  | .array items => notices keys items
  | .tuple items => noticesOfAll keys items
  | .record key value => (if keys then notices keys key else []) ++ notices keys value
  | .union members => noticesOfAll keys members
  | .intersection members => noticesOfAll keys members
  | .ref name => [.reference name]
  | .unsupported kind => [.unsupported kind]
  | _ => []

def noticesOfAll (keys : Bool) : List Schema → List Notice
  | [] => []
  | schema :: rest => notices keys schema ++ noticesOfAll keys rest

def noticesOfFields (keys : Bool) : List (Field Schema) → List Notice
  | [] => []
  | ⟨_, schema, _⟩ :: rest => notices keys schema ++ noticesOfFields keys rest

def noticesOfUndeclared (keys : Bool) : Undeclared Schema → List Notice
  | .checked schema => notices keys schema
  | _ => []

end

end Schema

def unsupportedWarning (library : Library) (kind : String) : String :=
  "Unsupported schema kind \"" ++ kind ++ "\" for " ++ library.name ++ ", using unknown"

/-- The warning about a reference to a later binding. -/
def forwardWarning (name : String) : String :=
  "Forward reference to \"" ++ name ++ "\" cannot be expressed with arktype outside a scope; " ++
    "the binding is referenced before its declaration"

/-- The warning that a notice gives, if any: only one library cannot defer a reference. -/
def Notice.warning? (library : Library) (scope : Scope) : Notice → Option String
  | .unsupported kind => some (unsupportedWarning library kind)
  | .reference name =>
    if library = .arktype ∧ scope.isForward name then some (forwardWarning name) else none

def schemaWarnings (library : Library) (scope : Scope) (schema : Schema) : List String :=
  (schema.notices (library ≠ .arktype)).filterMap (Notice.warning? library scope)

end ApiSchema
