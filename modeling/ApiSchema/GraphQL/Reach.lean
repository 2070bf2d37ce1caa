/-
# Reachable types

The enumerations and input objects that the variables of operations lead to, and the enumerations
that selections lead to. Both walks are depth-first and list a type when they first meet it.
-/
import ApiSchema.GraphQL.Documents
import ApiSchema.GraphQL.TypeSystem

namespace ApiSchema.GraphQL

namespace TypeSystem

/-! ## From variables -/

/-- Lists a type, if it is an enumeration or an input object, and then the types that its fields
lead to. `found` are the types listed so far. The first argument bounds the depth, which never
exceeds the number of types. -/
def reachInputs (system : TypeSystem) : Nat → List NamedType → String → List NamedType
  | 0, found, _ => found
  | fuel + 1, found, name =>
    if found.any (·.name == name) then found
    else
      match system.type? name with
      | none => found
      | some type =>
        match type.kind with
        | .enum _ => found ++ [type]
        | .input fields =>
          (fields.map (·.type.baseName)).foldl (system.reachInputs fuel) (found ++ [type])
        | _ => found

/-- The enumerations and input objects that the variables of some operations lead to. -/
def inputsOf (system : TypeSystem) (operations : List NamedOperation) : List NamedType :=
  (operations.flatMap fun operation => operation.variableDefs.map (·.type.baseName)).foldl
    (system.reachInputs (system.types.length + 1)) []

/-! ## From selections -/

/-- What a walk through selections has met: fragments that were entered, and enumerations. -/
structure Met where
  fragments : List String
  enums : List NamedType
deriving Inhabited

/-- Walks through selections on a type. A fragment is entered once, on its own type. The first
argument bounds the depth. -/
def reachEnums (system : TypeSystem) (documents : Documents) :
    Nat → NamedType → Met → List Selection → Met
  | 0, _, met, _ => met
  | fuel + 1, parent, met, selections =>
    selections.foldl
      (fun met selection =>
        match selection with
        | .field _ name _ _ inner =>
          match (parent.fieldType? name).bind fun type => system.type? type.baseName with
          | none => met
          | some type =>
            if type.isEnum then { met with enums := met.enums ++ [type] }
            else
              match inner with
              | some inner =>
                if type.isComposite then system.reachEnums documents fuel type met inner else met
              | none => met
        | .spread name _ =>
          match documents.fragment? name with
          | none => met
          | some fragment =>
            if met.fragments.contains name then met
            else
              let met := { met with fragments := met.fragments ++ [name] }
              match system.type? fragment.condition with
              | none => met
              | some type =>
                if type.isComposite then
                  system.reachEnums documents fuel type met fragment.selections
                else met
        | .inline condition _ inner =>
          let type := (condition.bind system.type?).getD parent
          system.reachEnums documents fuel type met inner)
      met

/-- The enumerations that the operations and then the fragments of some documents lead to, with
repetitions. -/
def enumsOf (system : TypeSystem) (documents : Documents) : List NamedType :=
  let fuel := 2 * documents.size + documents.fragments.length + 2
  let met := documents.operations.foldl
    (fun met operation =>
      match system.root? operation.kind with
      | none => met
      | some root => system.reachEnums documents fuel root met operation.selections)
    ⟨[], []⟩
  let met := documents.fragments.foldl
    (fun met fragment =>
      match system.type? fragment.condition with
      | none => met
      | some type =>
        if type.isComposite then system.reachEnums documents fuel type met fragment.selections
        else met)
    met
  met.enums

end TypeSystem

end ApiSchema.GraphQL
