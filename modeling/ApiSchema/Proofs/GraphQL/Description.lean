/-
# What an operation describes

The schema of selections depends on what was built before only through the fragments that have their
entries by then, and the schema of variables does not depend on it at all. So an operation has one
description, given the entries of fragments, and its entries can be compared with it.
-/
import ApiSchema.Proofs.GraphQL.Collecting

namespace ApiSchema.GraphQL

variable {selections : List Selection} {setting : Setting}

/-- The schema that selections on a type describe, where `recorded` are the entries of fragments. -/
def selectionDescription (setting : Setting) (recorded : List (String × String)) (type : NamedType)
    (selections : List Selection) : Except BuildError Schema :=
  (schemaOf setting [] type selections).run' ⟨[], [], [], recorded⟩

/-- Whatever was built before, selections give their description. -/
theorem ensures_selectionDescription {recorded : List (String × String)}
    (type : NamedType) (selections : List Selection) :
    Ensures (fun progress => progress.fragmentEntries = recorded)
      (schemaOf setting [] type selections) fun schema _ =>
        selectionDescription setting recorded type selections = .ok schema := by
  rintro start schema final rfl hrn
  obtain ⟨notes, hr, -⟩ := (gives_schemaOf [] setting type selections).of_run hrn
  have hg : Gives (Assoc.get? (Progress.mk [] [] [] start.fragmentEntries).fragmentEntries)
      (schemaOf setting [] type selections) (.of (schema, notes)) := (gives_schemaOf ..).congr hr
  exact hg.run'

/-- The schema of a named type in a variable: the registered scalar, or else a reference to an
enumeration or an input object. -/
def variableLeafSchema (setting : Setting) (name : String) : Schema :=
  (setting.registry.get? name).getD <|
    match setting.system.type? name with
    | some type => if type.isEnum || type.isInput then .ref type.name else .unknown
    | none => .unknown

/-- The object with a field for each variable of an operation. One with a default may be left out.
-/
def variablesDescription (setting : Setting) (operation : NamedOperation) : Schema :=
  Selected.object ⟨Assoc.ofList (operation.variableDefs.map fun v =>
    (v.name, ⟨v.type.wrap (variableLeafSchema setting v.type.baseName),
      v.type.isNonNull && v.default.isNone⟩)), [], []⟩

/-- The schema of a named type in a field of an input object: there is nothing to select, but there
are references to other input objects. -/
def inputLeafSchema (setting : Setting) : String → Schema :=
  leafSchema setting fun type => if type.isInput then .ref type.name else .unknown

/-- The object with the fields of an input object. -/
def inputDescription (setting : Setting) (fields : List InputField) : Schema :=
  .object (fields.map fun field => ⟨.text field.name,
    field.type.wrap (inputLeafSchema setting field.type.baseName), field.type.isNonNull⟩)
    .dropped []

/-! ## Inputs -/

/-- What is noted about a scalar. -/
def scalarNotes (setting : Setting) (name : String) : List Note :=
  if (setting.registry.get? name).isSome then []
  else [.warning ("Unknown scalar type \"" ++ name ++
    "\", using unknown. Consider adding a scalar mapping.")]

/-- What is noted about a named type in a field of an input object. -/
def inputNotes (setting : Setting) (name : String) : List Note :=
  match setting.system.type? name with
  | none => []
  | some type =>
    match type.kind with
    | .scalar => scalarNotes setting name
    | .enum _ | .input _ => [.queued type]
    | _ => []

/-- What is noted about a named type in a variable of an operation. -/
def variableNotes (setting : Setting) (operation name : String) : List Note :=
  if (setting.registry.get? name).isSome then []
  else if (setting.system.type? name).isSome then inputNotes setting name
  else [.warning ("Unknown type \"" ++ name ++ "\" in variables of operation \"" ++ operation ++
    "\", using unknown")]

section

variable {record? : String → Option String}

theorem gives_inputLeaf (name : String) :
    Gives record? (inputLeaf setting name)
      (.of (inputLeafSchema setting name, inputNotes setting name)) := by
  refine ⟨fun start _ => ?_⟩
  unfold inputLeaf inputLeafSchema leafSchema scalarSchema inputNotes scalarNotes
  rcases setting.system.type? name with _ | ⟨base, kind⟩
  · rfl
  · cases kind with
    | scalar => cases setting.registry.get? name <;> rfl
    | _ => rfl

/-- A type that is not registered has the same schema in variables and in fields. -/
theorem variableLeafSchema_of_get?_eq_none {name : String} {type : NamedType}
    (hg : setting.registry.get? name = none) (ht : setting.system.type? name = some type) :
    variableLeafSchema setting name = inputLeafSchema setting name := by
  rw [variableLeafSchema, inputLeafSchema, leafSchema, ht, hg]
  obtain ⟨base, kind⟩ := type
  cases kind <;> rfl

theorem gives_variableLeaf (operation name : String) :
    Gives record? (variableLeaf setting operation name)
      (.of (variableLeafSchema setting name, variableNotes setting operation name)) := by
  cases hg : setting.registry.get? name with
  | some schema =>
    rw [variableLeaf, variableLeafSchema, variableNotes, hg]
    exact gives_pure _
  | none =>
    cases ht : setting.system.type? name with
    | none =>
      rw [variableLeaf, variableLeafSchema, variableNotes, hg, ht]
      exact ⟨fun _ _ => rfl⟩
    | some type =>
      rw [variableLeaf, variableLeafSchema_of_get?_eq_none hg ht, variableNotes, hg, ht]
      exact gives_inputLeaf name

/-- A type reference has the schema of its named type, wrapped. -/
theorem gives_typeSchema {leaf : String → Builder Schema} {type : TypeRef} {schema : Schema}
    {notes : List Note} (h : Gives record? (leaf type.baseName) (.of (schema, notes))) :
    Gives record? (type.schema leaf) (.of (type.wrap schema, notes)) := by
  rw [TypeRef.schema_eq_map]
  exact (h.map type.wrap).congr (Noted.map_of ..)

/-- The fields of an input object are those of its description. -/
theorem gives_inputFields (fields : List InputField) :
    Gives record? (fields.mapM (inputField setting))
      (.of (fields.map fun field => ⟨.text field.name,
          field.type.wrap (inputLeafSchema setting field.type.baseName), field.type.isNonNull⟩,
        fields.flatMap fun field => inputNotes setting field.type.baseName)) :=
  gives_mapM_of fields fun _ _ =>
    (gives_typeSchema (gives_inputLeaf _)).bind_pure _

/-- The variables of an operation have the fields of its description. -/
theorem gives_variableFields (operation : NamedOperation) :
    Gives record? (operation.variableDefs.mapM (variableField setting operation.name))
      (.of (operation.variableDefs.map fun v =>
          (v.name, ⟨v.type.wrap (variableLeafSchema setting v.type.baseName),
            v.type.isNonNull && v.default.isNone⟩),
        operation.variableDefs.flatMap fun v =>
          variableNotes setting operation.name v.type.baseName)) :=
  gives_mapM_of operation.variableDefs fun _ _ =>
    (gives_typeSchema (gives_variableLeaf ..)).bind_pure _

end

end ApiSchema.GraphQL
