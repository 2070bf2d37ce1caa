/-
# Input values

What a client passes to an API are variables of operations and, inside of them, fields of input
objects. Both have a type and may have a default. Their types are converted alike, unless a scalar
is registered under the name of a type that is none. A variable may be left out if its type is not
non-null or if it has a default; of a field of an input object only the type is looked at.
-/
import ApiSchema.Proofs.GraphQL.Assembly
import ApiSchema.Proofs.GraphQL.Description

namespace ApiSchema.GraphQL

open List

variable {setting : Setting} {named : NamedType} {type : TypeRef} {result : Catalog}

/-! ## Types -/

theorem TypeRef.wrap_injective : Function.Injective type.wrap := by
  intro schema other h
  induction type using TypeRef.schema.induct with
  | case1 name => simpa [wrap, Schema.nullable] using h
  | case2 item ih => exact ih (by simpa [wrap, Schema.nullable] using h)
  | case3 name => exact h
  | case4 item ih => exact ih (by simpa [wrap] using h)
  | case5 inner ih => exact ih h

/-- A named type has one schema for variables and fields, unless it is registered and no scalar. -/
theorem variableLeafSchema_eq_iff {name : String} (ht : setting.system.type? name = some named) :
    variableLeafSchema setting name = inputLeafSchema setting name ↔
      named.kind = .scalar ∨ ∀ schema, setting.registry.get? name = some schema →
        schema = if named.isEnum || named.isInput then .ref named.name else .unknown := by
  obtain ⟨base, kind⟩ := named
  unfold inputLeafSchema leafSchema variableLeafSchema
  rw [ht]
  cases setting.registry.get? name with
  | none => cases kind <;> simp [NamedType.isEnum, NamedType.isInput]
  | some schema => cases kind <;> simp [NamedType.isEnum, NamedType.isInput]

/-- A type reference around a type of the system gives one schema for a variable and for a field of
an input object exactly if its named type is a scalar, or is not registered as one, or is registered
with the schema that it has anyway. In the first two cases the same is noticed and queued, too. -/
theorem variable_converts_as_input_iff (operation : String)
    (htype : setting.system.type? type.baseName = some named) :
    (∀ start, (variableSchema setting operation type).run' start =
        (inputSchema setting type).run' start ↔
      named.kind = .scalar ∨ ∀ schema, setting.registry.get? type.baseName = some schema →
        schema = if named.isEnum || named.isInput then .ref named.name else .unknown) ∧
    (named.kind = .scalar ∨ setting.registry.get? type.baseName = none →
      variableSchema setting operation type = inputSchema setting type) := by
  refine ⟨fun start => ?_, fun h => ?_⟩
  · rw [variableSchema, inputSchema, (gives_typeSchema (gives_variableLeaf operation _)).run',
      (gives_typeSchema (gives_inputLeaf _)).run', Except.ok.injEq, type.wrap_injective.eq_iff,
      variableLeafSchema_eq_iff htype]
  · rw [variableSchema, inputSchema, TypeRef.schema_eq_map, TypeRef.schema_eq_map, variableLeaf,
      htype]
    cases hg : setting.registry.get? type.baseName with
    | none => rfl
    | some schema =>
      obtain hk := h.resolve_right (by simp [hg])
      rw [inputLeaf, htype]
      dsimp only
      rw [hk, scalarSchema, hg]

/-- An enumeration that has the name of a registered scalar, an input object with fields of this
type and of a type with a default, and an operation with variables of these types. -/
def findSetting : Setting where
  system := {
    types := [⟨"Query", .object [("pets", .named "Int")]⟩, ⟨"Email", .enum ["HOME", "WORK"]⟩,
      ⟨"Filter", .input [⟨"email", .nonNull (.named "Email"), false⟩,
        ⟨"limit", .nonNull (.named "Int"), true⟩]⟩, ⟨"Int", .scalar⟩]
    query := some "Query"
    mutation := none }
  documents := {
    operations := [⟨"find", .query, [⟨"email", .nonNull (.named "Email"), none, []⟩,
      ⟨"limit", .nonNull (.named "Int"), some .number, []⟩,
      ⟨"filter", .named "Filter", none, []⟩], [.field none "pets" [] [] none], "pets"⟩]
    fragments := []
    skipped := [] }
  registry := ⟨none, Registry.defaults⟩

/-- A list of input objects is converted alike. -/
theorem list_of_filters_converts_alike :
    findSetting.system.type? (TypeRef.list (.named "Filter")).baseName =
        some findSetting.system.types[2] ∧
      variableSchema findSetting "find" (.list (.named "Filter")) =
        inputSchema findSetting (.list (.named "Filter")) :=
  ⟨rfl, (variable_converts_as_input_iff "find" rfl).2 (Or.inr rfl)⟩

/-- The enumeration is taken for the scalar in a variable, and referred to in a field. -/
theorem email_is_scalar_in_variable :
    findSetting.system.type? "Email" = some ⟨"Email", .enum ["HOME", "WORK"]⟩ ∧
      (variableSchema findSetting "find" (.nonNull (.named "Email"))).run' .start =
        .ok (.string (some .email)) ∧
      (inputSchema findSetting (.nonNull (.named "Email"))).run' .start = .ok (.ref "Email") :=
  ⟨rfl, rfl, rfl⟩

/-! ## Properties that may be left out -/

/-- The object that is built from variables has one property for each name, that of the last
variable with the name. -/
theorem properties_of_variables {defined : List Variable} {described : Variable → Described} :
    ∃ properties, Selected.object ⟨Assoc.ofList (defined.map fun v => (v.name, described v)), [],
        []⟩ = .object properties .dropped [] ∧
      (properties.map (·.key)).Nodup ∧
      (∀ v ∈ defined, ∃ property ∈ properties, property.key = .text v.name) ∧
      ∀ property ∈ properties, ∃ before v after, defined = before ++ v :: after ∧
        (∀ later ∈ after, later.name ≠ v.name) ∧ property.key = .text v.name ∧
          property.required = (described v).required := by
  have hd := Assoc.nodup_keys_ofList (defined.map fun v => (v.name, described v))
  refine ⟨_, rfl, ?_, fun v hv => ?_, fun property hpr => ?_⟩
  · have ht := hd.map fun _ _ => Atom.text.inj
    rw [Assoc.keys, map_map] at ht
    rwa [map_map]
  · have hk : v.name ∈ Assoc.keys (defined.map fun v => (v.name, described v)) := by
      simpa [Assoc.keys] using ⟨v, hv, rfl⟩
    obtain ⟨pair, hp, hn⟩ := mem_map.mp ((Assoc.mem_keys_ofList _ _).mpr hk)
    exact ⟨_, mem_map_of_mem hp, congrArg _ hn⟩
  · obtain ⟨⟨name, value⟩, hp, rfl⟩ := mem_map.mp hpr
    rw [← Assoc.get?_eq_some_iff_mem hd, Assoc.get?_ofList_map_eq_some_iff] at hp
    obtain ⟨before, v, after, he, hv, ha⟩ := hp
    obtain ⟨rfl, rfl⟩ := Prod.mk.inj hv
    exact ⟨before, v, after, he, ha, rfl, rfl⟩

/-- The entry has the name for the variables of an operation and a property for each variable, the
last one of its name, which is required exactly if the type of the variable is non-null and it has
no default. -/
def RequiresVariables (setting : Setting) (entry : Entry) : Prop :=
  ∃ operation ∈ setting.documents.operations,
    entry.name = Name.variablesEntry operation.name operation.kind.name ∧
    ∃ properties, entry.schema = .object properties .dropped [] ∧ (properties.map (·.key)).Nodup ∧
      (∀ v ∈ operation.variableDefs, ∃ property ∈ properties, property.key = .text v.name) ∧
      ∀ property ∈ properties, ∃ before v after, operation.variableDefs = before ++ v :: after ∧
        (∀ later ∈ after, later.name ≠ v.name) ∧ property.key = .text v.name ∧
          (property.required = true ↔ v.type.isNonNull = true ∧ v.default = none)

/-- The entry has the name of an input object and a property for each field, which is required
exactly if the type of the field is non-null, whether or not it has a default. -/
def RequiresFields (setting : Setting) (entry : Entry) : Prop :=
  ∃ type fields, setting.system.type? entry.name = some type ∧ type.kind = .input fields ∧
    ∃ properties, entry.schema = .object properties .dropped [] ∧
      List.Forall₂ (fun field property => property.key = .text field.name ∧
        (property.required = true ↔ field.type.isNonNull = true)) fields properties

/-- In every catalog, the properties of variables may be left out if the type is not non-null or if
there is a default, and those of fields of input objects only if the type is not non-null. -/
theorem property_required_iff (hcatalog : catalog setting = .ok result) : ∀ entry ∈ result.entries,
      (entry.category = .operationVariables → RequiresVariables setting entry) ∧
        (entry.category = .input → RequiresFields setting entry) := by
  intro entry he
  obtain ⟨position, content, hm, start, final, hrn⟩ := made_of_catalog hcatalog he
  generalize hn : entry.name = name at hm
  generalize hc : entry.category = category at hm
  cases hm with
  | @input type fields ht hk =>
    refine ⟨fun h => absurd h (by simp), fun _ => ⟨type, fields, hn ▸ ht, hk, ?_⟩⟩
    obtain ⟨_, hr, -⟩ := ((gives_inputFields fields).bind_pure _).of_run hrn
    refine ⟨_, (congrArg Prod.fst (Option.some.inj hr)).symm, ?_⟩
    rw [forall₂_map_right_iff]
    exact forall₂_same.mpr fun field _ => ⟨rfl, Iff.rfl⟩
  | @operationVariables operation hmm =>
    refine ⟨fun _ => ⟨operation, hmm, hn, ?_⟩, fun h => absurd h (by simp)⟩
    obtain ⟨_, hr, -⟩ := ((gives_variableFields operation).bind_pure _).of_run hrn
    have hs : entry.schema = variablesDescription setting operation :=
      (congrArg Prod.fst (Option.some.inj hr)).symm
    obtain ⟨properties, ho, hd, hev, hl⟩ :=
      properties_of_variables
    refine ⟨properties, hs.trans ho, hd, hev, fun property hp => ?_⟩
    obtain ⟨before, v, after, heq, ha, hky, hrq⟩ := hl property hp
    exact ⟨before, v, after, heq, ha, hky, by simp [hrq]⟩
  | _ => exact ⟨fun h => absurd h (by simp), fun h => absurd h (by simp)⟩

/-- The second entry is that of the input object, and the third that of the variables. -/
theorem findSetting_requires : ∃ enum filter passed response warnings,
      catalog findSetting = .ok ⟨[enum, filter, passed, response], warnings⟩ ∧
        RequiresFields findSetting filter ∧ RequiresVariables findSetting passed := by
  have hc : ∃ enum filter passed response warnings,
      catalog findSetting = .ok ⟨[enum, filter, passed, response], warnings⟩ ∧
        filter.category = .input ∧ passed.category = .operationVariables :=
    ⟨_, _, _, _, _, rfl, rfl, rfl⟩
  obtain ⟨enum, filter, passed, response, warnings, hc, hf, hp⟩ := hc
  refine ⟨enum, filter, passed, response, warnings, hc, ?_, ?_⟩
  · exact (property_required_iff hc filter (by simp)).2 hf
  · exact (property_required_iff hc passed (by simp)).1 hp

/-- A field of an input object that has a default is required. -/
theorem limit_with_default_is_required : findSetting.system.type? "Filter" = some ⟨"Filter", .input
        [⟨"email", .nonNull (.named "Email"), false⟩, ⟨"limit", .nonNull (.named "Int"), true⟩]⟩ ∧
      ∃ result, catalog findSetting = .ok result ∧ ∃ entry ∈ result.entries,
        entry.name = "Filter" ∧ entry.category = .input ∧ entry.schema =
          .object [⟨.text "email", .ref "Email", true⟩, ⟨.text "limit", .number true, true⟩]
            .dropped [] :=
  ⟨rfl, _, rfl, _, mem_cons_of_mem _ (mem_cons_self ..), rfl, rfl, rfl⟩

end ApiSchema.GraphQL
