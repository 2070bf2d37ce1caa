/-
# Unknown schemas without a warning

If a catalog comes about without warnings, the unknown schema has one of two sources. It is what the
registry has for one of two scalars, or there is something at its position of which nothing is known
and nothing is said: a type with fields of which none is selected, or a type for results in the
place of an input.
-/
import ApiSchema.Proofs.GraphQL.Assembly

namespace ApiSchema

/-! ## Registered schemas -/

/-- Two scalars have the unknown schema in theirs: for one it is the whole schema, for the other one
the schema of the values. -/
def Registry.HasUnknown (scalar : String) (schema : Schema) : Prop :=
  scalar = "JSON" ∧ schema = .unknown ∨ scalar = "JSONObject" ∧ schema = .record .text .unknown

/-- No other scalar has the unknown schema in its schema, whatever is overridden. -/
theorem Registry.hasUnknown_of_part {library : Option String} {overrides : List (String × String)}
    {registry : Registry} (hr : ofName library overrides = .ok registry) {scalar : String}
    {schema : Schema} (hg : registry.get? scalar = some schema)
    (hp : Schema.Part .unknown schema) : HasUnknown scalar schema := by
  obtain ⟨library, ha⟩ := exists_of_ofName hr
  rcases of_mem_registerAll ha _ (Assoc.mem_of_get?_eq_some hg) with hm | ⟨_, -, hc⟩
  · have hk : ∀ pair ∈ defaults, pair.2.isLeaf ∧ pair.2 ≠ .unknown ∨
        HasUnknown pair.1 pair.2 := by
      simp [defaults, HasUnknown, Schema.isLeaf, Schema.text, Schema.unknown]
    rcases hk _ hm with ⟨hl, hn⟩ | hu
    · exact absurd ((Schema.part_iff_eq hl).mp hp).symm hn
    · exact hu
  · have hrw : schema = .raw _ := hc
    rw [hrw] at hp
    cases hp

namespace GraphQL

/-! ## Catalogs without warnings -/

/-- Without a warning, only the silent positions are exempt. -/
theorem exempting_silentAt {setting : Setting} (h : setting.system.Closed) {progress : Progress}
    (hq : progress.warnings = []) :
    Exempting setting progress setting.SilentAt fun _ _ => True where
  warned ht := by
    rw [hq] at ht
    cases ht
  silentAt := id
  closed := Or.inl h
  registered _ _ _ _ := trivial
  queued _ _ _ := trivial
  merged _ := trivial

/-- Whatever the documents and the overrides of scalars are, and whatever the schema is that knows
the types of its fields: if a catalog comes about without warnings, all parts of its entries have
their sources where the entries are made, and the unknown schema at any depth is that of a scalar,
or stands for a position of which nothing is known. Of the scalars only two have it in their
schemas. -/
theorem unknown_is_scalar_or_silent {setting : Setting} (hclosed : setting.system.Closed)
    {library : Option String} {overrides : List (String × String)}
    (hregistry : Registry.ofName library overrides = .ok setting.registry) {result : Catalog}
    (hcatalog : catalog setting = .ok result) (hquiet : result.warnings = []) :
    ∀ entry ∈ result.entries, ∃ position content,
      setting.Makes position entry.name entry.category content ∧
        Sourced setting setting.SilentAt position entry.schema ∧
        (Schema.Part .unknown entry.schema → ∃ inner, setting.Within inner position ∧
          (setting.SilentAt inner ∨ ∃ scalar schema, setting.ScalarAt inner scalar ∧
            setting.registry.get? scalar = some schema ∧ Registry.HasUnknown scalar schema)) := by
  intro entry he
  obtain ⟨position, content, hm, -, hs⟩ :=
    @sourced_of_catalog setting (fun texts => texts = []) _
      (fun hsb hn => List.subset_nil.mp (hn ▸ hsb)) (@exempting_silentAt setting hclosed)
      result hcatalog hquiet entry he
  refine ⟨position, content, hm, hs, fun hp => ?_⟩
  obtain ⟨inner, hw, hsr⟩ := hs.exists_within rfl hp
  refine ⟨inner, hw, hsr.imp And.right ?_⟩
  rintro ⟨scalar, schema, hsc, hg, hp⟩
  exact ⟨scalar, schema, hsc, hg, Registry.hasUnknown_of_part hregistry hg hp⟩

/-! ## A pet that nothing is selected of -/

/-- A query for a pet of a type, without a selection of its fields. -/
def petSetting (pet : NamedType) : Setting where
  system := ⟨[⟨"Query", .object [("pet", .named pet.name)]⟩, pet, ⟨"String", .scalar⟩],
    some "Query", none⟩
  documents := ⟨[⟨"Q", .query, [], [.field none "pet" [] [] none], "pets"⟩], [], []⟩
  registry := ⟨none, Registry.defaults⟩

/-- A pet that is any value. -/
def anyPet : NamedType := ⟨"JSON", .scalar⟩

/-- A pet with a name. -/
def namedPet : NamedType := ⟨"Pet", .object [("name", .named "String")]⟩

/-- The response in which nothing is known of the pet. -/
def unknownPet : Entry :=
  Entry.of "QQuery" (.object [⟨.text "pet", Schema.unknown.nullable, false⟩] .dropped [])
    .response []

theorem part_unknownPet : Schema.Part .unknown unknownPet.schema :=
  .field (List.mem_singleton_self _) (.alternative (List.mem_cons_self ..) .whole)

/-- Where a pet is any value, the unknown schema has its source. -/
theorem unknown_pet_has_source : (petSetting anyPet).system.Closed ∧
    Registry.ofName none [] = .ok (petSetting anyPet).registry ∧
    catalog (petSetting anyPet) = .ok ⟨[unknownPet], []⟩ ∧
    ∃ position content inner,
      (petSetting anyPet).Makes position unknownPet.name unknownPet.category content ∧
      (petSetting anyPet).Within inner position ∧ ((petSetting anyPet).SilentAt inner ∨
        ∃ scalar schema, (petSetting anyPet).ScalarAt inner scalar ∧
          (petSetting anyPet).registry.get? scalar = some schema ∧
          Registry.HasUnknown scalar schema) := by
  have hcl : (petSetting anyPet).system.Closed := by
    simp [TypeSystem.Closed, petSetting, anyPet, TypeKind.typeNames, TypeRef.baseName]
  have hc : catalog (petSetting anyPet) = .ok ⟨[unknownPet], []⟩ := rfl
  obtain ⟨position, content, hm, -, hu⟩ := unknown_is_scalar_or_silent hcl
    Registry.ofName_none hc rfl unknownPet (List.mem_singleton_self _)
  obtain ⟨inner, hw, hs⟩ := hu part_unknownPet
  exact ⟨hcl, Registry.ofName_none, hc, position, content, inner, hm, hw,
    hs⟩

/-- Where nothing is selected of a pet with a name, the same catalog comes about without a warning,
but the unknown schema is that of no scalar. -/
theorem unselected_pet_is_silently_unknown : (petSetting namedPet).system.Closed ∧
    Registry.ofName none [] = .ok (petSetting namedPet).registry ∧
    catalog (petSetting namedPet) = .ok ⟨[unknownPet], []⟩ ∧
    Schema.Part .unknown unknownPet.schema ∧
    ∀ scalar schema, Registry.HasUnknown scalar schema →
      (petSetting namedPet).system.type? scalar = none := by
  refine ⟨?_, Registry.ofName_none, rfl, part_unknownPet, ?_⟩
  · simp [TypeSystem.Closed, petSetting, namedPet, TypeKind.typeNames, TypeRef.baseName]
  · rintro scalar schema (⟨rfl, -⟩ | ⟨rfl, -⟩)
    · rfl
    · rfl

end GraphQL

end ApiSchema
