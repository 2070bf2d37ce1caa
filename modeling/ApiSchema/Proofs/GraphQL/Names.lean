/-
# Names in what is registered and selected

No table of overrides brings a name into a registry. What has been selected mentions the names in
the schemas under its response keys and those of the fragments' entries that it spreads.
-/
import ApiSchema.GraphQL.Catalog
import ApiSchema.Proofs.Assoc
import ApiSchema.Proofs.Ensures
import ApiSchema.Proofs.Mentions

namespace ApiSchema

open List

variable {registry : Registry} {scalar : String} {overrides : List (String × String)}
  {name : Option String}

/-! ## Registries -/

/-- No schema of the registry mentions an entry. -/
def Registry.Nameless (registry : Registry) : Prop :=
  ∀ pair ∈ registry.schemas, pair.2.mentions = []

namespace Registry

theorem ofName_none : ofName none [] = .ok ⟨none, defaults⟩ := rfl

/-- Code that is accepted is registered. -/
theorem eq_register_of_registerCode {registry' : Registry} {code : String}
    (h : registry.registerCode scalar code = .ok registry') :
    registry' = registry.register scalar (.raw code) := by
  unfold registerCode at h
  split at h
  · split at h
    · cases h
      rfl
    · cases h
  · cases h
    rfl

/-- Every schema after some overrides is one from before, or the code of an override. -/
theorem of_mem_registerAll :
    ∀ {registry registry' : Registry}, registry.registerAll overrides = .ok registry' →
      ∀ pair ∈ registry'.schemas, pair ∈ registry.schemas ∨
        ∃ override ∈ overrides, pair.2 = .raw override.2 := by
  induction overrides with
  | nil =>
    intro registry registry' h pair hp
    cases h
    exact Or.inl hp
  | cons first rest ih =>
    intro registry registry' h pair hp
    obtain ⟨next, hf, hr⟩ := of_bind_eq_ok h
    rcases ih hr pair hp with he | ⟨override, ho, hv⟩
    · rw [eq_register_of_registerCode hf] at he
      rcases Assoc.mem_put he with rfl | he
      · exact Or.inr ⟨first, mem_cons_self .., rfl⟩
      · exact Or.inl he
    · exact Or.inr ⟨override, mem_cons_of_mem _ ho, hv⟩

theorem exists_of_ofName (h : ofName name overrides = .ok registry) :
    ∃ library, of library overrides = .ok registry := by
  unfold ofName at h
  split at h
  · exact ⟨none, h⟩
  · split at h
    · exact ⟨_, h⟩
    · cases h

/-- No table of overrides brings a name into a registry. -/
theorem nameless_of_ofName (h : ofName name overrides = .ok registry) : registry.Nameless := by
  obtain ⟨library, ha⟩ := exists_of_ofName h
  intro pair hp
  rcases of_mem_registerAll ha pair hp with he | ⟨override, -, hv⟩
  · have hd : ∀ pair ∈ defaults, pair.2.mentions = [] := by
      simp [defaults, Schema.text, Schema.mentions]
    exact hd pair he
  · simp [hv, Schema.mentions]

theorem Nameless.mentions_get? (h : registry.Nameless)
    {schema : Schema} (hg : registry.get? scalar = some schema) : schema.mentions = [] :=
  h _ (Assoc.mem_of_get?_eq_some hg)

end Registry

namespace GraphQL

/-! ## Selections -/

/-- The names in what has been selected. -/
def Selected.names (selected : Selected) : List String :=
  (selected.keys.flatMap fun key => key.2.schema.mentions) ++ selected.spreads

namespace Selected

theorem mentions_object (selected : Selected) : selected.object.mentions = selected.names := by
  rw [object, Schema.mentions, Schema.mentionsOfFields_eq_flatMap, Schema.mentionsOfUndeclared,
    append_nil, flatMap_map, names]
  simp

end Selected

end GraphQL

end ApiSchema
