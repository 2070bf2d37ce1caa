/-
# Bindings

Entries have distinct names, but bindings lower the initial of a name, and so two entries can get
the same binding. One of the two is then exposed: its name is not recovered from its binding, and it
is given in the description or starts beyond ASCII. In a catalog without exposed entries every
binding belongs to one entry, no module exports a binding twice, and the binding of a name that an
entry mentions is that of the entry of this name.
-/
import ApiSchema.Proofs.Emission
import ApiSchema.Proofs.GraphQL.SpreadOrder
import ApiSchema.Proofs.OpenApi.Dangling

namespace ApiSchema

open List

/-! ## Entries and their bindings -/

/-- Each entry has a binding of its own. So a module of some of the entries exports no binding
twice, and the binding that stands for a mentioned name is that of the entry of this name. -/
structure BindsApart (entries : List Entry) : Prop where
  bindings : (entries.map fun entry => Name.binding entry.name).Nodup
  exports : ∀ (library : Library) (kept : List Entry) (generated : Generated),
    kept.Sublist entries → emitModule library kept = .ok generated →
      ∃ declarations, Declares library kept generated declarations ∧
        (declarations.map fun declaration => Name.binding declaration.name).Nodup
  denotes : ∀ entry ∈ entries, ∀ name ∈ entry.schema.mentions,
    ∃ target ∈ entries, target.name = name ∧
      ∀ other ∈ entries, Name.binding other.name = Name.binding name → other = target

/-- The entry has a role whose names are given in the description, or a composed name. -/
def Entry.IsNamed (given : List Category) (entry : Entry) : Prop :=
  entry.category ∈ given ∨ Name.IsComposed entry.name

/-- The name of the entry is not recovered from its binding, and it is given in the description or
starts beyond ASCII. -/
def Entry.IsExposed (given : List Category) (entry : Entry) : Prop :=
  Name.isRecoverable entry.name = false ∧
    (entry.category ∈ given ∨ Name.startsInAscii entry.name = false)

variable {given : List Category}

theorem Entry.IsNamed.isExposed {entry : Entry} (h : entry.IsNamed given)
    (hl : Name.isRecoverable entry.name = false) : entry.IsExposed given := by
  refine ⟨hl, h.imp id fun hc => ?_⟩
  rw [Bool.eq_false_iff]
  intro ha
  rw [hc.isRecoverable ha] at hl
  cases hl

theorem not_isExposed_of_all {entries : List Entry}
    (h : (entries.all fun entry => Name.isRecoverable entry.name)) :
    ∀ entry ∈ entries, ¬entry.IsExposed given := by
  intro entry hen he
  have hn := all_eq_true.mp h entry hen
  rw [he.1] at hn
  cases hn

/-- The names of the entries are distinct. Of two entries with the same binding one is exposed, and
if no entry is exposed, each has a binding of its own. -/
structure BindsApartUnlessExposed (given : List Category) (entries : List Entry) : Prop where
  names : (entries.map (·.name)).Nodup
  clash : ∀ entry ∈ entries, ∀ other ∈ entries, entry ≠ other →
    Name.binding entry.name = Name.binding other.name →
      entry.IsExposed given ∨ other.IsExposed given
  apart : (∀ entry ∈ entries, ¬entry.IsExposed given) → BindsApart entries

section

variable {given : List Category} {entries : List Entry}

/-- Two entries with the same binding are the same, or one of them is exposed. -/
theorem isExposed_of_binding_eq (hd : (entries.map (·.name)).Nodup)
    (hn : ∀ entry ∈ entries, entry.IsNamed given) {entry other : Entry}
    (he : entry ∈ entries) (ho : other ∈ entries) (hne : entry ≠ other)
    (h : Name.binding entry.name = Name.binding other.name) :
    entry.IsExposed given ∨ other.IsExposed given := by
  cases hf : Name.isRecoverable entry.name with
  | false => exact Or.inl ((hn entry he).isExposed hf)
  | true =>
    cases hs : Name.isRecoverable other.name with
    | false => exact Or.inr ((hn other ho).isExposed hs)
    | true =>
      have hnm := Name.eq_of_binding_eq hf hs h
      exact absurd (inj_on_of_nodup_map hd he ho hnm) hne

/-- If different entries have different bindings, then so do declarations and references. -/
theorem BindsApart.of_injective (hds : (entries.map (·.name)).Nodup)
    (hc : ∀ entry ∈ entries, ∀ name ∈ entry.schema.mentions, name ∈ entries.map (·.name))
    (h : ∀ entry ∈ entries, ∀ other ∈ entries,
      Name.binding entry.name = Name.binding other.name → entry = other) : BindsApart entries := by
  have hb : (entries.map fun entry => Name.binding entry.name).Nodup :=
    hds.of_map.map_on h
  refine ⟨hb, ?_, ?_⟩
  · intro library kept generated hk hm
    obtain ⟨declarations, hd⟩ := exists_declares_of_emitModule hm
    have hmp : (declarations.map fun declaration => Name.binding declaration.name) =
        kept.map fun entry => Name.binding entry.name := by
      have hn := congrArg (List.map Name.binding) hd.names
      rwa [map_map, map_map] at hn
    refine ⟨declarations, hd, ?_⟩
    rw [hmp]
    exact (hk.map _).nodup hb
  · intro entry he name hnm
    obtain ⟨target, ht, rfl⟩ := mem_map.mp (hc entry he name hnm)
    exact ⟨target, ht, rfl, fun other ho heq => h other ho target ht heq⟩

/-- If all names are provided and the entries are named in one of the two ways, only exposed entries
of the ordered list clash. -/
theorem bindsApartUnlessExposed_topologicalSort {known : List String}
    (hcl : Closed entries [] known) (hnm : ∀ entry ∈ entries, entry.IsNamed given) :
    BindsApartUnlessExposed given (topologicalSort entries) := by
  have hd := nodup_names_topologicalSort entries
  have hs : ∀ entry ∈ topologicalSort entries, entry.IsNamed given :=
    fun entry he => hnm entry (mem_of_mem_topologicalSort he)
  have hc := fun entry he other ho =>
    @isExposed_of_binding_eq given _ hd hs entry other he ho
  refine ⟨hd, hc, fun hn => ?_⟩
  refine BindsApart.of_injective hd ?_ ?_
  · intro entry he name hna
    rw [mem_names_topologicalSort]
    exact (hcl.mentioned entry (mem_of_mem_topologicalSort he) name hna).resolve_right
      (by simp)
  · intro entry he other ho heq
    by_contra hne
    rcases hc entry he other ho hne heq with hex | hex
    · exact hn entry he hex
    · exact hn other ho hex

end

namespace GraphQL

/-- Enumerations and input objects have the names of their types, and all other entries have
composed names. -/
theorem Source.isNamed {setting : Setting} {before : List Entry} {entry : Entry}
    (h : Source setting before entry.name entry.schema entry.category) :
    entry.IsNamed [.enum, .input] := by
  unfold Entry.IsNamed
  generalize entry.category = category at h
  cases h with
  | enum => exact Or.inl (by simp)
  | input => exact Or.inl (by simp)
  | operationVariables hn => exact Or.inr hn
  | fragment hn => exact Or.inr hn
  | response hn => exact Or.inr hn

end GraphQL

namespace OpenApi

/-! ## Names in catalogs of API documents -/

/-- Every entry is that of a component or has a composed name. -/
def Named (progress : Progress) : Prop := ∀ entry ∈ progress.entries, entry.IsNamed [.component]

/-- An entry that is named may be added. -/
theorem Named.add {progress : Progress} (h : Named progress) {name : String} {schema : Schema}
    {category : Category} (hn : category ∈ [.component] ∨ Name.IsComposed name) :
    Named (progress.add name schema category) :=
  forall_mem_concat h hn

/-- Every step in the making of a catalog leaves the entries named. -/
theorem kept_named (setting : Setting) (operations : List Operation) :
    Kept setting operations (fun _ => True) fun _ => Named where
  queued _ _ _ := trivial
  left h hp _ := by
    unfold Named
    rw [hp.entries]
    exact h
  component := by
    intro asked before progress later name schema h hp _ _ hr
    have hl : Named later := by
      unfold Named
      rw [((quiet_schemaOf _ _).frame hr).1, (progress.take_entries name).1, hp.entries]
      exact h
    exact hl.add (Or.inl (by simp))
  refused h _ _ _ := h
  answered := by
    intro asked progress later role operation name schema after h _ hc _ hr
    have hl : Named later := by
      unfold Named
      rw [((operation.quiet_conversion role).frame hr).1]
      exact h
    refine hl.add (Or.inr ?_)
    unfold Operation.claim? at hc
    split at hc
    · obtain ⟨base, hb, rfl⟩ := Option.map_eq_some_iff.mp hc
      unfold Operation.entryBase at hb
      split at hb
      · cases hb
        exact ⟨_, role.ending, by cases role <;> decide, rfl⟩
      · cases hb
    · cases hc

end OpenApi

/-! ## Catalogs -/

/-- A catalog of client documents or of the operations of an API document, with the roles whose
entries have the names that are given in the description. -/
inductive Catalog.Arises : List Category → Catalog → Prop
  | documents {system : GraphQL.TypeSystem} {documents : GraphQL.Documents}
      {library : Option String} {overrides : List (String × String)} {registry : Registry}
      {result : Catalog} (hregistry : Registry.ofName library overrides = .ok registry)
      (hcatalog : GraphQL.catalog ⟨system, documents, registry⟩ = .ok result) :
      Arises [.enum, .input] result
  | operations {graph : Graph} {operations : List OpenApi.Operation} {ids : Option (List String)}
      {result : Catalog} (hcatalog : OpenApi.catalog graph operations ids = .ok result) :
      Arises [.component] result

/-- In every catalog the names of the entries are distinct, and two entries have the same binding
only if one of them is exposed: the name of a type or a component starts with a lower-case letter,
or a name starts beyond ASCII. Otherwise each entry has a binding of its own. -/
theorem catalog_bindsApart_unless_exposed {given : List Category} {result : Catalog}
    (h : Catalog.Arises given result) : BindsApartUnlessExposed given result.entries := by
  cases h with
  | documents hrg hc =>
    obtain ⟨⟨_, progress⟩, hrn, hr⟩ := of_bind_eq_ok hc
    cases hr
    have hn := Registry.nameless_of_ofName hrg
    have ht := GraphQL.ensures_traced_addAll hn _ _ _ (GraphQL.Traced.start _) hrn
    refine bindsApartUnlessExposed_topologicalSort (GraphQL.closed_of_addAll hn hrn)
      fun entry he => ?_
    obtain ⟨before, after, hsp⟩ := append_of_mem he
    exact (ht.built.of_split hsp).source.isNamed
  | operations hc =>
    obtain ⟨chosen, -, hc⟩ := of_bind_eq_ok hc
    obtain ⟨setting, -, hc⟩ := of_bind_eq_ok hc
    obtain ⟨⟨_, progress⟩, hrn, hr⟩ := of_bind_eq_ok hc
    cases hr
    obtain ⟨hs, hp⟩ := OpenApi.settled_of_addAll hrn
    obtain ⟨used, hu⟩ := OpenApi.exists_used_of_addAll hrn
    have hcl := hs.closed
    rw [hp] at hcl
    have hst : OpenApi.Named .start := by simp [OpenApi.Named, OpenApi.Progress.start]
    have hnm := (OpenApi.kept_named setting chosen).ensures_addAll hu (fun _ _ => trivial)
    exact bindsApartUnlessExposed_topologicalSort hcl (hnm _ _ _ hst hrn).1

/-- The six entries for the query about pets and the four for the operations on pets have bindings
of their own. -/
theorem petCatalogs_bindApart :
    ∃ registry result described, Registry.ofName none [] = .ok registry ∧
      GraphQL.catalog ⟨GraphQL.petSystem, GraphQL.petDocuments, registry⟩ = .ok result ∧
      OpenApi.catalog OpenApi.petGraph OpenApi.petOperations none = .ok described ∧
      result.entries.map (fun entry => Name.binding entry.name) =
        ["kindSchema", "searchSchema", "bFragmentSchema", "aFragmentSchema",
          "findQueryVariablesSchema", "findQuerySchema"] ∧
      described.entries.map (fun entry => Name.binding entry.name) =
        ["petSchema", "ownerSchema", "listOwnersResponseSchema", "listPetsResponseSchema"] ∧
      BindsApart result.entries ∧ BindsApart described.entries := by
  have hc : GraphQL.catalog ⟨GraphQL.petSystem, GraphQL.petDocuments, none,
      Registry.defaults⟩ = .ok _ := rfl
  have hd : OpenApi.catalog OpenApi.petGraph OpenApi.petOperations none = .ok _ := rfl
  refine ⟨_, _, _, Registry.ofName_none, hc, hd, by decide +kernel, by decide +kernel,
    ?_, ?_⟩
  · exact (catalog_bindsApart_unless_exposed (.documents Registry.ofName_none hc)).apart
      (not_isExposed_of_all (by decide +kernel))
  · exact (catalog_bindsApart_unless_exposed (.operations hd)).apart
      (not_isExposed_of_all (by decide +kernel))

/-! ## Two colors -/

/-- Two enumerations whose names differ in the case of the initial. -/
def colorSystem : GraphQL.TypeSystem where
  types :=
    [⟨"Query", .object [("warm", .named "Color"), ("cold", .named "color")]⟩,
      ⟨"Color", .enum ["RED"]⟩, ⟨"color", .enum ["BLUE"]⟩]
  query := some "Query"
  mutation := none

/-- A query for both colors. -/
def colorDocuments : GraphQL.Documents where
  operations :=
    [⟨"Paint", .query, [], [.field none "warm" [] [] none, .field none "cold" [] [] none], "paint"⟩]
  fragments := []
  skipped := []

/-- The two enumerations are different entries with one binding, and the module exports it twice. -/
theorem colors_share_binding : ∃ registry result, Registry.ofName none [] = .ok registry ∧
      GraphQL.catalog ⟨colorSystem, colorDocuments, registry⟩ = .ok result ∧
      result.entries.map (·.name) = ["Color", "color", "PaintQuery"] ∧
      result.entries.map (fun entry => Name.binding entry.name) =
        ["colorSchema", "colorSchema", "paintQuerySchema"] ∧
      ¬BindsApart result.entries := by
  have hc : GraphQL.catalog ⟨colorSystem, colorDocuments, none, Registry.defaults⟩ =
      .ok _ := rfl
  refine ⟨_, _, rfl, hc, by decide +kernel, by decide +kernel, fun ha => ?_⟩
  exact absurd ha.bindings (by decide +kernel)

end ApiSchema
