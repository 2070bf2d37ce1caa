/-
# Code of a library

Code for a scalar is accepted only if it starts the way expressions of the library start, and code
comes into a catalog only through the registry. So no code of another library reaches a catalog, and
what is suggested in the place of such code is accepted.
-/
import ApiSchema.Proofs.GraphQL.Assembly

namespace ApiSchema

open List

variable {scalar code : String} {schema : Schema} {overrides : List (String × String)}

/-! ## Accepted code -/

/-- The code starts with one of the openings of the library. -/
def Library.Starts (library : Library) (code : String) : Prop :=
  ∃ opening ∈ library.openings, opening.toList <+: code.toList

theorem Library.accepts_iff (library : Library) (code : String) :
    library.accepts code ↔ library.Starts code := by
  simp only [accepts, Starts, any_eq_true, isPrefixOf_iff_prefix]

/-- Every suggestion is code of the library. -/
theorem Library.starts_suggest (library : Library) : library.Starts (library.suggest code) := by
  have ht : ((library.textCode :: library.suggestions.map (·.2)).all library.accepts) := by
    cases library <;> decide +kernel
  have hm : library.suggest code ∈ library.textCode :: library.suggestions.map (·.2) := by
    unfold suggest
    dsimp only
    cases hl : library.suggestions.lookup ((suggestionAliases.lookup code).getD code) with
    | none => exact mem_cons_self ..
    | some found =>
      obtain ⟨before, after, hs, -⟩ := lookup_eq_some_iff.mp hl
      rw [hs]
      simp
  exact (library.accepts_iff _).mp (all_eq_true.mp ht _ hm)

namespace Registry

variable {library : Library} {registry : Registry}

theorem registerCode_of_starts (h : registry.library = some library) (hc : library.Starts code) :
    registry.registerCode scalar code = .ok (registry.register scalar (.raw code)) := by
  unfold registerCode
  rw [h]
  dsimp only
  rw [if_pos ((library.accepts_iff code).mpr hc)]

theorem registerCode_of_not_starts (h : registry.library = some library)
    (hc : ¬ library.Starts code) :
    registry.registerCode scalar code = .error (.foreignCode scalar code library) := by
  unfold registerCode
  rw [h]
  dsimp only
  rw [if_neg (mt (library.accepts_iff code).mp hc)]

/-- The first of some overrides whose code does not start like an expression of the library. -/
def FirstForeign (library : Library) (overrides : List (String × String))
    (override : String × String) : Prop :=
  ∃ before after, overrides = before ++ override :: after ∧
    (∀ earlier ∈ before, library.Starts earlier.2) ∧ ¬ library.Starts override.2

/-- The first override is foreign, or it is not and the first foreign one comes later. -/
theorem firstForeign_cons_iff {first override : String × String} {rest : List (String × String)} :
    FirstForeign library (first :: rest) override ↔ (¬ library.Starts first.2 ∧ override = first) ∨
        (library.Starts first.2 ∧ FirstForeign library rest override) := by
  constructor
  · rintro ⟨before, after, hs, hb, hf⟩
    cases before with
    | nil =>
      obtain ⟨rfl, rfl⟩ := List.cons.inj hs
      exact Or.inl ⟨hf, rfl⟩
    | cons earlier before =>
      obtain ⟨rfl, rfl⟩ := List.cons.inj hs
      exact Or.inr ⟨hb first (mem_cons_self ..), before, after, rfl,
        (forall_mem_cons.mp hb).2, hf⟩
  · rintro (⟨hf, rfl⟩ | ⟨hfr, before, after, rfl, hb, hf⟩)
    · exact ⟨[], rest, rfl, nofun, hf⟩
    · refine ⟨first :: before, after, rfl, ?_, hf⟩
      intro other ho
      rcases mem_cons.mp ho with rfl | ho
      · exact hfr
      · exact hb other ho

/-- Registering the code of all overrides fails at the first foreign one, and only there. -/
theorem registerAll_eq_error_iff {error : ScalarError} :
    ∀ {registry : Registry}, registry.library = some library →
      (registry.registerAll overrides = .error error ↔ ∃ scalar code,
        FirstForeign library overrides (scalar, code) ∧
          error = .foreignCode scalar code library) := by
  induction overrides with
  | nil =>
    intro registry _
    constructor
    · intro he
      cases he
    · rintro ⟨scalar, code, ⟨before, after, hs, -⟩, -⟩
      exact absurd hs (by simp)
  | cons first rest ih =>
    intro registry h
    obtain ⟨scalar, code⟩ := first
    by_cases hc : library.Starts code
    · have hn : registry.registerAll ((scalar, code) :: rest) =
          (registry.register scalar (.raw code)).registerAll rest := by
        rw [registerAll, registerCode_of_starts h hc]
        rfl
      have hl : (registry.register scalar (.raw code)).library = some library := h
      rw [hn, ih hl]
      simp only [firstForeign_cons_iff, hc, not_true_eq_false, false_and, false_or, true_and]
    · have hst : registry.registerAll ((scalar, code) :: rest) =
          .error (.foreignCode scalar code library) := by
        rw [registerAll, registerCode_of_not_starts h hc]
        rfl
      rw [hst]
      simp only [firstForeign_cons_iff, hc, not_false_eq_true, true_and, false_and, or_false,
        Prod.mk.injEq]
      constructor
      · intro he
        cases he
        exact ⟨scalar, code, ⟨rfl, rfl⟩, rfl⟩
      · rintro ⟨_, _, ⟨rfl, rfl⟩, rfl⟩
        rfl

/-- If all code is registered, all of it is code of the library. -/
theorem starts_of_registerAll : ∀ {registry registry' : Registry}, registry.library = some library →
      registry.registerAll overrides = .ok registry' →
        ∀ override ∈ overrides, library.Starts override.2 := by
  induction overrides with
  | nil => exact nofun
  | cons first rest ih =>
    intro registry registry' h ha override ho
    obtain ⟨scalar, code⟩ := first
    obtain ⟨next, hf, hr⟩ := of_bind_eq_ok ha
    have hc : library.Starts code := by
      by_contra hc
      rw [registerCode_of_not_starts h hc] at hf
      cases hf
    have hl : next.library = some library := by
      rw [eq_register_of_registerCode hf]
      exact h
    rcases mem_cons.mp ho with rfl | ho
    · exact hc
    · exact ih hl hr override ho

/-- The common scalars hold no code. -/
theorem not_part_raw_defaults {pair : String × Schema} (h : pair ∈ defaults) :
    ¬ Schema.Part (.raw code) pair.2 := by
  have hk : ∀ pair ∈ defaults, pair.2.isLeaf ∧ pair.2 ≠ .raw code ∨
      pair.2 = .record .text .unknown := by
    simp [defaults, Schema.isLeaf, Schema.text, Schema.unknown]
  rcases hk pair h with ⟨hl, hn⟩ | hr
  · rw [Schema.part_iff_eq hl]
    exact hn.symm
  · rw [hr, Schema.part_record_iff, Schema.part_iff_eq rfl, Schema.part_iff_eq rfl]
    simp [Schema.text, Schema.unknown]

/-- Code in the schema of a scalar is the code of an override. -/
theorem override_of_part_raw {library : Option Library}
    (hr : of library overrides = .ok registry)
    (hg : registry.get? scalar = some schema)
    (hp : Schema.Part (.raw code) schema) : ∃ override ∈ overrides, override.2 = code := by
  have hm : (scalar, schema) ∈ registry.schemas := Assoc.mem_of_get?_eq_some hg
  rcases of_mem_registerAll hr _ hm with he | ⟨override, ho, hv⟩
  · exact absurd hp (not_part_raw_defaults he)
  · have hs : schema = .raw override.2 := hv
    rw [hs] at hp
    cases hp
    exact ⟨override, ho, rfl⟩

end Registry

/-! ## Code in catalogs -/

namespace GraphQL

/-- That all code in a schema is among some codes is inherited from the registered scalars. -/
theorem compositional_raw {setting : Setting} {codes : List String}
    (hsc : ∀ {name schema}, setting.registry.get? name = some schema →
      ∀ code, Schema.Part (.raw code) schema → code ∈ codes) :
    Compositional setting fun schema => ∀ code, Schema.Part (.raw code) schema → code ∈ codes := by
  intro position schema hs code hp
  obtain ⟨_, -, ⟨hu, -⟩ | ⟨_, _, -, hg, hp⟩⟩ := hs.exists_within rfl hp
  · cases hu
  · exact hsc hg code hp

/-- Overrides are refused exactly if some code does not start like an expression of the library. The
first such override is named, and the suggestion in its place would be accepted. Otherwise all code
at any depth of a catalog is code of an override, and code of the library. -/
theorem catalog_code_belongs_to_library (system : TypeSystem) (documents : Documents)
    (overrides : List (String × String)) (library : Library) :
    ((∃ error, Registry.of (some library) overrides = .error error) ↔
        ∃ override ∈ overrides, ¬ library.Starts override.2) ∧
      (∀ error, Registry.of (some library) overrides = .error error →
        ∃ scalar code, Registry.FirstForeign library overrides (scalar, code) ∧
          error = .foreignCode scalar code library ∧
          (∃ before, error.message = before ++ library.suggest code ++ "\"?") ∧
          ∀ registry : Registry, registry.library = some library →
            ∃ registry', registry.registerCode scalar (library.suggest code) = .ok registry') ∧
      ∀ registry result, Registry.of (some library) overrides = .ok registry →
        catalog ⟨system, documents, registry⟩ = .ok result →
          ∀ entry ∈ result.entries, ∀ code, Schema.Part (.raw code) entry.schema →
            (∃ scalar, (scalar, code) ∈ overrides) ∧ library.Starts code := by
  refine ⟨⟨?_, ?_⟩, ?_, ?_⟩
  · rintro ⟨error, he⟩
    obtain ⟨scalar, code, ⟨before, after, rfl, -, hf⟩, -⟩ :=
      (Registry.registerAll_eq_error_iff rfl).mp he
    exact ⟨(scalar, code), by simp, hf⟩
  · rintro ⟨override, ho, hf⟩
    cases ha : Registry.of (some library) overrides with
    | error error => exact ⟨error, rfl⟩
    | ok registry =>
      exact absurd (Registry.starts_of_registerAll rfl ha override ho) hf
  · intro error he
    obtain ⟨scalar, code, hfr, rfl⟩ := (Registry.registerAll_eq_error_iff rfl).mp he
    exact ⟨scalar, code, hfr, rfl, ⟨_, rfl⟩, fun registry hl =>
      ⟨_, Registry.registerCode_of_starts hl library.starts_suggest⟩⟩
  · intro registry result hr hc entry hen code hp
    have hrw : Compositional ⟨system, documents, registry⟩ fun schema =>
        ∀ code, Schema.Part (.raw code) schema → code ∈ overrides.map (·.2) :=
      compositional_raw fun hg code hp =>
        mem_map.mpr (Registry.override_of_part_raw hr hg hp)
    obtain ⟨⟨scalar, code'⟩, ho, rfl⟩ :=
      mem_map.mp (hrw.of_catalog hc entry hen code hp)
    exact ⟨⟨scalar, ho⟩, Registry.starts_of_registerAll rfl hr _ ho⟩

/-- Prices, which are a scalar of their own. -/
def priceSystem : TypeSystem where
  types := [⟨"Query", .object [("prices", .list (.named "Money"))]⟩, ⟨"Money", .scalar⟩]
  query := some "Query"
  mutation := none

/-- A query for the prices. -/
def priceDocuments : Documents where
  operations := [⟨"prices", .query, [], [.field none "prices" [] [] none], "prices"⟩]
  fragments := []
  skipped := []

/-- Code of another library is refused. Without it, the code for money is in the response, and it is
code of the library. -/
theorem catalog_code_belongs_to_library_prices : (∃ scalar code, Registry.FirstForeign .valibot
        [("Money", "v.number()"), ("Link", "z.url()")] (scalar, code)) ∧
      ∃ registry result entry, Registry.of (some .valibot)
        [("Money", "v.number()")] = .ok registry ∧
        catalog ⟨priceSystem, priceDocuments, registry⟩ = .ok result ∧ entry ∈ result.entries ∧
        Schema.Part (.raw "v.number()") entry.schema ∧ Library.valibot.Starts "v.number()" := by
  constructor
  · obtain ⟨scalar, code, hf, -⟩ := (catalog_code_belongs_to_library priceSystem priceDocuments
      [("Money", "v.number()"), ("Link", "z.url()")] .valibot).2.1 _ rfl
    exact ⟨scalar, code, hf⟩
  · have hr : Registry.of (some .valibot) [("Money", "v.number()")] =
      .ok ⟨some .valibot, Registry.defaults ++ [("Money", .raw "v.number()")]⟩ := rfl
    obtain ⟨result, hc, entry, he, hp⟩ : ∃ result,
        catalog ⟨priceSystem, priceDocuments,
          ⟨some .valibot, Registry.defaults ++ [("Money", .raw "v.number()")]⟩⟩ = .ok result ∧
        ∃ entry ∈ result.entries, Schema.Part (.raw "v.number()") entry.schema :=
      ⟨_, rfl, _, mem_singleton_self _, .field (mem_singleton_self _)
        (.alternative (mem_cons_self ..) (.items (.alternative (mem_cons_self ..) .whole)))⟩
    exact ⟨_, _, _, hr, hc, he, hp,
      ((catalog_code_belongs_to_library priceSystem priceDocuments [("Money", "v.number()")]
        .valibot).2.2 _ _ hr hc _ he _ hp).2⟩

end GraphQL

end ApiSchema
