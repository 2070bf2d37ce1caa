/-
# The order of definitions

What belongs into a catalog depends on the operations and fragments of the documents, but not on
their order: under each name the same fragment is found, the same types are called for, and each
definition is described alike. So documents with the same definitions in another order have a
catalog with the same contents.
-/
import ApiSchema.Proofs.GraphQL.Making

namespace ApiSchema.GraphQL

open List

/-! ## Documents -/

/-- The documents have the operations and fragments of others, in any order. -/
structure Documents.Reorders (documents others : Documents) : Prop where
  operations : documents.operations.Perm others.operations
  fragments : documents.fragments.Perm others.fragments

/-- If the elements of a list have different names, the order makes no difference to what is found
under a name. -/
theorem find?_eq_of_perm {α : Type} {name : α → String} {elements others : List α}
    (h : elements.Perm others) (hd : (others.map name).Nodup) {wanted : String} :
    elements.find? (fun element => name element == wanted) =
      others.find? (fun element => name element == wanted) := by
  cases hf : elements.find? (fun element => name element == wanted) with
  | none =>
    refine (find?_eq_none.mpr fun element hm => ?_).symm
    exact find?_eq_none.mp hf element (h.mem_iff.mpr hm)
  | some element =>
    have hn : name element = wanted := by simpa using find?_some hf
    rw [← hn]
    exact (find?_of_nodup_map hd (h.subset (mem_of_find?_eq_some hf))).symm

variable {selections : List Selection}

/-- Selections are as many in any order. -/
theorem sizeOfAll_eq_of_perm {others : List Selection} (h : selections.Perm others) :
    Selection.sizeOfAll selections = Selection.sizeOfAll others := by
  induction h with
  | nil => rfl
  | cons selection _ ih => rw [Selection.sizeOfAll, Selection.sizeOfAll, ih]
  | swap first second rest =>
    simp only [Selection.sizeOfAll]
    omega
  | trans _ _ ih ih' => exact ih.trans ih'

namespace Documents.Reorders

variable {documents others : Documents}

theorem symm (h : documents.Reorders others) : others.Reorders documents :=
  ⟨h.operations.symm, h.fragments.symm⟩

/-- Under each name the same fragment is found, and the size is the same. -/
theorem includes (h : documents.Reorders others)
    (hd : (others.fragments.map (·.name)).Nodup) : documents.Includes others where
  fragment? := funext fun name => find?_eq_of_perm h.fragments hd
  size := by
    unfold Documents.size
    rw [sizeOfAll_eq_of_perm (h.operations.flatMap_right _),
      sizeOfAll_eq_of_perm (h.fragments.flatMap_right _)]
  fragments := h.fragments.length_eq.ge

end Documents.Reorders

/-! ## Outlines -/

section

variable {setting : Setting} {documents : Documents}

theorem spreadType?_on (h : documents.fragment? = setting.documents.fragment?) :
    (setting.on documents).spreadType? = setting.spreadType? := by
  funext name
  unfold Setting.spreadType?
  rw [h]

mutual

/-- A selection has the same outline. -/
theorem outline_on (h : documents.fragment? = setting.documents.fragment?) {parent : NamedType}
    {selection : Selection} :
    outline (setting.on documents) parent selection = outline setting parent selection := by
  match selection with
  | .field _ _ _ _ (some selections) =>
    rw [outline]
    simp only [outlineAll_on h _ selections]
    rfl
  | .field _ _ _ _ none =>
    rfl
  | .spread name _ => rw [outline, outline, spreadType?_on h]
  | .inline condition _ selections =>
    rw [outline]
    simp only [outlineAll_on h _ selections]
    rfl

theorem outlineAll_on (h : documents.fragment? = setting.documents.fragment?) (parent : NamedType)
    (selections : List Selection) :
    outlineAll (setting.on documents) parent selections = outlineAll setting parent selections := by
  match selections with
  | [] => rw [outlineAll, outlineAll]
  | selection :: rest =>
    rw [outlineAll, outlineAll, outline_on h, outlineAll_on h parent rest]

end

/-- The contents of fragments and operations are the same, in another order. -/
theorem perm_ownContents (h : documents.fragment? = setting.documents.fragment?)
    (hr : documents.Reorders setting.documents) :
    (setting.on documents).ownContents.Perm setting.ownContents := by
  have hf : (setting.on documents).fragmentContent? = setting.fragmentContent? := by
    funext fragment
    unfold Setting.fragmentContent?
    rw [spreadType?_on h]
    simp only [outlineAll_on h]
  have ho : (setting.on documents).operationContents = setting.operationContents := by
    funext operation
    unfold Setting.operationContents Setting.responseContent?
    simp only [outlineAll_on h]
    rfl
  unfold Setting.ownContents
  rw [hf, ho]
  exact (hr.fragments.filterMap _).append (hr.operations.flatMap_right _)

/-- With its definitions in another order a setting stays orderly. -/
theorem Setting.Orderly.reorder (ho : setting.Orderly)
    (hr : documents.Reorders setting.documents) : (setting.on documents).Orderly := by
  have hf := (hr.includes ho.fragments).fragment?
  have hn : (setting.on documents).ownNames.Perm setting.ownNames := by
    rw [← map_name_ownContents, ← map_name_ownContents]
    exact (perm_ownContents hf hr).map _
  constructor
  case fragments => exact ((hr.fragments.map _).nodup_iff).mpr ho.fragments
  case acyclic =>
    have hs : documents.Spreads = setting.documents.Spreads := by
      unfold Documents.Spreads
      rw [hf]
    intro name
    rw [hs]
    exact ho.acyclic name
  case names => exact hn.nodup_iff.mpr ho.names
  case types => exact fun name hnm => ho.types name (hn.mem_iff.mp hnm)

/-! ## Types that are called for -/

/-- The making of a schema refers to the same types. -/
theorem Refers.on (hi : documents.Includes setting.documents) {merging : List String}
    {type : NamedType} {name : String}
    (h : Refers setting merging type selections name) :
    Refers (setting.on documents) merging type selections name := by
  obtain ⟨schema, notes, queued, hr, hq⟩ := h
  have he : (setting.on documents).spreadRecord? = setting.spreadRecord? := funext fun name => by
    rw [Setting.spreadRecord?, spreadType?_on hi.fragment?, Setting.spreadRecord?]
  refine ⟨schema, notes, queued, ?_, hq⟩
  rw [he]
  exact ((variation_of_fragment? hi.fragment? _).of_readSchema hi.depth_le trivial
    hr).1

/-- The same types are called for. -/
theorem Called.reorder (hd : (setting.documents.fragments.map (·.name)).Nodup)
    (hr : documents.Reorders setting.documents) {name : String}
    (h : Called setting name) : Called (setting.on documents) name := by
  have hi := hr.includes hd
  cases h with
  | input ht hm =>
    exact .input ht (TypeSystem.inputsOf_subset hr.operations.symm.subset hm)
  | enumeration ht hm =>
    refine .enumeration ht (TypeSystem.mem_enumsOf_iff.mpr ?_)
    obtain ⟨body, hbd, hrd⟩ := TypeSystem.mem_enumsOf_iff.mp hm
    have hb := (hr.operations.filterMap fun operation =>
      (setting.system.root? operation.kind).map (·, operation.selections)).append
        (hr.fragments.filterMap setting.system.fragmentBody?)
    exact ⟨body, hb.mem_iff.mpr hbd, hrd⟩
  | fragment hm hrf =>
    obtain ⟨type, ht, hrf⟩ := hrf
    refine .fragment (hr.fragments.mem_iff.mpr hm) ⟨type, ?_, hrf.on hi⟩
    rw [spreadType?_on hi.fragment?]
    exact ht
  | response hm hrf =>
    obtain ⟨root, hrt, hrf⟩ := hrf
    exact .response (hr.operations.mem_iff.mpr hm) ⟨root, hrt, hrf.on hi⟩

theorem Belongs.reorder (hd : (setting.documents.fragments.map (·.name)).Nodup)
    (hr : documents.Reorders setting.documents) {content : Content}
    (h : Belongs setting content) : Belongs (setting.on documents) content := by
  have hi := hr.includes hd
  rcases h with ho | ⟨type, ht, hcl, hc⟩
  · exact Or.inl ((perm_ownContents hi.fragment? hr).mem_iff.mpr ho)
  · exact Or.inr ⟨type, ht, hcl.reorder hd hr, hc⟩

end

/-! ## Catalogs -/

/-- If fragments have different names and do not lead back to themselves, and the entries of
fragments and operations have names of their own that are not names of types, the order of the
definitions makes no difference: with the operations and the fragments in any other order a catalog
comes about as well, and its entries have the same names, categories and schemas. -/
theorem catalog_contents_in_any_order {setting : Setting} {documents : Documents}
    (horderly : setting.Orderly)
    (hoperations : documents.operations.Perm setting.documents.operations)
    (hfragments : documents.fragments.Perm setting.documents.fragments) :
    ∃ result result', catalog setting = .ok result ∧ catalog (setting.on documents) = .ok result' ∧
      ∀ content, content ∈ result.entries.map Content.of ↔
        content ∈ result'.entries.map Content.of := by
  have hr : documents.Reorders setting.documents := ⟨hoperations, hfragments⟩
  have ho' := horderly.reorder hr
  obtain ⟨result, hrs, hc⟩ := exists_catalog_contents horderly
  obtain ⟨result', hr', hc'⟩ := exists_catalog_contents ho'
  refine ⟨result, result', hrs, hr', fun content => ?_⟩
  rw [hc, hc']
  exact ⟨Belongs.reorder horderly.fragments hr,
    Belongs.reorder ho'.fragments hr.symm⟩

/-- Pets and other animals. The breed of a pet stands where an animal in general has its kind. -/
def breedSystem : TypeSystem where
  types :=
    [⟨"Query", .object [("pet", .named "Pet"), ("animal", .named "Animal")]⟩,
      ⟨"Animal", .interface [("kind", .named "Kind")]⟩,
      ⟨"Pet", .object [("kind", .named "Breed"), ("name", .named "String")]⟩,
      ⟨"Kind", .enum ["CAT", "DOG"]⟩, ⟨"Breed", .enum ["PUG"]⟩, ⟨"Coat", .enum ["LONG", "SHORT"]⟩,
      ⟨"PetFilter", .input [⟨"coat", .named "Coat", false⟩]⟩, ⟨"String", .scalar⟩]
  query := some "Query"
  mutation := none

/-- Two queries and two fragments, of which the first one spreads the second one. -/
def breedDocuments : Documents where
  operations :=
    [⟨"findPet", .query, [⟨"filter", .named "PetFilter", none, []⟩],
        [.field none "pet" [] [] (some [.spread "Named" [],
          .inline (some "Animal") [] [.field none "kind" [] [] none]])], "pets"⟩,
      ⟨"findAnimal", .query, [],
        [.field none "animal" [] [] (some [.field none "kind" [] [] none])], "pets"⟩]
  fragments :=
    [⟨⟨"Named", "Pet", [], [.field none "name" [] [] none, .spread "Bred" []]⟩, "pets"⟩,
      ⟨⟨"Bred", "Pet", [], [.field none "kind" [] [] none]⟩, "pets"⟩]
  skipped := []

/-- The definitions from the last to the first. -/
def breedDocumentsReversed : Documents :=
  ⟨breedDocuments.operations.reverse, breedDocuments.fragments.reverse, []⟩

/-- The documents on pets, and the scalars that are always registered. -/
def breedSetting : Setting := ⟨breedSystem, breedDocuments, ⟨none, Registry.defaults⟩⟩

theorem orderly_breedSetting : breedSetting.Orderly where
  fragments := by decide
  acyclic := Documents.acyclic_of_rank (fun name => if name = "Named" then 1 else 0) (by decide)
  names := by decide +kernel
  types := by decide +kernel

/-- The entries come in another order, with the same names, categories and schemas. -/
theorem contents_of_breeds_reversed : ∃ result result', catalog breedSetting = .ok result ∧
      catalog (breedSetting.on breedDocumentsReversed) = .ok result' ∧
      (∀ content, content ∈ result.entries.map Content.of ↔
        content ∈ result'.entries.map Content.of) ∧
      result.entries.map (·.name) ≠ result'.entries.map (·.name) := by
  have ho : breedDocumentsReversed.operations.Perm breedSetting.documents.operations :=
    reverse_perm _
  obtain ⟨result, result', hr, hr', hc⟩ :=
    catalog_contents_in_any_order orderly_breedSetting ho (reverse_perm _)
  refine ⟨result, result', hr, hr', hc, ?_⟩
  cases hr
  cases hr'
  decide +kernel

end ApiSchema.GraphQL
