/-
# Which names can be exported

The names of entries and of their bindings are to be identifiers. For types of a schema they always
are. The name of a fragment or of an operation in a document may open with a digit behind
underscores, which are not kept. The name of a component may have dots and hyphens or open with a
digit, and the name of an operation of an API document may be any text. The names of all other
entries are identifiers.
-/
import ApiSchema.GraphQL.Introspection
import ApiSchema.Proofs.GraphQL.Ownership
import ApiSchema.Proofs.Identifiers
import ApiSchema.Proofs.OpenApi.Ownership
import Mathlib.Data.List.Find

namespace ApiSchema

open List

open Name Text

variable {text name : String} {setting : Setting} {role : Role} {progress : Progress}
  {entry : Entry}

namespace GraphQL

open Introspection (isName)

/-! ## Names in documents -/

/-- The names of the operations and fragments of documents. -/
def Documents.names (documents : Documents) : List String :=
  documents.operations.map (·.name) ++ documents.fragments.map (·.name)

/-- The names of operations and fragments are written as names. -/
def Documents.IsWellNamed (documents : Documents) : Prop :=
  ∀ name ∈ documents.names, isName name = true

/-- The names of types are written as names. -/
def TypeSystem.IsWellNamed (system : TypeSystem) : Prop :=
  ∀ type ∈ system.types, isName type.name = true

/-- Whether a digit comes first after underscores. -/
def opensWithDigit (text : String) : Bool := (text.toList.find? (· != '_')).any (·.isDigit)

/-- The characters of a name in a document are those of identifiers, and only underscores separate
words. -/
theorem isIdentifierPart_of_isNamePart {c : Char} (h : Token.isNamePart c) :
    isIdentifierPart c ∧ isSeparator c = (c == '_') := by
  have hp : isIdentifierPart c := by
    simp only [Token.isNamePart, Token.isNameStart, Token.isDigit, isIdentifierPart,
      isIdentifierStart, Bool.or_eq_true] at h ⊢
    tauto
  have ha : ∀ code < 128, Token.isNamePart (Char.ofNat code) →
      isSeparator (Char.ofNat code) = (Char.ofNat code == '_') := by
    decide +kernel
  have hs := ha c.toNat (lt_of_isIdentifierPart hp)
  rw [Char.ofNat_toNat] at hs
  exact ⟨hp, hs h⟩

/-- A name in a document is made of such characters. -/
theorem isNamePart_of_isName (h : isName text) : ∀ c ∈ text.toList, Token.isNamePart c := by
  unfold isName at h
  split at h
  · cases h
  · rename_i c cs hc
    obtain ⟨hs, hr⟩ := Bool.and_eq_true_iff.mp h
    intro d hd
    rw [hc] at hd
    rcases mem_cons.mp hd with rfl | hd
    · simp [Token.isNamePart, hs]
    · exact all_eq_true.mp hr d hd

/-- A name in a document is an identifier. -/
theorem isExportable_of_isName (h : isName text) : isExportable text := by
  have ha : text.toList.all isIdentifierPart := all_eq_true.mpr fun c hc =>
    (isIdentifierPart_of_isNamePart (isNamePart_of_isName h c hc)).1
  rw [isExportable, ha, Bool.and_true]
  unfold isName at h
  split at h
  · cases h
  · rename_i c cs hch
    rw [hch]
    have hs := (Bool.and_eq_true_iff.mp h).1
    simp only [Token.isNameStart, isIdentifierStart, Bool.or_eq_true, head?_cons,
      Option.any_some] at hs ⊢
    tauto

theorem isPresentable_of_isName (h : isName text) : isPresentable text = !opensWithDigit text := by
  have hp := fun c hc => isIdentifierPart_of_isNamePart (isNamePart_of_isName h c hc)
  have hi : initial? text.toList = text.toList.find? (· != '_') :=
    find?_congr fun c hc => by rw [(hp c hc).2]; rfl
  rw [isPresentable, hasPresentableWords_of_forall fun c hc => (hp c hc).1, hi,
    Bool.true_and, opensWithDigit]

/-! ## Entries of documents -/

/-- The name of the entry is that of a type, or it is composed of the name of an operation or of a
fragment that does not open with a digit. -/
def IsFit (documents : Documents) (entry : Entry) : Prop :=
  entry.category = .enum ∨ entry.category = .input ∨ ∃ text ∈ documents.names,
    (∃ role ∈ roles, entry.name = pascalCase text ++ role) ∧ opensWithDigit text = false

theorem NamedOperation.exists_role_of_claim? {operation : NamedOperation}
    (h : operation.claim? setting role = some name) :
    ∃ role ∈ roles, name = pascalCase operation.name ++ role := by
  refine ⟨String.ofList (role.ending operation.kind), ?_, ?_⟩
  · cases role <;> cases operation.kind <;> decide
  · rw [← String.toList_inj, toList_of_claim? h, String.toList_append, String.toList_ofList]

section

variable (h : Tended setting (fun _ => setting.documents.operations) progress)
include h

/-- An entry is that of a type, or its name is composed of the name of an operation or a fragment.
-/
theorem Tended.exists_text
    (he : entry ∈ progress.entries) :
    entry.category = .enum ∨ entry.category = .input ∨ ∃ text ∈ setting.documents.names,
      ∃ role ∈ roles, entry.name = pascalCase text ++ role := by
  cases h.2.origin entry he with
  | type hc => exact hc.imp_right Or.inl
  | @fragment fragment hfr hn schema extra =>
    refine Or.inr (Or.inr ⟨fragment.name, ?_, "Fragment", by decide, rfl⟩)
    exact mem_append_right _ (mem_map_of_mem hfr)
  | @part role operation name schema hf hs extra =>
    have hcl := claim?_of_firstClaimant? hf
    refine Or.inr (Or.inr ⟨operation.name, ?_, NamedOperation.exists_role_of_claim? hcl⟩)
    exact mem_append_left _ (mem_map_of_mem (mem_of_firstClaimant? hf))

/-- With names that are written as such, the name of an entry is an identifier if it is fit. -/
theorem Tended.isExportable_iff
    (htyp : setting.system.IsWellNamed)
    (hnm : setting.documents.IsWellNamed) (hen : entry ∈ progress.entries) :
    isExportable entry.name ↔ IsFit setting.documents entry := by
  have hty : entry.category = .enum ∨ entry.category = .input → isExportable entry.name := by
    intro hc
    obtain ⟨type, hty, -⟩ := h.isTypeEntry hen hc
    have hn : type.name = entry.name := by simpa using find?_some hty
    rw [← hn]
    exact isExportable_of_isName (htyp type (mem_of_find?_eq_some hty))
  -- Of texts that give one name, all open with a digit or none does.
  have hcm : ∀ text ∈ setting.documents.names, ∀ role ∈ roles,
      isExportable (pascalCase text ++ role) = !opensWithDigit text := by
    intro text ht role hr
    rw [isExportable_pascalCase_append text hr, isPresentable_of_isName (hnm text ht)]
  constructor
  · intro he
    rcases h.exists_text hen with hc | hc | ⟨text, ht, role, hr, hn⟩
    · exact Or.inl hc
    · exact Or.inr (Or.inl hc)
    · refine Or.inr (Or.inr ⟨text, ht, ⟨role, hr, hn⟩, ?_⟩)
      rw [hn, hcm text ht role hr] at he
      simpa using he
  · rintro (hc | hc | ⟨text, ht, ⟨role, hr, hn⟩, ho⟩)
    · exact hty (Or.inl hc)
    · exact hty (Or.inr hc)
    · rw [hn, hcm text ht role hr, ho]
      rfl

end

end GraphQL

namespace OpenApi

/-! ## Entries of API documents -/

/-- The characters that names of components are made of. -/
def isComponentChar (c : Char) : Bool := GraphQL.Token.isNamePart c || c == '.' || c == '-'

/-- Whether a name has no dots and hyphens and does not open with a digit. -/
def isPlainName (name : String) : Bool :=
  name.toList.head?.any (!·.isDigit) && name.toList.all fun c => c != '.' && c != '-'

/-- The name of a component is an identifier if it is plain. -/
theorem isExportable_of_isComponentChar
    (h : name.toList.all isComponentChar) : isExportable name = isPlainName name := by
  have hp : ∀ c, isComponentChar c → isIdentifierPart c = (c != '.' && c != '-') := by
    intro c hc
    simp only [isComponentChar, Bool.or_eq_true, beq_iff_eq] at hc
    rcases hc with (hc | rfl) | rfl
    · have hn : ∀ mark : Char, GraphQL.Token.isNamePart mark = false → (c != mark) := by
        rintro mark hm
        exact bne_iff_ne.mpr fun he => by simp [he, hm] at hc
      rw [(GraphQL.isIdentifierPart_of_isNamePart hc).1, hn '.' (by decide), hn '-' (by decide)]
      rfl
    · decide
    · decide
  have ha : name.toList.all isIdentifierPart =
      name.toList.all fun c => c != '.' && c != '-' := by
    rw [Bool.eq_iff_iff, all_eq_true, all_eq_true]
    exact forall₂_congr fun c hc => by rw [hp c (all_eq_true.mp h c hc)]
  rw [isExportable, isPlainName, ← ha]
  cases hch : name.toList with
  | nil => rfl
  | cons c cs =>
    simp only [head?_cons, Option.any_some, isIdentifierStart_eq, all_cons]
    cases isIdentifierPart c <;> simp

/-- The name of the entry is the plain name of a component, or it is composed of a presentable name
of an operation. -/
def IsFit (operations : List Operation) (entry : Entry) : Prop :=
  entry.category = .component ∧ isPlainName entry.name = true ∨
    ∃ operation ∈ operations, ∃ id, operation.id = .text id ∧
      (∃ role ∈ roles, entry.name = pascalCase id ++ role) ∧ isPresentable id = true

/-- The name that an operation asks for is composed of its own. -/
theorem Operation.exists_role_of_claim? {operation : Operation}
    (h : operation.claim? role = some name) :
    ∃ id, operation.id = .text id ∧ ∃ role ∈ roles, name = pascalCase id ++ role := by
  unfold claim? at h
  split at h
  · obtain ⟨base, hb, rfl⟩ := Option.map_eq_some_iff.mp h
    unfold entryBase at hb
    split at hb
    · rename_i id hi
      cases hb
      exact ⟨id, hi, role.ending, by cases role <;> decide, rfl⟩
    · cases hb
  · cases h

/-- The name of an entry is an identifier if it is fit. -/
theorem Accounted.isExportable_iff {operations : List Operation}
    {used : List String} {entries : List Entry} (h : Accounted setting operations used entries)
    (hnm : ∀ name, .text name ∈ setting.components.map (·.1) →
      name.toList.all isComponentChar) (hen : entry ∈ entries) :
    isExportable entry.name ↔ IsFit operations entry := by
  have ho := h.origin entry hen
  constructor
  · intro he
    cases ho with
    | component hi hm hn hs =>
      have hc := hnm _ (Setting.mem_names_of_componentName? hn)
      exact Or.inl ⟨rfl, (isExportable_of_isComponentChar hc).symm.trans he⟩
    | part hf hs =>
      have hcl := claim?_of_firstClaimant? hf
      obtain ⟨id, hid, role, hr, hn⟩ := Operation.exists_role_of_claim? hcl
      refine Or.inr ⟨_, mem_of_firstClaimant? hf, id, hid, ⟨role, hr, hn⟩, ?_⟩
      rw [← isExportable_pascalCase_append id hr, ← hn]
      exact he
  · rintro (⟨hct, hpl⟩ | ⟨operation, -, id, -, ⟨role, hr, hn⟩, hp⟩)
    · cases ho with
      | component hi hm hn hs =>
        have hc := hnm _ (Setting.mem_names_of_componentName? hn)
        exact (isExportable_of_isComponentChar hc).trans hpl
      | @part role _ _ _ hf hs => cases role <;> cases hct
    · rw [hn, isExportable_pascalCase_append id hr]
      exact hp

end OpenApi

/-! ## Catalogs -/

/-- A catalog of a schema and documents in which names are written as such, or of operations of an
API document whose components have names as usual, with what makes the name of an entry fit. -/
inductive Catalog.Presents : (Entry → Prop) → Catalog → Prop
  | documents {setting : GraphQL.Setting} {library : Option String}
      {overrides : List (String × String)} {result : Catalog}
      (hsystem : setting.system.IsWellNamed) (hdocuments : setting.documents.IsWellNamed)
      (hregistry : Registry.ofName library overrides = .ok setting.registry)
      (hcatalog : GraphQL.catalog setting = .ok result) :
      Presents (GraphQL.IsFit setting.documents) result
  | operations {graph : Graph} {operations chosen : List OpenApi.Operation}
      {ids : Option (List String)} {setting : OpenApi.Setting} {result : Catalog}
      (hdistinct : graph.hasDistinctKeys = true) (hsetting : OpenApi.Setting.of graph = .ok setting)
      (hnames : ∀ name, .text name ∈ setting.components.map (·.1) →
        name.toList.all OpenApi.isComponentChar = true)
      (hchosen : OpenApi.selectOperations ids operations = .ok chosen)
      (hcatalog : OpenApi.catalog graph operations ids = .ok result) :
      Presents (OpenApi.IsFit chosen) result

/-- In every catalog, the name of an entry and that of its binding are identifiers if and only if
the name is fit. -/
theorem exported_names_are_identifiers_iff_fit {fit : Entry → Prop} {result : Catalog}
    (h : Catalog.Presents fit result) :
    ∀ entry ∈ result.entries,
      isExportable entry.name = true ∧ isExportable (binding entry.name) = true ↔ fit entry := by
  intro entry he
  rw [and_iff_left_of_imp isExportable_binding]
  cases h with
  | documents hsy hd hr hc =>
    obtain ⟨⟨_, progress⟩, hrn, hrs⟩ := of_bind_eq_ok hc
    cases hrs
    obtain ⟨ht, -⟩ :=
      GraphQL.ensures_tended_addAll (Registry.nameless_of_ofName hr) _ _ _
        ⟨GraphQL.Traced.start _, GraphQL.Owned.start _⟩ hrn
    exact ht.isExportable_iff hsy hd (mem_of_mem_topologicalSort he)
  | operations hds hs hn hch hc =>
    obtain ⟨chosen, hsl, hc⟩ := of_bind_eq_ok hc
    obtain ⟨setting, hof, hc⟩ := of_bind_eq_ok hc
    cases hch.symm.trans hsl
    cases hs.symm.trans hof
    obtain ⟨used, -, ha⟩ :=
      OpenApi.accounted_catalogOf (OpenApi.Setting.nodup_names hds hof) hc
    exact ha.isExportable_iff hn he

/-! ## Names that cannot be exported -/

/-- A schema with an enumeration, and documents with an operation whose name has no letters. -/
def digitSetting : GraphQL.Setting where
  system := ⟨[⟨"Query", .object [("a", .named "Int")]⟩, ⟨"Kind", .enum ["CAT"]⟩, ⟨"Int", .scalar⟩],
    some "Query", none⟩
  documents := ⟨[⟨"_1", .query, [], [.field none "a" [] [] none], "pets"⟩,
    ⟨"find", .query, [⟨"kind", .named "Kind", none, []⟩], [.spread "_a" []], "pets"⟩],
    [⟨⟨"_a", "Query", [], [.field none "a" [] [] none]⟩, "pets"⟩], []⟩
  registry := ⟨none, Registry.defaults⟩

theorem presents_digitSetting :
    ∃ result, Catalog.Presents (GraphQL.IsFit digitSetting.documents) result ∧
      result.entries.map (·.name) =
        ["Kind", "AFragment", "1Query", "FindQueryVariables", "FindQuery"] := by
  obtain ⟨result, hc, hn⟩ : ∃ result, GraphQL.catalog digitSetting = .ok result ∧
      result.entries.map (·.name) =
        ["Kind", "AFragment", "1Query", "FindQueryVariables", "FindQuery"] := ⟨_, rfl, rfl⟩
  refine ⟨result, .documents ?_ ?_ Registry.ofName_none hc, hn⟩
  · have hs : digitSetting.system.types.all (GraphQL.Introspection.isName ·.name) := by decide
    exact all_eq_true.mp hs
  · have hd : digitSetting.documents.names.all GraphQL.Introspection.isName := by decide
    exact all_eq_true.mp hd

/-- A document with one component, whose name has a dot. -/
def dottedGraph : Graph where
  nodes := #[.map [(.text "components", .node 1)], .map [(.text "schemas", .node 2)],
    .map [(.text "pet.v1", .node 3)],
    .map [(.text "type", .text "string")]]
  root := .node 0

/-- The catalog of an operation that is answered by the component. -/
theorem presents_dottedCatalog : ∃ chosen result, Catalog.Presents (OpenApi.IsFit chosen) result ∧
    result.entries.map (·.name) = ["pet.v1", "ListPetsResponse"] := by
  have hs : OpenApi.Setting.of dottedGraph = .ok ⟨dottedGraph, [(.text "pet.v1", .node 3)]⟩ :=
    rfl
  have hc : OpenApi.catalog dottedGraph [OpenApi.respondingOperation "listPets" (.node 3)]
      none = .ok
        ⟨[Entry.of "pet.v1" (.string none) .component [],
          Entry.of "ListPetsResponse" (.ref "pet.v1") .response []], []⟩ := rfl
  refine ⟨_, _, .operations (by decide) hs (fun name hn => ?_) rfl hc, rfl⟩
  obtain rfl : name = "pet.v1" := by simpa using hn
  decide

/-- All entries of the documents but one have names that are identifiers. -/
theorem digitCatalog_exports_all_but_one :
    ∃ result, Catalog.Presents (GraphQL.IsFit digitSetting.documents) result ∧
      result.entries.map (·.name) =
        ["Kind", "AFragment", "1Query", "FindQueryVariables", "FindQuery"] ∧
      ∀ entry ∈ result.entries,
        (isExportable entry.name = true ∧ isExportable (binding entry.name) = true ↔
          GraphQL.IsFit digitSetting.documents entry) ∧
        (GraphQL.IsFit digitSetting.documents entry ↔ entry.name ≠ "1Query") := by
  obtain ⟨result, hp, hn⟩ := presents_digitSetting
  refine ⟨result, hp, hn, fun entry he => ?_⟩
  have hf := exported_names_are_identifiers_iff_fit hp entry he
  refine ⟨hf, hf.symm.trans ?_⟩
  have hex : ∀ name ∈ ["Kind", "AFragment", "1Query", "FindQueryVariables", "FindQuery"],
      isExportable name = true ∧ isExportable (binding name) = true ↔ name ≠ "1Query" := by
    decide
  exact hex entry.name (hn ▸ mem_map_of_mem he)

/-- The documents and the component are in order, but the names of two entries and of their bindings
are no identifiers. -/
theorem digit_and_dot_are_exported :
    (∃ result, Catalog.Presents (GraphQL.IsFit digitSetting.documents) result ∧
      ∃ entry ∈ result.entries, entry.name = "1Query" ∧
        isExportable entry.name = false ∧ isExportable (binding entry.name) = false) ∧
    ∃ chosen result, Catalog.Presents (OpenApi.IsFit chosen) result ∧
      ∃ entry ∈ result.entries, entry.name = "pet.v1" ∧
        isExportable entry.name = false ∧ isExportable (binding entry.name) = false := by
  have he : ∀ name ∈ ["1Query", "pet.v1"],
      isExportable name = false ∧ isExportable (binding name) = false := by
    decide
  have hf : ∀ {name} {entries : List Entry}, name ∈ entries.map (·.name) →
      name ∈ ["1Query", "pet.v1"] → ∃ entry ∈ entries, entry.name = name ∧
        isExportable entry.name = false ∧ isExportable (binding entry.name) = false := by
    intro name entries hm hnm
    obtain ⟨entry, hen, rfl⟩ := mem_map.mp hm
    exact ⟨entry, hen, rfl, he _ hnm⟩
  constructor
  · obtain ⟨result, hp, hn⟩ := presents_digitSetting
    exact ⟨result, hp, hf (by simp [hn]) (by simp)⟩
  · obtain ⟨chosen, result, hp, hn⟩ := presents_dottedCatalog
    exact ⟨chosen, result, hp, hf (by simp [hn]) (by simp)⟩

end ApiSchema
