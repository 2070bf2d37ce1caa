/-
# What belongs into a catalog

If no fragment leads back to itself and no two entries would get the same name, the contents of a
catalog can be told from the definitions. Each fragment on a known type has its entry, each
operation has those of its variables and its response, and there is an entry for each enumeration
and input object that the definitions call for. A type is called for by variables, by the walk
through the selections, or by the making of a schema that refers to it.

What is called for does not depend on when a schema is made, as long as the fragments that its
selections spread have their entries by then.
-/
import ApiSchema.Proofs.GraphQL.Dangling
import ApiSchema.Proofs.GraphQL.EnumWalk

namespace ApiSchema.GraphQL

open List Relation

variable {documents : Documents} {merging : List String} {selections : List Selection}
  {final : Progress} {name : String} {fragment : SourcedFragment} {setting : Setting}
  {type : NamedType} {operation : NamedOperation}

/-! ## Names of entries -/

namespace Setting

/-- The names of the entries of fragments. -/
def fragmentNames (setting : Setting) : List String :=
  (setting.documents.fragments.filter fun fragment =>
    (setting.spreadType? fragment.name).isSome).map fun fragment => Name.fragmentEntry fragment.name

/-- The names of the entries of an operation. -/
def operationNames (setting : Setting) (operation : NamedOperation) : List String :=
  (if operation.variableDefs.isEmpty then []
    else [Name.variablesEntry operation.name operation.kind.name]) ++
  if (setting.system.root? operation.kind).isSome then
    [Name.responseEntry operation.name operation.kind.name]
  else []

/-- The names of the entries of fragments and operations. -/
def ownNames (setting : Setting) : List String :=
  setting.fragmentNames ++ setting.documents.operations.flatMap setting.operationNames

/-- The fragments have different names and do not lead back to themselves, and the entries of
fragments and operations have names of their own, which are not names of types. -/
structure Orderly (setting : Setting) : Prop where
  fragments : (setting.documents.fragments.map (·.name)).Nodup
  acyclic : setting.documents.Acyclic
  names : setting.ownNames.Nodup
  types : ∀ name ∈ setting.ownNames, setting.system.type? name = none

end Setting

theorem Documents.of_fragment? (h : documents.fragment? name = some fragment) :
    fragment ∈ documents.fragments ∧ fragment.name = name :=
  ⟨mem_of_find?_eq_some h, by simpa using find?_some h⟩

/-- If fragments spread only fragments of a lower rank, none leads back to itself. -/
theorem Documents.acyclic_of_rank (rank : String → ℕ) (h : ∀ fragment ∈ documents.fragments,
      ∀ name ∈ Selection.spreadNamesOfAll fragment.selections, rank name < rank fragment.name) :
    documents.Acyclic := by
  refine not_transGen_of_rank rank ?_
  rintro name other ⟨fragment, hf, ho⟩
  obtain ⟨hm, rfl⟩ := of_fragment? hf
  exact h fragment hm other ho

theorem Setting.Orderly.fragment?_name (h : setting.Orderly)
    (hm : fragment ∈ setting.documents.fragments) :
    setting.documents.fragment? fragment.name = some fragment :=
  find?_of_nodup_map h.fragments hm

/-! ## Names that are held -/

namespace Progress

variable (progress : Progress)

theorem holds_add (added : String) (schema : Schema) (category : Category) (name : String) :
    (progress.add added schema category).Holds name ↔ progress.Holds name ∨ name = added := by
  simp [Holds, add, Entry.of, or_right_comm]

theorem has_add (name : String) (schema : Schema) (category : Category) :
    (progress.add name schema category).has name := by
  rw [has_iff]
  simp [add, Entry.of]

end Progress

/-! ## States that grow -/

/-- The later state has all that the earlier one has: names of entries, queued types, warnings and
recorded fragments. -/
structure Grown (base progress : Progress) : Prop where
  has : ∀ {name}, base.has name = true → progress.has name = true
  held : ∀ {name}, base.Holds name → progress.Holds name
  warnings : base.warnings ⊆ progress.warnings
  recorded : ∀ {name}, Assoc.has base.fragmentEntries name = true →
    Assoc.has progress.fragmentEntries name = true

namespace Grown

variable {base middle progress : Progress}

/-- Nothing is lost where nothing is done. -/
theorem refl (progress : Progress) : Grown progress progress :=
  ⟨id, id, List.Subset.refl _, id⟩

theorem trans (h : Grown base middle) (h' : Grown middle progress) : Grown base progress :=
  ⟨h'.has ∘ h.has, h'.held ∘ h.held, List.Subset.trans h.warnings h'.warnings,
    h'.recorded ∘ h.recorded⟩

variable (progress)

/-- Notes lose nothing. -/
theorem noteAll (notes : List Note) : Grown progress (progress.noteAll notes) := by
  obtain ⟨he, hr⟩ := progress.entries_noteAll notes
  refine ⟨fun hn => ?_, fun hn => Progress.holds_noteAll.mpr (Or.inl hn),
    fun _ ht => Progress.mem_warnings_noteAll.mpr (Or.inl ht), fun hn => ?_⟩
  · rw [Progress.has, he]
    exact hn
  · rw [hr]
    exact hn

theorem add (name : String) (schema : Schema) (category : Category) :
    Grown progress (progress.add name schema category) := by
  refine ⟨fun {other} ho => ?_, fun hn => (progress.holds_add ..).mpr (Or.inl hn),
    List.Subset.refl _, id⟩
  rw [Progress.has, Progress.add, any_append]
  exact Bool.or_eq_true_iff.mpr (Or.inl ho)

theorem record (fragment entry : String) : Grown progress { progress with
      fragmentEntries := Assoc.put progress.fragmentEntries fragment entry } := by
  refine ⟨id, id, List.Subset.refl _, fun {name} hn => ?_⟩
  rw [Assoc.has_iff_mem_keys] at hn ⊢
  exact (Assoc.mem_keys_put ..).mpr (Or.inl hn)

/-- A type leaves the queue when it has its entry. -/
theorem pop {progress : Progress} {rest : List NamedType}
    (hp : progress.pending = type :: rest) (hh : progress.has type.name) :
    Grown progress { progress with pending := rest } := by
  refine ⟨id, fun {name} hn => ?_, List.Subset.refl _, id⟩
  rw [Progress.Holds, hp, map_cons, mem_cons] at hn
  rcases hn with hn | rfl | hn
  · exact Or.inl hn
  · exact Or.inl ((progress.has_iff _).mp hh)
  · exact Or.inr hn

end Grown

/-- Nothing is lost while a schema is made. -/
theorem Amid.grown {before after : Progress} (h : Amid setting before after) :
    Grown before after := by
  obtain ⟨notes, rfl, -⟩ := h
  exact .noteAll before notes

/-! ## References -/

/-- The making of a schema refers to a type of the name, when the fragments that the selections
spread have their entries. -/
def Refers (setting : Setting) (merging : List String) (type : NamedType)
    (selections : List Selection) (name : String) : Prop :=
  ∃ schema notes queued,
    readSchema setting setting.spreadRecord? merging type selections = some (schema, notes) ∧
      .queued queued ∈ notes ∧ queued.name = name

/-- Selections are read alike, whatever is recorded besides the fragments that they spread. -/
theorem variation_recorded (record? : String → Option String) :
    Variation setting setting.documents record? setting.spreadRecord?
      (fun _ _ selections => ∀ name ∈ Selection.spreadNamesOfAll selections,
        Recorded setting record? name) False fun _ => True where
  toNesting := nesting_spreads fun _ => id
  fragment? := rfl
  plain _ := trivial
  fail _ := id
  entry {_ _ name _} h := h name (by simp [Selection.spreadNamesOfAll, Selection.spreadNames])
  cyclic _ _ := trivial
  merged {_ _ name _ _} h _ hn ht _ := by
    have hr := h name (by simp [Selection.spreadNamesOfAll, Selection.spreadNames])
    obtain ⟨type, ht⟩ := Option.isSome_iff_exists.mp ht
    rw [Recorded, hn, Setting.spreadRecord?, ht] at hr
    cases hr

/-- A reading queues the types to which the making of the schema refers. -/
theorem refers_iff {record? : String → Option String} {schema : Schema} {notes : List Note}
    (hr : ∀ spread ∈ Selection.spreadNamesOfAll selections, Recorded setting record? spread)
    (hrd : readSchema setting record? merging type selections = some (schema, notes))
    (name : String) : Refers setting merging type selections name ↔
      ∃ queued, .queued queued ∈ notes ∧ queued.name = name := by
  obtain ⟨hr', -⟩ := (variation_recorded record?).of_readSchema (Nat.le_refl _) hr
    hrd
  constructor
  · rintro ⟨_, _, queued, hr'', hq⟩
    cases hr'.symm.trans hr''
    exact ⟨queued, hq⟩
  · rintro ⟨queued, hq⟩
    exact ⟨schema, notes, queued, hr', hq⟩

/-- The schema of a fragment refers to a type of the name. -/
def SourcedFragment.Refers (setting : Setting) (fragment : SourcedFragment) (name : String) :
    Prop :=
  ∃ type, setting.spreadType? fragment.name = some type ∧
    GraphQL.Refers setting [fragment.name] type fragment.selections name

/-- The schema of the response of an operation refers to a type of the name. -/
def NamedOperation.Refers (setting : Setting) (operation : NamedOperation) (name : String) : Prop :=
  ∃ root, setting.system.root? operation.kind = some root ∧
    GraphQL.Refers setting [] root operation.selections name

/-- The definitions call for an entry of a type: variables lead to it, a walk through the selections
lists it, or the schema of a fragment or of a response refers to it. -/
inductive Called (setting : Setting) : String → Prop
  | input {name : String} {type : NamedType} (htype : setting.system.type? name = some type)
      (hmem : type ∈ setting.system.inputsOf setting.documents.operations) : Called setting name
  | enumeration {name : String} {type : NamedType} (htype : setting.system.type? name = some type)
      (hmem : type ∈ setting.system.enumsOf setting.documents) : Called setting name
  | fragment {name : String} {fragment : SourcedFragment}
      (hmem : fragment ∈ setting.documents.fragments) (hrefers : fragment.Refers setting name) :
      Called setting name
  | response {name : String} {operation : NamedOperation}
      (hmem : operation ∈ setting.documents.operations) (hrefers : operation.Refers setting name) :
      Called setting name

/-! ## Contents -/

/-- What an entry says: its name, its category and its schema. -/
structure Content where
  name : String
  category : Category
  schema : Schema

variable {content : Content}

/-- What the entry says. -/
def Content.of (entry : Entry) : Content := ⟨entry.name, entry.category, entry.schema⟩

namespace Setting

variable (setting : Setting)

/-- The content of the entry of an enumeration or an input object. -/
def typeContent? (type : NamedType) : Option Content :=
  match type.kind with
  | .enum values =>
    some ⟨type.name, .enum, .enumeration (values.map fun value => .atom (.text value))⟩
  | .input fields => some ⟨type.name, .input, inputDescription setting fields⟩
  | _ => none

/-- The content of the entry of a fragment, if it is on a known type. -/
def fragmentContent? (fragment : SourcedFragment) : Option Content :=
  (setting.spreadType? fragment.name).map fun type => ⟨Name.fragmentEntry fragment.name, .fragment,
    (outlineAll setting type fragment.selections).schema type⟩

/-- The content of the entry for the variables of an operation, if it has any. -/
def variablesContent? (operation : NamedOperation) : Option Content :=
  if operation.variableDefs.isEmpty then none
  else some ⟨Name.variablesEntry operation.name operation.kind.name, .operationVariables,
    variablesDescription setting operation⟩

/-- The content of the entry for the response of an operation, if there is a type to select on. -/
def responseContent? (operation : NamedOperation) : Option Content :=
  (setting.system.root? operation.kind).map fun root =>
    ⟨Name.responseEntry operation.name operation.kind.name, .response,
      (outlineAll setting root operation.selections).schema root⟩

/-- The contents of the entries of an operation. -/
def operationContents (operation : NamedOperation) : List Content :=
  (setting.variablesContent? operation).toList ++ (setting.responseContent? operation).toList

/-- The contents of the entries of fragments and operations. -/
def ownContents : List Content :=
  setting.documents.fragments.filterMap setting.fragmentContent? ++
    setting.documents.operations.flatMap setting.operationContents

theorem name_of_typeContent? (h : setting.typeContent? type = some content) :
    content.name = type.name := by
  unfold typeContent? at h
  split at h <;> cases h <;> rfl

/-- The contents have the names of the entries of fragments and operations. -/
theorem map_name_ownContents : setting.ownContents.map (·.name) = setting.ownNames := by
  have hf : ∀ fragments : List SourcedFragment,
      (fragments.filterMap setting.fragmentContent?).map (·.name) =
        (fragments.filter fun fragment => (setting.spreadType? fragment.name).isSome).map
          fun fragment => Name.fragmentEntry fragment.name := by
    intro fragments
    induction fragments with
    | nil => rfl
    | cons first rest ih =>
      rw [filterMap_cons, filter_cons, fragmentContent?]
      cases setting.spreadType? first.name with
      | none => exact ih
      | some type => exact congrArg (Name.fragmentEntry first.name :: ·) ih
  have ho : ∀ operation, (setting.operationContents operation).map (·.name) =
      setting.operationNames operation := by
    intro operation
    unfold operationContents variablesContent? responseContent? operationNames
    rw [map_append]
    congr 1
    · split <;> rfl
    · cases setting.system.root? operation.kind <;> rfl
  rw [ownContents, ownNames, fragmentNames, map_append, hf, map_flatMap]
  simp only [ho]

end Setting

/-- The content belongs into the catalog: it is that of a fragment or an operation, or that of a
type that is called for. -/
def Belongs (setting : Setting) (content : Content) : Prop :=
  content ∈ setting.ownContents ∨ ∃ type, setting.system.type? type.name = some type ∧
    Called setting type.name ∧ setting.typeContent? type = some content

theorem mem_ownContents (ho : operation ∈ setting.documents.operations)
    (h : content ∈ setting.operationContents operation) : content ∈ setting.ownContents :=
  mem_append_right _ (mem_flatMap.mpr ⟨operation, ho, h⟩)

theorem Setting.Orderly.type?_of_mem_ownContents (ho : setting.Orderly)
    (h : content ∈ setting.ownContents) : setting.system.type? content.name = none := by
  refine ho.types _ ?_
  rw [← setting.map_name_ownContents]
  exact mem_map_of_mem h

/-- There is one content for each name. -/
theorem Belongs.eq_of_name_eq (ho : setting.Orderly) {other : Content}
    (h : Belongs setting content) (h' : Belongs setting other) (hn : content.name = other.name) :
    content = other := by
  rcases h with h | ⟨type, ht, -, hc⟩ <;> rcases h' with h' | ⟨type', ht', -, hc'⟩
  · have hnd := ho.names
    rw [← setting.map_name_ownContents] at hnd
    exact inj_on_of_nodup_map hnd h h' hn
  · have hnn := ho.type?_of_mem_ownContents h
    rw [hn, setting.name_of_typeContent? hc', ht'] at hnn
    cases hnn
  · have hnn := ho.type?_of_mem_ownContents h'
    rw [← hn, setting.name_of_typeContent? hc, ht] at hnn
    cases hnn
  · rw [setting.name_of_typeContent? hc, setting.name_of_typeContent? hc'] at hn
    rw [hn, ht'] at ht
    cases ht
    exact Option.some.inj (hc.symm.trans hc')

end ApiSchema.GraphQL
