/-
# Fields under one response key

When several fields of a selection set on an object type have the same response key, one of them
counts: the last of the own fields, under inline fragments included, and if there is none, the one
that counts in the last fragment spread that has the key. What the others select below is left out.
-/
import ApiSchema.Proofs.GraphQL.Making

namespace ApiSchema.GraphQL

open List Option

variable {documents : Documents} {name : String} {nodes : List FieldNode} {node : FieldNode}
  {fragment : SourcedFragment} {type : NamedType} {selections : List Selection}

/-! ## Every selection set expands -/

theorem unnestedAll_eq_flatMap :
    Selection.unnestedAll selections = selections.flatMap Selection.unnested := by
  induction selections with
  | nil => rfl
  | cons selection rest ih => rw [Selection.unnestedAll, ih, flatMap_cons]

/-- The fragments that a selection set spreads itself are nested less deep. -/
theorem Shallow.exists_lt
    (hf : documents.fragment? name = some fragment) {bound : ℕ} :
    ∀ {selections : List Selection}, Shallow documents bound selections →
      name ∈ ownSpreads selections →
        ∃ less < bound, Shallow documents less fragment.selections := by
  induction bound with
  | zero => exact fun h => h.elim
  | succ bound ih =>
    intro selections h hn
    rw [ownSpreads, unnestedAll_eq_flatMap, filterMap_flatMap] at hn
    obtain ⟨selection, hs, hn⟩ := mem_flatMap.mp hn
    have hb := h selection hs
    cases selection with
    | field responseName other arguments directives inner =>
      simp [Selection.unnested, Selection.spread?] at hn
    | spread other directives =>
      obtain rfl : name = other := by
        simpa [Selection.unnested, Selection.spread?] using hn
      exact ⟨bound, Nat.lt_succ_self bound, hb fragment hf⟩
    | inline condition directives inner =>
      have hi : name ∈ ownSpreads inner := by
        simpa [Selection.unnested, Selection.spread?, ownSpreads] using hn
      obtain ⟨less, hl, hsh⟩ := ih hb hi
      exact ⟨less, Nat.lt_succ_of_lt hl, hsh⟩

/-- If no fragment leads back to itself, every selection set expands. -/
theorem exists_expands (ha : documents.Acyclic)
    (selections : List Selection) : ∃ nodes, Expands documents selections nodes := by
  have hs : Shallow documents
      (weight documents.fragments + Selection.sizeOfAll selections + 1) selections :=
    shallow_of_weight ha _ documents.fragments selections
      (fun name fragment _ hf => mem_of_find?_eq_some hf) (Nat.lt_succ_self _)
  generalize weight documents.fragments + Selection.sizeOfAll selections + 1 = bound at hs
  induction bound using Nat.strong_induction_on generalizing selections with
  | _ bound ih =>
    have hi : ∀ name, ∃ nodes : List FieldNode, name ∈ ownSpreads selections →
        (∀ fragment, documents.fragment? name = some fragment →
          Expands documents fragment.selections nodes) ∧
        (documents.fragment? name = none → nodes = []) := by
      intro name
      cases hf : documents.fragment? name with
      | none => exact ⟨[], fun _ => ⟨by simp, fun _ => rfl⟩⟩
      | some fragment =>
        by_cases hn : name ∈ ownSpreads selections
        · obtain ⟨less, hl, hs'⟩ := Shallow.exists_lt hf hs hn
          obtain ⟨nodes, hnd⟩ := ih less hl fragment.selections hs'
          refine ⟨nodes, fun _ => ⟨fun other ho => ?_, by simp⟩⟩
          rw [← some.inj ho]
          exact hnd
        · exact ⟨[], fun h => absurd h hn⟩
    choose inner hi using hi
    exact ⟨_, .intro (fun name hn => (hi name hn).1) fun name hn =>
      (hi name hn).2⟩

/-! ## Merged fragments -/

section

variable {setting : Setting} {entries : List Entry} {result : Catalog}

/-- The selection set is on an object type of the system, and it has no other conditions, with its
fragments expanded. -/
structure SelectsOn (setting : Setting) (type : NamedType) (selections : List Selection) : Prop
    where
  isObject : type.isObject = true
  known : setting.system.type? type.name = some type
  conditions : ∀ condition, HasCondition setting.documents selections condition →
    condition = type.name

/-- The fragment applies to the type and is met when the selection set is expanded. -/
structure Merges (setting : Setting) (type : NamedType) (selections : List Selection)
    (name : String) (fragment : SourcedFragment) : Prop where
  spread : name ∈ ownSpreads selections
  known : setting.documents.fragment? name = some fragment
  applies : setting.spreadType? name = some type
  selects : SelectsOn setting type fragment.selections

/-- The fragments that a selection set on an object type spreads apply to the type. -/
theorem SelectsOn.merges (ho : SelectsOn setting type selections)
    (hn : name ∈ ownSpreads selections)
    (hf : setting.documents.fragment? name = some fragment) :
    Merges setting type selections name fragment := by
  refine ⟨hn, hf, ?_, ho.isObject, ho.known, fun condition hc =>
    ho.conditions condition (.inner hn hf hc)⟩
  rw [Setting.spreadType?, hf, bind_some, ho.conditions _ (.spread hn hf),
    ho.known]
  simp [NamedType.isComposite, ho.isObject]

/-- The entry of a fragment that applies to the type has the schema of its selections there. -/
theorem Catalogued.exists_fragment (h : Catalogued setting result)
    (hm : Merges setting type selections name fragment) :
    ∃ entry, result.find? (Name.fragmentEntry name) = some entry ∧
      entry.schema = (outlineAll setting type fragment.selections).schema type := by
  obtain ⟨hmm, rfl⟩ := Documents.of_fragment? hm.known
  obtain ⟨entry, he, -, hs⟩ := h.exists_find? (.fragment hmm hm.applies)
  exact ⟨entry, he, hs⟩

/-- The fields that are merged through an entry are those of a fragment. -/
theorem SelectsOn.exists_merges (ho : SelectsOn setting type selections) {entry : String}
    (he : entry ∈ ownEntries setting selections) :
    ∃ name fragment, entry = Name.fragmentEntry name ∧
      Merges setting type selections name fragment := by
  obtain ⟨name, hn, hs, rfl⟩ := mem_ownEntries_iff.mp he
  obtain ⟨type', ht'⟩ := isSome_iff_exists.mp hs
  obtain ⟨fragment, hf, -⟩ := bind_eq_some_iff.mp ht'
  exact ⟨name, fragment, rfl, ho.merges hn hf⟩

theorem Merges.mem_ownEntries (h : Merges setting type selections name fragment) :
    Name.fragmentEntry name ∈ ownEntries setting selections :=
  mem_ownEntries_iff.mpr ⟨name, h.spread, by rw [h.applies]; rfl, rfl⟩

theorem Merges.name_eq (ho : setting.Orderly) {selections' : List Selection}
    {name' : String} {fragment' : SourcedFragment}
    (h : Merges setting type selections name fragment)
    (h' : Merges setting type selections' name' fragment')
    (he : Name.fragmentEntry name = Name.fragmentEntry name') : name = name' :=
  ho.name_eq h.known h'.known (by rw [h.applies]; rfl) (by rw [h'.applies]; rfl) he

/-- The keys of the object for a selection set on an object type are the response keys of its
fields when its fragments are expanded. -/
theorem hasKey_iff (h : Catalogued setting result) (ho : SelectsOn setting type selections)
    (hnd : Expands setting.documents selections nodes) {key : String} :
    HasKey result ((outlineAll setting type selections).schema type) (.text key) ↔
      ∃ node ∈ nodes, node.key = key := by
  induction hnd with
  | @intro selections inner hkn hu ih =>
    rw [schema_outlineAll setting ho.isObject]
    constructor
    · intro hk
      cases hk with
      | own hfl hk =>
        obtain ⟨before, node, after, hsp, -, rfl⟩ := mem_ownFields_iff.mp hfl
        exact ⟨node, mem_append_left _ (by simp [hsp]), text_beq_iff.mp hk⟩
      | spread hnm he hk =>
        obtain ⟨name, fragment, rfl, hm⟩ := ho.exists_merges hnm
        obtain ⟨entry, he', hs⟩ := h.exists_fragment hm
        obtain rfl := some.inj (he.symm.trans he')
        rw [hs, ih name hm.spread fragment hm.known hm.selects] at hk
        obtain ⟨node, hn, rfl⟩ := hk
        refine ⟨node, mem_append_right _ ?_, rfl⟩
        exact mem_flatMap.mpr ⟨name, hm.spread, hn⟩
    · rintro ⟨node, hn, rfl⟩
      rcases mem_append.mp hn with hn | hn
      · obtain ⟨field, hfl, hk⟩ := exists_mem_ownFields setting type hn
        exact .own hfl (by rw [hk]; exact text_beq_iff.mpr rfl)
      · obtain ⟨name, hnm, hn⟩ := mem_flatMap.mp hn
        cases hf : setting.documents.fragment? name with
        | none =>
          rw [hu name hnm hf] at hn
          cases hn
        | some fragment =>
          have hm := ho.merges hnm hf
          obtain ⟨entry, he, hs⟩ := h.exists_fragment hm
          refine .spread hm.mem_ownEntries he ?_
          rw [hs, ih name hnm fragment hf hm.selects]
          exact ⟨node, hn, rfl⟩

/-! ## The field that counts -/

/-- The field counts for its response key in the selection set: it is the last own field with the
key, or there is none and it counts in the last fragment spread that has the key. -/
inductive Counts (setting : Setting) : List Selection → FieldNode → Prop
  | own {selections : List Selection} {before after : List FieldNode} {node : FieldNode}
      (hsplit : ownNodes selections = before ++ node :: after)
      (hlast : ∀ later ∈ after, later.key ≠ node.key) : Counts setting selections node
  | spread {selections : List Selection} {before after : List String} {name : String}
      {fragment : SourcedFragment} {node : FieldNode} (hname : name ∈ ownSpreads selections)
      (hfragment : setting.documents.fragment? name = some fragment)
      (hsplit : ownEntries setting selections = before ++ Name.fragmentEntry name :: after)
      (h : Counts setting fragment.selections node)
      (hown : ∀ own ∈ ownNodes selections, own.key ≠ node.key)
      (hlater : ∀ later ∈ ownSpreads selections, Name.fragmentEntry later ∈ after →
        ∀ fragment' nodes, setting.documents.fragment? later = some fragment' →
          Expands setting.documents fragment'.selections nodes →
            ∀ other ∈ nodes, other.key ≠ node.key) : Counts setting selections node

/-- A field that counts is one of the fields when the fragments are expanded. -/
theorem Counts.mem_of_expands (h : Counts setting selections node)
    (hn : Expands setting.documents selections nodes) :
    node ∈ nodes := by
  induction h generalizing nodes with
  | own hs _ =>
    cases hn with
    | intro => exact mem_append_left _ (by simp [hs])
  | @spread selections before after name fragment node hnm hf _ _ _ _ ih =>
    cases hn with
    | intro hk =>
      refine mem_append_right _ (mem_flatMap.mpr ⟨name, hnm, ?_⟩)
      exact ih (hk name hnm fragment hf)

/-- Two elements at which a list is split are the same, or one comes after the other. -/
theorem eq_or_mem_of_append_cons_eq {α : Type} {before before' after after' : List α} {x y : α}
    (h : before ++ x :: after = before' ++ y :: after') : x = y ∨ y ∈ after ∨ x ∈ after' := by
  rcases append_eq_append_iff.mp h with ⟨between, -, hr⟩ | ⟨between, -, hr⟩
  · cases between with
    | nil => exact Or.inl (List.cons.inj hr).1
    | cons first rest =>
      right; left
      rw [(List.cons.inj hr).2]
      simp
  · cases between with
    | nil => exact Or.inl (List.cons.inj hr).1.symm
    | cons first rest =>
      right; right
      rw [(List.cons.inj hr).2]
      simp

/-- Under each response key one field counts. -/
theorem Counts.unique (ho : setting.Orderly) (hon : SelectsOn setting type selections)
    {node' : FieldNode} (h : Counts setting selections node)
    (h' : Counts setting selections node') (hk : node.key = node'.key) : node = node' := by
  induction h with
  | @own selections before after node hs hls =>
    cases h' with
    | own hs' hls' =>
      rcases eq_or_mem_of_append_cons_eq (hs.symm.trans hs') with he | hm | hm
      · exact he
      · exact absurd hk.symm (hls node' hm)
      · exact absurd hk (hls' node hm)
    | spread _ _ _ _ hown _ => exact absurd hk (hown node (by simp [hs]))
  | @spread selections before after name fragment node hnm hf hs hc hown hl
      ih =>
      cases h' with
      | own hs' _ => exact absurd hk.symm (hown node' (by simp [hs']))
      | @spread _ before' after' name' fragment' _ hnm' hf' hs' hc' _ hl' =>
        have hmr := hon.merges hnm hf
        have hm' := hon.merges hnm' hf'
        obtain ⟨nodes, hn⟩ := exists_expands ho.acyclic fragment.selections
        obtain ⟨nodes', hn'⟩ := exists_expands ho.acyclic fragment'.selections
        rcases eq_or_mem_of_append_cons_eq (hs.symm.trans hs') with he | hm | hm
        · obtain rfl := hmr.name_eq ho hm' he
          obtain rfl := some.inj (hf.symm.trans hf')
          exact ih hmr.selects hc' hk
        · exact absurd hk.symm (hl name' hnm' hm fragment' nodes' hf' hn'
            node' (hc'.mem_of_expands hn'))
        · exact absurd hk (hl' name hnm hm fragment nodes hf hn node
            (hc.mem_of_expands hn))

section

variable (h : Catalogued setting result)
include h

/-- A field of the object for a selection set on an object type is one that counts. -/
theorem exists_counts_of_hasField
    (hon : SelectsOn setting type selections) {field : Field Schema}
    (hf : HasField result ((outlineAll setting type selections).schema type) field) :
    ∃ node, Counts setting selections node ∧ field = node.field setting type := by
  rw [schema_outlineAll setting hon.isObject] at hf
  generalize hsc : Schema.object (ownFields setting type selections) .dropped
    (ownEntries setting selections) = schema at hf
  induction hf generalizing selections with
  | own hf =>
    cases hsc
    obtain ⟨before, node, after, hs, hls, rfl⟩ := mem_ownFields_iff.mp hf
    exact ⟨node, .own hs hls, rfl⟩
  | @spread fields undeclared before after entryName entry field he hf hown hl ih =>
    obtain ⟨hfl, -, hs⟩ := Schema.object.inj hsc
    have hnm : entryName ∈ ownEntries setting selections := by
      rw [hs]
      simp
    obtain ⟨name, fragment, rfl, hm⟩ := hon.exists_merges hnm
    obtain ⟨found, hfn, hfoundSchema⟩ := h.exists_fragment hm
    obtain rfl := some.inj (he.symm.trans hfn)
    rw [schema_outlineAll setting hon.isObject] at hfoundSchema
    obtain ⟨node, hc, rfl⟩ := ih hm.selects hfoundSchema.symm
    refine ⟨node, .spread hm.spread hm.known hs hc ?_ ?_, rfl⟩
    · intro own hmm hk
      obtain ⟨other, ho, hotherKey⟩ := exists_mem_ownFields setting type hmm
      rw [hfl] at ho
      have hne := hown other ho
      rw [hotherKey, hk] at hne
      exact Bool.false_ne_true (hne.symm.trans (text_beq_iff.mpr rfl))
    · intro later hmm ha fragment' nodes hf' hn other ho hk
      have hm' := hon.merges hmm hf'
      obtain ⟨entry', he', hs'⟩ := h.exists_fragment hm'
      refine hl _ ha entry' he' ?_
      rw [hs']
      exact (hasKey_iff h hm'.selects hn).mpr ⟨other, ho, hk⟩

/-- A field that counts in a selection set on an object type is one of the object for it. -/
theorem Counts.hasField
    (ha : setting.documents.Acyclic) (hon : SelectsOn setting type selections)
    (hc : Counts setting selections node) :
    HasField result ((outlineAll setting type selections).schema type)
      (node.field setting type) := by
  induction hc with
  | own hs hls =>
    rw [schema_outlineAll setting hon.isObject]
    exact .own (mem_ownFields_iff.mpr ⟨_, _, _, hs, hls, rfl⟩)
  | @spread selections before after name fragment node hnm hf hs _ hown hl ih =>
    have hm := hon.merges hnm hf
    obtain ⟨entry, he, hsc⟩ := h.exists_fragment hm
    rw [schema_outlineAll setting hon.isObject, hs]
    refine .spread he ?_ ?_ ?_
    · rw [hsc]
      exact ih hm.selects
    · intro other ho
      obtain ⟨front, own, rest, hs', -, rfl⟩ := mem_ownFields_iff.mp ho
      rw [← Bool.not_eq_true]
      exact fun hsm => hown own (by simp [hs']) (text_beq_iff.mp hsm)
    · intro later hmm entry' he' hk
      have hlaterEntry : later ∈ ownEntries setting selections := by
        rw [hs]
        exact mem_append_right _ (mem_cons_of_mem _ hmm)
      obtain ⟨name', fragment', rfl, hm'⟩ := hon.exists_merges hlaterEntry
      obtain ⟨found, hfn, hfoundSchema⟩ := h.exists_fragment hm'
      obtain rfl := some.inj (he'.symm.trans hfn)
      obtain ⟨nodes, hn⟩ := exists_expands ha fragment'.selections
      rw [hfoundSchema] at hk
      obtain ⟨other, ho, hsm⟩ :=
        (hasKey_iff h hm'.selects hn).mp hk
      exact hl name' hm'.spread hmm fragment' nodes hm'.known hn other ho
        hsm

/-- The fields of the object for a selection set on an object type are those that count. -/
theorem hasField_iff_counts
    (ha : setting.documents.Acyclic) (ho : SelectsOn setting type selections)
    (field : Field Schema) :
    HasField result ((outlineAll setting type selections).schema type) field ↔
      ∃ node, Counts setting selections node ∧ field = node.field setting type := by
  refine ⟨exists_counts_of_hasField h ho, ?_⟩
  rintro ⟨node, hc, rfl⟩
  exact hc.hasField h ha ho

end

/-- What becomes of the fields of a selection set on an object type: one counts under each response
key, and the object under the key has just the keys that this one selects. -/
structure OneCounts (setting : Setting) (result : Catalog) (type : NamedType)
    (selections : List Selection) : Prop where
  fields : ∀ field, HasField result ((outlineAll setting type selections).schema type) field ↔
    ∃ node, Counts setting selections node ∧ field = node.field setting type
  unique : ∀ node node', Counts setting selections node → Counts setting selections node' →
    node.key = node'.key → node = node'
  below : ∀ node reference target inner nodes, Counts setting selections node →
    node.name ≠ typeNameKey → type.fieldType? node.name = some reference →
      setting.system.type? reference.baseName = some target → target.isObject = true →
        node.selections = some inner → Expands setting.documents inner nodes →
          (∀ condition, HasCondition setting.documents inner condition → condition = target.name) →
            ∃ object, (node.field setting type).schema = reference.wrap object ∧
              ∀ key, HasKey result object (.text key) ↔ ∃ sub ∈ nodes, sub.key = key

/-- In a catalog one field counts under each response key. -/
theorem Catalogued.oneCounts (h : Catalogued setting result) (ho : setting.Orderly)
    (hon : SelectsOn setting type selections) : OneCounts setting result type selections where
  fields := hasField_iff_counts h ho.acyclic hon
  unique _ _ := Counts.unique ho hon
  below := by
    intro node reference target inner nodes _ hnm hr ht ho' hin hn
      hi
    refine ⟨(outlineAll setting target inner).schema target, ?_, fun key =>
      hasKey_iff h ⟨ho', TypeSystem.type?_name ht, hi⟩ hn⟩
    have hl : leafSchema setting (node.below setting) reference.baseName =
        (outlineAll setting target inner).schema target := by
      have hc : target.isComposite := by simp [NamedType.isComposite, ho']
      rw [leafSchema_of_isLeaf_eq_false ht (NamedType.isLeaf_eq_false hc),
        FieldNode.below, hin]
    simp [FieldNode.field, FieldNode.described, describe, hnm, hr, hl]

end

/-- Whatever the documents select, as long as no fragment leads back to itself and the entries have
names of their own: there is a catalog, and the entries of operations and fragments, and the objects
inside of them, have under each response key what the one field selects that counts there. -/
theorem one_field_counts_under_each_key {system : TypeSystem} {documents : Documents}
    {library : Option String} {overrides : List (String × String)} {registry : Registry}
    (hregistry : Registry.ofName library overrides = .ok registry)
    (horderly : Setting.Orderly ⟨system, documents, registry⟩) :
    ∃ result, catalog ⟨system, documents, registry⟩ = .ok result ∧
      (∀ operation ∈ documents.operations, ∀ root, system.root? operation.kind = some root →
        ∃ entry, result.find? (Name.responseEntry operation.name operation.kind.name) = some entry ∧
          entry.schema =
            (outlineAll ⟨system, documents, registry⟩ root operation.selections).schema root) ∧
      (∀ name fragment type, documents.fragment? name = some fragment →
        Setting.spreadType? ⟨system, documents, registry⟩ name = some type →
          ∃ entry, result.find? (Name.fragmentEntry name) = some entry ∧ entry.schema =
              (outlineAll ⟨system, documents, registry⟩ type fragment.selections).schema type) ∧
      ∀ type selections, type.isObject = true → system.type? type.name = some type →
        (∀ condition, HasCondition documents selections condition → condition = type.name) →
          OneCounts ⟨system, documents, registry⟩ result type selections := by
  obtain ⟨result, hr, hc⟩ :=
    exists_catalogued horderly (Registry.nameless_of_ofName hregistry)
  refine ⟨result, hr, ?_, ?_, ?_⟩
  · intro operation ho root hrt
    obtain ⟨entry, he, -, hs⟩ := hc.exists_find? (.response ho hrt)
    exact ⟨entry, he, hs⟩
  · intro name fragment type hf ht
    obtain ⟨hm, rfl⟩ := Documents.of_fragment? hf
    obtain ⟨entry, he, -, hs⟩ := hc.exists_find? (.fragment hm ht)
    exact ⟨entry, he, hs⟩
  · exact fun type selections hob ht hcn =>
      hc.oneCounts horderly ⟨hob, ht, hcn⟩

/-! ## A pet that is selected twice -/

/-- Pets with a name and an age. -/
def agedSystem : TypeSystem where
  types :=
    [⟨"Query", .object [("pet", .named "Pet")]⟩,
      ⟨"Pet", .object [("name", .named "String"), ("age", .named "Int")]⟩,
      ⟨"String", .scalar⟩, ⟨"Int", .scalar⟩]
  query := some "Query"
  mutation := none

/-- A query for the name of a pet and for the age of the same pet. -/
def twiceQuery : NamedOperation :=
  ⟨"Q", .query, [], [.field none "pet" [] [] (some [.field none "name" [] [] none]),
      .field none "pet" [] [] (some [.field none "age" [] [] none])], "pets"⟩

/-- The pets with the query, and the scalars that are always registered. -/
def twiceSetting : Setting := ⟨agedSystem, ⟨[twiceQuery], [], []⟩, ⟨none, Registry.defaults⟩⟩

/-- The object with an age. -/
def ageObject : Schema := .object [⟨.text "age", (Schema.number true).nullable, false⟩] .dropped []

theorem orderly_twiceSetting : twiceSetting.Orderly where
  fragments := by decide
  acyclic := Documents.acyclic_of_rank (fun _ => 0) (by decide)
  names := by decide +kernel
  types := by decide +kernel

/-- The pet has no name in the response, although its name is selected under the same key. -/
theorem twiceQuery_loses_name :
    ⟨"pet", "pet", some [.field none "name" [] [] none]⟩ ∈ ownNodes twiceQuery.selections ∧
    ∃ result entry, catalog twiceSetting = .ok result ∧ result.find? "QQuery" = some entry ∧
      (∀ field, HasField result entry.schema field ↔
        field = ⟨.text "pet", ageObject.nullable, false⟩) ∧
      ¬ HasKey result ageObject (.text "name") := by
  refine ⟨mem_cons_self .., _, _, rfl, rfl, fun field => ?_, fun hk => ?_⟩
  · exact hasField_iff_of_spreads_nil.trans mem_singleton
  · obtain ⟨field, hf, hk⟩ := hasKey_iff_of_spreads_nil.mp hk
    obtain rfl := mem_singleton.mp hf
    exact absurd (text_beq_iff.mp hk) (by decide)

/-- The pet that is selected twice has just the key of the last selection. -/
theorem twiceQuery_keeps_age : ∃ result entry object, catalog twiceSetting = .ok result ∧
      result.find? (Name.responseEntry twiceQuery.name twiceQuery.kind.name) = some entry ∧
      HasField result entry.schema ⟨.text "pet", (TypeRef.named "Pet").wrap object, false⟩ ∧
      ∀ key, HasKey result object (.text key) ↔ key = "age" := by
  obtain ⟨result, hrs, hr, -, hco⟩ :=
    one_field_counts_under_each_key Registry.ofName_none orderly_twiceSetting
  obtain ⟨entry, he, hsc⟩ := hr twiceQuery (mem_singleton_self _) _ rfl
  have hc {selections : List Selection} {type : String}
      (hown : ownConditions selections = []) (hs : ownSpreads selections = []) :
      ∀ condition, HasCondition twiceSetting.documents selections condition → condition = type :=
    fun condition h => h.of_forall (by simp [hown]) (by simp [hs])
  have ho := hco ⟨"Query", .object [("pet", .named "Pet")]⟩ twiceQuery.selections rfl rfl
    (hc rfl rfl)
  have hcn : Counts twiceSetting twiceQuery.selections
      ⟨"pet", "pet", some [.field none "age" [] [] none]⟩ :=
    @Counts.own _ _ [⟨"pet", "pet", some [.field none "name" [] [] none]⟩] [] _ rfl (by simp)
  have hf := (ho.fields _).mpr ⟨_, hcn, rfl⟩
  obtain ⟨object, hob, hk⟩ := ho.below _ (.named "Pet") _ _ _ hcn (by decide) rfl rfl
    rfl rfl (.of_ownSpreads_eq_nil rfl) (hc rfl rfl)
  refine ⟨result, entry, object, hrs, he, ?_, fun key => ?_⟩
  · rw [hsc, ← hob]
    exact hf
  · rw [hk]
    constructor
    · rintro ⟨sub, hsb, rfl⟩
      obtain rfl := mem_singleton.mp hsb
      rfl
    · rintro rfl
      exact ⟨_, mem_singleton_self _, rfl⟩

end ApiSchema.GraphQL
