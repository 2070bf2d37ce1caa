/-
# Fragments that a response relies on

An entry depends on the names that its schema mentions, and on all that the entries of these names
depend on. A fragment that is spread somewhere in a selection set is mentioned in its schema, unless
the schema leaves out a part of the selections: what is selected on a union without a condition that
picks an object type is left out, and so is what another field under the same response key hides.

If nothing is left out, a response depends on every fragment to which its operation leads.
-/
import ApiSchema.Proofs.GraphQL.Making
import ApiSchema.Proofs.GraphQL.SpreadClosure

namespace ApiSchema.GraphQL

open List Relation

variable {name last : String} {keys : List (String × Described)} {portion : Portion}
  {type : NamedType} {selections : List Selection} {entry : Entry}

/-! ## Selections that leave nothing out -/

/-- The names that a portion mentions. -/
def Portion.mentions (portion : Portion) : List String :=
  (portion.keys.flatMap fun key => key.2.schema.mentions) ++ portion.spreads

/-- The names that an outline mentions. -/
def Outline.mentions (outline : Outline) : List String :=
  outline.toPortion.mentions ++ outline.narrowed.flatMap fun piece => piece.2.mentions

theorem Portion.mem_mentions_append {first second : Portion} :
    name ∈ (first.append second).mentions ↔ name ∈ first.mentions ∨ name ∈ second.mentions := by
  simp only [Portion.mentions, Portion.append, flatMap_append, mem_append]
  tauto

theorem Outline.mem_mentions_append {first second : Outline} :
    name ∈ (first.append second).mentions ↔ name ∈ first.mentions ∨ name ∈ second.mentions := by
  simp only [Outline.mentions, Outline.append, flatMap_append, mem_append,
    Portion.mem_mentions_append]
  tauto

/-- What comes later under a response key mentions all that is mentioned under it before. -/
def Unhidden (keys : List (String × Described)) : Prop :=
  keys.Pairwise fun key later => later.1 = key.1 → key.2.schema.mentions ⊆ later.2.schema.mentions

/-- Nothing that is selected on the type is left out of the schema: if it is a union, object types
are picked out of it, and for no object type one response key hides what is mentioned under another
one. -/
structure Outline.Lossless (outline : Outline) (type : NamedType) : Prop where
  picked : type.isUnion = true → outline.narrowed ≠ []
  common : Unhidden outline.keys
  members : ∀ piece ∈ gather Portion.append .empty [] outline.narrowed,
    Unhidden (outline.keys ++ piece.2.keys ++ [(typeNameKey, ⟨textLiteral piece.1, true⟩)])

instance (keys : List (String × Described)) : Decidable (Unhidden keys) :=
  inferInstanceAs (Decidable (keys.Pairwise _))

instance (outline : Outline) (type : NamedType) : Decidable (outline.Lossless type) :=
  decidable_of_iff
    ((type.isUnion = true → outline.narrowed.isEmpty = false) ∧ Unhidden outline.keys ∧
      ∀ piece ∈ gather Portion.append .empty [] outline.narrowed,
        Unhidden (outline.keys ++ piece.2.keys ++ [(typeNameKey, ⟨textLiteral piece.1, true⟩)]))
    ⟨fun h => ⟨fun hunion => isEmpty_eq_false_iff.mp (h.1 hunion), h.2.1, h.2.2⟩,
      fun h => ⟨fun hunion => isEmpty_eq_false_iff.mpr (h.picked hunion), h.common, h.members⟩⟩

mutual

/-- A selection on a type leaves nothing out: what is selected on a field is selected on a known
type and leaves nothing out there, and a fragment that is spread has an entry. -/
def keeps (setting : Setting) : NamedType → Selection → Prop
  | parent, .field _ name _ _ (some selections) =>
    name ≠ typeNameKey ∧ ∃ reference target, parent.fieldType? name = some reference ∧
      setting.system.type? reference.baseName = some target ∧ target.isComposite = true ∧
        (outlineAll setting target selections).Lossless target ∧ keepsAll setting target selections
  | _, .field _ _ _ _ none => True
  | _, .spread name _ => (setting.spreadType? name).isSome = true
  | parent, .inline condition _ selections =>
    let type := setting.conditionType parent condition
    keepsAll setting (if narrows parent type then type else conditioned parent type) selections

/-- Several selections on a type leave nothing out. -/
def keepsAll (setting : Setting) : NamedType → List Selection → Prop
  | _, [] => True
  | parent, selection :: rest => keeps setting parent selection ∧ keepsAll setting parent rest

end

/-- A selection set on a type leaves nothing out, at any depth. -/
structure Keeps (setting : Setting) (type : NamedType) (selections : List Selection) : Prop where
  composite : type.isComposite = true
  lossless : (outlineAll setting type selections).Lossless type
  inside : keepsAll setting type selections

/-! ## Schemas of outlines -/

/-- Under a response key a map that is built mentions all that is mentioned under it. -/
theorem Unhidden.exists_get? (h : Unhidden keys) {key : String × Described} (hk : key ∈ keys) :
    ∃ described, Assoc.get? (Assoc.ofList keys) key.1 = some described ∧
      key.2.schema.mentions ⊆ described.schema.mentions := by
  have hm : key.1 ∈ Assoc.keys (Assoc.ofList keys) :=
    (Assoc.mem_keys_ofList keys key.1).mpr (mem_map_of_mem hk)
  obtain ⟨described, hg⟩ := Option.isSome_iff_exists.mp ((Assoc.has_iff_mem_keys _ _).mpr hm)
  refine ⟨described, hg, ?_⟩
  obtain ⟨before, after, hs, hl⟩ := (Assoc.get?_ofList_eq_some_iff ..).mp hg
  rw [hs] at h
  rw [hs] at hk
  rcases mem_append.mp hk with hb | hr
  · exact (pairwise_append.mp h).2.2 key hb _ (mem_cons_self ..) rfl
  · rcases mem_cons.mp hr with he | ha
    · rw [he]
      exact List.Subset.refl _
    · exact absurd (mem_map_of_mem ha) hl

/-- The object of a portion mentions what the portion mentions. -/
theorem mentions_ofPortion_object (h : Unhidden portion.keys) :
    portion.mentions ⊆ (Selected.ofPortion portion).object.mentions := by
  intro name hn
  rw [Selected.mentions_object]
  rcases mem_append.mp hn with hn | hn
  · obtain ⟨key, hk, hn⟩ := mem_flatMap.mp hn
    obtain ⟨described, hg, hs⟩ := h.exists_get? hk
    exact mem_append_left _ (mem_flatMap.mpr
      ⟨_, Assoc.mem_of_get?_eq_some hg, hs hn⟩)
  · exact mem_append_right _ ((mem_unionNames _ _ _).mpr (Or.inr hn))

/-- The keys of the object for an object type: those for all types are written into a map that has
the name of the type already, then come those for this type, and the name of the type again. -/
theorem get?_member_keys {common : List (String × Described)} {mark : Described}
    {key : String} {described : Described}
    (h : Assoc.get? (Assoc.ofList (common ++ keys ++ [(typeNameKey, mark)])) key = some described) :
    Assoc.get? (Assoc.put (Assoc.putAll (Assoc.putAll [(typeNameKey, mark)] (Assoc.ofList common))
      keys) typeNameKey mark) key = some described := by
  have hl : Assoc.ofList (common ++ keys ++ [(typeNameKey, mark)]) =
      Assoc.put (Assoc.putAll (Assoc.ofList common) keys) typeNameKey mark := by
    simp [Assoc.ofList, Assoc.putAll]
  rw [hl] at h
  by_cases hk : typeNameKey = key
  · rw [← hk, Assoc.get?_put_self] at h ⊢
    exact h
  · rw [Assoc.get?_put_of_ne _ _ hk, Assoc.get?_putAll] at h ⊢
    rw [Assoc.get?_putAll, Assoc.get?_ofList_of_nodup (Assoc.nodup_keys_ofList _),
      ← Option.or_assoc, h]
    rfl

/-- The object for an object type mentions what is mentioned for all types and for this one. -/
theorem mentions_member {outline : Outline} {type : String}
    (h : Unhidden (outline.keys ++ portion.keys ++ [(typeNameKey, ⟨textLiteral type, true⟩)])) :
    outline.toPortion.mentions ++ portion.mentions ⊆
      ((Selected.ofPortion outline.toPortion).member type portion).mentions := by
  intro name hn
  have hky : ∀ key ∈ outline.keys ++ portion.keys, name ∈ key.2.schema.mentions →
      name ∈ ((Selected.ofPortion outline.toPortion).member type portion).mentions := by
    intro key hk hn
    obtain ⟨described, hd, hsb⟩ := h.exists_get? (mem_append_left _ hk)
    rw [Selected.member, Selected.mentions_object]
    exact mem_append_left _ (mem_flatMap.mpr
      ⟨_, Assoc.mem_of_get?_eq_some (get?_member_keys hd), hsb hn⟩)
  have hs : name ∈ outline.spreads ++ portion.spreads →
      name ∈ ((Selected.ofPortion outline.toPortion).member type portion).mentions := by
    intro hn
    refine mem_append_right _ ((mem_unionNames _ _ _).mpr ?_)
    refine (mem_append.mp hn).imp (fun hn => ?_) id
    exact (mem_unionNames _ _ _).mpr (Or.inr hn)
  rcases mem_append.mp hn with hn | hn <;>
    rcases mem_append.mp hn with hn | hn
  · obtain ⟨key, hk, hn⟩ := mem_flatMap.mp hn
    exact hky key (mem_append_left _ hk) hn
  · exact hs (mem_append_left _ hn)
  · obtain ⟨key, hk, hn⟩ := mem_flatMap.mp hn
    exact hky key (mem_append_right _ hk) hn
  · exact hs (mem_append_right _ hn)

/-- What is in a piece is in what is gathered under its name. -/
theorem exists_gather_of_mem {α : Type} {join : α → α → α} {nothing : α} (property : α → Prop)
    (hl : ∀ first second, property first → property (join first second))
    (hr : ∀ first second, property second → property (join first second))
    {pieces : List (String × α)} :
    ∀ gathered : List (String × α), (∃ piece, (name, piece) ∈ pieces ∧ property piece) ∨
        (∃ piece, Assoc.get? gathered name = some piece ∧ property piece) →
      ∃ piece, Assoc.get? (gather join nothing gathered pieces) name = some piece ∧
        property piece := by
  induction pieces with
  | nil =>
    rintro gathered (⟨piece, hm, -⟩ | h)
    · cases hm
    · exact h
  | cons first rest ih =>
    intro gathered h
    refine ih _ ?_
    by_cases hn : first.1 = name
    · subst hn
      rcases h with ⟨piece, hm, hp⟩ | ⟨piece, hg, hp⟩
      · rcases mem_cons.mp hm with hf | hm
        · refine Or.inr ⟨_, Assoc.get?_put_self _ _ _, hr _ _ ?_⟩
          rw [← hf]
          exact hp
        · exact Or.inl ⟨piece, hm, hp⟩
      · refine Or.inr ⟨_, Assoc.get?_put_self _ _ _, hl _ _ ?_⟩
        rw [hg]
        exact hp
    · rw [Assoc.get?_put_of_ne _ _ hn]
      refine h.imp (fun hpc => ?_) id
      obtain ⟨piece, hm, hp⟩ := hpc
      refine ⟨piece, (mem_cons.mp hm).resolve_left fun he => hn ?_, hp⟩
      rw [← he]

/-- If object types are picked out of the type, what the outline mentions is mentioned for one of
them. -/
theorem Outline.Lossless.exists_member {outline : Outline}
    (h : outline.Lossless type) (hnr : outline.narrowed ≠ [])
    (hn : name ∈ outline.mentions) :
    ∃ piece ∈ gather Portion.append .empty [] outline.narrowed,
      name ∈ ((Selected.ofPortion outline.toPortion).member piece.1 piece.2).mentions := by
  rcases mem_append.mp hn with hn | hn
  · have hg : gather Portion.append .empty [] outline.narrowed ≠ [] := by
      have he := isEmpty_gather Portion.append .empty outline.narrowed
      rw [← isEmpty_eq_false_iff] at hnr ⊢
      rw [he, hnr]
    obtain ⟨piece, hp⟩ := exists_mem_of_ne_nil _ hg
    exact ⟨piece, hp, mentions_member (h.members piece hp) (mem_append_left _ hn)⟩
  · obtain ⟨⟨picked, portion⟩, hp, hn⟩ := mem_flatMap.mp hn
    obtain ⟨gathered, hgt, hn⟩ := exists_gather_of_mem (name ∈ ·.mentions)
      (fun first second hf => Portion.mem_mentions_append.mpr (Or.inl hf))
      (fun first second hs => Portion.mem_mentions_append.mpr (Or.inr hs)) []
        (Or.inl ⟨portion, hp, hn⟩)
    have hm := Assoc.mem_of_get?_eq_some hgt
    exact ⟨_, hm, mentions_member (h.members _ hm) (mem_append_right _ hn)⟩

/-- The schema of an outline that leaves nothing out mentions what the outline mentions. -/
theorem Outline.Lossless.mentions_subset {outline : Outline}
    (h : outline.Lossless type) (ho : type.isAbstract = false → outline.narrowed = []) :
    outline.mentions ⊆ (outline.schema type).mentions := by
  intro name hnm
  cases ha : type.isAbstract with
  | false =>
    rw [Outline.mentions, ho ha, flatMap_nil, append_nil] at hnm
    rw [Outline.schema, if_neg (by simp [ha])]
    exact mentions_ofPortion_object h.common hnm
  | true =>
    rw [Outline.schema, if_pos ha]
    cases hn : outline.narrowed with
    | nil =>
      -- Nothing is picked out, so the type is an interface, and something is selected on it.
      rw [Outline.mentions, hn, flatMap_nil, append_nil] at hnm
      have ho := mentions_ofPortion_object h.common hnm
      have hu : type.isUnion = false := by
        rw [← Bool.not_eq_true]
        exact fun hu => h.picked hu hn
      have hs : ((Selected.ofPortion outline.toPortion).keys.isEmpty &&
          (Selected.ofPortion outline.toPortion).spreads.isEmpty) = false := by
        rw [← Bool.not_eq_true, Bool.and_eq_true, List.isEmpty_iff, List.isEmpty_iff]
        rintro ⟨hk, hsp⟩
        rw [Selected.mentions_object, Selected.names, hk, hsp] at ho
        cases ho
      rw [hu, hs]
      exact ho
    | cons first rest =>
      rw [← hn, if_neg (by simp [hn])]
      obtain ⟨piece, hp, hm⟩ := h.exists_member (by simp [hn]) hnm
      have hmm := mem_map_of_mem hp (f := fun piece : String × Portion =>
        (Selected.ofPortion outline.toPortion).member piece.1 piece.2)
      split
      · rename_i member hme
        rw [hme] at hmm
        rw [← mem_singleton.mp hmm]
        exact hm
      · rw [Schema.mentions, Schema.mentionsOfAll_eq_flatMap]
        exact mem_flatMap.mpr ⟨_, hmm, hm⟩

/-! ## Fragments that are spread -/

/-- Nothing is picked out of a type that is an object. -/
theorem narrowed_eq_nil {setting : Setting} (hc : type.isComposite)
    (ha : type.isAbstract = false) :
    (outlineAll setting type selections).narrowed = [] := by
  have ho : type.isObject := by
    rw [NamedType.isComposite, ha, Bool.or_false] at hc
    exact hc
  rw [outlineAll_eq_flatPortion setting ho]

mutual

/-- A selection that leaves nothing out mentions the fragments that it spreads at any depth. -/
theorem mem_mentions_outline {setting : Setting} {parent : NamedType} {selection : Selection}
    (h : keeps setting parent selection) {name : String} (hnm : name ∈ selection.spreadNames) :
    Name.fragmentEntry name ∈ (outline setting parent selection).mentions := by
  match selection with
  | .field responseName fieldName arguments directives (some selections) =>
    obtain ⟨hf, reference, target, hr, ht, hc, hl, hi⟩ := h
    have hb := hl.mentions_subset (narrowed_eq_nil hc ·)
      (mem_mentions_outlineAll hi hnm)
    have hs : (describe setting parent fieldName fun type =>
        (outlineAll setting type selections).schema type).schema =
          reference.wrap ((outlineAll setting target selections).schema target) := by
      rw [describe, if_neg hf, hr]
      dsimp only
      rw [leafSchema_of_isLeaf_eq_false ht (NamedType.isLeaf_eq_false hc)]
    have hm := (reference.part_wrap _).mentions_subset hb
    rw [← hs] at hm
    rw [outline]
    simpa [Outline.mentions, Portion.mentions] using hm
  | .field responseName fieldName arguments directives none =>
    cases hnm
  | .spread other directives =>
    obtain ⟨type, hty⟩ := Option.isSome_iff_exists.mp h
    obtain rfl := mem_singleton.mp hnm
    rw [outline, hty]
    dsimp only
    split <;> simp [Outline.mentions, Portion.mentions, Portion.empty]
  | .inline condition directives selections =>
    rw [keeps] at h
    rw [outline]
    split
    · rename_i hn
      rw [if_pos hn] at h
      have ho : (setting.conditionType parent condition).isObject := by
        simp only [narrows, Bool.and_eq_true] at hn
        exact hn.1.2
      have hm := mem_mentions_outlineAll h hnm
      rw [outlineAll_eq_flatPortion setting ho] at hm ⊢
      simpa [Outline.mentions, Portion.mentions, Portion.empty] using hm
    · rename_i hn
      rw [if_neg hn] at h
      exact mem_mentions_outlineAll h hnm

/-- Selections that leave nothing out mention the fragments that they spread at any depth. -/
theorem mem_mentions_outlineAll {setting : Setting} {parent : NamedType}
    {selections : List Selection} (h : keepsAll setting parent selections) {name : String}
    (hn : name ∈ Selection.spreadNamesOfAll selections) :
    Name.fragmentEntry name ∈ (outlineAll setting parent selections).mentions := by
  match selections with
  | [] =>
    cases hn
  | selection :: rest =>
    rw [outlineAll, Outline.mem_mentions_append]
    rcases mem_append.mp hn with hn | hn
    · exact Or.inl (mem_mentions_outline h.1 hn)
    · exact Or.inr (mem_mentions_outlineAll h.2 hn)

end

/-! ## Dependencies -/

section

variable {setting : Setting} {entries : List Entry} {result : Catalog}

theorem Keeps.mem_mentions
    (h : Keeps setting type selections)
    (hn : name ∈ Selection.spreadNamesOfAll selections) :
    Name.fragmentEntry name ∈ ((outlineAll setting type selections).schema type).mentions :=
  h.lossless.mentions_subset (narrowed_eq_nil h.composite ·)
    (mem_mentions_outlineAll h.inside hn)

/-- An entry is made for selections that leave nothing out, and they spread a fragment whose entry
is not named like a type. -/
inductive KeptSpread (setting : Setting) : String → String → Prop
  | intro {name spread : String} {category : Category} {merging : List String} {type : NamedType}
      {selections : List Selection}
      (hselected : setting.SelectedFor name category merging type selections)
      (hkeeps : Keeps setting type selections)
      (hspread : spread ∈ Selection.spreadNamesOfAll selections)
      (hname : setting.system.type? (Name.fragmentEntry spread) = none) :
      KeptSpread setting name (Name.fragmentEntry spread)

/-- The entry of the spread fragment was there before, and is mentioned. -/
theorem KeptSpread.of_split (ho : setting.Orderly) (h : Built (Grounded setting) entries)
    (hcn : ∀ entry ∈ entries, Belongs setting (.of entry)) {before after : List Entry}
    (hsp : entries = before ++ entry :: after) {other : String}
    (hk : KeptSpread setting entry.name other) :
    IsFragmentName before other ∧ other ∈ entry.schema.mentions := by
  generalize hn : entry.name = name at hk
  cases hk with
  | intro hs hkp hspr hnn =>
    have he := (hcn entry (by simp [hsp])).eq_of_name_eq ho hs.belongs hn
    obtain ⟨-, hc, hsc⟩ := Content.mk.inj he
    have hm := hsc ▸ hkp.mem_mentions hspr
    refine ⟨((h.of_split hsp).source.selectable (hc ▸ hs.category_eq) _
      hm).resolve_left ?_, hm⟩
    rintro ⟨type, hkn, -⟩
    cases hnn.symm.trans hkn

/-- Spreads lead from an entry to those of all fragments to which its selections lead, if nothing is
left out on the way. -/
theorem transGen_keptSpread (ho : setting.Orderly) {category : Category}
    {merging : List String}
    (hsl : setting.SelectedFor name category merging type selections)
    (hk : Keeps setting type selections)
    (hkp : ∀ other, setting.documents.Leads selections other →
      ∃ fragment type, setting.documents.fragment? other = some fragment ∧
        setting.spreadType? other = some type ∧ Keeps setting type fragment.selections)
    (hl : setting.documents.Leads selections last) :
    TransGen (KeptSpread setting) name (Name.fragmentEntry last) := by
  have hn : ∀ {other}, setting.documents.Leads selections other →
      setting.system.type? (Name.fragmentEntry other) = none := by
    intro other hl
    obtain ⟨fragment, type, hf, ht, -⟩ := hkp other hl
    obtain ⟨hm, rfl⟩ := Documents.of_fragment? hf
    exact ho.types _ (mem_append_left _ (mem_map.mpr
      ⟨fragment, mem_filter.mpr ⟨hm, Option.isSome_of_eq_some ht⟩, rfl⟩))
  obtain ⟨first, hfr, hc⟩ := hl
  induction hc with
  | refl => exact .single (.intro hsl hk hfr (hn ⟨first, hfr, .refl⟩))
  | @tail middle last hc hs ih =>
    have hls := hn ⟨first, hfr, hc.tail hs⟩
    obtain ⟨fragment, type, hf, ht, hk⟩ := hkp middle ⟨first, hfr, hc⟩
    obtain ⟨fragment', hf', hsp⟩ := hs
    cases hf.symm.trans hf'
    obtain ⟨hm, rfl⟩ := Documents.of_fragment? hf
    exact .tail ih (.intro (.fragment hm ht) hk hsp hls)

end

/-- If an operation and the fragments to which it leads leave nothing out: there is a catalog, each
of these fragments has an entry, and the entry of the response depends on it. -/
theorem response_depends_on_fragments {system : TypeSystem} {documents : Documents}
    {library : Option String} {overrides : List (String × String)} {registry : Registry}
    (hregistry : Registry.ofName library overrides = .ok registry)
    (horderly : Setting.Orderly ⟨system, documents, registry⟩) {operation : NamedOperation}
    (hoperation : operation ∈ documents.operations) {root : NamedType}
    (hroot : system.root? operation.kind = some root)
    (hkeeps : Keeps ⟨system, documents, registry⟩ root operation.selections)
    (hkept : ∀ name, documents.Leads operation.selections name →
      ∃ fragment type, documents.fragment? name = some fragment ∧
        Setting.spreadType? ⟨system, documents, registry⟩ name = some type ∧
          Keeps ⟨system, documents, registry⟩ type fragment.selections) :
    ∃ result entry, catalog ⟨system, documents, registry⟩ = .ok result ∧
      result.find? (Name.responseEntry operation.name operation.kind.name) = some entry ∧
      ∀ name, documents.Leads operation.selections name →
        (∃ fragment, result.find? (Name.fragmentEntry name) = some fragment) ∧
          Name.fragmentEntry name ∈ entry.dependencies := by
  obtain ⟨result, hr, hc⟩ :=
    exists_catalogued horderly (Registry.nameless_of_ofName hregistry)
  obtain ⟨⟨_, progress⟩, hrn, heq⟩ := of_bind_eq_ok hr
  cases heq
  have ht := ensures_traced_addAll (Registry.nameless_of_ofName hregistry) _ _ _
    (Traced.start _) hrn
  have hcn : ∀ entry ∈ progress.entries, Belongs _ (.of entry) := fun entry he =>
    (hc.contents _).mp
      (mem_map_of_mem (mem_topologicalSort_of_mem ht.distinct he))
  obtain ⟨entry, he, -⟩ := hc.exists_find? (.response hoperation hroot)
  obtain ⟨before, after, hs⟩ :=
    append_of_mem (mem_of_mem_topologicalSort (mem_of_find?_eq_some he))
  refine ⟨_, entry, hr, he, fun name hl => ?_⟩
  obtain ⟨fragment, type, hf, hty, -⟩ := hkept name hl
  obtain ⟨hm, rfl⟩ := Documents.of_fragment? hf
  obtain ⟨found, hfn, -⟩ := hc.exists_find? (.fragment hm hty)
  exact ⟨⟨found, hfn⟩, (mem_dependencies_of_chain ht.built
    (fun hs => KeptSpread.of_split horderly ht.built hcn hs)
    (transGen_keptSpread horderly (.response hoperation hroot) hkeeps hkept hl) hs
    (by simpa using find?_some he)).2⟩

/-! ## Fragments on a union -/

/-- A union of cats and dogs. -/
def thingSystem : TypeSystem where
  types :=
    [⟨"Query", .object [("search", .named "Thing")]⟩, ⟨"Thing", .union⟩,
      ⟨"Cat", .object [("name", .named "String")]⟩, ⟨"Dog", .object [("name", .named "String")]⟩,
      ⟨"String", .scalar⟩]
  query := some "Query"
  mutation := none

/-- A query for things. -/
def thingQuery (selections : List Selection) : NamedOperation :=
  ⟨"Q", .query, [], [.field none "search" [] [] (some selections)], "things"⟩

/-- A fragment. -/
def thingFragment (name type : String) (selections : List Selection) : SourcedFragment :=
  ⟨⟨name, type, [], selections⟩, "things"⟩

/-- A query that spreads a fragment on the union, and the scalars that are always registered. -/
def spreadSetting : Setting :=
  ⟨thingSystem, ⟨[thingQuery [.spread "F" []]],
    [thingFragment "F" "Thing" [.inline (some "Cat") [] [.field none "name" [] [] none]]], []⟩,
    ⟨none, Registry.defaults⟩⟩

theorem orderly_spreadSetting : spreadSetting.Orderly where
  fragments := by decide
  acyclic := Documents.acyclic_of_rank (fun name => if name = "F" then 1 else 0) (by decide)
  names := by decide +kernel
  types := by decide +kernel

/-- The response does not depend on the fragment, although the operation spreads it. -/
theorem spreadQuery_misses_fragment : spreadSetting.Orderly ∧
    spreadSetting.documents.Leads (thingQuery [.spread "F" []]).selections "F" ∧
    ∃ result entry fragment, catalog spreadSetting = .ok result ∧
      result.find? "QQuery" = some entry ∧ result.find? "FFragment" = some fragment ∧
      "FFragment" ∉ entry.dependencies := by
  refine ⟨orderly_spreadSetting, ⟨"F", by decide, .refl⟩, _, _, _, rfl, rfl, rfl, ?_⟩
  decide

/-- A query on the union for the name of a cat and for what a fragment selects. -/
def pickQuery : NamedOperation :=
  thingQuery [.spread "F" [], .inline (some "Cat") [] [.field none "name" [] [] none]]

/-- The query, a fragment on the union that spreads another one for dogs, and the scalars that are
always registered. -/
def pickSetting : Setting :=
  ⟨thingSystem, ⟨[pickQuery], [thingFragment "F" "Thing" [.inline (some "Dog") [] [.spread "G" []]],
      thingFragment "G" "Dog" [.field none "name" [] [] none]], []⟩,
    ⟨none, Registry.defaults⟩⟩

theorem orderly_pickSetting : pickSetting.Orderly where
  fragments := by decide
  acyclic := Documents.acyclic_of_rank (fun name => if name = "F" then 1 else 0) (by decide)
  names := by decide +kernel
  types := by decide +kernel

theorem keeps_pickQuery :
    Keeps pickSetting ⟨"Query", .object [("search", .named "Thing")]⟩ pickQuery.selections := by
  refine ⟨rfl, by decide +kernel, ?_⟩
  refine ⟨⟨by decide, .named "Thing", ⟨"Thing", .union⟩, rfl, rfl, rfl, by decide +kernel, ?_⟩,
    trivial⟩
  exact ⟨rfl, ⟨trivial, trivial⟩, trivial⟩

/-- The fragments leave nothing out. -/
theorem keeps_pickFragments (name : String)
    (h : pickSetting.documents.Leads pickQuery.selections name) :
    ∃ fragment type, pickSetting.documents.fragment? name = some fragment ∧
      pickSetting.spreadType? name = some type ∧ Keeps pickSetting type fragment.selections := by
  have hnm : name = "F" ∨ name = "G" := by
    obtain ⟨first, hfr, hc⟩ := h
    induction hc with
    | refl => exact Or.inl (mem_singleton.mp hfr)
    | tail _ hs ih =>
      obtain ⟨fragment, hf, hn⟩ := hs
      rcases ih with rfl | rfl
      · obtain rfl := Option.some.inj hf
        exact Or.inr (mem_singleton.mp hn)
      · obtain rfl := Option.some.inj hf
        cases hn
  rcases hnm with rfl | rfl
  · exact ⟨_, _, rfl, rfl, rfl, by decide +kernel, ⟨rfl, trivial⟩, trivial⟩
  · exact ⟨_, _, rfl, rfl, rfl, by decide +kernel, trivial, trivial⟩

/-- The response to the query depends on both fragments. -/
theorem pickQuery_depends_on_fragments : ∃ result entry, catalog pickSetting = .ok result ∧
      result.find? (Name.responseEntry pickQuery.name pickQuery.kind.name) = some entry ∧
      Name.fragmentEntry "F" ∈ entry.dependencies ∧
      Name.fragmentEntry "G" ∈ entry.dependencies := by
  obtain ⟨result, entry, hr, he, hd⟩ :=
    response_depends_on_fragments Registry.ofName_none
    orderly_pickSetting (mem_singleton_self pickQuery) rfl keeps_pickQuery keeps_pickFragments
  have hs : pickSetting.documents.Spreads "F" "G" := ⟨_, rfl, by decide⟩
  exact ⟨result, entry, hr, he, (hd "F" ⟨"F", by decide, .refl⟩).2,
    (hd "G" ⟨"F", by decide, .single hs⟩).2⟩

end ApiSchema.GraphQL
