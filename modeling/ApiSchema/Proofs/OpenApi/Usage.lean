/-
# Components that are used

A catalog has entries for components only if they are parts, at some depth, of schemas of its
operations. Since some of the parts that are gone through are not described, an entry of a component
need not be mentioned anywhere. If nothing that is left out has a component in it, and no operation
loses an entry, then the entry of every component can be reached from the entry of an operation,
from entry to mentioned entry.
-/
import ApiSchema.Proofs.OpenApi.Ownership

namespace ApiSchema.OpenApi

open List

variable {start final : Progress} {name : String} {part root item : Item} {schema : Schema}

open Relation (ReflTransGen)

/-! ## What a conversion shows -/

section

variable {setting : Setting}

/-- Some conversion of the part, which is not the current component, gives the schema. -/
def Converted (setting : Setting) (item : Item) (schema : Schema) : Prop :=
  ∃ fuel start final, (convert setting fuel none item).run start = .ok (schema, final)

/-- The schema mentions all that some conversion of the part mentions. -/
def Shows (setting : Setting) (schema : Schema) (item : Item) : Prop :=
  ∃ inner, Converted setting item inner ∧ inner.mentions ⊆ schema.mentions

theorem exists_run_of_description {current : Option String}
    (h : description setting current item = .ok schema) :
    ∃ fuel final, (convert setting (fuel + 1) current item).run .start = .ok (schema, final) := by
  obtain ⟨⟨schema', final⟩, hr, hs⟩ := of_bind_eq_ok h
  cases hs
  exact ⟨_, final, hr⟩

theorem shows_of_fullSchema {fuel : ℕ}
    (h : (fullSchema setting (convert setting fuel none) item).run start = .ok (schema, final)) :
    ∀ part ∈ describedParts setting.graph item, Shows setting schema part := by
  have hal := (describes_fullSchema setting item).ensures
    (fun asked _ => ∀ pair ∈ asked, Converted setting pair.1 pair.2)
    (fun _ _ _ ha => ha) (fun _ _ _ start _ final ha hr =>
      forall_mem_concat ha ⟨fuel, start, final, hr⟩) []
  obtain ⟨asked, hs, ha⟩ := hal start schema final (fun _ hp => nomatch hp) h
  intro part hpr
  obtain ⟨pair, hp, rfl⟩ := mem_map.mp (hs.complete hpr)
  exact ⟨pair.2, ha pair hp, fun name hn =>
    hs.sound (mem_flatMap.mpr ⟨pair, hp, hn⟩)⟩

/-- A reference is made with a name that is a text. -/
theorem exists_of_refer {name : Atom} (h : (refer name).run start = .ok (schema, final)) : ∃ text,
    entryName name = .ok text ∧ schema = .ref text := by
  have hr : Ensures (fun _ => True) (refer name) fun schema _ =>
      ∃ text, entryName name = .ok text ∧ schema = .ref text := by
    refine ensures_lift_bind fun text ht => ?_
    have hq : Ensures (fun _ => True) (modify (·.ensure text) : Builder Unit) fun _ _ => True :=
      ensures_modify fun _ _ => trivial
    exact ensures_bind hq fun _ => ensures_pure fun _ _ => ⟨text, ht, rfl⟩
  exact hr start schema final trivial h

/-- A conversion of a map either refers to it by the name of a component, or shows the parts that
are described. -/
theorem Converted.cases (h : Converted setting item schema) (hm : setting.graph.isMap item) :
    (∃ name, setting.componentName? item = some (.text name) ∧ schema = .ref name) ∨
      setting.componentName? item = none ∧
        ∀ part ∈ describedParts setting.graph item, Shows setting schema part := by
  obtain ⟨fuel, start, final, hr⟩ := h
  cases fuel with
  | zero => cases hr
  | succ fuel =>
    rw [convert, if_neg (by simp [hm])] at hr
    cases hn : setting.componentName? item with
    | none =>
      rw [hn] at hr
      exact Or.inr ⟨rfl, shows_of_fullSchema hr⟩
    | some name =>
      rw [hn] at hr
      have hrf : (refer name).run start = .ok (schema, final) := hr
      obtain ⟨text, ht, rfl⟩ := exists_of_refer hrf
      exact Or.inl ⟨text, by rw [eq_text_of_entryName ht], rfl⟩

/-- The own description of a component shows the parts that are described. -/
theorem shows_of_own_description (hm : setting.graph.isMap item)
    (hn : setting.componentName? item = some (.text name))
    (h : description setting (some name) item = .ok schema) :
    ∀ part ∈ describedParts setting.graph item, Shows setting schema part := by
  obtain ⟨fuel, final, hr⟩ := exists_run_of_description h
  rw [convert, if_neg (by simp [hm]), hn] at hr
  have hs : ((some name).map Atom.text == some (.text name)) :=
    (beq_text_iff _).mpr rfl
  dsimp only at hr
  rw [if_pos hs] at hr
  exact shows_of_fullSchema hr

end

/-! ## From entry to entry -/

/-- An entry of the first name mentions the second name. -/
def MentionsName (entries : List Entry) (name other : String) : Prop :=
  ∃ entry ∈ entries, entry.name = name ∧ other ∈ entry.schema.mentions

/-- The entry is made for a chosen operation. -/
def IsOperationEntry (setting : Setting) (operations : List Operation) (entry : Entry) : Prop :=
  ∃ role, ∃ operation ∈ operations, operation.claim? role = some entry.name ∧
    IsPartEntry setting operation role entry

/-- The name can be reached from the entry of an operation. -/
def Traceable (setting : Setting) (operations : List Operation) (entries : List Entry)
    (name : String) : Prop :=
  ∃ source ∈ entries, IsOperationEntry setting operations source ∧
    ReflTransGen (MentionsName entries) source.name name

/-- No part that is gone through and has a component in it is left out of the description, no
operation loses an entry, and no operation has a parameter twice. -/
structure Plain (setting : Setting) (operations : List Operation) : Prop where
  described : ∀ schema,
    Reaches setting.graph (operations.flatMap (·.schemas setting.graph)) schema →
    ∀ part ∈ walkedParts setting.graph schema, part ∈ describedParts setting.graph schema ∨
      ∀ item, ReflTransGen (HoldsPart setting.graph) part item → setting.graph.isMap item = true →
        setting.componentName? item = none
  first : ∀ role, ∀ operation ∈ operations, ∀ name, operation.claim? role = some name →
    firstClaimant? (·.claim? role) operations name = some operation
  separate : ∀ role, ∀ operation ∈ operations, ∀ name, operation.claim? role = some name →
    ∀ item, setting.componentName? item ≠ some (.text name)
  parameters : ∀ operation ∈ operations, operation.parameters.Pairwise fun parameter other =>
    ∀ key key', setting.graph.get? parameter "name" = some (.atom key) →
      setting.graph.get? other "name" = some (.atom key') → (key == key') = false

section

variable {setting : Setting} {operations : List Operation} {used : List String}
  {entries : List Entry}

/-- Each part of an operation has its own entry. -/
theorem Plain.exists_entry (hp : Plain setting operations)
    (hk : (setting.components.map (·.1)).Nodup)
    (h : Accounted setting operations used entries) {role : Role} {operation : Operation}
    (ho : operation ∈ operations) (hh : operation.has role) :
    ∃ entry ∈ entries, operation.claim? role = some entry.name ∧
      IsPartEntry setting operation role entry := by
  obtain ⟨name, hc, hn⟩ := h.answered role operation ho hh
  obtain ⟨entry, he, rfl⟩ := mem_map.mp hn
  refine ⟨entry, he, hc, h.isPartEntry_of_first hk he ?_ ?_⟩
  · exact hp.first role operation ho _ hc
  · exact hp.separate role operation ho _ hc

theorem shows_of_description (h : description setting none item = .ok schema) :
    Shows setting schema item := by
  obtain ⟨fuel, final, hr⟩ := exists_run_of_description h
  exact ⟨schema, ⟨fuel + 1, .start, final, hr⟩, List.Subset.refl _⟩

/-- What is made of pairwise different elements is pairwise different. -/
theorem pairwise_of_forall₂ {α β : Type} {made : α → β → Prop} {apart : α → α → Prop}
    {apart' : β → β → Prop}
    (h : ∀ element other result result', made element result → made other result' →
      apart element other → apart' result result') {elements : List α} {results : List β}
    (hm : List.Forall₂ made elements results) (ha : elements.Pairwise apart) :
    results.Pairwise apart' := by
  induction hm with
  | nil => exact List.Pairwise.nil
  | @cons element result elements results hf hr ih =>
    rw [pairwise_cons] at ha ⊢
    refine ⟨fun result' hr' => ?_, ih ha.2⟩
    obtain ⟨other, ho, hm⟩ := exists_mem_of_forall₂ hr.flip hr'
    exact h element other result result' hf hm (ha.1 other ho)

/-- The object of some parameters, none of which is there twice, shows their schemas. -/
theorem shows_of_parametersDescription {parameters : List Item}
    (h : parametersDescription setting parameters = .ok schema)
    (hds : parameters.Pairwise fun parameter other =>
      ∀ key key', setting.graph.get? parameter "name" = some (.atom key) →
        setting.graph.get? other "name" = some (.atom key') → (key == key') = false)
    {parameter : Item} (hp : parameter ∈ parameters)
    (hpa : setting.graph.get? parameter "schema" = some part)
    (hmp : setting.graph.isMap part) : Shows setting schema part := by
  obtain ⟨fields, hfl, hs⟩ := of_bind_eq_ok h
  cases hs
  have hmd := forall₂_of_outcome_parameterFields hfl
  have hpr : fields.Pairwise fun field other => (field.1 == other.1) = false :=
    pairwise_of_forall₂ (fun _ _ _ _ hf ho hk => hk _ _ hf.1 ho.1) hmd
      hds
  obtain ⟨field, hf, hn, hd, -⟩ := exists_mem_of_forall₂ hmd hp
  have hu : under setting.graph parameter "schema" = part := by
    rw [under, hpa, Option.getD_some]
  rw [parameterDescription, hu, if_pos hmp] at hd
  obtain ⟨inner, hc, hsb⟩ := shows_of_description hd
  refine ⟨inner, hc, fun name hm => ?_⟩
  rw [Assoc.ofList_eq_self hpr, Schema.mentions, Schema.mentionsOfFields_eq_flatMap]
  refine mem_append_left _ (mem_append_left _ (mem_flatMap.mpr ?_))
  exact ⟨_, mem_map_of_mem hf, hsb hm⟩

/-- The schemas of an operation are shown by its entries. -/
theorem Plain.exists_shows_root (hpl : Plain setting operations)
    (hk : (setting.components.map (·.1)).Nodup)
    (h : Accounted setting operations used entries)
    (hr : root ∈ operations.flatMap (·.schemas setting.graph))
    (hm : setting.graph.isMap root) :
    ∃ entry ∈ entries, IsOperationEntry setting operations entry ∧
      Shows setting entry.schema root := by
  obtain ⟨operation, ho, hr⟩ := mem_flatMap.mp hr
  have hn : root.isNull = false := by
    cases root with
    | atom value => cases hm
    | node id => rfl
  have he : ∀ role, operation.has role →
      (∀ schema, operation.description setting role = .ok schema → Shows setting schema root) →
        ∃ entry ∈ entries, IsOperationEntry setting operations entry ∧
          Shows setting entry.schema root := by
    intro role hh hs
    obtain ⟨entry, he, hc, hpr⟩ := hpl.exists_entry hk h ho hh
    exact ⟨entry, he, ⟨role, operation, ho, hc, hpr⟩, hs _ hpr.2⟩
  rcases mem_cons.mp hr with rfl | hr
  · exact he .request (by simp [Operation.has, hn]) fun schema => shows_of_description
  · rcases mem_cons.mp hr with rfl | hr
    · exact he .response (by simp [Operation.has, hn]) fun schema => shows_of_description
    · obtain ⟨parameter, hp, hpr⟩ := mem_filterMap.mp hr
      refine he .params ?_ fun schema hd =>
        shows_of_parametersDescription hd
        (hpl.parameters operation ho) hp hpr hm
      have hsm : operation.parameters ≠ [] := ne_nil_of_mem hp
      simpa [Operation.has] using hsm

/-- A part that an entry shows and that refers to a component makes it mentioned. -/
theorem Shows.mem_mentions (h : Shows setting schema item) (hm : setting.graph.isMap item)
    (hn : setting.componentName? item = some (.text name)) : name ∈ schema.mentions := by
  obtain ⟨inner, hc, hs⟩ := h
  rcases hc.cases hm with ⟨name', hn', rfl⟩ | ⟨hnn, -⟩
  · rw [hn] at hn'
    cases hn'
    exact hs (by simp [Schema.mentions])
  · rw [hn] at hnn
    cases hnn

/-- On the way to a component, every part is shown by an entry that can be reached. -/
theorem Plain.exists_shows (hp : Plain setting operations)
    (hk : (setting.components.map (·.1)).Nodup) (h : Accounted setting operations used entries)
    (hmp : setting.graph.isMap item) (hc : setting.componentName? item ≠ none)
    (hrt : root ∈ operations.flatMap (·.schemas setting.graph))
    (hpt : ReflTransGen (HoldsPart setting.graph) root part)
    (hr : ReflTransGen (HoldsPart setting.graph) part item) :
    ∃ entry ∈ entries, Traceable setting operations entries entry.name ∧
      Shows setting entry.schema part := by
  have hi : ∀ {part}, ReflTransGen (HoldsPart setting.graph) part item →
      setting.graph.isMap part := by
    intro part hr
    rcases ReflTransGen.cases_head hr with rfl | ⟨next, hnx, -⟩
    · exact hmp
    · exact hnx.1
  induction hpt with
  | refl =>
    obtain ⟨entry, he, ho, hsh⟩ :=
      hp.exists_shows_root hk h hrt (hi hr)
    exact ⟨entry, he, ⟨entry, he, ho, .refl⟩, hsh⟩
  | @tail whole part hb hs ih =>
    obtain ⟨entry, he, ⟨source, hsr, ho, htr⟩, inner, hcn, hsb⟩ :=
      ih (ReflTransGen.head hs hr)
    -- What is left out of the description does not lead on to the component.
    have hd : part ∈ describedParts setting.graph whole := by
      rcases hs.2 with hw | hd
      · rcases hp.described whole ⟨root, hrt, hb⟩ part hw with hd | hnn
        · exact hd
        · exact absurd (hnn item hr hmp) hc
      · exact hd
    rcases hcn.cases hs.1 with ⟨name, hn, rfl⟩ | ⟨-, hsh⟩
    · -- The part belongs to a component, which has an entry of its own.
      have hm : name ∈ entry.schema.mentions := hsb (by simp [Schema.mentions])
      obtain ⟨target, ht, rfl⟩ := mem_map.mp (h.mentioned entry he name hm)
      have hown : IsComponentEntry setting target :=
        h.isComponentEntry_of_unclaimed hk ht fun role operation hmm hcl =>
          hp.separate role operation hmm target.name hcl whole hn
      refine ⟨target, ht, ⟨source, hsr, ho, htr.tail ?_⟩, ?_⟩
      · exact ⟨entry, he, rfl, hm⟩
      · exact shows_of_own_description hs.1 hn (hown.2.2 whole hn) part hd
    · obtain ⟨inner', hc', hs'⟩ := hsh part hd
      exact ⟨entry, he, ⟨source, hsr, ho, htr⟩, inner', hc',
        fun name hn => hsb (hs' hn)⟩

end

/-- Whatever the document, the operations and the names to choose by are, the component of every
component entry is a part, at some depth, of a schema of a chosen operation. If nothing that is left
out has a component in it and no operation loses an entry, every component entry can be reached from
the entry of a chosen operation, from entry to mentioned entry. -/
theorem component_entries_traceable {graph : Graph} {operations : List Operation}
    {ids : Option (List String)} {result : Catalog} (hdistinct : graph.hasDistinctKeys = true)
    (hcatalog : catalog graph operations ids = .ok result) :
    ∃ setting chosen, Setting.of graph = .ok setting ∧
      selectOperations ids operations = .ok chosen ∧
      ∀ entry ∈ result.entries, entry.category = .component →
        (∃ item, setting.componentName? item = some (.text entry.name) ∧
          Reaches setting.graph (chosen.flatMap (·.schemas setting.graph)) item) ∧
        (Plain setting chosen → Traceable setting chosen result.entries entry.name) := by
  obtain ⟨chosen, hch, hcatalog⟩ := of_bind_eq_ok hcatalog
  obtain ⟨setting, hs, hcatalog⟩ := of_bind_eq_ok hcatalog
  have hk := Setting.nodup_names hdistinct hs
  obtain ⟨used, -, ha⟩ := accounted_catalogOf hk hcatalog
  refine ⟨setting, chosen, hs, hch, fun entry he hc => ?_⟩
  cases ha.origin entry he with
  | @part role => cases role <;> cases hc
  | @component item name schema hi hm hn hsc =>
    refine ⟨⟨item, hn, hi⟩, fun hp => ?_⟩
    obtain ⟨root, hr, hpt⟩ := hi
    obtain ⟨shown, hsh, ⟨source, hsr, ho, ht⟩, hsho⟩ :=
      hp.exists_shows hk ha hm (by simp [hn]) hr hpt .refl
    refine ⟨source, hsr, ho, ht.tail ?_⟩
    exact ⟨shown, hsh, rfl, hsho.mem_mentions hm hn⟩

/-! ## Pets with tags -/

/-- A document with a component for pets and one for their tags. The last three nodes are a list of
pets, and a text with the properties of an object. -/
def tagGraph : Graph where
  nodes := #[.map [(.text "components", .node 1)], .map [(.text "schemas", .node 2)],
    .map [(.text "Pet", .node 3), (.text "Tag", .node 5)],
    .map [(.text "type", .text "object"), (.text "properties", .node 4)],
    .map [(.text "tag", .node 5), (.text "friend", .node 3)],
    .map [(.text "type", .text "string")],
    .map [(.text "type", .text "array"), (.text "items", .node 3)],
    .map [(.text "type", .text "string"), (.text "properties", .node 8)],
    .map [(.text "tag", .node 5)]]
  root := .node 0

/-- The document with its components. -/
def tagSetting : Setting := ⟨tagGraph, [(.text "Pet", .node 3), (.text "Tag", .node 5)]⟩

/-- An operation with a list of pets leaves nothing out. -/
theorem plain_listPets : Plain tagSetting [respondingOperation "listPets" (.node 6)] := by
  have hcl : ∀ role, ∀ operation ∈ [respondingOperation "listPets" (.node 6)], ∀ name,
      operation.claim? role = some name → name = "ListPetsResponse" ∧ role = .response := by
    intro role operation ho name hc
    rw [mem_singleton.mp ho] at hc
    cases role
    · cases hc
    · exact ⟨(Option.some.inj hc).symm, rfl⟩
    · cases hc
  constructor
  case described =>
    intro schema hr part hp
    have hm : schema ∈ [.node 6, .node 3, .node 5, .null] :=
      mem_of_reaches (by decide) (by decide) hr
    have ha : ∀ schema ∈ [Item.node 6, .node 3, .node 5, .null],
        walkedParts tagSetting.graph schema ⊆ describedParts tagSetting.graph schema := by
      decide
    exact Or.inl (ha schema hm hp)
  case first =>
    intro role operation ho name hc
    obtain ⟨rfl, rfl⟩ := hcl role operation ho name hc
    rw [mem_singleton.mp ho]
    rfl
  case separate =>
    intro role operation ho name hc item hi
    obtain ⟨rfl, rfl⟩ := hcl role operation ho name hc
    exact absurd (Setting.mem_names_of_componentName? hi) (by simp [tagSetting])
  case parameters =>
    intro operation ho
    rw [mem_singleton.mp ho]
    exact List.Pairwise.nil

/-- The entry of a tag can be reached from the list of pets. -/
theorem tag_traceable : tagGraph.hasDistinctKeys = true ∧
      ∃ result, catalog tagGraph [respondingOperation "listPets" (.node 6)] none = .ok result ∧
        Traceable tagSetting [respondingOperation "listPets" (.node 6)] result.entries "Tag" := by
  have hd : tagGraph.hasDistinctKeys = true := by decide
  have he : ∃ result,
      catalog tagGraph [respondingOperation "listPets" (.node 6)] none = .ok result ∧
        ∃ entry ∈ result.entries, entry.name = "Tag" ∧ entry.category = .component :=
    ⟨_, rfl, _, mem_cons_self .., rfl, rfl⟩
  obtain ⟨result, hr, entry, hen, hn, hc⟩ := he
  refine ⟨hd, result, hr, ?_⟩
  obtain ⟨setting, chosen, hs, hch, ht⟩ :=
    component_entries_traceable hd hr
  obtain rfl : tagSetting = setting := Except.ok.inj hs
  obtain rfl : [respondingOperation "listPets" (.node 6)] = chosen := Except.ok.inj hch
  rw [← hn]
  exact (ht entry hen hc).2 plain_listPets

/-- The properties of a text are not described. The tag among them has an entry, and no entry
mentions it. -/
theorem tag_of_text_not_traceable :
    ∃ result, catalog tagGraph [respondingOperation "listPets" (.node 7)] none = .ok result ∧
      (∃ entry ∈ result.entries, entry.name = "Tag" ∧ entry.category = .component) ∧
      ¬ Traceable tagSetting [respondingOperation "listPets" (.node 7)] result.entries "Tag" := by
  refine ⟨⟨[Entry.of "Tag" (.string none) .component [],
    Entry.of "ListPetsResponse" (.string none) .response []], []⟩, rfl, ?_, ?_⟩
  · exact ⟨_, mem_cons_self .., rfl, rfl⟩
  · rintro ⟨source, -, ⟨role, operation, ho, hc, -⟩, hp⟩
    rcases ReflTransGen.cases_tail hp with hn | ⟨name, -, entry, he, -, hm⟩
    · -- The operation asks for no such name.
      rw [mem_singleton.mp ho, ← hn] at hc
      cases role <;> exact absurd hc (by decide)
    · rcases mem_pair.mp he with rfl | rfl <;> exact absurd hm (by decide)

end ApiSchema.OpenApi
