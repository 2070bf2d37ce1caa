/-
# Names inside schemas

A schema is made of parts, and a part can name entries: a reference names one, an object names the
fragments that it spreads. The names that a schema mentions are the names in its parts, and the
dependencies of an entry cover them.
-/
import Mathlib.Logic.Basic
import ApiSchema.Schema.Dependencies

namespace ApiSchema

open List

variable {α : Type} {elements : List α} {last : α} {part schema : Schema}
  {fields : List (Field Schema)} {undeclared : Undeclared Schema} {spreads : List String}
  {members : List Schema} {name : String}

/-! ## Sets of names -/

/-- What holds of some elements and of one more holds of all of them. -/
theorem forall_mem_concat {holds : α → Prop}
    (h : ∀ element ∈ elements, holds element) (hl : holds last) :
    ∀ element ∈ elements ++ [last], holds element :=
  forall_mem_append.mpr ⟨h, forall_mem_singleton.mpr hl⟩

theorem nodup_map_concat {β : Type} {name : α → β}
    (h : (elements.map name).Nodup) (hn : name last ∉ elements.map name) :
    ((elements ++ [last]).map name).Nodup := by
  rw [map_append, nodup_append]
  refine ⟨h, by simp, ?_⟩
  rintro other ho _ hm rfl
  exact hn (mem_singleton.mp hm ▸ ho)

/-- A union of names has the names of both lists. -/
theorem mem_unionNames (names extra : List String) (name : String) :
    name ∈ unionNames names extra ↔ name ∈ names ∨ name ∈ extra := by
  induction extra generalizing names with
  | nil => simp [unionNames]
  | cons first rest ih =>
    rw [unionNames, foldl_cons, ← unionNames, ih]
    by_cases h : first ∈ names
    · rw [if_pos (by simpa using h), mem_cons]
      constructor
      · exact fun hm => hm.imp id Or.inr
      · rintro (hm | rfl | hm)
        · exact Or.inl hm
        · exact Or.inl h
        · exact Or.inr hm
    · rw [if_neg (by simpa using h), mem_append, mem_singleton, mem_cons, or_assoc]

/-- A union of names has each new name once. -/
theorem nodup_unionNames {names : List String} (extra : List String) (h : names.Nodup) :
    (unionNames names extra).Nodup := by
  induction extra generalizing names with
  | nil => exact h
  | cons first rest ih =>
    rw [unionNames, foldl_cons]
    apply ih
    by_cases hf : first ∈ names
    · rw [if_pos (by simpa using hf)]
      exact h
    · rw [if_neg (by simpa using hf)]
      refine nodup_append.mpr ⟨h, by simp, ?_⟩
      rintro name hn _ hm rfl
      exact hf (mem_singleton.mp hm ▸ hn)

/-- Putting a name into its place adds just this name. -/
theorem mem_insertName (names : List String) (other : String) :
    other ∈ insertName name names ↔ other = name ∨ other ∈ names := by
  induction names with
  | nil => simp [insertName]
  | cons head rest ih =>
    rw [insertName]
    split
    · simp
    · split
      · rename_i he
        simp [he]
      · rw [mem_cons, ih, mem_cons, or_left_comm]

theorem mem_sortNames (names : List String) (name : String) :
    name ∈ sortNames names ↔ name ∈ names := by
  induction names with
  | nil => rfl
  | cons head rest ih =>
    rw [sortNames, foldr_cons, ← sortNames, mem_insertName, ih, mem_cons]

/-- The schemas for undeclared keys. -/
def Undeclared.schemas {α : Type} : Undeclared α → List α
  | .checked schema => [schema]
  | _ => []

namespace Schema

/-! ## Parts -/

/-- The first schema is the second one, or stands somewhere inside of it. -/
inductive Part (part : Schema) : Schema → Prop
  | whole : Part part part
  | field {fields : List (Field Schema)} {undeclared : Undeclared Schema} {spreads : List String}
      {field : Field Schema} (hmem : field ∈ fields) (hpart : Part part field.schema) :
      Part part (.object fields undeclared spreads)
  | undeclared {fields : List (Field Schema)} {schema : Schema} {spreads : List String}
      (hpart : Part part schema) : Part part (.object fields (.checked schema) spreads)
  | items {items : Schema} (hpart : Part part items) : Part part (.array items)
  | position {items : List Schema} {item : Schema} (hmem : item ∈ items)
      (hpart : Part part item) : Part part (.tuple items)
  | key {key value : Schema} (hpart : Part part key) : Part part (.record key value)
  | value {key value : Schema} (hpart : Part part value) : Part part (.record key value)
  | alternative {members : List Schema} {member : Schema} (hmem : member ∈ members)
      (hpart : Part part member) : Part part (.union members)
  | condition {members : List Schema} {member : Schema} (hmem : member ∈ members)
      (hpart : Part part member) : Part part (.intersection members)

/-- What stands inside of a part stands inside of the whole. -/
theorem Part.trans {middle whole : Schema} (h : Part part middle) (h' : Part middle whole) :
    Part part whole := by
  induction h' with
  | whole => exact h
  | field hm _ ih => exact .field hm ih
  | undeclared _ ih => exact .undeclared ih
  | items _ ih => exact .items ih
  | position hm _ ih => exact .position hm ih
  | key _ ih => exact .key ih
  | value _ ih => exact .value ih
  | alternative hm _ ih => exact .alternative hm ih
  | condition hm _ ih => exact .condition hm ih

/-- Whether the schema has no schemas inside of it. -/
def isLeaf : Schema → Bool
  | object .. | array _ | tuple _ | record .. | union _ | intersection _ => false
  | _ => true

/-- The schemas that stand directly inside of a schema. -/
def children : Schema → List Schema
  | object fields undeclared _ => fields.map (·.schema) ++ undeclared.schemas
  | array items => [items]
  | tuple items => items
  | record key value => [key, value]
  | union members => members
  | intersection members => members
  | _ => []

/-- The parts of a schema are the schema itself and the parts of its children. -/
theorem part_iff :
    Part part schema ↔ part = schema ∨ ∃ child ∈ schema.children, Part part child := by
  constructor
  · intro h
    cases h with
    | whole => exact Or.inl rfl
    | field hm hp =>
      exact Or.inr ⟨_, mem_append_left _ (mem_map_of_mem hm), hp⟩
    | undeclared hp =>
      exact Or.inr ⟨_, mem_append_right _ (mem_singleton_self _), hp⟩
    | items hp | key hp => exact Or.inr ⟨_, mem_cons_self .., hp⟩
    | value hp => exact Or.inr ⟨_, mem_cons_of_mem _ (mem_singleton_self _), hp⟩
    | position hm hp | alternative hm hp | condition hm hp =>
      exact Or.inr ⟨_, hm, hp⟩
  · rintro (rfl | ⟨child, hm, hp⟩)
    · exact .whole
    · cases schema with
      | object fields undeclared spreads =>
        rcases mem_append.mp hm with hm | hm
        · obtain ⟨field, hf, rfl⟩ := mem_map.mp hm
          exact .field hf hp
        · cases undeclared with
          | checked inner => exact .undeclared (mem_singleton.mp hm ▸ hp)
          | _ => cases hm
      | array items => exact .items (mem_singleton.mp hm ▸ hp)
      | tuple items => exact .position hm hp
      | record key value =>
        rcases mem_cons.mp hm with rfl | hm
        · exact .key hp
        · exact .value (mem_singleton.mp hm ▸ hp)
      | union members => exact .alternative hm hp
      | intersection members => exact .condition hm hp
      | _ => cases hm

theorem part_of_mem_children {child : Schema} (h : child ∈ schema.children) : Part child schema :=
  part_iff.mpr (Or.inr ⟨child, h, .whole⟩)

/-- A child is smaller than the schema. -/
theorem sizeOf_lt_of_mem_children {child : Schema} (h : child ∈ schema.children) :
    sizeOf child < sizeOf schema := by
  cases schema with
  | object fields undeclared spreads =>
    rcases mem_append.mp h with h | h
    · obtain ⟨⟨key, schema, required⟩, hf, rfl⟩ := mem_map.mp h
      have hs := sizeOf_lt_of_mem hf
      simp only [Field.mk.sizeOf_spec, object.sizeOf_spec] at hs ⊢
      omega
    · cases undeclared with
      | checked inner =>
        simp only [mem_singleton.mp h, object.sizeOf_spec, Undeclared.checked.sizeOf_spec]
        omega
      | _ => cases h
  | array items => simp [mem_singleton.mp h]
  | record key value =>
    simp only [children, mem_cons, not_mem_nil, or_false] at h
    rw [record.sizeOf_spec]
    rcases h with rfl | rfl <;> omega
  | tuple members | union members | intersection members =>
    have hs : sizeOf child < sizeOf members := sizeOf_lt_of_mem h
    simp only [tuple.sizeOf_spec, union.sizeOf_spec, intersection.sizeOf_spec]
    omega
  | _ => cases h

/-- What holds of a schema if it holds of its children holds of every schema. -/
@[elab_as_elim]
theorem induction_children {motive : Schema → Prop}
    (step : ∀ schema, (∀ child ∈ schema.children, motive child) → motive schema)
    (schema : Schema) : motive schema := by
  induction hs : sizeOf schema using Nat.strongRecOn generalizing schema with
  | ind size ih =>
    subst hs
    exact step schema fun child hc => ih _ (sizeOf_lt_of_mem_children hc) child rfl

/-- A schema without schemas inside of it is its only part. -/
theorem part_iff_eq (h : schema.isLeaf) : Part part schema ↔ part = schema := by
  have hn : schema.children = [] := by
    cases schema <;> first | rfl | cases h
  rw [part_iff, hn]
  simp

/-- The parts of an object stand in its fields and under undeclared keys. -/
theorem part_object_iff : Part part (.object fields undeclared spreads) ↔
      part = .object fields undeclared spreads ∨ (∃ field ∈ fields, Part part field.schema) ∨
        ∃ schema, undeclared = .checked schema ∧ Part part schema := by
  rw [part_iff, children]
  cases undeclared <;> simp [Undeclared.schemas, or_and_right, exists_or]

theorem part_array_iff {items : Schema} :
    Part part (.array items) ↔ part = .array items ∨ Part part items := by
  rw [part_iff]
  simp [children]

theorem part_record_iff {key value : Schema} :
    Part part (.record key value) ↔ part = .record key value ∨ Part part key ∨ Part part value := by
  rw [part_iff]
  simp [children]

theorem part_union_iff :
    Part part (.union members) ↔ part = .union members ∨ ∃ member ∈ members, Part part member :=
  part_iff

theorem part_intersection_iff : Part part (.intersection members) ↔ part = .intersection members ∨
    ∃ member ∈ members, Part part member :=
  part_iff

/-! ## Mentioned names -/

theorem mentionsOfAll_eq_flatMap (schemas : List Schema) :
    mentionsOfAll schemas = schemas.flatMap mentions := by
  induction schemas with
  | nil => rfl
  | cons schema rest ih =>
    rw [flatMap_cons, ← ih]
    rfl

theorem mentionsOfFields_eq_flatMap :
    mentionsOfFields fields = fields.flatMap fun field => field.schema.mentions := by
  induction fields with
  | nil => rfl
  | cons field rest ih =>
    rw [flatMap_cons, ← ih]
    rfl

@[simp] theorem mentions_unknown : unknown.mentions = [] := rfl

theorem mentions_nullable (schema : Schema) : schema.nullable.mentions = schema.mentions :=
  append_nil _

/-- The schema is a reference to the name or, if the flag is set, spreads it itself. -/
def Names (schema : Schema) : Bool → String → Prop
  | false, name => schema = .ref name
  | true, name => name ∈ schema.spreads

/-- The schema refers to the name or, if the flag is set, spreads it, at some depth. -/
def Refers (schema : Schema) (spread : Bool) (name : String) : Prop :=
  ∃ part, Part part schema ∧ part.Names spread name

variable {spread : Bool}

/-- A schema refers to a name itself, or a child does. -/
theorem refers_iff : schema.Refers spread name ↔
    schema.Names spread name ∨ ∃ child ∈ schema.children, child.Refers spread name := by
  constructor
  · rintro ⟨part, hp, hn⟩
    rcases part_iff.mp hp with rfl | ⟨child, hc, hp⟩
    · exact Or.inl hn
    · exact Or.inr ⟨child, hc, part, hp, hn⟩
  · rintro (hn | ⟨child, hc, part, hp, hn⟩)
    · exact ⟨schema, .whole, hn⟩
    · exact ⟨part, part_iff.mpr (Or.inr ⟨child, hc, hp⟩), hn⟩

/-- A schema mentions the names that it refers to or spreads. -/
theorem mem_mentions_iff : name ∈ schema.mentions ↔ ∃ spread, schema.Refers spread name := by
  induction schema using induction_children with
  | step schema ih =>
    have ho : name ∈ schema.mentions ↔ (∃ spread, schema.Names spread name) ∨
        ∃ child ∈ schema.children, name ∈ child.mentions := by
      rw [Bool.exists_bool]
      cases schema with
      | object fields undeclared spreads =>
        cases undeclared <;> simp [mentions, children, Names, Schema.spreads,
          mentionsOfFields_eq_flatMap, mentionsOfUndeclared, Undeclared.schemas] <;> grind
      | _ => simp [mentions, children, Names, Schema.spreads, mentionsOfAll_eq_flatMap, eq_comm]
    rw [ho, exists_congr fun _ => refers_iff, exists_or]
    refine or_congr_right ⟨?_, ?_⟩
    · rintro ⟨child, hc, hn⟩
      obtain ⟨spread, hn⟩ := (ih child hc).mp hn
      exact ⟨spread, child, hc, hn⟩
    · rintro ⟨spread, child, hc, hn⟩
      exact ⟨child, hc, (ih child hc).mpr ⟨spread, hn⟩⟩

/-- The schema refers to usable names only, and spreads usable names only, at any depth. -/
def UsesOnly (usable : Bool → String → Prop) (schema : Schema) : Prop :=
  ∀ spread name, schema.Refers spread name → usable spread name

section

variable {usable : Bool → String → Prop}

/-- Names that are mentioned are usable. -/
theorem UsesOnly.forall_mentions (h : schema.UsesOnly usable) {holds : String → Prop}
    (hh : ∀ spread name, usable spread name → holds name) :
    ∀ name ∈ schema.mentions, holds name := by
  intro name hn
  obtain ⟨spread, hr⟩ := mem_mentions_iff.mp hn
  exact hh spread name (h spread name hr)

theorem usesOnly_of_mentions (h : schema.mentions = []) : schema.UsesOnly usable := by
  intro spread name hr
  have hn : name ∈ schema.mentions := mem_mentions_iff.mpr ⟨spread, hr⟩
  rw [h] at hn
  cases hn

theorem usesOnly_ref (h : usable false name) : (ref name).UsesOnly usable := by
  rintro spread other ⟨part, hp, hn⟩
  obtain rfl := (part_iff_eq rfl).mp hp
  cases spread <;> cases hn
  exact h

/-- An object uses what its fields use and what it spreads. -/
theorem usesOnly_object (h : ∀ field ∈ fields, field.schema.UsesOnly usable)
    (hs : ∀ name ∈ spreads, usable true name) :
    (object fields .dropped spreads).UsesOnly usable := by
  intro spread name hr
  rcases refers_iff.mp hr with hn | ⟨child, hc, hn⟩
  · cases spread with
    | false => cases hn
    | true => exact hs name hn
  · obtain ⟨field, hf, rfl⟩ :=
      mem_map.mp ((mem_append.mp hc).resolve_right not_mem_nil)
    exact h field hf spread name hn

theorem usesOnly_union (h : ∀ member ∈ members, member.UsesOnly usable) :
    (union members).UsesOnly usable := by
  intro spread name hr
  rcases refers_iff.mp hr with hn | ⟨member, hm, hn⟩
  · cases spread <;> cases hn
  · exact h member hm spread name hn

end

/-- A schema mentions what its parts mention. -/
theorem Part.mentions_subset (h : Part part schema) : part.mentions ⊆ schema.mentions := by
  intro name hn
  obtain ⟨spread, inner, hi, hn⟩ := mem_mentions_iff.mp hn
  exact mem_mentions_iff.mpr ⟨spread, inner, hi.trans h, hn⟩

/-- A reference inside of a schema is mentioned. -/
theorem Part.ref_mem_mentions (h : Part (.ref name) schema) : name ∈ schema.mentions :=
  h.mentions_subset (by simp [mentions])

theorem Part.spread_mem_mentions (h : Part (.object fields undeclared spreads) schema)
    (hn : name ∈ spreads) : name ∈ schema.mentions := by
  apply h.mentions_subset
  exact mem_append_right _ hn

theorem spreads_subset_mentions (schema : Schema) : schema.spreads ⊆ schema.mentions := by
  intro name hn
  cases schema with
  | object fields undeclared spreads => exact Part.whole.spread_mem_mentions hn
  | _ => cases hn

/-- A schema depends on the names that it mentions. -/
theorem mem_dependencies (schema : Schema) (name : String) :
    name ∈ schema.dependencies ↔ name ∈ schema.mentions := by
  rw [dependencies, mem_unionNames]
  simp

end Schema

theorem Entry.mem_dependencies_of (schema : Schema) (category : Category)
    (extra : List String) (other : String) :
    other ∈ (Entry.of name schema category extra).dependencies ↔
      (other ∈ schema.mentions ∨ other ∈ extra) ∧ other ≠ name := by
  rw [Entry.of, mem_filter, mem_unionNames, Schema.mem_dependencies]
  simp

/-- An entry that is made with the dependencies of its schema. -/
def Entry.IsMade (entry : Entry) : Prop :=
  ∃ extra, entry = Entry.of entry.name entry.schema entry.category extra

theorem Entry.IsMade.mem_dependencies {entry : Entry} (h : entry.IsMade)
    (hn : name ∈ entry.schema.mentions) (hs : name ≠ entry.name) :
    name ∈ entry.dependencies := by
  obtain ⟨extra, he⟩ := h
  rw [he, Entry.mem_dependencies_of]
  exact ⟨Or.inl hn, hs⟩

end ApiSchema
