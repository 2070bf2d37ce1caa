/-
# Values that a schema accepts

The meaning of schemas: which values a schema accepts in a catalog. References are looked up there.
An object has its own fields and those of the entries that it spreads; its own fields count before
those, and of two entries that it spreads the later one counts. Keys that no field declares are let
pass, unless there is a schema for them.
-/
import ApiSchema.Proofs.Mentions

namespace ApiSchema

open List

variable {schema : Schema} {field : Field Schema} {value : Value} {members : List Schema}
  {fields : List (Field Schema)} {undeclared : Undeclared Schema} {catalog : Catalog}

/-- What the names of formats and the code of a library are taken to mean. -/
structure Interpretation where
  format : Format → String → Prop
  code : String → Value → Prop

/-! ## Fields of objects -/

theorem text_beq_iff {first second : String} :
    (Atom.text first == Atom.text second) ↔ first = second :=
  beq_iff_eq (α := String)

/-- The object has a field with the key, itself or from an entry that it spreads. -/
inductive HasKey (catalog : Catalog) : Schema → Atom → Prop
  | own {fields : List (Field Schema)} {undeclared : Undeclared Schema} {spreads : List String}
      {field : Field Schema} {key : Atom} (hfield : field ∈ fields)
      (hkey : (field.key == key) = true) :
      HasKey catalog (.object fields undeclared spreads) key
  | spread {fields : List (Field Schema)} {undeclared : Undeclared Schema} {spreads : List String}
      {name : String} {entry : Entry} {key : Atom} (hname : name ∈ spreads)
      (hentry : catalog.find? name = some entry) (h : HasKey catalog entry.schema key) :
      HasKey catalog (.object fields undeclared spreads) key

/-- The field counts in the object: it is one of its own, or comes from an entry that it spreads and
neither a field of its own nor a later entry has the same key. -/
inductive HasField (catalog : Catalog) : Schema → Field Schema → Prop
  | own {fields : List (Field Schema)} {undeclared : Undeclared Schema} {spreads : List String}
      {field : Field Schema} (hfield : field ∈ fields) :
      HasField catalog (.object fields undeclared spreads) field
  | spread {fields : List (Field Schema)} {undeclared : Undeclared Schema}
      {before after : List String} {name : String} {entry : Entry} {field : Field Schema}
      (hentry : catalog.find? name = some entry) (h : HasField catalog entry.schema field)
      (hown : ∀ other ∈ fields, (other.key == field.key) = false)
      (hlater : ∀ later ∈ after, ∀ entry', catalog.find? later = some entry' →
        ¬ HasKey catalog entry'.schema field.key) :
      HasField catalog (.object fields undeclared (before ++ name :: after)) field

/-- The schema stands somewhere in the catalog. -/
def Catalog.HasPart (catalog : Catalog) (schema : Schema) : Prop :=
  ∃ entry ∈ catalog.entries, Schema.Part schema entry.schema

theorem Catalog.HasPart.of_part {part : Schema}
    (h : catalog.HasPart schema) (hp : Schema.Part part schema) : catalog.HasPart part := by
  obtain ⟨entry, he, hs⟩ := h
  exact ⟨entry, he, hp.trans hs⟩

theorem HasField.hasPart (h : HasField catalog schema field) (hp : catalog.HasPart schema) :
    catalog.HasPart field.schema := by
  induction h with
  | own hf => exact hp.of_part (.field hf .whole)
  | spread he _ _ _ ih => exact ih ⟨_, mem_of_find?_eq_some he, .whole⟩

/-! ## Acceptance -/

/-- The schema accepts the value. -/
inductive Accepts (catalog : Catalog) (meaning : Interpretation) : Schema → Value → Prop
  | text {text : String} : Accepts catalog meaning (.string none) (.atom (.text text))
  | format {format : Format} {text : String} (h : meaning.format format text) :
      Accepts catalog meaning (.string (some format)) (.atom (.text text))
  | int {integer : Bool} {number : Int} :
      Accepts catalog meaning (.number integer) (.atom (.int number))
  | float {integer : Bool} {number : Double}
      (h : integer = true → ∃ whole, number.sameInt whole = true) :
      Accepts catalog meaning (.number integer) (.atom (.float number))
  | boolean {value : Bool} : Accepts catalog meaning (.keyword .boolean) (.atom (.bool value))
  | null : Accepts catalog meaning (.keyword .null) (.atom .null)
  | unknown {value : Value} : Accepts catalog meaning (.keyword .unknown) value
  | date {date : Date} : Accepts catalog meaning (.keyword .date) (.atom (.date date))
  | timestamp {time : Timestamp} :
      Accepts catalog meaning (.keyword .date) (.atom (.timestamp time))
  | object {fields : List (Field Schema)} {undeclared : Undeclared Schema} {spreads : List String}
      {pairs : List (Atom × Value)}
      (hrequired : ∀ field, HasField catalog (.object fields undeclared spreads) field →
        field.required = true → ∃ value, Assoc.get? pairs field.key = some value)
      (hvalues : ∀ field value, HasField catalog (.object fields undeclared spreads) field →
        Assoc.get? pairs field.key = some value → Accepts catalog meaning field.schema value)
      (hundeclared : ∀ schema, undeclared = .checked schema → ∀ pair ∈ pairs,
        ¬ HasKey catalog (.object fields undeclared spreads) pair.1 →
          Accepts catalog meaning schema pair.2) :
      Accepts catalog meaning (.object fields undeclared spreads) (.map pairs)
  | array {items : Schema} {values : List Value}
      (h : ∀ value ∈ values, Accepts catalog meaning items value) :
      Accepts catalog meaning (.array items) (.list values)
  | tuple {items : List Schema} {values : List Value} (hlength : values.length = items.length)
      (h : ∀ (position : Nat) schema value, items[position]? = some schema →
        values[position]? = some value → Accepts catalog meaning schema value) :
      Accepts catalog meaning (.tuple items) (.list values)
  | record {key value : Schema} {pairs : List (Atom × Value)}
      (hkeys : ∀ pair ∈ pairs, Accepts catalog meaning key (.atom pair.1))
      (hvalues : ∀ pair ∈ pairs, Accepts catalog meaning value pair.2) :
      Accepts catalog meaning (.record key value) (.map pairs)
  | enumeration {values : List Value} {value : Value} (h : value ∈ values) :
      Accepts catalog meaning (.enumeration values) value
  | literal {value : Value} : Accepts catalog meaning (.literal value) value
  | union {members : List Schema} {member : Schema} {value : Value} (hmember : member ∈ members)
      (h : Accepts catalog meaning member value) : Accepts catalog meaning (.union members) value
  | intersection {members : List Schema} {value : Value}
      (h : ∀ member ∈ members, Accepts catalog meaning member value) :
      Accepts catalog meaning (.intersection members) value
  | ref {name : String} {entry : Entry} {value : Value} (hentry : catalog.find? name = some entry)
      (h : Accepts catalog meaning entry.schema value) : Accepts catalog meaning (.ref name) value
  | raw {code : String} {value : Value} (h : meaning.code code value) :
      Accepts catalog meaning (.raw code) value

namespace Accepts

variable {catalog : Catalog} {meaning : Interpretation}

theorem literal_iff {expected : Value} :
    Accepts catalog meaning (.literal expected) value ↔ value = expected := by
  constructor
  · rintro ⟨⟩
    rfl
  · rintro rfl
    exact .literal

/-- Besides its own values, a schema that may be null accepts null. -/
theorem nullable_iff : Accepts catalog meaning schema.nullable value ↔ value = .atom .null ∨
    Accepts catalog meaning schema value := by
  constructor
  · intro h
    cases h with
    | union hm h =>
      simp only [mem_cons, not_mem_nil, or_false] at hm
      rcases hm with rfl | rfl
      · exact Or.inr h
      · cases h
        exact Or.inl rfl
  · rintro (rfl | h)
    · exact .union (mem_cons_of_mem _ (mem_singleton_self _)) .null
    · exact .union (mem_cons_self ..) h

/-- An array accepts the lists whose items are accepted. -/
theorem array_iff {items : Schema} : Accepts catalog meaning (.array items) value ↔ ∃ values,
    value = .list values ∧ ∀ item ∈ values, Accepts catalog meaning items item := by
  constructor
  · intro h
    cases h with
    | array h => exact ⟨_, rfl, h⟩
  · rintro ⟨values, rfl, h⟩
    exact .array h

theorem union_iff : Accepts catalog meaning (.union members) value ↔ ∃ member ∈ members,
    Accepts catalog meaning member value := by
  constructor
  · intro h
    cases h with
    | union hm h => exact ⟨_, hm, h⟩
  · rintro ⟨member, hm, h⟩
    exact .union hm h

theorem intersection_iff : Accepts catalog meaning (.intersection members) value ↔
    ∀ member ∈ members, Accepts catalog meaning member value := by
  constructor
  · intro h
    cases h with
    | intersection h => exact h
  · exact .intersection

/-- A reference accepts what the schema of its entry accepts. -/
theorem ref_iff {name : String} {entry : Entry} (he : catalog.find? name = some entry) :
    Accepts catalog meaning (.ref name) value ↔ Accepts catalog meaning entry.schema value := by
  constructor
  · intro h
    cases h with
    | ref he' h =>
      rw [Option.some.inj (he.symm.trans he')]
      exact h
  · exact .ref he

/-- An object whose other keys are let pass accepts the maps with what its fields ask for. -/
theorem object_iff {spreads : List String} :
    Accepts catalog meaning (.object fields .dropped spreads) value ↔ ∃ pairs, value = .map pairs ∧
        ∀ field, HasField catalog (.object fields .dropped spreads) field →
          (field.required → ∃ value, Assoc.get? pairs field.key = some value) ∧
          ∀ value, Assoc.get? pairs field.key = some value →
            Accepts catalog meaning field.schema value := by
  constructor
  · intro h
    cases h with
    | object hr hv _ =>
      exact ⟨_, rfl, fun field hf => ⟨hr field hf, fun value =>
        hv field value hf⟩⟩
  · rintro ⟨pairs, rfl, h⟩
    refine .object (fun field hf => (h field hf).1) (fun field value hf =>
      (h field hf).2 value) fun schema hs => ?_
    cases hs

end Accepts

/-! ## Schemas without names -/

/-- Without spreads only the own fields count. -/
theorem hasField_iff_of_spreads_nil :
    HasField catalog (.object fields undeclared []) field ↔ field ∈ fields := by
  constructor
  · intro h
    generalize hs : Schema.object fields undeclared [] = schema at h
    cases h with
    | own hf =>
      cases hs
      exact hf
    | spread => simp at hs
  · exact .own

/-- Without spreads only the own keys are declared. -/
theorem hasKey_iff_of_spreads_nil {key : Atom} :
    HasKey catalog (.object fields undeclared []) key ↔ ∃ field ∈ fields, (field.key == key) := by
  constructor
  · intro h
    cases h with
    | own hf hk => exact ⟨_, hf, hk⟩
    | spread hn => cases hn
  · rintro ⟨field, hf, hk⟩
    exact .own hf hk

/-- What a schema without names accepts does not depend on the catalog. -/
theorem Accepts.of_mentions_eq_nil {meaning : Interpretation}
    (h : Accepts catalog meaning schema value) (hs : schema.mentions = [])
    (other : Catalog) : Accepts other meaning schema value := by
  -- The parts of a schema without names have none either.
  have hp {part whole : Schema} (hw : whole.mentions = [])
      (hp : Schema.Part part whole) : part.mentions = [] :=
    eq_nil_of_subset_nil (hw ▸ hp.mentions_subset)
  induction h with
  | text => exact .text
  | format h => exact .format h
  | int => exact .int
  | float h => exact .float h
  | boolean => exact .boolean
  | null => exact .null
  | unknown => exact .unknown
  | date => exact .date
  | timestamp => exact .timestamp
  | @object fields undeclared spreads pairs hr hvl hu ihvalues ihundeclared =>
    have hsp : spreads = [] := by
      exact (append_eq_nil_iff.mp hs).2
    subst hsp
    simp only [hasField_iff_of_spreads_nil, hasKey_iff_of_spreads_nil] at *
    refine .object ?_ ?_ ?_
    · simpa only [hasField_iff_of_spreads_nil] using hr
    · simp only [hasField_iff_of_spreads_nil]
      exact fun field value hf hv =>
        ihvalues field value hf hv (hp hs (.field hf .whole))
    · simp only [hasKey_iff_of_spreads_nil]
      rintro schema rfl pair hpr hk
      exact ihundeclared schema rfl pair hpr hk (hp hs (.undeclared .whole))
  | array _ ih => exact .array fun value hv => ih value hv (hp hs (.items .whole))
  | tuple hl _ ih =>
    exact .tuple hl fun position schema value hi hv =>
      ih position schema value hi hv
        (hp hs (.position (mem_of_getElem? hi) .whole))
  | record _ _ ihkeys ihvalues =>
    exact .record (fun pair hpr => ihkeys pair hpr (hp hs (.key .whole)))
      fun pair hpr => ihvalues pair hpr (hp hs (.value .whole))
  | enumeration h => exact .enumeration h
  | literal => exact .literal
  | union hm _ ih => exact .union hm (ih (hp hs (.alternative hm .whole)))
  | intersection _ ih =>
    exact .intersection fun member hm =>
      ih member hm (hp hs (.condition hm .whole))
  | ref => simp [Schema.mentions] at hs
  | raw h => exact .raw h

end ApiSchema
