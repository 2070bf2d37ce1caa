/-
# What the schemas of a catalog are made for

A schema is made for something: for a named type in an input field, in a variable or in a selected
field, for selections on a type, for the fields of an input object or for the variables of an
operation. `Sourced` goes along a schema and what it is made for, and finds a source for each part.

Where nothing is known of a position, the schema is unknown: mostly with a warning, but without one
where a type with fields has no selections, and where a type for results takes the place of an
input.
-/
import ApiSchema.Proofs.GraphQL.Collecting
import ApiSchema.Proofs.GraphQL.Names
import ApiSchema.Proofs.GraphQL.Nodes

namespace ApiSchema.GraphQL

open List

variable {setting : Setting} {exempt : Position → Prop} {root parent : NamedType}
  {whole : List Selection} {usable : Bool → String → Prop} {schema : Schema} {position : Position}
  {directives : List Directive} {name : String} {fragment : SourcedFragment}

/-! ## Closed type systems -/

/-- The types that the fields of a type refer to. -/
def TypeKind.typeNames : TypeKind → List String
  | .object fields => fields.map (·.2.baseName)
  | .interface fields => fields.map (·.2.baseName)
  | .input fields => fields.map (·.type.baseName)
  | _ => []

/-- Every type that a field refers to is known. -/
def TypeSystem.Closed (system : TypeSystem) : Prop :=
  ∀ type ∈ system.types, ∀ name ∈ type.kind.typeNames, name ∈ system.types.map (·.name)

/-- The type of a field is one that the fields refer to. -/
theorem NamedType.mem_typeNames_of_fieldType? {type : NamedType} {field : String}
    {reference : TypeRef} (h : type.fieldType? field = some reference) :
    reference.baseName ∈ type.kind.typeNames := by
  have hl : ∀ {fields : List (String × TypeRef)}, fields.lookup field = some reference →
      reference.baseName ∈ fields.map (·.2.baseName) := by
    intro fields hf
    obtain ⟨before, after, rfl, -⟩ := lookup_eq_some_iff.mp hf
    simp
  unfold fieldType? at h
  cases hk : type.kind <;> rw [hk] at h
  case object | interface => exact hl h
  case input =>
    obtain ⟨found, hf, rfl⟩ := Option.map_eq_some_iff.mp h
    exact mem_map.mpr ⟨found, mem_of_find?_eq_some hf, rfl⟩
  all_goals cases h

/-- The type of a field of a known type is found. -/
theorem TypeSystem.Closed.exists_type? {system : TypeSystem} {type : NamedType} (h : system.Closed)
    (ht : system.type? type.name = some type) (hn : name ∈ type.kind.typeNames) :
    ∃ other, system.type? name = some other := by
  obtain ⟨other, ho, rfl⟩ := mem_map.mp (h type (mem_of_find?_eq_some ht) name hn)
  exact Option.isSome_iff_exists.mp (find?_isSome.mpr ⟨other, ho, beq_self_eq_true _⟩)

/-! ## Positions -/

/-- What a schema is made for. -/
inductive Position
  | inputType (name : String)
  | variableType (name : String)
  | outputType (name : String) (selections : Option (List Selection))
  | selected (type : NamedType) (selections : List Selection)
  | inputFields (fields : List InputField)
  | variableDefs (variableDefs : List Variable)
  | enumValues (values : List String)

namespace Position

/-- The named type at the position. -/
def typeName? : Position → Option String
  | inputType name => some name
  | variableType name => some name
  | outputType name _ => some name
  | _ => none

/-- Whether the position is on the side of inputs. -/
def isInput : Position → Bool
  | inputType _ | variableType _ | inputFields _ | variableDefs _ => true
  | _ => false

/-- Whether an object can be at the position that spreads entries. Only selections spread any. -/
def admits : Position → List String → Bool
  | selected .., _ => true
  | inputFields _, spreads => spreads.isEmpty
  | variableDefs _, spreads => spreads.isEmpty
  | _, _ => false

end Position

/-- Selections on a type select a field on a type: here, under an inline fragment, or in a fragment
that is spread. -/
inductive Selects (setting : Setting) : NamedType → List Selection → NamedType → FieldNode → Prop
  | field {parent : NamedType} {selections : List Selection} {selection : Selection}
      {node : FieldNode} (hmem : selection ∈ selections) (hnode : selection.node? = some node) :
      Selects setting parent selections parent node
  | inline {parent : NamedType} {selections : List Selection} {condition : Option String}
      {directives : List Directive} {inner : List Selection} {on : NamedType} {node : FieldNode}
      (hmem : .inline condition directives inner ∈ selections)
      (h : Selects setting (conditioned parent (setting.conditionType parent condition)) inner on
        node) : Selects setting parent selections on node
  | spread {parent : NamedType} {selections : List Selection} {name : String}
      {directives : List Directive} {fragment : SourcedFragment} {type on : NamedType}
      {node : FieldNode} (hmem : .spread name directives ∈ selections)
      (hfragment : setting.documents.fragment? name = some fragment)
      (htype : setting.system.type? fragment.condition = some type)
      (h : Selects setting (conditioned parent type) fragment.selections on node) :
      Selects setting parent selections on node

namespace Setting

/-- A position has a field of a type, with a position of its own for the named type in it. -/
inductive Offers (setting : Setting) : Position → String → TypeRef → Position → Prop
  | inputField {fields : List InputField} {field : InputField} (h : field ∈ fields) :
      Offers setting (.inputFields fields) field.name field.type (.inputType field.type.baseName)
  | variableDef {variableDefs : List Variable} {v : Variable} (h : v ∈ variableDefs) :
      Offers setting (.variableDefs variableDefs) v.name v.type (.variableType v.type.baseName)
  | selected {type on : NamedType} {selections : List Selection} {node : FieldNode}
      {reference : TypeRef} (hselects : Selects setting type selections on node)
      (hname : node.name ≠ typeNameKey) (htype : on.fieldType? node.name = some reference) :
      Offers setting (.selected type selections) node.key reference
        (.outputType reference.baseName node.selections)

/-- There is a scalar at a position. In a variable the registry is asked for any name. -/
def ScalarAt (setting : Setting) (position : Position) (name : String) : Prop :=
  position.typeName? = some name ∧ (position = .variableType name ∨
      ∃ type, setting.system.type? name = some type ∧ type.kind = .scalar)

/-- Nothing is known at a position: nothing is selected on a type that is no scalar and no
enumeration, or the place of an input is taken by an object, an interface or a union. -/
inductive SilentAt (setting : Setting) : Position → Prop
  | outputType {name : String} {type : NamedType} (htype : setting.system.type? name = some type)
      (hleaf : type.isLeaf = false) : SilentAt setting (.outputType name none)
  | inputType {name : String} {type : NamedType} (htype : setting.system.type? name = some type)
      (hcomposite : type.isComposite = true) : SilentAt setting (.inputType name)
  | variableType {name : String} {type : NamedType} (hget : setting.registry.get? name = none)
      (htype : setting.system.type? name = some type) (hcomposite : type.isComposite = true) :
      SilentAt setting (.variableType name)

/-- The second position is the first one, or stands somewhere inside of it. -/
inductive Within (setting : Setting) (inner : Position) : Position → Prop
  | here : Within setting inner inner
  | composite {name : String} {type : NamedType} {selections : List Selection}
      (htype : setting.system.type? name = some type)
      (h : Within setting inner (.selected type selections)) :
      Within setting inner (.outputType name (some selections))
  | field {position middle : Position} {key : String} {reference : TypeRef}
      (hoffers : setting.Offers position key reference middle) (h : Within setting inner middle) :
      Within setting inner position

end Setting

/-! ## Sources -/

mutual

/-- Every part of a schema has its source at a position. The unknown schema is what the registry has
for a scalar at the position, or the position is one of those that are `exempt`. -/
inductive Sourced (setting : Setting) (exempt : Position → Prop) : Position → Schema → Prop
  | scalar {position : Position} {name : String} {schema : Schema}
      (hscalar : setting.ScalarAt position name)
      (hget : setting.registry.get? name = some schema) : Sourced setting exempt position schema
  | ref {position : Position} {name : String} {type : NamedType}
      (hname : position.typeName? = some name) (htype : setting.system.type? name = some type)
      (hkind : type.isEnum = true ∨ type.isInput = true) :
      Sourced setting exempt position (.ref type.name)
  | unknown {position : Position} (h : exempt position) : Sourced setting exempt position .unknown
  | composite {name : String} {type : NamedType} {selections : List Selection} {schema : Schema}
      (htype : setting.system.type? name = some type) (hleaf : type.isLeaf = false)
      (h : Sourced setting exempt (.selected type selections) schema) :
      Sourced setting exempt (.outputType name (some selections)) schema
  | enumeration {values : List String} : Sourced setting exempt (.enumValues values)
        (.enumeration (values.map fun value => .atom (.text value)))
  | object {position : Position} {fields : List (Field Schema)} {spreads : List String}
      (hposition : position.admits spreads = true)
      (h : ∀ field ∈ fields, SourcedField setting exempt position field) :
      Sourced setting exempt position (.object fields .dropped spreads)
  | union {type : NamedType} {selections : List Selection} {members : List Schema}
      (h : ∀ member ∈ members, Sourced setting exempt (.selected type selections) member) :
      Sourced setting exempt (.selected type selections) (.union members)

/-- Every part of a field has its source at a position: the field tells the name of a type, or the
position has a field of this name, and the named type in it is the source of the schema. A field of
an unknown name can only be at an exempt position. -/
inductive SourcedField (setting : Setting) (exempt : Position → Prop) :
    Position → Field Schema → Prop
  | typeName {type : NamedType} {selections : List Selection} {field : Field Schema}
      (h : field.schema = .text ∨ ∃ text, field.schema = textLiteral text) :
      SourcedField setting exempt (.selected type selections) field
  | unknown {position : Position} {field : Field Schema} (hexempt : exempt position)
      (h : field.schema = .unknown) : SourcedField setting exempt position field
  | offered {position inner : Position} {key : String} {reference : TypeRef} {schema : Schema}
      {required : Bool} (hoffers : setting.Offers position key reference inner)
      (h : Sourced setting exempt inner schema) :
      SourcedField setting exempt position ⟨.text key, reference.wrap schema, required⟩

end

/-! ## The sources of unknown schemas and of code -/

/-- The schema is the unknown one, or code. -/
def isBare : Schema → Bool
  | .keyword .unknown => true
  | .raw _ => true
  | _ => false

/-- A position has a bare schema: a scalar has it in its schema, or it is unknown and the position
is exempt. -/
def BareAt (setting : Setting) (exempt : Position → Prop) (bare : Schema) (position : Position) :
    Prop :=
  bare = .unknown ∧ exempt position ∨ ∃ name schema, setting.ScalarAt position name ∧
    setting.registry.get? name = some schema ∧ Schema.Part bare schema

/-- The schema is one that a type reference puts around another one. -/
def isFrame : Schema → Bool
  | .array _ | .union _ | .keyword .null => true
  | _ => false

theorem TypeRef.part_of_wrap {part : Schema} (hf : isFrame part = false) {type : TypeRef}
    (h : Schema.Part part (type.wrap schema)) : Schema.Part part schema := by
  have hn : ∀ {schema : Schema}, Schema.Part part schema.nullable →
      Schema.Part part schema := by
    intro schema hp
    rcases Schema.part_union_iff.mp hp with rfl | ⟨member, hm, hi⟩
    · cases hf
    · rcases mem_cons.mp hm with rfl | hnl
      · exact hi
      · rw [mem_singleton.mp hnl, Schema.part_iff_eq rfl] at hi
        subst hi
        cases hf
  have ha : ∀ {schema : Schema}, Schema.Part part (.array schema) →
      Schema.Part part schema := by
    intro schema hp
    rcases Schema.part_array_iff.mp hp with rfl | hp
    · cases hf
    · exact hp
  fun_induction TypeRef.wrap type schema with
  | case1 schema name => exact hn h
  | case2 schema item ih => exact ih (ha (hn h))
  | case3 schema name => exact h
  | case4 schema item ih => exact ih (ha h)
  | case5 schema inner ih => exact ih h

theorem TypeRef.usesOnly_wrap (type : TypeRef) (h : schema.UsesOnly usable) :
    (type.wrap schema).UsesOnly usable := by
  rintro spread name ⟨part, hp, hn⟩
  refine h spread name ⟨part, part_of_wrap ?_ hp, hn⟩
  cases part <;> cases spread <;> first | rfl | cases hn

section

variable {bare : Schema} (hbare : isBare bare)

include hbare

/-- A bare schema at any depth has its source within the position. -/
theorem Sourced.exists_within
    (h : Sourced setting exempt position schema) (hp : Schema.Part bare schema) :
    ∃ inner, setting.Within inner position ∧ BareAt setting exempt bare inner := by
  revert hp
  refine @Sourced.rec setting exempt
    (fun position schema _ => Schema.Part bare schema →
      ∃ inner, setting.Within inner position ∧ BareAt setting exempt bare inner)
    (fun position field _ => Schema.Part bare field.schema →
      ∃ inner, setting.Within inner position ∧ BareAt setting exempt bare inner)
    ?scalar ?ref ?unknown ?composite ?enumeration ?object ?union ?typeName ?unknownField ?offered
    position schema h
  case scalar =>
    intro position name schema hsc hg hp
    exact ⟨position, .here, Or.inr ⟨name, schema, hsc, hg, hp⟩⟩
  case unknown =>
    intro position he hp
    exact ⟨position, .here, Or.inl ⟨(Schema.part_iff_eq rfl).mp hp, he⟩⟩
  case composite =>
    intro name type selections schema hty _ _ ih hp
    obtain ⟨inner, hw, hs⟩ := ih hp
    exact ⟨inner, .composite hty hw, hs⟩
  case object =>
    intro position fields spreads _ _ ih hp
    rcases Schema.part_object_iff.mp hp with rfl | ⟨field, hf, hp⟩ | ⟨schema, heq, -⟩
    · cases hbare
    · exact ih field hf hp
    · cases heq
  case union =>
    intro type selections members _ ih hp
    rcases Schema.part_union_iff.mp hp with rfl | ⟨member, hm, hp⟩
    · cases hbare
    · exact ih member hm hp
  case unknownField =>
    intro position field he hu hp
    rw [hu, Schema.part_iff_eq rfl] at hp
    exact ⟨position, .here, Or.inl ⟨hp, he⟩⟩
  case offered =>
    intro position inner key reference schema required ho _ ih hp
    have hfr : isFrame bare = false := by
      unfold isBare at hbare
      split at hbare <;> first | rfl | cases hbare
    obtain ⟨inner, hw, hs⟩ := ih (TypeRef.part_of_wrap hfr hp)
    exact ⟨inner, .field ho hw, hs⟩
  -- Names and values of types have no parts, and are not bare themselves.
  case typeName =>
    intro type selections field ht hp
    rcases ht with ht | ⟨text, ht⟩ <;>
      · rw [ht, Schema.part_iff_eq rfl] at hp
        subst hp
        cases hbare
  case ref | enumeration =>
    intros
    rename_i hp
    rw [Schema.part_iff_eq rfl] at hp
    subst hp
    cases hbare

end

/-! ## What is covered by a selection set -/

/-- A known type with selections on it that select nothing but what a selection set selects. -/
structure Covers (setting : Setting) (root : NamedType) (whole : List Selection) (type : NamedType)
    (selections : List Selection) : Prop where
  known : setting.system.type? type.name = some type
  selects : ∀ {on node}, Selects setting type selections on node →
    Selects setting root whole on node

/-- A type that is picked out of an interface or a union is the one that its selections are read
on. -/
theorem conditioned_of_narrows {type : NamedType} (h : narrows parent type) :
    conditioned parent type = type := by
  have ho : parent.isObject = false := by
    cases ho : parent.isObject with
    | false => rfl
    | true =>
      rw [narrows_eq_false_of_isObject ho] at h
      cases h
  rw [conditioned, if_neg (by simp [ho])]

namespace Covers

variable {parent type : NamedType} {selections inner : List Selection}

theorem inline (h : Covers setting root whole parent selections) {condition : Option String}
    (hm : .inline condition directives inner ∈ selections) :
    Covers setting root whole (conditioned parent (setting.conditionType parent condition)) inner
    where
  known := by
    unfold conditioned
    split
    · exact h.known
    · rcases setting.conditionType_eq_or parent condition with he | hk
      · rw [he]
        exact h.known
      · exact hk
  selects := fun hs => h.selects (.inline hm hs)

theorem spread (h : Covers setting root whole parent selections)
    (hm : .spread name directives ∈ selections)
    (hf : setting.documents.fragment? name = some fragment)
    (ht : setting.system.type? fragment.condition = some type) :
    Covers setting root whole (conditioned parent type) fragment.selections where
  known := by
    unfold conditioned
    split
    · exact h.known
    · exact TypeSystem.type?_name ht
  selects := fun hs => h.selects (.spread hm hf ht hs)

theorem append (h : Covers setting root whole type selections)
    (hinn : Covers setting root whole type inner) :
    Covers setting root whole type (selections ++ inner) where
  known := h.known
  selects := by
    intro on node hs
    suffices ho :
        Selects setting type selections on node ∨ Selects setting type inner on node from
      ho.elim h.selects hinn.selects
    cases hs with
    | field hm hn => exact (mem_append.mp hm).imp (.field · hn) (.field · hn)
    | inline hm hi => exact (mem_append.mp hm).imp (.inline · hi) (.inline · hi)
    | spread hm hf ht hi =>
      exact (mem_append.mp hm).imp (.spread · hf ht hi)
        (.spread · hf ht hi)

/-- A spread for an object type, by itself: the fragment is read on its own type in any case. -/
theorem spread_alone (h : Covers setting root whole parent selections)
    (hm : .spread name directives ∈ selections)
    (hf : setting.documents.fragment? name = some fragment)
    (ht : setting.system.type? fragment.condition = some type)
    (hn : narrows parent type) :
    Covers setting root whole type [.spread name directives] where
  known := TypeSystem.type?_name ht
  selects := by
    intro on node hs
    have hsl : conditioned type type = type := by
      unfold conditioned
      split <;> rfl
    have hc := h.spread hm hf ht
    rw [conditioned_of_narrows hn] at hc
    cases hs with
    | field hm hnd =>
      cases mem_singleton.mp hm
      cases hnd
    | inline hm hs => cases mem_singleton.mp hm
    | spread hm hf' ht' hs =>
      cases mem_singleton.mp hm
      cases hf.symm.trans hf'
      cases ht.symm.trans ht'
      rw [hsl] at hs
      exact hc.selects hs

end Covers

/-- A schema has its sources at a position, and mentions usable names only. -/
structure Derived (setting : Setting) (exempt : Position → Prop) (usable : Bool → String → Prop)
    (position : Position) (schema : Schema) : Prop where
  sourced : Sourced setting exempt position schema
  named : schema.UsesOnly usable

theorem Derived.unknown (h : exempt position) : Derived setting exempt usable position .unknown :=
  ⟨.unknown h, Schema.usesOnly_of_mentions Schema.mentions_unknown⟩

theorem Derived.object {fields : List (Field Schema)} {spreads : List String}
    (hp : position.admits spreads)
    (h : ∀ field ∈ fields, SourcedField setting exempt position field ∧
      field.schema.UsesOnly usable) (hs : ∀ name ∈ spreads, usable true name) :
    Derived setting exempt usable position (.object fields .dropped spreads) :=
  ⟨.object hp fun field hf => (h field hf).1,
    Schema.usesOnly_object (fun field hf => (h field hf).2) hs⟩

/-- What is collected on the way through a selection set: each key is that of a field with its
sources, what is selected for an object type is covered, and usable names are mentioned only. -/
structure Tally.Fits (setting : Setting) (exempt : Position → Prop)
    (usable : Bool → String → Prop) (root : NamedType) (whole : List Selection)
    (tally : Tally) : Prop where
  keys : ∀ pair ∈ tally.keys, SourcedField setting exempt (.selected root whole)
    ⟨.text pair.1, pair.2.schema, pair.2.required⟩ ∧ pair.2.schema.UsesOnly usable
  pieces : ∀ piece ∈ tally.pieces, ∃ type, setting.system.type? piece.1 = some type ∧
    Covers setting root whole type piece.2
  spreads : ∀ name ∈ tally.spreads, usable true name

namespace Tally.Fits

theorem empty : Tally.empty.Fits setting exempt usable root whole :=
  ⟨forall_mem_nil _, forall_mem_nil _, forall_mem_nil _⟩

theorem key {key : String} {required : Bool}
    (hf : SourcedField setting exempt (.selected root whole) ⟨.text key, schema, required⟩)
    (hs : schema.UsesOnly usable) :
    (Tally.key key schema required).Fits setting exempt usable root whole :=
  ⟨forall_mem_singleton.mpr ⟨hf, hs⟩, forall_mem_nil _, forall_mem_nil _⟩

theorem join {tallies : List Tally}
    (h : ∀ tally ∈ tallies, tally.Fits setting exempt usable root whole) :
    (Tally.join tallies).Fits setting exempt usable root whole where
  keys := forall_mem_flatMap.mpr fun tally ht => (h tally ht).keys
  pieces := forall_mem_flatMap.mpr fun tally ht => (h tally ht).pieces
  spreads := forall_mem_flatMap.mpr fun tally ht => (h tally ht).spreads

variable {tally : Tally} (h : tally.Fits setting exempt usable root whole)

include h

/-- What is gathered for an object type is covered. -/
theorem narrowed : ∀ piece ∈ (Selected.empty.extendBy tally).narrowed,
    ∃ type, setting.system.type? piece.1 = some type ∧ Covers setting root whole type piece.2 := by
  refine of_mem_gather (fun name selections => ∃ type, setting.system.type? name = some type ∧
    Covers setting root whole type selections) ?_ (fun _ _ hp => hp) tally.pieces []
      (forall_mem_nil _) h.pieces
  rintro name first second ⟨type, ht, hf⟩ ⟨other, ho, hs⟩
  cases ht.symm.trans ho
  exact ⟨type, ht, hf.append hs⟩

/-- An object of keys and spreads that fit. -/
theorem object {selected : Selected} (hk : ∀ pair ∈ selected.keys, pair ∈ tally.keys)
    (hs : ∀ name ∈ selected.spreads, name ∈ tally.spreads) :
    Derived setting exempt usable (.selected root whole) selected.object := by
  refine .object rfl (fun field hf => ?_) fun name hn => h.spreads name (hs name hn)
  obtain ⟨pair, hp, rfl⟩ := mem_map.mp hf
  exact h.keys pair (hk pair hp)

end Tally.Fits

/-! ## Making schemas -/

/-- The note can be seen in the state. -/
def Progress.Shows (progress : Progress) : Note → Prop
  | .warning text => text ∈ progress.warnings
  | .queued type => progress.Holds type.name

theorem Progress.shows_noteAll (progress : Progress) {notes : List Note} :
    ∀ note ∈ notes, (progress.noteAll notes).Shows note := by
  rintro (text | type) hn
  · exact mem_warnings_noteAll.mpr (Or.inr hn)
  · exact holds_noteAll.mpr (Or.inr ⟨type, hn, rfl⟩)

/-- What can be seen already makes no difference. -/
theorem Progress.noteAll_of_shows {progress : Progress} {notes : List Note}
    (h : ∀ note ∈ notes, progress.Shows note) : progress.noteAll notes = progress := by
  refine @noteAll_induction (· = progress) notes ?_ progress rfl
  rintro _ (text | type) hn rfl
  · exact if_pos (contains_iff_mem.mpr (h _ hn))
  · refine if_pos ?_
    rw [Bool.or_eq_true, any_eq_true, has_iff]
    refine (h _ hn).imp id fun hq => ?_
    obtain ⟨other, ho, hnm⟩ := mem_map.mp hq
    exact ⟨other, ho, by simpa using hnm⟩

/-- The positions that have to be exempt: those of which nothing is known, and all of them if there
is a warning or types may be missing. And the names that have to be usable: those that the registry
mentions, those of enumerations that are held, and those of the entries of fragments. -/
structure Exempting (setting : Setting) (progress : Progress) (exempt : Position → Prop)
    (usable : Bool → String → Prop) : Prop where
  warned : ∀ {text}, text ∈ progress.warnings → ∀ position, exempt position
  silentAt : ∀ {position}, setting.SilentAt position → exempt position
  closed : setting.system.Closed ∨ ∀ position, exempt position
  registered : ∀ {name schema}, setting.registry.get? name = some schema → schema.UsesOnly usable
  queued : ∀ {type : NamedType}, progress.Holds type.name →
    setting.system.type? type.name = some type → type.isEnum = true → usable false type.name
  merged : ∀ {name entry}, Assoc.get? progress.fragmentEntries name = some entry → usable true entry

/-- The tally of the step fits if its notes can be seen, a field has its source, and other
selections are covered. -/
def Step.Fitting (setting : Setting) (progress : Progress) (exempt : Position → Prop)
    (usable : Bool → String → Prop) (root : NamedType) (whole : List Selection) : Step → Prop
  | .done tally notes =>
    (∀ note ∈ notes, progress.Shows note) → tally.Fits setting exempt usable root whole
  | .field key type base selections => setting.system.type? base.name = some base ∧
      ∀ schema, Derived setting exempt usable (.selected base selections) schema →
        (Tally.key key (type.wrap schema) type.isNonNull).Fits setting exempt usable root whole
  | .enter _ type selections => Covers setting root whole type selections

/-- Selections are read so that what is collected fits, if all notes can be seen. -/
def ReadsFitting (setting : Setting) (progress : Progress) (exempt : Position → Prop)
    (usable : Bool → String → Prop) (read : SelectionReader) : Prop :=
  ∀ root whole merging parent selections, Covers setting root whole parent selections →
    Noted.Tells progress.Shows (Tally.Fits setting exempt usable root whole)
      (read merging parent selections)

section

variable {progress : Progress} {read : SelectionReader} {merging : List String}
  {selections : List Selection}

/-- The object for one object type. -/
theorem ReadsFitting.readMember (hr : ReadsFitting setting progress exempt usable read)
    {tally : Tally}
    (hc : tally.Fits setting exempt usable root whole)
    (hp : ∃ type, setting.system.type? name = some type ∧
      Covers setting root whole type selections) :
    Noted.Tells progress.Shows (Derived setting exempt usable (.selected root whole))
      (GraphQL.readMember setting read merging (Selected.empty.extendBy tally) name
        selections) := by
  obtain ⟨type, hty, hcv⟩ := hp
  have ht : (Tally.key typeNameKey (textLiteral name) true).Fits setting exempt usable root
      whole := .key (.typeName (Or.inr ⟨name, rfl⟩))
    (Schema.usesOnly_of_mentions (by simp [textLiteral, Schema.mentions]))
  unfold GraphQL.readMember
  rw [hty]
  refine (hr _ _ _ _ _ hcv).bind fun own ho => Noted.tells_pure ?_
  -- The object has the common keys and its own ones, and its type name before and after them.
  have ha : (Tally.join [.key typeNameKey (textLiteral name) true, tally, own]).Fits setting exempt
      usable root whole := .join (by simp [ht, hc, ho])
  obtain ⟨selected, he, hk, hs⟩ := Selected.member_eq_object tally own name
  rw [he]
  exact ha.object hk hs

variable (hexempting : Exempting setting progress exempt usable)

include hexempting

/-- A missing type is no reason for an exemption, unless all positions are exempt. -/
theorem Exempting.of_type?_eq_none {type : NamedType}
    (ht : setting.system.type? type.name = some type)
    (hn : name ∈ type.kind.typeNames) (hnn : setting.system.type? name = none)
    (position : Position) : exempt position := by
  rcases hexempting.closed with hc | ha
  · obtain ⟨other, ho⟩ := hc.exists_type? ht hn
    rw [hnn] at ho
    cases ho
  · exact ha position

theorem Exempting.unknown {text : String}
    (h : ∀ note ∈ [Note.warning text], progress.Shows note) :
    Derived setting exempt usable position .unknown :=
  .unknown (hexempting.warned (h _ (mem_singleton_self _)) position)

/-- A field that is selected has its source. -/
theorem fitting_fieldStep (hkno : setting.system.type? parent.name = some parent)
    {node : FieldNode} (hsl : Selects setting root whole parent node) :
    (fieldStep setting parent node.key node.name node.selections).Fitting setting progress exempt
      usable root whole := by
  unfold fieldStep
  split
  · refine fun _ => .key (.typeName ?_) (Schema.usesOnly_of_mentions ?_)
    · split
      · exact Or.inr ⟨_, rfl⟩
      · exact Or.inl rfl
    · split <;> simp [textLiteral, Schema.text, Schema.mentions]
  · rename_i hn
    split
    · exact fun hsh => .key (.unknown (hexempting.warned (hsh _ (mem_singleton_self _)) _) rfl)
        (Schema.usesOnly_of_mentions Schema.mentions_unknown)
    · rename_i reference hr
      have hk : ∀ {schema},
          Derived setting exempt usable (.outputType reference.baseName node.selections) schema →
            (Tally.key node.key (reference.wrap schema) reference.isNonNull).Fits setting exempt
              usable root whole :=
        fun h => .key (.offered (.selected hsl hn hr) h.sourced)
          (reference.usesOnly_wrap h.named)
      split
      · rename_i hnn
        exact fun _ => hk (.unknown (hexempting.of_type?_eq_none hkno
          (NamedType.mem_typeNames_of_fieldType? hr) hnn _))
      · rename_i base ht
        split
        · rename_i hkn
          split
          · rename_i schema hg
            exact fun _ => hk ⟨.scalar ⟨rfl, Or.inr ⟨base, ht, hkn⟩⟩ hg,
              hexempting.registered hg⟩
          · exact fun hsh => hk (hexempting.unknown hsh)
        · rename_i hkn
          have he : base.isEnum := by simp [NamedType.isEnum, hkn]
          exact fun hsh => hk ⟨.ref rfl ht (Or.inl he), Schema.usesOnly_ref
            (hexempting.queued (hsh _ (mem_singleton_self _)) (TypeSystem.type?_name ht)
              he)⟩
        · have hl : base.isLeaf = false := by
            cases hkn : base.kind <;> simp_all [NamedType.isLeaf]
          split
          · rename_i hs
            exact fun _ => hk (hs ▸ .unknown
              (hexempting.silentAt (.outputType ht hl)))
          · rename_i hs
            exact ⟨TypeSystem.type?_name ht, fun schema hsc => hk
              (hs ▸ ⟨.composite ht hl hsc.sourced, hsc.named⟩)⟩

/-- What selections amount to fits, where they are covered. -/
theorem fitting_stepOf (hc : Covers setting root whole parent selections)
    {selection : Selection} (hm : selection ∈ selections) :
    (stepOf setting (Assoc.get? progress.fragmentEntries) merging parent selection).Fitting setting
      progress exempt usable root whole := by
  cases selection with
  | field responseName name arguments directives inner =>
    exact fitting_fieldStep hexempting hc.known
      (hc.selects (@Selects.field _ _ _ _ ⟨responseName.getD name, name, inner⟩ hm rfl))
  | spread name directives =>
    rw [stepOf]
    unfold spreadStep
    split
    · exact fun _ => .empty
    · rename_i fragment hf
      dsimp only
      split
      · rename_i ha
        obtain ⟨type, ht, hn⟩ := (Option.any_eq_true ..).mp ha
        exact fun _ => ⟨forall_mem_nil _, forall_mem_singleton.mpr ⟨type, ht,
          hc.spread_alone hm hf ht hn⟩, forall_mem_nil _⟩
      · split
        · rename_i hg
          exact fun _ => ⟨forall_mem_nil _, forall_mem_nil _,
            forall_mem_singleton.mpr (hexempting.merged hg)⟩
        · split
          · exact fun _ => .empty
          · split
            · exact fun _ => .empty
            · rename_i ht
              exact hc.spread hm hf (Option.filter_eq_some_iff.mp ht).1
  | inline condition directives inner =>
    rw [stepOf]
    split
    · rename_i hn
      have hi := hc.inline hm
      rw [conditioned_of_narrows hn] at hi
      exact fun _ => ⟨forall_mem_nil _, forall_mem_singleton.mpr
        ⟨_, Setting.type?_conditionType hn, hi⟩, forall_mem_nil _⟩
    · exact hc.inline hm

/-- The schema of selections on a type has its sources. -/
theorem ReadsFitting.readWhole (hr : ReadsFitting setting progress exempt usable read)
    (hk : setting.system.type? parent.name = some parent) :
    Noted.Tells progress.Shows (Derived setting exempt usable (.selected parent selections))
      (GraphQL.readWhole setting read merging parent selections) := by
  rw [GraphQL.readWhole, bind_map_left]
  refine (hr _ _ _ _ _ ⟨hk, fun h => h⟩).bind fun tally ht => ?_
  have ho : Derived setting exempt usable (.selected parent selections)
      (Selected.empty.extendBy tally).object :=
    ht.object (fun _ => Assoc.mem_of_mem_ofList)
      fun _ hn => ((mem_unionNames ..).mp hn).resolve_left not_mem_nil
  split
  · refine (Noted.tells_mapM _ fun piece hp => hr.readMember ht
      (ht.narrowed piece hp)).map fun members ha => ?_
    have hm := forall_mem_of_forall₂ ha
    unfold united
    split
    · exact hm _ (mem_singleton_self _)
    · exact ⟨.union fun member hmm => (hm member hmm).sourced,
        Schema.usesOnly_union fun member hmm => (hm member hmm).named⟩
  · refine Noted.tells_of ?_
    unfold Selected.alone
    split
    · split
      · exact hexempting.unknown
      · split
        · exact hexempting.unknown
        · exact fun _ => ho
    · exact fun _ => ho

theorem readsFitting_readAll (fuel : ℕ) : ReadsFitting setting progress exempt usable
    (readAll setting (Assoc.get? progress.fragmentEntries) fuel) := by
  induction fuel with
  | zero => exact fun _ _ _ _ _ _ _ _ he => by cases he
  | succ fuel ih =>
    intro root whole merging parent selections hcv
    refine (Noted.tells_mapM selections fun selection hm => ?_).map fun _ ha =>
      .join (forall_mem_of_forall₂ ha)
    have hs : (stepOf setting _ merging parent selection).Fitting setting progress exempt usable
      root whole := fitting_stepOf hexempting hcv hm
    cases hc : stepOf setting (Assoc.get? progress.fragmentEntries) merging parent selection with
    | done tally notes =>
      rw [hc] at hs
      exact Noted.tells_of hs
    | field key type base inner =>
      rw [hc] at hs
      exact (ih.readWhole hexempting hs.1).map fun schema => hs.2 schema
    | enter merging type inner =>
      rw [hc] at hs
      exact ih _ _ _ _ _ hs

end

end ApiSchema.GraphQL
