/-
# Responses that conform to a selection set

What a response to a selection set on an object type looks like, said on the side of the types and
selections: the value under each response key fits the type of its field, with null where the type
allows it and lists item by item.

The schema that a catalog has for such a selection set accepts just these responses.
-/
import Mathlib.Data.List.Pairwise
import ApiSchema.Proofs.GraphQL.Merging

namespace ApiSchema.GraphQL

open List Option

variable {setting : Setting} {meaning : Interpretation} {name : String} {item : TypeRef}
  {inner : String → List FieldNode} {node : FieldNode} {nodes : List FieldNode} {value : Value}
  {selections : List Selection} {type : NamedType}

/-! ## Conformance -/

mutual

/-- The value is an object with what is selected on an object type: each field under its response
key, there if its type excludes null, and the name of the type where it is asked for. -/
inductive Conforms (setting : Setting) (meaning : Interpretation) :
    NamedType → List Selection → Value → Prop
  | object {type : NamedType} {selections : List Selection} {nodes : List FieldNode}
      {pairs : List (Atom × Value)} (hnodes : Expands setting.documents selections nodes)
      (htypeName : ∀ node ∈ nodes, node.name = typeNameKey →
        Assoc.get? pairs (.text node.key) = some (.atom (.text type.name)))
      (hrequired : ∀ node ∈ nodes, ∀ reference, node.name ≠ typeNameKey →
        type.fieldType? node.name = some reference → reference.isNonNull = true →
          ∃ value, Assoc.get? pairs (.text node.key) = some value)
      (hvalues : ∀ node ∈ nodes, ∀ reference value, node.name ≠ typeNameKey →
        type.fieldType? node.name = some reference →
          Assoc.get? pairs (.text node.key) = some value →
            Fits setting meaning node.selections reference value) :
      Conforms setting meaning type selections (.map pairs)

/-- The value fits a type reference, with what is selected on its named type. -/
inductive Fits (setting : Setting) (meaning : Interpretation) :
    Option (List Selection) → TypeRef → Value → Prop
  | null {selections : Option (List Selection)} {reference : TypeRef}
      (h : reference.isNonNull = false) : Fits setting meaning selections reference (.atom .null)
  | present {selections : Option (List Selection)} {reference : TypeRef} {value : Value}
      (h : FitsPresent setting meaning selections reference value) :
      Fits setting meaning selections reference value

/-- The value fits a type reference, not counting null. -/
inductive FitsPresent (setting : Setting) (meaning : Interpretation) :
    Option (List Selection) → TypeRef → Value → Prop
  | named {selections : Option (List Selection)} {name : String} {value : Value}
      (h : FitsNamed setting meaning selections name value) :
      FitsPresent setting meaning selections (.named name) value
  | list {selections : Option (List Selection)} {item : TypeRef} {values : List Value}
      (h : ∀ value ∈ values, Fits setting meaning selections item value) :
      FitsPresent setting meaning selections (.list item) (.list values)
  | nonNull {selections : Option (List Selection)} {inner : TypeRef} {value : Value}
      (h : FitsPresent setting meaning selections inner value) :
      FitsPresent setting meaning selections (.nonNull inner) value

/-- The value fits a named type, with what is selected on it. Any value fits a type of which nothing
is known: one without a definition, a scalar that is not registered, or an object on which nothing
is selected. -/
inductive FitsNamed (setting : Setting) (meaning : Interpretation) :
    Option (List Selection) → String → Value → Prop
  | undefined {selections : Option (List Selection)} {name : String} {value : Value}
      (htype : setting.system.type? name = none) : FitsNamed setting meaning selections name value
  | scalar {selections : Option (List Selection)} {name : String} {type : NamedType}
      {schema : Schema} {value : Value} (htype : setting.system.type? name = some type)
      (hkind : type.kind = .scalar) (hschema : setting.registry.get? name = some schema)
      (h : Accepts ⟨[], []⟩ meaning schema value) : FitsNamed setting meaning selections name value
  | unregistered {selections : Option (List Selection)} {name : String} {type : NamedType}
      {value : Value} (htype : setting.system.type? name = some type) (hkind : type.kind = .scalar)
      (hschema : setting.registry.get? name = none) :
      FitsNamed setting meaning selections name value
  | enum {selections : Option (List Selection)} {name : String} {type : NamedType}
      {values : List String} {text : String} (htype : setting.system.type? name = some type)
      (hkind : type.kind = .enum values) (htext : text ∈ values) :
      FitsNamed setting meaning selections name (.atom (.text text))
  | unselected {name : String} {type : NamedType} {value : Value}
      (htype : setting.system.type? name = some type) (hleaf : type.isLeaf = false) :
      FitsNamed setting meaning none name value
  | selected {name : String} {type : NamedType} {inner : List Selection} {value : Value}
      (htype : setting.system.type? name = some type) (hleaf : type.isLeaf = false)
      (h : Conforms setting meaning type inner value) :
      FitsNamed setting meaning (some inner) name value

end

/-- Every selection set is on an object type: the one at hand, and those below its fields when its
fragments are expanded. Type conditions name the type itself, the fields exist on the type, and no
response key is used twice. -/
inductive OnObjects (setting : Setting) : NamedType → List Selection → Prop
  | intro {type : NamedType} {selections : List Selection} {nodes : List FieldNode}
      (hobject : type.isObject = true) (hnodes : Expands setting.documents selections nodes)
      (hdistinct : (nodes.map (·.key)).Nodup)
      (hconditions : ∀ condition, HasCondition setting.documents selections condition →
        condition = type.name)
      (hfields : ∀ node ∈ nodes, node.name ≠ typeNameKey →
        (type.fieldType? node.name).isSome = true)
      (hbelow : ∀ node ∈ nodes, ∀ reference target inner, node.name ≠ typeNameKey →
        type.fieldType? node.name = some reference →
          setting.system.type? reference.baseName = some target → target.isLeaf = false →
            node.selections = some inner → OnObjects setting target inner) :
      OnObjects setting type selections

/-! ## Types -/

section

variable {selections : Option (List Selection)}

/-- A named type that may be null is fitted by null and by what fits the type. -/
theorem fits_named_iff : Fits setting meaning selections (.named name) value ↔ value = .atom .null ∨
    FitsNamed setting meaning selections name value := by
  constructor
  · intro h
    cases h with
    | null => exact Or.inl rfl
    | present h =>
      cases h with
      | named h => exact Or.inr h
  · rintro (rfl | h)
    · exact .null rfl
    · exact .present (.named h)

/-- A list without null is fitted by lists whose items fit. -/
theorem fitsPresent_list_iff : FitsPresent setting meaning selections (.list item) value ↔ ∃ values,
    value = .list values ∧ ∀ value ∈ values, Fits setting meaning selections item value := by
  constructor
  · intro h
    cases h with
    | list h => exact ⟨_, rfl, h⟩
  · rintro ⟨values, rfl, h⟩
    exact .list h

/-- A list that may be null is fitted by null and by lists whose items fit. -/
theorem fits_list_iff : Fits setting meaning selections (.list item) value ↔
      value = .atom .null ∨ ∃ values, value = .list values ∧
        ∀ value ∈ values, Fits setting meaning selections item value := by
  rw [← fitsPresent_list_iff]
  constructor
  · intro h
    cases h with
    | null => exact Or.inl rfl
    | present h => exact Or.inr h
  · rintro (rfl | h)
    · exact .null rfl
    · exact .present h

/-- A type that excludes null is fitted by what fits it apart from null. -/
theorem fits_nonNull_iff {inner : TypeRef} :
    Fits setting meaning selections (.nonNull inner) value ↔
      FitsPresent setting meaning selections inner value := by
  constructor
  · intro h
    cases h with
    | null h => cases h
    | present h =>
      cases h with
      | nonNull h => exact h
  · exact fun h => .present (.nonNull h)

/-- If a schema accepts what fits a named type, then the schema of a type reference around it
accepts what fits the reference. -/
theorem accepts_wrap_iff {catalog : Catalog} {schema : Schema} {reference : TypeRef}
    (h : ∀ value, Accepts catalog meaning schema value ↔
      FitsNamed setting meaning selections reference.baseName value) :
    ∀ value, Accepts catalog meaning (reference.wrap schema) value ↔
      Fits setting meaning selections reference value := by
  induction reference using TypeRef.schema.induct with
  | case1 name =>
    intro value
    rw [TypeRef.wrap, Accepts.nullable_iff, fits_named_iff, h]
    rfl
  | case2 item ih =>
    intro value
    rw [TypeRef.wrap, Accepts.nullable_iff, Accepts.array_iff, fits_list_iff]
    simp only [ih h]
  | case3 name =>
    intro value
    rw [TypeRef.wrap, h, fits_nonNull_iff]
    exact ⟨.named, fun h => by cases h; assumption⟩
  | case4 item ih =>
    intro value
    rw [TypeRef.wrap, Accepts.array_iff, fits_nonNull_iff, fitsPresent_list_iff]
    simp only [ih h]
  | case5 inner ih =>
    intro value
    rw [TypeRef.wrap, ih h, fits_nonNull_iff, fits_nonNull_iff]
    exact ⟨.nonNull, fun h => by cases h; assumption⟩

end

/-! ## Distinct response keys -/

section

/-- No response key of a selection set is used twice: not by its own fields, nor by those of the
fragments that it spreads. -/
structure Apart (selections : List Selection) (inner : String → List FieldNode) : Prop where
  own : ((ownNodes selections).map (·.key)).Nodup
  inside : ∀ name ∈ ownSpreads selections, ((inner name).map (·.key)).Nodup
  outside : ∀ node ∈ ownNodes selections, ∀ name ∈ ownSpreads selections, ∀ other ∈ inner name,
    node.key ≠ other.key
  between : ∀ name ∈ ownSpreads selections, ∀ name' ∈ ownSpreads selections, name ≠ name' →
    ∀ node ∈ inner name, ∀ other ∈ inner name', node.key ≠ other.key

/-- The fields of an expanded selection set have different keys if they are apart. -/
theorem apart_of_nodup
    (h : ((ownNodes selections ++ (ownSpreads selections).flatMap inner).map (·.key)).Nodup) :
    Apart selections inner := by
  rw [map_append, map_flatMap] at h
  obtain ⟨hown, hin, hot⟩ := nodup_append.mp h
  obtain ⟨hi, hb⟩ := nodup_flatMap.mp hin
  have : Std.Symm (Function.onFun List.Disjoint fun name => (inner name).map (·.key)) :=
    ⟨fun _ _ h _ hf hs => h hs hf⟩
  refine ⟨hown, hi, fun node hnd name hn other ho => ?_,
    fun name hn name' hn' hne node hnd other ho he => ?_⟩
  · exact hot _ (mem_map_of_mem hnd) _
      (mem_flatMap.mpr ⟨name, hn, mem_map_of_mem ho⟩)
  · have hd := hb.forall hn hn' hne
    exact hd (mem_map_of_mem hnd) (he ▸ mem_map_of_mem ho)

/-- An own field counts. -/
theorem Apart.counts (h : Apart selections inner) (hn : node ∈ ownNodes selections) :
    Counts setting selections node := by
  obtain ⟨before, after, hs⟩ := append_of_mem hn
  refine .own hs fun later hl hk => ?_
  have ho := h.own
  rw [hs, map_append, map_cons] at ho
  exact ho.of_append_right.notMem (hk ▸ mem_map_of_mem hl)

/-- If no response key is used twice, all fields count. -/
theorem counts_iff_mem (hon : SelectsOn setting type selections)
    (hnd : Expands setting.documents selections nodes) (hd : (nodes.map (·.key)).Nodup)
    (node : FieldNode) :
    Counts setting selections node ↔ node ∈ nodes := by
  refine ⟨fun h => h.mem_of_expands hnd, fun hn => ?_⟩
  induction hnd with
  | @intro selections inner hk hu ih =>
    have ha := apart_of_nodup hd
    rcases mem_append.mp hn with hn | hn
    · exact ha.counts hn
    · obtain ⟨name, hnm, hn⟩ := mem_flatMap.mp hn
      cases hf : setting.documents.fragment? name with
      | none =>
        rw [hu name hnm hf] at hn
        cases hn
      | some fragment =>
        have hm := hon.merges hnm hf
        obtain ⟨before, after, hs⟩ := append_of_mem hm.mem_ownEntries
        refine .spread hnm hf hs (ih name hnm fragment hf hm.selects
          (ha.inside name hnm) hn)
          (fun own hown => ha.outside own hown name hnm node hn) ?_
        intro later hl haf fragment' nodes' hf' hn' other ho
        obtain rfl := (hk later hl fragment' hf').unique hn'
        -- Each entry is spread once, so the later one is of another fragment.
        have hne : later ≠ name := by
          rintro rfl
          have hno : (ownEntries setting selections).Nodup := nodup_unionNames _ nodup_nil
          rw [hs] at hno
          exact hno.of_append_right.notMem haf
        exact ha.between later hl name hnm hne other ho node hn

end

/-! ## Meaning of schemas -/

section

variable {entries : List Entry} {result : Catalog}

/-- The pairs have, under the key of a field on the type, what the field asks for. -/
abbrev FieldNode.IsMetBy (setting : Setting) (meaning : Interpretation) (type : NamedType)
    (node : FieldNode) (pairs : List (Atom × Value)) : Prop :=
  (node.name = typeNameKey → Assoc.get? pairs (.text node.key) = some (.atom (.text type.name))) ∧
  (node.name ≠ typeNameKey → ∀ reference, type.fieldType? node.name = some reference →
    (reference.isNonNull → ∃ value, Assoc.get? pairs (.text node.key) = some value) ∧
    ∀ value, Assoc.get? pairs (.text node.key) = some value →
      Fits setting meaning node.selections reference value)

/-- What conforms to a selection set, by its expanded fields. -/
theorem conforms_iff (hnd : Expands setting.documents selections nodes) :
    Conforms setting meaning type selections value ↔
      ∃ pairs, value = .map pairs ∧ ∀ node ∈ nodes, node.IsMetBy setting meaning type pairs := by
  constructor
  · intro h
    cases h with
    | object hn' htypeName hrq hv =>
      obtain rfl := hnd.unique hn'
      refine ⟨_, rfl, fun node hn => ⟨htypeName node hn, fun hnm reference hr =>
        ⟨hrq node hn reference hnm hr, fun value =>
          hv node hn reference value hnm hr⟩⟩⟩
  · rintro ⟨pairs, rfl, h⟩
    exact .object hnd (fun node hn => (h node hn).1)
      (fun node hn reference hnm hr => ((h node hn).2 hnm reference hr).1)
      fun node hn reference value hnm hr =>
        ((h node hn).2 hnm reference hr).2 value

/-- The entry of an enumeration to which a schema in the catalog refers has its values. -/
theorem Catalogued.accepts_enum_iff (h : Catalogued setting result) {values : List String}
    (hty : setting.system.type? type.name = some type) (hk : type.kind = .enum values)
    (hp : result.HasPart (.ref type.name)) :
    Accepts result meaning (.ref type.name) value ↔
      ∃ text ∈ values, value = .atom (.text text) := by
  obtain ⟨holder, hh, hp⟩ := hp
  obtain ⟨entry, he, hn⟩ :=
    mem_map.mp (h.noDangling.references holder hh type.name hp)
  have hf : result.find? entry.name = some entry :=
    find?_of_nodup_map h.noDangling.distinct he
  rw [hn] at hf
  have hs := h.enums entry he type values (by rw [hn]; exact hty) hk
  rw [Accepts.ref_iff hf, hs]
  constructor
  · intro ha
    cases ha with
    | enumeration hv =>
      obtain ⟨text, ht, rfl⟩ := mem_map.mp hv
      exact ⟨text, ht, rfl⟩
  · rintro ⟨text, ht, rfl⟩
    exact .enumeration (mem_map_of_mem ht)

/-- What fits a type that is defined, by its kind. -/
theorem fitsNamed_iff {selections : Option (List Selection)}
    (ht : setting.system.type? name = some type) :
    FitsNamed setting meaning selections name value ↔
      (type.kind = .scalar → ∀ schema, setting.registry.get? name = some schema →
        Accepts ⟨[], []⟩ meaning schema value) ∧
      (∀ values, type.kind = .enum values → ∃ text ∈ values, value = .atom (.text text)) ∧
      (type.isLeaf = false → ∀ inner, selections = some inner →
        Conforms setting meaning type inner value) := by
  have hsm {other : NamedType} (ho : setting.system.type? name = some other) : other = type :=
    some.inj (ho.symm.trans ht)
  constructor
  · intro h
    cases h with
    | undefined ho => simp [ht] at ho
    | scalar ho hk hs h =>
      obtain rfl := hsm ho
      simpa [hk, hs, NamedType.isLeaf] using h
    | unregistered ho hk hs =>
      obtain rfl := hsm ho
      simp [hk, hs, NamedType.isLeaf]
    | enum ho hk htx =>
      obtain rfl := hsm ho
      simpa [hk, NamedType.isLeaf] using htx
    | unselected ho hl =>
      obtain rfl := hsm ho
      refine ⟨fun hk => ?_, fun values hk => ?_, by simp⟩ <;>
        simp [NamedType.isLeaf, hk] at hl
    | selected ho hl h =>
      obtain rfl := hsm ho
      refine ⟨fun hk => ?_, fun values hk => ?_, fun _ inner hi => ?_⟩
      · simp [NamedType.isLeaf, hk] at hl
      · simp [NamedType.isLeaf, hk] at hl
      · rw [← some.inj hi]
        exact h
  · rintro ⟨hsc, he, hc⟩
    by_cases hl : type.isLeaf = false
    · cases selections with
      | none => exact .unselected ht hl
      | some inner => exact .selected ht hl (hc hl inner rfl)
    · cases hk : type.kind with
      | scalar =>
        cases hs : setting.registry.get? name with
        | none => exact .unregistered ht hk hs
        | some schema => exact .scalar ht hk hs (hsc hk schema hs)
      | enum values =>
        obtain ⟨text, htx, rfl⟩ := he values hk
        exact .enum ht hk htx
      | _ => simp [NamedType.isLeaf, hk] at hl

/-- The schema of a scalar accepts what its registered schema accepts, or else anything. -/
theorem accepts_scalar_iff (hr : setting.registry.Nameless) :
    Accepts result meaning ((setting.registry.get? name).getD .unknown) value ↔
      ∀ schema, setting.registry.get? name = some schema →
        Accepts ⟨[], []⟩ meaning schema value := by
  cases hg : setting.registry.get? name with
  | none => exact iff_of_true .unknown (by simp)
  | some schema =>
    have hm := hr.mentions_get? hg
    simp only [some.injEq, forall_eq']
    exact ⟨fun ha => ha.of_mentions_eq_nil hm _,
      fun ha => ha.of_mentions_eq_nil hm _⟩

/-- The schema of a named type accepts what fits it. -/
theorem accepts_leafSchema_iff (h : Catalogued setting result)
    (hr : setting.registry.Nameless)
    (hp : result.HasPart (leafSchema setting (node.below setting) name))
    (hb : ∀ target inner, setting.system.type? name = some target → target.isLeaf = false →
      node.selections = some inner →
        result.HasPart ((outlineAll setting target inner).schema target) →
          ∀ value, Accepts result meaning ((outlineAll setting target inner).schema target) value ↔
            Conforms setting meaning target inner value) (value : Value) :
    Accepts result meaning (leafSchema setting (node.below setting) name) value ↔
      FitsNamed setting meaning node.selections name value := by
  cases ht : setting.system.type? name with
  | none =>
    have hs : leafSchema setting (node.below setting) name = .unknown := by
      simp [leafSchema, ht]
    rw [hs]
    exact iff_of_true .unknown (.undefined ht)
  | some type =>
    rw [fitsNamed_iff ht]
    by_cases hl : type.isLeaf = false
    · have hsc : type.kind ≠ .scalar := fun hk => by
        simp [NamedType.isLeaf, hk] at hl
      have he : ∀ values, type.kind ≠ .enum values := fun values hk => by
        simp [NamedType.isLeaf, hk] at hl
      simp only [leafSchema_of_isLeaf_eq_false ht hl, hsc, he, hl] at hp ⊢
      unfold FieldNode.below at *
      cases hsl : node.selections with
      | none => exact iff_of_true .unknown (by simp)
      | some inner =>
        rw [hsl] at hp
        rw [hb type inner ht hl hsl hp]
        simp
    · cases hk : type.kind with
      | scalar =>
        have hs : leafSchema setting (node.below setting) name =
            (setting.registry.get? name).getD .unknown := by
          simp [leafSchema, ht, hk]
        rw [hs, accepts_scalar_iff hr]
        simp [hl]
      | enum values =>
        have hs : leafSchema setting (node.below setting) name = .ref type.name := by
          simp [leafSchema, ht, hk]
        rw [hs] at hp ⊢
        rw [h.accepts_enum_iff (TypeSystem.type?_name ht) hk hp]
        simp [hl]
      | _ => simp [NamedType.isLeaf, hk] at hl

/-- On an object type a field asks for the value that conforms to it. -/
theorem accepts_field_iff (meaning : Interpretation) (h : Catalogued setting result)
    (hrg : setting.registry.Nameless) (ho : type.isObject)
    (hp : result.HasPart (node.field setting type).schema)
    (hf : node.name ≠ typeNameKey → (type.fieldType? node.name).isSome)
    (hb : ∀ reference target inner, node.name ≠ typeNameKey →
      type.fieldType? node.name = some reference →
        setting.system.type? reference.baseName = some target → target.isLeaf = false →
          node.selections = some inner →
            result.HasPart ((outlineAll setting target inner).schema target) →
              ∀ value, Accepts result meaning ((outlineAll setting target inner).schema target)
                value ↔ Conforms setting meaning target inner value) (pairs : List (Atom × Value)) :
    (((node.field setting type).required →
        ∃ value, Assoc.get? pairs (.text node.key) = some value) ∧
      ∀ value, Assoc.get? pairs (.text node.key) = some value →
        Accepts result meaning (node.field setting type).schema value) ↔
    node.IsMetBy setting meaning type pairs := by
  unfold FieldNode.IsMetBy
  by_cases hn : node.name = typeNameKey
  · -- The name of the type is a literal that has to be there.
    have hd : node.described setting type = ⟨textLiteral type.name, true⟩ := by
      simp [FieldNode.described, describe, hn, ho]
    simp only [FieldNode.field, hd, textLiteral, Accepts.literal_iff, hn, ne_eq,
      not_true_eq_false, false_implies, and_true, true_implies]
    constructor
    · rintro ⟨⟨value, hv⟩, hl⟩
      rw [hv, hl value hv]
    · intro hv
      refine ⟨⟨_, hv⟩, fun value hv' => ?_⟩
      exact some.inj (hv'.symm.trans hv)
  · obtain ⟨reference, hr⟩ := isSome_iff_exists.mp (hf hn)
    have hd : node.described setting type =
        ⟨reference.wrap (leafSchema setting (node.below setting) reference.baseName),
          reference.isNonNull⟩ := by
      simp [FieldNode.described, describe, hn, hr]
    have hs : (node.field setting type).schema =
        reference.wrap (leafSchema setting (node.below setting) reference.baseName) := by
      rw [FieldNode.field, hd]
    have hrq : (node.field setting type).required = reference.isNonNull := by
      rw [FieldNode.field, hd]
    rw [hs] at hp
    have hlf := accepts_leafSchema_iff h hrg
      (hp.of_part (reference.part_wrap _)) fun target inner =>
        hb reference target inner hn hr
    simp only [hs, hrq, accepts_wrap_iff hlf, hn, hr, ne_eq,
      not_false_eq_true, false_implies, true_and, true_implies, some.injEq, forall_eq']

/-- The schema of a selection set on object types accepts what conforms to it. -/
theorem accepts_iff_conforms (meaning : Interpretation) (h : Catalogued setting result)
    (hac : setting.documents.Acyclic) (hrg : setting.registry.Nameless)
    (hs : OnObjects setting type selections)
    (hty : setting.system.type? type.name = some type)
    (hp : result.HasPart ((outlineAll setting type selections).schema type)) (value : Value) :
    Accepts result meaning ((outlineAll setting type selections).schema type) value ↔
      Conforms setting meaning type selections value := by
  induction hs generalizing value with
  | @intro type selections nodes ho hnd hds hc hf hb ih =>
    have hon : SelectsOn setting type selections := ⟨ho, hty, hc⟩
    have hd := hasField_iff_counts h hac hon
    simp only [counts_iff_mem hon hnd hds] at hd
    rw [conforms_iff hnd, schema_outlineAll setting ho, Accepts.object_iff]
    rw [schema_outlineAll setting ho] at hd hp
    refine exists_congr fun pairs => and_congr_right fun _ => ?_
    have hn : ∀ node ∈ nodes, _ := fun node hn =>
      accepts_field_iff meaning h hrg ho
        (((hd _).mpr ⟨node, hn, rfl⟩).hasPart hp) (hf node hn)
        (fun reference target inner hnm hr ht hl hi hp' =>
          ih node hn reference target inner hnm hr ht hl hi
            (TypeSystem.type?_name ht) hp') pairs
    constructor
    · intro ha node hm
      exact (hn node hm).mp (ha _ ((hd _).mpr ⟨node, hm, rfl⟩))
    · intro hcn field hfl
      obtain ⟨node, hm, rfl⟩ := (hd field).mp hfl
      exact (hn node hm).mpr (hcn node hm)

end

/-- The response to an operation whose selection sets are on object types: there is a catalog, it
has an entry for the response, and this entry accepts just the values that conform to what the
operation selects. -/
theorem response_accepts_iff_conforms {system : TypeSystem} {documents : Documents}
    {library : Option String} {overrides : List (String × String)} {registry : Registry}
    (hregistry : Registry.ofName library overrides = .ok registry)
    (horderly : Setting.Orderly ⟨system, documents, registry⟩) {operation : NamedOperation}
    (hoperation : operation ∈ documents.operations) {root : NamedType}
    (hroot : system.root? operation.kind = some root)
    (hobjects : OnObjects ⟨system, documents, registry⟩ root operation.selections)
    (meaning : Interpretation) :
    ∃ result entry, catalog ⟨system, documents, registry⟩ = .ok result ∧
      result.find? (Name.responseEntry operation.name operation.kind.name) = some entry ∧
      entry.category = .response ∧
      ∀ value, Accepts result meaning entry.schema value ↔
        Conforms ⟨system, documents, registry⟩ meaning root operation.selections value := by
  have hn := Registry.nameless_of_ofName hregistry
  obtain ⟨result, hr, hc⟩ := exists_catalogued horderly hn
  obtain ⟨entry, he, hct, hs⟩ :=
    hc.exists_find? (.response hoperation hroot)
  refine ⟨result, entry, hr, he, hct, fun value => ?_⟩
  have hp : result.HasPart entry.schema := ⟨entry, mem_of_find?_eq_some he, .whole⟩
  rw [hs] at hp ⊢
  exact accepts_iff_conforms meaning hc horderly.acyclic hn hobjects
    (TypeSystem.type?_of_root? hroot) hp value

/-! ## A query through two fragments -/

/-- The type of pets. -/
def petType : NamedType :=
  ⟨"Pet", .object [("kind", .nonNull (.named "Kind")), ("friend", .named "Pet")]⟩

/-- The kind of a pet. -/
def kindSelections : List Selection := [.field none "kind" [] [] none]

/-- A fragment with the kind of a friend. -/
def friendFragment : SourcedFragment :=
  ⟨⟨"b", "Pet", [], [.field none "friend" [] [] (some kindSelections)]⟩, "pets"⟩

/-- A fragment with the kind of a pet and, through the other fragment, of its friend. -/
def petFragment : SourcedFragment :=
  ⟨⟨"a", "Pet", [], kindSelections ++ [.inline (some "Pet") [] [.spread "b" []]]⟩, "pets"⟩

/-- The name of the type and what the fragment selects. -/
def petSelections : List Selection := [.field none "__typename" [] [] none, .spread "a" []]

/-- A query for a pet. -/
def friendQuery : NamedOperation :=
  ⟨"find", .query, [], [.field (some "found") "pet" [] [] (some petSelections)], "pets"⟩

/-- The pets with the query, and the scalars that are always registered. -/
def friendSetting : Setting :=
  ⟨petSystem, ⟨[friendQuery], [petFragment, friendFragment], []⟩, ⟨none, Registry.defaults⟩⟩

theorem orderly_friendSetting : friendSetting.Orderly where
  fragments := by decide
  acyclic := Documents.acyclic_of_rank (fun name => if name = "a" then 1 else 0) (by decide)
  names := by decide +kernel
  types := by decide +kernel

theorem expands_petSelections : Expands friendSetting.documents petSelections [⟨"__typename",
    "__typename", none⟩, ⟨"kind", "kind", none⟩, ⟨"friend", "friend", some kindSelections⟩] :=
  .of_ownSpreads_eq_singleton rfl rfl
    (.of_ownSpreads_eq_singleton rfl rfl (.of_ownSpreads_eq_nil rfl))

/-- All type conditions name the type of pets. -/
theorem conditions_petSelections (condition : String)
    (h : HasCondition friendSetting.documents petSelections condition) : condition = "Pet" := by
  refine h.of_forall (by decide) fun name hn fragment hf => ?_
  obtain rfl := mem_singleton.mp (hn : name ∈ ["a"])
  obtain rfl : petFragment = fragment := some.inj hf
  refine ⟨rfl, fun condition h => h.of_forall (by decide) fun name hn fragment hf => ?_⟩
  obtain rfl := mem_singleton.mp (hn : name ∈ ["b"])
  obtain rfl : friendFragment = fragment := some.inj hf
  exact ⟨rfl, fun condition h => h.of_forall (by decide) fun name hn =>
    nomatch (hn : name ∈ [])⟩

theorem onObjects_kindSelections : OnObjects friendSetting petType kindSelections := by
  refine .intro rfl (.of_ownSpreads_eq_nil rfl) (by decide) (fun condition h => ?_) (by decide) ?_
  · exact h.of_forall (by decide) fun name hn => nomatch (hn : name ∈ [])
  · intro node hnd reference target inner _ _ _ _ hi
    obtain rfl := mem_singleton.mp hnd
    cases hi

/-- What is selected on a pet is selected on object types. -/
theorem onObjects_petSelections : OnObjects friendSetting petType petSelections := by
  refine .intro rfl expands_petSelections (by decide) conditions_petSelections (by decide) ?_
  intro node hn reference target inner _ hr ht _ hi
  simp only [mem_cons, not_mem_nil, or_false] at hn
  rcases hn with rfl | rfl | rfl
  · cases hi
  · cases hi
  · obtain rfl := some.inj hr
    obtain rfl : petType = target := some.inj ht
    obtain rfl := some.inj hi
    exact onObjects_kindSelections

/-- What is selected by the query is selected on object types. -/
theorem onObjects_friendQuery :
    OnObjects friendSetting ⟨"Query", .object [("pet", .named "Pet")]⟩ friendQuery.selections := by
  refine .intro rfl (.of_ownSpreads_eq_nil rfl) (by decide) (fun condition h => ?_) (by decide) ?_
  · exact h.of_forall (by decide) fun name hn => nomatch (hn : name ∈ [])
  · intro node hnd reference target inner _ hr ht _ hi
    obtain rfl := mem_singleton.mp hnd
    obtain rfl := some.inj hr
    obtain rfl : petType = target := some.inj ht
    obtain rfl := some.inj hi
    exact onObjects_petSelections

/-- The selections of the query are on object types, and the entry for the response accepts just
what conforms to them. -/
theorem friendQuery_accepts_iff_conforms :
    OnObjects friendSetting ⟨"Query", .object [("pet", .named "Pet")]⟩ friendQuery.selections ∧
    ∀ meaning, ∃ result entry, catalog friendSetting = .ok result ∧
      result.find? "FindQuery" = some entry ∧ entry.category = .response ∧
      ∀ value, Accepts result meaning entry.schema value ↔
        Conforms friendSetting meaning ⟨"Query", .object [("pet", .named "Pet")]⟩
          friendQuery.selections value := by
  refine ⟨onObjects_friendQuery, fun meaning => ?_⟩
  have hn : Name.responseEntry friendQuery.name friendQuery.kind.name = "FindQuery" := by
    decide +kernel
  have ha := response_accepts_iff_conforms Registry.ofName_none orderly_friendSetting
    (mem_singleton_self friendQuery) rfl onObjects_friendQuery meaning
  rw [hn] at ha
  exact ha

end ApiSchema.GraphQL
