/-
# Parts of schemas

A schema in a document has parts in two senses. The parts that are gone through in the search for
components are told by their keys alone. The parts that are described are told by what the schema
means: next to a constant, an enumeration or a combination, other keys say nothing, and of the rest
only those count that fit the type.

Conversion asks for the schemas of the described parts only, and of all of them, and the schema it
makes mentions just what these schemas mention. Whatever is to be known about conversion follows
from that, and needs no look into the kinds of schemas.
-/
import ApiSchema.OpenApi.Catalog
import ApiSchema.Proofs.Ensures
import ApiSchema.Proofs.Mentions
import Mathlib.Data.Nat.Notation

namespace ApiSchema.OpenApi

open List

variable {key : String} {members part type item : Item} {γ α β : Type} {join : List Schema → Schema}
  {made : List (Item × Schema) → α → Prop} {step : Converter → Builder α}
  {entries : List (Atom × Item)} {items parts parts' : List Item} {setting : Setting}
  {graph : Graph}

/-! ## Parts by key -/

section

variable (graph : Graph) (schema : Item)

/-- What a map has under a key, null if there is nothing. -/
def under (key : String) : Item := (graph.get? schema key).getD .null

/-- The values of a map. -/
def valuesOf (item : Item) : List Item := ((graph.map? item).getD []).map (·.2)

/-- What is met when an item is gone through, nothing if this is not possible. -/
def membersOf (item : Item) : List Item := (itemsOf graph item).toOption.getD []

/-- The item, if it is a map. -/
def mapsOf (item : Item) : List Item := if graph.isMap item then [item] else []

/-- The parts of a schema that are gone through. -/
def walkedParts : List Item :=
  mapsOf graph (under graph schema "items") ++ valuesOf graph (under graph schema "properties") ++
    mapsOf graph (under graph schema "additionalProperties") ++
    ["allOf", "oneOf", "anyOf"].flatMap fun key => membersOf graph (under graph schema key)

/-- The same parts, key by key. -/
def walkedLists : List (List Item) :=
  [mapsOf graph (under graph schema "items"), valuesOf graph (under graph schema "properties"),
    mapsOf graph (under graph schema "additionalProperties")] ++
  ["allOf", "oneOf", "anyOf"].map fun key => membersOf graph (under graph schema key)

theorem mem_walkedParts_iff :
    part ∈ walkedParts graph schema ↔ part ∈ (walkedLists graph schema).flatten := by
  simp [walkedParts, walkedLists]

/-- What is read for them. -/
def walkedGroups : List (Reading (List Item)) :=
  [(do return mapsOf graph (← field graph schema "items")),
    (do return (← entriesOf graph (← field graph schema "properties")).map (·.2)),
    (do return mapsOf graph (← field graph schema "additionalProperties"))] ++
  ["allOf", "oneOf", "anyOf"].map fun key => do optionalItemsOf graph (← field graph schema key)

/-! ## Parts by meaning -/

/-- The parts that are described if the schema is an object. -/
def objectParts : List Item :=
  valuesOf graph (under graph schema "properties") ++
    (mapsOf graph (under graph schema "additionalProperties")).filter (!graph.isBlank ·)

/-- The parts that are described if the schema is an array. -/
def arrayParts : List Item :=
  match graph.get? schema "prefixItems" with
  | some positions => membersOf graph positions
  | none => mapsOf graph (under graph schema "items")

/-- Whether the schema is an object although no known type says so. -/
def isUntypedObject : Bool :=
  (graph.get? schema "properties").isSome || (graph.get? schema "additionalProperties").isSome

/-- The types whose values have no parts. -/
def scalarTypes : List String := ["string", "number", "integer", "boolean", "null"]

/-- The parts that are described if the schema is of a type. -/
def typedParts (type : Item) : List Item :=
  if type.text?.any scalarTypes.contains then []
  else if type.text? = some "array" then arrayParts graph schema
  else if type.text? = some "object" || isUntypedObject graph schema then objectParts graph schema
  else []

/-- The types one by one. -/
def Types.toList : Types → List Item
  | one type => [type]
  | several types => types

/-- The parts of a schema that are described. -/
def describedParts : List Item :=
  match graph.get? schema "const" with
  | some _ => []
  | none =>
    match graph.get? schema "enum" with
    | some _ => []
    | none =>
      match graph.get? schema "allOf" with
      | some members => membersOf graph members
      | none =>
        match (graph.get? schema "oneOf").orElse fun _ => graph.get? schema "anyOf" with
        | some members => membersOf graph members
        | none =>
          (typesOf graph (under graph schema "type")).1.toList.flatMap (typedParts graph schema)

end

/-! ## Reading parts -/

section

variable {graph : Graph} {item : Item}

/-- What is read under a key of a map. -/
theorem eq_under_of_field {value : Item} (h : field graph item key = .ok value) :
    value = under graph item key := by
  unfold field at h
  unfold under Graph.get?
  cases hm : graph.map? item with
  | none =>
    rw [hm] at h
    cases h
  | some entries =>
    rw [hm] at h
    cases h
    rfl

theorem get?_eq_some_of_isMap_under (h : graph.isMap (under graph item key)) :
    graph.get? item key = some (under graph item key) := by
  unfold under at h ⊢
  cases hg : graph.get? item key with
  | some part => rfl
  | none =>
    rw [hg] at h
    cases h

/-- A map that counts as absent has no entries. -/
theorem entries_eq_nil_of_isBlank
    (hb : graph.isBlank item) (hm : graph.map? item = some entries) :
    entries = [] := by
  cases item with
  | atom value => cases hm
  | node id =>
    unfold Graph.map? Graph.node? at hm
    unfold Graph.isBlank at hb
    cases hn : graph.nodes[id]? with
    | none => simp [hn] at hm
    | some node =>
      cases node with
      | map entries' =>
        simp only [hn, Option.some.injEq] at hm
        subst hm
        simpa [hn, Node.items] using hb
      | _ => simp [hn] at hm

/-- The entries that are read have the values of the map. -/
theorem map_entriesOf (h : entriesOf graph item = .ok entries) :
    entries.map (·.2) = valuesOf graph item := by
  unfold entriesOf at h
  unfold valuesOf
  split at h
  · rename_i hb
    cases h
    cases hm : graph.map? item with
    | none => rfl
    | some entries =>
      rw [entries_eq_nil_of_isBlank hb hm]
      rfl
  · cases hm : graph.map? item with
    | none =>
      rw [hm] at h
      cases h
    | some entries =>
      rw [hm] at h
      cases h
      rfl

/-- The items that are read are the members. -/
theorem eq_membersOf (h : itemsOf graph item = .ok items) : items = membersOf graph item := by
  unfold membersOf
  rw [h]
  rfl

/-- What counts as absent has no members. -/
theorem membersOf_of_isBlank (h : graph.isBlank item) : membersOf graph item = [] := by
  unfold membersOf
  cases item with
  | atom value => cases value <;> simp_all [Graph.isBlank, Atom.isBlank, itemsOf, Except.toOption]
  | node id =>
    cases hn : graph.nodes[id]? with
    | none => simp [itemsOf, hn, Except.toOption]
    | some node => simpa [itemsOf, hn, Except.toOption, Graph.isBlank] using h

/-- The items that are gone through, if there are any, are the members. -/
theorem eq_membersOf_of_optional
    (h : optionalItemsOf graph item = .ok items) : items = membersOf graph item := by
  unfold optionalItemsOf at h
  split at h
  · rename_i hb
    cases h
    rw [membersOf_of_isBlank hb]
  · exact eq_membersOf h

/-- A map is met as itself. -/
theorem mem_mapsOf : part ∈ mapsOf graph item ↔ graph.isMap item ∧ part = item := by
  unfold mapsOf
  split
  · rename_i hm
    simp [hm]
  · rename_i hm
    simp [hm]

/-- The parts under each key, if they can be read. -/
theorem forall₂_walkedGroups {schema : Item} :
    List.Forall₂ (fun group parts => ∀ read, group = .ok read → read = parts)
      (walkedGroups graph schema) (walkedLists graph schema) := by
  have hm : ∀ key read,
      (do return mapsOf graph (← field graph schema key) : Reading (List Item)) = .ok read →
        read = mapsOf graph (under graph schema key) := by
    intro key read h
    obtain ⟨item, hi, h⟩ := of_bind_eq_ok h
    cases h
    rw [eq_under_of_field hi]
  refine rel_append (.cons (hm _) (.cons (fun read h => ?_) (.cons (hm _) .nil))) ?_
  · obtain ⟨item, hi, h⟩ := of_bind_eq_ok h
    obtain ⟨entries, he, h⟩ := of_bind_eq_ok h
    cases h
    rw [← eq_under_of_field hi, map_entriesOf he]
  · refine forall₂_map_right_iff.mpr (forall₂_map_left_iff.mpr ?_)
    refine forall₂_same.mpr fun key _ read h => ?_
    obtain ⟨item, hi, h⟩ := of_bind_eq_ok h
    rw [← eq_under_of_field hi, eq_membersOf_of_optional h]

theorem subset_walkedParts {schema : Item} {group : Reading (List Item)}
    (hg : group ∈ walkedGroups graph schema) (h : group = .ok parts) :
    parts ⊆ walkedParts graph schema := by
  obtain ⟨parts', hm, hr⟩ := exists_mem_of_forall₂ forall₂_walkedGroups hg
  intro part hp
  rw [hr parts h] at hp
  exact (mem_walkedParts_iff graph schema).mpr (mem_flatten_of_mem hm hp)

/-- Every part stands in one of the groups. -/
theorem exists_group {schema : Item} (h : part ∈ walkedParts graph schema) :
    ∃ group ∈ walkedGroups graph schema, ∀ parts, group = .ok parts → part ∈ parts := by
  obtain ⟨parts, hm, hp⟩ := mem_flatten.mp ((mem_walkedParts_iff graph schema).mp h)
  obtain ⟨group, hg, hr⟩ :=
    exists_mem_of_forall₂ forall₂_walkedGroups.flip hm
  exact ⟨group, hg, fun read h => hr read h ▸ hp⟩

end

/-! ## Readings that end -/

/-- The attempt does not run out of depth. -/
def Tame {α : Type} (attempt : Reading α) : Prop := attempt ≠ .error .endless

section

variable {attempt : Reading α}

/-- Tame steps one after the other are tame. -/
theorem Tame.bind (h : Tame attempt) {next : α → Reading β}
    (hn : ∀ value, attempt = .ok value → Tame (next value)) : Tame (attempt >>= next) := by
  cases attempt with
  | error fault => exact fun he => h (congrArg Except.error (Except.error.inj he))
  | ok value => exact hn value rfl

theorem tame_mapM {step : α → Reading β} (h : ∀ element, Tame (step element)) {elements : List α} :
    Tame (elements.mapM step) := by
  induction elements with
  | nil => exact nofun
  | cons first rest ih =>
    rw [mapM_cons]
    exact (h first).bind fun _ _ => ih.bind fun _ _ => nofun

theorem tame_field (item : Item) (key : String) : Tame (field graph item key) := by
  unfold field
  split <;> exact nofun

/-- Reading a map is tame. -/
theorem tame_entriesOf (item : Item) : Tame (entriesOf graph item) := by
  unfold entriesOf
  split
  · exact nofun
  · split <;> exact nofun

theorem tame_itemsOf : Tame (itemsOf graph item) := by
  unfold itemsOf
  split
  · exact nofun
  · exact nofun
  · exact nofun
  · split <;> exact nofun

theorem tame_optionalItemsOf (item : Item) : Tame (optionalItemsOf graph item) := by
  unfold optionalItemsOf
  split
  · exact nofun
  · exact tame_itemsOf

theorem tame_keyOf : Tame (keyOf item) := by
  cases item <;> exact nofun

theorem tame_requiredKeys {schema : Item} : Tame (requiredKeys graph schema) := by
  have hk : ∀ item, Tame (requiredKey graph item) := by
    intro item
    unfold requiredKey
    split
    · rename_i items _
      have hi : ∀ items : List Item,
          Tame (items.forM fun item => discard (keyOf item) : Reading PUnit) := by
        intro items
        induction items with
        | nil => exact nofun
        | cons first rest ih =>
          cases first with
          | atom value => exact ih
          | node id => exact nofun
      exact (hi items).bind fun _ _ => nofun
    · exact tame_keyOf.bind fun _ _ => nofun
  refine (tame_field schema _).bind fun required _ => ?_
  refine (tame_optionalItemsOf required).bind fun items _ => ?_
  exact (tame_mapM hk).bind fun _ _ => nofun

theorem tame_shown : Tame (shown graph item) := by
  unfold shown
  dsimp only
  split <;> exact nofun

theorem tame_enumSchema : Tame (enumSchema graph members) := by
  unfold enumSchema
  split
  · exact nofun
  · exact nofun
  · exact tame_itemsOf.bind fun _ _ => nofun

end

/-! ## Conversion by parts -/

/-- A step that is composed of conversions of some parts: it asks for the schemas of parts one after
the other, warns, gives a result of which something is known by what was asked and answered, or
finds a fault in the document. -/
inductive Composed {α : Type} (parts : List Item) :
    (List (Item × Schema) → α → Prop) → (Converter → Builder α) → Prop
  | fail {made : List (Item × Schema) → α → Prop} {fault : Fault} (h : fault ≠ .endless) :
      Composed parts made fun _ => throw fault
  | done {made : List (Item × Schema) → α → Prop} {result : α} (h : made [] result) :
      Composed parts made fun _ => pure result
  | ask {made : List (Item × Schema) → α → Prop} {part : Item}
      {next : Schema → Converter → Builder α} (hpart : part ∈ parts)
      (h : ∀ answer, Composed parts (fun asked => made ((part, answer) :: asked)) (next answer)) :
      Composed parts made fun convert => convert part >>= fun answer => next answer convert
  | warn {made : List (Item × Schema) → α → Prop} {text : String} {next : Converter → Builder α}
      (h : Composed parts made next) :
      Composed parts made fun convert => modify (·.warn text) >>= fun _ => next convert

namespace Composed

variable {made' : List (Item × Schema) → α → Prop}

/-- More parts may be converted, and less may be known of the result. -/
theorem mono (h : Composed parts made step) (hp : parts ⊆ parts')
    (hm : ∀ asked result, made asked result → made' asked result) :
    Composed parts' made' step := by
  induction h generalizing made' with
  | fail h => exact .fail h
  | done h => exact .done (hm _ _ h)
  | ask hpr _ ih => exact .ask (hp hpr) fun answer => ih answer fun _ _ h => hm _ _ h
  | warn _ ih => exact .warn (ih hm)

/-- One step after the other, each with its own parts. -/
theorem bind {next : α → Converter → Builder β} {made' : List (Item × Schema) → β → Prop}
    (h : Composed parts made step)
    (hn : ∀ asked result, made asked result →
      Composed parts (fun asked' => made' (asked ++ asked')) (next result)) :
    Composed parts made' fun convert => step convert >>= fun result => next result convert := by
  induction h generalizing made' with
  | fail h => exact .fail h
  | done h =>
    exact hn [] _ h
  | @ask _ part steps hp _ ih =>
    simp only [bind_assoc]
    exact .ask hp fun answer => ih answer fun asked result h => hn _ result h
  | warn _ ih =>
    exact .warn (ih hn)

/-- Reading the graph converts no part. -/
theorem read {attempt : Reading β} {next : β → Converter → Builder α} (ht : Tame attempt)
    (h : ∀ value, attempt = .ok value → Composed parts made (next value)) :
    Composed parts made fun convert => liftM attempt >>= fun value => next value convert := by
  cases attempt with
  | error fault => exact .fail fun hf => ht (congrArg Except.error hf)
  | ok value => exact h value rfl

/-- Only the schemas of the parts matter. -/
theorem congr {convert convert' : Converter} (h : Composed parts made step)
    (hc : ∀ part ∈ parts, convert' part = convert part) : step convert' = step convert := by
  induction h with
  | fail h => rfl
  | done h => rfl
  | ask hp _ ih =>
    dsimp only
    rw [hc _ hp]
    exact bind_congr ih
  | warn _ ih =>
    dsimp only
    rw [ih]

end Composed

/-! ## What a schema says about its parts -/

/-- All of these parts were asked for, and what is mentioned is just what the answers mention. -/
structure Speaks (parts : List Item) (asked : List (Item × Schema)) (mentions : List String) :
    Prop where
  complete : parts ⊆ asked.map (·.1)
  sound : asked.flatMap (·.2.mentions) ⊆ mentions
  only : mentions ⊆ asked.flatMap (·.2.mentions)

namespace Speaks

variable {asked asked' : List (Item × Schema)} {mentions mentions' : List String}

theorem nil : Speaks [] [] [] := ⟨fun _ h => h, fun _ h => h, fun _ h => h⟩

theorem one (part : Item) (answer : Schema) : Speaks [part] [(part, answer)] answer.mentions :=
  ⟨fun _ h => h, by simp, by simp⟩

/-- Two lists of parts and their answers. -/
theorem append (h : Speaks parts asked mentions) (h' : Speaks parts' asked' mentions') :
    Speaks (parts ++ parts') (asked ++ asked') (mentions ++ mentions') := by
  have ha : ∀ {α : Type} {first first' second second' : List α}, first ⊆ first' →
      second ⊆ second' → first ++ second ⊆ first' ++ second' := fun hf hs =>
    append_subset.mpr ⟨subset_append_of_subset_left _ hf,
      subset_append_of_subset_right _ hs⟩
  constructor
  · rw [map_append]
    exact ha h.complete h'.complete
  · rw [flatMap_append]
    exact ha h.sound h'.sound
  · rw [flatMap_append]
    exact ha h.only h'.only

end Speaks

/-- The step is composed of the conversions of all these parts, and its result mentions what their
schemas mention. -/
def Describes {α : Type} (parts : List Item) (mentions : α → List String)
    (step : Converter → Builder α) : Prop :=
  Composed parts (fun asked result => Speaks parts asked (mentions result)) step

section

variable {mentions : α → List String} {mentions' : β → List String}

/-- A result that mentions nothing. -/
theorem describes_done {result : α} (h : mentions result = []) :
    Describes [] mentions fun _ => pure result :=
  .done (h ▸ .nil)

/-- The schema of a part. -/
theorem describes_convert (part : Item) : Describes [part] Schema.mentions (· part) := by
  have ha : Describes [part] Schema.mentions fun convert => convert part >>= pure :=
    .ask (mem_singleton_self part) fun answer => .done (.one part answer)
  simpa only [bind_pure] using ha

/-- What is made of a result mentions what the result does. -/
theorem Describes.map (h : Describes parts mentions step) {make : α → β}
    (hm : ∀ result, mentions' (make result) = mentions result) :
    Describes parts mentions' fun convert => step convert >>= fun result => pure (make result) :=
  Composed.bind h fun asked result hs => .done (by
    rw [append_nil, hm]
    exact hs)

/-- What is made of several results mentions what one of them does. -/
theorem Describes.and_then (h : Describes parts mentions step)
    {next : Converter → Builder β}
    (h' : Describes parts' mentions' next) {make : α → β → γ}
    {mentions'' : γ → List String}
    (hm : ∀ result result', mentions'' (make result result') =
      mentions result ++ mentions' result') :
    Describes (parts ++ parts') mentions'' fun convert =>
      step convert >>= fun result => next convert >>= fun result' =>
        pure (make result result') := by
  refine Composed.bind (h.mono (subset_append_left _ _) fun _ _ h => h)
    fun asked result hs => ?_
  refine Composed.bind (h'.mono (subset_append_right _ _) fun _ _ h => h)
    fun asked' result' hs' => .done ?_
  rw [append_nil, hm]
  exact hs.append hs'

/-- The parts of each element, one after the other. -/
theorem describes_mapM {step : Converter → γ → Builder α} {partsOf : γ → List Item}
    (elements : List γ)
    (h : ∀ element ∈ elements, Describes (partsOf element) mentions (step · element)) :
    Describes (elements.flatMap partsOf) (fun results => results.flatMap mentions) fun convert =>
      elements.mapM (step convert) := by
  induction elements with
  | nil => exact describes_done rfl
  | cons first rest ih =>
    simp only [mapM_cons]
    exact (h first (mem_cons_self ..)).and_then
      (ih (forall_mem_cons.mp h).2) fun _ _ => rfl

theorem describes_lift {attempt : Reading α} (ht : Tame attempt)
    (h : ∀ result, attempt = .ok result → mentions result = []) :
    Describes [] mentions fun _ => liftM attempt := by
  cases attempt with
  | error fault => exact .fail fun hf => ht (congrArg Except.error hf)
  | ok result => exact describes_done (h result rfl)

/-- Reading the graph mentions nothing. -/
theorem describes_read {attempt : Reading β} {next : β → Converter → Builder α}
    (ht : Tame attempt)
    (h : ∀ value, attempt = .ok value → Describes parts mentions (next value)) :
    Describes parts mentions fun convert => liftM attempt >>= fun value => next value convert :=
  Composed.read ht h

end

theorem describes_parts {make : List Schema → Schema}
    (hm : ∀ schemas, (make schemas).mentions = schemas.flatMap Schema.mentions) :
    Describes parts Schema.mentions fun convert => parts.mapM convert >>= fun schemas =>
      pure (make schemas) := by
  have ha := describes_mapM parts fun part _ => describes_convert part
  rw [flatMap_singleton'] at ha
  exact ha.map hm


/-! ## Objects, arrays, types -/

theorem valuesOf_of_isBlank (h : graph.isBlank item) : valuesOf graph item = [] := by
  have he : entriesOf graph item = .ok [] := if_pos h
  exact (map_entriesOf he).symm

theorem typedParts_of_scalar {schema : Item} {word : String} (ht : type.text? = some word)
    (hw : word ∈ scalarTypes) : typedParts graph schema type = [] := by
  exact if_pos (by simpa [ht] using hw)

/-- A schema of no known type has the parts of an object if it has the keys of one. -/
theorem typedParts_of_other {schema : Item}
    (hs : ∀ word ∈ scalarTypes, type.text? ≠ some word) (ha : type.text? ≠ some "array")
    (ho : type.text? ≠ some "object") :
    typedParts graph schema type =
      if isUntypedObject graph schema then objectParts graph schema else [] := by
  have hot : type.text?.any scalarTypes.contains = false := by
    rw [Option.any_eq_false]
    intro word ht
    have hw : word ∉ scalarTypes := fun hw => hs word hw ht
    simpa using hw
  simp [typedParts, hot, ha, ho]

/-- The schema of an enumeration mentions no entry. -/
theorem mentions_enumSchema {schema : Schema}
    (h : enumSchema graph members = .ok schema) : schema.mentions = [] := by
  unfold enumSchema at h
  split at h
  · cases h
  · cases h
  · obtain ⟨items, -, h⟩ := of_bind_eq_ok h
    cases h
    split
    · rw [Schema.mentions_nullable]
      simp [Schema.mentions]
    · simp [Schema.mentions]

theorem mentions_joined
    (hj : ∀ schemas, (join schemas).mentions = schemas.flatMap Schema.mentions)
    {schemas : List Schema} : (joined join schemas).mentions = schemas.flatMap Schema.mentions := by
  unfold joined
  split
  · rw [flatMap_singleton]
  · exact hj schemas

theorem describes_propertyFields {required : List Atom} {properties : List (Atom × Item)} :
    Describes (properties.map (·.2)) (fun fields => fields.flatMap (·.schema.mentions))
      fun convert => propertyFields convert required properties := by
  rw [map_eq_flatMap]
  exact describes_mapM properties fun property _ => (describes_convert property.2).map fun _ => rfl

/-- The schema of an object mentions what those of its parts do. -/
theorem describes_objectSchema {schema : Item} : Describes (objectParts setting.graph schema)
    Schema.mentions fun convert => objectSchema setting convert schema := by
  unfold objectSchema objectParts
  refine describes_read (tame_field _ _) fun properties hpr => ?_
  refine describes_read (tame_field _ _) fun further hf => ?_
  rw [← eq_under_of_field hpr, ← eq_under_of_field hf]
  have ho : ∀ fields undeclared, (Schema.object fields undeclared []).mentions =
      fields.flatMap (·.schema.mentions) ++ Schema.mentionsOfUndeclared undeclared := by
    intro fields undeclared
    rw [Schema.mentions, Schema.mentionsOfFields_eq_flatMap, append_nil]
  by_cases hm : setting.graph.isMap further ∧ setting.graph.isBlank further = false
  · -- There is a schema for the keys that are not declared, and it is a part too.
    have ht : isTrue further = false := by
      cases further with
      | atom value => cases hm.1
      | node id => rfl
    have hp : (mapsOf setting.graph further).filter (!setting.graph.isBlank ·) = [further] := by
      simp [mapsOf, hm.1, hm.2]
    rw [hp]
    split
    · rename_i hb
      rw [valuesOf_of_isBlank (Bool.and_eq_true_iff.mp hb).1]
      simp only [hm.1, hm.2]
      exact (describes_convert further).map fun inner => by simp [Schema.text, Schema.mentions]
    · refine describes_read tame_requiredKeys fun required _ => ?_
      refine describes_read (tame_entriesOf _) fun entries he => ?_
      rw [← map_entriesOf he]
      simp only [ht, hm.1, hm.2]
      refine describes_propertyFields.and_then (describes_convert further) fun fields rest => ?_
      rw [ho, Schema.mentionsOfUndeclared]
  · -- Of the keys that are not declared nothing is described.
    have hp : (mapsOf setting.graph further).filter (!setting.graph.isBlank ·) = [] := by
      rw [filter_eq_nil_iff]
      intro part hpa
      obtain ⟨hf, rfl⟩ := mem_mapsOf.mp hpa
      simpa [hf] using hm
    rw [hp, append_nil]
    split
    · rename_i hb
      have hn : ¬ (setting.graph.isMap further && !setting.graph.isBlank further) := by
        simpa using hm
      rw [valuesOf_of_isBlank (Bool.and_eq_true_iff.mp hb).1]
      simp only [hn]
      exact describes_done (by simp [Schema.text, Schema.mentions])
    · refine describes_read tame_requiredKeys fun required _ => ?_
      refine describes_read (tame_entriesOf _) fun entries he => ?_
      rw [← map_entriesOf he]
      split
      · exact describes_propertyFields.map fun fields => by
          simp [ho, Undeclared.kept, Schema.mentionsOfUndeclared]
      · rename_i hk
        have hn : ¬ setting.graph.isMap further := by
          intro hf
          have hb : setting.graph.isBlank further := by simpa [hf] using hm
          exact hk (by simp [hf, hb])
        simp only [hn]
        exact describes_propertyFields.map fun fields => by
          simp [ho, Schema.mentionsOfUndeclared]

/-- The schema of an array mentions what those of its parts do. -/
theorem describes_arraySchema {schema : Item} : Describes (arrayParts setting.graph schema)
    Schema.mentions fun convert => arraySchema setting convert schema := by
  unfold arraySchema arrayParts
  dsimp only
  cases setting.graph.get? schema "prefixItems" with
  | some positions =>
    dsimp only
    refine describes_read tame_itemsOf fun items hi => ?_
    rw [← eq_membersOf hi]
    exact describes_parts fun schemas => by
      rw [Schema.mentions, Schema.mentionsOfAll_eq_flatMap]
  | none =>
    dsimp only
    refine describes_read (tame_field _ _) fun items hi => ?_
    rw [← eq_under_of_field hi]
    unfold mapsOf
    split
    · exact (describes_convert items).map fun inner => by rw [Schema.mentions]
    · exact describes_done (by simp [Schema.mentions])

theorem describes_textSchema {schema : Item} :
    Describes [] Schema.mentions fun _ => textSchema setting schema := by
  refine describes_read (tame_field _ _) fun format _ => ?_
  refine describes_read tame_keyOf fun key _ => ?_
  split <;> exact describes_done (by simp [Schema.mentions])

/-- The schema for a type mentions what those of its parts do. -/
theorem describes_typedSchema {schema : Item} : Describes (typedParts setting.graph schema type)
    Schema.mentions fun convert => typedSchema setting convert schema type := by
  unfold typedSchema
  dsimp only
  split
  case h_1 ht =>
    rw [typedParts_of_scalar ht (by decide)]
    exact describes_textSchema
  case h_6 ht =>
    have hp : typedParts setting.graph schema type = arrayParts setting.graph schema := by
      simp [typedParts, ht, scalarTypes]
    rw [hp]
    exact describes_arraySchema
  case h_7 ht =>
    have hp : typedParts setting.graph schema type = objectParts setting.graph schema := by
      simp [typedParts, ht, scalarTypes]
    rw [hp]
    exact describes_objectSchema
  case h_8 hst hn hi hb hnl ha ho =>
    have hs : ∀ word ∈ scalarTypes, type.text? ≠ some word := by
      simp only [scalarTypes, forall_mem_cons]
      exact ⟨hst, hn, hi, hb, hnl, fun _ hw => nomatch hw⟩
    rw [typedParts_of_other hs ha ho]
    unfold isUntypedObject
    split
    · exact describes_objectSchema
    · split
      · refine describes_read tame_shown fun name _ => ?_
        exact .warn (describes_done (by simp))
      · exact describes_done (by simp)
  -- The schemas of the other scalars mention nothing.
  all_goals
    rename_i ht
    rw [typedParts_of_scalar ht (by decide)]
    exact describes_done (by simp [Schema.null, Schema.mentions])

theorem describes_joined
    (hj : ∀ schemas, (join schemas).mentions = schemas.flatMap Schema.mentions) :
    Describes (membersOf setting.graph members) Schema.mentions fun convert =>
      (do return joined join (← (← itemsOf setting.graph members).mapM convert) :
        Builder Schema) := by
  refine describes_read tame_itemsOf fun items hi => ?_
  rw [← eq_membersOf hi]
  exact describes_parts fun schemas => mentions_joined hj

theorem describes_bareSchema {schema : Item} :
    Describes (describedParts setting.graph schema) Schema.mentions fun convert =>
      bareSchema setting convert schema
        (typesOf setting.graph (under setting.graph schema "type")).1 := by
  unfold bareSchema describedParts
  dsimp only
  cases setting.graph.get? schema "const" with
  | some value => exact describes_done (by split <;> simp [Schema.null, Schema.mentions])
  | none =>
    cases setting.graph.get? schema "enum" with
    | some members =>
      exact describes_lift tame_enumSchema fun _ => mentions_enumSchema
    | none =>
      cases setting.graph.get? schema "allOf" with
      | some members =>
        exact describes_joined (fun schemas => by
          rw [Schema.mentions, Schema.mentionsOfAll_eq_flatMap])
      | none =>
        cases (setting.graph.get? schema "oneOf").orElse
            fun _ => setting.graph.get? schema "anyOf" with
        | some members =>
          exact describes_joined (fun schemas => by
            rw [Schema.mentions, Schema.mentionsOfAll_eq_flatMap])
        | none =>
          cases (typesOf setting.graph (under setting.graph schema "type")).1 with
          | one type =>
            rw [Types.toList, flatMap_singleton]
            exact describes_typedSchema
          | several types =>
            refine (describes_mapM types fun type _ => describes_typedSchema).map
              fun schemas => ?_
            rw [Schema.mentions, Schema.mentionsOfAll_eq_flatMap]

/-- A schema mentions just what the schemas of its parts mention. -/
theorem describes_fullSchema (setting : Setting) (schema : Item) :
    Describes (describedParts setting.graph schema) Schema.mentions fun convert =>
      fullSchema setting convert schema := by
  unfold fullSchema
  dsimp only
  refine describes_read (tame_field _ _) fun type ht => ?_
  refine describes_read (tame_field _ _) fun nullable _ => ?_
  rw [eq_under_of_field ht]
  refine describes_bareSchema.map fun bare => ?_
  split
  · rw [Schema.mentions_nullable]
  · rfl

/-! ## What follows -/

section

variable {convert convert' : Converter}

/-- What warnings and the conversions of parts keep, a step that is composed of them keeps. What is
known may depend on what was asked and answered before. -/
theorem Composed.ensures (h : Composed parts made step)
    (holds : List (Item × Schema) → Progress → Prop)
    (hw : ∀ asked progress text, holds asked progress → holds asked (progress.warn text))
    (ha : ∀ asked, ∀ part ∈ parts, Ensures (holds asked) (convert part) fun answer =>
      holds (asked ++ [(part, answer)])) (asked : List (Item × Schema)) :
    Ensures (holds asked) (step convert) fun result progress =>
      ∃ more, made more result ∧ holds (asked ++ more) progress := by
  induction h generalizing asked with
  | fail _ => exact ensures_throw _
  | done h => exact ensures_pure fun progress hs => ⟨[], h, by rwa [append_nil]⟩
  | @ask _ part _ hp _ ih =>
    refine ensures_bind (ha asked part hp) fun answer => ?_
    refine (ih answer _).consequence (fun _ h => h) fun result progress hmr => ?_
    obtain ⟨more, hm, hs⟩ := hmr
    refine ⟨(part, answer) :: more, hm, ?_⟩
    rwa [append_assoc] at hs
  | @warn _ text _ _ ih =>
    have hk : Ensures (holds asked) (modify (·.warn text) : Builder Unit) fun _ => holds asked :=
      ensures_modify fun progress hs => hw asked progress text hs
    exact ensures_bind hk fun _ => ih asked

/-- A step that is composed of conversions which do not depend on the state does not either. -/
theorem Composed.uniform (h : Composed parts made step) {agree : Progress → Progress → Prop}
    (hw : ∀ {progress other}, agree progress other → ∀ text,
      agree (progress.warn text) (other.warn text))
    (ha : ∀ part ∈ parts, Uniform agree (convert part)) : Uniform agree (step convert) := by
  induction h with
  | fail _ => exact uniform_throw _
  | done _ => exact uniform_pure _
  | ask hp _ ih => exact (ha _ hp).bind ih
  | warn _ ih => exact (uniform_modify fun _ _ hs => hw hs _).bind fun _ => ih

/-- What is made of a part, by what is made of the parts inside it: a part that is no map has no
schema, a component is referred to, and every other part is described in full. -/
theorem convert_induction {motive : Option String → Item → Builder Schema → Prop}
    (endless : ∀ current item, motive current item (throw .endless))
    (unknown : ∀ current item, motive current item (pure .unknown))
    (component : ∀ current item name, setting.graph.isMap item →
      setting.componentName? item = some name → motive current item (refer name))
    (full : ∀ current item convert, setting.graph.isMap item →
      (∀ part ∈ describedParts setting.graph item, motive none part (convert part)) →
        motive current item (fullSchema setting convert item))
    (fuel : ℕ) (current : Option String) (item : Item) :
    motive current item (OpenApi.convert setting fuel current item) := by
  induction fuel generalizing current item with
  | zero => exact endless current item
  | succ fuel ih =>
    rw [OpenApi.convert]
    split
    · exact unknown current item
    · rename_i hm
      rw [Bool.not_eq_true, Bool.not_eq_false'] at hm
      have hf := full current item (OpenApi.convert setting fuel none) hm fun part _ =>
        ih none part
      split
      · rename_i name hn
        split
        · exact hf
        · exact component current item name hm hn
      · exact hf

end

end ApiSchema.OpenApi
