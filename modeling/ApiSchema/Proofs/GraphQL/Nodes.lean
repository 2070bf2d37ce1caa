/-
# Fields of a selection set

The fields that a selection set has itself, under inline fragments included, and those that it gets
from the fragments that it spreads. On an object type the schema of a selection set is an object
with its own fields, where of several fields under one response key the last one counts, and with
the spreads of its fragments.
-/
import ApiSchema.Proofs.Acceptance
import ApiSchema.Proofs.GraphQL.Outline

namespace ApiSchema.GraphQL

open List

variable {documents : Documents} {selections : List Selection} {type : NamedType}
  {nodes : List FieldNode} {setting : Setting}

/-! ## Own parts -/

/-- A field of a selection set: its response key, its name, and what is selected on it. -/
structure FieldNode where
  key : String
  name : String
  selections : Option (List Selection)
deriving Inhabited

namespace Selection

mutual

/-- A selection, and what is selected under it if it is an inline fragment. -/
def unnested : Selection → List Selection
  | .field responseName name arguments directives selections =>
    [.field responseName name arguments directives selections]
  | .spread name directives => [.spread name directives]
  | .inline condition directives selections =>
    .inline condition directives selections :: unnestedAll selections

/-- Several selections, and what is selected under the inline fragments among them. -/
def unnestedAll : List Selection → List Selection
  | [] => []
  | selection :: rest => unnested selection ++ unnestedAll rest

end

/-- The field that a selection is. -/
def node? : Selection → Option FieldNode
  | .field responseName name _ _ selections => some ⟨responseName.getD name, name, selections⟩
  | _ => none

/-- The fragment that a selection spreads. -/
def spread? : Selection → Option String
  | .spread name _ => some name
  | _ => none

/-- The type condition of an inline fragment. -/
def condition? : Selection → Option String
  | .inline condition _ _ => condition
  | _ => none

end Selection

/-- The fields of a selection set itself, in order. -/
def ownNodes (selections : List Selection) : List FieldNode :=
  (Selection.unnestedAll selections).filterMap Selection.node?

/-- The fragments that a selection set spreads itself, in order. -/
def ownSpreads (selections : List Selection) : List String :=
  (Selection.unnestedAll selections).filterMap Selection.spread?

/-- The type conditions of the inline fragments in a selection set. -/
def ownConditions (selections : List Selection) : List String :=
  (Selection.unnestedAll selections).filterMap Selection.condition?

/-! ## Expansion -/

/-- The fields of a selection set when its fragments are expanded: its own, and those of each
fragment that it spreads. -/
inductive Expands (documents : Documents) : List Selection → List FieldNode → Prop
  | intro {selections : List Selection} {inner : String → List FieldNode}
      (hknown : ∀ name ∈ ownSpreads selections, ∀ fragment,
        documents.fragment? name = some fragment →
          Expands documents fragment.selections (inner name))
      (hunknown : ∀ name ∈ ownSpreads selections, documents.fragment? name = none →
        inner name = []) :
      Expands documents selections (ownNodes selections ++ (ownSpreads selections).flatMap inner)

/-- A selection set expands to one list of fields. -/
theorem Expands.unique {nodes' : List FieldNode} (h : Expands documents selections nodes)
    (h' : Expands documents selections nodes') : nodes = nodes' := by
  induction h generalizing nodes' with
  | @intro selections inner hk hu ih =>
    obtain ⟨hk', hu'⟩ := h'
    rename_i inner'
    have hi : ∀ name ∈ ownSpreads selections, inner name = inner' name := by
      intro name hn
      cases hf : documents.fragment? name with
      | none => rw [hu name hn hf, hu' name hn hf]
      | some fragment =>
        exact ih name hn fragment hf (hk' name hn fragment hf)
    rw [flatMap_congr hi]

theorem Expands.of_ownSpreads_eq_nil (h : ownSpreads selections = []) :
    Expands documents selections (ownNodes selections) := by
  have he := @Expands.intro documents selections (fun _ => []) (by simp [h]) (by simp)
  rw [h] at he
  simpa using he

/-- With one spread a selection set expands to its own fields and those of the fragment. -/
theorem Expands.of_ownSpreads_eq_singleton {name : String} {fragment : SourcedFragment}
    (h : ownSpreads selections = [name])
    (hf : documents.fragment? name = some fragment)
    (hi : Expands documents fragment.selections nodes) :
    Expands documents selections (ownNodes selections ++ nodes) := by
  have he := @Expands.intro documents selections (fun _ => nodes)
    (by
      simp only [h, mem_singleton, forall_eq, hf, Option.some.injEq, forall_eq']
      exact hi)
    (by simp [h, hf])
  rw [h] at he
  simpa using he

/-- A type condition that is met while the fragments of a selection set are expanded. -/
inductive HasCondition (documents : Documents) : List Selection → String → Prop
  | inline {selections : List Selection} {condition : String}
      (h : condition ∈ ownConditions selections) : HasCondition documents selections condition
  | spread {selections : List Selection} {name : String} {fragment : SourcedFragment}
      (hname : name ∈ ownSpreads selections)
      (hfragment : documents.fragment? name = some fragment) :
      HasCondition documents selections fragment.condition
  | inner {selections : List Selection} {name condition : String} {fragment : SourcedFragment}
      (hname : name ∈ ownSpreads selections)
      (hfragment : documents.fragment? name = some fragment)
      (h : HasCondition documents fragment.selections condition) :
      HasCondition documents selections condition

/-- What holds of the type conditions here and in each fragment holds of all that are met. -/
theorem HasCondition.of_forall {condition type : String}
    (h : HasCondition documents selections condition)
    (ho : ∀ condition ∈ ownConditions selections, condition = type)
    (hs : ∀ name ∈ ownSpreads selections, ∀ fragment,
      documents.fragment? name = some fragment → fragment.condition = type ∧
        ∀ condition, HasCondition documents fragment.selections condition → condition = type) :
    condition = type := by
  cases h with
  | inline h => exact ho _ h
  | spread hn hf => exact (hs _ hn _ hf).1
  | inner hn hf h => exact (hs _ hn _ hf).2 _ h

/-! ## Outlines on object types -/

namespace FieldNode

/-- The schema of what is selected on the field, when its type is a composite type. -/
def below (setting : Setting) (node : FieldNode) (type : NamedType) : Schema :=
  match node.selections with
  | some selections => (outlineAll setting type selections).schema type
  | none => .unknown

/-- What the field alone describes on a type. -/
def described (setting : Setting) (type : NamedType) (node : FieldNode) : Described :=
  describe setting type node.name (node.below setting)

/-- The declared key that the field alone gives on a type. -/
def field (setting : Setting) (type : NamedType) (node : FieldNode) : Field Schema :=
  ⟨.text node.key, (node.described setting type).schema, (node.described setting type).required⟩

end FieldNode

/-- The fields and the spreads among some selections, on a type. -/
def flatPortion (setting : Setting) (type : NamedType) (selections : List Selection) : Portion :=
  ⟨(selections.filterMap Selection.node?).map fun node => (node.key, node.described setting type),
    (selections.filterMap Selection.spread?).filterMap setting.spreadRecord?⟩

theorem flatPortion_append (setting : Setting) (type : NamedType) (first second : List Selection) :
    flatPortion setting type (first ++ second) =
      (flatPortion setting type first).append (flatPortion setting type second) := by
  simp [flatPortion, Portion.append]

theorem NamedType.isAbstract_eq_false (h : type.isObject) : type.isAbstract = false := by
  unfold isObject at h
  unfold isAbstract
  cases hk : type.kind <;> simp [hk] at h ⊢

theorem narrows_eq_false_of_isObject (h : type.isObject) (condition : NamedType) :
    narrows type condition = false := by
  rw [narrows, NamedType.isAbstract_eq_false h]
  rfl

mutual

/-- On an object type a selection amounts to the fields and the spreads in it. -/
theorem outline_eq_flatPortion (setting : Setting) (h : type.isObject) (selection : Selection) :
    outline setting type selection = ⟨flatPortion setting type selection.unnested, []⟩ := by
  match selection with
  | .field responseName name arguments directives (some selections) =>
    rfl
  | .field responseName name arguments directives none =>
    rfl
  | .spread name directives =>
    rw [outline, Selection.unnested]
    cases ht : setting.spreadType? name with
    | none => simp [flatPortion, Selection.node?, Selection.spread?, Setting.spreadRecord?, ht,
        Outline.empty, Portion.empty]
    | some condition =>
      dsimp only
      rw [if_neg (by simp [narrows_eq_false_of_isObject h])]
      simp [flatPortion, Selection.node?, Selection.spread?, Setting.spreadRecord?, ht]
  | .inline condition directives selections =>
    rw [outline, if_neg (by simp [narrows_eq_false_of_isObject h]), conditioned, if_pos h,
      outlineAll_eq_flatPortion setting h selections]
    rfl

/-- On an object type selections amount to the fields and the spreads in them. -/
theorem outlineAll_eq_flatPortion (setting : Setting) (h : type.isObject)
    (selections : List Selection) :
    outlineAll setting type selections =
      ⟨flatPortion setting type (Selection.unnestedAll selections), []⟩ := by
  match selections with
  | [] =>
    rfl
  | selection :: rest =>
    rw [outlineAll, Selection.unnestedAll, flatPortion_append, outline_eq_flatPortion setting h,
      outlineAll_eq_flatPortion setting h]
    rfl

end

/-- The fields that a selection set on an object type gives: for each response key the one of its
last field. -/
def ownFields (setting : Setting) (type : NamedType) (selections : List Selection) :
    List (Field Schema) :=
  (Assoc.ofList ((ownNodes selections).map fun node => (node.key, node.described setting type))).map
    fun key => ⟨.text key.1, key.2.schema, key.2.required⟩

/-- The entries of the fragments that a selection set spreads itself, each once. -/
def ownEntries (setting : Setting) (selections : List Selection) : List String :=
  unionNames [] ((ownSpreads selections).filterMap setting.spreadRecord?)

theorem schema_outlineAll (setting : Setting) (h : type.isObject) (selections : List Selection) :
    (outlineAll setting type selections).schema type =
      .object (ownFields setting type selections) .dropped (ownEntries setting selections) := by
  rw [Outline.schema, outlineAll_eq_flatPortion setting h,
    if_neg (by simp [NamedType.isAbstract_eq_false h])]
  rfl

/-- The fields of a selection set on an object type are those of its fields that no other field
with the same response key comes after. -/
theorem mem_ownFields_iff {field : Field Schema} :
    field ∈ ownFields setting type selections ↔
      ∃ before node after, ownNodes selections = before ++ node :: after ∧
        (∀ later ∈ after, later.key ≠ node.key) ∧ field = node.field setting type := by
  constructor
  · intro hf
    obtain ⟨⟨key, described⟩, hk, rfl⟩ := mem_map.mp hf
    rw [← Assoc.get?_eq_some_iff_mem (Assoc.nodup_keys_ofList _),
      Assoc.get?_ofList_eq_some_iff] at hk
    obtain ⟨before, after, hs, hls⟩ := hk
    obtain ⟨before', rest, hn, rfl, hr⟩ := map_eq_append_iff.mp hs
    obtain ⟨node, after', rfl, hnd, rfl⟩ := map_eq_cons_iff.mp hr
    obtain ⟨rfl, rfl⟩ := Prod.mk.inj hnd
    refine ⟨before', node, after', hn, fun later hl heq => hls ?_, rfl⟩
    exact mem_map.mpr ⟨_, mem_map_of_mem hl, heq⟩
  · rintro ⟨before, node, after, hn, hls, rfl⟩
    refine mem_map.mpr ⟨(node.key, node.described setting type), ?_, rfl⟩
    rw [← Assoc.get?_eq_some_iff_mem (Assoc.nodup_keys_ofList _), Assoc.get?_ofList_eq_some_iff,
      hn]
    refine ⟨_, _, by rw [map_append, map_cons], fun hm => ?_⟩
    obtain ⟨entry, he, hk⟩ := mem_map.mp hm
    obtain ⟨later, hl, rfl⟩ := mem_map.mp he
    exact hls later hl hk

/-- Every own field leaves its response key. -/
theorem exists_mem_ownFields (setting : Setting) (type : NamedType) {node : FieldNode}
    (h : node ∈ ownNodes selections) :
    ∃ field ∈ ownFields setting type selections, field.key = .text node.key := by
  have hk : node.key ∈ Assoc.keys (Assoc.ofList
      ((ownNodes selections).map fun node => (node.key, node.described setting type))) := by
    rw [Assoc.mem_keys_ofList]
    exact mem_map.mpr ⟨_, mem_map_of_mem h, rfl⟩
  obtain ⟨entry, he, hn⟩ := mem_map.mp hk
  exact ⟨_, mem_map_of_mem he, by rw [hn]⟩

/-- The fragments that have entries are spread through them. -/
theorem mem_ownEntries_iff {entry : String} :
    entry ∈ ownEntries setting selections ↔
      ∃ name ∈ ownSpreads selections, (setting.spreadType? name).isSome ∧
        entry = Name.fragmentEntry name := by
  rw [ownEntries, mem_unionNames]
  simp only [not_mem_nil, false_or, mem_filterMap, Setting.spreadRecord?,
    Option.map_eq_some_iff, Option.isSome_iff_exists]
  constructor
  · rintro ⟨name, hn, type, ht, rfl⟩
    exact ⟨name, hn, ⟨type, ht⟩, rfl⟩
  · rintro ⟨name, hn, ⟨type, ht⟩, rfl⟩
    exact ⟨name, hn, type, ht, rfl⟩

end ApiSchema.GraphQL
