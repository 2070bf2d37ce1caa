/-
# Object types picked out of interfaces and unions

The schema of selections on an interface or a union has one object for each object type that they
pick out, in the order in which the types occur first. The object has all that is selected for all
types and all that is selected for this one, and it tells its type name. So every union in the
schema of selections adds null to something, or its members are told apart by their type names.

If no fragment leads back to itself, all selections have such a schema. A fragment without an entry
that leads back to itself through what is selected for an object type has none at any depth.
-/
import ApiSchema.Proofs.GraphQL.Reliance

namespace ApiSchema

open List

variable {schema : Schema}

/-! ## Unions that are told apart -/

/-- The object tells the name of its type, which is the only one that it accepts. -/
def TellsType (type : String) (member : Schema) : Prop :=
  ∃ fields spreads, member = .object fields .dropped spreads ∧ (fields.map (·.key)).Nodup ∧
    ⟨.text GraphQL.typeNameKey, GraphQL.textLiteral type, true⟩ ∈ fields

/-- There are several objects, and they tell the names of different types. -/
def Discriminated (members : List Schema) : Prop :=
  2 ≤ members.length ∧ ∃ types : List String, types.Nodup ∧ Forall₂ TellsType types members

/-- Every union in the schema adds null to something, or its members are told apart. -/
def Schema.UnionsApart (schema : Schema) : Prop :=
  ∀ members, Part (.union members) schema →
    (∃ inner, members = [inner, .null]) ∨ Discriminated members

namespace Schema

theorem unionsApart_of_children
    (hw : ∀ members, schema = .union members →
      (∃ inner, members = [inner, .null]) ∨ Discriminated members)
    (h : ∀ child ∈ schema.children, child.UnionsApart) : schema.UnionsApart := by
  intro members hp
  rcases part_iff.mp hp with he | ⟨child, hc, hp⟩
  · exact hw members he.symm
  · exact h child hc members hp

theorem unionsApart_of_isLeaf (h : schema.isLeaf) : schema.UnionsApart := by
  intro members hp
  obtain rfl := (part_iff_eq h).mp hp
  cases h

theorem UnionsApart.nullable (h : schema.UnionsApart) : schema.nullable.UnionsApart := by
  refine unionsApart_of_children (fun members he => Or.inl ⟨schema, (union.inj he).symm⟩) ?_
  exact forall_mem_cons.mpr ⟨h, forall_mem_singleton.mpr (unionsApart_of_isLeaf rfl)⟩

theorem UnionsApart.array (h : schema.UnionsApart) : (Schema.array schema).UnionsApart :=
  unionsApart_of_children (fun _ he => by cases he) (forall_mem_singleton.mpr h)

end Schema

/-- No scalar has a union in its schema that is not told apart. -/
def Registry.UnionsApart (registry : Registry) : Prop :=
  ∀ {scalar schema}, registry.get? scalar = some schema → schema.UnionsApart

theorem Registry.unionsApart_of_ofName {library : Option String}
    {overrides : List (String × String)} {registry : Registry}
    (h : ofName library overrides = .ok registry) : registry.UnionsApart := by
  intro scalar schema hg
  obtain ⟨library, ha⟩ := exists_of_ofName h
  rcases of_mem_registerAll ha _ (Assoc.mem_of_get?_eq_some hg) with hm | ⟨_, -, hcd⟩
  · have hk : ∀ pair ∈ defaults, pair.2.isLeaf ∨ pair.2 = .record .text .unknown := by
      simp [defaults, Schema.isLeaf, Schema.text, Schema.unknown]
    rcases hk _ hm with hl | hr
    · exact Schema.unionsApart_of_isLeaf hl
    · refine Schema.unionsApart_of_children (fun _ he => ?_) fun child hc => ?_
      · cases hr.symm.trans he
      · refine Schema.unionsApart_of_isLeaf ?_
        rw [show schema = .record .text .unknown from hr] at hc
        rcases mem_cons.mp hc with rfl | hc
        · rfl
        · exact mem_singleton.mp hc ▸ rfl
  · exact Schema.unionsApart_of_isLeaf (by rw [show schema = .raw _ from hcd]; rfl)

namespace GraphQL

theorem TypeRef.unionsApart_wrap (type : TypeRef) (h : schema.UnionsApart) :
    (type.wrap schema).UnionsApart := by
  fun_induction TypeRef.wrap type schema with
  | case1 schema name => exact h.nullable
  | case2 schema item ih => exact (ih h).array.nullable
  | case3 schema name => exact h
  | case4 schema item ih => exact (ih h).array
  | case5 schema inner ih => exact ih h

variable {setting : Setting} {record? : String → Option String} {merging : List String}
  {parent : NamedType} {selections : List Selection} {tally : Tally} {read : SelectionReader}

/-! ## What is selected on a type -/

/-- The step amounts to the tally. What is under the response key of a field with selections is left
open. -/
inductive Step.Amounts (setting : Setting) (record? : String → Option String) : Step → Tally → Prop
  | done {tally : Tally} {notes : List Note} : Amounts setting record? (.done tally notes) tally
  | field {key : String} {type : TypeRef} {base : NamedType} {selections : List Selection}
      {schema : Schema} : Amounts setting record? (.field key type base selections)
        (.key key (type.wrap schema) type.isNonNull)
  | nil {merging : List String} {parent : NamedType} :
      Amounts setting record? (.enter merging parent []) (.join [])
  | cons {merging : List String} {parent : NamedType} {selection : Selection}
      {rest : List Selection} {tally : Tally} {tallies : List Tally}
      (hfirst : Amounts setting record? (stepOf setting record? merging parent selection) tally)
      (hrest : Amounts setting record? (.enter merging parent rest) (.join tallies)) :
      Amounts setting record? (.enter merging parent (selection :: rest)) (.join (tally :: tallies))

namespace Tally

/-- The response keys. -/
def names (tally : Tally) : List String := tally.keys.map (·.1)

/-- The object types that are picked out, each at the place where it occurs first. -/
def types (tally : Tally) : List String := unionNames [] (tally.pieces.map (·.1))

/-- All that is selected for an object type. -/
def selectionsFor (tally : Tally) (type : String) : List Selection :=
  (tally.pieces.filter (·.1 == type)).flatMap (·.2)

/-- What is under the keys has its unions told apart. -/
def Apart (tally : Tally) : Prop := ∀ pair ∈ tally.keys, pair.2.schema.UnionsApart

end Tally

/-- What a step on a type can be that some selections come to: what is under its keys has its unions
told apart, known object types are picked out of interfaces and unions only, and on an object type
each field of the selections has its key. -/
def Step.Serves (setting : Setting) (parent : NamedType) (selections : List Selection) : Step → Prop
  | .done tally _ => tally.Apart ∧
      (∀ piece ∈ tally.pieces, ∃ type, setting.system.type? piece.1 = some type ∧
        narrows parent type) ∧
      (parent.isObject → ∀ node ∈ ownNodes selections, node.key ∈ tally.names)
  | .field key .. => ∀ node ∈ ownNodes selections, node.key = key
  | .enter _ type inner => parent.isObject → type = parent ∧ ownNodes selections ⊆ ownNodes inner

theorem serves_enter (parent : NamedType) (selections : List Selection) :
    (Step.enter merging parent selections).Serves setting parent selections :=
  fun _ => ⟨rfl, Subset.refl _⟩

theorem ownNodes_cons (selection : Selection) (rest : List Selection) :
    ownNodes (selection :: rest) = ownNodes [selection] ++ ownNodes rest := by
  simp [ownNodes, Selection.unnestedAll]

section

variable (hregistry : setting.registry.UnionsApart)

include hregistry

theorem serves_fieldStep (key name : String) (inner : Option (List Selection))
    (hk : ∀ node ∈ ownNodes selections, node.key = key) :
    (fieldStep setting parent key name inner).Serves setting parent selections := by
  have hd : ∀ {schema : Schema} {required notes}, schema.UnionsApart →
      (Step.done (.key key schema required) notes).Serves setting parent selections :=
    fun h => ⟨forall_mem_singleton.mpr h, forall_mem_nil _,
      fun _ node hn => mem_singleton.mpr (hk node hn)⟩
  have hl : ∀ {schema : Schema} {type : TypeRef} {notes}, schema.UnionsApart →
      (Step.leaf key type schema notes).Serves setting parent selections :=
    fun h => hd (TypeRef.unionsApart_wrap _ h)
  unfold fieldStep
  split
  · refine hd (Schema.unionsApart_of_isLeaf ?_)
    split <;> rfl
  · split
    · exact hd (Schema.unionsApart_of_isLeaf rfl)
    · split
      · exact hl (Schema.unionsApart_of_isLeaf rfl)
      · split
        · split
          · rename_i hg
            exact hl (hregistry hg)
          · exact hl (Schema.unionsApart_of_isLeaf rfl)
        · exact hl (Schema.unionsApart_of_isLeaf rfl)
        · split
          · exact hl (Schema.unionsApart_of_isLeaf rfl)
          · exact hk

/-- What a selection on a type comes to. -/
theorem serves_stepOf (selection : Selection) :
    (stepOf setting record? merging parent selection).Serves setting parent [selection] := by
  cases selection with
  | field responseName name arguments directives inner =>
    refine serves_fieldStep hregistry _ name inner fun node hnd => ?_
    rw [mem_singleton.mp hnd]
  | spread name directives =>
    have hno : ∀ {keys : List String}, parent.isObject →
        ∀ node ∈ ownNodes [.spread name directives], node.key ∈ keys :=
      fun _ _ hnd => absurd hnd not_mem_nil
    have he : ∀ {spreads notes}, (Step.done ⟨⟨[], spreads⟩, []⟩ notes).Serves setting parent
        [.spread name directives] := ⟨forall_mem_nil _, forall_mem_nil _, hno⟩
    rw [stepOf]
    unfold spreadStep
    split
    · exact he
    · dsimp only
      split
      · rename_i ha
        obtain ⟨type, ht, hn⟩ := (Option.any_eq_true ..).mp ha
        exact ⟨forall_mem_nil _, forall_mem_singleton.mpr ⟨type, ht, hn⟩, hno⟩
      · split
        · exact he
        · split
          · exact he
          · split
            · exact he
            · exact fun ho => ⟨if_pos ho, nil_subset _⟩
  | inline condition directives inner =>
    rw [stepOf]
    split
    · rename_i hn
      refine ⟨forall_mem_nil _, forall_mem_singleton.mpr
        ⟨_, Setting.type?_conditionType hn, hn⟩, fun ho => ?_⟩
      rw [narrows_eq_false_of_isObject ho] at hn
      cases hn
    · refine fun ho => ⟨if_pos ho, ?_⟩
      intro node hnd
      simpa [ownNodes, Selection.unnestedAll, Selection.unnested, filterMap_cons, Selection.node?]
        using hnd

/-- Known object types are picked out. On an object type none is, and every field gives its response
key. -/
theorem Step.Amounts.of_serves {step : Step} (h : step.Amounts setting record? tally) :
    ∀ {parent selections}, step.Serves setting parent selections →
      (∀ piece ∈ tally.pieces, ∃ type, setting.system.type? piece.1 = some type ∧ type.isObject) ∧
        (parent.isObject → tally.pieces = [] ∧
          ∀ node ∈ ownNodes selections, node.key ∈ tally.names) := by
  induction h with
  | done =>
    rintro parent selections ⟨-, hpc, hk⟩
    refine ⟨fun piece hp => ?_, fun ho => ⟨?_, hk ho⟩⟩
    · obtain ⟨type, ht, hn⟩ := hpc piece hp
      simp only [narrows, Bool.and_eq_true] at hn
      exact ⟨type, ht, hn.1.2⟩
    · refine eq_nil_iff_forall_not_mem.mpr fun piece hp => ?_
      obtain ⟨type, -, hn⟩ := hpc piece hp
      rw [narrows_eq_false_of_isObject ho] at hn
      cases hn
  | field =>
    exact fun hs => ⟨forall_mem_nil _, fun _ => ⟨rfl, fun node hnd =>
      mem_singleton.mpr (hs node hnd)⟩⟩
  | nil =>
    exact fun hs => ⟨forall_mem_nil _, fun ho => ⟨rfl, fun node hnd =>
      absurd ((hs ho).2 hnd) not_mem_nil⟩⟩
  | @cons merging type selection rest tally tallies _ _ ihfirst ihrest =>
    intro parent selections hs
    obtain ⟨hf, hfirstOn⟩ := ihfirst (serves_stepOf hregistry selection)
    obtain ⟨hr, hrestOn⟩ := ihrest (serves_enter type rest)
    refine ⟨forall_mem_append.mpr ⟨hf, hr⟩, fun ho => ?_⟩
    obtain ⟨rfl, hno⟩ := hs ho
    refine ⟨append_eq_nil_iff.mpr ⟨(hfirstOn ho).1, (hrestOn ho).1⟩, fun node hnd => ?_⟩
    have hnd := hno hnd
    rw [ownNodes_cons, mem_append] at hnd
    change node.key ∈ (tally.keys ++ (Tally.join tallies).keys).map (·.1)
    rw [map_append, mem_append]
    exact hnd.imp ((hfirstOn ho).2 node) ((hrestOn ho).2 node)

end

/-! ## Members -/

/-- The object for an object type that is picked out: it has its type name, and the response keys
and entries of what is selected for all types and of what is selected for this one. Out of this type
none is picked out in turn, so no selection for it is lost. -/
structure Member (setting : Setting) (record? : String → Option String) (merging : List String)
    (common : Tally) (type : String) (fields : List (Field Schema)) (spreads : List String)
    (own : Tally) : Prop where
  distinct : (fields.map (·.key)).Nodup
  typeName : ⟨.text typeNameKey, textLiteral type, true⟩ ∈ fields
  amounts : ∃ concrete, setting.system.type? type = some concrete ∧ concrete.isObject ∧
    Step.Amounts setting record? (.enter merging concrete (common.selectionsFor type)) own
  pieces : own.pieces = []
  nodes : ∀ node ∈ ownNodes (common.selectionsFor type), node.key ∈ own.names
  keys : ∀ key, .text key ∈ fields.map (·.key) ↔
    key = typeNameKey ∨ key ∈ common.names ∨ key ∈ own.names
  entries : ∀ name, name ∈ spreads ↔ name ∈ common.spreads ∨ name ∈ own.spreads

/-- The schema is the object for an object type that is picked out. -/
def IsMember (setting : Setting) (record? : String → Option String) (merging : List String)
    (common : Tally) (type : String) (schema : Schema) : Prop :=
  ∃ fields spreads own, schema = .object fields .dropped spreads ∧
    Member setting record? merging common type fields spreads own

/-- The schema has one object for each object type that is picked out, in the order in which they
occur first. -/
def Unites (setting : Setting) (record? : String → Option String) (merging : List String)
    (common : Tally) (schema : Schema) : Prop :=
  ∃ members, schema = united members ∧
    Forall₂ (IsMember setting record? merging common) common.types members

/-- The schema of selections on an interface or a union: what is selected for all types and for
object types that are picked out is told, and if any are picked out, there is one object for each.
-/
def Narrowed (setting : Setting) (record? : String → Option String) (merging : List String)
    (parent : NamedType) (selections : List Selection) (schema : Schema) : Prop :=
  ∃ tally, Step.Amounts setting record? (.enter merging parent selections) tally ∧
    (tally.pieces ≠ [] → Unites setting record? merging tally schema)

/-- What is gathered is gathered for each name once, in the order in which the names occur first. -/
theorem keys_gather {α : Type} (join : α → α → α) (nothing : α) (pieces : List (String × α)) :
    ∀ gathered, Assoc.keys (gather join nothing gathered pieces) =
      unionNames (Assoc.keys gathered) (pieces.map (·.1)) := by
  induction pieces with
  | nil => exact fun gathered => rfl
  | cons piece rest ih =>
    intro gathered
    have hp : ∀ value, Assoc.keys (Assoc.put gathered piece.1 value) =
        if (Assoc.keys gathered).contains piece.1 then Assoc.keys gathered
        else Assoc.keys gathered ++ [piece.1] := by
      intro value
      rcases Assoc.keys_put gathered piece.1 value with hs | ⟨hn, hp⟩
      · have hm := (Assoc.mem_keys_put gathered piece.1 piece.1 value).mpr (Or.inr rfl)
        rw [hs] at hm ⊢
        rw [if_pos (by simpa using hm)]
      · rw [hp, if_neg (by simpa using hn)]
    rw [gather, foldl_cons, ← gather, ih, hp, map_cons, unionNames, unionNames, foldl_cons]

/-- What is gathered for a name is all that is given for it. -/
theorem getD_gather (pieces : List (String × List Selection)) (name : String) :
    ∀ gathered, (Assoc.get? (gather (· ++ ·) [] gathered pieces) name).getD [] =
      (Assoc.get? gathered name).getD [] ++ (pieces.filter (·.1 == name)).flatMap (·.2) := by
  induction pieces with
  | nil => simp [gather]
  | cons piece rest ih =>
    intro gathered
    rw [gather, foldl_cons, ← gather, ih]
    by_cases he : piece.1 = name
    · subst he
      simp [Assoc.get?_put_self]
    · simp [Assoc.get?_put_of_ne _ _ he, he]

theorem selections_of_mem_gather {piece : String × List Selection}
    (h : piece ∈ gather (· ++ ·) [] [] tally.pieces) :
    piece.2 = tally.selectionsFor piece.1 := by
  have hn : (Assoc.keys (gather (· ++ ·) [] [] tally.pieces)).Nodup := by
    rw [keys_gather]
    exact nodup_unionNames _ nodup_nil
  have hgetD := getD_gather tally.pieces piece.1 []
  rw [(Assoc.get?_eq_some_iff_mem hn).mpr h] at hgetD
  exact hgetD

theorem Tally.Apart.object (h : tally.Apart) {selected : Selected}
    (hk : ∀ pair ∈ selected.keys, pair ∈ tally.keys) : selected.object.UnionsApart := by
  refine Schema.unionsApart_of_children (fun _ he => by cases he) fun child hc => ?_
  simp only [Selected.object, Schema.children, Undeclared.schemas, append_nil, map_map] at hc
  obtain ⟨pair, hp, rfl⟩ := mem_map.mp hc
  exact h pair (hk pair hp)

/-- Selections are read to what they amount to. -/
def ReadsAmounts (setting : Setting) (record? : String → Option String) (read : SelectionReader) :
    Prop :=
  ∀ merging parent selections, Noted.Tells (fun _ => True) (fun tally =>
    Step.Amounts setting record? (.enter merging parent selections) tally ∧ tally.Apart)
      (read merging parent selections)

/-- One schema, or the union of several objects that are told apart. -/
theorem unionsApart_united {types : List String} {members : List Schema} (hty : types.Nodup)
    (hn : types ≠ []) (ht : Forall₂ TellsType types members)
    (hm : ∀ member ∈ members, member.UnionsApart) : (united members).UnionsApart := by
  match members with
  | [] => exact absurd (forall₂_nil_right_iff.mp ht) hn
  | [member] => exact hm member (mem_singleton_self _)
  | first :: second :: rest =>
    refine Schema.unionsApart_of_children (fun _ he => Or.inr ?_) hm
    cases he
    exact ⟨by simp, types, hty, ht⟩

section

variable (hregistry : setting.registry.UnionsApart)

include hregistry

/-- The object for an object type has all that is selected for it. -/
theorem isMember_member {type : String} {concrete : NamedType} {own : Tally}
    (ht : setting.system.type? type = some concrete) (ho : concrete.isObject)
    (hown : Step.Amounts setting record? (.enter merging concrete (tally.selectionsFor type)) own) :
    IsMember setting record? merging tally type
      ((Selected.empty.extendBy tally).member type own.toPortion) := by
  obtain ⟨hp, hn⟩ := (hown.of_serves hregistry (serves_enter _ _)).2 ho
  have hi : Function.Injective Atom.text := fun _ _ h => Atom.text.inj h
  have hk : ∀ keys : List (String × Described), (keys.map fun key : String × Described =>
      (⟨.text key.1, key.2.schema, key.2.required⟩ : Field Schema)).map (·.key) =
      (Assoc.keys keys).map .text := fun keys => by simp [Assoc.keys, Function.comp_def]
  refine ⟨_, _, own, Selected.member_eq .., ?distinct, ?typeName, ⟨concrete, ht, ho, hown⟩,
    hp, hn, fun key => ?keys, fun name => ?entries⟩
  case distinct =>
    rw [hk]
    exact (Assoc.nodup_keys_ofList _).map hi
  case typeName =>
    refine mem_map.mpr ⟨(typeNameKey, ⟨textLiteral type, true⟩), ?_, rfl⟩
    dsimp only
    rw [Assoc.ofList_concat]
    exact Assoc.mem_of_get?_eq_some (Assoc.get?_put_self ..)
  case keys =>
    have hc : key ∈ Assoc.keys (Selected.empty.extendBy tally).keys ↔ key ∈ tally.names :=
      Assoc.mem_keys_ofList tally.keys key
    rw [hk, mem_map_of_injective hi, Assoc.mem_keys_ofList, ← hc, Tally.names,
      Assoc.keys, Assoc.keys, map_append, map_append, map_cons, mem_append, mem_append, mem_cons]
    simp only [map_cons, map_nil, mem_singleton]
    tauto
  case entries => simp [Selected.extendBy, Selected.extend, Selected.empty, mem_unionNames]

/-- The object for an object type that is picked out. -/
theorem ReadsAmounts.readMember (hr : ReadsAmounts setting record? read) (hap : tally.Apart)
    (ha : Step.Amounts setting record? (.enter merging parent selections) tally)
    {piece : String × List Selection} (hp : piece ∈ gather (· ++ ·) [] [] tally.pieces) :
    Noted.Tells (fun _ => True)
      (fun member => member.UnionsApart ∧ IsMember setting record? merging tally piece.1 member)
      (GraphQL.readMember setting read merging (Selected.empty.extendBy tally) piece.1
        piece.2) := by
  obtain ⟨concrete, ht, ho⟩ := of_mem_gather
    (fun name _ => ∃ type, setting.system.type? name = some type ∧ type.isObject)
    (fun _ _ _ hf _ => hf) (fun _ _ hf => hf) tally.pieces [] (forall_mem_nil _)
    (ha.of_serves hregistry (serves_enter _ _)).1 piece hp
  unfold GraphQL.readMember
  rw [ht, selections_of_mem_gather hp]
  refine (hr merging concrete _).bind ?_
  rintro own ⟨hown, hownApart⟩
  refine Noted.tells_pure ⟨?_, isMember_member hregistry ht ho hown⟩
  obtain ⟨selected, he, hk, -⟩ := Selected.member_eq_object tally own piece.1
  have hal : (Tally.join [.key typeNameKey (textLiteral piece.1) true, tally, own]).Apart := by
    refine forall_mem_append.mpr ⟨forall_mem_singleton.mpr (Schema.unionsApart_of_isLeaf rfl), ?_⟩
    exact forall_mem_append.mpr ⟨hap, forall_mem_append.mpr ⟨hownApart, forall_mem_nil _⟩⟩
  rw [he]
  exact hal.object hk

/-- The schema of selections on a type has an object for each object type that is picked out. -/
theorem ReadsAmounts.readWhole (hr : ReadsAmounts setting record? read) (merging : List String)
    (parent : NamedType) (selections : List Selection) :
    Noted.Tells (fun _ => True) (fun schema => schema.UnionsApart ∧
      (parent.isAbstract → Narrowed setting record? merging parent selections schema))
      (GraphQL.readWhole setting read merging parent selections) := by
  rw [GraphQL.readWhole, bind_map_left]
  refine (hr merging parent selections).bind ?_
  rintro tally ⟨ha, hap⟩
  have he : (Selected.empty.extendBy tally).narrowed.isEmpty = tally.pieces.isEmpty :=
    isEmpty_gather _ _ _
  have ht : (gather (· ++ ·) [] [] tally.pieces).map (·.1) = tally.types := keys_gather ..
  split
  · rename_i hp
    refine (Noted.tells_mapM _ fun piece => hr.readMember hregistry hap ha).map
      fun members hal => ?_
    have hmm := forall_mem_of_forall₂ (hal.imp fun _ _ hm => hm.1)
    have hal : Forall₂ (IsMember setting record? merging tally) tally.types members :=
      ht ▸ forall₂_map_left_iff.mpr (hal.imp fun _ _ hm => hm.2)
    refine ⟨unionsApart_united (nodup_unionNames _ nodup_nil) ?_ (hal.imp ?_) hmm,
      fun _ => ⟨tally, ha, fun _ => ⟨members, rfl, hal⟩⟩⟩
    · intro (hn : tally.types = [])
      rw [← ht, map_eq_nil_iff] at hn
      simp [Selected.extendBy, Selected.extend, Selected.empty, hn] at hp
    · rintro type member ⟨fields, spreads, own, heq, hm⟩
      exact ⟨fields, spreads, heq, hm.distinct, hm.typeName⟩
  · rename_i hp
    have ho : (Selected.empty.extendBy tally).object.UnionsApart :=
      hap.object fun _ => Assoc.mem_of_mem_ofList
    refine Noted.tells_of fun _ => ⟨?_, fun hab => ⟨tally, ha, fun hne => ?_⟩⟩
    · unfold Selected.alone
      split
      · split
        · exact Schema.unionsApart_of_isLeaf rfl
        · split
          · exact Schema.unionsApart_of_isLeaf rfl
          · exact ho
      · exact ho
    · rw [he, hab] at hp
      simp [hne] at hp

theorem readsAmounts_readAll (fuel : ℕ) :
    ReadsAmounts setting record? (readAll setting record? fuel) := by
  induction fuel with
  | zero => exact fun _ _ _ _ _ he => by cases he
  | succ fuel ih =>
    intro merging parent selections
    have hst : ∀ selection ∈ selections, Noted.Tells (fun _ => True) (fun tally =>
        (stepOf setting record? merging parent selection).Amounts setting record? tally ∧
          tally.Apart)
          (readStep setting (readAll setting record? fuel) merging
            (stepOf setting record? merging parent selection)) := by
      intro selection _
      have hs : (stepOf setting record? merging parent selection).Serves setting _ _ :=
        serves_stepOf hregistry selection
      cases hc : stepOf setting record? merging parent selection with
      | done tally notes =>
        rw [hc] at hs
        exact Noted.tells_of fun _ => ⟨.done, hs.1⟩
      | field key type base inner =>
        exact (ih.readWhole hregistry merging base inner).map fun _ hsc =>
          ⟨.field, forall_mem_singleton.mpr (type.unionsApart_wrap hsc.1)⟩
      | enter more type inner => exact ih more type inner
    refine (Noted.tells_mapM selections hst).map fun tallies ha => ?_
    refine ⟨?_, forall_mem_flatMap.mpr (forall_mem_of_forall₂ (ha.imp fun _ _ h => h.2))⟩
    clear hst
    induction ha with
    | nil => exact .nil
    | cons hf _ ih => exact .cons hf.1 ih

end

/-! ## Selections that pick out object types -/

/-- If no fragment leads back to itself, selections on an interface or a union have a schema, which
is found at every depth beyond their weight. It has one object for each object type that they pick
out, in the order in which the types occur first: alone, or else in a union. Each object requires
the name of its type, and it has the response keys and the entries of fragments of what is selected
for all types and of what is selected for its own. If fragments lead back to themselves, a schema
that is found is of this form, too. So in the entries of fragments and responses a union adds null
to something, or has several objects that require different type names. -/
theorem discriminated_selections {setting : Setting} {library : Option String}
    {overrides : List (String × String)}
    (hregistry : Registry.ofName library overrides = .ok setting.registry) :
    (setting.documents.Acyclic → ∀ merging parent selections (start : Progress),
      parent.isAbstract = true → ∃ schema final,
        (∀ fuel, weight setting.documents.fragments + Selection.sizeOfAll selections < fuel →
          (selectionSchema setting (collect setting fuel) merging parent (some selections)).run
            start = .ok (schema, final)) ∧
        (Selection.sizeOfAll selections ≤ setting.documents.size →
          (schemaOf setting merging parent selections).run start = .ok (schema, final)) ∧
        Narrowed setting (Assoc.get? start.fragmentEntries) merging parent selections schema) ∧
    (∀ fuel merging parent selections (start : Progress) schema final, parent.isAbstract = true →
      (selectionSchema setting (collect setting fuel) merging parent (some selections)).run start =
          .ok (schema, final) →
        Narrowed setting (Assoc.get? start.fragmentEntries) merging parent selections schema) ∧
    ∀ result, catalog setting = .ok result → ∀ entry ∈ result.entries,
      entry.category = .fragment ∨ entry.category = .response → entry.schema.UnionsApart := by
  have hs : setting.registry.UnionsApart := Registry.unionsApart_of_ofName hregistry
  have hw : ∀ {fuel merging parent selections} {start final : Progress} {schema},
      (selectionSchema setting (collect setting fuel) merging parent (some selections)).run start =
          .ok (schema, final) → schema.UnionsApart ∧ (parent.isAbstract →
        Narrowed setting (Assoc.get? start.fragmentEntries) merging parent selections schema) := by
    intro fuel merging parent selections start final schema hr
    obtain ⟨notes, hrd, -⟩ :=
      (gives_selectionSchema (collects_readAll fuel) merging parent selections).of_run hr
    exact (readsAmounts_readAll hs fuel).readWhole hs merging parent selections schema
      notes hrd fun _ _ => trivial
  refine ⟨?acyclic, ?selections, ?entries⟩
  case acyclic =>
    intro hac merging parent selections start ha
    obtain ⟨schema, final, hrn⟩ :=
      exists_run_selectionSchema hac merging parent selections start
    exact ⟨schema, final, hrn, fun hsz => hrn _ (weight_lt_depth hsz),
      (hw (hrn _ (Nat.lt_succ_self _))).2 ha⟩
  case selections =>
    intro fuel merging parent selections start schema final ha hr
    exact (hw hr).2 ha
  case entries =>
    intro result hct entry he hc
    obtain ⟨position, content, hm, start, final, hr⟩ := made_of_catalog hct he
    generalize entry.category = category at hm hc
    generalize entry.name = name at hm
    cases hm with
    | enum | input | operationVariables => simp at hc
    | fragment | response => exact (hw hr).1

/-- Selections that pick out dogs by a fragment and cats in place. -/
def pickedSelections : List Selection :=
  [.spread "G" [], .inline (some "Cat") []
    [.field none "__typename" [] [] none, .field none "name" [] [] none]]

/-- A query with these selections. -/
def petsSetting : Setting :=
  ⟨thingSystem, ⟨[thingQuery pickedSelections],
    [thingFragment "G" "Dog" [.field none "name" [] [] none]], []⟩, none, Registry.defaults⟩

/-- The objects for dogs and cats. -/
def petMembers : List Schema :=
  [.object [⟨.text "__typename", textLiteral "Dog", true⟩] .dropped ["GFragment"],
    .object [⟨.text "__typename", textLiteral "Cat", true⟩, ⟨.text "name", Schema.text.nullable,
      false⟩] .dropped []]

/-- The response to the query. -/
def petsResponse : Entry :=
  Entry.of "QQuery" (.object [⟨.text "search", (Schema.union petMembers).nullable, false⟩] .dropped
    []) .response []

/-- The fragment spreads nothing. -/
theorem acyclic_petsSetting : petsSetting.documents.Acyclic := by
  have hn : ∀ name other, ¬ petsSetting.documents.Spreads name other := by
    rintro name other ⟨fragment, hf, ho⟩
    rw [mem_singleton.mp (mem_of_find?_eq_some hf)] at ho
    cases ho
  intro name hc
  cases hc with
  | single h | tail _ h => exact hn _ _ h

/-- The selections have a schema at the depth of the setting, with an object for dogs and one for
cats, and it is the union in the response of the query, whose members are told apart. -/
theorem discriminated_petMembers : Registry.ofName none [] = .ok petsSetting.registry ∧
    petsSetting.documents.Acyclic ∧
    (∃ final, (schemaOf petsSetting [] ⟨"Thing", .union⟩ pickedSelections).run
      ⟨[], [], [], [("G", "GFragment")]⟩ = .ok (.union petMembers, final)) ∧
    Narrowed petsSetting (Assoc.get? [("G", "GFragment")]) [] ⟨"Thing", .union⟩ pickedSelections
      (.union petMembers) ∧
    (∃ result, catalog petsSetting = .ok result ∧ petsResponse ∈ result.entries) ∧
    Schema.Part (.union petMembers) petsResponse.schema ∧ Discriminated petMembers := by
  obtain ⟨ha, hn, hen⟩ :=
    @discriminated_selections petsSetting none [] Registry.ofName_none
  obtain ⟨schema, final, hrn, hd, -⟩ := ha acyclic_petsSetting []
    ⟨"Thing", .union⟩ pickedSelections ⟨[], [], [], [("G", "GFragment")]⟩ rfl
  have hr : (selectionSchema petsSetting (collect petsSetting 10) [] ⟨"Thing", .union⟩
      (some pickedSelections)).run ⟨[], [], [], [("G", "GFragment")]⟩ =
        .ok (.union petMembers, ⟨[], [], [], [("G", "GFragment")]⟩) := rfl
  obtain ⟨rfl, -⟩ := Prod.mk.inj (Except.ok.inj ((hrn 10 (by decide)).symm.trans hr))
  obtain ⟨fragment, hc⟩ :
      ∃ fragment, catalog petsSetting = .ok ⟨[fragment, petsResponse], []⟩ := ⟨_, rfl⟩
  have hp : Schema.Part (.union petMembers) petsResponse.schema :=
    .field (mem_singleton_self _) (.alternative (mem_cons_self ..) .whole)
  have he : petsResponse ∈ [fragment, petsResponse] :=
    mem_cons_of_mem fragment (mem_singleton_self _)
  refine ⟨Registry.ofName_none, acyclic_petsSetting, ⟨final, hd (by decide)⟩,
    hn _ _ _ _ _ _ _ rfl hr, ⟨_, hc, he⟩, hp, ?_⟩
  refine (hen _ hc _ he (Or.inr rfl) petMembers hp).resolve_left ?_
  rintro ⟨inner, heq⟩
  cases heq

/-! ## Selections without an end -/

/-- An animal may have a friend. -/
def animalType : NamedType := ⟨"Animal", .interface [("friend", .named "Animal")]⟩

/-- A query for a pet. -/
def friendsQuery : NamedOperation :=
  ⟨"Q", .query, [], [.field none "pet" [] [] (some [.spread "F" []])], "pets"⟩

/-- Two fragments ask for an entry of one name, so the second one is merged in place. It leads back
to itself where cats are picked out. -/
def friendsSetting : Setting where
  system := ⟨[⟨"Query", .object [("pet", .named "Animal")]⟩, animalType,
    ⟨"Cat", .object [("friend", .named "Animal")]⟩], some "Query", none⟩
  documents := ⟨[friendsQuery],
    [thingFragment "f" "Cat" [.field none "__typename" [] [] none],
      thingFragment "F" "Animal" [.inline (some "Cat") []
        [.field none "friend" [] [] (some [.spread "F" []])]]], []⟩
  registry := ⟨none, Registry.defaults⟩

/-- A field is not read to the end if what is selected on it is not. -/
theorem readAll_field_eq_none {selection : Selection} {key : String} {type : TypeRef}
    {base : NamedType} {inner : List Selection} {fuel : ℕ}
    (hstep : stepOf setting record? merging parent selection = .field key type base inner)
    (hread : readWhole setting (readAll setting record? fuel) merging base inner = none) :
    readAll setting record? (fuel + 1) merging parent [selection] = none := by
  rw [readAll, mapM_cons, hstep, readStep, hread]
  rfl

/-- The fragment is no longer being merged when the selections for cats are read, so they are read
again at every depth. -/
theorem readWhole_friends (hrecord : record? "F" = none) (fuel : ℕ) :
    readWhole friendsSetting (readAll friendsSetting record? fuel) [] animalType
      [.spread "F" []] = none := by
  have hs : stepOf friendsSetting record? [] animalType (.spread "F" []) =
      .enter ["F"] animalType [.inline (some "Cat") []
        [.field none "friend" [] [] (some [.spread "F" []])]] := by
    rw [stepOf, spreadStep, hrecord]
    rfl
  induction fuel with
  | zero => rfl
  | succ fuel ih =>
    cases fuel with
    | zero =>
      rw [readWhole, readAll, mapM_cons, hs]
      rfl
    | succ fuel =>
      have hr : readAll friendsSetting record? (fuel + 2) [] animalType [.spread "F" []] =
          pure ⟨⟨[], []⟩, [("Cat", [.field none "friend" [] [] (some [.spread "F" []])])]⟩ := by
        rw [readAll, mapM_cons, hs]
        rfl
      have hm : ∀ common, [("Cat", [.field none "friend" [] [] (some [.spread "F" []])])].mapM
          (fun piece => readMember friendsSetting (readAll friendsSetting record? (fuel + 2)) []
            common piece.1 piece.2) = none := by
        intro common
        rw [mapM_cons]
        change ((do return common.member "Cat" (← readAll friendsSetting record? (fuel + 2) [] _
          _).toPortion : Noted Schema) >>= _) = none
        -- The friend of a cat is what the fragment is spread on once more.
        rw [readAll_field_eq_none rfl ih]
        rfl
      rw [readWhole, hr, map_pure, pure_bind]
      exact (if_pos rfl).trans (congrArg (united <$> ·) (hm _))

/-- The response of the query is not made, either. -/
theorem run_friends {start : Progress} (hstart : Assoc.get? start.fragmentEntries "F" = none) :
    (schemaOf friendsSetting [] ⟨"Query", .object [("pet", .named "Animal")]⟩
      [.field none "pet" [] [] (some [.spread "F" []])]).run start = .error .endless := by
  rw [(gives_schemaOf [] friendsSetting _ _).run start rfl, readSchema, readWhole]
  generalize friendsSetting.depth = depth
  cases depth with
  | zero => rfl
  | succ depth =>
    rw [readAll_field_eq_none rfl (readWhole_friends hstart depth)]
    rfl

/-- A response is not added if its schema is not made. -/
theorem run_addResponse_eq_error {operation : NamedOperation} {root : NamedType} {start : Progress}
    {error : BuildError} (hroot : setting.system.root? operation.kind = some root)
    (hfree : start.has (Name.responseEntry operation.name operation.kind.name) = false)
    (hschema : (schemaOf setting [] root operation.selections).run start = .error error) :
    (addResponse setting operation).run start = .error error := by
  rw [addResponse, hroot]
  dsimp only
  rw [StateT.run_bind, StateT.run_get, pure_bind, hfree, Bool.not_false, if_pos rfl,
    StateT.run_bind, hschema]
  rfl

/-- So there is no catalog of the query. -/
theorem catalog_friends : catalog friendsSetting = .error .endless := by
  have hi : friendsSetting.system.inputsOf friendsSetting.documents.operations = [] := rfl
  have he : friendsSetting.system.enumsOf friendsSetting.documents = [] := rfl
  have hp : (addPending friendsSetting (friendsSetting.system.types.length + 1)).run .start =
    pure ((), .start) := rfl
  obtain ⟨state, hf, hfr, hs⟩ : ∃ state : Progress,
      (friendsSetting.documents.fragments.forM (addFragment friendsSetting
        (friendsSetting.documents.fragments.length + 1) [])).run .start = pure ((), state) ∧
        state.has "QQuery" = false ∧ Assoc.get? state.fragmentEntries "F" = none :=
    ⟨_, rfl, rfl, rfl⟩
  have hr : (friendsSetting.documents.operations.forM (addOperation friendsSetting)).run
      state = .error .endless := by
    have hv : (addVariables friendsSetting friendsQuery).run state = pure ((), state) := rfl
    have her : (addResponse friendsSetting friendsQuery).run state = .error .endless :=
      run_addResponse_eq_error rfl hfr (run_friends hs)
    change ((addOperation friendsSetting friendsQuery) >>= fun _ => _).run state = _
    rw [StateT.run_bind, addOperation, StateT.run_bind, hv, pure_bind, her]
    rfl
  rw [catalog, addAll]
  simp only [StateT.run_bind, hi, he, filter_nil, List.forM, pure_bind]
  rw [hp, pure_bind, hf, pure_bind, hr]
  rfl

/-- Selections on an interface pick out cats, but they have a schema at no depth: a fragment without
an entry leads back to itself through what is selected for cats. So there is no catalog. -/
theorem narrowed_fragment_never_ends :
    (∃ tally, Step.Amounts friendsSetting (fun _ => none) (.enter [] animalType [.spread "F" []])
      tally ∧ tally.pieces ≠ []) ∧
    (∀ fuel (start : Progress), Assoc.get? start.fragmentEntries "F" = none →
      (selectionSchema friendsSetting (collect friendsSetting fuel) [] animalType
        (some [.spread "F" []])).run start = .error .endless) ∧
    catalog friendsSetting = .error .endless := by
  refine ⟨⟨_, .cons (.cons .done .nil) .nil, cons_ne_nil _ _⟩, fun fuel start hs => ?_,
    catalog_friends⟩
  rw [(gives_selectionSchema (collects_readAll fuel) [] animalType _).run start rfl,
    readWhole_friends hs]
  rfl

end GraphQL

end ApiSchema
