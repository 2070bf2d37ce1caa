/-
# Whose entry it is

The entries of types, fragments and operations share one space of names, and the names of operations
are put together from the words in them. An entry is made for the first to come. So under the names
of an operation there are the entries of the first operation of its kind with the same words, or the
entry of a type; an operation loses its entries in no other way.
-/
import ApiSchema.Proofs.Claims
import ApiSchema.Proofs.GraphQL.Description
import ApiSchema.Proofs.GraphQL.SpreadOrder

namespace ApiSchema.GraphQL

open List

variable {setting : Setting} {asked : Role → List NamedOperation} {progress : Progress}
  {kind kind' : OperationKind} {words : List Char} {recorded : List (String × String)}
  {entry : Entry} {fragment : SourcedFragment} {role : Role} {name : String}
  {operation : NamedOperation}

/-! ## Parts of operations -/

/-- What an entry of an operation is for. -/
inductive Role
  | operationVariables
  | response
deriving DecidableEq, Inhabited

/-- The category of an entry. -/
def Role.category : Role → Category
  | operationVariables => .operationVariables
  | response => .response

namespace NamedOperation

/-- The name that an operation asks for: for its variables if it has any, and for its response if
there is a type on which it selects. -/
def claim? (setting : Setting) (operation : NamedOperation) : Role → Option String
  | .operationVariables =>
    if operation.variableDefs.isEmpty then none
    else some (Name.variablesEntry operation.name operation.kind.name)
  | .response =>
    (setting.system.root? operation.kind).map fun _ =>
      Name.responseEntry operation.name operation.kind.name

/-- Two operations of one kind whose names have the same words. -/
def SharesNames (operation other : NamedOperation) : Prop :=
  operation.kind = other.kind ∧ Name.pascalCase operation.name = Name.pascalCase other.name

/-- The schema is what an operation describes in a role, where `recorded` are the entries of
fragments. -/
def Describes (setting : Setting) (recorded : List (String × String)) (operation : NamedOperation) :
    Role → Schema → Prop
  | .operationVariables, schema => schema = variablesDescription setting operation
  | .response, schema => ∃ root, setting.system.root? operation.kind = some root ∧
      selectionDescription setting recorded root operation.selections = .ok schema

end NamedOperation

/-! ## Names -/

/-- The end of the names of a role, which is told apart by the kind of the operation. -/
def Role.ending (kind : OperationKind) : Role → List Char
  | operationVariables => kind.title ++ "Variables".toList
  | response => kind.title

theorem Role.ending_suffix {role' : Role}
    (h : role.ending kind <:+ role'.ending kind') : role = role' ∧ kind = kind' := by
  revert h
  cases role <;> cases role' <;> cases kind <;> cases kind' <;> decide

/-- Names with words before these ends are different if anything about them is. -/
theorem Role.eq_of_append_ending {words' : List Char} {role' : Role}
    (h : words ++ role.ending kind = words' ++ role'.ending kind') :
    words = words' ∧ role = role' ∧ kind = kind' := by
  obtain ⟨rfl, rfl⟩ : role = role' ∧ kind = kind' := by
    rcases suffix_or_suffix_of_suffix ⟨words, h⟩ ⟨words', rfl⟩ with h | h
    · exact ending_suffix h
    · exact ⟨(ending_suffix h).1.symm, (ending_suffix h).2.symm⟩
  exact ⟨append_cancel_right h, rfl, rfl⟩

theorem Role.ending_ne_fragment : words ++ role.ending kind ≠ (Name.fragmentEntry name).toList := by
  intro h
  rw [Name.fragmentEntry, String.toList_append] at h
  rcases suffix_or_suffix_of_suffix ⟨words, h⟩ ⟨_, rfl⟩ with h | h <;> revert h <;>
    cases role <;> cases kind <;> decide

namespace NamedOperation

variable {operation other : NamedOperation} {role role' : Role} {name : String}

/-- An operation asks for a name made of its words and the end of the role. -/
theorem toList_of_claim? (h : operation.claim? setting role = some name) :
    name.toList = (Name.pascalCase operation.name).toList ++ role.ending operation.kind := by
  cases role with
  | operationVariables =>
    rw [claim?] at h
    split at h
    · cases h
    · simp [← Option.some.inj h, Name.variablesEntry, Name.responseEntry, Role.ending,
        OperationKind.capitalize_name]
  | response =>
    obtain ⟨_, -, rfl⟩ := Option.map_eq_some_iff.mp h
    simp [Name.responseEntry, Role.ending, OperationKind.capitalize_name]

theorem sharesNames_of_claim? (h : operation.claim? setting role = some name)
    (h' : other.claim? setting role' = some name) : role = role' ∧ operation.SharesNames other := by
  obtain ⟨hw, hr, hk⟩ := Role.eq_of_append_ending
    ((toList_of_claim? h).symm.trans (toList_of_claim? h'))
  exact ⟨hr, hk, String.toList_inj.mp hw⟩

end NamedOperation

/-! ## Origins -/

/-- Where an entry comes from: it is that of a type, that of a fragment, or the description of the
first operation that asks for its name. -/
inductive Origin (setting : Setting) (recorded : List (String × String))
    (asked : Role → List NamedOperation) : Entry → Prop
  | type {entry : Entry} (hcategory : entry.category = .enum ∨ entry.category = .input) :
      Origin setting recorded asked entry
  | fragment {fragment : SourcedFragment} (hfragment : fragment ∈ setting.documents.fragments)
      (hname : fragment.name ∈ Assoc.keys recorded) (schema : Schema) (extra : List String) :
      Origin setting recorded asked
        (Entry.of (Name.fragmentEntry fragment.name) schema .fragment extra)
  | part {role : Role} {operation : NamedOperation} {name : String} {schema : Schema}
      (hfirst : firstClaimant? (fun operation => operation.claim? setting role) (asked role) name =
        some operation)
      (hschema : operation.Describes setting recorded role schema) (extra : List String) :
      Origin setting recorded asked (Entry.of name schema role.category extra)

/-- An entry keeps its origin when more operations ask for names. -/
theorem Origin.ask
    (h : Origin setting recorded asked entry)
    (role : Role) (operation : NamedOperation) :
    Origin setting recorded (ApiSchema.ask asked role operation) entry := by
  cases h with
  | type hc => exact .type hc
  | fragment hf hn schema extra => exact .fragment hf hn schema extra
  | part hfr hs extra => exact .part (firstClaimant?_ask hfr) hs extra

/-- What holds between the steps: every entry has an origin, every operation that has asked for a
name finds an entry under it, and the entries of fragments have their names. -/
structure Owned (setting : Setting) (asked : Role → List NamedOperation) (progress : Progress) :
    Prop where
  origin : ∀ entry ∈ progress.entries, Origin setting progress.fragmentEntries asked entry
  answered : ∀ role, ∀ operation ∈ asked role, ∀ name, operation.claim? setting role = some name →
    name ∈ progress.entries.map (·.name)
  recorded : ∀ pair ∈ progress.fragmentEntries, pair.2 = Name.fragmentEntry pair.1

namespace Owned

variable {base : Progress}

theorem start (setting : Setting) : Owned setting (fun _ => []) .start :=
  ⟨by simp [Progress.start], by simp, by simp [Progress.start]⟩

/-- A state with the same entries is as good. -/
theorem of_same (h : Owned setting asked base) (he : progress.entries = base.entries)
    (hr : progress.fragmentEntries = base.fragmentEntries) :
    Owned setting asked progress := by
  constructor
  case origin =>
    rw [he, hr]
    exact h.origin
  case answered =>
    rw [he]
    exact h.answered
  case recorded =>
    rw [hr]
    exact h.recorded

/-- The entry of a type may be added. -/
theorem add_type (h : Owned setting asked progress) (name : String) (schema : Schema)
    {category : Category} (hc : category = .enum ∨ category = .input) :
    Owned setting asked (progress.add name schema category) where
  origin := forall_mem_concat h.origin (.type hc)
  answered := by
    intro role operation ho other hcl
    rw [Progress.add, map_append]
    exact mem_append_left _ (h.answered role operation ho other hcl)
  recorded := h.recorded

/-- The entry of a fragment may be added as long as no operation has asked for a name: from then on
the descriptions of operations refer to it. -/
theorem add_fragment (h : Owned setting (fun _ => []) progress)
    (hf : fragment ∈ setting.documents.fragments) (schema : Schema) :
    Owned setting (fun _ => [])
      { progress.add (Name.fragmentEntry fragment.name) schema .fragment with
        fragmentEntries :=
          Assoc.put progress.fragmentEntries fragment.name (Name.fragmentEntry fragment.name) }
    where
  origin := by
    refine forall_mem_concat (fun entry he => ?_)
      (.fragment hf ((Assoc.mem_keys_put ..).mpr (Or.inr rfl)) schema _)
    cases h.origin entry he with
    | type hc => exact .type hc
    | fragment ho hn schema extra =>
      exact .fragment ho ((Assoc.mem_keys_put ..).mpr (Or.inl hn)) schema extra
    -- No operation is first while none has asked, so no description has to follow the record.
    | part hfr => cases hfr
  answered := by simp
  recorded := by
    intro pair hp
    rcases Assoc.mem_put hp with rfl | hp
    · rfl
    · exact h.recorded pair hp

section

variable (h : Owned setting asked progress)
include h

/-- An operation that finds an entry under the name it asks for has been answered. -/
theorem answer
    (hn : ∀ name, operation.claim? setting role = some name →
      name ∈ progress.entries.map (·.name)) :
    Owned setting (ask asked role operation) progress where
  origin := fun entry he => (h.origin entry he).ask role operation
  answered := by
    intro role' other ho name hc
    rcases of_mem_ask ho with ho | ⟨rfl, rfl⟩
    · exact h.answered role' other ho name hc
    · exact hn name hc
  recorded := h.recorded

theorem answer_of_has
    (hc : operation.claim? setting role = some name)
    (hh : progress.has name) : Owned setting (ask asked role operation) progress := by
  refine h.answer fun other ho => ?_
  rw [hc] at ho
  rw [← Option.some.inj ho]
  exact (Progress.has_iff ..).mp hh

/-- The entry that an operation asks for may be added if its name is new. -/
theorem add_part
    (hc : operation.claim? setting role = some name)
    (hn : name ∉ progress.entries.map (·.name)) {schema : Schema}
    (hs : operation.Describes setting progress.fragmentEntries role schema) :
    Owned setting (ask asked role operation) (progress.add name schema role.category) := by
  have hf : firstClaimant? (fun operation => operation.claim? setting role)
      (ask asked role operation role) name = some operation :=
    firstClaimant?_ask_self
      (fun earlier he he' => hn (h.answered role earlier he name he'))
      hc
  constructor
  case origin =>
    exact forall_mem_concat (fun entry hen => (h.origin entry hen).ask role operation)
      (.part hf hs _)
  case answered =>
    intro role' other ho name' hc'
    rw [Progress.add, map_append]
    rcases of_mem_ask ho with ho | ⟨rfl, rfl⟩
    · exact mem_append_left _ (h.answered role' other ho name' hc')
    · rw [hc] at hc'
      rw [← Option.some.inj hc']
      exact mem_append_right _ (mem_singleton_self _)
  case recorded => exact h.recorded

end

end Owned

/-! ## Steps -/

/-- The entries are in order, and each has its origin. -/
def Tended (setting : Setting) (asked : Role → List NamedOperation) (progress : Progress) : Prop :=
  Traced setting progress ∧ Owned setting asked progress

section

theorem ensures_tended {step : Builder Unit} {asked' : Role → List NamedOperation}
    (ht : Ensures (Traced setting) step fun _ => Traced setting)
    (ho : Ensures (Tended setting asked) step fun _ => Owned setting asked') :
    Ensures (Tended setting asked) step fun _ => Tended setting asked' :=
  (ht.consequence (fun _ h => h.1) fun _ _ h => h).and ho

theorem ensures_of_tended {α : Type} {step : Builder α} {post : α → Progress → Prop}
    {current : Progress}
    (h : Owned setting asked current → Ensures (fun progress => progress = current) step post) :
    Ensures (fun progress => progress = current ∧ Tended setting asked progress) step post := by
  rintro start result final ⟨rfl, -, ho⟩ hr
  exact h ho start result final rfl hr

theorem ensures_owned_warn (text : String) :
    Ensures (Owned setting asked) (Builder.warn text) fun _ => Owned setting asked := by
  have ha := fun progress => amid_warn setting progress text
  exact ensures_modify fun progress h => h.of_same (ha progress).entries (ha progress).recorded

/-- Entries of types may be added whatever has been asked for. -/
theorem assembling_tended (hr : setting.registry.Nameless) :
    Assembling setting (Tended setting asked) fun category =>
      category = .enum ∨ category = .input where
  warn h text := ⟨h.1.amid (amid_warn setting _ text), ensures_owned_warn text _ _ _ h.2 rfl⟩
  content := by
    intro position name category content hc hm start schema final hs hrn
    obtain ⟨ht, hadd⟩ :=
      (assembling_traced hr).content trivial hm start schema final hs.1 hrn
    have ha := hm.amid start start schema final rfl hrn
    have ho := hs.2.of_same ha.entries ha.recorded
    exact ⟨⟨ht, ho⟩, fun hh => ⟨hadd hh, ho.add_type _ _ hc⟩⟩
  record hc := by simp at hc

theorem Tended.dequeue (h : Tended setting asked progress) {type : NamedType}
    {rest : List NamedType} (hp : progress.pending = type :: rest) :
    setting.system.type? type.name = some type ∧
      Tended setting asked { progress with pending := rest } :=
  ⟨(h.1.dequeue hp).1, (h.1.dequeue hp).2, h.2.of_same rfl rfl⟩

/-- Adding the entry of a fragment, before operations have asked for names. -/
theorem ensures_owned_addFragmentEntry (hf : fragment ∈ setting.documents.fragments) :
    Ensures (Tended setting fun _ => []) (addFragmentEntry setting fragment) fun _ =>
      Owned setting fun _ => [] := by
  have hw : ∀ text, Ensures (Tended setting fun _ => []) (Builder.warn text) fun _ =>
      Owned setting fun _ => [] :=
    fun text => (ensures_owned_warn text).consequence (fun _ h => h.2) fun _ _ h => h
  unfold addFragmentEntry
  split
  · exact hw _
  · rename_i type ht
    split
    · exact hw _
    · refine ensures_get_bind fun current => ?_
      split
      · refine ensures_of_tended fun ho => ?_
        refine ensures_bind ((Setting.Makes.fragment hf ht).amid current) fun schema =>
          ensures_modify fun progress h => ?_
        exact (ho.of_same h.entries h.recorded).add_fragment hf schema
      · exact ensures_pure fun _ h => h.2.2

/-- Adding the entry of the variables of an operation. -/
theorem ensures_owned_addVariables
    (hop : operation ∈ setting.documents.operations) :
    Ensures (Tended setting asked) (addVariables setting operation) fun _ =>
      Owned setting (ask asked .operationVariables operation) := by
  unfold addVariables
  split
  · rename_i hs
    have hc : operation.claim? setting .operationVariables =
        some (Name.variablesEntry operation.name operation.kind.name) := by
      rw [NamedOperation.claim?, if_neg (by simpa using hs)]
    intro base result final hb hr
    -- The fields are read before the name is looked up, in states that differ from the first one
    -- only in warnings and in the queue.
    suffices ha : Ensures (fun progress => progress = base) _ (fun _ =>
        Owned setting (ask asked .operationVariables operation)) from
      ha base result final rfl hr
    have hfl : Ensures (fun progress => progress = base)
        (operation.variableDefs.mapM (variableField setting operation.name))
        fun fields progress => Amid setting base progress ∧
          Selected.object ⟨Assoc.ofList fields, [], []⟩ =
            variablesDescription setting operation := by
      rintro _ fields final rfl hr
      refine ⟨((Setting.Makes.operationVariables hop).amid _).of_bind_pure _ _ _ rfl hr, ?_⟩
      obtain ⟨_, hrd, -⟩ := (gives_variableFields operation).of_run hr
      cases hrd
      rfl
    refine ensures_bind hfl fun fields => ?_
    refine ensures_get_bind fun current => ?_
    split
    · rename_i hh
      refine ensures_modify ?_
      rintro progress ⟨rfl, hf, hv⟩
      have ho := hb.2.of_same hf.entries hf.recorded
      rw [hv]
      exact ho.add_part hc (not_mem_of_has_eq_false (by simpa using hh)) rfl
    · rename_i hh
      refine ensures_pure ?_
      rintro progress ⟨rfl, hf, -⟩
      have ho := hb.2.of_same hf.entries hf.recorded
      exact ho.answer_of_has hc (by simpa using hh)
  · rename_i hnn
    refine ensures_pure fun progress h => h.2.answer fun name hn => ?_
    rw [NamedOperation.claim?, if_pos (by simpa using hnn)] at hn
    cases hn

/-- Adding the entry of the response of an operation. -/
theorem ensures_owned_addResponse
    (hop : operation ∈ setting.documents.operations) :
    Ensures (Tended setting asked) (addResponse setting operation) fun _ =>
      Owned setting (ask asked .response operation) := by
  unfold addResponse
  split
  · rename_i hr
    refine (ensures_owned_warn _).consequence (fun _ h => h.2) fun _ _ h =>
      h.answer fun name hn => ?_
    rw [NamedOperation.claim?, hr] at hn
    cases hn
  · rename_i root hr
    have hc : operation.claim? setting .response =
        some (Name.responseEntry operation.name operation.kind.name) := by
      rw [NamedOperation.claim?, hr]
      rfl
    refine ensures_get_bind fun current => ?_
    split
    · rename_i hh
      refine ensures_of_tended fun ho => ?_
      have hs := ((Setting.Makes.response hop hr).amid current).and
        ((ensures_selectionDescription root operation.selections).consequence
          (fun progress h => congrArg Progress.fragmentEntries h) fun _ _ h => h)
      refine ensures_bind hs fun schema => ensures_modify fun progress h => ?_
      refine (ho.of_same h.1.entries h.1.recorded).add_part hc ?_ ?_
      · rw [h.1.entries]
        exact not_mem_of_has_eq_false (by simpa using hh)
      · rw [h.1.recorded]
        exact ⟨root, hr, h.2⟩
    · rename_i hh
      refine ensures_pure ?_
      rintro progress ⟨rfl, -, ho⟩
      exact ho.answer_of_has hc (by simpa using hh)

/-- All entries are added in order, each with its origin. -/
theorem ensures_tended_addAll (hr : setting.registry.Nameless) :
    Ensures (Tended setting fun _ => []) (addAll setting) fun _ progress =>
      Tended setting (fun _ => setting.documents.operations) progress ∧ progress.pending = [] := by
  have ht := @assembling_tended setting (fun _ => []) hr
  refine @ensures_addAll setting (fun done => Tended setting fun _ => done)
    (ht.addEnum (Or.inl rfl)) (ht.addInput (Or.inr rfl))
    (fun h hp => (assembling_tended hr).taken (Or.inl rfl) (Or.inr rfl)
      (h.dequeue hp))
    (fun fragment hf => ensures_tended
      ((assembling_traced hr).addFragmentEntry trivial hf)
      (ensures_owned_addFragmentEntry hf)) fun before operation after hs => ?_
  have ho : operation ∈ setting.documents.operations := by simp [hs]
  -- The operation asks in both roles, so from then on it is among those that have asked in each.
  have ha : ask (ask (fun _ => before) Role.operationVariables operation) .response operation =
      fun _ => before ++ [operation] := by
    funext role
    cases role <;> rfl
  rw [← ha]
  exact ensures_bind (ensures_tended
    ((assembling_traced hr).addVariables trivial ho)
      (ensures_owned_addVariables ho)) fun _ =>
        ensures_tended ((assembling_traced hr).addResponse trivial ho)
          (ensures_owned_addResponse ho)

end

/-! ## Catalogs -/

/-- The entry is that of an enumeration or an input object of its name. -/
def IsTypeEntry (setting : Setting) (entry : Entry) : Prop :=
  ∃ type, setting.system.type? entry.name = some type ∧
    (type.isEnum = true ∧ entry.category = .enum ∨ type.isInput = true ∧ entry.category = .input)

/-- The entry is the description of an operation in a role. -/
def IsOperationEntry (setting : Setting) (recorded : List (String × String))
    (operation : NamedOperation) (role : Role) (entry : Entry) : Prop :=
  entry.category = role.category ∧ operation.Describes setting recorded role entry.schema

/-- The entries of fragments are recorded, each under the name of its fragment. -/
structure Records (recorded : List (String × String)) (entries : List Entry) : Prop where
  named : ∀ pair ∈ recorded, pair.2 = Name.fragmentEntry pair.1
  present : ∀ pair ∈ recorded, IsFragmentName entries pair.2
  complete : ∀ entry ∈ entries, entry.category = .fragment → ∃ pair ∈ recorded, pair.2 = entry.name

namespace Tended

variable (h : Tended setting asked progress)
include h

/-- The entry of an enumeration or an input object has the name of its type. -/
theorem isTypeEntry
    (he : entry ∈ progress.entries)
    (hc : entry.category = .enum ∨ entry.category = .input) :
    IsTypeEntry setting entry := by
  obtain ⟨before, after, hsp⟩ := append_of_mem he
  have hs := (h.1.built.of_split hsp).source
  rcases hc with hc | hc <;> rw [hc] at hs
  · cases hs with
    | enum ht =>
      obtain ⟨type, ht, hen⟩ := ht
      exact ⟨type, ht, Or.inl ⟨hen, hc⟩⟩
  · cases hs with
    | input ht hi => exact ⟨_, ht, Or.inr ⟨hi, hc⟩⟩

/-- The entries of fragments are recorded. -/
theorem records : Records progress.fragmentEntries progress.entries where
  named := h.2.recorded
  present := h.1.merged
  complete := by
    intro entry he hc
    cases h.2.origin entry he with
    | type ht => simp [hc] at ht
    | fragment _ hn schema extra =>
      obtain ⟨pair, hp, heq⟩ := mem_map.mp hn
      exact ⟨pair, hp, heq ▸ h.2.recorded pair hp⟩
    | @part role _ _ _ _ _ _ => cases role <;> cases hc

/-- Under a name that an operation has asked for, there is the entry of a type, or that of the first
operation that has asked for the name. -/
theorem isOperationEntry
    (ho : operation ∈ asked role)
    (hc : operation.claim? setting role = some entry.name) (he : entry ∈ progress.entries) :
    IsTypeEntry setting entry ∨ ∃ first,
      firstClaimant? (fun other => other.claim? setting role) (asked role) entry.name = some first ∧
        first.SharesNames operation ∧
        IsOperationEntry setting progress.fragmentEntries first role entry := by
  cases h.2.origin entry he with
  | type ht => exact Or.inl (h.isTypeEntry he ht)
  | fragment _ hn schema extra =>
    exact absurd (NamedOperation.toList_of_claim? hc).symm Role.ending_ne_fragment
  | @part role' first name schema hf hs extra =>
    have hcl := claim?_of_firstClaimant? hf
    obtain ⟨rfl, hsh⟩ := NamedOperation.sharesNames_of_claim? hcl hc
    exact Or.inr ⟨first, hf, hsh, rfl, hs⟩

end Tended

/-- Putting the entries in order keeps the record. -/
theorem Records.topologicalSort {entries : List Entry}
    (h : Records recorded entries) (hd : (entries.map (·.name)).Nodup) :
    Records recorded (topologicalSort entries) where
  named := h.named
  present := by
    intro pair hp
    obtain ⟨entry, he, hr⟩ := h.present pair hp
    exact ⟨entry, mem_topologicalSort_of_mem hd he, hr⟩
  complete := fun entry he => h.complete entry (mem_of_mem_topologicalSort he)

/-- Whatever the type system and the documents are, each operation finds an entry in the catalog
under each name it asks for. It is the entry of a type of this name, or that of the first operation
that asks for the name, which is of the same kind and has the same words in its name. So an
operation has its own entries if no enumeration and no input object has their names and no other
operation of its kind has the same words in its name. -/
theorem operation_entries_go_to_first {system : TypeSystem} {documents : Documents}
    {library : Option String} {overrides : List (String × String)} {registry : Registry}
    (hregistry : Registry.ofName library overrides = .ok registry) {result : Catalog}
    (hcatalog : catalog ⟨system, documents, registry⟩ = .ok result) :
    (result.entries.map (·.name)).Nodup ∧ ∃ recorded, Records recorded result.entries ∧
      ∀ role, ∀ operation ∈ documents.operations, ∀ name,
        operation.claim? ⟨system, documents, registry⟩ role = some name →
          ∃ entry ∈ result.entries, entry.name = name ∧
            (IsTypeEntry ⟨system, documents, registry⟩ entry ∨ ∃ first,
              firstClaimant? (fun other => other.claim? ⟨system, documents, registry⟩ role)
                documents.operations name = some first ∧ first.SharesNames operation ∧
              IsOperationEntry ⟨system, documents, registry⟩ recorded first role entry) ∧
            ((∀ type, system.type? name = some type → type.isEnum = false ∧ type.isInput = false) →
              (∀ other ∈ documents.operations, other.SharesNames operation → other = operation) →
              IsOperationEntry ⟨system, documents, registry⟩ recorded operation role entry) := by
  obtain ⟨⟨_, progress⟩, hrn, hr⟩ := of_bind_eq_ok hcatalog
  cases hr
  obtain ⟨ht, -⟩ := ensures_tended_addAll (Registry.nameless_of_ofName hregistry) _ _ _
    ⟨Traced.start _, Owned.start _⟩ hrn
  have hd : (progress.entries.map (·.name)).Nodup :=
    ht.1.built.nodup fun _ _ hg => hg.fresh
  refine ⟨nodup_names_topologicalSort _, progress.fragmentEntries,
    ht.records.topologicalSort hd, ?_⟩
  intro role operation ho name hc
  obtain ⟨entry, he, rfl⟩ :=
    mem_map.mp (ht.2.answered role operation ho name hc)
  have hw := ht.isOperationEntry ho hc he
  refine ⟨entry, mem_topologicalSort_of_mem hd he, rfl, hw, fun hty ha => ?_⟩
  rcases hw with ⟨type, htyp, hk⟩ | ⟨first, hf, hs, he⟩
  · obtain ⟨hen, hi⟩ := hty type htyp
    simp [hen, hi] at hk
  · rw [← ha first (mem_of_firstClaimant? hf) hs]
    exact he

/-! ## Two operations with the same words -/

/-- The type on which the operations select. -/
def pairRoot : NamedType := ⟨"Query", .object [("a", .named "Kind"), ("b", .named "Kind")]⟩

/-- A type with two fields, and an enumeration. -/
def pairSystem : TypeSystem where
  types := [pairRoot, ⟨"Kind", .enum ["CAT", "DOG"]⟩]
  query := some "Query"
  mutation := none

/-- The operation that comes first. -/
def firstOperation : NamedOperation :=
  ⟨"get_a", .query, [], [.field none "a" [] [] none], "pair"⟩

/-- The operation that comes second, with another name that has the same words. -/
def secondOperation : NamedOperation :=
  ⟨"getA", .query, [⟨"kind", .named "Kind", none, []⟩], [.field none "b" [] [] none], "pair"⟩

/-- Documents with the two operations. -/
def pairDocuments : Documents := ⟨[firstOperation, secondOperation], [], []⟩

/-- The two operations and what they are read against. -/
def pairSetting : Setting := ⟨pairSystem, pairDocuments, ⟨none, Registry.defaults⟩⟩

/-- The response is that of the first operation. The variables are those of the second one, since
the first one has none. -/
theorem pair_entries_go_to_first :
    ∃ result, catalog pairSetting = .ok result ∧ ∃ recorded, Records recorded result.entries ∧
      (∃ entry ∈ result.entries, entry.name = "GetAQuery" ∧
        IsOperationEntry pairSetting recorded firstOperation .response entry) ∧
      ∃ entry ∈ result.entries, entry.name = "GetAQueryVariables" ∧
        IsOperationEntry pairSetting recorded secondOperation .operationVariables entry := by
  obtain ⟨result, hr⟩ : ∃ result, catalog pairSetting = .ok result := ⟨_, rfl⟩
  obtain ⟨-, recorded, hrc, he⟩ := operation_entries_go_to_first Registry.ofName_none
    hr
  have hf : ∀ role, ∀ operation ∈ pairDocuments.operations, ∀ name,
      operation.claim? pairSetting role = some name → pairSystem.type? name = none →
      firstClaimant? (fun other => other.claim? pairSetting role) pairDocuments.operations name =
        some operation →
      ∃ entry ∈ result.entries, entry.name = name ∧
        IsOperationEntry pairSetting recorded operation role entry := by
    intro role operation ho name hc hn hfr
    obtain ⟨entry, hen, rfl, hw, -⟩ := he role operation ho name hc
    refine ⟨entry, hen, rfl, ?_⟩
    rcases hw with ⟨type, ht, -⟩ | ⟨first, hf', -, hown⟩
    · cases hn.symm.trans ht
    · rwa [Option.some.inj (hfr.symm.trans hf')]
  refine ⟨result, hr, recorded, hrc, ?_, ?_⟩
  · exact hf .response firstOperation (by simp [pairDocuments]) "GetAQuery" rfl rfl rfl
  · exact hf .operationVariables secondOperation (by simp [pairDocuments])
      "GetAQueryVariables" rfl rfl rfl

/-- The names of the operations differ, and there is a type on which the second one selects, but no
entry of the catalog has its response. -/
theorem secondOperation_loses_response : (pairDocuments.operations.map (·.name)).Nodup ∧
      secondOperation.claim? pairSetting .response = some "GetAQuery" ∧
      ∃ result, catalog pairSetting = .ok result ∧ ∀ recorded, ∀ entry ∈ result.entries,
        ¬ IsOperationEntry pairSetting recorded secondOperation .response entry := by
  have hct : catalog pairSetting = .ok
      ⟨[Entry.of "Kind" (.enumeration [.atom (.text "CAT"), .atom (.text "DOG")]) .enum [],
        Entry.of "GetAQuery" (.object [⟨.text "a", .nullable (.ref "Kind"), false⟩] .dropped [])
          .response [],
        Entry.of "GetAQueryVariables"
          (.object [⟨.text "kind", .nullable (.ref "Kind"), false⟩] .dropped [])
          .operationVariables []], []⟩ := rfl
  refine ⟨by decide, rfl, _, hct, ?_⟩
  rintro recorded entry he ⟨hc, root, hr, hs⟩
  obtain rfl : pairRoot = root := Option.some.inj hr
  have hsc : selectionDescription pairSetting recorded pairRoot secondOperation.selections =
      .ok (.object [⟨.text "b", .nullable (.ref "Kind"), false⟩] .dropped []) := rfl
  have hf := Except.ok.inj (hsc.symm.trans hs)
  simp only [mem_cons, not_mem_nil, or_false] at he
  rcases he with rfl | rfl | rfl
  · cases hc
  · simp [Entry.of] at hf
  · cases hc

end ApiSchema.GraphQL
