/-
# How a catalog is put together

Each entry has a content: a step that gives its schema, for what is at a position. Between the
contents, the state changes by warnings, by the entries that are added, by the record of fragments
and by the queue. So a property of states lasts to the end if the contents keep it and it lasts when
an entry with its content is added.
-/
import ApiSchema.Proofs.GraphQL.Description
import ApiSchema.Proofs.GraphQL.Sources
import ApiSchema.Proofs.GraphQL.Variation
import ApiSchema.Proofs.Order

namespace ApiSchema.GraphQL

open List

variable {position : Position} {name : String} {category : Category} {content : Builder Schema}
  {type : NamedType} {operation : NamedOperation}

/-! ## Contents of entries -/

/-- An entry of a name and a category is made for what is at a position. The step gives its
schema. -/
inductive Setting.Makes (setting : Setting) : Position → String → Category → Builder Schema → Prop
  | enum {type : NamedType} {values : List String}
      (htype : setting.system.type? type.name = some type) (hkind : type.kind = .enum values) :
      Makes setting (.enumValues values) type.name .enum
        (pure (.enumeration (values.map fun value => .atom (.text value))))
  | input {type : NamedType} {fields : List InputField}
      (htype : setting.system.type? type.name = some type) (hkind : type.kind = .input fields) :
      Makes setting (.inputFields fields) type.name .input
        (do return .object (← fields.mapM (inputField setting)) .dropped [])
  | fragment {fragment : SourcedFragment} {type : NamedType}
      (hmem : fragment ∈ setting.documents.fragments)
      (htype : setting.system.type? fragment.condition = some type) :
      Makes setting (.selected type fragment.selections) (Name.fragmentEntry fragment.name)
        .fragment (schemaOf setting [fragment.name] type fragment.selections)
  | operationVariables {operation : NamedOperation}
      (hmem : operation ∈ setting.documents.operations) :
      Makes setting (.variableDefs operation.variableDefs)
        (Name.variablesEntry operation.name operation.kind.name) .operationVariables
        (do return Selected.object ⟨Assoc.ofList
          (← operation.variableDefs.mapM (variableField setting operation.name)), [], []⟩)
  | response {operation : NamedOperation} {root : NamedType}
      (hmem : operation ∈ setting.documents.operations)
      (hroot : setting.system.root? operation.kind = some root) :
      Makes setting (.selected root operation.selections)
        (Name.responseEntry operation.name operation.kind.name) .response
        (schemaOf setting [] root operation.selections)

variable {setting : Setting}

/-- The type may be queued: it is an enumeration or an input object of the system. -/
def Setting.Queues (setting : Setting) (type : NamedType) : Prop :=
  setting.system.type? type.name = some type ∧ (type.isEnum = true ∨ type.isInput = true)

theorem queues_of_mem_inputNotes (h : .queued type ∈ inputNotes setting name) :
    setting.Queues type := by
  unfold inputNotes scalarNotes at h
  split at h
  · cases h
  · rename_i found ht
    have ht := TypeSystem.type?_name ht
    split at h
    · split at h <;> simp at h
    · rename_i hk
      cases mem_singleton.mp h
      exact ⟨ht, Or.inl (by simp [NamedType.isEnum, hk])⟩
    · rename_i hk
      cases mem_singleton.mp h
      exact ⟨ht, Or.inr (by simp [NamedType.isInput, hk])⟩
    · cases h

theorem queues_of_mem_variableNotes {operation : String}
    (h : .queued type ∈ variableNotes setting operation name) : setting.Queues type := by
  unfold variableNotes at h
  split at h
  · cases h
  · split at h
    · exact queues_of_mem_inputNotes h
    · simp at h

/-- While a content is made, only warnings are given and enumerations and input objects queued. -/
def Amid (setting : Setting) (before after : Progress) : Prop :=
  ∃ notes, after = before.noteAll notes ∧ ∀ type, .queued type ∈ notes → setting.Queues type

section

variable {before after : Progress} (h : Amid setting before after)

include h

theorem Amid.entries : after.entries = before.entries := by
  obtain ⟨notes, rfl, -⟩ := h
  exact (before.entries_noteAll notes).1

theorem Amid.recorded : after.fragmentEntries = before.fragmentEntries := by
  obtain ⟨notes, rfl, -⟩ := h
  exact (before.entries_noteAll notes).2

theorem Amid.kept : before.pending ⊆ after.pending := by
  obtain ⟨notes, rfl, -⟩ := h
  exact before.pending_subset_noteAll notes

theorem Amid.warnings : before.warnings ⊆ after.warnings := by
  obtain ⟨notes, rfl, -⟩ := h
  exact fun text ht => Progress.mem_warnings_noteAll.mpr (Or.inl ht)

theorem Amid.queued : ∀ type ∈ after.pending, type ∈ before.pending ∨ setting.Queues type := by
  obtain ⟨notes, rfl, hn⟩ := h
  exact fun type ht => (Progress.of_mem_pending_noteAll ht).imp_right (hn type)

theorem Amid.known (hb : setting.system.Known before.pending) :
    setting.system.Known after.pending :=
  fun type ht => (h.queued type ht).elim (hb type) And.left

end

section

variable {exempt : Position → Prop} {usable : Bool → String → Prop} {progress : Progress}
  (hexempting : Exempting setting progress exempt usable)
  (hinput : ∀ {type : NamedType}, progress.Holds type.name →
    setting.system.type? type.name = some type → type.isInput → usable false type.name)

include hexempting hinput

/-- The schema of a named type in an input position has its source. -/
theorem derived_inputLeaf (hn : position.typeName? = some name)
    (hm : setting.system.type? name = none → exempt position)
    (hc : ∀ {type}, setting.system.type? name = some type → type.isComposite →
      exempt position)
    (hs : ∀ note ∈ inputNotes setting name, progress.Shows note) :
    Derived setting exempt usable position (inputLeafSchema setting name) := by
  unfold inputNotes scalarNotes at hs
  unfold inputLeafSchema leafSchema
  cases ht : setting.system.type? name with
  | none => exact .unknown (hm ht)
  | some type =>
    rw [ht] at hs
    have hq : (∀ note ∈ [Note.queued type], progress.Shows note) → type.isEnum ∨ type.isInput →
        Derived setting exempt usable position (.ref type.name) := by
      intro hs hk
      have hh := hs _ (mem_singleton_self _)
      refine ⟨.ref hn ht hk, Schema.usesOnly_ref ?_⟩
      exact hk.elim (hexempting.queued hh (TypeSystem.type?_name ht))
        (hinput hh (TypeSystem.type?_name ht))
    dsimp only at hs ⊢
    cases hk : type.kind with
    | scalar =>
      rw [hk] at hs
      cases hg : setting.registry.get? name with
      | none =>
        rw [hg] at hs
        exact hexempting.unknown hs
      | some schema =>
        exact ⟨.scalar ⟨hn, Or.inr ⟨type, ht, hk⟩⟩ hg, hexempting.registered hg⟩
    | enum values =>
      rw [hk] at hs
      exact hq hs (Or.inl (by simp [NamedType.isEnum, hk]))
    | input fields =>
      rw [hk] at hs
      have htk : type.isInput := by simp [NamedType.isInput, hk]
      simpa only [htk, if_true] using hq hs (Or.inr htk)
    | object | interface | union =>
      have htk : type.isInput = false := by simp [NamedType.isInput, hk]
      have he : exempt position := hc ht
        (by simp [NamedType.isComposite, NamedType.isObject, NamedType.isAbstract, hk])
      simpa only [htk, Bool.false_eq_true, if_false] using .unknown he

theorem derived_variableLeaf {operation : String}
    (hs : ∀ note ∈ variableNotes setting operation name, progress.Shows note) :
    Derived setting exempt usable (.variableType name) (variableLeafSchema setting name) := by
  unfold variableNotes at hs
  cases hg : setting.registry.get? name with
  | some schema =>
    rw [variableLeafSchema, hg]
    exact ⟨.scalar ⟨rfl, Or.inl rfl⟩ hg, hexempting.registered hg⟩
  | none =>
    rw [hg] at hs
    cases ht : setting.system.type? name with
    | none =>
      rw [ht] at hs
      rw [variableLeafSchema, hg, ht]
      exact hexempting.unknown hs
    | some type =>
      rw [ht] at hs
      rw [variableLeafSchema_of_get?_eq_none hg ht]
      refine derived_inputLeaf hexempting hinput rfl (fun hn => ?_)
        (fun ht hc => hexempting.silentAt (.variableType hg ht hc)) hs
      rw [ht] at hn
      cases hn

end

theorem amid_warn (setting : Setting) (progress : Progress) (text : String) :
    Amid setting progress (progress.warn text) :=
  ⟨[.warning text], rfl, fun _ hm => by cases mem_singleton.mp hm⟩

/-- What is done while selections are read. If all that is noted can be seen, the parts of the
schema have their sources, and its names are usable. -/
theorem of_run_schemaOf {merging : List String} {selections : List Selection}
    {start final : Progress} {schema : Schema}
    (hrn : (schemaOf setting merging type selections).run start = .ok (schema, final))
    (ht : setting.system.type? type.name = some type) :
    Amid setting start final ∧ ∀ {exempt usable}, Exempting setting final exempt usable →
      Derived setting exempt usable (.selected type selections) schema := by
  obtain ⟨notes, hr, rfl⟩ := (gives_schemaOf merging setting type selections).of_run hrn
  refine ⟨⟨notes, rfl, fun queued hq => (enum_of_readSchema hr queued hq).imp_right
    Or.inl⟩, fun hexempting => ?_⟩
  rw [← (start.entries_noteAll notes).2] at hr
  exact (readsFitting_readAll hexempting _).readWhole hexempting ht schema notes hr
    start.shows_noteAll

/-- What is done while a content is made. If all that is noted can be seen, the parts of the schema
have their sources where it is made, and its names are usable. -/
theorem Setting.Makes.of_run (h : setting.Makes position name category content)
    {start final : Progress} {schema : Schema} (hr : content.run start = .ok (schema, final)) :
    Amid setting start final ∧ ∀ {exempt usable}, Exempting setting final exempt usable →
      (∀ {type : NamedType}, final.Holds type.name → setting.system.type? type.name = some type →
        type.isInput → usable false type.name) → Derived setting exempt usable position schema := by
  cases h with
  | enum =>
    cases hr
    exact ⟨⟨[], rfl, fun _ hmm => absurd hmm not_mem_nil⟩, fun _ _ =>
      ⟨.enumeration, Schema.usesOnly_of_mentions (by simp [Schema.mentions])⟩⟩
  | @input type fields ht hk =>
    obtain ⟨notes, hrd, rfl⟩ := ((gives_inputFields fields).bind_pure _).of_run hr
    cases hrd
    refine ⟨⟨_, rfl, fun queued hq => ?_⟩, fun hexempting hinput =>
      .object rfl (fun made hm => ?_) (forall_mem_nil _)⟩
    · obtain ⟨_, -, hn⟩ := mem_flatMap.mp hq
      exact queues_of_mem_inputNotes hn
    · obtain ⟨field, hf, rfl⟩ := mem_map.mp hm
      have hnm : field.type.baseName ∈ type.kind.typeNames := by
        rw [hk]
        exact mem_map_of_mem hf
      have hd := derived_inputLeaf hexempting hinput rfl
        (fun hnn => hexempting.of_type?_eq_none ht hnm hnn (.inputType _))
        (fun ht hc => hexempting.silentAt (.inputType ht hc))
        fun note hn => start.shows_noteAll note (mem_flatMap.mpr ⟨field, hf, hn⟩)
      exact ⟨.offered (.inputField hf) hd.sourced,
        field.type.usesOnly_wrap hd.named⟩
  | fragment _ ht =>
    obtain ⟨ha, hd⟩ := of_run_schemaOf hr (TypeSystem.type?_name ht)
    exact ⟨ha, fun hexempting _ => hd hexempting⟩
  | @operationVariables operation _ =>
    obtain ⟨notes, hrd, rfl⟩ := ((gives_variableFields operation).bind_pure _).of_run hr
    cases hrd
    refine ⟨⟨_, rfl, fun queued hq => ?_⟩, fun hexempting hinput =>
      .object rfl (fun made hm => ?_) (forall_mem_nil _)⟩
    · obtain ⟨_, -, hn⟩ := mem_flatMap.mp hq
      exact queues_of_mem_variableNotes hn
    · -- A variable that is defined twice has one field, which is that of one of the two.
      obtain ⟨pair, hp, rfl⟩ := mem_map.mp hm
      obtain ⟨v, hv, rfl⟩ := mem_map.mp (Assoc.mem_of_mem_ofList hp)
      have hd := derived_variableLeaf hexempting hinput
        fun note hn => start.shows_noteAll note (mem_flatMap.mpr ⟨v, hv, hn⟩)
      exact ⟨.offered (.variableDef hv) hd.sourced, v.type.usesOnly_wrap hd.named⟩
  | response _ hrt =>
    obtain ⟨ha, hd⟩ := of_run_schemaOf hr (TypeSystem.type?_of_root? hrt)
    exact ⟨ha, fun hexempting _ => hd hexempting⟩

theorem Setting.Makes.amid
    (h : setting.Makes position name category content) (base : Progress) :
    Ensures (fun progress => progress = base) content fun _ => Amid setting base := by
  rintro _ schema final rfl hr
  exact (h.of_run hr).1

/-- All positions are exempt, and all names are usable. -/
theorem exempting_all (progress : Progress) :
    Exempting setting progress (fun _ => True) fun _ _ => True :=
  ⟨fun _ _ => trivial, fun _ => trivial, Or.inr fun _ => trivial, fun _ _ _ _ => trivial,
    fun _ _ _ => trivial, fun _ => trivial⟩

/-! ## Adding entries -/

/-- The name of the entry of a fragment. -/
def IsFragmentName (entries : List Entry) (name : String) : Prop :=
  ∃ entry ∈ entries, entry.category = .fragment ∧ entry.name = name

/-- The queued types, if each may be taken out of the queue and get its entry. -/
theorem ensures_addPending {invariant : Progress → Prop}
    (hq : ∀ {progress type rest}, invariant progress → progress.pending = type :: rest →
      Ensures (fun state => state = { progress with pending := rest }) (addType setting type)
        fun _ => invariant)
    (fuel : ℕ) : Ensures invariant (addPending setting fuel) fun _ progress =>
      invariant progress ∧ progress.pending = [] := by
  induction fuel with
  | zero =>
    refine ensures_get_bind fun current => ?_
    split
    · rename_i he
      refine ensures_pure ?_
      rintro _ ⟨rfl, hs⟩
      exact ⟨hs, isEmpty_iff.mp he⟩
    · exact ensures_throw _
  | succ fuel ih =>
    refine ensures_get_bind fun current => ?_
    split
    · rename_i he
      refine ensures_pure ?_
      rintro _ ⟨rfl, hs⟩
      exact ⟨hs, he⟩
    · rename_i type rest hp
      rintro start result final ⟨rfl, hst⟩ hr
      exact ensures_bind (hq hst hp) (fun _ => ih) _ result final rfl hr

/-- A fragment with the fragments that it spreads, if each may get its entry. -/
theorem ensures_addFragment {invariant : Progress → Prop}
    (he : ∀ fragment ∈ setting.documents.fragments,
      Ensures invariant (addFragmentEntry setting fragment) fun _ => invariant) (fuel : ℕ) :
    ∀ opened, ∀ fragment ∈ setting.documents.fragments,
      Ensures invariant (addFragment setting fuel opened fragment) fun _ => invariant := by
  induction fuel with
  | zero => exact fun _ _ _ => ensures_throw _
  | succ fuel ih =>
    intro opened fragment hf
    refine ensures_get_bind fun current => ?_
    split
    · exact ensures_pure fun _ hs => hs.2
    · refine ensures_bind ((ensures_forM _ fun spread hsp => ?_).consequence
        (fun _ hs => hs.2) fun _ _ hs => hs) fun _ => he fragment hf
      obtain ⟨name, -, hfn⟩ := mem_filterMap.mp hsp
      exact ih (fragment.name :: opened) spread (mem_of_find?_eq_some hfn)

/-- All entries, where the invariant depends on the operations that have their entries. -/
theorem ensures_addAll {invariant : List NamedOperation → Progress → Prop}
    (he : ∀ {type : NamedType}, setting.system.type? type.name = some type →
      Ensures (invariant []) (addEnum type) fun _ => invariant [])
    (hinput : ∀ {type : NamedType}, setting.system.type? type.name = some type →
      Ensures (invariant []) (addInput setting type) fun _ => invariant [])
    (hq : ∀ {done progress type rest}, invariant done progress →
      progress.pending = type :: rest →
      Ensures (fun state => state = { progress with pending := rest }) (addType setting type)
        fun _ => invariant done)
    (hf : ∀ fragment ∈ setting.documents.fragments,
      Ensures (invariant []) (addFragmentEntry setting fragment) fun _ => invariant [])
    (ho : ∀ before operation after,
      setting.documents.operations = before ++ operation :: after →
      Ensures (invariant before)
        (do
          addVariables setting operation
          addResponse setting operation) fun _ => invariant (before ++ [operation])) :
    Ensures (invariant []) (addAll setting) fun _ progress =>
      invariant setting.documents.operations progress ∧ progress.pending = [] := by
  obtain ⟨hi, -, -⟩ := setting.system.walked_inputsOf setting.documents.operations
  have hen := setting.system.known_enumsOf setting.documents
  refine ensures_bind (ensures_forM _ fun type ht =>
    he (hi type (mem_of_mem_filter ht))) fun _ => ?_
  refine ensures_bind (ensures_forM _ fun type ht => he (hen type ht)) fun _ => ?_
  refine ensures_bind (ensures_forM _ fun type ht =>
    hinput (hi type (mem_of_mem_filter ht))) fun _ => ?_
  refine ensures_bind ((ensures_addPending hq _).consequence (fun _ hs => hs)
    fun _ _ hs => hs.1) fun _ => ?_
  refine ensures_bind (ensures_forM _ fun fragment hm =>
    ensures_addFragment hf _ [] fragment hm) fun _ => ?_
  refine ensures_bind (ensures_forM_done invariant _ ho) fun _ => ?_
  exact ensures_addPending hq _

/-- A property of states that lasts while entries of the allowed categories are added. -/
structure Assembling (setting : Setting) (invariant : Progress → Prop) (allowed : Category → Prop) :
    Prop where
  warn : ∀ {progress}, invariant progress → ∀ text, invariant (progress.warn text)
  content : ∀ {position name category content}, allowed category →
    setting.Makes position name category content →
    Ensures invariant content fun schema progress => invariant progress ∧
      (progress.has name = false → invariant (progress.add name schema category))
  record : allowed .fragment → ∀ {progress : Progress} {fragment}, invariant progress →
    IsFragmentName progress.entries (Name.fragmentEntry fragment) →
    invariant { progress with
      fragmentEntries :=
        Assoc.put progress.fragmentEntries fragment (Name.fragmentEntry fragment) }

namespace Assembling

variable {setting : Setting} {invariant : Progress → Prop} {allowed : Category → Prop}
  (h : Assembling setting invariant allowed)

include h

/-- An entry that was missing before its content is made may be added afterwards. -/
theorem ensures_added (ha : allowed category)
    (hm : setting.Makes position name category content) {current : Progress}
    (hh : (!current.has name)) :
    Ensures (fun progress => progress = current ∧ invariant progress) content fun schema progress =>
      invariant (progress.add name schema category) := by
  rintro start schema final ⟨rfl, hs⟩ hr
  refine (h.content ha hm start schema final hs hr).2 ?_
  rw [Progress.has, (hm.amid start start schema final rfl hr).entries, ← Progress.has]
  simpa using hh

theorem addEnum (ha : allowed .enum) (ht : setting.system.type? type.name = some type) :
    Ensures invariant (addEnum type) fun _ => invariant := by
  unfold GraphQL.addEnum
  split
  · rename_i hk
    refine ensures_get_bind fun current => ?_
    split
    · rename_i hh
      exact ensures_modify fun progress hs =>
        h.ensures_added ha (.enum ht hk) hh progress _ progress hs rfl
    · exact ensures_pure fun _ hs => hs.2
  · exact ensures_pure fun _ hs => hs

theorem addInput (ha : allowed .input) (ht : setting.system.type? type.name = some type) :
    Ensures invariant (addInput setting type) fun _ => invariant := by
  unfold GraphQL.addInput
  split
  · rename_i hk
    refine ensures_get_bind fun current => ?_
    split
    · rename_i hh
      exact ensures_bind (h.ensures_added ha (.input ht hk) hh).of_bind_pure fun _ =>
        ensures_modify fun _ hs => hs
    · exact ensures_pure fun _ hs => hs.2
  · exact ensures_pure fun _ hs => hs

theorem addType (he : allowed .enum) (hinput : allowed .input)
    (ht : setting.system.type? type.name = some type) :
    Ensures invariant (addType setting type) fun _ => invariant :=
  ensures_bind (h.addEnum he ht) fun _ => h.addInput hinput ht

/-- A type of the system that is taken out of the queue. -/
theorem taken (he : allowed .enum) (hinput : allowed .input)
    {taken : Progress} (hq : setting.system.type? type.name = some type ∧ invariant taken) :
    Ensures (fun progress => progress = taken) (GraphQL.addType setting type) fun _ => invariant :=
  (h.addType he hinput hq.1).consequence (fun _ hs => hs ▸ hq.2) fun _ _ h => h

theorem addFragmentEntry (ha : allowed .fragment) {fragment : SourcedFragment}
    (hf : fragment ∈ setting.documents.fragments) :
    Ensures invariant (addFragmentEntry setting fragment) fun _ => invariant := by
  unfold GraphQL.addFragmentEntry
  split
  · exact ensures_modify fun _ hs => h.warn hs _
  · rename_i type ht
    split
    · exact ensures_modify fun _ hs => h.warn hs _
    · refine ensures_get_bind fun current => ?_
      split
      · rename_i hh
        exact ensures_bind (h.ensures_added ha (.fragment hf ht) hh) fun _ =>
          ensures_modify fun _ hs => h.record ha hs
            ⟨_, mem_append_right _ (mem_singleton_self _), rfl, rfl⟩
      · exact ensures_pure fun _ hs => hs.2

theorem addVariables (ha : allowed .operationVariables)
    (ho : operation ∈ setting.documents.operations) :
    Ensures invariant (addVariables setting operation) fun _ => invariant := by
  unfold GraphQL.addVariables
  split
  · refine ensures_bind (h.content ha (.operationVariables ho)).of_bind_pure
      fun fields => ?_
    refine ensures_get_bind fun current => ?_
    split
    · rename_i hh
      refine ensures_modify ?_
      rintro progress ⟨rfl, hs⟩
      exact hs.2 (by simpa using hh)
    · exact ensures_pure fun _ hs => hs.2.1
  · exact ensures_pure fun _ hs => hs

theorem addResponse (ha : allowed .response)
    (ho : operation ∈ setting.documents.operations) :
    Ensures invariant (addResponse setting operation) fun _ => invariant := by
  unfold GraphQL.addResponse
  split
  · exact ensures_modify fun _ hs => h.warn hs _
  · rename_i root hr
    refine ensures_get_bind fun current => ?_
    split
    · rename_i hh
      exact ensures_bind (h.ensures_added ha (.response ho hr) hh) fun _ =>
        ensures_modify fun _ hs => hs
    · exact ensures_pure fun _ hs => hs.2

/-- All entries, if each queued type may be taken out of the queue and get its entry. -/
theorem addAll (ha : ∀ category, allowed category)
    (hq : ∀ {progress type rest}, invariant progress → progress.pending = type :: rest →
      Ensures (fun state => state = { progress with pending := rest })
        (GraphQL.addType setting type)
        fun _ => invariant) :
    Ensures invariant (addAll setting) fun _ progress =>
      invariant progress ∧ progress.pending = [] :=
  @ensures_addAll setting (fun _ => invariant) (h.addEnum (ha _)) (h.addInput (ha _))
    hq (fun _ => h.addFragmentEntry (ha _)) fun _ operation _ hs => by
      have ho : operation ∈ setting.documents.operations := by simp [hs]
      exact ensures_bind (h.addVariables (ha _) ho) fun _ =>
        h.addResponse (ha _) ho

end Assembling

/-! ## Sources of entries -/

/-- Types of the system are queued, and if nothing is told, every entry has the schema that its
content gave, the parts of which have their sources. -/
structure Explained (setting : Setting) (quiet : List String → Prop) (exempt : Position → Prop)
    (progress : Progress) : Prop where
  queued : setting.system.Known progress.pending
  sourced : quiet progress.warnings → ∀ entry ∈ progress.entries, ∃ position content,
    setting.Makes position entry.name entry.category content ∧
      (∃ start final, content.run start = .ok (entry.schema, final)) ∧
        Sourced setting exempt position entry.schema

section

variable {setting : Setting} {quiet : List String → Prop} {exempt : Position → Prop}
  (hless : ∀ {texts more}, texts ⊆ more → quiet more → quiet texts)
  (hexempting : ∀ {progress : Progress}, quiet progress.warnings →
    Exempting setting progress exempt fun _ _ => True)

include hless

theorem Explained.amid {before after : Progress} (h : Explained setting quiet exempt before)
    (ha : Amid setting before after) : Explained setting quiet exempt after :=
  ⟨ha.known h.queued, fun hq => ha.entries ▸ h.sourced (hless ha.warnings hq)⟩

include hexempting

theorem assembling_explained :
    Assembling setting (Explained setting quiet exempt) fun _ => True where
  warn h text := h.amid hless (amid_warn setting _ text)
  content := by
    intro position name category content _ hm start schema final hs hr
    obtain ⟨ha, hd⟩ := hm.of_run hr
    have hf := hs.amid hless ha
    exact ⟨hf, fun _ => ⟨hf.queued, fun hq => forall_mem_concat (hf.sourced hq)
      ⟨position, content, hm, ⟨start, final, hr⟩,
        (hd (hexempting hq) fun _ _ _ => trivial).sourced⟩⟩⟩
  record _ _ _ h _ := ⟨h.queued, h.sourced⟩

/-- If nothing is told, every entry of a catalog has the schema that its content gave, the parts of
which have their sources. -/
theorem sourced_of_catalog {result : Catalog} (hc : catalog setting = .ok result)
    (hqt : quiet result.warnings) :
    ∀ entry ∈ result.entries, ∃ position content,
      setting.Makes position entry.name entry.category content ∧
        (∃ start final, content.run start = .ok (entry.schema, final)) ∧
          Sourced setting exempt position entry.schema := by
  obtain ⟨⟨_, progress⟩, hrn, hr⟩ := of_bind_eq_ok hc
  cases hr
  have hs : Explained setting quiet exempt .start :=
    ⟨nofun, nofun⟩
  have he := assembling_explained (@hless) hexempting
  obtain ⟨ha, -⟩ := he.addAll (fun _ => trivial)
    (fun h hp =>
      have hq := hp ▸ h.queued
      he.taken trivial trivial ⟨hq _ (mem_cons_self ..),
        (forall_mem_cons.mp hq).2, h.sourced⟩)
    .start _ _ hs hrn
  exact fun entry hen => ha.sourced hqt entry (mem_of_mem_topologicalSort hen)

end

theorem made_of_catalog {result : Catalog}
    (hc : catalog setting = .ok result) {entry : Entry} (he : entry ∈ result.entries) :
    ∃ position content, setting.Makes position entry.name entry.category content ∧
      ∃ start final, content.run start = .ok (entry.schema, final) := by
  obtain ⟨position, content, hm, hmd, -⟩ := @sourced_of_catalog setting (fun _ => True) _
    (fun _ h => h) (fun _ => exempting_all _) result hc trivial entry he
  exact ⟨position, content, hm, hmd⟩

/-- A property that every schema has whose parts have sources, whichever positions are exempt. -/
def Compositional (setting : Setting) (holds : Schema → Prop) : Prop :=
  ∀ {position schema}, Sourced setting (fun _ => True) position schema → holds schema

/-- Every schema of a catalog has a property that schemas have whose parts have sources. -/
theorem Compositional.of_catalog {holds : Schema → Prop}
    (h : Compositional setting holds) {result : Catalog} (hc : catalog setting = .ok result) :
    ∀ entry ∈ result.entries, holds entry.schema := by
  intro entry he
  obtain ⟨_, _, -, -, hs⟩ := @sourced_of_catalog setting (fun _ => True) _ (fun _ h => h)
    (fun _ => exempting_all _) result hc trivial entry he
  exact h hs

end ApiSchema.GraphQL
