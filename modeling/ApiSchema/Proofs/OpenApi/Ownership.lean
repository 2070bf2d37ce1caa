/-
# Whose entry it is

The names of components and the names that operations ask for are one space: an entry is made for
the first to come, and who comes later has none. Every entry therefore has an origin, which is a
component or the first operation that asks for its name, and holds the description of its origin.
So an operation keeps its entries unless an earlier one asks for the same names, or a component has
them already.
-/
import ApiSchema.Proofs.Filter
import ApiSchema.Proofs.OpenApi.Reachable
import ApiSchema.Proofs.Rearranged

namespace ApiSchema

open List Option

variable {setting : Setting} {progress current : Progress} {operations : List Operation}
  {graph : Graph} {item part parameter : Item} {entry : Entry} {schema : Schema}
  {base name : String} {invariant : Progress → Prop} {result : Catalog} {role : Role}
  {operation : Operation}

/-- Whether no key of a map is there twice. -/
def Node.hasDistinctKeys : Node → Bool
  | .map entries => decide (entries.map (·.1)).Nodup
  | _ => true

/-- Whether no map has a key twice. -/
def Graph.hasDistinctKeys (graph : Graph) : Bool := graph.nodes.toList.all Node.hasDistinctKeys

/-- The keys of a map in such a graph are distinct. -/
theorem Graph.nodup_keys (h : graph.hasDistinctKeys)
    {entries : List (Atom × Item)} (hm : graph.map? item = some entries) :
    (entries.map (·.1)).Nodup := by
  cases item with
  | atom value => cases hm
  | node id =>
    unfold map? node? at hm
    cases hn : graph.nodes[id]? with
    | none => simp [hn] at hm
    | some node =>
      have hkeys := all_eq_true.mp h node (Array.mem_of_getElem? hn).val
      cases node with
      | map entries' =>
        simp only [hn, some.injEq] at hm
        subst hm
        simpa [Node.hasDistinctKeys] using hkeys
      | _ => simp [hn] at hm

namespace OpenApi

/-! ## Components and their names -/

/-- The components are the entries of a map of the document. -/
theorem Setting.exists_eq_of (h : Setting.of graph = .ok setting) :
    ∃ schemas entries, entriesOf graph schemas = .ok entries ∧ setting = ⟨graph, entries⟩ := by
  obtain ⟨components, -, h⟩ := of_bind_eq_ok h
  split at h
  all_goals
    obtain ⟨schemas, -, h⟩ := of_bind_eq_ok h
    obtain ⟨entries, hr, h⟩ := of_bind_eq_ok h
    exact ⟨schemas, entries, hr, (Except.ok.inj h).symm⟩

/-- The components of a document whose maps have distinct keys have distinct names. -/
theorem Setting.nodup_names (h : graph.hasDistinctKeys)
    (hs : Setting.of graph = .ok setting) : (setting.components.map (·.1)).Nodup := by
  obtain ⟨schemas, entries, hr, rfl⟩ := Setting.exists_eq_of hs
  unfold entriesOf at hr
  split at hr
  · cases hr
    exact nodup_nil
  · cases hm : graph.map? schemas with
    | none =>
      rw [hm] at hr
      cases hr
    | some entries' =>
      rw [hm] at hr
      cases hr
      exact Graph.nodup_keys h hm

/-- A named component is what stands under its name. -/
theorem Setting.component_eq (h : (setting.components.map (·.1)).Nodup)
    (hn : setting.componentName? item = some (.text name)) : setting.component name = item := by
  obtain ⟨hfn, -⟩ := filter_eq_some_iff.mp hn
  obtain ⟨⟨key, item'⟩, hf, rfl⟩ := map_eq_some_iff.mp hfn
  have hi : item' = item := by simpa using find?_some hf
  subst hi
  unfold component
  rw [(get?_text_eq_some_iff h name item').mpr (mem_of_find?_eq_some hf)]
  rfl

theorem Setting.mem_names_of_componentName? {name : Atom}
    (h : setting.componentName? item = some name) : name ∈ setting.components.map (·.1) := by
  obtain ⟨hf, -⟩ := filter_eq_some_iff.mp h
  obtain ⟨component, hfn, rfl⟩ := map_eq_some_iff.mp hf
  exact mem_map_of_mem (mem_of_find?_eq_some hfn)

/-! ## Origins -/

/-- Where an entry comes from: it is the description of a component that can be reached, or that of
what the first operation has which asks for its name. -/
inductive Origin (setting : Setting) (roots : List Item) (asked : Role → List Operation) :
    Entry → Prop
  | component {item : Item} {name : String} {schema : Schema}
      (hitem : Reaches setting.graph roots item) (hmap : setting.graph.isMap item = true)
      (hname : setting.componentName? item = some (.text name))
      (hschema : description setting (some name) item = .ok schema) :
      Origin setting roots asked (Entry.of name schema .component [])
  | part {role : Role} {operation : Operation} {name : String} {schema : Schema}
      (hfirst : firstClaimant? (·.claim? role) (asked role) name = some operation)
      (hschema : operation.description setting role = .ok schema) :
      Origin setting roots asked (Entry.of name schema role.category [])

/-- What holds between the steps: every entry has an origin and a name of its own, the names that
are taken are those of the entries, every operation that has asked for a name finds an entry under
it, some components hold their entries, and components in the queue can be reached. -/
structure Owned (setting : Setting) (roots : List Item) (held : List String)
    (asked : Role → List Operation) (progress : Progress) : Prop where
  origin : ∀ entry ∈ progress.entries, Origin setting roots asked entry
  distinct : (progress.entries.map (·.name)).Nodup
  taken : ∀ name, name ∈ progress.taken ↔ name ∈ progress.entries.map (·.name)
  answered : ∀ role, ∀ operation ∈ asked role, operation.has role = true →
    ∃ name, operation.claim? role = some name ∧ name ∈ progress.entries.map (·.name)
  held : ∀ name ∈ held, ∃ entry ∈ progress.entries, entry.name = name ∧ entry.category = .component
  queued : ∀ name ∈ progress.pending, Meets setting roots name

theorem Origin.ask {roots : List Item} {asked : Role → List Operation}
    (h : Origin setting roots asked entry) (role : Role) (operation : Operation) :
    Origin setting roots (ApiSchema.ask asked role operation) entry := by
  cases h with
  | component hi hm hn hs => exact .component hi hm hn hs
  | part hf hs => exact .part (firstClaimant?_ask hf) hs

section

variable {roots : List Item} {held : List String} {asked asked' : Role → List Operation}
  {before later : Progress}

theorem Owned.start : Owned setting roots [] (fun _ => []) .start where
  origin := by simp [Progress.start]
  distinct := by simp [Progress.start]
  taken := by simp [Progress.start]
  answered := by simp
  held := by simp
  queued := by simp [Progress.start]

theorem Owned.pop (h : Owned setting roots held asked before)
    (hpp : Popped name before progress) : Owned setting roots held asked progress := by
  obtain ⟨he, ht, -, hp, -⟩ := hpp
  constructor
  case queued => exact fun other ho => h.queued other (hp ho)
  all_goals rw [he]
  case origin => exact h.origin
  case distinct => exact h.distinct
  case taken => exact ht ▸ h.taken
  case answered => exact h.answered
  case held => exact h.held

section

variable (h : Owned setting roots held asked progress)

include h

/-- If nobody has taken a name, no operation has asked for it. -/
theorem Owned.claim?_ne_some (hnw : name ∉ progress.taken) (ho : operation ∈ asked role) :
    operation.claim? role ≠ some name := by
  intro hc
  obtain ⟨name', hc', hn⟩ :=
    h.answered role operation ho (Operation.exists_of_claim? hc).1
  obtain rfl := some.inj (hc.symm.trans hc')
  exact hnw ((h.taken name).mpr hn)

/-- An operation that has nothing in the role, or whose name is taken, needs no entry. -/
theorem Owned.refuse (ht : ∀ name, operation.claim? role = some name → name ∈ progress.taken)
    (hcl : operation.has role → (operation.claim? role).isSome) :
    Owned setting roots held (ask asked role operation) progress := by
  refine ⟨fun entry he => (h.origin entry he).ask role operation, h.distinct, h.taken, ?_,
    h.held, h.queued⟩
  intro role' other ho hh
  rcases of_mem_ask ho with ho | ⟨rfl, rfl⟩
  · exact h.answered role' other ho hh
  · obtain ⟨name, hc⟩ := isSome_iff_exists.mp (hcl hh)
    exact ⟨name, hc, (h.taken name).mp (ht name hc)⟩

/-- An entry with an origin and a new name may be added after a conversion. Nobody else has asked
meanwhile. -/
theorem Owned.add {category : Category}
    (hnw : name ∉ progress.taken) (he : later.entries = progress.entries)
    (ht : ∀ other, other ∈ later.taken → other ∈ progress.taken ∨ other = name)
    (ht' : progress.taken ⊆ later.taken)
    (hq : ∀ name ∈ later.pending, Meets setting roots name)
    (hor : ∀ entry ∈ progress.entries, Origin setting roots asked' entry)
    (ho' : Origin setting roots asked' (Entry.of name schema category []))
    (hask : ∀ role, ∀ operation ∈ asked' role,
      operation ∈ asked role ∨ operation.claim? role = some name) :
    Owned setting roots held asked' (later.add name schema category) := by
  obtain ⟨-, hp⟩ := later.take_entries name
  have ha : (later.add name schema category).entries =
      progress.entries ++ [Entry.of name schema category []] := by
    rw [Progress.add, he]
  have hn : (later.add name schema category).entries.map (·.name) =
      progress.entries.map (·.name) ++ [name] := by
    rw [ha, map_append]
    rfl
  constructor
  case origin =>
    rw [ha]
    exact forall_mem_concat hor ho'
  case distinct =>
    rw [hn, ← concat_eq_append, nodup_concat]
    exact ⟨fun hnm => hnw ((h.taken name).mpr hnm), h.distinct⟩
  case taken =>
    intro other
    have htk : other ∈ (later.add name schema category).taken ↔
        other ∈ later.taken ∨ other = name := later.mem_taken_take name other
    rw [htk, hn, mem_append, mem_singleton, ← h.taken]
    constructor
    · rintro (ho | rfl)
      · exact ht other ho
      · exact Or.inr rfl
    · exact Or.imp (fun ho => ht' ho) id
  case answered =>
    intro role operation hop hh
    rw [hn]
    rcases hask role operation hop with hop | hc
    · obtain ⟨other, hc, ho⟩ := h.answered role operation hop hh
      exact ⟨other, hc, mem_append_left _ ho⟩
    · exact ⟨name, hc, mem_append_right _ (mem_singleton_self _)⟩
  case held =>
    intro other ho
    obtain ⟨entry, hen, he'⟩ := h.held other ho
    exact ⟨entry, ha ▸ mem_append_left _ hen, he'⟩
  case queued =>
    intro other ho
    rw [Progress.add, hp] at ho
    exact hq other ho

end

/-- Only components that can be reached are queued by a conversion. -/
theorem ensures_queued_schemaOf (current : Option String)
    (hi : Reaches setting.graph roots item) :
    Ensures (fun progress => ∀ name ∈ progress.pending, Meets setting roots name)
      (schemaOf setting current item)
      fun _ progress => ∀ name ∈ progress.pending, Meets setting roots name := by
  refine ensures_convert (fun progress text hq => ?_)
    (fun progress name hn hq other ho => ?_) _ current item hi
  · rwa [(progress.warn_fields text).2.2]
  · rcases Progress.of_mem_ensure ho with ho | rfl
    · exact hq other ho
    · exact hn

/-- Every step in the making of a catalog leaves every entry with its owner. -/
theorem kept_owned (hkeys : (setting.components.map (·.1)).Nodup) :
    Kept setting operations (Meets setting (operations.flatMap (·.schemas setting.graph)))
      (Owned setting (operations.flatMap (·.schemas setting.graph)) held) where
  queued h := h.queued
  left h hpp _ := h.pop hpp
  component := by
    intro asked before progress later name schema h hpp hnm hn hr
    obtain ⟨item, hi, hm, hc⟩ := hnm
    have hp := h.pop hpp
    rw [Setting.component_eq hkeys hc] at hr
    obtain ⟨he, ht, -⟩ := (quiet_schemaOf (some name) item).frame hr
    obtain ⟨he', hpn⟩ := progress.take_entries name
    have hq := ensures_queued_schemaOf (some name) hi _ schema later
      (fun other ho => hp.queued other (hpn ▸ ho)) hr
    have hd := (quiet_schemaOf (some name) item).outcome_eq hr
    refine hp.add hn (he.trans he') (fun other ho => ?_)
      (fun other ho => ?_) hq hp.origin
      (.component hi hm hc hd) fun _ _ => Or.inl
    · rw [ht] at ho
      exact (progress.mem_taken_take name other).mp ho
    · rw [ht]
      exact (progress.mem_taken_take name other).mpr (Or.inl ho)
  refused h _ hcla ht := h.refuse ht hcla
  answered := by
    intro asked progress later role operation name schema after h hs hcl hn hr
    obtain ⟨he, ht, -⟩ := (operation.quiet_conversion role).frame hr
    have hrc : ∀ part ∈ operation.schemas setting.graph,
        Reaches setting.graph (operations.flatMap (·.schemas setting.graph)) part :=
      fun part hpr => ⟨part, mem_flatMap.mpr ⟨operation, by simp [hs], hpr⟩, .refl⟩
    have hq := (operation.composed_step role).ensures
      (fun _ progress => ∀ name ∈ progress.pending,
        Meets setting (operations.flatMap (·.schemas setting.graph)) name)
      (fun _ progress text hq => (progress.warn_fields text).2.2 ▸ hq)
      (fun _ part hpr => ensures_queued_schemaOf none (hrc part hpr)) [] progress schema
      later h.queued hr
    obtain ⟨-, -, hq⟩ := hq
    have hf : firstClaimant? (·.claim? role) (ask asked role operation role) name =
        some operation :=
      firstClaimant?_ask_self (fun _ her => h.claim?_ne_some hn her) hcl
    refine h.add hn he (fun other ho => Or.inl (ht ▸ ho))
      (fun other ho => ht ▸ ho) hq
      (fun entry hen => (h.origin entry hen).ask role operation)
      (.part hf (Operation.description_of_conversion hr)) fun role' other ho => ?_
    rcases of_mem_ask ho with ho | ⟨rfl, rfl⟩
    · exact Or.inl ho
    · exact Or.inr hcl

/-- As long as no operation has asked for a name, a name with an entry is held by a component. -/
theorem Owned.hold (h : Owned setting roots held (fun _ => []) progress)
    (hn : name ∈ progress.taken) :
    Owned setting roots (held ++ [name]) (fun _ => []) progress := by
  refine ⟨h.origin, h.distinct, h.taken, h.answered, forall_mem_concat h.held ?_, h.queued⟩
  obtain ⟨entry, he, hentryName⟩ := mem_map.mp ((h.taken name).mp hn)
  refine ⟨entry, he, hentryName, ?_⟩
  cases h.origin entry he with
  | component => rfl
  | part hf => cases hf

/-- After all entries are added, every entry has its origin among these operations. -/
theorem ensures_owned_addAll (hkeys : (setting.components.map (·.1)).Nodup) {used : List String}
    (hu : usedComponents setting operations = .ok used) :
    Ensures (Owned setting (operations.flatMap (·.schemas setting.graph)) [] fun _ => [])
      (addAll setting operations) fun _ =>
        Owned setting (operations.flatMap (·.schemas setting.graph)) used fun _ => operations := by
  refine ((kept_owned hkeys).ensures_addAll_of_used hu ?_).consequence (fun _ h => h)
    fun _ _ h => h.1
  -- Used components come first: no operation has asked for a name when they get their entries.
  refine ensures_forM_done (fun done => Owned setting _ done fun _ => []) used
    fun before name after hs => ?_
  have hn := meets_of_usedComponents hu name (by simp [hs])
  exact (((kept_owned hkeys).ensures_addComponent_self hn).and
    (ensures_taken_addComponent.consequence (fun _ _ => trivial) fun _ _ h => h)).consequence
      (fun _ h => h) fun _ _ h => h.1.hold h.2

end

/-- The schema that a parameter describes, which is unknown if it has none. -/
def parameterDescription (setting : Setting) (parameter : Item) : Reading Schema :=
  if setting.graph.isMap (under setting.graph parameter "schema") then
    description setting none (under setting.graph parameter "schema")
  else .ok .unknown

/-- The field is named as the parameter is, has the schema that is described there, and is required
if the parameter says so or is part of the path. -/
def IsFieldOf (setting : Setting) (parameter : Item) (field : Atom × Schema × Bool) : Prop :=
  setting.graph.get? parameter "name" = some (.atom field.1) ∧
    parameterDescription setting parameter = .ok field.2.1 ∧
      field.2.2 = (isIn setting.graph "path" parameter ||
        !setting.graph.isBlank (under setting.graph parameter "required"))

section

variable (h : ∀ part, setting.graph.get? parameter "schema" = some part →
  Ensures invariant (schemaOf setting none part) fun _ => invariant)
include h

/-- The schema of a parameter, by a property that the conversion keeps and that what follows relies
on. -/
theorem ensures_parameterSchema
    (hp : field setting.graph parameter "schema" = .ok part) {α : Type}
    {next : Schema → Builder α} {post : α → Progress → Prop}
    (hn : ∀ schema, parameterDescription setting parameter = .ok schema →
      Ensures invariant (next schema) post) :
    Ensures invariant (if setting.graph.isMap part = true then schemaOf setting none part >>= next
      else pure Schema.unknown >>= next) post := by
  obtain rfl := eq_under_of_field hp
  unfold parameterDescription at hn
  split
  · rename_i hm
    rw [if_pos hm] at hn
    have hs := (h _ (get?_eq_some_of_isMap_under hm)).and
      ((quiet_schemaOf none (under setting.graph parameter "schema")).ensures _)
    exact ensures_bind hs fun schema => ensures_of_fact (hn schema)
  · rename_i hm
    rw [if_neg hm] at hn
    exact hn .unknown rfl

/-- The field for a parameter, by a property that the conversion of its schema keeps. -/
theorem ensures_parameterField :
    Ensures invariant (parameterField setting parameter) fun field progress =>
      invariant progress ∧ IsFieldOf setting parameter field := by
  refine ensures_lift_bind fun part hp => ?_
  refine ensures_parameterSchema h hp fun schema hd => ?_
  refine ensures_lift_bind fun required hr => ?_
  obtain rfl := eq_under_of_field hr
  split
  · exact ensures_throw _
  · rename_i item hn
    refine ensures_lift_bind fun key hk => ensures_pure fun _ hs => ?_
    refine ⟨hs, ?_, hd, rfl⟩
    cases item with
    | atom value =>
      cases hk
      exact hn
    | node id => cases hk

end

/-- The fields for some parameters, one by one. -/
theorem forall₂_of_outcome_parameterFields {parameters : List Item}
    {fields : List (Atom × Schema × Bool)}
    (h : outcome (parameters.mapM (parameterField setting)) = .ok fields) :
    List.Forall₂ (IsFieldOf setting) parameters fields := by
  obtain ⟨⟨fields', final⟩, hr, hs⟩ := of_bind_eq_ok h
  obtain rfl : fields' = fields := Except.ok.inj hs
  have ha : Ensures (fun _ => True) (parameters.mapM (parameterField setting))
      fun fields _ => True ∧ List.Forall₂ (IsFieldOf setting) parameters fields :=
    ensures_mapM_forall₂ parameters fun parameter _ =>
      ensures_parameterField fun _ _ _ _ _ _ _ => trivial
  exact (ha _ _ _ trivial hr).2

/-! ## Catalogs -/

theorem Role.eq_of_append_ending_eq {role' : Role} {base' : String}
    (h : base ++ role.ending = base' ++ role'.ending) : role = role' := by
  -- The roles differ in the last letters of their ends.
  have hl := congrArg (fun name => name.toList.getLast?) h
  cases role <;> cases role' <;> simp [ending] at hl ⊢

/-- The entry is that of the component with its name. -/
def IsComponentEntry (setting : Setting) (entry : Entry) : Prop :=
  entry.category = .component ∧ (∃ item, setting.componentName? item = some (.text entry.name)) ∧
    ∀ item, setting.componentName? item = some (.text entry.name) →
      description setting (some entry.name) item = .ok entry.schema

/-- The entry is that of what an operation has in a role. -/
def IsPartEntry (setting : Setting) (operation : Operation) (role : Role) (entry : Entry) : Prop :=
  entry.category = role.category ∧ operation.description setting role = .ok entry.schema

/-- An entry with an origin is that of a component, or that of the first operation which asks for
its name. -/
theorem Origin.cases (hkeys : (setting.components.map (·.1)).Nodup) {roots : List Item}
    (h : Origin setting roots (fun _ => operations) entry) :
    IsComponentEntry setting entry ∨ ∃ role operation,
      firstClaimant? (·.claim? role) operations entry.name = some operation ∧
        IsPartEntry setting operation role entry := by
  cases h with
  | @component item name schema _ _ hn hs =>
    refine Or.inl ⟨rfl, ⟨item, hn⟩, fun item' hn' => ?_⟩
    have hsm : item' = item := by
      rw [← Setting.component_eq hkeys hn, ← Setting.component_eq hkeys hn']
      rfl
    rw [hsm]
    exact hs
  | @part role operation name schema hf hs =>
    exact Or.inr ⟨role, operation, hf, rfl, hs⟩

/-- What is known of the entries of a catalog: each has its origin and a name of its own, and there
is one for every name that an operation asks for or an entry mentions, and one of its own for every
component that is used. -/
structure Accounted (setting : Setting) (operations : List Operation) (used : List String)
    (entries : List Entry) : Prop where
  origin : ∀ entry ∈ entries,
    Origin setting (operations.flatMap (·.schemas setting.graph)) (fun _ => operations) entry
  distinct : (entries.map (·.name)).Nodup
  answered : ∀ role, ∀ operation ∈ operations, operation.has role = true →
    ∃ name, operation.claim? role = some name ∧ name ∈ entries.map (·.name)
  mentioned : ∀ entry ∈ entries, ∀ name ∈ entry.schema.mentions, name ∈ entries.map (·.name)
  held : ∀ name ∈ used, ∃ entry ∈ entries, entry.name = name ∧ entry.category = .component

/-- A catalog is made in a run, which starts with the search for used components. -/
theorem exists_run_of_catalogOf (h : catalogOf setting operations = .ok result) :
    ∃ progress used, (addAll setting operations).run .start = .ok ((), progress) ∧
      usedComponents setting operations = .ok used ∧
      result = ⟨topologicalSort progress.entries, progress.warnings⟩ := by
  obtain ⟨⟨_, progress⟩, hrn, hr⟩ := of_bind_eq_ok h
  obtain ⟨used, hu⟩ := exists_used_of_addAll hrn
  exact ⟨progress, used, hrn, hu, (Except.ok.inj hr).symm⟩

/-- The entries of a catalog are accounted for. -/
theorem accounted_catalogOf (hkeys : (setting.components.map (·.1)).Nodup)
    (h : catalogOf setting operations = .ok result) :
    ∃ used, usedComponents setting operations = .ok used ∧
      Accounted setting operations used result.entries := by
  obtain ⟨progress, used, hr, hu, rfl⟩ := exists_run_of_catalogOf h
  have ho := ensures_owned_addAll hkeys hu _ _ _ Owned.start hr
  obtain ⟨hs, hpn⟩ := settled_of_addAll hr
  refine ⟨used, hu, ?_⟩
  constructor
  case origin =>
    exact fun entry he => ho.origin entry (mem_of_mem_topologicalSort he)
  case distinct =>
    exact nodup_names_topologicalSort _
  case answered =>
    intro role operation hop hh
    obtain ⟨name, hcl, hn⟩ := ho.answered role operation hop hh
    refine ⟨name, hcl, ?_⟩
    rw [mem_names_topologicalSort]
    exact hn
  case mentioned =>
    intro entry he name hn
    have hp := hs.closed.mentioned entry (mem_of_mem_topologicalSort he) name hn
    rw [mem_names_topologicalSort]
    rw [hpn] at hp
    exact hp.resolve_right not_mem_nil
  case held =>
    intro name hn
    obtain ⟨entry, he, rfl, hc⟩ := ho.held name hn
    exact ⟨entry, mem_topologicalSort_of_mem ho.distinct he, rfl, hc⟩

namespace Accounted

variable {used : List String} {entries : List Entry} (hkeys : (setting.components.map (·.1)).Nodup)

include hkeys

section

variable (h : Accounted setting operations used entries)
include h

/-- The entry of a name that no component has is that of the first operation which asks for it. -/
theorem isPartEntry_of_first (hen : entry ∈ entries)
    (hf : firstClaimant? (·.claim? role) operations entry.name = some operation)
    (hc : ∀ item, setting.componentName? item ≠ some (.text entry.name)) :
    IsPartEntry setting operation role entry := by
  have he : ∀ {role' operation'},
      firstClaimant? (fun operation => operation.claim? role') operations entry.name =
        some operation' → ∃ base, entry.name = base ++ role'.ending := by
    intro role' operation' hfn
    have hcl := claim?_of_firstClaimant? hfn
    exact (Operation.exists_of_claim? hcl).2
  rcases (h.origin entry hen).cases hkeys with
    ⟨-, ⟨item, hi⟩, -⟩ | ⟨role', first, hf', hp⟩
  · exact absurd hi (hc item)
  · -- The end of the name tells the role.
    obtain ⟨base, hb⟩ := he hf
    obtain ⟨base', hb'⟩ := he hf'
    obtain rfl : role = role' := Role.eq_of_append_ending_eq (hb.symm.trans hb')
    rw [hf] at hf'
    rwa [some.inj hf']

/-- A component that is used has its own entry. -/
theorem exists_isComponentEntry (hn : name ∈ used) :
    ∃ entry ∈ entries, entry.name = name ∧ IsComponentEntry setting entry := by
  obtain ⟨entry, he, hn, hct⟩ := h.held name hn
  refine ⟨entry, he, hn, ?_⟩
  rcases (h.origin entry he).cases hkeys with hc | ⟨role, first, -, hp⟩
  · exact hc
  · have hs : role.category = .component := hp.1.symm.trans hct
    cases role <;> cases hs

theorem isComponentEntry_of_unclaimed (he : entry ∈ entries)
    (hfr : ∀ role, ∀ operation ∈ operations, operation.claim? role ≠ some entry.name) :
    IsComponentEntry setting entry := by
  rcases (h.origin entry he).cases hkeys with hc | ⟨role, first, hf, -⟩
  · exact hc
  · exact absurd (claim?_of_firstClaimant? hf) (hfr role first (mem_of_firstClaimant? hf))

end

end Accounted

/-- Whatever the document, the operations and the names to choose by are, in a catalog:

* each name has one entry, which is that of a component or that of the first chosen operation that
  asks for the name;
* each operation finds an entry for each of its parts under the name it asks for; if no component
  has the name and no operation before it asks for the name, it is its own, with its own category
  and the description of its own part;
* each component that is used keeps its own entry;
* each reference leads to an entry, which is that of the component if no operation asks for the
  name. -/
theorem entries_belong_to_first_claimants {graph : Graph} {operations : List Operation}
    {ids : Option (List String)} {result : Catalog} (hdistinct : graph.hasDistinctKeys = true)
    (hcatalog : catalog graph operations ids = .ok result) :
    ∃ setting chosen used, Setting.of graph = .ok setting ∧
      selectOperations ids operations = .ok chosen ∧
      usedComponents setting chosen = .ok used ∧
      (result.entries.map (·.name)).Nodup ∧
      (∀ entry ∈ result.entries, IsComponentEntry setting entry ∨ ∃ role operation,
        firstClaimant? (·.claim? role) chosen entry.name = some operation ∧
          IsPartEntry setting operation role entry) ∧
      (∀ role, ∀ operation ∈ chosen, operation.has role = true →
        ∃ entry ∈ result.entries, operation.claim? role = some entry.name ∧
          (firstClaimant? (·.claim? role) chosen entry.name = some operation →
            (∀ item, setting.componentName? item ≠ some (.text entry.name)) →
              IsPartEntry setting operation role entry)) ∧
      (∀ name ∈ used, ∃ entry ∈ result.entries, entry.name = name ∧
        IsComponentEntry setting entry) ∧
      ∀ entry ∈ result.entries, ∀ name, Schema.Part (.ref name) entry.schema →
        ∃ target ∈ result.entries, target.name = name ∧
          ((∀ role, ∀ operation ∈ chosen, operation.claim? role ≠ some name) →
            IsComponentEntry setting target) := by
  obtain ⟨chosen, hch, hcatalog⟩ := of_bind_eq_ok hcatalog
  obtain ⟨setting, hs, hcatalog⟩ := of_bind_eq_ok hcatalog
  have hkeys := Setting.nodup_names hdistinct hs
  obtain ⟨used, hu, ha⟩ := accounted_catalogOf hkeys hcatalog
  refine ⟨setting, chosen, used, hs, hch, hu, ha.distinct, ?_, ?_, ?_, ?_⟩
  · exact fun entry he => (ha.origin entry he).cases hkeys
  · intro role operation ho hh
    obtain ⟨name, hcl, hn⟩ := ha.answered role operation ho hh
    obtain ⟨entry, he, rfl⟩ := mem_map.mp hn
    exact ⟨entry, he, hcl, fun hf hc =>
      ha.isPartEntry_of_first hkeys he hf hc⟩
  · exact fun name hn => ha.exists_isComponentEntry hkeys hn
  · intro entry he name hp
    obtain ⟨target, ht, rfl⟩ := mem_map.mp
      (ha.mentioned entry he name hp.ref_mem_mentions)
    exact ⟨target, ht, rfl, ha.isComponentEntry_of_unclaimed hkeys ht⟩

/-! ## Names that are asked for twice -/

/-- A document with one component. The last two nodes are a list whose positions lead to it. -/
def clashGraph : Graph where
  nodes := #[.map [(.text "components", .node 1)], .map [(.text "schemas", .node 2)],
    .map [(.text "FindOwnerResponse", .node 3)],
    .map [(.text "type", .text "string")],
    .map [(.text "type", .text "number")],
    .map [(.text "type", .text "boolean")],
    .map [(.text "type", .text "array"), (.text "prefixItems", .node 7)],
    .list [.node 3]]
  root := .node 0

/-- The document with its component. -/
def clashSetting : Setting := ⟨clashGraph, [(.text "FindOwnerResponse", .node 3)]⟩

/-- An operation that is read with a response. -/
def respondingOperation (id : String) (response : Item) : Operation :=
  ⟨.text id, "get", .text "/", .null, response, [], []⟩

/-- Two operations whose names have the same words, and one that asks for the name of the component.
-/
def clashOperations : List Operation :=
  [respondingOperation "get_pet" (.node 4), respondingOperation "getPet" (.node 5),
    respondingOperation "findOwner" (.node 6)]

/-- The first operation keeps the entry that two ask for. -/
theorem getPetResponse_belongs_to_first : clashGraph.hasDistinctKeys = true ∧
      ∃ result, catalog clashGraph clashOperations none = .ok result ∧
        ∃ entry ∈ result.entries, entry.name = "GetPetResponse" ∧
          IsPartEntry clashSetting (respondingOperation "get_pet" (.node 4)) .response entry := by
  have hd : clashGraph.hasDistinctKeys = true := by decide
  have hc : ∃ result, catalog clashGraph clashOperations none = .ok result := ⟨_, rfl⟩
  obtain ⟨result, hr⟩ := hc
  refine ⟨hd, result, hr, ?_⟩
  obtain ⟨setting, chosen, used, hs, hch, -, -, -, ho, -⟩ :=
    entries_belong_to_first_claimants hd hr
  obtain rfl : clashSetting = setting := Except.ok.inj hs
  obtain rfl : clashOperations = chosen := Except.ok.inj hch
  obtain ⟨entry, he, hcl, hp⟩ :=
    ho .response (respondingOperation "get_pet" (.node 4)) (by simp [clashOperations]) rfl
  have hn : "GetPetResponse" = entry.name := some.inj hcl
  refine ⟨entry, he, hn.symm, hp (hn ▸ rfl) fun item hi => ?_⟩
  rw [← hn] at hi
  exact absurd (Setting.mem_names_of_componentName? hi) (by simp [clashSetting])

/-- The names of the operations differ, but only one of two that ask for one name has its entry, and
the component that an operation refers to has no entry of its own: under its name there is the
response of the operation, which refers to itself. -/
theorem clash_loses_entries : (clashOperations.map (·.id)).Nodup ∧
      catalog clashGraph clashOperations none = .ok
        ⟨[Entry.of "GetPetResponse" (.number false) .response [],
          Entry.of "FindOwnerResponse" (.tuple [.ref "FindOwnerResponse"]) .response []], []⟩ ∧
      (respondingOperation "getPet" (.node 5)).claim? .response = some "GetPetResponse" ∧
      (respondingOperation "getPet" (.node 5)).description clashSetting .response =
        .ok (.keyword .boolean) ∧
      clashSetting.componentName? (.node 3) = some (.text "FindOwnerResponse") ∧
      description clashSetting (some "FindOwnerResponse") (.node 3) = .ok (.string none) := by
  refine ⟨by decide, rfl, rfl, rfl, rfl, rfl⟩

end OpenApi

end ApiSchema
