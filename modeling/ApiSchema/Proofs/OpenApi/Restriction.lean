/-
# Choosing fewer operations

A catalog for fewer operations has no entry and no warning that the catalog for more operations does
not have. While a part is converted the state is only written, so the conversion of a part has the
same effects in both runs: what it queues and what it warns of in the one run is there at the end of
the other run.
-/
import ApiSchema.Proofs.OpenApi.Coverage
import ApiSchema.Proofs.OpenApi.Ownership

namespace ApiSchema

open List

variable {operations after : List Operation} {progress later before : Progress} {setting : Setting}
  {asked : Role → List Operation} {name other : String} {schema : Schema} {category : Category}
  {operation : Operation} {role : Role} {chosen : List String} {all : Option (List String)}

/-- Elements that are chosen by attempts which all succeed are chosen by what the attempts give. -/
theorem eq_filter_of_filterM_eq_ok {ε α : Type} {attempt : α → Except ε Bool} {test : α → Bool}
    {elements result : List α}
    (h : ∀ element chosen, attempt element = .ok chosen → chosen = test element)
    (hr : elements.filterM attempt = .ok result) : result = elements.filter test := by
  have hrs : ∀ (elements before : List α) {result},
      elements.filterAuxM attempt before = .ok result →
        result = (elements.filter test).reverse ++ before := by
    intro elements
    induction elements with
    | nil =>
      intro before result hr
      cases hr
      rfl
    | cons first rest ih =>
      intro before result hr
      obtain ⟨chosen, hc, hr⟩ := of_bind_eq_ok hr
      rw [ih _ hr, filter_cons, ← h first chosen hc]
      cases chosen <;> simp
  obtain ⟨reversed, hrv, hr⟩ := of_bind_eq_ok hr
  cases hr
  rw [hrs elements [] hrv, append_nil, reverse_reverse]

namespace OpenApi

/-! ## Chosen operations -/

/-- Whether an operation is chosen by its name. -/
def Operation.isChosen (ids : Option (List String)) (operation : Operation) : Bool :=
  ids.all fun ids => operation.id.text?.any ids.contains

/-- The operations that are selected are those that are chosen by their names. -/
theorem eq_filter_of_selectOperations {ids : Option (List String)}
    {chosen : List Operation} (h : selectOperations ids operations = .ok chosen) :
    chosen = operations.filter (·.isChosen ids) := by
  cases ids with
  | none =>
    cases h
    simp [Operation.isChosen]
  | some ids =>
    refine eq_filter_of_filterM_eq_ok (fun operation result hr => ?_) h
    obtain ⟨key, hk, hr⟩ := of_bind_eq_ok hr
    unfold Operation.isChosen
    cases hi : operation.id with
    | node id =>
      rw [hi] at hk
      cases hk
    | atom value =>
      rw [hi] at hk
      cases hk
      cases key <;> cases hr <;> rfl

/-! ## Effects of a conversion -/

/-- The later state has the names and the warnings of the earlier one. -/
structure Covers (progress later : Progress) : Prop where
  names : ∀ name, name ∈ progress.taken ∨ name ∈ progress.pending →
    name ∈ later.taken ∨ name ∈ later.pending
  warnings : progress.warnings ⊆ later.warnings

namespace Covers

variable {middle : Progress}

theorem refl (progress : Progress) : Covers progress progress := ⟨fun _ h => h, fun _ h => h⟩

theorem trans (h : Covers progress middle) (h' : Covers middle later) : Covers progress later :=
  ⟨fun name hn => h'.names name (h.names name hn),
    fun _ ht => h'.warnings (h.warnings ht)⟩

theorem warn (progress : Progress) (text : String) :
    Covers progress (progress.warn text) ∧ text ∈ (progress.warn text).warnings := by
  unfold Progress.warn
  split
  · rename_i hw
    exact ⟨refl progress, by simpa using hw⟩
  · exact ⟨⟨fun _ hn => hn, subset_append_left _ _⟩, by simp⟩

/-- A component that is queued if it has no entry. -/
theorem ensure (progress : Progress) (name : String) : Covers progress (progress.ensure name) ∧
    (name ∈ (progress.ensure name).taken ∨ name ∈ (progress.ensure name).pending) := by
  unfold Progress.ensure
  split
  · rename_i hm
    exact ⟨refl progress, by simpa using hm⟩
  · exact ⟨⟨fun _ hn => hn.imp id (mem_append_left _), fun _ ht => ht⟩, by simp⟩

theorem take (progress : Progress) (name : String) : Covers progress (progress.take name) := by
  refine ⟨fun other ho => ?_, ?_⟩
  · rw [(progress.take_entries name).2, progress.mem_taken_take]
    exact ho.imp Or.inl id
  · unfold Progress.take
    split <;> exact fun _ ht => ht

theorem add (progress : Progress) (name : String) (schema : Schema) (category : Category) :
    Covers progress (progress.add name schema category) :=
  ⟨(take progress name).names, (take progress name).warnings⟩

end Covers

section

variable {α : Type} {step : Builder α} {result : α}

theorem Quiet.covers (h : Quiet setting step) (hr : step.run progress = .ok (result, later)) :
    Covers progress later := by
  have hk : Ensures (Covers progress) step fun _ => Covers progress :=
    h.keeps (fun state text hs => hs.trans (Covers.warn state text).1)
      fun state name _ hs => hs.trans (Covers.ensure state name).1
  exact hk progress result later (.refl progress) hr

/-- A quiet step can be taken again, without any effect, in a state that covers the one after it. -/
theorem Quiet.absorbed (h : Quiet setting step) (hr : step.run progress = .ok (result, later))
    {whole : Progress} (hc : Covers later whole) : step.run whole = .ok (result, whole) := by
  -- As long as the one run is covered, the other one stays where it is.
  have ho : Oblivious setting fun state other => Covers state whole → other = whole := by
    constructor
    · intro state other hsm text hs
      obtain ⟨hw, ht⟩ := Covers.warn state text
      rw [hsm (hw.trans hs)]
      exact if_pos (by simpa using hs.warnings ht)
    · intro state other item name hsm _ hs
      obtain ⟨he, hn⟩ := Covers.ensure state name
      rw [hsm (he.trans hs)]
      exact if_pos (by simpa using hs.names name hn)
  obtain ⟨final, hf, hsm⟩ :=
    h _ ho progress whole result later (fun _ => rfl) hr
  rwa [hsm hc] at hf

/-- A quiet step that has no effect in one state has little in another one: what it queues and what
it warns of is there. -/
theorem Quiet.within {whole : Progress} (h : Quiet setting step)
    (hwh : step.run whole = .ok (result, whole)) (hd : whole.pending = [])
    {result' : α} (hr : step.run progress = .ok (result', later)) :
    result' = result ∧ (∀ name ∈ later.pending, name ∈ progress.pending ∨ name ∈ whole.taken) ∧
      ∀ text ∈ later.warnings, text ∈ progress.warnings ∨ text ∈ whole.warnings := by
  let bounded (other state : Progress) : Prop :=
    (∀ name ∈ state.pending, name ∈ progress.pending ∨ name ∈ other.taken ∨ name ∈ other.pending) ∧
      ∀ text ∈ state.warnings, text ∈ progress.warnings ∨ text ∈ other.warnings
  have hob : Oblivious setting bounded := by
    constructor
    · rintro other state ⟨hq, hwr⟩ text
      obtain ⟨hc, ht⟩ := Covers.warn other text
      constructor
      · intro name hn
        rw [(state.warn_fields text).2.2] at hn
        exact (hq name hn).imp id (hc.names name)
      · intro warning hw
        rcases Progress.of_mem_warn hw with hw | rfl
        · exact (hwr warning hw).imp id fun ho => hc.warnings ho
        · exact Or.inr ht
    · rintro other state item name ⟨hq, hwr⟩ _
      obtain ⟨hc, hn⟩ := Covers.ensure other name
      constructor
      · intro queued hq'
        rcases Progress.of_mem_ensure hq' with hq' | rfl
        · exact (hq queued hq').imp id (hc.names queued)
        · exact Or.inr hn
      · intro warning hw
        rw [(state.ensure_fields name).2.2] at hw
        exact (hwr warning hw).imp id fun ho => hc.warnings ho
  obtain ⟨final, hf, hq, hwr⟩ := h _ hob whole progress result whole
    ⟨fun _ hn => Or.inl hn, fun _ ht => Or.inl ht⟩ hwh
  rw [hr] at hf
  cases hf
  refine ⟨rfl, fun name hn => (hq name hn).imp id fun ho => ?_, hwr⟩
  rw [hd] at ho
  exact ho.resolve_right not_mem_nil

end

/-! ## The larger catalog -/

/-- The step has been taken: in every state that covers this one it has this result and no effect.
-/
def Lasts (progress : Progress) (step : Builder Schema) (schema : Schema) : Prop :=
  ∀ whole, Covers progress whole → step.run whole = .ok (schema, whole)

theorem Lasts.mono {step : Builder Schema}
    (h : Lasts progress step schema) (hc : Covers progress later) : Lasts later step schema :=
  fun whole hw => h whole (hc.trans hw)

/-- The entry is there, and the step that it is made by has been taken. -/
def Made (progress : Progress) (name : String) (category : Category) (step : Builder Schema) :
    Prop :=
  ∃ schema, Entry.of name schema category [] ∈ progress.entries ∧ Lasts progress step schema

/-- The component is converted. -/
def componentStep (setting : Setting) (name : String) : Builder Schema :=
  schemaOf setting (some name) (setting.component name)

/-- Every name that is taken is that of a component with its entry, or has been asked for by an
operation; the first operation to ask for a name has its entry; and only components are queued. -/
structure Backed (setting : Setting) (asked : Role → List Operation) (progress : Progress) : Prop
    where
  named : ∀ name ∈ progress.taken, IsComponentName setting name ∨
    ∃ role, ∃ operation ∈ asked role, operation.claim? role = some name
  component : ∀ name ∈ progress.taken, IsComponentName setting name →
    Made progress name .component (componentStep setting name)
  part : ∀ {role operation name},
    firstClaimant? (·.claim? role) (asked role) name = some operation →
      Made progress name role.category (operation.conversion setting role)
  queued : ∀ name ∈ progress.pending, IsComponentName setting name

/-- The later state has what the earlier one has. Only this name is taken in between, and only
components are queued. -/
structure Extended (setting : Setting) (name : String) (before after : Progress) : Prop where
  entries : before.entries ⊆ after.entries
  covers : Covers before after
  taken : ∀ other ∈ after.taken, other ∈ before.taken ∨ other = name
  queued : ∀ other ∈ after.pending, other ∈ before.pending ∨ IsComponentName setting other

section

variable {step : Builder Schema}

/-- A component leaves the queue because its name is taken. -/
theorem Popped.extended (h : Popped name before progress) (ht : name ∈ progress.taken) :
    Extended setting name before progress where
  entries := by
    rw [h.entries]
    exact List.Subset.refl _
  covers := by
    constructor
    · rintro other (ho | ho)
      · exact Or.inl (h.taken ▸ ho)
      · rcases h.rest other ho with rfl | ho
        · exact Or.inl ht
        · exact Or.inr ho
    · rw [h.warnings]
      exact List.Subset.refl _
  taken other ho := Or.inl (h.taken ▸ ho)
  queued other ho := Or.inl (h.pending ho)

/-- A component leaves the queue and takes its name. -/
theorem Popped.extended_take (h : Popped name before progress) :
    Extended setting name before (progress.take name) := by
  obtain ⟨he, hp⟩ := progress.take_entries name
  constructor
  case entries =>
    rw [he, h.entries]
    exact List.Subset.refl _
  case covers =>
    constructor
    · intro other ho
      rw [progress.mem_taken_take, hp, h.taken]
      rcases ho with ho | ho
      · exact Or.inl (Or.inl ho)
      · exact (h.rest other ho).imp Or.inr id
    · rw [← h.warnings]
      exact (Covers.take progress name).warnings
  case taken =>
    intro other ho
    rw [progress.mem_taken_take, h.taken] at ho
    exact ho
  case queued =>
    rw [hp]
    exact fun other ho => Or.inl (h.pending ho)

/-- The entry for a part is added after its conversion. -/
theorem Extended.add (h : Extended setting name before progress) (hs : Quiet setting step)
    (hr : step.run progress = .ok (schema, later)) :
    Extended setting name before (later.add name schema category) := by
  obtain ⟨he, ht, hq⟩ := hs.frame hr
  obtain ⟨-, hp⟩ := later.take_entries name
  constructor
  case entries =>
    intro entry hen
    refine mem_append_left _ ?_
    rw [he]
    exact h.entries hen
  case covers =>
    exact (h.covers.trans (hs.covers hr)).trans (Covers.add later name schema category)
  case taken =>
    intro other ho
    rcases (later.mem_taken_take name other).mp ho with ho | rfl
    · rw [ht] at ho
      exact h.taken other ho
    · exact Or.inr rfl
  case queued =>
    intro other ho
    rw [Progress.add, hp] at ho
    rcases hq other ho with ho | ho
    · exact h.queued other ho
    · exact Or.inr ho

theorem Extended.refl (progress : Progress) : Extended setting name progress progress :=
  ⟨List.Subset.refl _, .refl progress, fun _ h => Or.inl h, fun _ h => Or.inl h⟩

theorem Made.extend {name' : String} (h : Made before name category step)
    (he : Extended setting name' before progress) : Made progress name category step := by
  obtain ⟨schema, hen, hl⟩ := h
  exact ⟨schema, he.entries hen, hl.mono he.covers⟩

theorem Quiet.made (h : Quiet setting step) (hr : step.run progress = .ok (schema, later)) :
    Made (later.add name schema category) name category step := by
  refine ⟨schema, by simp [Progress.add], fun whole hw => h.absorbed hr ?_⟩
  exact (Covers.add later name schema category).trans hw

theorem Backed.start : Backed setting (fun _ => []) .start where
  named := by simp [Progress.start]
  component := by simp [Progress.start]
  part := by simp [firstClaimant?]
  queued := by simp [Progress.start]

/-- What is known of names stays known, if it is known of the new name. -/
theorem Backed.extend {asked' : Role → List Operation} (h : Backed setting asked before)
    (he : Extended setting name before progress)
    (ha : ∀ role, asked role ⊆ asked' role)
    (hn : IsComponentName setting name ∨
      ∃ role, ∃ operation ∈ asked' role, operation.claim? role = some name)
    (hc : IsComponentName setting name →
      Made progress name .component (componentStep setting name))
    (hp : ∀ {role operation name},
      firstClaimant? (·.claim? role) (asked' role) name = some operation →
        firstClaimant? (·.claim? role) (asked role) name = some operation ∨
          Made progress name role.category (operation.conversion setting role)) :
    Backed setting asked' progress where
  named := by
    intro other ho
    rcases he.taken other ho with ho | rfl
    · refine (h.named other ho).imp id ?_
      rintro ⟨role, operation, hop, hcl⟩
      exact ⟨role, operation, ha role hop, hcl⟩
    · exact hn
  component := by
    intro other ho hc'
    rcases he.taken other ho with ho | rfl
    · exact (h.component other ho hc').extend he
    · exact hc hc'
  part hf := (hp hf).elim (fun hf => (h.part hf).extend he) id
  queued other ho := (he.queued other ho).elim (h.queued other) id

end

/-- While a catalog is made every name is accounted for, if no operation asks for the name of a
component. -/
theorem kept_backed
    (hfr : ∀ operation ∈ operations, ∀ role name, operation.claim? role = some name →
      ¬ IsComponentName setting name) :
    Kept setting operations (IsComponentName setting) (Backed setting) where
  queued h := h.queued
  left := by
    intro asked before progress name h hp ht
    have he : Extended setting name before progress := hp.extended ht
    rw [hp.taken] at ht
    refine h.extend he (fun _ => List.Subset.refl _) (h.named name ht) ?_ Or.inl
    exact fun hn => (h.component name ht hn).extend he
  component := by
    intro asked before progress later name schema h hp hn _ hr
    have hs : Quiet setting (componentStep setting name) := quiet_schemaOf _ _
    exact h.extend (hp.extended_take.add hs hr) (fun _ => List.Subset.refl _)
      (Or.inl hn) (fun _ => hs.made hr) Or.inl
  refused := by
    intro asked progress role operation h hop _ ht
    refine ⟨?_, h.component, fun hf => ?_, h.queued⟩
    · intro name hn
      refine (h.named name hn).imp id ?_
      rintro ⟨role', other, ho, hc⟩
      exact ⟨role', other, mem_ask ho, hc⟩
    · rcases of_firstClaimant?_ask hf with hf | ⟨rfl, rfl, hc, hnn⟩
      · exact h.part hf
      · -- Nobody has asked for the name, so it would have to be taken by a component.
        exfalso
        rcases h.named _ (ht _ hc) with hn | ⟨role', other, ho, hc'⟩
        · exact hfr _ hop _ _ hc hn
        · obtain ⟨base, hb⟩ := (Operation.exists_of_claim? hc).2
          obtain ⟨base', hb'⟩ := (Operation.exists_of_claim? hc').2
          obtain rfl := Role.eq_of_append_ending_eq (hb.symm.trans hb')
          exact hnn other ho hc'
  answered := by
    intro asked progress later role operation name schema after h hsp hc _ hr
    have hs : Quiet setting (operation.conversion setting role) :=
      operation.quiet_conversion role
    refine h.extend ((Extended.refl progress).add hs hr) (fun _ _ => mem_ask)
      (Or.inr ⟨role, operation, mem_ask_self, hc⟩) ?_ ?_
    · intro hn
      exact absurd hn (hfr operation (by simp [hsp]) role name hc)
    · intro role' first name' hf
      rcases of_firstClaimant?_ask hf with hf | ⟨rfl, rfl, hc', -⟩
      · exact Or.inl hf
      · obtain rfl : name = name' := Option.some.inj (hc.symm.trans hc')
        exact Or.inr (hs.made hr)

/-! ## The smaller catalog -/

/-- What has been made is there at the end of the larger run, and so is every component in the
queue. Every operation that has asked finds its name taken. -/
structure Below (setting : Setting) (whole : Progress) (asked : Role → List Operation)
    (progress : Progress) : Prop where
  entries : progress.entries ⊆ whole.entries
  warnings : progress.warnings ⊆ whole.warnings
  queued : ∀ name ∈ progress.pending, IsComponentName setting name ∧ name ∈ whole.taken
  answered : ∀ {role operation name}, operation ∈ asked role →
    operation.claim? role = some name → name ∈ progress.taken

section

variable {whole : Progress} {step : Builder Schema}

theorem Below.start : Below setting whole (fun _ => []) .start where
  entries := by simp [Progress.start]
  warnings := by simp [Progress.start]
  queued := by simp [Progress.start]
  answered := by simp

theorem Below.pop (h : Below setting whole asked before) (hp : Popped name before progress) :
    Below setting whole asked progress where
  entries := by
    rw [hp.entries]
    exact h.entries
  warnings := by
    rw [hp.warnings]
    exact h.warnings
  queued other hot := h.queued other (hp.pending hot)
  answered ho hc := by
    rw [hp.taken]
    exact h.answered ho hc

section

variable (h : Below setting whole asked progress)

include h

theorem Below.take (name : String) : Below setting whole asked (progress.take name) := by
  obtain ⟨he, hp⟩ := progress.take_entries name
  constructor
  case entries =>
    rw [he]
    exact h.entries
  case warnings =>
    unfold Progress.take
    split <;> exact h.warnings
  case queued =>
    rw [hp]
    exact h.queued
  case answered =>
    intro role operation other ho hc
    exact (progress.mem_taken_take name other).mpr (Or.inl (h.answered ho hc))

/-- An entry is added whose part has been converted in the larger run too. -/
theorem Below.add (hd : whole.pending = [])
    (hs : Quiet setting step) (hm : Made whole name category step)
    (hr : step.run progress = .ok (schema, later)) :
    Below setting whole asked (later.add name schema category) := by
  obtain ⟨schema', hen, hls⟩ := hm
  obtain ⟨rfl, hq, hw⟩ := hs.within (hls whole (.refl whole)) hd hr
  obtain ⟨he, htk, hq'⟩ := hs.frame hr
  -- The entry and its name are added to what the conversion leaves.
  have hl : Below setting whole asked later := by
    constructor
    case entries =>
      rw [he]
      exact h.entries
    case warnings =>
      exact fun text htx => (hw text htx).elim (fun h' => h.warnings h') id
    case queued =>
      intro other ho
      rcases hq other ho with hb | hwh
      · exact h.queued other hb
      · rcases hq' other ho with hb | hc
        · exact h.queued other hb
        · exact ⟨hc, hwh⟩
    case answered =>
      rw [htk]
      exact h.answered
  have ht := hl.take name
  refine ⟨?_, ht.warnings, ht.queued, ht.answered⟩
  exact append_subset.mpr ⟨hl.entries, cons_subset.mpr ⟨hen, nil_subset _⟩⟩

theorem Below.ask (ht : ∀ name, operation.claim? role = some name → name ∈ progress.taken) :
    Below setting whole (ApiSchema.ask asked role operation) progress := by
  refine ⟨h.entries, h.warnings, h.queued, fun ho hc => ?_⟩
  rcases of_mem_ask ho with ho | ⟨rfl, rfl⟩
  · exact h.answered ho hc
  · exact ht _ hc

end

end

/-- While the smaller catalog is made nothing is made that the larger one does not have, if the
first operation to ask for a name is the same in both. -/
theorem kept_below {operations' : List Operation} {whole : Progress}
    (hd : whole.pending = []) (hw : Backed setting (fun _ => operations') whole)
    (hf : ∀ {role name operation},
      firstClaimant? (·.claim? role) operations name = some operation →
        firstClaimant? (·.claim? role) operations' name = some operation) :
    Kept setting operations (fun name => IsComponentName setting name ∧ name ∈ whole.taken)
      (Below setting whole) where
  queued h := h.queued
  left h hp _ := h.pop hp
  component := by
    intro asked before progress later name schema h hp hn _ hr
    exact ((h.pop hp).take name).add hd (quiet_schemaOf _ _)
      (hw.component name hn.2 hn.1) hr
  refused h _ _ ht := h.ask ht
  answered := by
    intro asked progress later role operation name schema after h hs hc hnw hr
    have hnn : ∀ earlier ∈ asked role, earlier.claim? role ≠ some name :=
      fun earlier he hc' => hnw (h.answered he hc')
    have hm := hw.part (hf (firstClaimant?_eq_some_iff.mpr
      ⟨hc, asked role, after, hs, hnn⟩))
    refine (h.add hd (operation.quiet_conversion role) hm hr).ask fun name' hc' => ?_
    obtain rfl := Option.some.inj (hc.symm.trans hc')
    exact (later.mem_taken_take name name).mpr (Or.inr rfl)

/-! ## Catalogs -/

theorem Operation.isChosen_congr {other : Operation} (h : operation.id = other.id)
    (ids : Option (List String)) : operation.isChosen ids = other.isChosen ids := by
  unfold isChosen
  rw [h]

/-- Who is chosen by some names is chosen by more names. -/
theorem Operation.isChosen_mono
    (hs : ∀ ids, all = some ids → chosen ⊆ ids)
    (h : operation.isChosen (some chosen)) : operation.isChosen all := by
  cases all with
  | none => rfl
  | some ids =>
    unfold isChosen at h ⊢
    rw [Option.all_some, Option.any_eq_true] at h ⊢
    obtain ⟨id, hi, hm⟩ := h
    exact ⟨id, hi, by simpa using hs ids rfl (by simpa using hm)⟩

/-- If only operations with the same name ask for the same names, the first one to ask is the same
among fewer operations and among more. -/
theorem firstClaimant?_filter_isChosen (hsb : ∀ ids, all = some ids → chosen ⊆ ids)
    (hids : ∀ operation ∈ operations, ∀ other ∈ operations, ∀ name,
      operation.claim? role = some name → other.claim? role = some name → operation.id = other.id)
    {first : Operation}
    (h : firstClaimant? (·.claim? role) (operations.filter (·.isChosen (some chosen))) name =
      some first) :
    firstClaimant? (·.claim? role) (operations.filter (·.isChosen all)) name = some first := by
  have hcl := claim?_of_firstClaimant? h
  obtain ⟨hf, hc⟩ := mem_filter.mp (mem_of_firstClaimant? h)
  unfold firstClaimant? at h ⊢
  rw [find?_filter, ← head?_filter] at h ⊢
  rw [← h]
  congr 1
  refine filter_congr fun operation ho => ?_
  by_cases hs : operation.claim? role = some name
  · have hi := hids operation ho first hf name hs hcl
    rw [Operation.isChosen_congr hi, Operation.isChosen_congr hi, hc,
      Operation.isChosen_mono hsb hc]
  · simp [hs]

/-- A catalog of some operations has only entries that the catalog of more operations has, with the
same category, schema and dependencies, and only its warnings: if operations with different names
ask for different names, and for none of a component. -/
theorem choosing_fewer_operations_only_removes {graph : Graph} {operations : List Operation}
    {chosen : List String} {all : Option (List String)} {setting : Setting} {part whole : Catalog}
    (hdistinct : graph.hasDistinctKeys = true) (hsetting : Setting.of graph = .ok setting)
    (hids : ∀ operation ∈ operations, ∀ other ∈ operations, ∀ role name,
      operation.claim? role = some name → other.claim? role = some name → operation.id = other.id)
    (hfree : ∀ operation ∈ operations, ∀ role name, operation.claim? role = some name →
      ¬ IsComponentName setting name)
    (hsub : ∀ ids, all = some ids → chosen ⊆ ids)
    (hpart : catalog graph operations (some chosen) = .ok part)
    (hwhole : catalog graph operations all = .ok whole) :
    part.entries ⊆ whole.entries ∧ part.warnings ⊆ whole.warnings := by
  have hky := Setting.nodup_names hdistinct hsetting
  have hfw : ∀ ids, ∀ operation ∈ operations.filter (·.isChosen ids), ∀ role name,
      operation.claim? role = some name → ¬ IsComponentName setting name :=
    fun ids operation ho => hfree operation (mem_of_mem_filter ho)
  have hm : operations.filter (·.isChosen (some chosen)) ⊆ operations.filter (·.isChosen all) :=
    (monotone_filter_right operations fun _ => Operation.isChosen_mono hsub).subset
  obtain ⟨operations', ho', hwhole⟩ := of_bind_eq_ok hwhole
  rw [eq_filter_of_selectOperations ho', hsetting] at hwhole
  obtain ⟨wholeEnd, wholeUsed, hwholeRun, hwholeUsed, rfl⟩ := exists_run_of_catalogOf hwhole
  obtain ⟨operations'', ho'', hpart⟩ := of_bind_eq_ok hpart
  rw [eq_filter_of_selectOperations ho'', hsetting] at hpart
  obtain ⟨partEnd, partUsed, hpartRun, hpartUsed, rfl⟩ := exists_run_of_catalogOf hpart
  have hc : ∀ name ∈ wholeUsed, IsComponentName setting name := by
    intro name hn
    obtain ⟨item, -, -, hi⟩ := meets_of_usedComponents hwholeUsed name hn
    exact ⟨item, hi⟩
  obtain ⟨hbc, hd⟩ := (kept_backed (hfw all)).ensures_addAll hwholeUsed hc _ _ _
    Backed.start hwholeRun
  have hown := ensures_owned_addAll hky hwholeUsed _ _ _ Owned.start hwholeRun
  have hft : ∀ name ∈ partUsed, IsComponentName setting name ∧ name ∈ wholeEnd.taken := by
    intro name hn
    have hu := usedComponents_subset hm hpartUsed hwholeUsed hn
    obtain ⟨entry, he, rfl, -⟩ := hown.held name hu
    exact ⟨hc _ hu, (hown.taken _).mpr (mem_map_of_mem he)⟩
  have hk := kept_below hd hbc fun hf => firstClaimant?_filter_isChosen hsub
    (fun operation ho other hot => hids operation ho other hot _) hf
  obtain ⟨hb, -⟩ := hk.ensures_addAll hpartUsed hft _ _ _ Below.start hpartRun
  refine ⟨fun entry he => ?_, hb.warnings⟩
  exact mem_topologicalSort_of_mem hown.distinct
    (hb.entries (mem_of_mem_topologicalSort he))

/-- A document with a component for pets, whose weights have no known type, and one for tags. The
last node is a list of pets. -/
def weightGraph : Graph where
  nodes := #[.map [(.text "components", .node 1)], .map [(.text "schemas", .node 2)],
    .map [(.text "Pet", .node 3), (.text "Tag", .node 5)],
    .map [(.text "type", .text "object"), (.text "properties", .node 4)],
    .map [(.text "tag", .node 5), (.text "weight", .node 6)],
    .map [(.text "type", .text "string")],
    .map [(.text "type", .text "decimal")],
    .map [(.text "type", .text "array"), (.text "items", .node 3)]]
  root := .node 0

/-- An operation for a tag, and one for all pets. -/
def weightOperations : List Operation :=
  [respondingOperation "getTag" (.node 5), respondingOperation "listPets" (.node 7)]

/-- The pets alone, with their components and the warning about the weight, are part of the catalog
of both operations. -/
theorem listPets_is_part_of_catalog : weightGraph.hasDistinctKeys = true ∧
      ∃ part whole, catalog weightGraph weightOperations (some ["listPets"]) = .ok part ∧
        catalog weightGraph weightOperations none = .ok whole ∧
        (part.entries.map (·.name)) = ["Tag", "Pet", "ListPetsResponse"] ∧
        part.warnings.length = 1 ∧
        part.entries ⊆ whole.entries ∧ part.warnings ⊆ whole.warnings := by
  have hd : weightGraph.hasDistinctKeys = true := by decide
  have hr : ∃ part whole, catalog weightGraph weightOperations (some ["listPets"]) = .ok part ∧
      catalog weightGraph weightOperations none = .ok whole ∧
      (part.entries.map (·.name)) = ["Tag", "Pet", "ListPetsResponse"] ∧
      part.warnings.length = 1 := ⟨_, _, rfl, rfl, rfl, rfl⟩
  obtain ⟨part, whole, hp, hwh, he, hw⟩ := hr
  refine ⟨hd, part, whole, hp, hwh, he, hw, ?_⟩
  refine choosing_fewer_operations_only_removes hd rfl ?_ ?_ (by simp) hp hwh
  · intro operation ho other hot role name hc hc'
    rcases mem_pair.mp ho with rfl | rfl <;> rcases mem_pair.mp hot with rfl | rfl <;>
      cases role <;> cases hc <;> first | rfl | exact absurd hc' (by decide)
  · rintro operation ho role name hc ⟨item, hi⟩
    have hm := Setting.mem_names_of_componentName? hi
    rcases mem_pair.mp ho with rfl | rfl <;> cases role <;> cases hc <;>
      simp at hm <;> exact absurd hm (by decide)

end OpenApi

end ApiSchema
