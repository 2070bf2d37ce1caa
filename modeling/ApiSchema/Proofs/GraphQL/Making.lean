/-
# How entries come about

If no fragment leads back to itself and no two entries would get the same name, a catalog comes
about. It has an entry for everything that belongs into it, and no other entry. The schema of the
entry of a fragment or a response is that of the outline of its selections.
-/
import Mathlib.Data.List.Pairwise
import ApiSchema.Proofs.Filter
import ApiSchema.Proofs.GraphQL.Upkeep

namespace ApiSchema.GraphQL

open List

variable {progress base middle : Progress} {entries : List Entry} {merging : List String}
  {recorded : List (String × String)} {setting : Setting} {rest : List NamedType}
  {category : Category} {entry : Entry} {result : Catalog} {name : String} {schema : Schema}
  {fragment : SourcedFragment} {type : NamedType} {selections : List Selection}
  {operation : NamedOperation} {content : Content}

/-! ## Selections with an entry of their own -/

/-- The entry of a name and a category is made for selections on a type: those of a fragment on a
known type, or those of an operation. -/
inductive Setting.SelectedFor (setting : Setting) :
    String → Category → List String → NamedType → List Selection → Prop
  | fragment {fragment : SourcedFragment} {type : NamedType}
      (hmem : fragment ∈ setting.documents.fragments)
      (htype : setting.spreadType? fragment.name = some type) :
      SelectedFor setting (Name.fragmentEntry fragment.name) .fragment [fragment.name] type
        fragment.selections
  | response {operation : NamedOperation} {root : NamedType}
      (hmem : operation ∈ setting.documents.operations)
      (hroot : setting.system.root? operation.kind = some root) :
      SelectedFor setting (Name.responseEntry operation.name operation.kind.name) .response [] root
        operation.selections

section

variable (horderly : setting.Orderly)

include horderly

/-- Different fragments have entries of different names. -/
theorem Setting.Orderly.fragment_eq {other : SourcedFragment}
    (hf : fragment ∈ setting.documents.fragments)
    (ho : other ∈ setting.documents.fragments)
    (ht : (setting.spreadType? fragment.name).isSome)
    (ht' : (setting.spreadType? other.name).isSome)
    (h : Name.fragmentEntry fragment.name = Name.fragmentEntry other.name) : fragment = other := by
  have hn : setting.fragmentNames.Nodup := (nodup_append.mp horderly.names).1
  exact inj_on_of_nodup_map hn (mem_filter.mpr ⟨hf, ht⟩)
    (mem_filter.mpr ⟨ho, ht'⟩) h

/-- Fragments that are found under different names have entries of different names. -/
theorem Setting.Orderly.name_eq {name' : String}
    {fragment' : SourcedFragment} (hf : setting.documents.fragment? name = some fragment)
    (hf' : setting.documents.fragment? name' = some fragment')
    (ht : (setting.spreadType? name).isSome) (ht' : (setting.spreadType? name').isSome)
    (h : Name.fragmentEntry name = Name.fragmentEntry name') : name = name' := by
  obtain ⟨hm, rfl⟩ := Documents.of_fragment? hf
  obtain ⟨hm', rfl⟩ := Documents.of_fragment? hf'
  rw [horderly.fragment_eq hm hm' ht ht' h]

/-- Different operations have responses of different names. -/
theorem Setting.Orderly.operation_eq {other : NamedOperation}
    (hoperation : operation ∈ setting.documents.operations)
    (ho : other ∈ setting.documents.operations)
    (hr : (setting.system.root? operation.kind).isSome)
    (hr' : (setting.system.root? other.kind).isSome)
    (h : Name.responseEntry operation.name operation.kind.name =
      Name.responseEntry other.name other.kind.name) : operation = other := by
  by_contra hne
  have hs : Std.Symm (Function.onFun Disjoint setting.operationNames) :=
    ⟨fun _ _ h _ hm hm' => h hm' hm⟩
  have hm : ∀ {operation : NamedOperation}, (setting.system.root? operation.kind).isSome →
      Name.responseEntry operation.name operation.kind.name ∈ setting.operationNames operation :=
    fun hr => mem_append_right _ (by rw [if_pos hr]; exact mem_singleton_self _)
  have hn := (nodup_append.mp horderly.names).2.1
  exact (nodup_flatMap.mp hn).2.forall hoperation ho hne (hm hr) (h ▸ hm hr')

/-- The entry of a fragment and the entry of a response have different names. -/
theorem Setting.Orderly.fragmentEntry_ne_responseEntry
    (hf : setting.documents.fragment? name = some fragment)
    (ht : (setting.spreadType? name).isSome)
    (hoperation : operation ∈ setting.documents.operations)
    (hr : (setting.system.root? operation.kind).isSome) :
    Name.fragmentEntry name ≠ Name.responseEntry operation.name operation.kind.name := by
  obtain ⟨hm, rfl⟩ := Documents.of_fragment? hf
  refine (nodup_append.mp horderly.names).2.2 _ ?_ _ ?_
  · exact mem_map.mpr ⟨fragment, mem_filter.mpr ⟨hm, ht⟩, rfl⟩
  · refine mem_flatMap.mpr ⟨operation, hoperation, mem_append_right _ ?_⟩
    rw [if_pos hr]
    exact mem_singleton_self _

end

namespace Setting.SelectedFor

variable (h : setting.SelectedFor name category merging type selections)

include h

theorem category_eq : category = .fragment ∨ category = .response := by
  cases h
  · exact Or.inl rfl
  · exact Or.inr rfl

/-- What the schema refers to is called for. -/
theorem called {other : String} (hr : Refers setting merging type selections other) :
    Called setting other := by
  cases h with
  | fragment hm ht => exact .fragment hm ⟨_, ht, hr⟩
  | response hm hrt => exact .response hm ⟨_, hrt, hr⟩

/-- The entry with the schema of the outline belongs into the catalog. -/
theorem belongs :
    Belongs setting ⟨name, category, (outlineAll setting type selections).schema type⟩ := by
  cases h with
  | fragment hm ht =>
    refine Or.inl (mem_append_left _ (mem_filterMap.mpr ⟨_, hm, ?_⟩))
    rw [fragmentContent?, ht]
    rfl
  | response hm hr =>
    refine Or.inl (mem_ownContents hm (mem_append_right _ (Option.mem_toList.mpr ?_)))
    rw [responseContent?, hr]
    rfl

variable (horderly : setting.Orderly)

include horderly

/-- The selections are not larger than the documents, and what they spread is reached from the
fragment that they belong to. -/
theorem fits : Selection.sizeOfAll selections ≤ setting.documents.size ∧
    SpreadsBelow setting.documents merging selections := by
  cases h with
  | fragment hm _ =>
    exact ⟨sizeOfAll_fragment_le hm, spreadsBelow_of_fragment? (horderly.fragment?_name hm)⟩
  | response hm _ => exact ⟨sizeOfAll_operation_le hm, spreadsBelow_nil _⟩

/-- An entry is made for one selection set only. -/
theorem unique {category' : Category} {merging' : List String} {type' : NamedType}
    {selections' : List Selection} {name' : String}
    (h' : setting.SelectedFor name' category' merging' type' selections') (hn : name = name') :
    merging = merging' ∧ type = type' ∧ selections = selections' := by
  cases h with
  | fragment hm ht =>
    have hs := Option.isSome_of_eq_some ht
    cases h' with
    | fragment hm' ht' =>
      obtain rfl := horderly.fragment_eq hm hm' hs (Option.isSome_of_eq_some ht') hn
      exact ⟨rfl, Option.some.inj (ht.symm.trans ht'), rfl⟩
    | response hm' hr => exact absurd hn (horderly.fragmentEntry_ne_responseEntry
        (horderly.fragment?_name hm) hs hm' (Option.isSome_of_eq_some hr))
  | response hm hr =>
    have hs := Option.isSome_of_eq_some hr
    cases h' with
    | fragment hm' ht => exact absurd hn.symm (horderly.fragmentEntry_ne_responseEntry
        (horderly.fragment?_name hm') (Option.isSome_of_eq_some ht) hm hs)
    | response hm' hr' =>
      obtain rfl := horderly.operation_eq hm hm' hs (Option.isSome_of_eq_some hr') hn
      exact ⟨rfl, Option.some.inj (hr.symm.trans hr'), rfl⟩

end Setting.SelectedFor

/-! ## The entries -/

/-- What holds of the entries so far: each has a name of its own and belongs into the catalog. -/
structure Ledger (setting : Setting) (entries : List Entry) : Prop where
  distinct : (entries.map (·.name)).Nodup
  contents : ∀ entry ∈ entries, Belongs setting (.of entry)

/-- An entry that belongs into the catalog may be added, if its name is new. -/
theorem Ledger.add (h : Ledger setting progress.entries) (hn : progress.has name = false)
    (hb : Belongs setting ⟨name, category, schema⟩) :
    Ledger setting (progress.add name schema category).entries where
  distinct := nodup_map_concat h.distinct (not_mem_of_has_eq_false hn)
  contents := forall_mem_concat h.contents hb

/-- A recorded fragment is one on a known type and has its entry, and there are no other entries of
fragments. -/
structure Filed (setting : Setting) (entries : List Entry) (recorded : List (String × String)) :
    Prop where
  known : ∀ name entry, Assoc.get? recorded name = some entry →
    entry = Name.fragmentEntry name ∧ entry ∈ entries.map (·.name) ∧
      (setting.spreadType? name).isSome = true
  fragments : ∀ entry ∈ entries, entry.category = .fragment →
    ∃ name, Assoc.has recorded name = true ∧ entry.name = Name.fragmentEntry name

namespace Filed

variable (h : Filed setting entries recorded)

include h

/-- Another entry may be added. -/
theorem add (hc : entry.category ≠ .fragment) : Filed setting (entries ++ [entry]) recorded
    where
  known name found hfn := by
    obtain ⟨hn, hm, ht⟩ := h.known name found hfn
    exact ⟨hn, map_subset _ (subset_append_left _ _) hm, ht⟩
  fragments := forall_mem_concat h.fragments fun hf => absurd hf hc

/-- The entry of a fragment may be added and recorded. -/
theorem record (hn : entry.name = Name.fragmentEntry name)
    (ht : (setting.spreadType? name).isSome) :
    Filed setting (entries ++ [entry]) (Assoc.put recorded name (Name.fragmentEntry name)) where
  known := Assoc.forall_get?_put (fun other found hf => by
      obtain ⟨hn, hm, ht⟩ := h.known other found hf
      exact ⟨hn, map_subset _ (subset_append_left _ _) hm, ht⟩)
    ⟨rfl, by simp [hn], ht⟩
  fragments := by
    have hh : ∀ other, Assoc.has recorded other ∨ other = name →
        Assoc.has (Assoc.put recorded name (Name.fragmentEntry name)) other := by
      intro other ho
      rw [Assoc.has_iff_mem_keys] at ho ⊢
      exact (Assoc.mem_keys_put ..).mpr ho
    refine forall_mem_concat (fun other ho hfr => ?_)
      fun _ => ⟨name, hh name (Or.inr rfl), hn⟩
    obtain ⟨found, hf, hn⟩ := h.fragments other ho hfr
    exact ⟨found, hh found (Or.inl hf), hn⟩

end Filed

/-- The fragment is recorded, if it is on a known type. -/
def Progress.HasFragment (setting : Setting) (progress : Progress) (name : String) : Prop :=
  (setting.spreadType? name).isSome → Assoc.has progress.fragmentEntries name = true

/-- Only fragments on known types are recorded, with the entries that belong to them. -/
theorem Filed.recorded_of_has (h : Filed setting progress.entries progress.fragmentEntries)
    (hn : progress.HasFragment setting name) :
    Recorded setting (Assoc.get? progress.fragmentEntries) name := by
  unfold Recorded Setting.spreadRecord?
  cases hg : Assoc.get? progress.fragmentEntries name with
  | some entry =>
    obtain ⟨rfl, -, ht⟩ := h.known name entry hg
    obtain ⟨type, ht⟩ := Option.isSome_iff_exists.mp ht
    rw [ht]
    rfl
  | none =>
    cases ht : setting.spreadType? name with
    | none => rfl
    | some type =>
      have hh := hn (by rw [ht]; rfl)
      rw [Assoc.has, hg] at hh
      cases hh

theorem Filed.mem_names_of_has (h : Filed setting entries recorded)
    (hn : Assoc.has recorded name) : Name.fragmentEntry name ∈ entries.map (·.name) := by
  obtain ⟨entry, he⟩ := Option.isSome_iff_exists.mp hn
  obtain ⟨rfl, hm, -⟩ := h.known name entry he
  exact hm

/-! ## The state between the steps -/

/-- What holds between the steps after a state `base`: the entries and the queue are in order,
nothing that was there at `base` is lost, and all that the entries refer to is held. -/
structure Underway (setting : Setting) (base progress : Progress) : Prop extends
    Grown base progress where
  ledger : Ledger setting progress.entries
  filed : Filed setting progress.entries progress.fragmentEntries
  queue : Queue setting progress
  called : ∀ type ∈ progress.pending, Called setting type.name
  referred : ∀ {name category merging type selections},
    setting.SelectedFor name category merging type selections →
      name ∈ progress.entries.map (·.name) →
        ∀ other, Refers setting merging type selections other → progress.Holds other

namespace Underway

theorem start (setting : Setting) : Underway setting .start .start where
  toGrown := .refl _
  ledger := ⟨nodup_nil, forall_mem_nil _⟩
  filed := ⟨fun _ _ h => (by cases h), forall_mem_nil _⟩
  queue := ⟨forall_mem_nil _, nodup_nil, forall_mem_nil _⟩
  called := forall_mem_nil _
  referred := fun _ h => (by cases h)

theorem rebase (h : Underway setting base progress) (hg : Grown middle progress) :
    Underway setting middle progress :=
  ⟨hg, h.ledger, h.filed, h.queue, h.called, h.referred⟩

variable (h : Underway setting base progress)

include h

/-- Types of the system that are called for may be queued. -/
theorem noteAll {notes : List Note} (hn : ∀ type, .queued type ∈ notes →
      (setting.system.type? type.name = some type ∧
        (type.isEnum ∨ type ∈ setting.system.inputsOf setting.documents.operations)) ∧
      Called setting type.name) : Underway setting base (progress.noteAll notes) := by
  have hg := Grown.noteAll progress notes
  obtain ⟨he, hr⟩ := progress.entries_noteAll notes
  refine ⟨h.toGrown.trans hg, he ▸ h.ledger, he ▸ hr ▸ h.filed,
    h.queue.noteAll fun type ht => (hn type ht).1, fun type ht => ?_,
    fun hs hnm other ho =>
      hg.held (h.referred hs (he ▸ hnm) other ho)⟩
  exact (Progress.of_mem_pending_noteAll ht).elim (h.called type) fun hnt =>
    (hn type hnt).2

theorem warn (text : String) : Underway setting base (progress.warn text) :=
  @noteAll _ _ _ h [.warning text] fun _ hm => by cases mem_singleton.mp hm

/-- A type that has its entry may be taken out of the queue. -/
theorem pop (hp : progress.pending = type :: rest) (hh : progress.has type.name) :
    Underway setting base { progress with pending := rest } := by
  have hc := h.called
  rw [hp] at hc
  exact ⟨h.toGrown.trans (.pop hp hh), h.ledger, h.filed, h.queue.pop hp,
    (forall_mem_cons.mp hc).2, fun hs hn other ho =>
      (Grown.pop hp hh).held (h.referred hs hn other ho)⟩

/-- An entry that belongs into the catalog may be added, and its fragment may be recorded. If it is
made for selections, then when all that they refer to is held. -/
theorem add (hnw : progress.has name = false) (hb : Belongs setting ⟨name, category, schema⟩)
    (hs : ∀ {category' merging type selections},
      setting.SelectedFor name category' merging type selections →
        ∀ other, Refers setting merging type selections other → progress.Holds other)
    (hf : Filed setting (progress.add name schema category).entries recorded)
    (hg : Grown progress
      { progress.add name schema category with fragmentEntries := recorded }) :
    Underway setting base
      { progress.add name schema category with fragmentEntries := recorded } := by
  refine ⟨h.toGrown.trans hg, h.ledger.add hnw hb, hf,
    ⟨h.queue.known, h.queue.distinct, h.queue.met⟩, h.called,
    fun {own _ _ _ _} hown hn other ho => hg.held ?_⟩
  rcases mem_append.mp (map_append ▸ hn) with hn | hn
  · exact h.referred hown hn other ho
  · obtain rfl : own = name := by simpa [Entry.of] using hn
    exact hs hown other ho

section

variable (horderly : setting.Orderly)
include horderly

/-- An entry that is not made for selections may be added. -/
theorem add_other (hn : progress.has name = false)
    (hb : Belongs setting ⟨name, category, schema⟩)
    (hc : category ≠ .fragment ∧ category ≠ .response) :
    Underway setting base (progress.add name schema category) := by
  refine h.add hn hb (fun hs => ?_) (h.filed.add hc.1) (.add ..)
  -- There is one content for each name.
  have he := congrArg Content.category (hs.belongs.eq_of_name_eq horderly hb rfl)
  exact (hs.category_eq.elim (hc.1 ∘ he.symm.trans)
    (hc.2 ∘ he.symm.trans)).elim

/-- An entry for selections may be added when what they refer to is held. -/
theorem add_selected (hn : progress.has name = false)
    (hs : setting.SelectedFor name category merging type selections)
    (hr : ∀ other, Refers setting merging type selections other → progress.Holds other)
    (hf : Filed setting (progress.add name
      ((outlineAll setting type selections).schema type) category).entries recorded)
    (hg : Grown progress { progress.add name
      ((outlineAll setting type selections).schema type) category with
        fragmentEntries := recorded }) :
    Underway setting base
      { progress.add name ((outlineAll setting type selections).schema type) category with
        fragmentEntries := recorded } := by
  refine h.add hn hs.belongs (fun hs' => ?_) hf hg
  obtain ⟨rfl, rfl, rfl⟩ := hs.unique horderly hs' rfl
  exact hr

end

end Underway

theorem upkeep_underway (horderly : setting.Orderly) : Upkeep setting (Underway setting) where
  self h := h.rebase (.refl _)
  trans h h' := h'.rebase (h.toGrown.trans h'.toGrown)
  queue h := h.queue
  grown h := h.toGrown
  noteAll hn h := h.noteAll fun type ht =>
    have ha := hn _ ht
    ⟨ha.imp_right Or.inr, .input ha.1 ha.2⟩
  pop h hp hh := h.pop hp hh
  add {_ _ type content} h ht hcl hc hnw := by
    have hct : content.category ≠ .fragment ∧ content.category ≠ .response := by
      unfold Setting.typeContent? at hc
      split at hc <;> cases hc <;> exact ⟨by rintro ⟨⟩, by rintro ⟨⟩⟩
    exact h.add_other horderly hnw
      (Or.inr ⟨type, ht, hcl.elim (h.called _) id, hc⟩) hct

/-! ## Fragments -/

/-- If the fragments of the documents are recorded, then all are: there are no others. -/
theorem hasFragment_of_forall (h : ∀ fragment ∈ setting.documents.fragments,
    progress.HasFragment setting fragment.name) (name : String) :
    progress.HasFragment setting name := by
  intro ht
  obtain ⟨type, hs⟩ := Option.isSome_iff_exists.mp ht
  obtain ⟨fragment, hf, -⟩ := Option.bind_eq_some_iff.mp hs
  obtain ⟨hm, rfl⟩ := Documents.of_fragment? hf
  exact h fragment hm ht

section

variable (horderly : setting.Orderly)

include horderly

/-- If the entry of a fragment on a known type is there, the fragment is recorded. -/
theorem Underway.hasFragment_of_has (h : Underway setting base progress)
    (hf : fragment ∈ setting.documents.fragments)
    (ht : setting.spreadType? fragment.name = some type)
    (hh : progress.has (Name.fragmentEntry fragment.name)) :
    progress.HasFragment setting fragment.name := by
  intro _
  obtain ⟨entry, he, hn⟩ := mem_map.mp ((progress.has_iff _).mp hh)
  -- It is the entry of a fragment, because there is one content for each name.
  have hc := congrArg Content.category ((h.ledger.contents entry he).eq_of_name_eq
    horderly (Setting.SelectedFor.fragment hf ht).belongs hn)
  obtain ⟨found, hfn, hn'⟩ := h.filed.fragments entry he hc
  obtain ⟨other, ho⟩ := Option.isSome_iff_exists.mp hfn
  obtain ⟨-, -, ht'⟩ := h.filed.known found other ho
  obtain ⟨_, hs⟩ := Option.isSome_iff_exists.mp ht'
  obtain ⟨fragment', hf', -⟩ := Option.bind_eq_some_iff.mp hs
  rw [horderly.name_eq (horderly.fragment?_name hf) hf' (by rw [ht]; rfl) ht'
    (hn.symm.trans hn')]
  exact hfn

/-- The schema of selections is built when the fragments that they spread have their entries. It is
that of their outline, and what it refers to is held. -/
theorem Underway.attains_schemaOf (h : Underway setting base progress)
    (hs : setting.SelectedFor name category merging type selections)
    (hsp : ∀ name ∈ Selection.spreadNamesOfAll selections, progress.HasFragment setting name) :
    Attains (fun state => state = progress) (schemaOf setting merging type selections)
      fun schema final => schema = (outlineAll setting type selections).schema type ∧
        Underway setting base final ∧ final.entries = progress.entries ∧
          ∀ name, Refers setting merging type selections name → final.Holds name := by
  rintro state rfl
  have hr := fun name hn => h.filed.recorded_of_has (hsp name hn)
  obtain ⟨hsz, hb⟩ := hs.fits horderly
  obtain ⟨schema, notes, hrd, hrn, hp⟩ :=
    exists_run_schemaOf horderly.acyclic type hsz hb state
  have hrf := refers_iff hr hrd
  refine ⟨schema, _, hrn, ?_, h.noteAll fun queued hq => ⟨?_, ?_⟩,
    (state.entries_noteAll notes).1,
    fun name hn => Progress.holds_noteAll.mpr (Or.inr ((hrf name).mp hn))⟩
  · exact (readsOutlines_readAll _).readWhole hr schema notes hrd fun _ _ => trivial
  · exact (hp _ hq).imp_right Or.inl
  · exact hs.called ((hrf _).mpr ⟨queued, hq, rfl⟩)

/-- The entry of a fragment is added, when those that it spreads have theirs. -/
theorem attains_addFragmentEntry
    (hf : fragment ∈ setting.documents.fragments) (base : Progress) :
    Attains
      (fun progress => Underway setting base progress ∧
        ∀ name ∈ Selection.spreadNamesOfAll fragment.selections, progress.HasFragment setting name)
      (addFragmentEntry setting fragment)
      fun _ progress => Underway setting base progress ∧
        progress.HasFragment setting fragment.name := by
  have hfn := horderly.fragment?_name hf
  unfold addFragmentEntry
  split
  · rename_i ht
    refine attains_modify fun progress h => ⟨h.1.warn _, fun hsm => ?_⟩
    simp [Setting.spreadType?, hfn, ht] at hsm
  · rename_i type ht
    split
    · rename_i hc
      refine attains_modify fun progress h => ⟨h.1.warn _, fun hsm => ?_⟩
      simp only [Bool.not_eq_true'] at hc
      simp [Setting.spreadType?, hfn, ht, hc] at hsm
    · rename_i hc
      have hs : setting.spreadType? fragment.name = some type := by
        simp only [Bool.not_eq_true'] at hc
        simp [Setting.spreadType?, hfn, ht, hc]
      refine attains_unless_has (fun progress h hh =>
        ⟨h.1, h.1.hasFragment_of_has horderly hf hs hh⟩) ?_
      rintro start ⟨⟨hst, hsp⟩, hn⟩
      refine attains_bind (hst.attains_schemaOf horderly (.fragment hf hs) hsp)
        (fun schema => attains_modify ?_) start rfl
      rintro progress ⟨rfl, hp, he, hr⟩
      refine ⟨hp.add_selected horderly ?_ (.fragment hf hs) hr
        (hp.filed.record rfl (Option.isSome_of_eq_some hs))
          ((Grown.add ..).trans (.record ..)), fun _ => ?_⟩
      · rw [Progress.has, he]
        exact hn
      · rw [Assoc.has, Assoc.get?_put_self]
        rfl

/-! ## Operations -/

section

variable (hoperation : operation ∈ setting.documents.operations)
include hoperation

/-- The entry of the variables of an operation is added. -/
theorem attains_addVariables
    (base : Progress) :
    Attains (Underway setting base) (addVariables setting operation)
      fun _ progress => Underway setting base progress ∧
        ∀ content, setting.variablesContent? operation = some content →
          progress.has content.name := by
  unfold addVariables
  split
  · rename_i hv
    have hc : setting.variablesContent? operation =
        some ⟨Name.variablesEntry operation.name operation.kind.name, .operationVariables,
          variablesDescription setting operation⟩ := by
      rw [Setting.variablesContent?, if_neg (by simpa using hv)]
    have ho := mem_ownContents hoperation
      (mem_append_left _ (Option.mem_toList.mpr hc))
    have hf : Attains (Underway setting base) (operation.variableDefs.mapM
        (variableField setting operation.name)) fun fields progress =>
          Selected.object ⟨Assoc.ofList fields, [], []⟩ = variablesDescription setting operation ∧
            Underway setting base progress :=
      attains_of_gives (fun _ => gives_variableFields operation) fun _ h =>
        ⟨rfl, (upkeep_underway horderly).noteAll (admitted_variables hoperation) h⟩
    rw [hc]
    refine attains_bind hf fun fields => attains_unless_has (fun progress h hh => ⟨h.2, ?_⟩)
      (attains_modify ?_)
    · rintro _ ⟨⟩
      exact hh
    · rintro progress ⟨⟨hf, hu⟩, hn⟩
      rw [hf]
      refine ⟨hu.add_other horderly hn (Or.inl ho) ⟨by rintro ⟨⟩, by rintro ⟨⟩⟩, ?_⟩
      rintro _ ⟨⟩
      exact progress.has_add ..
  · rename_i hv
    refine attains_pure fun _ h => ⟨h, fun content hs => ?_⟩
    rw [Setting.variablesContent?, if_pos (by simpa using hv)] at hs
    cases hs

/-- The entry of the response of an operation is added, when all fragments have theirs. -/
theorem attains_addResponse
    (base : Progress) :
    Attains (fun progress => Underway setting base progress ∧
        ∀ name, progress.HasFragment setting name)
      (addResponse setting operation)
      fun _ progress => Underway setting base progress ∧
        ∀ content, setting.responseContent? operation = some content →
          progress.has content.name := by
  unfold addResponse Setting.responseContent?
  cases hr : setting.system.root? operation.kind with
  | none => exact attains_modify fun progress h => ⟨h.1.warn _, by rintro _ ⟨⟩⟩
  | some root =>
    refine attains_unless_has (fun progress h hh => ⟨h.1, by rintro _ ⟨⟩; exact hh⟩) ?_
    rintro start ⟨⟨hst, hs⟩, hn⟩
    refine attains_bind (hst.attains_schemaOf horderly (.response hoperation hr)
      fun name _ => hs name) (fun schema => attains_modify ?_) start rfl
    rintro progress ⟨rfl, hp, he, hrf⟩
    refine ⟨hp.add_selected horderly ?_ (.response hoperation hr) hrf
      (hp.filed.add (by rintro ⟨⟩)) (.add ..), ?_⟩
    · rw [Progress.has, he]
      exact hn
    · rintro _ ⟨⟩
      exact progress.has_add ..

theorem attains_addOperation
    (base : Progress) :
    Attains (fun progress => Underway setting base progress ∧
        ∀ fragment ∈ setting.documents.fragments, progress.HasFragment setting fragment.name)
      (addOperation setting operation)
      fun _ progress => Underway setting base progress ∧
        ∀ content ∈ setting.operationContents operation, progress.has content.name := by
  rintro start ⟨hs, hfr⟩
  obtain ⟨_, middle, hfi, hm, hv⟩ :=
    attains_addVariables horderly hoperation start start (hs.rebase (.refl _))
  obtain ⟨_, final, hsc, hf, hr⟩ :=
    attains_addResponse horderly hoperation middle middle ⟨hm.rebase (.refl _),
      hasFragment_of_forall fun fragment hmm ht =>
        hm.recorded (hfr fragment hmm ht)⟩
  have hg := hs.toGrown.trans (hm.toGrown.trans hf.toGrown)
  refine ⟨(), final, ?_, hf.rebase hg, fun content hc => ?_⟩
  · rw [addOperation, StateT.run_bind, hfi]
    exact hsc
  · rcases mem_append.mp hc with hc | hc
    · exact hf.has (hv content (Option.mem_toList.mp hc))
    · exact hr content (Option.mem_toList.mp hc)

end

/-! ## Catalogs -/

/-- What holds when all entries have been added. -/
structure Supplied (setting : Setting) (progress : Progress) : Prop where
  underway : Underway setting .start progress
  stocked : Stocked setting progress
  fragments : ∀ name, progress.HasFragment setting name
  answered : ∀ operation ∈ setting.documents.operations,
    ∀ content ∈ setting.operationContents operation, progress.has content.name = true
  pending : progress.pending = []

/-- All entries are added. -/
theorem exists_supplied : ∃ final, (addAll setting).run .start = .ok ((), final) ∧
    Supplied setting final := by
  have hup := upkeep_underway horderly
  obtain ⟨_, final, hr, hu, ⟨⟨hst, hf⟩, ha⟩, hp⟩ :=
    hup.attains_addAll horderly.acyclic horderly.fragments
      (fun name progress => progress.HasFragment setting name)
      (fun hk hh ht => hk.recorded (hh ht)) (fun hh _ => hh)
      (fun fragment hfr base => (attains_addFragmentEntry horderly hfr
        base).consequence (fun progress h => ⟨h.1, fun name hn ht => by
          obtain ⟨type, ht'⟩ := Option.isSome_iff_exists.mp ht
          obtain ⟨spread, hs, -⟩ := Option.bind_eq_some_iff.mp ht'
          have hh := h.2 spread
            (mem_filterMap.mpr ⟨name, (mem_spreadSet _ _).mpr hn, hs⟩)
          rw [(Documents.of_fragment? hs).2] at hh
          exact hh ht⟩) fun _ _ h => h)
      (.start setting)
      (fun hk hb content hc => hk.has (hb content hc))
      (fun _ => attains_addOperation horderly) .start rfl
  exact ⟨final, hr, hu, hst, hasFragment_of_forall hf, ha, hp⟩

omit horderly in
theorem Supplied.mem_names_of_root? (h : Supplied setting progress) {root : NamedType}
    (hm : operation ∈ setting.documents.operations)
    (hr : setting.system.root? operation.kind = some root) :
    Name.responseEntry operation.name operation.kind.name ∈ progress.entries.map (·.name) := by
  have hc : ⟨_, .response, _⟩ ∈ setting.operationContents operation :=
    mem_append_right _ (Option.mem_toList.mpr (by rw [Setting.responseContent?, hr]; rfl))
  exact (progress.has_iff _).mp (h.answered operation hm _ hc)

omit horderly in
/-- Then what belongs into the catalog is held. -/
theorem Supplied.holds (h : Supplied setting progress) (hb : Belongs setting content) :
    progress.Holds content.name := by
  have hf : ∀ {name type}, setting.spreadType? name = some type →
      Name.fragmentEntry name ∈ progress.entries.map (·.name) := fun ht =>
    h.underway.filed.mem_names_of_has (h.fragments _ (Option.isSome_of_eq_some ht))
  rcases hb with ho | ⟨type, -, hcl, hc⟩
  · rcases mem_append.mp ho with hm | hm
    · obtain ⟨fragment, -, hc⟩ := mem_filterMap.mp hm
      obtain ⟨type, ht, rfl⟩ := Option.map_eq_some_iff.mp hc
      exact Or.inl (hf ht)
    · obtain ⟨operation, hoperation, hc⟩ := mem_flatMap.mp hm
      exact Or.inl ((progress.has_iff _).mp (h.answered operation hoperation content hc))
  · rw [setting.name_of_typeContent? hc]
    cases hcl with
    | input ht hm =>
      rw [← TypeSystem.name_of_type? ht]
      exact h.stocked.held _ (Or.inl hm)
    | enumeration ht hm =>
      rw [← TypeSystem.name_of_type? ht]
      exact h.stocked.held _ (Or.inr hm)
    | @fragment fragment hm hr =>
      obtain ⟨type, ht, hr⟩ := hr
      exact h.underway.referred (.fragment hm ht) (hf ht) _ hr
    | @response operation hm hr =>
      obtain ⟨root, hrt, hr⟩ := hr
      exact h.underway.referred (.response hm hrt) (h.mem_names_of_root? hm hrt) _ hr

end

/-- The catalog of an orderly setting has an entry for everything that belongs into it, and no
other entry. -/
theorem exists_catalog_contents (horderly : setting.Orderly) : ∃ result, catalog setting =
    .ok result ∧ ∀ content, content ∈ result.entries.map Content.of ↔ Belongs setting content := by
  obtain ⟨final, hr, hs⟩ := exists_supplied horderly
  have hl := hs.underway.ledger
  refine ⟨⟨topologicalSort final.entries, final.warnings⟩, ?_, fun content => ⟨fun hm => ?_,
    fun hb => ?_⟩⟩
  · rw [catalog, hr]
    rfl
  · obtain ⟨entry, he, rfl⟩ := mem_map.mp hm
    exact hl.contents entry (mem_of_mem_topologicalSort he)
  · have hn := hs.holds hb
    rw [Progress.Holds, hs.pending] at hn
    obtain ⟨entry, he, hn⟩ := mem_map.mp (hn.resolve_right not_mem_nil)
    -- There is one content for each name, so the entry of this name has this content.
    rw [← (hl.contents entry he).eq_of_name_eq horderly hb hn]
    exact mem_map_of_mem (mem_topologicalSort_of_mem hl.distinct he)

/-- What is known of a catalog: no name dangles, an entry for an enumeration has its values, and
there is an entry for everything that belongs into the catalog, and no other entry. -/
structure Catalogued (setting : Setting) (result : Catalog) : Prop where
  noDangling : NoDangling result.entries
  enums : ∀ entry ∈ result.entries, ∀ type values, setting.system.type? entry.name = some type →
    type.kind = .enum values →
      entry.schema = .enumeration (values.map fun value => .atom (.text value))
  contents : ∀ content, content ∈ result.entries.map Content.of ↔ Belongs setting content

/-- An orderly setting has a catalog, with the entries that belong to it. -/
theorem exists_catalogued (horderly : setting.Orderly) (hrg : setting.registry.Nameless) :
    ∃ result, catalog setting = .ok result ∧ Catalogued setting result := by
  obtain ⟨result, hr, hcn⟩ := exists_catalog_contents horderly
  refine ⟨result, hr, ?_, fun entry he type values ht hk => ?_, hcn⟩
  · obtain ⟨_, hrn, heq⟩ := of_bind_eq_ok hr
    cases heq
    exact (closed_of_addAll hrg hrn).noDangling
  · -- The content of an entry with the name of a type is that of the type.
    rcases (hcn _).mp (mem_map_of_mem he) with ho | ⟨type', ht', -, hc⟩
    · cases (horderly.type?_of_mem_ownContents ho).symm.trans ht
    · have hn : entry.name = type'.name := setting.name_of_typeContent? hc
      rw [hn, ht'] at ht
      cases ht
      rw [Setting.typeContent?, hk] at hc
      exact (congrArg Content.schema (Option.some.inj hc)).symm

/-- An entry that is made for some selections is found by its name. -/
theorem Catalogued.exists_find? (h : Catalogued setting result)
    (hs : setting.SelectedFor name category merging type selections) :
    ∃ entry, result.find? name = some entry ∧ entry.category = category ∧
      entry.schema = (outlineAll setting type selections).schema type := by
  obtain ⟨entry, he, heq⟩ := mem_map.mp ((h.contents _).mpr hs.belongs)
  obtain ⟨rfl, hc, hsc⟩ := Content.mk.inj heq
  exact ⟨entry, find?_of_nodup_map h.noDangling.distinct he, hc, hsc⟩

end ApiSchema.GraphQL
