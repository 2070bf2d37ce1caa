/-
# What every step keeps

A relation between an earlier state and the current one that is kept when a warning is given, a type
is queued or taken out of the queue, or the entry of a type is added. Such a relation is kept on the
way to the entries of all types, and these steps come to an end: there are no more queued types than
types. It is kept by the steps for a fragment and for those that it spreads if it is kept by those
for each entry, and these steps come to an end too if no fragment leads back to itself.
-/
import ApiSchema.Proofs.GraphQL.Contents

namespace ApiSchema.GraphQL

variable {α : Type} {setting : Setting} {name : String} {type : NamedType} {rest : List NamedType}
  {base progress : Progress} {pre post : Progress → Prop}

open List Relation

/-! ## The queue -/

/-- What holds of the queue: it has types of the system, each once, and these are enumerations or
types that variables lead to. -/
structure Queue (setting : Setting) (progress : Progress) : Prop where
  known : setting.system.Known progress.pending
  distinct : (progress.pending.map (·.name)).Nodup
  met : ∀ type ∈ progress.pending, type.isEnum = true ∨
    type ∈ setting.system.inputsOf setting.documents.operations

namespace Queue

variable (h : Queue setting progress)

include h

/-- Types of the system may be queued. -/
theorem noteAll {notes : List Note} (hnt : ∀ type, .queued type ∈ notes →
      setting.system.type? type.name = some type ∧
        (type.isEnum ∨ type ∈ setting.system.inputsOf setting.documents.operations)) :
    Queue setting (progress.noteAll notes) := by
  refine Progress.noteAll_induction (fun state note hno hs => ?_) h
  cases note with
  | warning text =>
    simp only [Progress.note, Progress.warn]
    split
    · exact hs
    · exact ⟨hs.known, hs.distinct, hs.met⟩
  | queued type =>
    obtain ⟨ht, hmt⟩ := hnt type hno
    simp only [Progress.note, Progress.ensure]
    split
    · exact hs
    · rename_i hn
      refine ⟨hs.known.concat ht, nodup_map_concat hs.distinct fun hm => ?_,
        forall_mem_concat hs.met hmt⟩
      simp only [Bool.or_eq_true, not_or, any_eq_true, not_exists, not_and] at hn
      obtain ⟨queued, hq, hnm⟩ := mem_map.mp hm
      exact hn.2 queued hq (by simp [hnm])

/-- The first type may be taken out of the queue. -/
theorem pop (hp : progress.pending = type :: rest) :
    Queue setting { progress with pending := rest } := by
  obtain ⟨hk, hdistinct, hm⟩ := h
  rw [hp] at hk hdistinct hm
  refine ⟨?_, (nodup_cons.mp hdistinct).2, ?_⟩
  · exact (forall_mem_cons.mp hk).2
  · exact (forall_mem_cons.mp hm).2

/-- There are at most as many queued types as there are types. -/
theorem length_le : progress.pending.length ≤ setting.system.types.length := by
  have hs : progress.pending.map (·.name) ⊆ setting.system.types.map (·.name) := by
    intro name hn
    obtain ⟨type, ht, rfl⟩ := mem_map.mp hn
    exact mem_map_of_mem (TypeSystem.mem_of_type? (h.known type ht))
  have hl := (subperm_of_subset h.distinct hs).length_le
  simpa using hl

end Queue

/-! ## Input positions -/

/-- The note is not about a fragment in itself, and a type that is queued is one that variables lead
to. -/
abbrev Note.Admitted (setting : Setting) : Note → Prop :=
  Plain setting (· ∈ setting.system.inputsOf setting.documents.operations)

theorem admitted_of_mem_inputNotes
    (hl : setting.system.Listed (setting.system.inputsOf setting.documents.operations) name) :
    ∀ note ∈ inputNotes setting name, note.Admitted setting := by
  unfold inputNotes scalarNotes
  split
  · exact forall_mem_nil _
  · rename_i type ht
    have hq : type.isEnum ∨ type.isInput → ∀ note ∈ [Note.queued type],
        note.Admitted setting := fun hk =>
      forall_mem_singleton.mpr ⟨TypeSystem.type?_name ht, hl type ht hk⟩
    split
    · split
      · exact forall_mem_nil _
      · exact forall_mem_singleton.mpr (IsOtherNotice.append (.append ⟨'U', by decide, rfl⟩ _) _)
    · rename_i hk
      exact hq (Or.inl (by simp [NamedType.isEnum, hk]))
    · rename_i hk
      exact hq (Or.inr (by simp [NamedType.isInput, hk]))
    · exact forall_mem_nil _

/-- What is noted about the variables of an operation. -/
theorem admitted_variables {operation : NamedOperation}
    (ho : operation ∈ setting.documents.operations) :
    ∀ note ∈ operation.variableDefs.flatMap fun v =>
      variableNotes setting operation.name v.type.baseName, note.Admitted setting := by
  obtain ⟨-, hvr, -⟩ := setting.system.walked_inputsOf setting.documents.operations
  refine forall_mem_flatMap.mpr fun v hv => ?_
  unfold variableNotes
  split
  · exact forall_mem_nil _
  · split
    · exact admitted_of_mem_inputNotes (hvr operation ho v hv)
    · exact forall_mem_singleton.mpr
        (IsOtherNotice.append (.append (.append (.append ⟨'U', by decide, rfl⟩ _) _) _) _)

/-- What is noted about the fields of an input object that variables lead to. -/
theorem admitted_fields (hm : type ∈ setting.system.inputsOf setting.documents.operations)
    {fields : List InputField} (hk : type.kind = .input fields) :
    ∀ note ∈ fields.flatMap fun field => inputNotes setting field.type.baseName,
      note.Admitted setting := by
  obtain ⟨-, -, hc⟩ := setting.system.walked_inputsOf setting.documents.operations
  refine forall_mem_flatMap.mpr fun field hf => admitted_of_mem_inputNotes ?_
  exact hc type hm field (by rw [NamedType.inputFields, hk]; exact hf)

/-! ## Relations that last -/

/-- The enumerations and input objects that the definitions lead to are held, and those input
objects that variables lead to have their entries. -/
structure Stocked (setting : Setting) (progress : Progress) : Prop where
  inputs : ∀ type ∈ setting.system.inputsOf setting.documents.operations, type.isInput = true →
    progress.has type.name = true
  held : ∀ type, type ∈ setting.system.inputsOf setting.documents.operations ∨
    type ∈ setting.system.enumsOf setting.documents → progress.Holds type.name

/-- A relation between an earlier state and a later one with its queue in order. No name is lost in
between, and the relation is kept when something is noted about inputs, when a type leaves the queue
with its entry, and when the entry of a type is added that is queued or called for. -/
structure Upkeep (setting : Setting) (kept : Progress → Progress → Prop) : Prop where
  self : ∀ {base progress}, kept base progress → kept progress progress
  trans : ∀ {base middle progress}, kept base middle → kept middle progress → kept base progress
  queue : ∀ {base progress}, kept base progress → Queue setting progress
  grown : ∀ {base progress}, kept base progress → Grown base progress
  noteAll : ∀ {base progress notes}, (∀ note ∈ notes, note.Admitted setting) →
    kept base progress → kept base (progress.noteAll notes)
  pop : ∀ {base progress type rest}, kept base progress → progress.pending = type :: rest →
    progress.has type.name = true → kept base { progress with pending := rest }
  add : ∀ {base progress type content}, kept base progress →
    setting.system.type? type.name = some type →
    type ∈ progress.pending ∨ Called setting type.name →
    setting.typeContent? type = some content → progress.has content.name = false →
      kept base (progress.add content.name content.schema content.category)

/-- A step for an entry that is taken only if the entry is missing. -/
theorem attains_unless_has {step : Builder Unit}
    (hd : ∀ progress, pre progress → progress.has name → post progress)
    (hs : Attains (fun progress => pre progress ∧ progress.has name = false) step
      fun _ => post) :
    Attains pre (do if !(← get).has name then step) fun _ => post := by
  refine attains_get_bind fun current => ?_
  split
  · rename_i hf
    exact hs.consequence (fun _ h => ⟨h.2, h.1 ▸ (Bool.not_eq_true' _).mp hf⟩) fun _ _ h => h
  · rename_i hh
    exact attains_pure fun progress h => hd progress h.2 (h.1 ▸ by simpa using hh)

/-- An enumeration gets its entry, if it has none. -/
theorem attains_addEnum (setting : Setting)
    (hd : ∀ progress, pre progress → (type.isEnum → progress.has type.name) → post progress)
    (hn : ∀ progress content, pre progress → progress.has content.name = false →
      setting.typeContent? type = some content →
        post (progress.add content.name content.schema content.category)) :
    Attains pre (addEnum type) fun _ => post := by
  unfold addEnum
  split
  · rename_i values hk
    exact attains_unless_has (fun progress h hh => hd progress h fun _ => hh)
      (attains_modify fun progress h => hn progress ⟨type.name, .enum, _⟩ h.1 h.2
        (by rw [Setting.typeContent?, hk]))
  · refine attains_pure fun progress h => hd progress h fun he => absurd he ?_
    simp [NamedType.isEnum]

theorem mem_spreadSet (selections : List Selection) (name : String) :
    name ∈ Selection.spreadSet selections ↔ name ∈ Selection.spreadNamesOfAll selections := by
  show name ∈ unionNames [] (Selection.spreadNamesOfAll selections) ↔ _
  rw [mem_unionNames]
  simp

namespace Upkeep

variable {kept : Progress → Progress → Prop} (h : Upkeep setting kept)

include h

theorem stocked (hs : Stocked setting base) (hk : kept base progress) :
    Stocked setting progress :=
  ⟨fun type ht hi => (h.grown hk).has (hs.inputs type ht hi),
    fun type ht => (h.grown hk).held (hs.held type ht)⟩

/-- A step that achieves something keeps what is not lost on the way. -/
theorem along {step : Builder α} {achieved : Progress → Prop} (earlier : Progress → Prop)
    (he : ∀ {base progress}, kept base progress → earlier base → earlier progress)
    (hst : ∀ base, Attains (fun progress => kept base progress ∧ earlier progress) step
      fun _ progress => kept base progress ∧ achieved progress) (base : Progress) :
    Attains (fun progress => kept base progress ∧ earlier progress) step
      fun _ progress => kept base progress ∧ earlier progress ∧ achieved progress := by
  rintro start ⟨hs, hb⟩
  obtain ⟨result, final, hr, hf, hachieved⟩ := hst start start ⟨h.self hs, hb⟩
  exact ⟨result, final, hr, h.trans hs hf, he hf hb, hachieved⟩

/-- If a step for an element achieves something that is not lost on the way, then steps for several
elements achieve it for all of them. -/
theorem each {step : α → Builder Unit} (earlier : Progress → Prop) (achieved : α → Progress → Prop)
    (he : ∀ {base progress}, kept base progress → earlier base → earlier progress)
    (hachieved : ∀ {element base progress}, kept base progress → achieved element base →
      achieved element progress) (elements : List α)
    (hst : ∀ element ∈ elements, ∀ base,
      Attains (fun progress => kept base progress ∧ earlier progress) (step element)
        fun _ progress => kept base progress ∧ achieved element progress) (base : Progress) :
    Attains (fun progress => kept base progress ∧ earlier progress) (elements.forM step)
      fun _ progress => kept base progress ∧ earlier progress ∧
        ∀ element ∈ elements, achieved element progress := by
  refine (attains_forM (fun before progress => kept base progress ∧ earlier progress ∧
    ∀ element ∈ before, achieved element progress) elements
    fun before element after hs => ?_).consequence (fun _ h => ⟨h.1, h.2, by simp⟩)
      fun _ _ h => h
  have hn := h.along
    (fun progress => earlier progress ∧ ∀ other ∈ before, achieved other progress)
    (fun hk hb => ⟨he hk hb.1,
      fun other ho => hachieved hk (hb.2 other ho)⟩)
    (fun base => (hst element (by simp [hs]) base).consequence (fun _ h => ⟨h.1, h.2.1⟩)
      fun _ _ h => h) base
  exact hn.consequence (fun _ h => h) fun _ _ h =>
    ⟨h.1, h.2.1.1, forall_mem_concat h.2.1.2 h.2.2⟩

/-! ## Types -/

/-- The entry of an input object is added. -/
theorem attains_addInput (hi : type.isInput)
    (hm : type ∈ setting.system.inputsOf setting.documents.operations) (base : Progress) :
    Attains (kept base) (addInput setting type)
      fun _ progress => kept base progress ∧ progress.has type.name := by
  have ht := (setting.system.walked_inputsOf setting.documents.operations).1 type hm
  unfold addInput
  split
  · rename_i fields hkn
    have hc : setting.typeContent? type =
        some ⟨type.name, .input, inputDescription setting fields⟩ := by
      rw [Setting.typeContent?, hkn]
    -- The fields are those of the description, and no entry is added while they are made.
    have hf : Attains (fun progress => kept base progress ∧ progress.has type.name = false)
        (fields.mapM (inputField setting)) fun result progress =>
          Schema.object result .dropped [] = inputDescription setting fields ∧
            kept base progress ∧ progress.has type.name = false :=
      attains_of_gives (fun _ => gives_inputFields fields) fun progress hp =>
        ⟨rfl, h.noteAll (admitted_fields hm hkn) hp.1,
          (progress.has_noteAll ..).trans hp.2⟩
    refine attains_unless_has (fun progress hk hh => ⟨hk, hh⟩)
      (attains_bind hf fun result => attains_modify ?_)
    rintro progress ⟨hr, hk, hn⟩
    rw [hr]
    exact ⟨h.add hk ht (Or.inr (.input ht hm)) hc hn, progress.has_add ..⟩
  · exact absurd hi (by simp [NamedType.isInput])

/-- The first type of the queue is dealt with, if the input objects that variables lead to have
their entries: an enumeration may get an entry, and an input object has one already. -/
theorem attains_addType (hk : kept base progress) (hs : Stocked setting progress)
    (hp : progress.pending = type :: rest) :
    Attains (fun state => state = { progress with pending := rest }) (addType setting type)
      fun _ final => kept base final ∧ final.pending = rest := by
  have hm : type ∈ progress.pending := by
    rw [hp]
    exact mem_cons_self ..
  have hmd : Attains (fun state => state = { progress with pending := rest }) (addEnum type)
      fun _ final => (kept base final ∧ final.pending = rest) ∧ final.has type.name := by
    refine attains_addEnum setting ?_ ?_
    · rintro _ rfl hh
      have hh : progress.has type.name := by
        by_cases he : type.isEnum
        · exact hh he
        · have hmt := ((h.queue hk).met type hm).resolve_left he
          exact hs.inputs type hmt
            ((TypeSystem.isEnum_or_isInput_of_mem_inputsOf hmt).resolve_left he)
      exact ⟨⟨h.pop hk hp hh, rfl⟩, hh⟩
    · rintro _ content rfl hn hc
      -- It makes no difference whether the type leaves the queue before or after it has its entry.
      have ha := h.add hk ((h.queue hk).known type hm) (Or.inl hm) hc hn
      have hh : (progress.add content.name content.schema content.category).has type.name =
          true := by
        rw [← setting.name_of_typeContent? hc]
        exact progress.has_add ..
      exact ⟨⟨h.pop ha hp hh, rfl⟩, hh⟩
  refine attains_bind hmd fun _ => ?_
  unfold addInput
  split
  · refine attains_get_bind fun current => ?_
    rintro start ⟨rfl, hst, hh⟩
    rw [if_neg (by simp [hh])]
    exact ⟨(), start, rfl, hst⟩
  · exact attains_pure fun _ h => h.1

/-- The queue is worked off, if the input objects that variables lead to have their entries. -/
theorem attains_addPending (hs : Stocked setting base) (fuel : ℕ) :
    Attains (fun progress => kept base progress ∧ progress.pending.length ≤ fuel)
      (addPending setting fuel)
      fun _ progress => kept base progress ∧ progress.pending = [] := by
  induction fuel with
  | zero =>
    refine attains_get_bind fun current start hst => ?_
    obtain ⟨rfl, hk, hl⟩ := hst
    have he : start.pending = [] := length_eq_zero_iff.mp (Nat.le_zero.mp hl)
    rw [if_pos (by rw [he]; rfl)]
    exact ⟨(), start, rfl, hk, he⟩
  | succ fuel ih =>
    refine attains_get_bind fun current => ?_
    split
    · rename_i he
      refine attains_pure fun progress h => ⟨h.2.1, ?_⟩
      rw [h.1]
      exact he
    · rename_i type rest hp
      rintro start ⟨rfl, hk, hl⟩
      rw [hp, length_cons] at hl
      refine attains_bind (attains_modify fun progress h => ?_)
        (fun _ => attains_bind (h.attains_addType hk (h.stocked hs hk) hp)
          fun _ => ih.consequence (fun progress h => ?_) fun _ _ h => h) start rfl
      · rw [← h]
      · exact ⟨h.1, by rw [h.2]; omega⟩

/-- All queued types are dealt with, if the input objects that variables lead to have their entries:
there are no more rounds than types. -/
theorem attains_addQueued (base : Progress) :
    Attains (fun progress => kept base progress ∧ Stocked setting progress)
      (addPending setting (setting.system.types.length + 1))
      fun _ progress => kept base progress ∧ Stocked setting progress ∧ progress.pending = [] := by
  rintro progress ⟨hk, hs⟩
  obtain ⟨result, final, hr, hf, hp⟩ := h.attains_addPending hs _ progress
    ⟨h.self hk, Nat.le_succ_of_le (h.queue hk).length_le⟩
  exact ⟨result, final, hr, h.trans hk hf, h.stocked hs hf, hp⟩

/-- The enumerations of a list that are called for are added. -/
theorem attains_addEnums (earlier : Progress → Prop)
    (he : ∀ {base progress}, kept base progress → earlier base → earlier progress)
    {types : List NamedType} (hkn : setting.system.Known types)
    (hcl : ∀ type ∈ types, type.isEnum ∧ Called setting type.name) (base : Progress) :
    Attains (fun progress => kept base progress ∧ earlier progress) (types.forM addEnum)
      fun _ progress => kept base progress ∧ earlier progress ∧
        ∀ type ∈ types, progress.Holds type.name := by
  refine h.each earlier (fun (type : NamedType) progress => progress.Holds type.name) he
    (fun hk hh => (h.grown hk).held hh) types (fun type ht base => ?_) base
  refine attains_addEnum setting (fun progress hk hhs => ⟨hk.1, ?_⟩)
    fun progress content hk hn hc =>
      ⟨h.add hk.1 (hkn type ht) (Or.inr (hcl type ht).2) hc hn, ?_⟩
  · exact Or.inl ((progress.has_iff _).mp (hhs (hcl type ht).1))
  · exact (progress.holds_add ..).mpr (Or.inr (setting.name_of_typeContent? hc).symm)

/-- The entries of all types that the definitions lead to are added. -/
theorem attains_addTypes (hst : kept .start .start) : Attains (fun progress => progress = .start)
      (do
        ((setting.system.inputsOf setting.documents.operations).filter (·.isEnum)).forM addEnum
        (setting.system.enumsOf setting.documents).forM addEnum
        ((setting.system.inputsOf setting.documents.operations).filter (·.isInput)).forM
          (addInput setting))
      fun _ progress => kept .start progress ∧ Stocked setting progress := by
  have hkn := (setting.system.walked_inputsOf setting.documents.operations).1
  have hk' := setting.system.known_enumsOf setting.documents
  have hh : ∀ {types : List NamedType} {base progress}, kept base progress →
      (∀ type ∈ types, base.Holds type.name) → ∀ type ∈ types, progress.Holds type.name :=
    fun hk hb type ht => (h.grown hk).held (hb type ht)
  have hf := h.attains_addEnums (fun _ => True) (fun _ _ => trivial)
    (fun type ht => hkn type (mem_of_mem_filter ht)) (fun type ht => by
      obtain ⟨hm, he⟩ := mem_filter.mp ht
      exact ⟨he, .input (hkn type hm) hm⟩) .start
  refine attains_bind (hf.consequence (fun _ hsm => ⟨hsm ▸ hst, trivial⟩)
    fun _ _ h => h) fun _ => ?_
  refine attains_bind (h.attains_addEnums (fun progress => True ∧ _)
    (fun hk hb => ⟨trivial, hh hk hb.2⟩) hk' (fun type ht => by
    obtain ⟨body, -, hr⟩ := TypeSystem.mem_enumsOf_iff.mp ht
    exact ⟨hr.isEnum, .enumeration (hk' type ht) ht⟩) .start) fun _ => ?_
  refine (h.each (fun progress => (True ∧ _) ∧ _)
    (fun (type : NamedType) progress => progress.has type.name)
    (fun hk hb => ⟨⟨trivial, hh hk hb.1.2⟩, hh hk hb.2⟩)
    (fun hk hhs => (h.grown hk).has hhs) _
    (fun _ ht base => (h.attains_addInput (mem_filter.mp ht).2 (mem_of_mem_filter ht)
      base).consequence (fun _ h => h.1) fun _ _ h => h) .start).consequence (fun _ h => h)
        fun _ progress hl => ⟨hl.1, ?_⟩
  obtain ⟨-, ⟨⟨-, hf⟩, hs⟩, hth⟩ := hl
  refine ⟨fun type ht hi => hth type (mem_filter.mpr ⟨ht, hi⟩), ?_⟩
  rintro type (ht | ht)
  · rcases TypeSystem.isEnum_or_isInput_of_mem_inputsOf ht with he | hi
    · exact hf type (mem_filter.mpr ⟨ht, he⟩)
    · exact Or.inl ((progress.has_iff _).mp
        (hth type (mem_filter.mpr ⟨ht, hi⟩)))
  · exact hs type ht

/-! ## Fragments and operations -/

variable (hacyclic : setting.documents.Acyclic)
  (hdistinct : (setting.documents.fragments.map (·.name)).Nodup)
  (achieved : String → Progress → Prop)
  (hachieved : ∀ {name base progress}, kept base progress → achieved name base →
    achieved name progress)
  (hrecorded : ∀ {name progress}, Assoc.has progress.fragmentEntries name → achieved name progress)
  (hentry : ∀ fragment ∈ setting.documents.fragments, ∀ base, Attains
      (fun progress => kept base progress ∧
        ∀ spread ∈ fragment.spreads.filterMap setting.documents.fragment?,
          achieved spread.name progress)
      (addFragmentEntry setting fragment)
      fun _ progress => kept base progress ∧ achieved fragment.name progress)

include hacyclic hdistinct hachieved hrecorded hentry

/-- The entries of a fragment and of those that it spreads are added. The fragments on the way down
lead to this one, so none of them is met again. -/
theorem attains_addFragment {fuel : ℕ} : ∀ opened fragment, fragment ∈ setting.documents.fragments →
      (∀ name ∈ opened, TransGen setting.documents.Spreads name fragment.name) →
      opened.Nodup → opened ⊆ setting.documents.fragments.map (·.name) →
      setting.documents.fragments.length < opened.length + fuel →
        ∀ base, Attains (kept base) (addFragment setting fuel opened fragment)
          fun _ progress => kept base progress ∧ achieved fragment.name progress := by
  induction fuel with
  | zero =>
    intro opened fragment _ _ hnd hsb hfl
    have hl := (subperm_of_subset hnd hsb).length_le
    rw [length_map] at hl
    omega
  | succ fuel ih =>
    intro opened fragment hf hc hnd hsb hfl base
    have hfn := find?_of_nodup_map hdistinct hf
    have hnw : fragment.name ∉ opened :=
      fun ho => hacyclic _ (hc fragment.name ho)
    refine attains_get_bind fun current => ?_
    split
    · rename_i hd
      refine attains_pure fun progress hs => ⟨hs.2, hrecorded ?_⟩
      simp only [Bool.or_eq_true, contains_eq_mem, decide_eq_true_iff] at hd
      rw [hs.1]
      exact hd.resolve_right hnw
    · -- First the fragments that this one spreads, one after another.
      have hsp := h.each (fun _ => True)
        (fun (spread : SourcedFragment) progress => achieved spread.name progress)
        (fun _ _ => trivial) hachieved
        (fragment.spreads.filterMap setting.documents.fragment?) (fun spread hm base => by
          obtain ⟨name, hn, hspr⟩ := mem_filterMap.mp hm
          obtain ⟨hs', rfl⟩ := Documents.of_fragment? hspr
          have hst : setting.documents.Spreads fragment.name spread.name :=
            ⟨fragment, hfn, (mem_spreadSet _ _).mp hn⟩
          refine (ih (fragment.name :: opened) spread hs' (fun name hn => ?_)
            (nodup_cons.mpr ⟨hnw, hnd⟩)
            (cons_subset.mpr ⟨mem_map_of_mem hf, hsb⟩)
            (by rw [length_cons]; omega) base).consequence (fun _ h => h.1) fun _ _ h => h
          rcases mem_cons.mp hn with rfl | hn
          · exact .single hst
          · exact (hc name hn).tail hst) base
      exact attains_bind (hsp.consequence (fun _ hs => ⟨hs.2, trivial⟩)
        fun _ _ h => ⟨h.1, h.2.2⟩) fun _ => hentry fragment hf base

/-- All entries are added, and no type is left in the queue. When those of operations are added, all
fragments have theirs. -/
theorem attains_addAll (hst : kept .start .start) {answered : NamedOperation → Progress → Prop}
    (ha : ∀ {operation base progress}, kept base progress → answered operation base →
      answered operation progress)
    (hop : ∀ operation ∈ setting.documents.operations, ∀ base, Attains
        (fun progress => kept base progress ∧
          ∀ fragment ∈ setting.documents.fragments, achieved fragment.name progress)
        (addOperation setting operation)
        fun _ progress => kept base progress ∧ answered operation progress) :
    Attains (fun progress => progress = .start) (addAll setting) fun _ progress =>
      kept .start progress ∧ (((Stocked setting progress ∧
        ∀ fragment ∈ setting.documents.fragments, achieved fragment.name progress) ∧
          ∀ operation ∈ setting.documents.operations, answered operation progress) ∧
            progress.pending = []) := by
  have hf := h.each (Stocked setting)
    (fun (fragment : SourcedFragment) progress => achieved fragment.name progress)
    (fun hk hs => h.stocked hs hk) hachieved setting.documents.fragments
    (fun fragment hm base => (h.attains_addFragment hacyclic hdistinct achieved (@hachieved)
      (@hrecorded) hentry [] fragment hm (by simp) nodup_nil (by simp)
      (Nat.lt_add_left _ (Nat.lt_succ_self _)) base).consequence (fun _ h => h.1)
        fun _ _ h => h) .start
  have hmd : ∀ {base progress}, kept base progress → (Stocked setting base ∧
      ∀ fragment ∈ setting.documents.fragments, achieved fragment.name base) →
        Stocked setting progress ∧
          ∀ fragment ∈ setting.documents.fragments, achieved fragment.name progress :=
    fun hk hb => ⟨h.stocked hb.1 hk,
      fun fragment hm => hachieved hk (hb.2 fragment hm)⟩
  have ho := h.each _ answered hmd ha setting.documents.operations
    (fun operation hm base => (hop operation hm base).consequence
      (fun _ h => ⟨h.1, h.2.2⟩) fun _ _ h => h) .start
  have hl := h.along (fun progress => _ ∧ ∀ operation ∈ setting.documents.operations,
      answered operation progress)
    (fun hk hb => ⟨hmd hk hb.1,
      fun operation hm => ha hk (hb.2 operation hm)⟩)
    (fun base => (h.attains_addQueued base).consequence (fun _ h => ⟨h.1, h.2.1.1⟩)
      fun _ _ h => ⟨h.1, h.2.2⟩) .start
  have hal := attains_bind (h.attains_addTypes hst) fun _ =>
    attains_bind (h.attains_addQueued .start) fun _ =>
      attains_bind (hf.consequence (fun _ h => ⟨h.1, h.2.1⟩) fun _ _ h => h) fun _ =>
        attains_bind ho fun _ => hl
  unfold addAll
  simpa only [bind_assoc] using hal

end Upkeep

end ApiSchema.GraphQL
