/-
# Definitions that are there twice

A definition that is there a second time adds nothing to a catalog: its names are taken, its types
are queued, and its warnings have been given. So the catalog of documents in which some definitions
are repeated is the catalog without the repetitions.
-/
import ApiSchema.Proofs.GraphQL.Contents

namespace ApiSchema.GraphQL

open List

variable {schema : Schema} {operation name : String} {setting : Setting} {documents : Documents}
  {α β : Type} {step : α → Builder Unit} {elements : List α} {start final progress : Progress}
  {fragment : SourcedFragment} {fuel : ℕ}

/-! ## Steps that are taken twice -/

/-- When the step has been taken, taking it again later gives the same and changes nothing. -/
def Settles {α : Type} (step : Builder α) : Prop :=
  ∀ start result final, step.run start = .ok (result, final) → Grown start final ∧
    ∀ later, Grown final later → step.run later = .ok (result, later)

theorem settles_pure {result : α} : Settles (pure result : Builder α) := by
  rintro start _ _ hr
  cases hr
  exact ⟨.refl start, fun _ _ => rfl⟩

theorem settles_of_gives {step : Builder α} {given : α × List Note}
    (h : ∀ record?, Gives record? step (.of given)) : Settles step := by
  intro start result final hrn
  obtain ⟨notes, hr, rfl⟩ := (h _).of_run hrn
  cases hr
  refine ⟨.noteAll start _, fun later hl => ?_⟩
  rw [(h _).run later rfl]
  -- All that is noted can be seen by then.
  have hsm : later.noteAll notes = later := Progress.noteAll_of_shows fun note hn => by
    have hs := start.shows_noteAll note hn
    cases note with
    | warning text => exact hl.warnings hs
    | queued type => exact hl.held hs
  exact congrArg (fun state => Except.ok (result, state)) hsm

theorem settles_warn {text : String} : Settles (Builder.warn text) :=
  @settles_of_gives _ _ ((), [.warning text]) fun _ => ⟨fun _ _ => rfl⟩

theorem Settles.bind {step : Builder α} {next : α → Builder β} (hs : Settles step)
    (hn : ∀ result, Settles (next result)) : Settles (step >>= next) := by
  intro start result final hrn
  obtain ⟨⟨value, state⟩, hf, hr⟩ := of_bind_eq_ok hrn
  obtain ⟨hg, ha⟩ := hs start value state hf
  obtain ⟨hg', ha'⟩ := hn value state result final hr
  refine ⟨hg.trans hg', fun later hl => ?_⟩
  rw [StateT.run_bind, ha later (hg'.trans hl)]
  exact ha' later hl

/-- The making of an entry, if there is none of the name. -/
theorem settles_entry {step : Builder Unit} (h : ∀ start final, step.run start = .ok ((), final) →
      Grown start final ∧ final.has name) :
    Settles (do if !(← get).has name then step) := by
  intro start _ final hr
  -- In every state in which there is an entry, nothing happens.
  have hi : ∀ later : Progress, later.has name →
      (do if !(← get).has name then step : Builder Unit).run later = .ok ((), later) := by
    intro later hl
    rw [run_get_bind, hl]
    rfl
  cases hn : start.has name with
  | true =>
    rw [hi start hn] at hr
    cases hr
    exact ⟨.refl start, fun later hl => hi later (hl.has hn)⟩
  | false =>
    rw [run_get_bind, hn] at hr
    obtain ⟨hg, hh⟩ := h start final hr
    exact ⟨hg, fun later hl => hi later (hl.has hh)⟩

theorem forM_append (step : α → Builder Unit) (elements more : List α) :
    (elements ++ more).forM step = elements.forM step >>= fun _ => more.forM step := by
  induction elements with
  | nil => rfl
  | cons first rest ih => rw [cons_append, List.forM, List.forM, ih, bind_assoc]

/-- What each step achieves for its element, and later states keep, holds after all steps. -/
theorem grown_of_forM {holds : α → Progress → Prop}
    (hm : ∀ {element progress later}, holds element progress → Grown progress later →
      holds element later)
    (h : ∀ element ∈ elements, ∀ {start final}, (step element).run start = .ok ((), final) →
      Grown start final ∧ holds element final)
    (hr : (elements.forM step).run start = .ok ((), final)) :
    Grown start final ∧ ∀ element ∈ elements, holds element final := by
  refine ensures_forM_done (fun done progress => Grown start progress ∧
    ∀ element ∈ done, holds element progress) elements (fun before element after hs => ?_)
    start () final ⟨.refl start, nofun⟩ hr
  rintro state _ final ⟨hg, hd⟩ hr
  obtain ⟨hg', he⟩ := h element (by simp [hs]) hr
  exact ⟨hg.trans hg',
    forall_mem_concat (fun other ho => hm (hd other ho) hg') he⟩

/-- After steps for several elements, each of them can be taken again without any effect. -/
theorem run_of_mem_forM (h : ∀ element, Settles (step element))
    (hr : (elements.forM step).run start = .ok ((), final)) :
    ∀ element ∈ elements, ∀ later, Grown final later → (step element).run later = .ok ((), later) :=
  (@grown_of_forM _ _ _ _ _
    (fun element final => ∀ later, Grown final later → (step element).run later = .ok ((), later))
    (fun ha hg later hl => ha later (hg.trans hl))
    (fun element _ _ _ hr => h element _ _ _ hr) hr).2

/-- Steps that change nothing change nothing together. -/
theorem run_forM_of_idle
    (h : ∀ element ∈ elements, (step element).run progress = .ok ((), progress)) :
    (elements.forM step).run progress = .ok ((), progress) := by
  induction elements with
  | nil => rfl
  | cons first rest ih =>
    rw [List.forM, StateT.run_bind, h first (mem_cons_self ..)]
    exact ih (forall_mem_cons.mp h).2

/-! ## Operations and fragments -/

section

theorem settles_addEnum (type : NamedType) : Settles (addEnum type) := by
  unfold addEnum
  split
  · refine settles_entry fun start final hr => ?_
    cases hr
    exact ⟨Grown.add .., Progress.has_add ..⟩
  · exact settles_pure

variable {operation : NamedOperation}

theorem settles_addVariables : Settles (addVariables setting operation) := by
  unfold addVariables
  split
  · refine (settles_of_gives fun _ => gives_variableFields operation).bind fun fields => ?_
    refine settles_entry fun start final hr => ?_
    cases hr
    exact ⟨Grown.add .., Progress.has_add ..⟩
  · exact settles_pure

theorem grown_of_schemaOf {merging : List String} {type : NamedType} {selections : List Selection}
    (h : (schemaOf setting merging type selections).run start = .ok (schema, final)) :
    Grown start final := by
  obtain ⟨notes, -, rfl⟩ := (gives_schemaOf merging setting type selections).of_run h
  exact .noteAll start notes

theorem settles_addResponse : Settles (addResponse setting operation) := by
  unfold addResponse
  split
  · exact settles_warn
  · refine settles_entry fun start final hr => ?_
    obtain ⟨⟨schema, state⟩, hs, ha⟩ := of_bind_eq_ok hr
    cases ha
    exact ⟨(grown_of_schemaOf hs).trans (Grown.add ..), Progress.has_add ..⟩

theorem settles_addFragmentEntry : Settles (addFragmentEntry setting fragment) := by
  unfold addFragmentEntry
  split
  · exact settles_warn
  · split
    · exact settles_warn
    · refine settles_entry fun start final hr => ?_
      obtain ⟨⟨schema, state⟩, hs, ha⟩ := of_bind_eq_ok hr
      cases ha
      refine ⟨((grown_of_schemaOf hs).trans (Grown.add ..)).trans (Grown.record ..), ?_⟩
      exact Progress.has_add ..

/-- A fragment has been dealt with: it is recorded, or there is nothing to do for it. -/
def Tried (setting : Setting) (fragment : SourcedFragment) (progress : Progress) : Prop :=
  Assoc.has progress.fragmentEntries fragment.name = true ∨ ∀ later, Grown progress later →
      (addFragmentEntry setting fragment).run later = .ok ((), later)

theorem Tried.mono {later : Progress}
    (h : Tried setting fragment progress) (hg : Grown progress later) :
    Tried setting fragment later :=
  h.imp hg.recorded fun hi final hf => hi final (hg.trans hf)

theorem assembling_grown (setting : Setting) (base : Progress) :
    Assembling setting (Grown base) fun _ => True where
  warn h text := h.trans (amid_warn setting _ text).grown
  content _ hm _ _ _ hs hr :=
    have hf := hs.trans (hm.of_run hr).1.grown
    ⟨hf, fun _ => hf.trans (Grown.add ..)⟩
  record _ _ _ h _ := h.trans (Grown.record ..)

/-- Adding a fragment deals with it. -/
theorem tried_of_addFragment
    (hf : fragment ∈ setting.documents.fragments)
    (h : (addFragment setting fuel [] fragment).run start = .ok ((), final)) :
    Grown start final ∧ Tried setting fragment final := by
  have hg := assembling_grown setting start
  refine ⟨ensures_addFragment (fun _ => hg.addFragmentEntry trivial) fuel [] fragment hf
    start () final (.refl start) h, ?_⟩
  cases fuel with
  | zero => cases h
  | succ fuel =>
    rw [addFragment, run_get_bind] at h
    split at h
    · rename_i hd
      cases h
      exact Or.inl (by simpa using hd)
    · obtain ⟨⟨_, state⟩, -, he⟩ := of_bind_eq_ok h
      exact Or.inr (settles_addFragmentEntry state () final he).2

/-- If all fragments have been dealt with, adding one again changes nothing. On the way down each
fragment is opened once, so the depth suffices. -/
theorem run_addFragment_of_tried
    (ha : ∀ fragment ∈ setting.documents.fragments, Tried setting fragment progress) (fuel : ℕ) :
    ∀ opened fragment, fragment ∈ setting.documents.fragments →
      (remaining (setting.documents.fragments.map (·.name)) opened).length < fuel →
        (addFragment setting fuel opened fragment).run progress = .ok ((), progress) := by
  induction fuel with
  | zero =>
    intro opened fragment _ hfl
    omega
  | succ fuel ih =>
    intro opened fragment hf hfl
    rw [addFragment, run_get_bind]
    split
    · rfl
    · rename_i hn
      rw [Bool.or_eq_true, not_or] at hn
      have hnm : fragment.name ∈ setting.documents.fragments.map (·.name) :=
        mem_map_of_mem hf
      have hl := length_remaining_cons_lt hnm (by simpa using hn.2)
      have hs : ((fragment.spreads.filterMap setting.documents.fragment?).forM
          (addFragment setting fuel (fragment.name :: opened))).run progress =
            .ok ((), progress) := by
        refine run_forM_of_idle fun spread hsp => ?_
        obtain ⟨name, -, hfn⟩ := mem_filterMap.mp hsp
        exact ih _ spread (mem_of_find?_eq_some hfn) (by omega)
      rw [StateT.run_bind, hs]
      exact ((ha fragment hf).resolve_left hn.1) progress (.refl progress)

end

/-! ## Types -/

namespace TypeSystem

variable {system : TypeSystem}

/-- A walk from a name whose type is listed lists nothing new. -/
theorem reachInputs_of_listed {found : List NamedType}
    (h : system.Listed found name) : system.reachInputs fuel found name = found := by
  cases fuel with
  | zero => rfl
  | succ fuel =>
    rw [reachInputs]
    split
    · rfl
    · rename_i hn
      have hkn : ∀ type, system.type? name = some type →
          type.isEnum = false ∧ type.isInput = false := by
        intro type ht
        rw [← Bool.not_eq_true, ← Bool.not_eq_true, ← not_or]
        intro hk
        refine hn (any_eq_true.mpr ⟨type, h type ht hk, ?_⟩)
        simpa using name_of_type? ht
      cases ht : system.type? name with
      | none => rfl
      | some type =>
        obtain ⟨he, hi⟩ := hkn type ht
        unfold NamedType.isEnum at he
        unfold NamedType.isInput at hi
        cases hk : type.kind <;> simp [hk] at he hi ⊢

/-- More operations lead to the same types, if the types of their variables are listed. -/
theorem inputsOf_append {operations more : List NamedOperation}
    (h : ∀ operation ∈ more, ∀ v ∈ operation.variableDefs,
      system.Listed (system.inputsOf operations) v.type.baseName) :
    system.inputsOf (operations ++ more) = system.inputsOf operations := by
  rw [inputsOf, flatMap_append, foldl_append]
  refine List.foldlRecOn (motive := fun types => types = system.inputsOf operations) _ _ rfl ?_
  rintro _ rfl name hn
  obtain ⟨operation, ho, hn⟩ := mem_flatMap.mp hn
  obtain ⟨v, hv, rfl⟩ := mem_map.mp hn
  exact reachInputs_of_listed (h operation ho v hv)

/-- The same fragments have been met, and adding the enumerations has the same effect. -/
structure Alike (met other : Met) : Prop where
  fragments : met.fragments = other.fragments
  enums : met.enums.forM addEnum = other.enums.forM addEnum

namespace Alike

variable {met other : Met}

theorem refl (met : Met) : Alike met met := ⟨rfl, rfl⟩

theorem trans {third : Met} (h : Alike met other) (h' : Alike other third) : Alike met third :=
  ⟨h.fragments.trans h'.fragments, h.enums.trans h'.enums⟩

theorem append (h : Alike met other) (more : List NamedType) :
    Alike ⟨met.fragments, met.enums ++ more⟩ ⟨other.fragments, other.enums ++ more⟩ := by
  refine ⟨h.fragments, ?_⟩
  rw [forM_append, forM_append, h.enums]

/-- Enumerations that are listed already have no effect. -/
theorem repeated {more : List NamedType} (h : more ⊆ met.enums) :
    Alike met ⟨met.fragments, met.enums ++ more⟩ := by
  refine ⟨rfl, ?_⟩
  rw [forM_append]
  funext start
  show (met.enums.forM addEnum).run start =
    (met.enums.forM addEnum >>= fun _ => more.forM addEnum).run start
  rw [StateT.run_bind]
  cases hr : (met.enums.forM addEnum).run start with
  | error fault => rfl
  | ok result =>
    obtain ⟨_, final⟩ := result
    have ha := run_of_mem_forM settles_addEnum hr
    exact (run_forM_of_idle fun type ht => ha type (h ht) final (.refl final)).symm

/-- Going on from what is alike leads to what is alike, if walks to the depth do. -/
theorem follow
    (hw : ∀ parent selections {met other}, Alike met other →
      Alike (system.reachEnums documents fuel parent met selections)
        (system.reachEnums documents fuel parent other selections))
    (look : Look) (h : Alike met other) :
    Alike (look.follow system documents fuel met) (look.follow system documents fuel other) := by
  cases look with
  | nothing => exact h
  | enumeration type => exact h.append [type]
  | nested type selections => exact hw type selections h
  | fragment name =>
    have he : Alike ⟨met.fragments ++ [name], met.enums⟩
        ⟨other.fragments ++ [name], other.enums⟩ := by
      rw [h.fragments]
      exact ⟨rfl, h.enums⟩
    dsimp only [Look.follow]
    rw [h.fragments]
    rw [h.fragments] at he
    split
    · exact h
    · cases (documents.fragment? name).bind system.fragmentBody? with
      | none => exact he
      | some body => exact hw body.1 body.2 he

/-- Walks from what is alike lead to what is alike. -/
theorem reachEnums (fuel : ℕ) : ∀ (parent : NamedType) (selections : List Selection)
    {met other : Met}, Alike met other →
      Alike (system.reachEnums documents fuel parent met selections)
        (system.reachEnums documents fuel parent other selections) := by
  induction fuel with
  | zero => exact fun _ _ _ _ h => h
  | succ fuel ih =>
    intro parent selections
    induction selections with
    | nil => exact fun h => h
    | cons selection rest ihrest =>
      intro met other h
      have hf := h.follow ih (system.look parent selection)
      have hr := ihrest hf
      rw [reachEnums_succ, reachEnums_succ] at hr ⊢
      exact hr

theorem walkBodies (h : Alike met other) (system : TypeSystem) (documents : Documents)
    (bodies : List (NamedType × List Selection)) :
    Alike (system.walkBodies documents met bodies) (system.walkBodies documents other bodies) := by
  induction bodies generalizing met other with
  | nil => exact h
  | cons body rest ih => exact ih (h.reachEnums _ body.1 body.2)

/-- Walking through definitions that are absorbed has no effect. -/
theorem of_absorbed {bodies : List (NamedType × List Selection)}
    (h : ∀ body ∈ bodies, system.Absorbed documents met body) :
    Alike met (system.walkBodies documents met bodies) := by
  induction bodies generalizing met with
  | nil => exact .refl met
  | cons body rest ih =>
    have hb := h body (mem_cons_self ..)
    obtain ⟨more, hw, hm⟩ := exists_reachEnums_eq body.1 met body.2 hb.fragments
    have hf : Alike met (system.reachEnums documents
        (2 * documents.size + documents.fragments.length + 2) body.1 met body.2) := by
      rw [hw]
      exact repeated fun type ht => hb.enums type (hm type ht)
    refine hf.trans (ih fun other ho => ?_)
    exact (h other (mem_cons_of_mem _ ho)).mono (grew_reachEnums _ _ _)

end Alike

end TypeSystem

/-! ## Copies -/

/-- The operation is the other one, perhaps from another document. -/
def NamedOperation.IsCopyOf (copy operation : NamedOperation) : Prop :=
  ∃ source, copy = { operation with source := source }

/-- The fragment is the other one, perhaps from another document. -/
def SourcedFragment.IsCopyOf (copy fragment : SourcedFragment) : Prop :=
  ∃ source, copy = { fragment with source := source }

/-- The documents have the definitions of the others, and after these copies of some of them. -/
structure Documents.Repeats (documents others : Documents) : Prop where
  operations : ∃ copies, documents.operations = others.operations ++ copies ∧
    ∀ copy ∈ copies, ∃ operation ∈ others.operations, copy.IsCopyOf operation
  fragments : ∃ copies, documents.fragments = others.fragments ++ copies ∧
    ∀ copy ∈ copies, ∃ fragment ∈ others.fragments, copy.IsCopyOf fragment

namespace Documents.Repeats

variable {others : Documents}

section

variable (h : documents.Repeats others)
include h

/-- The first fragment of a name is the same, and the documents are not smaller. -/
theorem includes : documents.Includes others := by
  obtain ⟨operations, ho, -⟩ := h.operations
  obtain ⟨fragments, hf, hc⟩ := h.fragments
  constructor
  case fragment? =>
    funext name
    unfold Documents.fragment?
    rw [hf, find?_append]
    cases hfn : others.fragments.find? (·.name == name) with
    | some fragment => rfl
    | none =>
      rw [Option.none_or, find?_eq_none]
      intro copy hcp
      obtain ⟨fragment, hfr, source, rfl⟩ := hc copy hcp
      exact find?_eq_none.mp hfn fragment hfr
  case size =>
    unfold Documents.size
    rw [ho, hf, flatMap_append, flatMap_append, sizeOfAll_append, sizeOfAll_append]
    omega
  case fragments =>
    rw [hf, length_append]
    omega

theorem inputsOf_eq (system : TypeSystem) :
    system.inputsOf documents.operations = system.inputsOf others.operations := by
  obtain ⟨copies, ho, hc⟩ := h.operations
  rw [ho]
  refine TypeSystem.inputsOf_append fun copy hcp v hv => ?_
  obtain ⟨operation, hop, source, rfl⟩ := hc copy hcp
  exact (system.walked_inputsOf others.operations).2.1 operation hop v hv

/-- Copies of definitions lead to no further enumerations. -/
theorem forM_enumsOf (system : TypeSystem) :
    (system.enumsOf documents).forM addEnum = (system.enumsOf others).forM addEnum := by
  have hi := h.includes
  obtain ⟨operations, ho, hcp⟩ := h.operations
  obtain ⟨fragments, hf, hc'⟩ := h.fragments
  have hbd : ∀ body ∈ system.operationBodies operations,
      body ∈ system.operationBodies others.operations := by
    intro body hb
    obtain ⟨copy, hc, hb⟩ := mem_filterMap.mp hb
    obtain ⟨operation, hop, source, rfl⟩ := hcp copy hc
    exact mem_filterMap.mpr ⟨operation, hop, hb⟩
  have hb' : ∀ body ∈ fragments.filterMap system.fragmentBody?,
      body ∈ others.fragments.filterMap system.fragmentBody? := by
    intro body hb
    obtain ⟨copy, hc, hb⟩ := mem_filterMap.mp hb
    obtain ⟨fragment, hfr, source, rfl⟩ := hc' copy hc
    exact mem_filterMap.mpr ⟨fragment, hfr, hb⟩
  have hsz := hi.size
  have hs : ∀ body ∈ system.operationBodies others.operations,
      Selection.sizeOfAll body.2 ≤ others.size :=
    fun body => TypeSystem.sizeOfAll_le_of_mem_operationBodies
  have hs' : ∀ body ∈ others.fragments.filterMap system.fragmentBody?,
      Selection.sizeOfAll body.2 ≤ others.size :=
    fun body => TypeSystem.sizeOfAll_le_of_mem_fragmentBodies
  -- First the operations and their copies, then the fragments and theirs.
  have hfi : TypeSystem.Alike
      (system.walkBodies documents ⟨[], []⟩ (system.operationBodies others.operations))
      (system.walkBodies documents ⟨[], []⟩ (system.operationBodies documents.operations)) := by
    rw [ho, TypeSystem.operationBodies, TypeSystem.operationBodies,
      filterMap_append, TypeSystem.walkBodies_append]
    refine .of_absorbed fun body hb => ?_
    have hm := hbd body hb
    exact TypeSystem.absorbed_of_mem hm ((hs body hm).trans hsz) _
  have hsc := hfi.walkBodies system documents
    (others.fragments.filterMap system.fragmentBody?)
  rw [TypeSystem.enumsOf_eq, TypeSystem.enumsOf_eq,
    ← TypeSystem.walkBodies_of_includes hi hs,
    ← TypeSystem.walkBodies_of_includes hi hs', hf, filterMap_append,
    TypeSystem.walkBodies_append]
  refine (hsc.trans (.of_absorbed fun body hb => ?_)).enums.symm
  have hm := hb' body hb
  exact TypeSystem.absorbed_of_mem hm ((hs' body hm).trans hsz) _

end

end Documents.Repeats

section

variable (hrepeats : documents.Repeats setting.documents)

include hrepeats

/-- After the fragments their copies add nothing. -/
theorem refines_addFragments : Refines
      (setting.documents.fragments.forM
        (addFragment setting (setting.documents.fragments.length + 1) []))
      (documents.fragments.forM
        (addFragment (setting.on documents) (documents.fragments.length + 1) [])) := by
  obtain ⟨copies, hf, hcp⟩ := hrepeats.fragments
  have hi := hrepeats.includes
  have hmr := hi.fragments
  rintro start ⟨_, final⟩ hr
  have hfr := refines_forM setting.documents.fragments (fun fragment _ =>
    refines_addFragment hi (setting.documents.fragments.length + 1)
      (documents.fragments.length + 1) [] fragment (by omega)) start _ hr
  have hls : ∀ fragment ∈ setting.documents.fragments, fragment ∈ documents.fragments :=
    fun fragment hm => hf ▸ mem_append_left _ hm
  obtain ⟨-, ht⟩ := @grown_of_forM _ _ _ _ _ (Tried (setting.on documents)) Tried.mono
    (fun fragment hm _ _ hr => tried_of_addFragment (hls fragment hm) hr) hfr
  have ha : ∀ fragment ∈ documents.fragments, Tried (setting.on documents) fragment final := by
    intro fragment hm
    rw [hf] at hm
    rcases mem_append.mp hm with hfra | hc
    · exact ht fragment hfra
    · obtain ⟨original, ho, source, rfl⟩ := hcp fragment hc
      exact ht original ho
  have hl := length_remaining_le_length (documents.fragments.map (·.name)) []
  rw [length_map] at hl
  have hid : (copies.forM (addFragment (setting.on documents) (documents.fragments.length + 1)
      [])).run final = .ok ((), final) := by
    refine run_forM_of_idle fun copy hc => ?_
    refine run_addFragment_of_tried ha _ [] copy ?_ (Nat.lt_succ_of_le hl)
    rw [hf]
    exact mem_append_right _ hc
  have hs := forM_append
    (addFragment (setting.on documents) (documents.fragments.length + 1) [])
    setting.documents.fragments copies
  rw [← hf] at hs
  rw [hs, StateT.run_bind, hfr]
  exact hid

/-- After the operations their copies add nothing. -/
theorem refines_addOperations : Refines (setting.documents.operations.forM (addOperation setting))
    (documents.operations.forM (addOperation (setting.on documents))) := by
  obtain ⟨copies, ho, hc⟩ := hrepeats.operations
  rintro start ⟨_, final⟩ hr
  have hro : ∀ operation, Refines (addOperation setting operation)
      (addOperation (setting.on documents) operation) := fun operation =>
    (Refines.refl (addVariables setting operation)).bind fun _ =>
      refines_addResponse hrepeats.includes
  have hf := refines_forM setting.documents.operations (fun operation _ => hro operation) start _ hr
  have ha := run_of_mem_forM (fun operation => settles_addVariables.bind fun _ =>
    settles_addResponse) hf
  have hi : (copies.forM (addOperation (setting.on documents))).run final = .ok ((), final) := by
    refine run_forM_of_idle fun copy hcp => ?_
    obtain ⟨operation, hop, source, rfl⟩ := hc copy hcp
    exact ha operation hop final (.refl final)
  rw [ho, forM_append, StateT.run_bind, hf]
  exact hi

/-- All entries are added in the same way. -/
theorem refines_addAll : Refines (addAll setting) (addAll (setting.on documents)) := by
  unfold addAll
  rw [hrepeats.inputsOf_eq, hrepeats.forM_enumsOf, addPending_on documents]
  refine (Refines.refl _).bind fun _ => (Refines.refl _).bind fun _ => ?_
  refine (Refines.refl _).bind fun _ => (Refines.refl _).bind fun _ => ?_
  refine (refines_addFragments hrepeats).bind fun _ => ?_
  exact (refines_addOperations hrepeats).bind fun _ => Refines.refl _

end

/-- If there is a catalog, it stays the same, with all entries in their order and all warnings, when
copies of operations and of fragments are added to the documents. -/
theorem catalog_of_repeated_definitions {setting : Setting} {documents : Documents}
    {result : Catalog} (hrepeats : documents.Repeats setting.documents)
    (hcatalog : catalog setting = .ok result) : catalog (setting.on documents) = .ok result := by
  obtain ⟨⟨_, progress⟩, hrn, hr⟩ := of_bind_eq_ok hcatalog
  unfold catalog
  rw [refines_addAll hrepeats _ _ hrn]
  exact hr

/-- A query for a pet of a kind. Two of its fragments spread each other, and the third one is on a
type that is not known. -/
def kindDocuments : Documents where
  operations := [⟨"findPet", .query, [⟨"kind", .named "Kind", none, []⟩],
    [.field none "pet" [] [] (some [.spread "Named" []])], "pets"⟩]
  fragments := [
    ⟨⟨"Named", "Pet", [], [.field none "kind" [] [] none, .spread "Befriended" []]⟩, "pets"⟩,
    ⟨⟨"Befriended", "Pet", [], [.field none "friend" [] [] (some [.spread "Named" []])]⟩, "pets"⟩,
    ⟨⟨"Lost", "Owner", [], [.field none "name" [] [] none]⟩, "pets"⟩]
  skipped := []

/-- Pets with their kinds and their friends, and the query for them. -/
def kindSetting : Setting where
  system := {
    types := [⟨"Query", .object [("pet", .named "Pet")]⟩,
      ⟨"Pet", .object [("kind", .named "Kind"), ("friend", .named "Pet")]⟩,
      ⟨"Kind", .enum ["CAT", "DOG"]⟩]
    query := some "Query"
    mutation := none }
  documents := kindDocuments
  registry := ⟨none, []⟩

/-- The query and its fragments, found in a second place too. -/
def kindDocumentsTwice : Documents where
  operations := kindDocuments.operations ++
    kindDocuments.operations.map fun operation => { operation with source := "copy" }
  fragments := kindDocuments.fragments ++
    kindDocuments.fragments.map fun fragment => { fragment with source := "copy" }
  skipped := []

/-- Finding everything twice leaves the five entries and the two warnings as they are. -/
theorem catalog_of_pets_found_twice : kindDocumentsTwice.Repeats kindSetting.documents ∧
      ∃ result, catalog kindSetting = .ok result ∧ result.entries.length = 5 ∧
        result.warnings.length = 2 ∧
        catalog (kindSetting.on kindDocumentsTwice) = .ok result := by
  have hrepeats : kindDocumentsTwice.Repeats kindSetting.documents := by
    refine ⟨⟨_, rfl, fun copy hc => ?_⟩, ⟨_, rfl, fun copy hc => ?_⟩⟩
    · obtain ⟨operation, ho, rfl⟩ := mem_map.mp hc
      exact ⟨operation, ho, "copy", rfl⟩
    · obtain ⟨fragment, hf, rfl⟩ := mem_map.mp hc
      exact ⟨fragment, hf, "copy", rfl⟩
  have hct : ∃ result, catalog kindSetting = .ok result ∧ result.entries.length = 5 ∧
      result.warnings.length = 2 := ⟨_, rfl, rfl, rfl⟩
  obtain ⟨result, hr, he, hw⟩ := hct
  exact ⟨hrepeats, result, hr, he, hw,
    catalog_of_repeated_definitions hrepeats hr⟩

end ApiSchema.GraphQL
