/-
# Readings that are alike

Selections are read in steps that note a warning, queue an enumeration or look for the entry of a
fragment. So what holds of these steps, and of steps one after another, holds of the reading of
selections. This is stated for relations between readings, one of which may have other documents
that find the same fragments, other entries and a greater depth.
-/
import ApiSchema.Proofs.GraphQL.Collecting

namespace ApiSchema.GraphQL

open List

variable {α β : Type} {setting : Setting} {documents : Documents} {merging : List String}
  {selected : Selected} {selections : List Selection} {bound : ℕ} {text : String}

/-- The setting with other documents. -/
abbrev Setting.on (setting : Setting) (documents : Documents) : Setting :=
  { setting with documents := documents }

/-! ## Notes that are not about fragments in themselves -/

/-- The text is another warning, since it starts with another letter. -/
def IsOtherNotice (text : String) : Prop := ∃ first ≠ 'C', text.toList.head? = some first

theorem IsOtherNotice.append (h : IsOtherNotice text) (more : String) :
    IsOtherNotice (text ++ more) := by
  obtain ⟨first, hf, ht⟩ := h
  exact ⟨first, hf, by rw [String.toList_append, head?_append, ht]; rfl⟩

theorem head?_cyclicNotice (name : String) : (cyclicNotice name).toList.head? = some 'C' := by
  have hh : "Cyclic spread of fragment \"".toList.head? = some 'C' := rfl
  change ("Cyclic spread of fragment \"" ++ name ++ "\" ignored").toList.head? = some 'C'
  rw [String.toList_append, String.toList_append, append_assoc, head?_append, hh, Option.some_or]

/-- Another notice is not that of a cycle. -/
theorem IsOtherNotice.ne (h : IsOtherNotice text) (name : String) : cyclicNotice name ≠ text := by
  obtain ⟨first, hf, ht⟩ := h
  intro he
  rw [← he, head?_cyclicNotice, Option.some.injEq] at ht
  exact hf ht.symm

/-- The note is not about a fragment in itself, and a type that is queued is known and one of those
that may be queued. -/
def Note.Plain (setting : Setting) (queues : NamedType → Prop) : Note → Prop
  | .warning text => IsOtherNotice text
  | .queued type => setting.system.type? type.name = some type ∧ queues type

theorem Note.Plain.imp {queues queues' : NamedType → Prop} {note : Note}
    (h : note.Plain setting queues) (hi : ∀ type, queues type → queues' type) :
    note.Plain setting queues' := by
  cases note with
  | warning text => exact h
  | queued type => exact h.imp_right (hi type)

theorem Selected.plain_of_mem_alone {parent : NamedType} {queues : NamedType → Prop} {note : Note}
    (h : note ∈ (selected.alone parent).2) : note.Plain setting queues := by
  unfold alone at h
  split at h
  · split at h
    · rw [mem_singleton.mp h]
      exact .append (.append (.append ⟨'U', by decide, rfl⟩ _) _) _
    · split at h
      · rw [mem_singleton.mp h]
        exact .append (.append ⟨'I', by decide, rfl⟩ _) _
      · cases h
  · cases h

/-! ## Relations between readings -/

/-- A property of selections, given a depth and the fragments that are being merged in place, that
the selections inside of them have. -/
structure Nesting (fit : ℕ → List String → List Selection → Prop) : Prop where
  mono : ∀ {bound bound' merging merging' selections}, fit bound merging selections →
    bound ≤ bound' → merging' ⊆ merging → fit bound' merging' selections
  append : ∀ {bound merging first second}, fit bound merging first → fit bound merging second →
    fit bound merging (first ++ second)
  one : ∀ {bound merging selections selection}, fit bound merging selections →
    selection ∈ selections → fit bound merging [selection]
  field : ∀ {bound merging responseName name arguments directives selections},
    fit (bound + 1) merging [.field responseName name arguments directives (some selections)] →
      fit bound merging selections
  inline : ∀ {bound merging condition directives selections},
    fit (bound + 1) merging [.inline condition directives selections] → fit bound merging selections

/-- Two conditions that pass to what is nested do so together. -/
theorem Nesting.and {fit fit' : ℕ → List String → List Selection → Prop} (h : Nesting fit)
    (h' : Nesting fit') :
    Nesting fun bound merging selections =>
      fit bound merging selections ∧ fit' bound merging selections where
  mono hf hl hm := ⟨h.mono hf.1 hl hm, h'.mono hf.2 hl hm⟩
  append hfr hs := ⟨h.append hfr.1 hs.1, h'.append hfr.2 hs.2⟩
  one hf hmm := ⟨h.one hf.1 hmm, h'.one hf.2 hmm⟩
  field hf := ⟨h.field hf.1, h'.field hf.2⟩
  inline hf := ⟨h.inline hf.1, h'.inline hf.2⟩

/-- What the selections spread has a property. -/
theorem nesting_spreads {holds : List String → String → Prop}
    (hmn : ∀ {merging merging' name}, merging' ⊆ merging → holds merging name →
      holds merging' name) :
    Nesting fun _ merging selections =>
      ∀ name ∈ Selection.spreadNamesOfAll selections, holds merging name where
  mono h _ hm name hn := hmn hm (h name hn)
  append {_ _ first second} h h' name hn := by
    rw [spreadNamesOfAll_eq_flatMap, flatMap_append, mem_append,
      ← spreadNamesOfAll_eq_flatMap, ← spreadNamesOfAll_eq_flatMap] at hn
    exact hn.elim (h name) (h' name)
  one h hmm name hn := by
    simp only [spreadNamesOfAll_eq_flatMap, mem_flatMap, mem_singleton] at h hn
    obtain ⟨_, rfl, hn⟩ := hn
    exact h name ⟨_, hmm, hn⟩
  field h name hn := h name (by simpa [Selection.spreadNamesOfAll, Selection.spreadNames])
  inline h name hn := h name (by simpa [Selection.spreadNamesOfAll, Selection.spreadNames])

/-- If the first reading has a result, the other one has the same, and the result and its notes are
as they should be. If the reading is to be total, it has one. -/
def Noted.Alike (total : Prop) (noted : Note → Prop) (holds : α → Prop) : Noted α → Noted α → Prop
  | none, _ => ¬ total
  | some given, other => other = some given ∧ (∀ note ∈ given.2, noted note) ∧ holds given.1

section

variable {total : Prop} {noted : Note → Prop} {holds : α → Prop} {holds' : β → Prop}

theorem Noted.alike_of {given : α × List Note} (hn : ∀ note ∈ given.2, noted note)
    (h : holds given.1) : Noted.Alike total noted holds (.of given) (.of given) :=
  ⟨rfl, hn, h⟩

theorem Noted.alike_pure {result : α} (h : holds result) :
    Noted.Alike total noted holds (pure result) (pure result) :=
  Noted.alike_of (forall_mem_nil _) h

/-- Readings that are alike step by step are alike. -/
theorem Noted.Alike.bind {first first' : Noted α} {next next' : α → Noted β}
    (h : Noted.Alike total noted holds first first')
    (hnx : ∀ result, holds result → Noted.Alike total noted holds' (next result) (next' result)) :
    Noted.Alike total noted holds' (first >>= next) (first' >>= next') := by
  cases first with
  | none => exact h
  | some given =>
    obtain ⟨rfl, hn, hg⟩ := h
    have hl := hnx given.1 hg
    change Noted.Alike total noted holds' (Option.map _ (next given.1))
      (Option.map _ (next' given.1))
    cases hm : next given.1 with
    | none =>
      rw [hm] at hl
      exact hl
    | some more =>
      rw [hm] at hl
      obtain ⟨ho, hmoreNotes, hr⟩ := hl
      rw [ho]
      exact ⟨rfl, forall_mem_append.mpr ⟨hn, hmoreNotes⟩, hr⟩

theorem Noted.Alike.imp {first first' : Noted α} {other : α → Prop}
    (h : Noted.Alike total noted holds first first') (hi : ∀ result, holds result → other result) :
    Noted.Alike total noted other first first' := by
  cases first with
  | none => exact h
  | some given => exact ⟨h.1, h.2.1, hi given.1 h.2.2⟩

theorem Noted.Alike.map {first first' : Noted α} (h : Noted.Alike total noted holds first first')
    {change : α → β} (hc : ∀ result, holds result → holds' (change result)) :
    Noted.Alike total noted holds' (change <$> first) (change <$> first') := by
  rw [← bind_pure_comp, ← bind_pure_comp]
  exact h.bind fun result hr => Noted.alike_pure (hc result hr)

/-- Readings of the elements that are alike. -/
theorem Noted.alike_mapM {step step' : α → Noted β} (elements : List α)
    (h : ∀ element ∈ elements, Noted.Alike total noted holds' (step element) (step' element)) :
    Noted.Alike total noted (fun results => ∀ result ∈ results, holds' result)
      (elements.mapM step) (elements.mapM step') := by
  induction elements with
  | nil => exact Noted.alike_pure (forall_mem_nil _)
  | cons first rest ih =>
    rw [mapM_cons, mapM_cons]
    exact (h first (mem_cons_self ..)).bind fun _ hf =>
      (ih (forall_mem_cons.mp h).2).bind fun _ hr =>
        Noted.alike_pure (forall_mem_cons.mpr ⟨hf, hr⟩)

end

/-- Fitting selections are read alike with other documents that find the same fragments and with
other entries. The selections of a fragment fit if they are merged. -/
structure Variation (setting : Setting) (documents : Documents)
    (record? record?' : String → Option String) (fit : ℕ → List String → List Selection → Prop)
    (total : Prop) (noted : Note → Prop) : Prop extends Nesting fit where
  fragment? : documents.fragment? = setting.documents.fragment?
  plain : ∀ {note}, note.Plain setting (·.isEnum = true) → noted note
  fail : ∀ {merging selections}, fit 0 merging selections → ¬ total
  entry : ∀ {bound merging name directives}, fit (bound + 1) merging [.spread name directives] →
    record? name = record?' name
  cyclic : ∀ {bound merging name directives}, fit (bound + 1) merging [.spread name directives] →
    name ∈ merging → noted (.warning (cyclicNotice name))
  merged : ∀ {bound merging name directives fragment},
    fit (bound + 1) merging [.spread name directives] →
    setting.documents.fragment? name = some fragment → record? name = none →
    (setting.spreadType? name).isSome → name ∉ merging →
      fit bound (name :: merging) fragment.selections

/-- What is noted in the step is as it should be, and the selections in it fit. -/
def Step.Fits (fit : ℕ → List String → List Selection → Prop) (noted : Note → Prop) (bound : ℕ)
    (merging : List String) : Step → Prop
  | .done tally notes =>
    (∀ note ∈ notes, noted note) ∧ ∀ piece ∈ tally.pieces, fit (bound + 1) merging piece.2
  | .field _ _ _ selections => fit bound merging selections
  | .enter more _ selections => fit bound more selections ∧ merging ⊆ more

namespace Variation

variable {record? record?' : String → Option String} {fit : ℕ → List String → List Selection → Prop}
  {total : Prop} {noted : Note → Prop} {read read' : SelectionReader}
  (h : Variation setting documents record? record?' fit total noted)

include h

/-- Selections that fit come to the same steps. -/
theorem stepOf_eq (parent : NamedType) {selection : Selection}
    (hs : fit (bound + 1) merging [selection]) :
    stepOf (setting.on documents) record?' merging parent selection =
      stepOf setting record? merging parent selection := by
  cases selection with
  | field | inline => rfl
  | spread name directives =>
    rw [stepOf, stepOf, spreadStep, spreadStep, h.fragment?, h.entry hs]

theorem fits_fieldStep (parent : NamedType) (key name : String)
    {selections : Option (List Selection)}
    (hs : ∀ inner ∈ selections, fit bound merging inner) :
    (fieldStep setting parent key name selections).Fits fit noted bound merging := by
  have hd : ∀ {schema required} {notes : List Note},
      (∀ note ∈ notes, note.Plain setting (·.isEnum)) →
      (Step.done (.key key schema required) notes).Fits fit noted bound merging :=
    fun hn => ⟨fun note hnt => h.plain (hn note hnt), forall_mem_nil _⟩
  unfold fieldStep
  split
  · exact hd (forall_mem_nil _)
  · split
    · exact hd (forall_mem_singleton.mpr
        (IsOtherNotice.append (.append (.append (.append ⟨'U', by decide, rfl⟩ _) _) _) _))
    · split
      · exact hd (forall_mem_nil _)
      · rename_i base ht
        split
        · split
          · exact hd (forall_mem_nil _)
          · exact hd (forall_mem_singleton.mpr
              (IsOtherNotice.append (.append ⟨'U', by decide, rfl⟩ _) _))
        · rename_i hk
          exact hd (forall_mem_singleton.mpr
            ⟨TypeSystem.type?_name ht, by simp [NamedType.isEnum, hk]⟩)
        · split
          · exact hd (forall_mem_nil _)
          · exact hs _ rfl

/-- What a selection that fits comes to, fits. -/
theorem fits_stepOf (parent : NamedType) {selection : Selection}
    (hs : fit (bound + 1) merging [selection]) :
    (stepOf setting record? merging parent selection).Fits fit noted bound merging := by
  cases selection with
  | field responseName name arguments directives selections =>
    refine h.fits_fieldStep parent _ name ?_
    rintro inner ⟨⟩
    exact h.field hs
  | spread name directives =>
    rw [stepOf]
    unfold spreadStep
    split
    · exact ⟨forall_mem_singleton.mpr
        (h.plain (IsOtherNotice.append (.append ⟨'U', by decide, rfl⟩ _) _)), forall_mem_nil _⟩
    · rename_i fragment hf
      dsimp only
      split
      · exact ⟨forall_mem_nil _, forall_mem_singleton.mpr hs⟩
      · split
        · exact ⟨forall_mem_nil _, forall_mem_nil _⟩
        · rename_i he
          split
          · rename_i ho
            exact ⟨forall_mem_singleton.mpr (h.cyclic hs (by simpa using ho)),
              forall_mem_nil _⟩
          · rename_i hc
            split
            · exact ⟨forall_mem_nil _, forall_mem_nil _⟩
            · rename_i type ht
              refine ⟨h.merged hs hf he ?_ (by simpa using hc),
                subset_cons_self ..⟩
              rw [Setting.spreadType?, hf, Option.bind_some, ht]
              rfl
  | inline condition directives selections =>
    have hi := h.inline hs
    rw [stepOf]
    split
    · exact ⟨forall_mem_nil _,
        forall_mem_singleton.mpr (h.mono hi (Nat.le_succ _) (Subset.refl _))⟩
    · exact ⟨hi, Subset.refl _⟩

/-- The schema of fitting selections on a type. -/
theorem readWhole (hr : ∀ merging parent selections, fit bound merging selections →
      Noted.Alike total noted (fun tally => ∀ piece ∈ tally.pieces, fit bound merging piece.2)
        (read merging parent selections) (read' merging parent selections))
    (parent : NamedType) (hs : fit bound merging selections) :
    Noted.Alike total noted (fun _ => True) (readWhole setting read merging parent selections)
      (readWhole (setting.on documents) read' merging parent selections) := by
  rw [GraphQL.readWhole, GraphQL.readWhole, bind_map_left, bind_map_left]
  refine (hr merging parent selections hs).bind fun tally ht => ?_
  have hp := @of_mem_gather _ (· ++ ·) [] (fun _ => fit bound merging) (fun _ _ _ => h.append)
    (fun _ _ ho => ho) tally.pieces [] (forall_mem_nil _) ht
  split
  · refine (@Noted.alike_mapM _ _ _ _ (fun _ => True) _ _ _ fun piece hpc => ?_).map
      fun _ _ => trivial
    unfold readMember
    dsimp only
    split
    · exact Noted.alike_pure trivial
    · exact (hr _ _ _ (hp piece hpc)).bind fun _ _ => Noted.alike_pure trivial
  · exact Noted.alike_of (fun note hn => h.plain (Selected.plain_of_mem_alone hn)) trivial

/-- Selections to a depth, and to a greater one. -/
theorem readAll (fuel : ℕ) : ∀ {fuel'}, fuel ≤ fuel' → ∀ merging parent selections,
    fit fuel merging selections →
      Noted.Alike total noted (fun tally => ∀ piece ∈ tally.pieces, fit fuel merging piece.2)
        (readAll setting record? fuel merging parent selections)
        (readAll (setting.on documents) record?' fuel' merging parent selections) := by
  induction fuel with
  | zero => exact fun _ _ _ _ => h.fail
  | succ fuel ih =>
    intro fuel' hf merging parent selections hft
    cases fuel' with
    | zero => omega
    | succ fuel' =>
      have hr := @ih fuel' (Nat.le_of_succ_le_succ hf)
      refine (@Noted.alike_mapM _ _ _ _
        (fun tally : Tally => ∀ piece ∈ tally.pieces, fit (fuel + 1) merging piece.2) _ _ selections
          fun selection hm => ?_).map fun tallies htl piece hp => ?_
      · have hsl := h.one hft hm
        have hs := h.fits_stepOf parent hsl
        rw [h.stepOf_eq parent hsl]
        cases hc : stepOf setting record? merging parent selection with
        | done tally notes =>
          rw [hc] at hs
          exact Noted.alike_of hs.1 hs.2
        | field key type base inner =>
          rw [hc] at hs
          exact (h.readWhole hr base hs).map fun _ _ => forall_mem_nil _
        | enter more type inner =>
          rw [hc] at hs
          exact (hr more type inner hs.1).imp fun tally ht piece hp =>
            h.mono (ht piece hp) (Nat.le_succ _) hs.2
      · obtain ⟨tally, ht, hp⟩ := mem_flatMap.mp hp
        exact htl tally ht piece hp

theorem readSchema (hd : setting.depth ≤ (setting.on documents).depth) (type : NamedType)
    (hs : fit setting.depth merging selections) :
    Noted.Alike total noted (fun _ => True) (readSchema setting record? merging type selections)
      (readSchema (setting.on documents) record?' merging type selections) :=
  h.readWhole (h.readAll _ hd) type hs

/-- A schema that is read is read under the variation, too. -/
theorem of_readSchema (hd : setting.depth ≤ (setting.on documents).depth) {type : NamedType}
    {given : Schema × List Note} (hs : fit setting.depth merging selections)
    (hr : GraphQL.readSchema setting record? merging type selections = some given) :
    GraphQL.readSchema (setting.on documents) record?' merging type selections = some given ∧
      ∀ note ∈ given.2, noted note := by
  have ha := h.readSchema hd type hs
  rw [hr] at ha
  exact ⟨ha.1, ha.2.1⟩

end Variation

/-- All selections are read alike with documents that find the same fragments, and only known
enumerations are queued. -/
theorem variation_of_fragment? (h : documents.fragment? = setting.documents.fragment?)
    (record? : String → Option String) :
    Variation setting documents record? record? (fun _ _ _ => True) False fun note =>
      ∀ type, note = .queued type → setting.system.type? type.name = some type ∧ type.isEnum where
  mono _ _ _ := trivial
  append _ _ := trivial
  one _ _ := trivial
  field _ := trivial
  inline _ := trivial
  fragment? := h
  plain {note} hp type he := by
    subst he
    exact hp
  fail _ := id
  entry _ := rfl
  cyclic _ _ _ he := by cases he
  merged _ _ _ _ _ := trivial

theorem enum_of_readSchema {record? : String → Option String} {parent : NamedType} {schema : Schema}
    {notes : List Note}
    (h : readSchema setting record? merging parent selections = some (schema, notes)) :
    ∀ type, .queued type ∈ notes → setting.system.type? type.name = some type ∧ type.isEnum := by
  obtain ⟨-, hn⟩ := (@variation_of_fragment? setting setting.documents rfl record?).of_readSchema
    (Nat.le_refl _) trivial h
  exact fun type ht => hn _ ht type rfl

end ApiSchema.GraphQL
