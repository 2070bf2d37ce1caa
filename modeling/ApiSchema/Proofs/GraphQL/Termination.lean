/-
# Fragments without cycles

If no fragment leads back to itself, a catalog comes about, and no fragment is noted as spread
inside of itself. Types may be missing and names of entries may clash: a fragment without an entry
is merged wherever it is spread, and only the fragments that are being merged lead to what is
spread. -/
import ApiSchema.Proofs.GraphQL.Upkeep

namespace ApiSchema.GraphQL

open List

variable {setting : Setting} {name : String} {type : NamedType} {base progress : Progress}

/-- What holds between the steps after a state `base`: the queue is in order, no name is lost, and
no fragment is noted as spread inside of itself. -/
structure Steady (setting : Setting) (base progress : Progress) : Prop extends
    Grown base progress where
  queue : Queue setting progress
  quiet : ∀ name, cyclicNotice name ∉ progress.warnings

namespace Steady

theorem start (setting : Setting) : Steady setting .start .start :=
  ⟨.refl _, ⟨nofun, nodup_nil, nofun⟩, fun _ => not_mem_nil⟩

variable (h : Steady setting base progress)

include h

/-- Plain notes keep a state steady. -/
theorem noteAll {notes : List Note} (hn : ∀ note ∈ notes, note.Plain setting fun type =>
      type.isEnum ∨ type ∈ setting.system.inputsOf setting.documents.operations) :
    Steady setting base (progress.noteAll notes) where
  toGrown := h.toGrown.trans (.noteAll ..)
  queue := h.queue.noteAll fun _ ht => hn _ ht
  quiet name hm := by
    rcases Progress.mem_warnings_noteAll.mp hm with hm | hm
    · exact h.quiet name hm
    · exact IsOtherNotice.ne (hn _ hm) name rfl

theorem warn {text : String} (ht : IsOtherNotice text) :
    Steady setting base (progress.warn text) :=
  @noteAll _ _ _ h [.warning text] (forall_mem_singleton.mpr ht)

theorem add (name : String) (schema : Schema)
    (category : Category) : Steady setting base (progress.add name schema category) :=
  ⟨h.toGrown.trans (.add ..), ⟨h.queue.known, h.queue.distinct, h.queue.met⟩, h.quiet⟩

theorem record (fragment entry : String) : Steady setting base { progress with
      fragmentEntries := Assoc.put progress.fragmentEntries fragment entry } :=
  ⟨h.toGrown.trans (.record ..), ⟨h.queue.known, h.queue.distinct, h.queue.met⟩, h.quiet⟩

end Steady

/-- Every step keeps the state steady. -/
theorem upkeep_steady : Upkeep setting (Steady setting) where
  self h := ⟨.refl _, h.queue, h.quiet⟩
  trans h h' := ⟨h.toGrown.trans h'.toGrown, h'.queue, h'.quiet⟩
  queue h := h.queue
  grown h := h.toGrown
  noteAll hn h := h.noteAll fun note hnt => (hn note hnt).imp fun _ => Or.inr
  pop h hp hh := ⟨h.toGrown.trans (.pop hp hh), h.queue.pop hp, h.quiet⟩
  add h _ _ _ _ := h.add _ _ _

/-- Without cycles there is a schema of selections. -/
theorem Steady.attains_schemaOf (ha : setting.documents.Acyclic) {merging : List String}
    {selections : List Selection} (type : NamedType)
    (hsz : Selection.sizeOfAll selections ≤ setting.documents.size)
    (hb : SpreadsBelow setting.documents merging selections) (base : Progress) :
    Attains (Steady setting base) (schemaOf setting merging type selections) fun _ =>
      Steady setting base := by
  intro start hs
  obtain ⟨schema, notes, -, hr, hn⟩ := exists_run_schemaOf ha type hsz hb start
  exact ⟨schema, _, hr, hs.noteAll fun note hnt => (hn note hnt).imp fun _ => Or.inl⟩

/-- Without cycles the entry of a fragment is added. -/
theorem Steady.attains_addFragmentEntry (ha : setting.documents.Acyclic)
    (hd : (setting.documents.fragments.map (·.name)).Nodup) {fragment : SourcedFragment}
    (hf : fragment ∈ setting.documents.fragments) (base : Progress) :
    Attains (Steady setting base) (addFragmentEntry setting fragment) fun _ =>
      Steady setting base := by
  have hfn := find?_of_nodup_map hd hf
  have hu : IsOtherNotice ("Unable to resolve type \"" ++ fragment.condition ++
      "\" for fragment \"" ++ fragment.name ++ "\"") :=
    .append (.append (.append (.append ⟨'U', by decide, rfl⟩ _) _) _) _
  unfold addFragmentEntry
  split
  · exact attains_modify fun _ h => h.warn hu
  · split
    · exact attains_modify fun _ h => h.warn hu
    · rename_i type _ _
      have hs := attains_schemaOf ha type (sizeOfAll_fragment_le hf)
        (spreadsBelow_of_fragment? hfn) base
      exact attains_unless_has (fun _ h _ => h) (attains_bind
        (hs.consequence (fun _ h => h.1) fun _ _ h => h) fun schema => attains_modify
          fun _ h => (h.add ..).record ..)

/-- Without cycles the entries of an operation are added. -/
theorem Steady.attains_addOperation (ha : setting.documents.Acyclic)
    {operation : NamedOperation} (ho : operation ∈ setting.documents.operations)
    (base : Progress) :
    Attains (Steady setting base) (addOperation setting operation) fun _ =>
      Steady setting base := by
  have hv : Attains (Steady setting base) (addVariables setting operation) fun _ =>
      Steady setting base := by
    unfold addVariables
    split
    · exact attains_bind (attains_of_gives (fun _ => gives_variableFields operation) fun _ h =>
          upkeep_steady.noteAll (admitted_variables ho) h)
        fun fields => attains_unless_has (fun _ h _ => h) (attains_modify fun _ h => h.1.add _ _ _)
    · exact attains_pure fun _ h => h
  refine attains_bind hv fun _ => ?_
  unfold addResponse
  split
  · exact attains_modify fun _ h =>
      h.warn (.append (.append (.append (.append ⟨'N', by decide, rfl⟩ _) _) _) _)
  · rename_i root _
    have hs := attains_schemaOf ha root (sizeOfAll_operation_le ho)
      (spreadsBelow_nil _) base
    exact attains_unless_has (fun _ h _ => h) (attains_bind
      (hs.consequence (fun _ h => h.1) fun _ _ h => h) fun schema =>
        attains_modify fun _ h => h.add _ _ _)

/-- Whatever the type system and the scalars are: if the fragments of some documents have different
names and none of them leads back to itself, there is a catalog, and no warning says that a fragment
is spread inside of itself. -/
theorem acyclic_fragments_give_catalog
    (hdistinct : (setting.documents.fragments.map (·.name)).Nodup)
    (hacyclic : setting.documents.Acyclic) :
    ∃ result, catalog setting = .ok result ∧
      ∀ name, "Cyclic spread of fragment \"" ++ name ++ "\" ignored" ∉ result.warnings := by
  have ha := upkeep_steady.attains_addAll hacyclic hdistinct (fun _ _ => True)
    (fun _ _ => trivial) (fun _ => trivial)
    (fun fragment hm base => (Steady.attains_addFragmentEntry hacyclic hdistinct hm
      base).consequence (fun _ h => h.1) fun _ _ h => ⟨h, trivial⟩) (.start setting)
    (fun _ (_ : True) => trivial) fun operation hm base =>
      (Steady.attains_addOperation hacyclic hm base).consequence (fun _ h => h.1)
        fun _ _ h => ⟨h, trivial⟩
  obtain ⟨_, final, hr, hs, -⟩ := ha .start rfl
  refine ⟨⟨topologicalSort final.entries, final.warnings⟩, ?_, hs.quiet⟩
  rw [catalog, hr]
  rfl

/-- Two fragments that ask for the same name, one of which spreads the other one, and a fragment on
a type that is missing, which is spread next to them. -/
def clashingSetting : Setting where
  system := {
    types := [⟨"Query", .object [("pet", .named "Pet")]⟩,
      ⟨"Pet", .object [("name", .named "String"), ("friend", .named "Pet")]⟩, ⟨"String", .scalar⟩]
    query := some "Query"
    mutation := none }
  documents := {
    operations := [⟨"find", .query, [], [.field none "pet" [] []
      (some [.spread "pet_name" [], .spread "lost" []])], "pets"⟩]
    fragments := [⟨⟨"petName", "Pet", [], [.field none "name" [] [] none]⟩, "pets"⟩,
      ⟨⟨"pet_name", "Pet", [], [.field none "friend" [] [] (some [.spread "petName" []])]⟩, "pets"⟩,
      ⟨⟨"lost", "Lost", [], [.spread "pet_name" []]⟩, "pets"⟩]
    skipped := [] }
  registry := ⟨none, Registry.defaults⟩

/-- The second and the third fragment have no entry, and yet the catalog comes about. -/
theorem clashingSetting_gives_catalog : (clashingSetting.documents.fragments.map (·.name)).Nodup ∧
      clashingSetting.documents.Acyclic ∧
      (catalog clashingSetting).toOption.map (·.entries.map (·.name)) =
        some ["PetNameFragment", "FindQuery"] ∧
      ∃ result, catalog clashingSetting = .ok result ∧
        ∀ name, "Cyclic spread of fragment \"" ++ name ++ "\" ignored" ∉ result.warnings := by
  have hd : (clashingSetting.documents.fragments.map (·.name)).Nodup := by decide
  have ha : clashingSetting.documents.Acyclic :=
    Documents.acyclic_of_rank (["petName", "pet_name", "lost"].idxOf ·) (by decide)
  exact ⟨hd, ha, by decide +kernel, acyclic_fragments_give_catalog hd ha⟩

end ApiSchema.GraphQL
