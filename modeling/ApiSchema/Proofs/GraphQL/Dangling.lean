/-
# No dangling names in catalogs of client documents

Every name that occurs in the catalog of some documents is the name of an entry. The invariant is
kept by each step in the making of the catalog: a name that occurs in an entry has an entry, or its
type is queued and gets one before the catalog is done.
-/
import Mathlib.Data.List.Nodup
import ApiSchema.Proofs.Dangling
import ApiSchema.Proofs.GraphQL.Assembly

namespace ApiSchema

open List

namespace GraphQL

variable {name : String} {type : NamedType} {setting : Setting} {awaited : List String}
  {progress : Progress} {schema : Schema}

/-! ## The invariant -/

/-- What holds between the steps: every name in an entry has an entry, is queued or is awaited; the
entry of a fragment is there; only enumerations and input objects are queued. -/
structure Settled (setting : Setting) (awaited : List String) (progress : Progress) : Prop where
  closed : Closed progress.entries (progress.pending.map (·.name) ++ awaited) []
  merged : ∀ pair ∈ progress.fragmentEntries, pair.2 ∈ progress.entries.map (·.name)
  queued : ∀ type ∈ progress.pending, setting.Queues type

theorem not_mem_of_has_eq_false (h : progress.has name = false) :
    name ∉ progress.entries.map (·.name) := by
  rw [← Progress.has_iff, h]
  exact Bool.false_ne_true

/-- The names that an entry inherits are dependencies of entries that it mentions. -/
theorem Progress.exists_of_mem_inherited {dependency : String}
    (h : dependency ∈ progress.inherited schema) :
    ∃ entry ∈ progress.entries, entry.name ∈ schema.mentions ∧ dependency ∈ entry.dependencies := by
  obtain ⟨name, hn, hd⟩ := mem_flatMap.mp h
  split at hd
  · rename_i entry hf
    have he : entry.name = name := by simpa using find?_some hf
    exact ⟨entry, mem_of_find?_eq_some hf,
      he ▸ (schema.mem_dependencies name).mp hn, hd⟩
  · cases hd

/-- If the elements of a list have different names, each is found by its name. -/
theorem find?_of_nodup_map {α : Type} {name : α → String} {elements : List α}
    (h : (elements.map name).Nodup) {element : α} (hm : element ∈ elements) :
    elements.find? (fun other => name other == name element) = some element := by
  cases hf : elements.find? (fun other => name other == name element) with
  | none =>
    have hnn := find?_eq_none.mp hf element hm
    simp at hnn
  | some other =>
    have hn : name other = name element := by simpa using find?_some hf
    rw [inj_on_of_nodup_map h (mem_of_find?_eq_some hf) hm hn]

theorem Progress.mem_inherited (hd : (progress.entries.map (·.name)).Nodup) {entry : Entry}
    (he : entry ∈ progress.entries) (hn : entry.name ∈ schema.mentions) {dependency : String}
    (h : dependency ∈ entry.dependencies) : dependency ∈ progress.inherited schema := by
  refine mem_flatMap.mpr ⟨entry.name, (schema.mem_dependencies _).mpr hn, ?_⟩
  rw [find?_of_nodup_map hd he]
  exact h

namespace Settled

theorem start : Settled setting [] .start :=
  ⟨Closed.nil, by simp [Progress.start], by simp [Progress.start]⟩

theorem keep (h : Settled setting (name :: awaited) progress) (hn : progress.has name) :
    Settled setting awaited progress :=
  ⟨h.closed.keep ((progress.has_iff name).mp hn), h.merged, h.queued⟩

section

variable (h : Settled setting awaited progress)
include h

/-- The state stays settled while a content is made. -/
theorem amid {after : Progress} (ha : Amid setting progress after) :
    Settled setting awaited after where
  closed := by
    rw [ha.entries]
    refine h.closed.of_promised fun name hn => Or.inr ?_
    rcases mem_append.mp hn with hq | haw
    · exact mem_append_left _ (map_subset _ ha.kept hq)
    · exact mem_append_right _ haw
  merged := by
    rw [ha.recorded, ha.entries]
    exact h.merged
  queued type ht := (ha.queued type ht).elim (h.queued type) id

/-- An entry whose names may be used may be added. -/
theorem add
    (hn : ∀ other ∈ schema.mentions,
      Provided progress.entries (progress.pending.map (·.name) ++ awaited) other)
    (category : Category) : Settled setting awaited (progress.add name schema category) := by
  have hc : Closed progress.entries (progress.pending.map (·.name) ++ name :: awaited)
      (schema.mentions ++ []) :=
    Closed.await ⟨h.closed.mentioned, h.closed.depended, by simpa using hn⟩ name
  refine ⟨hc.add (fun other ho => ?_) category, fun pair hp => ?_, h.queued⟩
  · obtain ⟨entry, he, -, hd⟩ := Progress.exists_of_mem_inherited ho
    exact hc.depended entry he other hd
  · rw [Progress.add, map_append]
    exact mem_append_left _ (h.merged pair hp)

/-- The names that a content may use in a settled state. -/
theorem exempting (hr : setting.registry.Nameless) :
    Exempting setting progress (fun _ => True)
      (fun _ => Provided progress.entries (progress.pending.map (·.name) ++ awaited)) where
  warned _ _ := trivial
  silentAt _ := trivial
  closed := Or.inr fun _ => trivial
  registered hg := Schema.usesOnly_of_mentions (hr.mentions_get? hg)
  queued hh _ _ := hh.imp id (mem_append_left _)
  merged hg := Or.inl (h.merged _ (Assoc.mem_of_get?_eq_some hg))

end

end Settled

/-! ## Steps -/

/-- Every step keeps the state settled, whatever is awaited. -/
theorem assembling_settled (hr : setting.registry.Nameless) :
    Assembling setting (Settled setting awaited) fun _ => True where
  warn h text := h.amid (amid_warn setting _ text)
  content := by
    intro position name category content _ hm start schema final hs hrn
    obtain ⟨ha, hd⟩ := hm.of_run hrn
    have hf := hs.amid ha
    have hn := (hd (hf.exempting hr)
      fun hh _ _ => hh.imp id (mem_append_left _)).named
    exact ⟨hf, fun _ => hf.add (hn.forall_mentions fun _ _ => id) category⟩
  record := by
    rintro _ progress fragment h ⟨entry, he, -, hnm⟩
    refine ⟨h.closed, fun pair hp => ?_, h.queued⟩
    rcases Assoc.value_of_mem_put hp with hv | hp
    · exact mem_map.mpr ⟨entry, he, hnm.trans hv.symm⟩
    · exact h.merged pair hp

theorem addEnum_of_not_isEnum (h : type.isEnum = false) : addEnum type = pure () := by
  unfold addEnum
  cases hk : type.kind <;> simp_all [NamedType.isEnum]

theorem addInput_of_not_isInput (h : type.isInput = false) : addInput setting type = pure () := by
  unfold addInput
  cases hk : type.kind <;> simp_all [NamedType.isInput]

/-- After an enumeration or an input object is added, its name has an entry. -/
theorem ensures_has_addType (h : type.isEnum ∨ type.isInput) (pre : Progress → Prop) :
    Ensures pre (addType setting type) fun _ progress => progress.has type.name := by
  have hp : ∀ current : Progress, ¬ (!current.has type.name) →
      Ensures (fun progress => progress = current ∧ pre progress) (pure () : Builder Unit)
        fun _ progress => progress.has type.name := by
    intro current hh
    refine ensures_pure ?_
    rintro progress ⟨rfl, -⟩
    simpa using hh
  have ha : ∀ schema category (pre : Progress → Prop), Ensures pre
      (modify (·.add type.name schema category) : Builder Unit)
        fun _ progress => progress.has type.name := fun schema category _ =>
    ensures_modify fun progress _ => by simp [Progress.has, Progress.add, Entry.of]
  unfold addType
  cases hk : type.kind with
  | enum values =>
    rw [addInput_of_not_isInput (by simp [NamedType.isInput, hk])]
    refine ensures_bind ?_ fun _ => ensures_pure fun _ h => h
    unfold addEnum
    rw [hk]
    refine ensures_get_bind fun current => ?_
    split
    · exact ha _ _ _
    · exact hp current ‹_›
  | input fields =>
    rw [addEnum_of_not_isEnum (by simp [NamedType.isEnum, hk]), pure_bind]
    unfold addInput
    rw [hk]
    refine ensures_get_bind fun current => ?_
    split
    · exact ensures_bind (fun _ _ _ _ _ => trivial) fun _ => ha _ _ fun _ => True
    · exact hp current ‹_›
  | _ => simp [NamedType.isEnum, NamedType.isInput, hk] at h

/-- A type that is taken out of the queue is awaited until it has its entry. -/
theorem Settled.take (hr : setting.registry.Nameless) (h : Settled setting [] progress)
    {rest : List NamedType} (hp : progress.pending = type :: rest) :
    Ensures (fun state => state = { progress with pending := rest }) (addType setting type) fun _ =>
      Settled setting [] := by
  have hq := h.queued
  have hc := h.closed
  rw [hp] at hq hc
  have ht : Settled setting [type.name] { progress with pending := rest } :=
    ⟨hc.pop, h.merged, (forall_mem_cons.mp hq).2⟩
  obtain ⟨hty, hk⟩ := hq type (mem_cons_self ..)
  exact (((assembling_settled hr).taken trivial trivial ⟨hty, ht⟩).and
    (ensures_has_addType hk _)).consequence (fun _ h => h) fun _ _ h => h.1.keep h.2

/-! ## Catalogs -/

/-- After all entries are added, every name in an entry has an entry. -/
theorem closed_of_addAll (hr : setting.registry.Nameless)
    (hrn : (addAll setting).run .start = .ok ((), progress)) : Closed progress.entries [] [] := by
  obtain ⟨hs, hp⟩ := (assembling_settled hr).addAll (fun _ => trivial)
    (fun h hp => h.take hr hp) _ _ _ Settled.start hrn
  have hc := hs.closed
  rwa [hp] at hc

/-- Whatever the type system, the documents and the overrides of scalars are: if there is a catalog,
no name dangles in it. -/
theorem noDangling_documentCatalog {system : TypeSystem} {documents : Documents}
    {library : Option String} {overrides : List (String × String)} {registry : Registry}
    (hregistry : Registry.ofName library overrides = .ok registry) {result : Catalog}
    (hcatalog : catalog ⟨system, documents, registry⟩ = .ok result) :
    NoDangling result.entries := by
  obtain ⟨⟨_, progress⟩, hrn, hr⟩ := of_bind_eq_ok hcatalog
  cases hr
  exact (closed_of_addAll (Registry.nameless_of_ofName hregistry) hrn).noDangling

/-! ## Two fragments that spread each other -/

/-- Pets, and an input object that refers to itself. -/
def petSystem : TypeSystem where
  types :=
    [⟨"Query", .object [("pet", .named "Pet")]⟩,
      ⟨"Pet", .object [("kind", .nonNull (.named "Kind")), ("friend", .named "Pet")]⟩,
      ⟨"Kind", .enum ["CAT", "DOG"]⟩,
      ⟨"Search", .input [⟨"kind", .named "Kind", false⟩, ⟨"also", .named "Search", false⟩]⟩]
  query := some "Query"
  mutation := none

/-- A query through two fragments that spread each other. -/
def petDocuments : Documents where
  operations :=
    [⟨"find", .query, [⟨"search", .named "Search", none, []⟩],
      [.field none "pet" [] [] (some [.spread "a" []])], "pets"⟩]
  fragments :=
    [⟨⟨"a", "Pet", [], [.field none "kind" [] [] none, .spread "b" []]⟩, "pets"⟩,
      ⟨⟨"b", "Pet", [], [.field none "friend" [] [] (some [.spread "a" []])]⟩, "pets"⟩]
  skipped := []

/-- The catalog of the pets has six entries and no dangling name. -/
theorem noDangling_petCatalog :
    ∃ registry result, Registry.ofName none [("Money", "z.string()")] = .ok registry ∧
      catalog ⟨petSystem, petDocuments, registry⟩ = .ok result ∧
      result.entries.map (·.name) =
        ["Kind", "Search", "BFragment", "AFragment", "FindQueryVariables", "FindQuery"] ∧
      NoDangling result.entries := by
  have hr : Registry.ofName none [("Money", "z.string()")] =
      .ok ⟨none, Registry.defaults ++ [("Money", .raw "z.string()")]⟩ := rfl
  have hc : catalog ⟨petSystem, petDocuments, none,
      Registry.defaults ++ [("Money", .raw "z.string()")]⟩ = .ok _ := rfl
  exact ⟨_, _, hr, hc, by decide +kernel,
    noDangling_documentCatalog hr hc⟩

end GraphQL

end ApiSchema
