/-
# Spread fragments come first

Selections mention only enumerations and fragments that have their entries already. So dependencies
of the entry of a fragment or a response never lead back to it, even if the fragments of the
documents spread each other in a circle, and the order of declaration puts every entry after those
that its schema spreads. A filter keeps with an entry all that it depends on, and so it keeps this
order.
-/
import ApiSchema.Proofs.Filter
import ApiSchema.Proofs.GraphQL.Dangling
import ApiSchema.Proofs.Initials

namespace ApiSchema

variable {entries before : List Entry} {setting : Setting} {part schema : Schema}
  {inOrder : List Entry → Entry → Prop} {name : String} {category : Category} {type : NamedType}
  {entry : Entry}

open List Relation

/-! ## Entries after what they spread -/

/-- Every entry comes after the entries that its schema spreads, at any depth. -/
def SpreadsFirst (entries : List Entry) : Prop :=
  ∀ before entry after, entries = before ++ entry :: after →
    ∀ part, Schema.Part part entry.schema → ∀ name ∈ part.spreads, name ∈ before.map (·.name)

theorem Schema.Part.spreads_subset (h : Part part schema) : part.spreads ⊆ schema.mentions :=
  fun _ hn => h.mentions_subset (part.spreads_subset_mentions hn)

/-- A filter leaves entries after what they spread. -/
theorem SpreadsFirst.apply (h : SpreadsFirst entries) (hd : (entries.map (·.name)).Nodup)
    (hm : ∀ entry ∈ entries, entry.IsMade) (filter : Filter) :
    SpreadsFirst (filter.apply entries) := by
  intro before entry after hsp part hp name hn
  obtain ⟨first, rest, hen, rfl, hr⟩ := filter_eq_append_iff.mp hsp
  obtain ⟨skipped, last, rfl, hs, hk, -⟩ := filter_eq_cons_iff.mp hr
  have ha : entries = (first ++ skipped) ++ entry :: last := by
    rw [hen, append_assoc]
  have hb : name ∈ (first ++ skipped).map (·.name) :=
    h _ entry last ha part hp name hn
  have he : entry ∈ entries := by
    rw [ha]
    exact mem_append_right _ (mem_cons_self ..)
  -- The spread entry is another one, so it is a dependency and kept as well.
  obtain ⟨other, ho, rfl⟩ := mem_map.mp hb
  have hne : other.name ≠ entry.name := by
    rw [ha, map_append, nodup_append] at hd
    exact hd.2.2 _ hb _ (mem_cons_self ..)
  have hmm : other ∈ entries := by
    rw [ha]
    exact mem_append_left _ ho
  have hotherKept := filter.mem_keptNames_of_mem_dependencies hd he
    (by simpa using hk) ((hm entry he).mem_dependencies (hp.spreads_subset hn) hne)
    (mem_map_of_mem hmm)
  have hf : other ∈ first := by
    refine (mem_append.mp ho).resolve_right fun hsk => ?_
    exact hs other hsk (by simpa using hotherKept)
  exact mem_map_of_mem (mem_filter.mpr ⟨hf, by simpa using hotherKept⟩)

/-- All filters of some hooks leave entries after what they spread. -/
theorem SpreadsFirst.filterEntries (h : SpreadsFirst entries)
    (hd : (entries.map (·.name)).Nodup) (hm : ∀ entry ∈ entries, entry.IsMade)
    (hooks : Hooks) : SpreadsFirst (hooks.filterEntries entries) := by
  rw [Hooks.filterEntries]
  generalize hooks.filters = filters
  induction filters generalizing entries with
  | nil => exact h
  | cons filter rest ih =>
    have hs : (filter.apply entries).Sublist entries := filter_sublist
    exact ih (h.apply hd hm filter) ((hs.map _).nodup hd)
      fun entry he => hm entry (hs.subset he)

/-! ## Entries one after the other -/

/-- Entries that were added one after the other, each in order with those before it. -/
inductive Built (inOrder : List Entry → Entry → Prop) : List Entry → Prop
  | nil : Built inOrder []
  | concat {entries : List Entry} {entry : Entry} (h : Built inOrder entries)
      (hentry : inOrder entries entry) : Built inOrder (entries ++ [entry])

/-- Every entry was in order with those before it. -/
theorem Built.of_split (h : Built inOrder entries) : ∀ {before after : List Entry} {entry : Entry},
    entries = before ++ entry :: after → inOrder before entry := by
  induction h with
  | nil =>
    intro before after entry hs
    exact absurd hs (by simp)
  | concat _ hl ih =>
    intro before after entry hs
    rcases eq_nil_or_concat after with rfl | ⟨rest, last, rfl⟩
    · obtain ⟨rfl, he⟩ := append_inj' hs rfl
      cases he
      exact hl
    · rw [concat_eq_append, ← cons_append, ← append_assoc] at hs
      exact ih (append_inj' hs rfl).1

/-- If every new entry has a new name, the names are distinct. -/
theorem Built.nodup (h : Built inOrder entries)
    (hf : ∀ before entry, inOrder before entry → entry.name ∉ before.map (·.name)) :
    (entries.map (·.name)).Nodup := by
  induction h with
  | nil => exact nodup_nil
  | concat _ hl ih => exact nodup_map_concat ih (hf _ _ hl)

namespace Schema

/-- No part of the schema spreads an entry. -/
def SpreadFree (schema : Schema) : Prop := ∀ part, Part part schema → part.spreads = []

end Schema

namespace GraphQL

/-! ## Where entries come from -/

/-- The name of an enumeration. -/
def Setting.IsEnumName (setting : Setting) (name : String) : Prop :=
  ∃ type, setting.system.type? name = some type ∧ type.isEnum = true

/-- A name that selections can mention: that of an enumeration, or of the entry of a fragment. -/
def Selectable (setting : Setting) (entries : List Entry) (name : String) : Prop :=
  setting.IsEnumName name ∨ IsFragmentName entries name

theorem Selectable.append (h : Selectable setting entries name) (more : List Entry) :
    Selectable setting (entries ++ more) name := by
  refine h.imp id ?_
  rintro ⟨entry, he, hr⟩
  exact ⟨entry, mem_append_left _ he, hr⟩

/-- A name as selections can use it: they refer to enumerations, and spread entries of fragments. -/
def Usable (setting : Setting) (entries : List Entry) (spread : Bool) (name : String) : Prop :=
  IsFragmentName entries name ∨ spread = false ∧ setting.IsEnumName name

/-- What the schema of an entry may mention and how the entry is named, by the role of the entry. -/
inductive Source (setting : Setting) (before : List Entry) (name : String) (schema : Schema) :
    Category → Prop
  | enum (htype : setting.IsEnumName name) (hnone : schema.mentions = []) :
      Source setting before name schema .enum
  | input {type : NamedType} (htype : setting.system.type? name = some type)
      (hinput : type.isInput = true) (hfree : schema.SpreadFree) :
      Source setting before name schema .input
  | operationVariables (hname : Name.IsComposed name) (hfree : schema.SpreadFree) :
      Source setting before name schema .operationVariables
  | fragment (hname : Name.IsComposed name) (hnames : schema.UsesOnly (Usable setting before)) :
      Source setting before name schema .fragment
  | response (hname : Name.IsComposed name) (hnames : schema.UsesOnly (Usable setting before)) :
      Source setting before name schema .response

/-- An entry is in order with those before it: its name is new, it depends on what it mentions and
on what the entries that it mentions depend on, and it mentions what its role allows. -/
structure Grounded (setting : Setting) (before : List Entry) (entry : Entry) : Prop where
  fresh : entry.name ∉ before.map (·.name)
  made : entry.IsMade
  depends : ∀ dependency, dependency ∈ entry.dependencies ↔ (dependency ∈ entry.schema.mentions ∨
    ∃ other ∈ before, other.name ∈ entry.schema.mentions ∧ dependency ∈ other.dependencies) ∧
      dependency ≠ entry.name
  source : Source setting before entry.name entry.schema entry.category

/-- The entries were in order when they were added, the recorded fragments have entries, and only
types of the system are queued. -/
structure Traced (setting : Setting) (progress : Progress) : Prop where
  built : Built (Grounded setting) progress.entries
  merged : ∀ pair ∈ progress.fragmentEntries, IsFragmentName progress.entries pair.2
  queued : setting.system.Known progress.pending

namespace Traced

variable {progress : Progress}

theorem start (setting : Setting) : Traced setting .start :=
  ⟨.nil, by simp [Progress.start], by simp [Progress.start, TypeSystem.Known]⟩

theorem distinct (h : Traced setting progress) : (progress.entries.map (·.name)).Nodup :=
  h.built.nodup fun _ _ hg => hg.fresh

/-- An entry with a new name may be added. -/
theorem add (h : Traced setting progress) (hn : name ∉ progress.entries.map (·.name))
    (hs : Source setting progress.entries name schema category) :
    Traced setting (progress.add name schema category) where
  built := by
    refine h.built.concat ⟨hn, ⟨progress.inherited schema, rfl⟩, fun dependency => ?_, hs⟩
    refine (Entry.mem_dependencies_of ..).trans (and_congr_left' (or_congr_right ⟨?_, ?_⟩))
    · exact Progress.exists_of_mem_inherited
    · rintro ⟨entry, he, hm, hd⟩
      exact Progress.mem_inherited h.distinct he hm hd
  merged := by
    intro pair hp
    obtain ⟨entry, he, hr⟩ := h.merged pair hp
    exact ⟨entry, mem_append_left _ he, hr⟩
  queued := h.queued

end Traced

/-! ## Schemas -/

/-- Schemas for inputs spread nothing. -/
theorem Sourced.spreadFree {exempt : Position → Prop}
    (hr : setting.registry.Nameless) {position : Position}
    (h : Sourced setting exempt position schema) (hp : position.isInput) :
    schema.SpreadFree := by
  suffices hon : schema.UsesOnly fun spread _ => spread = false by
    refine fun part hpr => eq_nil_iff_forall_not_mem.mpr fun name hn => ?_
    cases hon true name ⟨part, hpr, hn⟩
  have hu : Schema.unknown.UsesOnly fun spread _ => spread = false :=
    Schema.usesOnly_of_mentions Schema.mentions_unknown
  revert hp
  refine @Sourced.rec setting exempt
    (fun position schema _ => position.isInput → schema.UsesOnly fun spread _ => spread = false)
    (fun position field _ => position.isInput →
      field.schema.UsesOnly fun spread _ => spread = false)
    ?scalar ?ref ?unknown ?composite ?enumeration ?object ?union ?typeName ?unknownField ?offered
    position schema h
  case scalar =>
    exact fun _ hg _ => Schema.usesOnly_of_mentions (hr.mentions_get? hg)
  case ref => exact fun _ _ _ _ => Schema.usesOnly_ref rfl
  case unknown => exact fun _ _ => hu
  case composite | enumeration | union | typeName =>
    intros
    rename_i hp
    cases hp
  case object =>
    intro position fields spreads ha _ ih hp
    obtain rfl : spreads = [] := by
      cases position <;> simp_all [Position.admits, Position.isInput]
    exact Schema.usesOnly_object (fun field hf => ih field hf hp) (forall_mem_nil _)
  case unknownField =>
    intro position field _ he _
    rw [he]
    exact hu
  case offered =>
    intro position inner key reference schema required ho _ ih hp
    refine reference.usesOnly_wrap (ih ?_)
    cases ho with
    | inputField | variableDef => rfl
    | selected => cases hp

/-! ## Steps -/

section

variable {progress : Progress}

theorem Traced.amid {base : Progress} (hb : Traced setting base)
    (h : Amid setting base progress) : Traced setting progress := by
  refine ⟨?_, ?_, h.known hb.queued⟩
  · rw [h.entries]
    exact hb.built
  · rw [h.entries, h.recorded]
    exact hb.merged

/-- The names that selections may use in such a state. -/
theorem Traced.exempting (h : Traced setting progress)
    (hr : setting.registry.Nameless) :
    Exempting setting progress (fun _ => True) (Usable setting progress.entries) where
  warned _ _ := trivial
  silentAt _ := trivial
  closed := Or.inr fun _ => trivial
  registered hg := Schema.usesOnly_of_mentions (hr.mentions_get? hg)
  queued _ ht he := Or.inr ⟨rfl, _, ht, he⟩
  merged hg := Or.inl (h.merged _ (Assoc.mem_of_get?_eq_some hg))

/-- Every entry is added in order. -/
theorem assembling_traced (hr : setting.registry.Nameless) :
    Assembling setting (Traced setting) fun _ => True where
  warn h text := h.amid (amid_warn setting _ text)
  content := by
    intro position name category content _ hm base schema final hb hrn
    obtain ⟨ha, hd⟩ := hm.of_run hrn
    have ht := hb.amid ha
    refine ⟨ht, fun hh => ht.add (not_mem_of_has_eq_false hh) ?_⟩
    have hs := (hd (exempting_all _) fun _ _ _ => trivial).sourced
    cases hm with
    | enum hty hk =>
      cases hrn
      exact .enum ⟨_, hty, by simp [NamedType.isEnum, hk]⟩ (by simp [Schema.mentions])
    | input hty hk =>
      exact .input hty (by simp [NamedType.isInput, hk]) (hs.spreadFree hr rfl)
    | operationVariables =>
      exact .operationVariables (Name.isComposed_variablesEntry _ _)
        (hs.spreadFree hr rfl)
    | fragment _ hty =>
      exact .fragment (Name.isComposed_fragmentEntry _)
        ((of_run_schemaOf hrn (TypeSystem.type?_name hty)).2 (ht.exempting hr)).named
    | response _ hrt =>
      exact .response (Name.isComposed_responseEntry _ _)
        ((of_run_schemaOf hrn (TypeSystem.type?_of_root? hrt)).2
          (ht.exempting hr)).named
  record := by
    intro _ progress fragment h he
    refine ⟨h.built, fun pair hp => ?_, h.queued⟩
    rcases Assoc.value_of_mem_put hp with hv | hp
    · rw [hv]
      exact he
    · exact h.merged pair hp

/-- The type that is first in the queue is one of the system. -/
theorem Traced.dequeue (h : Traced setting progress)
    {rest : List NamedType} (hp : progress.pending = type :: rest) :
    setting.system.type? type.name = some type ∧
      Traced setting { progress with pending := rest } := by
  have hq := h.queued
  rw [hp] at hq
  exact ⟨hq type (mem_cons_self ..), h.built, h.merged, (forall_mem_cons.mp hq).2⟩

/-- All entries are added in order. -/
theorem ensures_traced_addAll (hr : setting.registry.Nameless) :
    Ensures (Traced setting) (addAll setting) fun _ => Traced setting :=
  ((assembling_traced hr).addAll (fun _ => trivial) fun h hp =>
    (assembling_traced hr).taken trivial trivial (h.dequeue hp)).consequence
      (fun _ h => h) fun _ _ h => h.1

end

/-! ## Dependencies -/

/-- The roles whose entries are named after fragments and operations. -/
def isOwn : Category → Bool
  | .fragment | .operationVariables | .response => true
  | _ => false

/-- The entries of fragments and operations are not named like types. -/
def OwnNames (setting : Setting) (entries : List Entry) : Prop :=
  ∀ entry ∈ entries, isOwn entry.category = true → setting.system.type? entry.name = none

/-- The entries of selections, which mention only selectable names. -/
def IsSelection (category : Category) : Prop := category = .fragment ∨ category = .response

/-- An entry of selections mentions selectable names. -/
theorem Source.selectable
    (h : Source setting before name schema category) (hc : IsSelection category) :
    ∀ mention ∈ schema.mentions, Selectable setting before mention := by
  have hs : ∀ spread mention, Usable setting before spread mention →
      Selectable setting before mention := fun _ _ hu => hu.symm.imp And.right id
  rcases hc with rfl | rfl
  · cases h with
    | fragment _ hn => exact hn.forall_mentions hs
  · cases h with
    | response _ hn => exact hn.forall_mentions hs

/-- An entry that spreads something is one of selections. -/
theorem Source.isSelection
    (h : Source setting before name schema category)
    (hp : Schema.Part part schema) {spread : String} (hs : spread ∈ part.spreads) :
    IsSelection category := by
  cases h with
  | enum _ hn =>
    have hm := hp.spreads_subset hs
    rw [hn] at hm
    cases hm
  | input _ _ hf =>
    rw [hf part hp] at hs
    cases hs
  | operationVariables _ hf =>
    rw [hf part hp] at hs
    cases hs
  | fragment => exact Or.inl rfl
  | response => exact Or.inr rfl

section

variable (h : Built (Grounded setting) entries)

include h

theorem eq_of_name_eq {other : Entry} (he : entry ∈ entries) (ho : other ∈ entries)
    (heq : entry.name = other.name) : entry = other :=
  inj_on_of_nodup_map (h.nodup fun _ _ hg => hg.fresh) he ho heq

variable (hown : OwnNames setting entries) {after : List Entry}

include hown

/-- The entry of an enumeration depends on nothing. -/
theorem dependencies_of_isEnumName (hen : entry ∈ entries)
    (he : setting.IsEnumName entry.name) : entry.dependencies = [] := by
  obtain ⟨type, ht, he⟩ := he
  obtain ⟨before, after, hsp⟩ := append_of_mem hen
  obtain ⟨-, -, hdp, hs⟩ := h.of_split hsp
  have hown : isOwn entry.category → False := by
    intro hc
    rw [hown entry hen hc] at ht
    cases ht
  generalize hc : entry.category = category at hs hown
  cases hs with
  | enum _ hn =>
    rw [eq_nil_iff_forall_not_mem]
    intro dependency hd
    rcases ((hdp dependency).mp hd).1 with hm | ⟨other, -, hm, -⟩ <;>
    · rw [hn] at hm
      cases hm
  | input ht' hi _ =>
    obtain rfl := Option.some.inj (ht.symm.trans ht')
    unfold NamedType.isEnum at he
    unfold NamedType.isInput at hi
    cases hk : type.kind <;> simp [hk] at he hi
  | operationVariables => exact absurd rfl hown
  | fragment => exact absurd rfl hown
  | response => exact absurd rfl hown

/-- The dependencies of an entry with a selectable name are selectable, if those of the entries
before are. -/
theorem selectable_of_named {other : Entry}
    (hs : entries = before ++ entry :: after) (ho : other ∈ entries)
    (hn : Selectable setting before other.name)
    (he : ∀ front back, front.length < before.length → entries = front ++ other :: back →
      IsSelection other.category →
        ∀ dependency ∈ other.dependencies, Selectable setting front dependency) :
    ∀ dependency ∈ other.dependencies, Selectable setting before dependency := by
  intro dependency hd
  rcases hn with hen | ⟨fragment, hf, hc, heq⟩
  · rw [dependencies_of_isEnumName h hown ho hen] at hd
    cases hd
  · obtain rfl := eq_of_name_eq h (hs ▸ mem_append_left _ hf) ho heq
    obtain ⟨front, back, rfl⟩ := append_of_mem hf
    rw [append_assoc] at hs
    exact (he front _ (by simp) hs (Or.inl hc) dependency hd).append _

/-- An entry of selections depends on enumerations and on fragments whose entries are before it. -/
theorem selectable_of_mem_dependencies {before after : List Entry} {entry : Entry}
    (hs : entries = before ++ entry :: after) (hc : IsSelection entry.category) :
    ∀ dependency ∈ entry.dependencies, Selectable setting before dependency := by
  intro dependency hd
  have hg := h.of_split hs
  have hn := hg.source.selectable hc
  rcases ((hg.depends dependency).mp hd).1 with
    hm | ⟨other, ho, hm, hd⟩
  · exact hn dependency hm
  · exact selectable_of_named h hown hs (hs ▸ mem_append_left _ ho)
      (hn other.name hm)
      (fun front back hl hs' => selectable_of_mem_dependencies hs') _ hd
termination_by before.length

/-- What an entry of selections depends on, directly or not, is selectable for it. -/
theorem selectable_of_transGen (hsp : entries = before ++ entry :: after)
    {last : String} (hn : Selectable setting before name)
    (hc : TransGen (Leads (indexByName entries)) name last) :
    Selectable setting before last := by
  have hs : ∀ first second, Selectable setting before first →
      Leads (indexByName entries) first second → Selectable setting before second := by
    rintro first second hf ⟨other, hg, hd⟩
    obtain rfl := name_of_get?_indexByName hg
    have ho : other ∈ entries := by
      obtain ⟨front, back, rfl, -⟩ := (get?_indexByName_eq_some_iff other).mp hg
      exact mem_append_right _ (mem_cons_self ..)
    exact selectable_of_named h hown hsp ho hf
      (fun _ _ _ hs' => selectable_of_mem_dependencies h hown hs') second hd
  induction hc with
  | single hl => exact hs _ _ hn hl
  | tail _ hl ih => exact hs _ _ ih hl

/-- The order of declaration puts every entry after those that its schema spreads. -/
theorem spreadsFirst_topologicalSort
    (hcl : ∀ entry ∈ entries, ∀ name ∈ entry.schema.mentions, name ∈ entries.map (·.name)) :
    SpreadsFirst (topologicalSort entries) := by
  intro earlier entry later hsr part hp name hn
  have he : entry ∈ entries := by
    apply mem_of_mem_topologicalSort
    rw [hsr]
    exact mem_append_right _ (mem_cons_self ..)
  obtain ⟨before, after, hsp⟩ := append_of_mem he
  have hg := h.of_split hsp
  have hct := hg.source.isSelection hp hn
  have hm := hp.spreads_subset hn
  have hs := hg.source.selectable hct name hm
  -- The entry itself is not selectable for its own schema, so nothing leads back to it.
  have hsl : ¬ Selectable setting before entry.name := by
    rintro (⟨type, ht, -⟩ | ⟨fragment, hf, -, heq⟩)
    · have hnn := hown entry he (by rcases hct with hc | hc <;> rw [hc] <;> rfl)
      rw [hnn] at ht
      cases ht
    · exact hg.fresh (heq ▸ mem_map_of_mem hf)
  have hne : name ≠ entry.name := by
    rintro rfl
    exact hsl hs
  refine ((ordered_topologicalSort entries).1.preceded earlier entry later hsr name
    (hg.made.mem_dependencies hm hne) hne
    ((mem_keys_indexByName name).mpr (hcl entry he name hm))).resolve_right ?_
  exact fun hch => hsl (selectable_of_transGen h hown hsp hs hch)

end

/-- In a catalog of client documents, however their fragments spread each other, every entry comes
after the entries that its schema spreads at any depth, and so it is in what any filters leave of
the catalog, unless a type has the name of an entry of a fragment or an operation. -/
theorem spreadsFirst_documentCatalog {system : TypeSystem} {documents : Documents}
    {library : Option String} {overrides : List (String × String)} {registry : Registry}
    (hregistry : Registry.ofName library overrides = .ok registry) {result : Catalog}
    (hcatalog : catalog ⟨system, documents, registry⟩ = .ok result)
    (hown : OwnNames ⟨system, documents, registry⟩ result.entries) :
    SpreadsFirst result.entries ∧
      ∀ hooks : Hooks, SpreadsFirst (hooks.filterEntries result.entries) := by
  obtain ⟨⟨_, progress⟩, hrn, hr⟩ := of_bind_eq_ok hcatalog
  cases hr
  have hn := Registry.nameless_of_ofName hregistry
  have ht := ensures_traced_addAll hn _ _ _ (Traced.start _) hrn
  have hb := ht.built
  have hc : ∀ entry ∈ progress.entries, ∀ name ∈ entry.schema.mentions,
      name ∈ progress.entries.map (·.name) := by
    intro entry he name hnm
    exact ((closed_of_addAll hn hrn).mentioned entry he name hnm).resolve_right
      not_mem_nil
  have hf : SpreadsFirst (topologicalSort progress.entries) :=
    spreadsFirst_topologicalSort hb (fun entry he => hown entry
      (mem_topologicalSort_of_mem ht.distinct he)) hc
  refine ⟨hf, hf.filterEntries (nodup_names_topologicalSort _) fun entry he => ?_⟩
  obtain ⟨before, after, hs⟩ := append_of_mem (mem_of_mem_topologicalSort he)
  exact (hb.of_split hs).made

/-- Of the two fragments of the pets that spread each other, one is spread by the entry of the
other, and this comes after it. -/
theorem spreadsFirst_petCatalog : ∃ registry result, Registry.ofName none [] = .ok registry ∧
      catalog ⟨petSystem, petDocuments, registry⟩ = .ok result ∧
      result.entries.map (fun entry => (entry.name, entry.schema.spreads)) =
        [("Kind", []), ("Search", []), ("BFragment", []), ("AFragment", ["BFragment"]),
          ("FindQueryVariables", []), ("FindQuery", [])] ∧
      SpreadsFirst result.entries ∧
        ∀ hooks : Hooks, SpreadsFirst (hooks.filterEntries result.entries) := by
  have hc : catalog ⟨petSystem, petDocuments, none, Registry.defaults⟩ = .ok _ := rfl
  exact ⟨_, _, Registry.ofName_none, hc, by decide +kernel,
    spreadsFirst_documentCatalog Registry.ofName_none hc (by unfold OwnNames; decide +kernel)⟩

end GraphQL

end ApiSchema
