/-
# Deferred references

When entries are sorted, an entry comes after the entries it depends on, except around cycles. So a
module defers a reference, or warns about it where it cannot be deferred, only if its name belongs
to no entry, to the entry itself, or to an entry from which dependencies lead back. All other
references are used at once, and what they name is declared before. Sorted entries without cycles
and without foreign references give a module in which nothing is deferred.
-/
import ApiSchema.Proofs.Expressible

namespace ApiSchema

open List

variable {entry : Entry} {name warning path : String} {spreadable declared : List String}
  {scope : Scope} {declaration : Declaration} {generated : Generated}
  {declarations : List Declaration} {entries : List Entry} {library : Library}

open Relation TypeScript

/-! ## References that have to wait -/

/-- What an entry refers to may have to wait: the name belongs to no entry, it is the name of the
entry itself, or dependencies lead from it back to the entry. -/
def LeadsBack (entries : List Entry) (entryName name : String) : Prop :=
  name ∉ entries.map (·.name) ∨ name = entryName ∨ TransGen (DependsOn entries) name entryName

/-- Among sorted entries, a dependency that is not declared before leads back. -/
theorem leadsBack_of_not_mem {before after : List Entry}
    (hsp : topologicalSort entries = before ++ entry :: after)
    (hn : name ∈ entry.dependencies ∨ name = entry.name) (hb : name ∉ before.map (·.name)) :
    LeadsBack entries entry.name name := by
  by_cases hs : name = entry.name
  · exact Or.inr (Or.inl hs)
  · by_cases hk : name ∈ entries.map (·.name)
    · obtain ⟨ho, -⟩ := ordered_topologicalSort entries
      have hp := ho.preceded before entry after hsp name
        (hn.resolve_right hs) hs ((mem_keys_indexByName name).mpr hk)
      have hd : ∀ first second, Leads (indexByName entries) first second →
          DependsOn entries first second := by
        intro first second hl
        obtain ⟨other, hot, hr⟩ := dependsOn_of_leads hl
        exact ⟨other, mem_of_mem_topologicalSort hot, hr⟩
      exact Or.inr (Or.inr (TransGen.mono hd _ _ (hp.resolve_left hb)))
    · exact Or.inl hk

theorem Entry.IsMade.mem_dependencies_or_eq (h : entry.IsMade)
    (hn : Schema.Part (.ref name) entry.schema) :
    name ∈ entry.dependencies ∨ name = entry.name := by
  by_cases hs : name = entry.name
  · exact Or.inr hs
  · exact Or.inl (h.mem_dependencies hn.ref_mem_mentions hs)

/-! ## Places in a module -/

/-- Each declaration stands for an entry, and its expression is written in the scope of the entries
before. -/
theorem exists_entry_of_declareAll :
    ∀ {declared : List String} {declarations earlier later : List Declaration}
      {declaration : Declaration},
      declareAll library spreadable declared entries = .ok declarations →
      declarations = earlier ++ declaration :: later →
        ∃ before entry after, entries = before ++ entry :: after ∧
          before.map (·.name) = earlier.map (·.name) ∧ entry.name = declaration.name ∧
            library.express ⟨spreadable, (before.map (·.name)).reverse ++ declared⟩ entry.schema =
              .ok declaration.expr := by
  induction entries with
  | nil =>
    intro declared declarations earlier later declaration h hs
    cases h
    exact absurd hs (by simp)
  | cons first rest ih =>
    intro declared declarations earlier later declaration h hs
    obtain ⟨expr, he, h⟩ := of_bind_eq_ok h
    obtain ⟨others, ho, h⟩ := of_bind_eq_ok h
    cases h
    cases earlier with
    | nil =>
      obtain ⟨rfl, -⟩ := List.cons.inj hs
      exact ⟨[], first, rest, rfl, rfl, rfl, he⟩
    | cons head earlier =>
      obtain ⟨rfl, hr⟩ := List.cons.inj hs
      obtain ⟨before, entry, after, rfl, hn, hnm, he⟩ := ih ho hr
      refine ⟨first :: before, entry, after, rfl, ?_, hnm, ?_⟩
      · rw [map_cons, map_cons, hn]
      · rwa [map_cons, reverse_cons, append_assoc]

/-- Each warning is about an entry, in the scope of the entries before. -/
theorem exists_entry_of_warnAll :
    ∀ {declared : List String}, warning ∈ warnAll library spreadable declared entries →
      ∃ before entry after, entries = before ++ entry :: after ∧ warning ∈ schemaWarnings library
          ⟨spreadable, (before.map (·.name)).reverse ++ declared⟩ entry.schema := by
  induction entries with
  | nil =>
    intro declared h
    cases h
  | cons first rest ih =>
    intro declared h
    rw [warnAll, mem_append] at h
    rcases h with h | h
    · exact ⟨[], first, rest, rfl, h⟩
    · obtain ⟨before, entry, after, rfl, hw⟩ := ih h
      refine ⟨first :: before, entry, after, rfl, ?_⟩
      rwa [map_cons, reverse_cons, append_assoc]

/-! ## Notices -/

/-- The schema that a notice is about. -/
def Notice.schema : Notice → Schema
  | unsupported kind => .unsupported kind
  | reference name => .ref name

namespace Schema

theorem noticesOfAll_eq_flatMap (keys : Bool) (schemas : List Schema) :
    noticesOfAll keys schemas = schemas.flatMap (notices keys) := by
  induction schemas with
  | nil => rfl
  | cons schema rest ih => rw [noticesOfAll, ih, flatMap_cons]

theorem noticesOfFields_eq_flatMap (keys : Bool) (fields : List (Field Schema)) :
    noticesOfFields keys fields = fields.flatMap (·.schema.notices keys) := by
  induction fields with
  | nil => rfl
  | cons field rest ih => rw [noticesOfFields, ih, flatMap_cons]

/-- A notice is about a part of the schema. -/
theorem part_of_mem_notices {keys : Bool} {notice : Notice} (schema : Schema)
    (h : notice ∈ schema.notices keys) : Part notice.schema schema := by
  induction schema using induction_children with
  | _ schema ih =>
  have hc : ∀ child ∈ schema.children, notice ∈ child.notices keys →
      Part notice.schema schema :=
    fun child hc hn => (ih child hc hn).trans (part_of_mem_children hc)
  cases schema with
  | object fields undeclared spreads =>
    rw [notices, mem_append, noticesOfFields_eq_flatMap, mem_flatMap] at h
    rcases h with ⟨field, hf, h⟩ | h
    · exact hc _ (mem_append_left _ (mem_map_of_mem hf)) h
    · cases undeclared with
      | checked inner => exact hc inner (mem_append_right _ (mem_singleton_self _)) h
      | _ => cases h
  | array items =>
    exact hc items (mem_singleton_self _) h
  | tuple members | union members | intersection members =>
    rw [notices, noticesOfAll_eq_flatMap] at h
    obtain ⟨member, hm, h⟩ := mem_flatMap.mp h
    exact hc member hm h
  | record key value =>
    rw [notices, mem_append] at h
    rcases h with h | h
    · split at h
      · exact hc key (mem_cons_self ..) h
      · cases h
    · exact hc value (mem_cons_of_mem _ (mem_singleton_self _)) h
  | ref name | unsupported kind =>
    rw [notices, mem_singleton] at h
    rw [h]
    exact .whole
  | _ => simp only [notices, not_mem_nil] at h

end Schema

variable {schema : Schema}

/-- A warning about a schema is about an unsupported part, or about a reference to an entry that is
not declared in a library that cannot defer it. -/
theorem exists_part_of_mem_schemaWarnings
    (h : warning ∈ schemaWarnings library scope schema) :
    (∃ kind, Schema.Part (.unsupported kind) schema ∧ warning = unsupportedWarning library kind) ∨
      library = .arktype ∧ ∃ name, Schema.Part (.ref name) schema ∧ name ∉ scope.declared ∧
        warning = forwardWarning name := by
  obtain ⟨notice, hn, hw⟩ := mem_filterMap.mp h
  have hp := Schema.part_of_mem_notices schema hn
  cases notice with
  | unsupported kind =>
    cases hw
    exact Or.inl ⟨kind, hp, rfl⟩
  | reference name =>
    rw [Notice.warning?] at hw
    split at hw
    · rename_i hf
      cases hw
      exact Or.inr ⟨hf.1, name, hp, by simpa [Scope.isForward] using hf.2, rfl⟩
    · cases hw

/-! ## Uses in a module -/

namespace Schema

/-- A schema uses later the bindings of the references whose entries are not declared. -/
theorem yields_true_iff : Yields declared path true schema ↔ ∃ name,
    Name.binding name = path ∧ Part (.ref name) schema ∧ name ∉ declared := by
  constructor
  · rintro ⟨part, hp, hu⟩
    cases part with
    | ref name => exact ⟨name, hu.1, hp, hu.2.mp rfl⟩
    | object fields undeclared spreads => cases hu.1
    | _ => exact absurd hu id
  · rintro ⟨name, hn, hp, hd⟩
    exact ⟨.ref name, hp, hn, by simp [hd]⟩

/-- A schema uses at once the bindings of the references whose entries are declared, and of the
entries that its parts spread. -/
theorem yields_false_iff : Yields declared path false schema ↔
      ∃ name, Name.binding name = path ∧ (Part (.ref name) schema ∧ name ∈ declared ∨
        ∃ part, Part part schema ∧ name ∈ part.spreads) := by
  constructor
  · rintro ⟨part, hp, hu⟩
    cases part with
    | ref name =>
      have hd : name ∈ declared := by simpa using hu.2
      exact ⟨name, hu.1, Or.inl ⟨hp, hd⟩⟩
    | object fields undeclared spreads =>
      obtain ⟨-, name, hs, hn⟩ := hu
      exact ⟨name, hn, Or.inr ⟨_, hp, hs⟩⟩
    | _ => exact absurd hu id
  · rintro ⟨name, hn, ⟨hp, hd⟩ | ⟨part, hp, hs⟩⟩
    · exact ⟨.ref name, hp, hn, by simp [hd]⟩
    · cases part with
      | object fields undeclared spreads => exact ⟨_, hp, rfl, name, hs, hn⟩
      | _ => cases hs

end Schema

/-- The declaration of an entry after some others: it uses later the bindings of the references to
entries that are not among these, and it uses at once the bindings of the other references and of
the entries that are spread. -/
structure DeclaredAfter (earlier : List String) (entry : Entry) (declaration : Declaration) :
    Prop where
  name : declaration.name = entry.name
  later : ∀ name, Expr.Uses (Name.binding name) true declaration.expr ↔
    ∃ other, Name.binding other = Name.binding name ∧ Schema.Part (.ref other) entry.schema ∧
      other ∉ earlier
  atOnce : ∀ name, Expr.Uses (Name.binding name) false declaration.expr ↔
    ∃ other, Name.binding other = Name.binding name ∧
      (Schema.Part (.ref other) entry.schema ∧ other ∈ earlier ∨
        ∃ part, Schema.Part part entry.schema ∧ other ∈ part.spreads)

/-- In a library that can defer references, the expression of a schema uses the bindings that the
schema uses. -/
theorem Library.writes_express (hl : library ≠ .arktype) (hr : schema.RawFree) {expr : Expr}
    (h : library.express scope schema = .ok expr) : Dialect.Writes scope schema expr := by
  cases library with
  | zod => exact Dialect.writes_express Zod.transparent false schema hr h
  | valibot => exact Dialect.writes_express Valibot.transparent false schema hr h
  | arktype => exact absurd rfl hl
  | effect => exact Dialect.writes_express Effect.transparent false schema hr h

/-- The declaration of an entry without code that is taken over as it stands. -/
theorem declaredAfter_of_express (hl : library ≠ .arktype) {earlier : List String}
    (hr : entry.schema.RawFree) (hn : entry.name = declaration.name)
    (h : library.express ⟨spreadable, earlier.reverse ++ []⟩ entry.schema = .ok declaration.expr) :
    DeclaredAfter earlier entry declaration := by
  have hw := Library.writes_express hl hr h
  refine ⟨hn.symm, fun name => ?_, fun name => ?_⟩
  · rw [hw name true, Schema.yields_true_iff]
    simp
  · rw [hw name false, Schema.yields_false_iff]
    simp

/-- What a module of sorted entries may defer and warn about: the references that lead back. In the
libraries that can defer references, all others are used at once, after their declaration. -/
structure DefersOnlyBack (entries : List Entry) (library : Library)
    (declarations : List Declaration) (warnings : List String) : Prop where
  declared : library ≠ .arktype → ∀ earlier declaration later,
    declarations = earlier ++ declaration :: later →
      ∃ entry ∈ entries, DeclaredAfter (earlier.map (·.name)) entry declaration ∧
        ∀ name, Schema.Part (.ref name) entry.schema → name ∉ earlier.map (·.name) →
          LeadsBack entries entry.name name
  warned : ∀ warning ∈ warnings, ∃ entry ∈ entries,
    (∃ kind, Schema.Part (.unsupported kind) entry.schema ∧
      warning = unsupportedWarning library kind) ∨
    library = .arktype ∧ ∃ name, Schema.Part (.ref name) entry.schema ∧
      LeadsBack entries entry.name name ∧ warning = forwardWarning name

/-- The module of sorted entries defers only references that lead back. -/
theorem defersOnlyBack_of_emitModule (hm : ∀ entry ∈ entries, entry.IsMade)
    (hr : ∀ entry ∈ entries, entry.schema.RawFree)
    (h : emitModule library (topologicalSort entries) = .ok generated)
    (hdc : Declares library (topologicalSort entries) generated declarations) :
    DefersOnlyBack entries library declarations generated.warnings := by
  obtain ⟨spreadable, hsp, h⟩ := of_bind_eq_ok h
  obtain ⟨written, hwr, h⟩ := of_bind_eq_ok h
  cases h
  obtain ⟨spreadable', hs', hd⟩ := of_bind_eq_ok hdc.declared
  -- A name that an entry refers to is one of its dependencies, or its own.
  have hb : ∀ before entry after, topologicalSort entries = before ++ entry :: after →
      entry ∈ entries ∧ ∀ name, Schema.Part (.ref name) entry.schema →
        name ∉ before.map (·.name) → LeadsBack entries entry.name name := by
    intro before entry after hs
    have he : entry ∈ entries := by
      apply mem_of_mem_topologicalSort
      rw [hs]
      exact mem_append_right _ (mem_cons_self ..)
    exact ⟨he, fun name hn =>
      leadsBack_of_not_mem hs ((hm entry he).mem_dependencies_or_eq hn)⟩
  constructor
  · intro hl earlier declaration later hs
    obtain ⟨before, entry, after, hen, hnm, hn, hex⟩ :=
      exists_entry_of_declareAll hd hs
    obtain ⟨he, hld⟩ := hb before entry after hen
    rw [hnm] at hex hld
    exact ⟨entry, he, declaredAfter_of_express hl (hr entry he) hn hex, hld⟩
  · intro warning hw
    obtain ⟨before, entry, after, hen, hw⟩ := exists_entry_of_warnAll hw
    obtain ⟨he, hld⟩ := hb before entry after hen
    refine ⟨entry, he, ?_⟩
    rcases exists_part_of_mem_schemaWarnings hw with
      hu | ⟨hl, name, hn, hd, hw⟩
    · exact Or.inl hu
    · have hbf : name ∉ before.map (·.name) := by simpa using hd
      exact Or.inr ⟨hl, name, hn, hld name hn hbf, hw⟩

/-! ## Entries without cycles -/

/-- Every reference is to another entry, and no dependencies lead in a circle. -/
structure Layered (entries : List Entry) : Prop where
  closed : ∀ entry ∈ entries, ∀ name, Schema.Part (.ref name) entry.schema →
    name ∈ entries.map (·.name)
  irreflexive : ∀ entry ∈ entries, ¬ Schema.Part (.ref entry.name) entry.schema
  acyclic : ∀ name, ¬ TransGen (DependsOn entries) name name

/-- Among such entries no reference leads back. -/
theorem Layered.not_leadsBack (h : Layered entries) (he : entry ∈ entries)
    (hm : entry.IsMade) (hn : Schema.Part (.ref name) entry.schema) :
    ¬ LeadsBack entries entry.name name := by
  have hs : name ≠ entry.name := by
    rintro rfl
    exact h.irreflexive entry he hn
  rintro (hf | heq | hc)
  · exact hf (h.closed entry he name hn)
  · exact hs heq
  · have hd : DependsOn entries entry.name name :=
      ⟨entry, he, rfl, hm.mem_dependencies hn.ref_mem_mentions hs⟩
    exact h.acyclic entry.name (TransGen.head hd hc)

/-- The module of a library that cannot defer references uses nothing later. -/
theorem not_uses_of_declares_arktype
    (h : Declares .arktype entries generated declarations)
    (ht : ∀ entry ∈ entries, entry.schema.WellTyped)
    (hm : declaration ∈ declarations) (name : String) :
    ¬ Expr.Uses (Name.binding name) true declaration.expr := by
  obtain ⟨spreadable, -, hd⟩ := of_bind_eq_ok h.declared
  obtain ⟨earlier, later, hs⟩ := append_of_mem hm
  obtain ⟨before, entry, after, he, -, -, hex⟩ :=
    exists_entry_of_declareAll hd hs
  have hen : entry ∈ entries := by
    rw [he]
    exact mem_append_right _ (mem_cons_self ..)
  exact (Arktype.fares_express (Expr.inherited_uses name)
    (Arktype.not_somewhere_own_uses (ht entry hen).rawFree)).of_eq_ok hex

/-- In the module of layered entries nothing is deferred, and there is nothing to warn about. -/
theorem DefersOnlyBack.not_uses_later
    (h : DefersOnlyBack entries library declarations generated.warnings)
    (hd : Declares library (topologicalSort entries) generated declarations)
    (hm : ∀ entry ∈ entries, entry.IsMade) (ht : ∀ entry ∈ entries, entry.schema.WellTyped)
    (hl : Layered entries) :
    generated.warnings = [] ∧ ∀ declaration ∈ declarations, ∀ name,
      ¬ Expr.Uses (Name.binding name) true declaration.expr := by
  constructor
  · rw [eq_nil_iff_forall_not_mem]
    intro warning hw
    obtain ⟨entry, he, ⟨kind, hk, -⟩ | ⟨-, name, hn, hb, -⟩⟩ :=
      h.warned warning hw
    · exact ht entry he _ hk
    · exact hl.not_leadsBack he (hm entry he) hn hb
  · intro declaration hmm name hu
    by_cases hlb : library = .arktype
    · subst hlb
      exact not_uses_of_declares_arktype hd
        (fun entry he => ht entry (mem_of_mem_topologicalSort he)) hmm _ hu
    · obtain ⟨earlier, later, hs⟩ := append_of_mem hmm
      obtain ⟨entry, he, ha, hb⟩ :=
        h.declared hlb earlier declaration later hs
      obtain ⟨other, -, ho, her⟩ := (ha.later name).mp hu
      exact hl.not_leadsBack he (hm entry he) ho (hb other ho her)

/-- A module of sorted entries uses at once only what is declared before or spread, and it defers
only references that lead back; a library that cannot defer references warns about no others. The
module of layered entries with well-typed schemas can be written in every library, defers nothing
and warns about nothing. -/
theorem emitModule_defers_only_back {entries : List Entry}
    (hmade : ∀ entry ∈ entries, entry.IsMade) (hraw : ∀ entry ∈ entries, entry.schema.RawFree) :
    (∀ library generated, emitModule library (topologicalSort entries) = .ok generated →
      ∃ declarations, Declares library (topologicalSort entries) generated declarations ∧
        DefersOnlyBack entries library declarations generated.warnings) ∧
    ((∀ entry ∈ entries, entry.schema.WellTyped) → Layered entries →
      ∀ library, ∃ generated declarations,
        emitModule library (topologicalSort entries) = .ok generated ∧
          Declares library (topologicalSort entries) generated declarations ∧
          generated.warnings = [] ∧ ∀ declaration ∈ declarations, ∀ name,
            ¬ Expr.Uses (Name.binding name) true declaration.expr) := by
  constructor
  · intro library generated h
    obtain ⟨declarations, hd⟩ := exists_declares_of_emitModule h
    exact ⟨declarations, hd, defersOnlyBack_of_emitModule hmade hraw h hd⟩
  · intro ht hl library
    obtain ⟨generated, h⟩ := exists_emitModule library (nodup_names_topologicalSort entries)
      fun entry he => ht entry (mem_of_mem_topologicalSort he)
    obtain ⟨declarations, hd⟩ := exists_declares_of_emitModule h
    have hdf := defersOnlyBack_of_emitModule hmade hraw h hd
    exact ⟨generated, declarations, h, hd,
      hdf.not_uses_later hd hmade ht hl⟩

/-- Entries that refer to each other in a circle, one of which also refers to itself and to a name
outside. -/
def ringEntries : List Entry :=
  [Entry.of "Owner" (.object [⟨.text "pets", .array (.ref "Pet"), true⟩] .dropped []) .component [],
    Entry.of "Pet" (.object [⟨.text "owner", (Schema.ref "Owner").nullable, false⟩,
      ⟨.text "parent", .ref "Pet", false⟩, ⟨.text "tag", .ref "Tag", true⟩] .dropped [])
      .component []]

/-- Entries that refer to each other without a circle, the first of which comes last. -/
def orderEntries : List Entry :=
  [Entry.of "Order" (.object [⟨.text "items", .array (.ref "Item"), true⟩,
      ⟨.text "buyer", (Schema.ref "Person").nullable, false⟩] .kept []) .component [],
    Entry.of "Item" (.record .text (.union [.ref "Person", .literal (.atom (.text "none"))]))
      .component [],
    Entry.of "Person" (.string (some .uuid)) .component []]

/-- The module of the circle defers only what leads back, and the one of the other entries defers
nothing, in every library. -/
theorem defersOnlyBack_ringEntries :
    (∃ generated declarations, emitModule .zod (topologicalSort ringEntries) = .ok generated ∧
      Declares .zod (topologicalSort ringEntries) generated declarations ∧
        DefersOnlyBack ringEntries .zod declarations generated.warnings) ∧
    ∀ library, ∃ generated declarations,
      emitModule library (topologicalSort orderEntries) = .ok generated ∧
        Declares library (topologicalSort orderEntries) generated declarations ∧
        generated.warnings = [] ∧ ∀ declaration ∈ declarations, ∀ name,
          ¬ Expr.Uses (Name.binding name) true declaration.expr := by
  have hl : ∀ {schema : Schema}, schema.isLeaf = true → schema.Admissible → schema.WellTyped :=
    fun hl ha => (Schema.wellTyped_iff_of_isLeaf hl).mpr ha
  have hrf : ∀ name, (Schema.ref name).WellTyped := fun _ => hl rfl trivial
  have hnl : Schema.null.WellTyped := hl rfl trivial
  have hr : ∀ entry ∈ ringEntries, entry.schema.WellTyped := by
    simp [ringEntries, Entry.of, Schema.nullable, Undeclared.schemas, hrf, hnl]
  have hor : ∀ entry ∈ orderEntries, entry.schema.WellTyped := by
    have ht : Schema.text.WellTyped := hl rfl trivial
    have hlt : (Schema.literal (.atom (.text "none"))).WellTyped := hl rfl rfl
    have hu : (Schema.string (some .uuid)).WellTyped := hl rfl rfl
    simp [orderEntries, Entry.of, Schema.nullable, Undeclared.schemas, Undeclared.kept, hrf, hnl,
      ht, hlt, hu]
  have hmadeRing : ∀ entry ∈ ringEntries, entry.IsMade := by
    simp only [ringEntries, forall_mem_cons]
    exact ⟨⟨[], rfl⟩, ⟨[], rfl⟩, forall_mem_nil _⟩
  have hmadeOrder : ∀ entry ∈ orderEntries, entry.IsMade := by
    simp only [orderEntries, forall_mem_cons]
    exact ⟨⟨[], rfl⟩, ⟨[], rfl⟩, ⟨[], rfl⟩, forall_mem_nil _⟩
  have hly : Layered orderEntries := by
    have ho : ∀ entry ∈ orderEntries, ∀ name ∈ entry.schema.mentions,
        name ∈ orderEntries.map (·.name) ∧ name ≠ entry.name := by
      decide +kernel
    refine ⟨fun entry he name hn => ?_, fun entry he hs => ?_, ?_⟩
    · exact (ho entry he name hn.ref_mem_mentions).1
    · exact (ho entry he _ hs.ref_mem_mentions).2 rfl
    · have hrn : ∀ entry ∈ orderEntries, ∀ name ∈ entry.dependencies,
          ["Person", "Item", "Order"].idxOf name <
            ["Person", "Item", "Order"].idxOf entry.name := by
        decide +kernel
      refine not_transGen_of_rank ["Person", "Item", "Order"].idxOf ?_
      rintro _ name ⟨entry, he, rfl, hn⟩
      exact hrn entry he name hn
  obtain ⟨generated, hg⟩ := exists_emitModule .zod (nodup_names_topologicalSort ringEntries)
    fun entry he => hr entry (mem_of_mem_topologicalSort he)
  obtain ⟨declarations, hd⟩ :=
    (emitModule_defers_only_back hmadeRing fun entry he => (hr entry he).rawFree).1
      .zod generated hg
  exact ⟨⟨generated, declarations, hg, hd⟩,
    (emitModule_defers_only_back hmadeOrder fun entry he => (hor entry he).rawFree).2
      hor hly⟩

end ApiSchema
