/-
# Modules of filtered entries

What a module says about an entry depends on the other entries in two ways only: on which of the
names it mentions are bound before it, and on which of them are spreadable. A filter keeps with an
entry everything it mentions, so what is said about the entries that it keeps stays the same.
-/
import ApiSchema.Generation
import ApiSchema.Proofs.Filter
import ApiSchema.Proofs.Spreadable
import ApiSchema.Proofs.Uses

namespace ApiSchema

open List

variable {name : String} {spreadable kept spreadable' : List String}
  {declarations : List Declaration} {library : Library} {entries : List Entry}

open TypeScript

/-! ## Scopes -/

/-- Two scopes say the same about some names. -/
structure Scope.AgreeOn (scope other : Scope) (names : List String) : Prop where
  spreadable : ∀ name ∈ names, (name ∈ scope.spreadable ↔ name ∈ other.spreadable)
  declared : ∀ name ∈ names, (name ∈ scope.declared ↔ name ∈ other.declared)

theorem Scope.AgreeOn.mono {scope other : Scope} {names fewer : List String}
    (h : scope.AgreeOn other names) (hs : fewer ⊆ names) : scope.AgreeOn other fewer :=
  ⟨fun name hn => h.spreadable name (hs hn), fun name hn => h.declared name (hs hn)⟩

/-! ## Expressions -/

namespace Dialect

variable {scope other : Scope}

theorem reference_of_agreeOn (d : Dialect) (h : scope.AgreeOn other [name]) :
    d.reference scope name = d.reference other name := by
  have hc : scope.declared.contains name = other.declared.contains name := by
    rw [Bool.eq_iff_iff, contains_iff_mem, contains_iff_mem]
    exact h.declared name (mem_singleton_self name)
  rw [reference, reference, Scope.isForward, Scope.isForward, hc]

/-- An object depends on which of the entries that it spreads are spreadable. -/
theorem assemble_of_agreeOn (d : Dialect) {spreads : List String} (h : scope.AgreeOn other spreads)
    (fields : List (String × Expr)) (undeclared : Undeclared Expr) :
    d.assemble scope spreads fields undeclared = d.assemble other spreads fields undeclared := by
  have hc : ∀ name ∈ spreads,
      scope.spreadable.contains name = other.spreadable.contains name := by
    intro name hn
    rw [Bool.eq_iff_iff, contains_iff_mem, contains_iff_mem]
    exact h.spreadable name hn
  have hp : spreads.filter scope.spreadable.contains =
      spreads.filter other.spreadable.contains :=
    filter_congr hc
  have ho : spreads.filter (!scope.spreadable.contains ·) =
      spreads.filter (!other.spreadable.contains ·) :=
    filter_congr fun name hn => congrArg not (hc name hn)
  rw [assemble, assemble, hp, ho]

/-- The expression of a schema depends on what the scope says about the names it mentions. -/
theorem express_of_agreeOn (d : Dialect) (bare : Bool) (schema : Schema)
    (h : scope.AgreeOn other schema.mentions) :
    d.express scope bare schema = d.express other bare schema := by
  induction schema using Schema.induction_children generalizing bare with
  | _ schema ih =>
    have hc : ∀ child ∈ schema.children, ∀ bare,
        d.express scope bare child = d.express other bare child := fun child hc bare =>
      ih child hc bare (h.mono (Schema.part_of_mem_children hc).mentions_subset)
    have hal : d.expressAll scope schema.children = d.expressAll other schema.children := by
      rw [expressAll_eq_mapM, expressAll_eq_mapM]
      exact mapM_congr_of_mem fun child hm => hc child hm false
    cases schema with
    | object fields undeclared spreads =>
      have hf : d.expressFields scope fields = d.expressFields other fields := by
        rw [expressFields_eq_mapM, expressFields_eq_mapM]
        refine mapM_congr_of_mem fun field hfl => ?_
        have hv := hc field.schema (mem_append_left _ (mem_map_of_mem hfl))
        obtain ⟨key, schema, required⟩ := field
        cases key <;> simp only [expressField, hv]
      have hu : d.expressUndeclared scope undeclared =
          d.expressUndeclared other undeclared := by
        cases undeclared with
        | checked inner =>
          rw [expressUndeclared, expressUndeclared,
            hc inner (mem_append_right _ (mem_singleton_self _))]
        | _ => rw [expressUndeclared, expressUndeclared]
      -- An object mentions its spreads too.
      have ha := assemble_of_agreeOn d (h.mono (subset_append_right _ _))
      simp only [express, hf, hu, ha]
    | array items => rw [express, express, hc items (mem_singleton_self _)]
    | record key value =>
      rw [express, express, hc key (mem_cons_self ..),
        hc value (mem_cons_of_mem _ (mem_singleton_self _))]
    | tuple members | union members | intersection members =>
      rw [Schema.children] at hal
      rw [express, express, hal]
    | ref name =>
      rw [express, express, reference_of_agreeOn d h]
    | _ => rw [express, express]

end Dialect

/-- The expression of a schema in any library depends on what the scope says about the names that
the schema mentions. -/
theorem Library.express_of_agreeOn (library : Library) {scope other : Scope} {schema : Schema}
    (h : scope.AgreeOn other schema.mentions) :
    library.express scope schema = library.express other schema := by
  cases library with
  | zod => exact Zod.dialect.express_of_agreeOn false schema h
  | valibot => exact Valibot.dialect.express_of_agreeOn false schema h
  | arktype => rfl
  | effect => exact Effect.dialect.express_of_agreeOn false schema h

/-! ## Declarations -/

/-- The declarations in the module of a list of entries. -/
def declarationsOf (library : Library) (entries : List Entry) :
    Except EmitError (List Declaration) := do
  let spreadable ← spreadableNames entries
  declareAll library spreadable [] entries

/-- What a module says about the entry of a name: its binding, the expression that is bound, and the
export of its type. -/
def rowOf? (library : Library) (declarations : List Declaration) (name : String) :
    Option (List (String × String)) :=
  (declarations.find? (·.name == name)).map (·.row library)

/-- There is one declaration for each entry, in the same order. -/
theorem map_name_declareAll : ∀ {declared : List String} {declarations : List Declaration},
      declareAll library spreadable declared entries = .ok declarations →
        declarations.map (·.name) = entries.map (·.name) := by
  induction entries with
  | nil =>
    intro declared declarations h
    cases h
    rfl
  | cons entry rest ih =>
    intro declared declarations h
    obtain ⟨expr, -, h⟩ := of_bind_eq_ok h
    obtain ⟨others, ho, h⟩ := of_bind_eq_ok h
    cases h
    rw [map_cons, map_cons, ih ho]

/-- The module of some entries is the text of the declarations, one for each entry. -/
structure Declares (library : Library) (entries : List Entry) (generated : Generated)
    (declarations : List Declaration) : Prop where
  declared : declarationsOf library entries = .ok declarations
  names : declarations.map (·.name) = entries.map (·.name)
  content : generated.content = moduleText library declarations

/-- A module is the text of the declarations of its entries. -/
theorem exists_declares_of_emitModule {generated : Generated}
    (h : emitModule library entries = .ok generated) :
    ∃ declarations, Declares library entries generated declarations := by
  obtain ⟨spreadable, hs, h⟩ := of_bind_eq_ok h
  obtain ⟨declarations, hd, h⟩ := of_bind_eq_ok h
  cases h
  refine ⟨declarations, ?_, map_name_declareAll hd, rfl⟩
  rw [declarationsOf, hs]
  exact hd

/-! ## Dropped entries -/

/-- The name of an entry that is not kept. -/
def Dropped (entries : List Entry) (kept : List String) (name : String) : Prop :=
  name ∈ entries.map (·.name) ∧ name ∉ kept

/-- No entry that is kept mentions a dropped one. -/
def SelfContained (entries : List Entry) (kept : List String) : Prop :=
  ∀ entry ∈ entries, entry.name ∈ kept → ∀ name ∈ entry.schema.mentions, ¬Dropped entries kept name

section

variable (hkeep : SelfContained entries kept)
include hkeep

/-- Leaving out the dropped entries leaves the other declarations as they are, if the same other
names are spreadable. -/
theorem declareAll_filter
    (hs : ∀ name, ¬Dropped entries kept name → (name ∈ spreadable ↔ name ∈ spreadable')) :
    ∀ (rest : List Entry) {declared declared' : List String} {declarations : List Declaration},
      rest ⊆ entries →
      (∀ name, ¬Dropped entries kept name → (name ∈ declared ↔ name ∈ declared')) →
      declareAll library spreadable declared rest = .ok declarations →
        declareAll library spreadable' declared'
            (rest.filter fun entry => kept.contains entry.name) =
          .ok (declarations.filter fun declaration => kept.contains declaration.name) := by
  intro rest
  induction rest with
  | nil =>
    intro declared declared' declarations _ _ h
    cases h
    rfl
  | cons entry rest ih =>
    intro declared declared' declarations hsb hd h
    obtain ⟨expr, hex, h⟩ := of_bind_eq_ok h
    obtain ⟨others, ho, h⟩ := of_bind_eq_ok h
    cases h
    have he : entry ∈ entries := hsb (mem_cons_self ..)
    have hr : rest ⊆ entries := fun other hot => hsb (mem_cons_of_mem _ hot)
    by_cases hk : entry.name ∈ kept
    · -- The scopes differ in dropped names only, and the entry mentions none of these.
      have ha : Scope.AgreeOn ⟨spreadable, declared⟩ ⟨spreadable', declared'⟩
          entry.schema.mentions :=
        ⟨fun name hn => hs name (hkeep entry he hk name hn),
          fun name hn => hd name (hkeep entry he hk name hn)⟩
      have hd' : ∀ name, ¬Dropped entries kept name →
          (name ∈ entry.name :: declared ↔ name ∈ entry.name :: declared') := by
        intro name hn
        rw [mem_cons, mem_cons, hd name hn]
      rw [filter_cons_of_pos (by simpa using hk),
        filter_cons_of_pos (by simpa using hk), declareAll,
        ← library.express_of_agreeOn ha, hex, ih hr hd' ho]
      rfl
    · -- The entry is dropped, so that its name is not among those on which the lists agree.
      have hd' : ∀ name, ¬Dropped entries kept name →
          (name ∈ entry.name :: declared ↔ name ∈ declared') := by
        intro name hn
        have hne : name ≠ entry.name := by
          rintro rfl
          exact hn ⟨mem_map_of_mem he, hk⟩
        rw [mem_cons, or_iff_right hne, hd name hn]
      rw [filter_cons_of_neg (by simpa using hk), filter_cons_of_neg (by simpa using hk)]
      exact ih hr hd' ho

/-- Names that are not dropped are spreadable with the dropped entries exactly if they are without
them. -/
theorem mem_spreadable_iff_of_not_dropped (hs : spreadableNames entries = .ok spreadable)
    (hs' : spreadableNames (entries.filter fun entry => kept.contains entry.name) =
      .ok spreadable') (hnm : ¬Dropped entries kept name) :
    name ∈ spreadable ↔ name ∈ spreadable' := by
  by_cases hk : name ∈ kept
  · refine mem_spreadableNames_filter_iff ?_ hs hs' hk
    intro entry he hentryKept spread hsp hm
    have hd := hkeep entry he hentryKept spread
      (entry.schema.spreads_subset_mentions hsp)
    exact not_not.mp fun hnt => hd ⟨hm, hnt⟩
  · -- A name without an entry is spreadable in neither list.
    have hm : name ∉ entries.map (·.name) := fun hm => hnm ⟨hm, hk⟩
    constructor
    · intro hn
      obtain ⟨entry, he, -, rfl⟩ := (mem_objectNames name).mp
        ((greatestConsistent_spreadableNames hs).within hn)
      exact absurd (mem_map_of_mem he) hm
    · intro hn
      obtain ⟨entry, he, -, rfl⟩ := (mem_objectNames name).mp
        ((greatestConsistent_spreadableNames hs').within hn)
      exact absurd (mem_map_of_mem (mem_of_mem_filter he)) hm

/-- The declarations of the entries that are kept are those of all entries, without the dropped
ones. -/
theorem declarationsOf_filter
    {declarations' : List Declaration}
    (hw : declarationsOf library entries = .ok declarations)
    (hp : declarationsOf library (entries.filter fun entry => kept.contains entry.name) =
      .ok declarations') :
    declarations' = declarations.filter fun declaration => kept.contains declaration.name := by
  obtain ⟨spreadable, hs, hd⟩ := of_bind_eq_ok hw
  obtain ⟨spreadable', hs', hd'⟩ := of_bind_eq_ok hp
  have ha : ∀ name, ¬Dropped entries kept name → (name ∈ spreadable ↔ name ∈ spreadable') :=
    fun name hn => mem_spreadable_iff_of_not_dropped hkeep hs hs' hn
  have hf := declareAll_filter hkeep ha entries (List.Subset.refl _)
    (fun name _ => Iff.rfl) hd
  exact Except.ok.inj (hd'.symm.trans hf)

end

/-- Leaving out declarations does not change what is said about a name that stays. -/
theorem rowOf?_filter
    (hk : name ∈ kept) :
    rowOf? library (declarations.filter fun declaration => kept.contains declaration.name) name =
      rowOf? library declarations name := by
  have ht : (fun declaration : Declaration =>
      decide (kept.contains declaration.name ∧ (declaration.name == name))) =
        fun declaration => declaration.name == name := by
    funext declaration
    by_cases hn : declaration.name = name
    · simp [hn, hk]
    · simp [hn]
  rw [rowOf?, rowOf?, find?_filter, ht]

/-- Something is said about every name that has a declaration. -/
theorem exists_rowOf?_eq_some (h : name ∈ declarations.map (·.name)) : ∃ row,
    rowOf? library declarations name = some row := by
  obtain ⟨declaration, hm, rfl⟩ := mem_map.mp h
  have hfn : (declarations.find? (·.name == declaration.name)).isSome :=
    find?_isSome.mpr ⟨declaration, hm, by simp⟩
  obtain ⟨found, hf⟩ := Option.isSome_iff_exists.mp hfn
  exact ⟨found.row library, by rw [rowOf?, hf, Option.map_some]⟩

/-! ## Filtered modules -/

/-- If the dependencies of the entries cover their schemas, a filter keeps a part of them in which
nothing dropped is mentioned. -/
theorem selfContained_keptNames (filter : Filter) (hds : (entries.map (·.name)).Nodup)
    (hdp : ∀ entry ∈ entries, ∀ name ∈ entry.schema.dependencies, name ≠ entry.name →
      name ∈ entry.dependencies) : SelfContained entries (filter.keptNames entries) := by
  rintro entry he hk name hn ⟨hm, hd⟩
  -- Its own name is the only one that an entry may mention without depending on it.
  by_cases hs : name = entry.name
  · rw [hs] at hd
    exact hd hk
  · have hde : name ∈ entry.dependencies :=
      hdp entry he name ((entry.schema.mem_dependencies name).mpr hn) hs
    exact hd
      (filter.mem_keptNames_of_mem_dependencies hds he hk hde hm)

/-- Whatever the filter and the library are: for entries with distinct names whose dependencies
cover their schemas, the module of the entries that the filter keeps says about each of them exactly
what the module of all entries says. -/
theorem rows_eq_of_filter {library : Library} {entries : List Entry} (filter : Filter)
    (hdistinct : (entries.map (·.name)).Nodup)
    (hdependencies : ∀ entry ∈ entries, ∀ name ∈ entry.schema.dependencies, name ≠ entry.name →
      name ∈ entry.dependencies)
    {whole part : Generated} (hwhole : emitModule library entries = .ok whole)
    (hpart : emitModule library (filter.apply entries) = .ok part) :
    ∃ declarations declarations', Declares library entries whole declarations ∧
      Declares library (filter.apply entries) part declarations' ∧
      ∀ entry ∈ filter.apply entries, ∃ row, rowOf? library declarations entry.name = some row ∧
          rowOf? library declarations' entry.name = some row := by
  obtain ⟨declarations, hd⟩ := exists_declares_of_emitModule hwhole
  obtain ⟨declarations', hd'⟩ := exists_declares_of_emitModule hpart
  refine ⟨declarations, declarations', hd, hd', ?_⟩
  intro entry he
  obtain ⟨he, hk⟩ := mem_filter.mp he
  have hn : entry.name ∈ declarations.map (·.name) := by
    rw [hd.names]
    exact mem_map_of_mem he
  have hs : ∃ row, rowOf? library declarations entry.name = some row :=
    exists_rowOf?_eq_some hn
  obtain ⟨row, hr⟩ := hs
  refine ⟨row, hr, ?_⟩
  have hkeep := selfContained_keptNames filter hdistinct hdependencies
  rw [declarationsOf_filter hkeep hd.declared hd'.declared,
    rowOf?_filter (by simpa using hk)]
  exact hr

/-! ## Objects that are spread -/

/-- Entries that spread each other. `Unused` spreads an entry and is mentioned by none; `Mixed`
spreads an entry that is no object; `Node` refers to itself and is referred to before its place. -/
def shapeEntries : List Entry :=
  [Entry.of "Base" (.object [⟨.text "node", .ref "Node", true⟩] .dropped []) .fragment [],
    Entry.of "Choice" (.union [.text, .ref "Base"]) .fragment [],
    Entry.of "Unused" (.object [⟨.text "base", .ref "Base", false⟩] .dropped ["Base"]) .response [],
    Entry.of "Mixed" (.object [] .dropped ["Base", "Choice"]) .fragment [],
    Entry.of "Node" (.object [⟨.text "next", .ref "Node", false⟩] .dropped []) .component [],
    Entry.of "Top" (.object [⟨.text "node", .ref "Node", true⟩] .kept ["Mixed", "Base"])
      .response []]

/-- The filter that keeps `Top` and what it depends on. -/
def topFilter : Filter := { includeStart := "Top" }

/-- Without `Unused`, the module says the same about the five other entries. -/
theorem rows_eq_of_topFilter :
    (topFilter.apply shapeEntries).map (·.name) = ["Base", "Choice", "Mixed", "Node", "Top"] ∧
      ∃ whole part, emitModule .zod shapeEntries = .ok whole ∧
        emitModule .zod (topFilter.apply shapeEntries) = .ok part ∧
        ∃ declarations declarations', Declares .zod shapeEntries whole declarations ∧
          Declares .zod (topFilter.apply shapeEntries) part declarations' ∧
          ∀ entry ∈ topFilter.apply shapeEntries, ∃ row,
            rowOf? .zod declarations entry.name = some row ∧
              rowOf? .zod declarations' entry.name = some row := by
  obtain ⟨whole, hw⟩ := exists_ok_of_isOk
    (by decide +kernel : (emitModule .zod shapeEntries).isOk = true)
  obtain ⟨part, hp⟩ := exists_ok_of_isOk
    (by decide +kernel : (emitModule .zod (topFilter.apply shapeEntries)).isOk = true)
  exact ⟨by decide +kernel, whole, part, hw, hp, rows_eq_of_filter topFilter
    (by decide +kernel) (by decide +kernel) hw hp⟩

end ApiSchema
