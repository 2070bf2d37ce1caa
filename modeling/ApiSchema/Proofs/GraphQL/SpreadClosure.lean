/-
# Dependencies between two closures

The dependencies of an entry lie between two closures. They hold nothing but names to which
references and spreads lead from the entry, and they hold all entries of fragments to which spreads
alone lead, through any entries and at any depth of their schemas.
-/
import ApiSchema.Proofs.GraphQL.SpreadOrder

namespace ApiSchema

open List Relation

variable {all entries before after : List Entry} {name other : String} {entry : Entry}

/-- Among some entries, one of the first name refers to the second name or spreads it, at some depth
of its schema. -/
def Points (entries : List Entry) (name other : String) : Prop :=
  ∃ entry ∈ entries, entry.name = name ∧ ∃ spread, entry.schema.Refers spread other

/-- Among some entries, one of the first name spreads the second name at some depth of its
schema. -/
def SpreadsAt (entries : List Entry) (name other : String) : Prop :=
  ∃ entry ∈ entries, entry.name = name ∧ entry.schema.Refers true other

namespace GraphQL

section

variable {setting : Setting}

/-- An entry spreads the entries of fragments that were there before it. -/
theorem Source.isFragmentName {schema : Schema} {category : Category}
    (h : Source setting before name schema category) (hs : schema.Refers true other) :
    IsFragmentName before other := by
  cases h with
  | enum _ hnn =>
    have hm := Schema.mem_mentions_iff.mpr ⟨true, hs⟩
    rw [hnn] at hm
    cases hm
  | input _ _ hf | operationVariables _ hf =>
    obtain ⟨part, hp, hmm⟩ := hs
    rw [Schema.Names, hf part hp] at hmm
    cases hmm
  | fragment _ hn | response _ hn =>
    refine (hn true other hs).resolve_right ?_
    rintro ⟨⟨⟩, -⟩

theorem Grounded.mem_dependencies (h : Grounded setting before entry)
    (hf : IsFragmentName before name) (hn : name ∈ entry.schema.mentions ∨
      ∃ other ∈ before, other.name ∈ entry.schema.mentions ∧ name ∈ other.dependencies) :
    name ∈ entry.dependencies := by
  refine (h.depends name).mpr ⟨hn, ?_⟩
  rintro rfl
  obtain ⟨fragment, hm, -, he⟩ := hf
  exact h.fresh (he ▸ mem_map_of_mem hm)

variable (h : Built (Grounded setting) entries)

include h

/-- References and spreads lead from an entry to all its dependencies. -/
theorem transGen_points_of_mem_dependencies (hs : entries ⊆ all) :
    ∀ entry ∈ entries, ∀ name ∈ entry.dependencies, TransGen (Points all) entry.name name := by
  induction h with
  | nil => exact forall_mem_nil _
  | @concat before last _ hl ih =>
    have hb := ih fun _ hmm => hs (mem_append_left _ hmm)
    refine forall_mem_concat hb fun name hn => ?_
    have hp : ∀ {other}, other ∈ last.schema.mentions → Points all last.name other :=
      fun ho => ⟨last, hs (mem_append_right _ (mem_singleton_self _)), rfl,
        Schema.mem_mentions_iff.mp ho⟩
    rcases ((hl.depends name).mp hn).1 with hm | ⟨other, ho, hm, hd⟩
    · exact .single (hp hm)
    · exact .head (hp hm) (hb other ho name hd)

/-- An entry depends on all entries to which a relation leads from it, if the relation leads to
entries of fragments only that are mentioned and were there before. -/
theorem mem_dependencies_of_chain {leads : String → String → Prop}
    (hst : ∀ {before after : List Entry} {entry : Entry} {other : String},
      entries = before ++ entry :: after → leads entry.name other →
        IsFragmentName before other ∧ other ∈ entry.schema.mentions)
    {first : String} (hc : TransGen leads first name) :
    ∀ {before after : List Entry} {entry : Entry}, entries = before ++ entry :: after →
      entry.name = first → IsFragmentName before name ∧ name ∈ entry.dependencies := by
  induction hc using TransGen.head_induction_on with
  | single hsp =>
    rintro before after entry hs rfl
    obtain ⟨hf, hm⟩ := hst hs hsp
    exact ⟨hf, (h.of_split hs).mem_dependencies hf (Or.inl hm)⟩
  | head hsp _ ih =>
    rintro before after entry hs rfl
    obtain ⟨⟨other, ho, -, rfl⟩, hm⟩ := hst hs hsp
    -- The spread entry was made even earlier, and the entry inherits what it depends on.
    obtain ⟨earlier, later, rfl⟩ := append_of_mem ho
    obtain ⟨⟨fragment, hmm, hr⟩, hd⟩ :=
      ih (by rw [hs, append_assoc, cons_append]) rfl
    have hf : IsFragmentName (earlier ++ other :: later) name :=
      ⟨fragment, mem_append_left _ hmm, hr⟩
    exact ⟨hf, (h.of_split hs).mem_dependencies hf
      (Or.inr ⟨other, ho, hm, hd⟩)⟩

/-- An entry depends on all entries to which spreads lead from it. They are entries of fragments
that were there before it. -/
theorem mem_dependencies_of_transGen (hsb : all ⊆ entries) {first : String}
    (hc : TransGen (SpreadsAt all) first name) (hs : entries = before ++ entry :: after)
    (hn : entry.name = first) : IsFragmentName before name ∧ name ∈ entry.dependencies := by
  refine mem_dependencies_of_chain h ?_ hc hs hn
  rintro before after entry other hs ⟨found, hf, hn, hsp⟩
  obtain rfl := eq_of_name_eq h (hsb hf)
    (hs ▸ mem_append_right _ (mem_cons_self ..)) hn
  exact ⟨(h.of_split hs).source.isFragmentName hsp,
    Schema.mem_mentions_iff.mpr ⟨true, hsp⟩⟩

end

/-- The dependencies of every entry of a catalog: the entry is not among them, all other names that
its schema mentions are, references and spreads lead to each of them, and every name to which
spreads lead from the entry, at any depth of the schemas on the way, is that of the entry of a
fragment and among them. -/
theorem dependencies_bounded_by_closures {system : TypeSystem} {documents : Documents}
    {library : Option String} {overrides : List (String × String)} {registry : Registry}
    (hregistry : Registry.ofName library overrides = .ok registry) {result : Catalog}
    (hcatalog : catalog ⟨system, documents, registry⟩ = .ok result) :
    ∀ entry ∈ result.entries,
      entry.name ∉ entry.dependencies ∧
      (∀ name ∈ entry.schema.dependencies, name ≠ entry.name → name ∈ entry.dependencies) ∧
      (∀ name ∈ entry.dependencies, TransGen (Points result.entries) entry.name name) ∧
      ∀ name, TransGen (SpreadsAt result.entries) entry.name name →
        IsFragmentName result.entries name ∧ name ∈ entry.dependencies := by
  obtain ⟨⟨_, progress⟩, hrn, hr⟩ := of_bind_eq_ok hcatalog
  cases hr
  have ht := ensures_traced_addAll (Registry.nameless_of_ofName hregistry) _ _ _
    (Traced.start _) hrn
  have hsr : progress.entries ⊆ topologicalSort progress.entries :=
    fun _ => mem_topologicalSort_of_mem ht.distinct
  intro entry he
  have hm := mem_of_mem_topologicalSort he
  obtain ⟨before, after, hs⟩ := append_of_mem hm
  have hg := ht.built.of_split hs
  refine ⟨fun hn => ((hg.depends _).mp hn).2 rfl, fun name hn => ?mentioned,
    transGen_points_of_mem_dependencies ht.built hsr entry hm,
    fun name hc => ?spread⟩
  case mentioned =>
    exact hg.made.mem_dependencies ((entry.schema.mem_dependencies _).mp hn)
  case spread =>
    obtain ⟨⟨fragment, hf, hrs⟩, hd⟩ := mem_dependencies_of_transGen
      ht.built (fun _ => mem_of_mem_topologicalSort) hc hs rfl
    refine ⟨⟨fragment, hsr ?_, hrs⟩, hd⟩
    rw [hs]
    exact mem_append_left _ hf

/-- Of the two fragments of the pets that spread each other, the entry of one depends on that of the
other, and not on itself. -/
theorem dependencies_petCatalog : ∃ registry result, Registry.ofName none [] = .ok registry ∧
    catalog ⟨petSystem, petDocuments, registry⟩ = .ok result ∧
    ∃ entry ∈ result.entries, entry.name = "AFragment" ∧ "BFragment" ∈ entry.dependencies ∧
      entry.name ∉ entry.dependencies := by
  have hc : catalog ⟨petSystem, petDocuments, none, Registry.defaults⟩ = .ok _ := rfl
  refine ⟨_, _, Registry.ofName_none, hc, ?_⟩
  generalize hr : Catalog.mk _ _ = result at hc ⊢
  obtain ⟨entry, he, hn, hsp⟩ : ∃ entry ∈ result.entries,
      entry.name = "AFragment" ∧ "BFragment" ∈ entry.schema.spreads := by
    subst hr
    decide +kernel
  obtain ⟨hsl, -, -, hs⟩ :=
    dependencies_bounded_by_closures Registry.ofName_none hc entry he
  exact ⟨entry, he, hn, (hs "BFragment" (.single ⟨entry, he, rfl, entry.schema,
    .whole, hsp⟩)).2, hsl⟩

end GraphQL

end ApiSchema
