/-
# Filters keep the dependency closure

A filter keeps the least set of names that has the names of the entries that pass its test and is
closed under the dependencies that are in the collection. The set can be found with a stack as well,
in whatever order the dependencies of an entry are put on it: such a search ends, and what it has
kept then is this set.
-/
import Mathlib.Data.Prod.Lex
import Mathlib.Order.Bounds.Basic
import ApiSchema.Proofs.Ensures
import ApiSchema.Proofs.Filter
import ApiSchema.Proofs.Remaining

namespace ApiSchema

open List

variable {names : Set String} {entry other : Entry} {others entries : List Entry} {filter : Filter}
  {state next : Search}

/-! ## The closure -/

/-- Whether a set of names has with each of its entries the dependencies that are in the
collection. -/
def DependencyClosed (entries : List Entry) (names : Set String) : Prop :=
  ∀ entry ∈ entries, entry.name ∈ names →
    ∀ dependency ∈ entry.dependencies, dependency ∈ entries.map (·.name) → dependency ∈ names

/-- The sets that a filter may keep: they have the names of the entries that pass and are closed
under dependencies. -/
def Filter.Suffices (filter : Filter) (entries : List Entry) (names : Set String) : Prop :=
  (∀ entry ∈ entries, filter.admits entry = true → entry.name ∈ names) ∧
    DependencyClosed entries names

namespace Filter

variable {entries : List Entry}

/-- All names kept after some rounds are in every set that has the first names and is closed under
dependencies. -/
theorem subset_of_closeKept (hc : DependencyClosed entries names)
    (fuel : ℕ) : ∀ kept : List String, (∀ name ∈ kept, name ∈ names) →
      ∀ name ∈ closeKept (indexByName entries) fuel kept, name ∈ names := by
  induction fuel with
  | zero => exact fun kept hk => hk
  | succ fuel ih =>
    intro kept hk
    rw [closeKept]
    split
    · exact hk
    · refine ih _ fun name hn => ?_
      rcases (mem_growKept kept name).mp hn with
        hn | ⟨⟨user, hu, entry, hg, hd⟩, hky⟩
      · exact hk name hn
      · obtain rfl : entry.name = user := name_of_get?_indexByName hg
        obtain ⟨before, after, he, -⟩ := (get?_indexByName_eq_some_iff entry).mp hg
        exact hc entry (by simp [he]) (hk _ hu) name hd
          ((mem_keys_indexByName name).mp hky)

/-- The names from which the kept ones grow stay. -/
theorem subset_closeKept (index : List (String × Entry)) (fuel : ℕ) :
    ∀ kept : List String, kept ⊆ closeKept index fuel kept := by
  induction fuel with
  | zero => exact fun kept => List.Subset.refl kept
  | succ fuel ih =>
    intro kept
    rw [closeKept]
    split
    · exact List.Subset.refl kept
    · exact fun name hn => ih _ ((mem_growKept kept name).mpr (Or.inl hn))

/-- The kept names are the least set that has the names of the entries that pass and is closed under
dependencies. -/
theorem isLeast_keptNames (filter : Filter) (hd : (entries.map (·.name)).Nodup) :
    IsLeast {names | filter.Suffices entries names} {name | name ∈ filter.keptNames entries} := by
  have hr : ∀ name, name ∈ unionNames [] ((entries.filter filter.admits).map (·.name)) ↔
      ∃ entry ∈ entries, filter.admits entry ∧ entry.name = name := by
    intro name
    simp [mem_unionNames, and_assoc]
  refine ⟨⟨fun entry he ha => ?_, fun entry he hk name hdp hn => ?_⟩, ?_⟩
  · exact subset_closeKept _ _ _ ((hr entry.name).mpr ⟨entry, he, ha, rfl⟩)
  · exact filter.mem_keptNames_of_mem_dependencies hd he hk hdp hn
  · rintro names ⟨hadm, hc⟩
    refine subset_of_closeKept hc _ _ fun name hn => ?_
    obtain ⟨entry, he, ha, rfl⟩ := (hr name).mp hn
    exact hadm entry he ha

theorem mem_apply_iff :
    entry ∈ filter.apply entries ↔ entry ∈ entries ∧ entry.name ∈ filter.keptNames entries := by
  simp [apply]

/-- The names of the entries that the filter leaves are those of the collection that are kept. -/
theorem mem_map_name_apply_iff {name : String} :
    name ∈ (filter.apply entries).map (·.name) ↔
      name ∈ entries.map (·.name) ∧ name ∈ filter.keptNames entries := by
  simp only [mem_map, mem_apply_iff]
  constructor
  · rintro ⟨entry, ⟨he, hk⟩, rfl⟩
    exact ⟨⟨entry, he, rfl⟩, hk⟩
  · rintro ⟨⟨entry, he, rfl⟩, hk⟩
    exact ⟨entry, ⟨he, hk⟩, rfl⟩

theorem nodup_map_name_apply (filter : Filter) (hd : (entries.map (·.name)).Nodup) :
    ((filter.apply entries).map (·.name)).Nodup :=
  hd.sublist (filter_sublist.map _)

/-- A filter leaves the entries that it has left. -/
theorem apply_apply (filter : Filter) (hd : (entries.map (·.name)).Nodup) :
    filter.apply (filter.apply entries) = filter.apply entries := by
  have hl := filter.isLeast_keptNames hd
  obtain ⟨ha', hc'⟩ :=
    (filter.isLeast_keptNames (filter.nodup_map_name_apply hd)).1
  -- The names that are kept both times suffice for the whole collection, so none gets lost.
  have hsf : filter.Suffices entries {name |
      name ∈ filter.keptNames entries ∧ name ∈ filter.keptNames (filter.apply entries)} := by
    constructor
    · intro entry he ha
      have hk : entry.name ∈ filter.keptNames entries := hl.1.1 entry he ha
      exact ⟨hk, ha' entry (filter.mem_apply_iff.mpr ⟨he, hk⟩) ha⟩
    · rintro entry he ⟨hk, hk'⟩ name hdp hn
      have hs : name ∈ filter.keptNames entries := hl.1.2 entry he hk name hdp hn
      exact ⟨hs, hc' entry (filter.mem_apply_iff.mpr ⟨he, hk⟩) hk' name hdp
        (filter.mem_map_name_apply_iff.mpr ⟨hn, hs⟩)⟩
  refine filter_eq_self.mpr fun entry he => ?_
  have hk := hl.2 hsf (filter.mem_apply_iff.mp he).2
  simpa using hk.2

end Filter

/-! ## Orders of dependencies -/

/-- Two entries that differ at most in how their dependencies are listed. -/
structure Entry.Relisted (entry other : Entry) : Prop where
  name : entry.name = other.name
  schema : entry.schema = other.schema
  category : entry.category = other.category
  dependencies : ∀ name, name ∈ entry.dependencies ↔ name ∈ other.dependencies

theorem map_name_of_relisted (h : List.Forall₂ Entry.Relisted entries others) :
    entries.map (·.name) = others.map (·.name) := by
  induction h with
  | nil => rfl
  | cons he _ ih => rw [map_cons, map_cons, he.name, ih]

namespace Filter

/-- What suffices for a collection suffices for it when the dependencies are listed otherwise. -/
theorem Suffices.of_relisted
    (h : filter.Suffices entries names) (hr : List.Forall₂ Entry.Relisted entries others) :
    filter.Suffices others names := by
  obtain ⟨ha, hc⟩ := h
  constructor
  · intro other ho hadm
    obtain ⟨entry, he, hs⟩ := exists_mem_of_forall₂ hr.flip ho
    rw [← hs.name]
    refine ha entry he ?_
    rwa [Filter.admits, hs.name, hs.category]
  · intro other ho hn dependency hd hm
    obtain ⟨entry, he, hs⟩ := exists_mem_of_forall₂ hr.flip ho
    rw [← hs.name] at hn
    rw [← map_name_of_relisted hr] at hm
    exact hc entry he hn dependency ((hs.dependencies dependency).mpr hd) hm

/-- A filter leaves the same entries however their dependencies are listed. -/
theorem relisted_apply (filter : Filter)
    (hd : (entries.map (·.name)).Nodup)
    (hr : List.Forall₂ Entry.Relisted entries others) :
    List.Forall₂ Entry.Relisted (filter.apply entries) (filter.apply others) := by
  have hd' : (others.map (·.name)).Nodup := map_name_of_relisted hr ▸ hd
  have hb : List.Forall₂ Entry.Relisted others entries :=
    hr.flip.imp fun _ _ h =>
      ⟨h.name.symm, h.schema.symm, h.category.symm, fun name => (h.dependencies name).symm⟩
  have hl := filter.isLeast_keptNames hd
  have hl' := filter.isLeast_keptNames hd'
  have hk : ∀ name, name ∈ filter.keptNames entries ↔ name ∈ filter.keptNames others :=
    fun name => ⟨fun h => hl.2 (hl'.1.of_relisted hb) h,
      fun h => hl'.2 (hl.1.of_relisted hr) h⟩
  rw [apply, apply]
  generalize filter.keptNames entries = kept at hk
  generalize filter.keptNames others = kept' at hk
  clear hd hd' hb hl hl'
  induction hr with
  | nil => exact .nil
  | @cons entry other rest rest' he _ ih =>
    have hs : kept.contains entry.name = kept'.contains other.name := by
      rw [he.name]
      simpa using hk other.name
    rw [filter_cons, filter_cons, hs]
    split
    · exact .cons he ih
    · exact ih

end Filter

/-! ## Sequences of filters -/

/-- Every dependency of an entry is in the collection. -/
def DependenciesPresent (entries : List Entry) : Prop :=
  ∀ entry ∈ entries, ∀ dependency ∈ entry.dependencies, dependency ∈ entries.map (·.name)

/-- A filter leaves no dependency out. -/
theorem Filter.dependenciesPresent_apply (filter : Filter)
    (hd : (entries.map (·.name)).Nodup) (h : DependenciesPresent entries) :
    DependenciesPresent (filter.apply entries) := by
  intro entry he dependency hdp
  obtain ⟨he, hk⟩ := filter.mem_apply_iff.mp he
  have hn := h entry he dependency hdp
  exact filter.mem_map_name_apply_iff.mpr
    ⟨hn, filter.mem_keptNames_of_mem_dependencies hd he hk hdp hn⟩

/-- A sequence of filters leaves no dependency out. -/
theorem Hooks.dependenciesPresent_filterEntries (hooks : Hooks)
    (hd : (entries.map (·.name)).Nodup) (h : DependenciesPresent entries) :
    DependenciesPresent (hooks.filterEntries entries) := by
  rw [Hooks.filterEntries]
  generalize hooks.filters = filters
  induction filters generalizing entries with
  | nil => exact h
  | cons filter rest ih =>
    exact ih (filter.nodup_map_name_apply hd)
      (filter.dependenciesPresent_apply hd h)

/-! ## Search with a stack -/

/-- The names that a search has kept, and those that it still has to look at. -/
structure Search where
  kept : List String
  stack : List String

namespace Search

/-- A step takes a name off the stack. A name that is kept or not in the collection is passed over;
any other one is kept, and its dependencies are put on the stack in some order. -/
inductive Step (entries : List Entry) : Search → Search → Prop
  | pass {kept stack : List String} {name : String}
      (h : name ∈ kept ∨ name ∉ entries.map (·.name)) :
      Step entries ⟨kept, name :: stack⟩ ⟨kept, stack⟩
  | keep {kept stack order : List String} {entry : Entry} (hentry : entry ∈ entries)
      (hnew : entry.name ∉ kept) (horder : ∀ name, name ∈ order ↔ name ∈ entry.dependencies) :
      Step entries ⟨kept, entry.name :: stack⟩ ⟨entry.name :: kept, order ++ stack⟩

/-- There is a step as long as there are names on the stack. -/
theorem exists_step (entries : List Entry) (h : state.stack ≠ []) :
    ∃ next, Step entries state next := by
  obtain ⟨kept, _ | ⟨name, stack⟩⟩ := state
  · exact absurd rfl h
  · by_cases hp : name ∈ kept ∨ name ∉ entries.map (·.name)
    · exact ⟨_, .pass hp⟩
    · rw [not_or, not_not] at hp
      obtain ⟨entry, he, rfl⟩ := mem_map.mp hp.2
      exact ⟨_, .keep he hp.1 fun _ => Iff.rfl⟩

/-- The measure of a search: the names of the collection that it has not kept, and then the names on
the stack. -/
def measure (entries : List Entry) (state : Search) : ℕ ×ₗ ℕ :=
  toLex ((remaining (entries.map (·.name)) state.kept).length, state.stack.length)

/-- A step makes the measure smaller: it keeps a name or it shortens the stack. -/
theorem Step.measure_lt
    (h : Step entries state next) : next.measure entries < state.measure entries := by
  cases h with
  | pass =>
    rw [measure, measure, Prod.Lex.toLex_lt_toLex]
    exact Or.inr ⟨rfl, Nat.lt_succ_self _⟩
  | keep he hn =>
    rw [measure, measure, Prod.Lex.toLex_lt_toLex]
    exact Or.inl (length_remaining_cons_lt (mem_map_of_mem he) hn)

theorem wellFounded_step :
    WellFounded fun next state => Step entries state next :=
  Subrelation.wf Step.measure_lt (InvImage.wf (measure entries) wellFounded_lt)

/-- What a search keeps to: with the names on the stack, the kept names have the first names and the
dependencies of the kept ones, and no name of the collection is among them that is not in every
sufficient set. -/
structure Invariant (filter : Filter) (entries : List Entry) (state : Search) : Prop where
  admitted : ∀ entry ∈ entries, filter.admits entry = true →
    entry.name ∈ state.kept ∨ entry.name ∈ state.stack
  closed : ∀ entry ∈ entries, entry.name ∈ state.kept → ∀ dependency ∈ entry.dependencies,
    dependency ∈ entries.map (·.name) → dependency ∈ state.kept ∨ dependency ∈ state.stack
  needed : ∀ names, filter.Suffices entries names → (∀ name ∈ state.kept, name ∈ names) ∧
      ∀ name ∈ state.stack, name ∈ entries.map (·.name) → name ∈ names

/-- A step keeps to the invariant. -/
theorem Step.invariant (hds : (entries.map (·.name)).Nodup) (h : Step entries state next)
    (hsta : Invariant filter entries state) : Invariant filter entries next := by
  obtain ⟨hadm, hc, hnd⟩ := hsta
  cases h with
  | @pass kept stack name hp =>
    -- Whatever stands for the name on the stack stands for it among the kept ones.
    have hst : ∀ other ∈ entries.map (·.name), other ∈ kept ∨ other ∈ name :: stack →
        other ∈ kept ∨ other ∈ stack := by
      rintro other ho (hk | hs)
      · exact Or.inl hk
      · rcases mem_cons.mp hs with rfl | hs
        · exact Or.inl (hp.resolve_right fun hab => hab ho)
        · exact Or.inr hs
    refine ⟨fun entry he ha => ?_, fun entry he hk dependency hd hm => ?_,
      fun names hn => ?_⟩
    · exact hst _ (mem_map_of_mem he) (hadm entry he ha)
    · exact hst _ hm (hc entry he hk dependency hd hm)
    · exact ⟨(hnd names hn).1, fun other ho =>
        (hnd names hn).2 other (mem_cons_of_mem _ ho)⟩
  | @keep kept stack order entry he hnw hor =>
    have hst : ∀ other, other ∈ kept ∨ other ∈ entry.name :: stack →
        other ∈ entry.name :: kept ∨ other ∈ order ++ stack := by
      rintro other (hk | hs)
      · exact Or.inl (mem_cons_of_mem _ hk)
      · rcases mem_cons.mp hs with rfl | hs
        · exact Or.inl (mem_cons_self ..)
        · exact Or.inr (mem_append_right _ hs)
    refine ⟨fun other ho ha => hst _ (hadm other ho ha),
      fun other ho hk dependency hd hm => ?_, fun names hn => ?_⟩
    · rcases mem_cons.mp hk with hnm | hk
      · obtain rfl := inj_on_of_nodup_map hds ho he hnm
        exact Or.inr (mem_append_left _ ((hor dependency).mpr hd))
      · exact hst _ (hc other ho hk dependency hd hm)
    · obtain ⟨hk, hs⟩ := hnd names hn
      have hnm : entry.name ∈ names :=
        hs _ (mem_cons_self ..) (mem_map_of_mem he)
      refine ⟨forall_mem_cons.mpr ⟨hnm, hk⟩, forall_mem_append.mpr ⟨?_, ?_⟩⟩
      · exact fun other ho hm =>
          hn.2 entry he hnm other ((hor other).mp ho) hm
      · exact (forall_mem_cons.mp hs).2

theorem Invariant.isLeast {kept : List String} (h : Invariant filter entries ⟨kept, []⟩) :
    IsLeast {names | filter.Suffices entries names} {name | name ∈ kept} := by
  refine ⟨⟨fun entry he ha => ?_, fun entry he hk dependency hd hm => ?_⟩,
    fun names hn => (h.needed names hn).1⟩
  · exact (h.admitted entry he ha).resolve_right not_mem_nil
  · exact (h.closed entry he hk dependency hd hm).resolve_right not_mem_nil

/-- A search from the entries that pass, in any order, keeps to the invariant. -/
theorem invariant_of_run
    (hd : (entries.map (·.name)).Nodup) {roots : List String}
    (hr : ∀ name, name ∈ roots ↔
      ∃ entry ∈ entries, filter.admits entry ∧ entry.name = name)
        (h : Relation.ReflTransGen (Step entries) ⟨[], roots⟩ state) :
    Invariant filter entries state := by
  induction h with
  | refl =>
    refine ⟨fun entry he ha => Or.inr ((hr _).mpr ⟨entry, he, ha, rfl⟩),
      nofun,
      fun names hn => ⟨nofun, ?_⟩⟩
    intro name hnm _
    obtain ⟨entry, he, ha, rfl⟩ := (hr name).mp hnm
    exact hn.1 entry he ha
  | tail _ hs ih => exact hs.invariant hd ih

end Search

/-- In a collection with distinct names, a filter leaves, in their order, the entries whose names
are in the least set that has the names of the entries that pass and is closed under the
dependencies that are in the collection. Every search with a stack ends and finds these entries. So
it does not matter how dependencies are listed, to apply the filter again changes nothing, and where
all dependencies are in the collection, they still are after any sequence of filters. -/
theorem filter_keeps_least_closure (filter : Filter) {entries : List Entry}
    (hdistinct : (entries.map (·.name)).Nodup) :
    (∃ kept : List String, IsLeast {names | filter.Suffices entries names} {name | name ∈ kept} ∧
        filter.apply entries = entries.filter fun entry => kept.contains entry.name) ∧
      (WellFounded (fun next state => Search.Step entries state next) ∧
        (∀ state : Search, state.stack ≠ [] → ∃ next, Search.Step entries state next) ∧
        ∀ roots kept : List String, (∀ name, name ∈ roots ↔
            ∃ entry ∈ entries, filter.admits entry = true ∧ entry.name = name) →
          Relation.ReflTransGen (Search.Step entries) ⟨[], roots⟩ ⟨kept, []⟩ →
            filter.apply entries = entries.filter fun entry => kept.contains entry.name) ∧
      (∀ others, List.Forall₂ Entry.Relisted entries others →
        List.Forall₂ Entry.Relisted (filter.apply entries) (filter.apply others)) ∧
      filter.apply (filter.apply entries) = filter.apply entries ∧
      ∀ hooks : Hooks, DependenciesPresent entries →
        DependenciesPresent (hooks.filterEntries entries) := by
  have hl := filter.isLeast_keptNames hdistinct
  refine ⟨⟨filter.keptNames entries, hl, rfl⟩,
    ⟨Search.wellFounded_step, fun _ => Search.exists_step entries, ?_⟩,
    fun others => filter.relisted_apply hdistinct, filter.apply_apply hdistinct,
    fun hooks => hooks.dependenciesPresent_filterEntries hdistinct⟩
  intro roots kept hr hrn
  have hf := (Search.invariant_of_run hdistinct hr hrn).isLeast
  refine filter_congr fun entry _ => ?_
  simpa using Set.ext_iff.mp (hl.unique hf) entry.name

/-- Entries that depend on each other in a ring, an entry that leads into it and one apart. -/
def linkedEntries : List Entry :=
  [⟨"Alone", .text, [], .component⟩, ⟨"Back", .text, ["Next", "Self"], .component⟩,
    ⟨"GetTop", .text, ["Next", "Back"], .response⟩, ⟨"Next", .text, ["Back"], .component⟩,
    ⟨"Self", .text, ["Self"], .fragment⟩]

/-- The filter that keeps responses and what they depend on. -/
def responseFilter : Filter := { categories := some [.response] }

/-- The filter for responses leaves the ring, whichever order the dependencies are in, and then a
second filter leaves no dependency out. -/
theorem linkedEntries_kept :
    (responseFilter.apply linkedEntries).map (·.name) = ["Back", "GetTop", "Next", "Self"] ∧
      List.Forall₂ Entry.Relisted (responseFilter.apply linkedEntries)
        (responseFilter.apply (linkedEntries.map fun entry =>
          { entry with dependencies := entry.dependencies.reverse })) ∧
      responseFilter.apply (responseFilter.apply linkedEntries) =
        responseFilter.apply linkedEntries ∧
      DependenciesPresent (Hooks.filterEntries
        { filters := [responseFilter, { excludeStart := "Get" }] } linkedEntries) := by
  obtain ⟨-, -, hr, ht, hp⟩ :=
    @filter_keeps_least_closure responseFilter linkedEntries (by decide +kernel)
  refine ⟨by decide +kernel, hr _ ?_, ht, hp _ ?_⟩
  · refine forall₂_map_right_iff.mpr (forall₂_same.mpr fun entry _ => ?_)
    exact ⟨rfl, rfl, rfl, fun name => mem_reverse.symm⟩
  · unfold DependenciesPresent
    decide +kernel

end ApiSchema
