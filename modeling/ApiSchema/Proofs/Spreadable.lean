/-
# Spreadable entries

A list of names is consistent if every entry with one of the names is an object that spreads only
entries with names of the list. The spreadable names are the greatest consistent list of names of
objects. So they do not depend on entries that are not spread: in a part of the entries that is
closed under spreading, the same names are spreadable.
-/
import ApiSchema.Validator.Scope

namespace ApiSchema

open List

variable {entries : List Entry} {names next : List String}

/-! ## Consistent names -/

/-- Every entry with one of the names is an object that spreads only entries with such names. -/
def Consistent (entries : List Entry) (names : List String) : Prop :=
  ∀ entry ∈ entries, entry.name ∈ names →
    entry.schema.isObject = true ∧ entry.schema.spreads ⊆ names

/-! ## Passes -/

/-- What a pass does with the first entry: it is passed over, it stays, or its name is dropped. -/
theorem spreadPass_cons_cases {entry : Entry} {rest : List Entry}
    (h : spreadPass (entry :: rest) names = .ok next) :
    (entry.name ∉ names ∧ spreadPass rest names = .ok next) ∨
      (entry.name ∈ names ∧ entry.schema.isObject ∧
        (entry.schema.spreads ⊆ names ∧ spreadPass rest names = .ok next ∨
          ¬entry.schema.spreads ⊆ names ∧
            spreadPass rest (names.filter (· != entry.name)) = .ok next)) := by
  rw [spreadPass] at h
  split at h
  · rename_i hn
    refine Or.inr ⟨by simpa using hn, ?_⟩
    split at h
    · rename_i fields undeclared spreads hsc
      rw [hsc]
      have ha : spreads.all names.contains ↔ spreads ⊆ names := by
        simp [subset_def]
      refine ⟨rfl, ?_⟩
      split at h
      · rename_i hs
        exact Or.inl ⟨ha.mp hs, h⟩
      · rename_i hs
        exact Or.inr ⟨fun hsb => hs (ha.mpr hsb), h⟩
    · cases h
  · rename_i hn
    exact Or.inl ⟨by simpa using hn, h⟩

/-- A pass only drops names. -/
theorem sublist_of_spreadPass :
    ∀ {names : List String}, spreadPass entries names = .ok next → next.Sublist names := by
  induction entries with
  | nil =>
    intro names h
    cases h
    exact List.Sublist.refl _
  | cons entry rest ih =>
    intro names h
    rcases spreadPass_cons_cases h with ⟨-, h⟩ | ⟨-, -, ⟨-, h⟩ | ⟨-, h⟩⟩
    · exact ih h
    · exact ih h
    · exact (ih h).trans filter_sublist

/-- If a pass drops nothing, the names are consistent. -/
theorem consistent_of_length_spreadPass : ∀ {names : List String}, spreadPass entries names =
    .ok next → next.length = names.length → Consistent entries names := by
  induction entries with
  | nil =>
    intro names _ _ entry he
    cases he
  | cons first rest ih =>
    intro names h hl entry he hn
    rcases spreadPass_cons_cases h with ⟨hf, h⟩ | ⟨hf, ho, ⟨hs, h⟩ | ⟨-, h⟩⟩
    · rcases mem_cons.mp he with rfl | he
      · exact absurd hn hf
      · exact ih h hl entry he hn
    · rcases mem_cons.mp he with rfl | he
      · exact ⟨ho, hs⟩
      · exact ih h hl entry he hn
    · -- The name of the first entry is dropped, so fewer names are left.
      have hle : next.length ≤ (names.filter (· != first.name)).length :=
        (sublist_of_spreadPass h).length_le
      have hlt : (names.filter (· != first.name)).length < names.length :=
        length_filter_lt_length_iff_exists.mpr ⟨first.name, hf, by simp⟩
      omega

/-- A pass drops no name of a consistent list. -/
theorem subset_of_spreadPass {consistent : List String} :
    ∀ {names : List String}, spreadPass entries names = .ok next →
      Consistent entries consistent → consistent ⊆ names → consistent ⊆ next := by
  induction entries with
  | nil =>
    intro names h _ hs
    cases h
    exact hs
  | cons first rest ih =>
    intro names h hc hs
    have hr : Consistent rest consistent := fun entry he => hc entry (mem_cons_of_mem _ he)
    rcases spreadPass_cons_cases h with ⟨-, h⟩ | ⟨-, -, ⟨-, h⟩ | ⟨hsp, h⟩⟩
    · exact ih h hr hs
    · exact ih h hr hs
    · -- The name that is dropped is not in the list: its entry spreads too much.
      refine ih h hr fun name hn => mem_filter.mpr ⟨hs hn, ?_⟩
      have hne : name ≠ first.name := by
        rintro rfl
        have hf := (hc first (mem_cons_self ..) hn).2
        exact hsp fun spread hspr => hs (hf hspr)
      simpa using hne

/-! ## The greatest consistent names -/

/-- The names are consistent, within a bound, and all consistent names within the bound are among
them. -/
structure GreatestConsistent (entries : List Entry) (bound names : List String) : Prop where
  within : names ⊆ bound
  consistent : Consistent entries names
  greatest : ∀ {others : List String}, Consistent entries others → others ⊆ bound → others ⊆ names

/-- If there are more passes than names, what is left in the end is consistent and greatest. -/
theorem greatestConsistent_spreadFixpoint {result : List String} (fuel : Nat) :
    ∀ {names : List String}, names.length < fuel → spreadFixpoint entries fuel names = .ok result →
        GreatestConsistent entries names result := by
  induction fuel with
  | zero =>
    intro names hf _
    omega
  | succ fuel ih =>
    intro names hf h
    rw [spreadFixpoint] at h
    split at h
    · cases h
    · rename_i next hp
      have hs : next.Sublist names := sublist_of_spreadPass hp
      split at h
      · rename_i hl
        cases h
        exact ⟨List.Subset.refl _, consistent_of_length_spreadPass hp hl,
          fun _ hsb => hsb⟩
      · -- A name was dropped, which makes up for the pass; a consistent list loses none.
        have hle := hs.length_le
        have hg := ih (by omega) h
        refine ⟨fun name hn => hs.subset (hg.within hn),
          hg.consistent, fun hc hsb => ?_⟩
        exact hg.greatest hc (subset_of_spreadPass hp hc hsb)

/-- The names of objects are the names of the entries that are objects. -/
theorem mem_objectNames (name : String) : name ∈ objectNames entries ↔
    ∃ entry ∈ entries, entry.schema.isObject ∧ entry.name = name := by
  rw [objectNames, mem_eraseDups, mem_map]
  constructor
  · rintro ⟨entry, he, hn⟩
    obtain ⟨he, ho⟩ := mem_filter.mp he
    exact ⟨entry, he, ho, hn⟩
  · rintro ⟨entry, he, ho, hn⟩
    exact ⟨entry, mem_filter.mpr ⟨he, ho⟩, hn⟩

theorem greatestConsistent_spreadableNames (h : spreadableNames entries = .ok names) :
    GreatestConsistent entries (objectNames entries) names :=
  greatestConsistent_spreadFixpoint _ (Nat.lt_succ_self _) h

/-! ## Parts that are closed under spreading -/

/-- In a part of the entries that has with each entry the entries that it spreads, the same names
are spreadable. -/
theorem mem_spreadableNames_filter_iff {kept names' : List String}
    (hcl : ∀ entry ∈ entries, entry.name ∈ kept → ∀ name ∈ entry.schema.spreads,
      name ∈ entries.map (·.name) → name ∈ kept)
    (hn : spreadableNames entries = .ok names)
    (hn' : spreadableNames (entries.filter fun entry => kept.contains entry.name) = .ok names')
    {name : String} (hnm : name ∈ kept) : name ∈ names ↔ name ∈ names' := by
  have hw := greatestConsistent_spreadableNames hn
  have hp := greatestConsistent_spreadableNames hn'
  have hm : ∀ entry, entry ∈ entries.filter (fun entry => kept.contains entry.name) ↔
      entry ∈ entries ∧ entry.name ∈ kept := by
    simp
  constructor
  · intro hs
    -- The kept ones among the spreadable names are consistent for the part.
    have hm' : ∀ other, other ∈ names.filter kept.contains ↔ other ∈ names ∧ other ∈ kept := by
      simp
    have hc : Consistent (entries.filter fun entry => kept.contains entry.name)
        (names.filter kept.contains) := by
      intro entry he hentryName
      obtain ⟨he, hk⟩ := (hm entry).mp he
      obtain ⟨hob, hspr⟩ := hw.consistent entry he ((hm' _).mp hentryName).1
      refine ⟨hob, fun spread hsp => (hm' spread).mpr ⟨hspr hsp, ?_⟩⟩
      obtain ⟨other, ho, -, rfl⟩ :=
        (mem_objectNames spread).mp (hw.within (hspr hsp))
      exact hcl entry he hk other.name hsp (mem_map_of_mem ho)
    refine hp.greatest hc ?_ ((hm' name).mpr ⟨hs, hnm⟩)
    intro other ho
    obtain ⟨ho, hk⟩ := (hm' other).mp ho
    obtain ⟨entry, he, hob, rfl⟩ :=
      (mem_objectNames other).mp (hw.within ho)
    exact (mem_objectNames _).mpr ⟨entry, (hm entry).mpr ⟨he, hk⟩, hob, rfl⟩
  · intro hs
    have hobj : ∀ other ∈ names', ∃ entry ∈ entries, entry.schema.isObject ∧
        entry.name = other ∧ other ∈ kept := by
      intro other ho
      obtain ⟨entry, he, hob, rfl⟩ := (mem_objectNames other).mp (hp.within ho)
      obtain ⟨he, hk⟩ := (hm entry).mp he
      exact ⟨entry, he, hob, rfl, hk⟩
    -- All entries with spreadable names of the part are in the part.
    have hc : Consistent entries names' := by
      intro entry he hentryName
      obtain ⟨-, -, -, -, hk⟩ := hobj entry.name hentryName
      exact hp.consistent entry ((hm entry).mpr ⟨he, hk⟩) hentryName
    refine hw.greatest hc ?_ hs
    intro other ho
    obtain ⟨entry, he, hob, ho, -⟩ := hobj other ho
    exact (mem_objectNames other).mpr ⟨entry, he, hob, ho⟩

end ApiSchema
