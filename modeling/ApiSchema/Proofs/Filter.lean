/-
# Filters keep dependencies

The names that a filter keeps are closed under dependencies: with an entry the filter keeps every
entry that it depends on. The kept names grow in rounds. A round that adds no name ends the growth,
and there are enough rounds, because all names are names of the collection.
-/
import Mathlib.Data.List.Perm.Subperm
import ApiSchema.Filter
import ApiSchema.Proofs.Order

namespace ApiSchema

open List

variable {index : List (String × Entry)} {kept : List String} {entry : Entry}

/-! ## Rounds -/

/-- With each name the list has the dependencies of its entry, as far as they are in the
collection. -/
def ClosedUnder (index : List (String × Entry)) (kept : List String) : Prop :=
  ∀ name ∈ kept, ∀ entry, Assoc.get? index name = some entry →
    ∀ dependency ∈ entry.dependencies, dependency ∈ Assoc.keys index → dependency ∈ kept

/-- A round adds the dependencies that are in the collection, and nothing else. -/
theorem mem_growKept (kept : List String) (name : String) :
    name ∈ growKept index kept ↔ name ∈ kept ∨
      (∃ user ∈ kept, ∃ entry, Assoc.get? index user = some entry ∧ name ∈ entry.dependencies) ∧
        name ∈ Assoc.keys index := by
  rw [growKept, mem_unionNames, mem_filter, mem_flatMap, Assoc.has_iff_mem_keys]
  refine or_congr_right (and_congr_left fun _ => ?_)
  constructor
  · rintro ⟨user, hu, hn⟩
    cases hg : Assoc.get? index user with
    | none => simp [hg] at hn
    | some entry =>
      rw [hg] at hn
      exact ⟨user, hu, entry, hg, hn⟩
  · rintro ⟨user, hu, entry, hg, hn⟩
    refine ⟨user, hu, ?_⟩
    rw [hg]
    exact hn

theorem subperm_growKept (hk : kept.Nodup) : kept.Subperm (growKept index kept) :=
  subperm_of_subset hk fun name hn => (mem_growKept kept name).mpr (Or.inl hn)

/-- If a round adds nothing, the names are closed. -/
theorem closedUnder_of_length_growKept
    (hk : kept.Nodup) (h : (growKept index kept).length = kept.length) :
    ClosedUnder index kept := by
  -- The list after the round is as long as the one before, so it has the same names.
  have hp : kept.Perm (growKept index kept) :=
    (subperm_growKept hk).perm_of_length_le (Nat.le_of_eq h)
  intro name hn entry hg dependency hd hky
  refine hp.mem_iff.mpr ((mem_growKept kept dependency).mpr (Or.inr ⟨?_, hky⟩))
  exact ⟨name, hn, entry, hg, hd⟩

/-- If there are more rounds than names left to add, the names are closed in the end. -/
theorem closedUnder_closeKept {fuel : ℕ} :
    ∀ kept : List String, kept.Nodup → kept ⊆ Assoc.keys index →
      index.length < fuel + kept.length → ClosedUnder index (closeKept index fuel kept) := by
  induction fuel with
  | zero =>
    intro kept hn hs hf
    -- The kept names are distinct names of the collection, so there is always a round left.
    have hl : kept.length ≤ (Assoc.keys index).length :=
      (subperm_of_subset hn hs).length_le
    rw [Assoc.keys, length_map] at hl
    omega
  | succ fuel ih =>
    intro kept hn hs hf
    rw [closeKept]
    split
    · rename_i hl
      exact closedUnder_of_length_growKept hn hl
    · -- The list got longer, which makes up for the round.
      have hle : kept.length ≤ (growKept index kept).length :=
        (subperm_growKept hn).length_le
      refine ih _ (nodup_unionNames _ hn) ?_ (by omega)
      intro name hnm
      rcases (mem_growKept kept name).mp hnm with hnm | ⟨-, hk⟩
      · exact hs hnm
      · exact hk

/-! ## Kept names -/

theorem mem_topologicalSort_of_mem {entries : List Entry} (hd : (entries.map (·.name)).Nodup)
    (he : entry ∈ entries) : entry ∈ topologicalSort entries := by
  rw [mem_topologicalSort_iff, ← get?_indexByName_eq_some_iff]
  exact get?_indexByName_of_mem hd he

namespace Filter

variable {entries : List Entry}

/-- The kept names are closed under dependencies. -/
theorem closedUnder_keptNames (filter : Filter) :
    ClosedUnder (indexByName entries) (filter.keptNames entries) := by
  refine closedUnder_closeKept _ (nodup_unionNames _ nodup_nil) ?_ (by omega)
  intro name hn
  rw [mem_unionNames, mem_map] at hn
  obtain ⟨entry, he, rfl⟩ := hn.resolve_left (by simp)
  rw [mem_keys_indexByName]
  exact mem_map_of_mem (mem_of_mem_filter he)

/-- With an entry the filter keeps the entries that it depends on. -/
theorem mem_keptNames_of_mem_dependencies (filter : Filter)
    (hds : (entries.map (·.name)).Nodup) (he : entry ∈ entries)
    (hk : entry.name ∈ filter.keptNames entries) {name : String}
    (hd : name ∈ entry.dependencies) (hn : name ∈ entries.map (·.name)) :
    name ∈ filter.keptNames entries :=
  filter.closedUnder_keptNames entry.name hk entry
    (get?_indexByName_of_mem hds he) name hd
    ((mem_keys_indexByName name).mpr hn)

end Filter

end ApiSchema
