/-
# The order of declaration

Ordering entries gives one entry for each name, the last one that was given. An entry comes after
the entries it depends on, unless they depend on it in turn.

The argument follows the visit. While a name is visited, every name on the way down to it leads to
it, so a dependency that is passed over because it is open lies on a cycle; every other dependency
is finished before the entry itself.
-/
import Mathlib.Logic.Relation
import ApiSchema.Proofs.Assoc
import ApiSchema.Proofs.Mentions
import ApiSchema.Schema.Order

namespace ApiSchema

open List Relation

variable {entries done : List Entry} {name : String} {entry : Entry} {index : List (String × Entry)}
  {opened : List String}

/-- Steps that lower a rank do not lead back. -/
theorem not_transGen_of_rank {α : Type} {step : α → α → Prop} (rank : α → ℕ)
    (h : ∀ first second, step first second → rank second < rank first) (element : α) :
    ¬ TransGen step element element := by
  intro hc
  have hl : TransGen (· > ·) (rank element) (rank element) := hc.lift rank h
  rw [transGen_eq_self] at hl
  exact Nat.lt_irrefl _ hl

/-! ## The index -/

/-- The index has the entries under their own names. -/
theorem name_of_get?_indexByName
    (h : Assoc.get? (indexByName entries) name = some entry) : entry.name = name := by
  obtain ⟨_, _, _, -, hp, -⟩ := (Assoc.get?_ofList_map_eq_some_iff _ _ _ _).mp h
  obtain ⟨rfl, rfl⟩ := Prod.mk.inj hp
  rfl

/-- The index has the last entry of each name. -/
theorem get?_indexByName_eq_some_iff (entry : Entry) :
    Assoc.get? (indexByName entries) entry.name = some entry ↔
      ∃ before after, entries = before ++ entry :: after ∧
        ∀ other ∈ after, other.name ≠ entry.name := by
  rw [indexByName, Assoc.get?_ofList_map_eq_some_iff]
  constructor
  · rintro ⟨before, other, after, rfl, hp, ha⟩
    obtain rfl := (Prod.mk.inj hp).2
    exact ⟨before, after, rfl, ha⟩
  · rintro ⟨before, after, rfl, ha⟩
    exact ⟨before, entry, after, rfl, rfl, ha⟩

/-- In a collection with distinct names, every entry is found by its name. -/
theorem get?_indexByName_of_mem (hd : (entries.map (·.name)).Nodup) (h : entry ∈ entries) :
    Assoc.get? (indexByName entries) entry.name = some entry := by
  obtain ⟨before, after, rfl⟩ := append_of_mem h
  refine (get?_indexByName_eq_some_iff _).mpr ⟨before, after, rfl, fun other ho hn => ?_⟩
  rw [map_append] at hd
  exact (nodup_cons.mp hd.of_append_right).1 (mem_map.mpr ⟨other, ho, hn⟩)

theorem mem_keys_indexByName (name : String) :
    name ∈ Assoc.keys (indexByName entries) ↔ name ∈ entries.map (·.name) := by
  rw [indexByName, Assoc.mem_keys_ofList, Assoc.keys, List.map_map]
  rfl

/-! ## Finished entries -/

/-- The entry of the first name depends on the second name. -/
def Leads (index : List (String × Entry)) (name dependency : String) : Prop :=
  ∃ entry, Assoc.get? index name = some entry ∧ dependency ∈ entry.dependencies

/-- What holds of the entries finished so far: they come from the index, each once, and each
dependency of an entry is finished before it or leads back to it. -/
structure Ordered (index : List (String × Entry)) (done : List Entry) : Prop where
  indexed : ∀ entry ∈ done, Assoc.get? index entry.name = some entry
  nodup : (done.map (·.name)).Nodup
  preceded : ∀ before entry after, done = before ++ entry :: after →
    ∀ dependency ∈ entry.dependencies, dependency ≠ entry.name → dependency ∈ Assoc.keys index →
        dependency ∈ before.map (·.name) ∨ TransGen (Leads index) dependency entry.name

theorem Ordered.nil (index : List (String × Entry)) : Ordered index [] where
  indexed := by simp
  nodup := nodup_nil
  preceded := by
    intro before entry after h
    exact absurd h (by simp)

/-- An entry can be finished when each of its dependencies is finished or leads back to it. -/
theorem Ordered.concat
    (h : Ordered index done) (hi : Assoc.get? index entry.name = some entry)
    (hn : entry.name ∉ done.map (·.name))
    (hd : ∀ dependency ∈ entry.dependencies, dependency ≠ entry.name →
      dependency ∈ Assoc.keys index →
        dependency ∈ done.map (·.name) ∨ TransGen (Leads index) dependency entry.name) :
    Ordered index (done ++ [entry]) where
  indexed := forall_mem_concat h.indexed hi
  nodup := nodup_map_concat h.nodup hn
  preceded := by
    intro before other after hs
    rcases Assoc.concat_eq_append_cons_iff.mp hs with ⟨rfl, rfl, rfl⟩ | ⟨inner, rfl, rfl⟩
    · exact hd
    · exact h.preceded before other inner rfl

/-! ## Visits -/

/-- What a visit may rely on: some entries are finished, and the names on the way down are names of
the index, all different and none of them finished. -/
structure Visiting (index : List (String × Entry)) (opened : List String) (done : List Entry) :
    Prop where
  ordered : Ordered index done
  known : ∀ name ∈ opened, name ∈ Assoc.keys index
  distinct : opened.Nodup
  unfinished : ∀ name ∈ opened, name ∉ done.map (·.name)

/-- What a visit leaves behind: it only finishes more entries, and it finishes the name that is
visited unless this is open or not in the index. -/
structure Visited (index : List (String × Entry)) (opened : List String) (done done' : List Entry)
    (name : String) : Prop where
  visiting : Visiting index opened done'
  grown : done <+: done'
  finished : name ∈ done'.map (·.name) ∨ name ∈ opened ∨ name ∉ Assoc.keys index

/-- Visits one after the other: if each visit does what it should, all names are finished in the
end, as far as they can be. -/
theorem visiting_foldl
    {visit : List Entry → String → List Entry} {names : List String}
    (hv : ∀ name ∈ names, ∀ done, Visiting index opened done →
      Visited index opened done (visit done name) name) :
    ∀ done, Visiting index opened done →
      Visiting index opened (names.foldl visit done) ∧ done <+: names.foldl visit done ∧
        ∀ name ∈ names, name ∈ (names.foldl visit done).map (·.name) ∨ name ∈ opened ∨
          name ∉ Assoc.keys index := by
  induction names with
  | nil => exact fun done h => ⟨h, prefix_refl done, by simp⟩
  | cons first rest ih =>
    intro done h
    have hf := hv first (mem_cons_self ..) done h
    obtain ⟨hvs, hg, hfn⟩ :=
      ih (forall_mem_cons.mp hv).2 _ hf.visiting
    refine ⟨hvs, hf.grown.trans hg, ?_⟩
    intro name hn
    rcases mem_cons.mp hn with rfl | hn
    · exact hf.finished.imp (fun hm => (hg.map (·.name)).subset hm) id
    · exact hfn name hn

theorem Visiting.length_opened_le (h : Visiting index opened done) :
    opened.length ≤ index.length := by
  have hl := (subperm_of_subset h.distinct h.known).length_le
  simpa [Assoc.keys] using hl

/-- A visit changes nothing if the name is finished, open or not in the index, and else finishes its
entry after a visit of the dependencies. -/
theorem visitName_cases (index : List (String × Entry)) (fuel : ℕ) (opened : List String)
    (done : List Entry) (name : String) :
    (name ∈ done.map (·.name) ∨ name ∈ opened ∨ name ∉ Assoc.keys index) ∧
        visitName index (fuel + 1) opened done name = done ∨
      name ∉ done.map (·.name) ∧ name ∉ opened ∧ ∃ entry, Assoc.get? index name = some entry ∧
        visitName index (fuel + 1) opened done name =
          (sortNames entry.dependencies).foldl (visitName index fuel (name :: opened)) done ++
            [entry] := by
  have hd : done.any (·.name == name) ↔ name ∈ done.map (·.name) := by
    simp [mem_map]
  rw [visitName]
  split
  · rename_i hm
    rw [Bool.or_eq_true, hd, contains_iff_mem] at hm
    exact Or.inl ⟨hm.imp id Or.inl, rfl⟩
  · rename_i hm
    rw [Bool.or_eq_true, hd, contains_iff_mem, not_or] at hm
    cases hg : Assoc.get? index name with
    | none => exact Or.inl ⟨Or.inr (Or.inr ((Assoc.get?_eq_none_iff index name).mp hg)), rfl⟩
    | some entry => exact Or.inr ⟨hm.1, hm.2, entry, rfl, rfl⟩

/-- A visit does what it should, if the depth suffices and every open name leads to the name that
is visited. -/
theorem visited_visitName
    (hi : ∀ name entry, Assoc.get? index name = some entry → entry.name = name) (fuel : ℕ) :
    ∀ (opened : List String) (done : List Entry) (name : String),
      Visiting index opened done → index.length < fuel + opened.length →
      (∀ other ∈ opened, TransGen (Leads index) other name) →
        Visited index opened done (visitName index fuel opened done name) name := by
  induction fuel with
  | zero =>
    intro opened done name h hfl
    -- The open names are distinct names of the index, so the depth is never used up.
    have hle := h.length_opened_le
    omega
  | succ fuel ih =>
    intro opened done name h hfl hop
    rcases visitName_cases index fuel opened done name with
      ⟨hmt, hvs⟩ | ⟨hnt, hn, entry, hg, hvs⟩
    · rw [hvs]
      exact ⟨h, prefix_refl done, hmt⟩
    · rw [hvs]
      obtain rfl := hi name entry hg
      have hky : entry.name ∈ Assoc.keys index := by
        rw [← Assoc.has_iff_mem_keys, Assoc.has, hg]
        rfl
      have hb : Visiting index (entry.name :: opened) done := by
        refine ⟨h.ordered, ?_, nodup_cons.mpr ⟨hn, h.distinct⟩, ?_⟩
        · rintro other (_ | ⟨_, ho⟩)
          · exact hky
          · exact h.known other ho
        · rintro other (_ | ⟨_, ho⟩)
          · exact hnt
          · exact h.unfinished other ho
      -- Each dependency is led to by the name itself and by every open name.
      have hvs : ∀ dependency ∈ sortNames entry.dependencies, ∀ done,
          Visiting index (entry.name :: opened) done → Visited index (entry.name :: opened) done
              (visitName index fuel (entry.name :: opened) done dependency) dependency := by
        intro dependency hd done hv
        have hl : Leads index entry.name dependency :=
          ⟨entry, hg, (mem_sortNames _ _).mp hd⟩
        refine ih _ _ _ hv ?_ ?_
        · rw [length_cons]
          omega
        · rintro other (_ | ⟨_, ho⟩)
          · exact TransGen.single hl
          · exact (hop other ho).tail hl
      obtain ⟨hv, hgr, hf⟩ :=
        visiting_foldl hvs done hb
      -- After its dependencies the name is still unfinished, because it was open.
      have hnw := hv.unfinished entry.name (mem_cons_self ..)
      refine ⟨⟨?_, h.known, h.distinct, ?_⟩, hgr.trans (prefix_append _ _), ?_⟩
      · refine hv.ordered.concat hg hnw ?_
        intro dependency hd hne hk
        rcases hf dependency ((mem_sortNames _ _).mpr hd) with
          hdn | hope | hu
        · exact Or.inl hdn
        · -- An open name other than the entry's own closes a cycle.
          rcases mem_cons.mp hope with hs | hope
          · exact absurd hs hne
          · exact Or.inr (hop dependency hope)
        · exact absurd hk hu
      · intro other ho
        rw [map_append, mem_append, not_or]
        refine ⟨hv.unfinished other (mem_cons_of_mem _ ho), ?_⟩
        intro hm
        obtain rfl : other = entry.name := mem_singleton.mp hm
        exact hn ho
      · left
        simp

/-! ## The order -/

/-- Ordering entries finishes all of their names. -/
theorem ordered_topologicalSort (entries : List Entry) :
    Ordered (indexByName entries) (topologicalSort entries) ∧
      ∀ name ∈ entries.map (·.name), name ∈ (topologicalSort entries).map (·.name) := by
  have hs : Visiting (indexByName entries) [] [] := ⟨Ordered.nil _, by simp, by simp, by simp⟩
  have hl : (indexByName entries).length ≤ entries.length := by
    have hle := Assoc.length_ofList_le (entries.map fun entry => (entry.name, entry))
    rwa [length_map] at hle
  have hvs : ∀ name ∈ entries.map (·.name), ∀ done, Visiting (indexByName entries) [] done →
      Visited (indexByName entries) [] done
        (visitName (indexByName entries) (entries.length + 1) [] done name) name := by
    intro name _ done hv
    refine visited_visitName (fun _ _ => name_of_get?_indexByName) _ _ _ _ hv ?_ (by simp)
    omega
  obtain ⟨hv, -, hf⟩ := visiting_foldl hvs [] hs
  refine ⟨hv.ordered, ?_⟩
  intro name hn
  rcases hf name hn with hd | ho | hu
  · exact hd
  · exact absurd ho (by simp)
  · exact absurd ((mem_keys_indexByName name).mpr hn) hu

theorem nodup_names_topologicalSort (entries : List Entry) :
    ((topologicalSort entries).map (·.name)).Nodup :=
  (ordered_topologicalSort entries).1.nodup

/-- The ordered entries are the last ones of their names. -/
theorem mem_topologicalSort_iff (entries : List Entry) (entry : Entry) :
    entry ∈ topologicalSort entries ↔ ∃ before after, entries = before ++ entry :: after ∧
        ∀ other ∈ after, other.name ≠ entry.name := by
  obtain ⟨ho, hf⟩ := ordered_topologicalSort entries
  rw [← get?_indexByName_eq_some_iff]
  constructor
  · exact ho.indexed entry
  · intro hg
    have hn : entry.name ∈ entries.map (·.name) := by
      rw [← mem_keys_indexByName, ← Assoc.has_iff_mem_keys, Assoc.has, hg]
      rfl
    obtain ⟨other, hot, hs⟩ := mem_map.mp (hf entry.name hn)
    have hi := ho.indexed other hot
    rw [hs, hg] at hi
    rwa [Option.some.inj hi]

theorem mem_of_mem_topologicalSort (h : entry ∈ topologicalSort entries) : entry ∈ entries := by
  obtain ⟨before, after, rfl, -⟩ := (mem_topologicalSort_iff entries entry).mp h
  exact mem_append_right _ (mem_cons_self ..)

theorem mem_names_topologicalSort (entries : List Entry) (name : String) :
    name ∈ (topologicalSort entries).map (·.name) ↔ name ∈ entries.map (·.name) := by
  constructor
  · intro h
    obtain ⟨entry, he, rfl⟩ := mem_map.mp h
    exact mem_map.mpr ⟨entry, mem_of_mem_topologicalSort he, rfl⟩
  · exact (ordered_topologicalSort entries).2 name

/-- Among some entries, one of the first name depends on the second name. -/
def DependsOn (entries : List Entry) (name dependency : String) : Prop :=
  ∃ entry ∈ entries, entry.name = name ∧ dependency ∈ entry.dependencies

variable {dependency : String}

/-- What leads on in the index is a dependency among the ordered entries. -/
theorem dependsOn_of_leads (h : Leads (indexByName entries) name dependency) :
    DependsOn (topologicalSort entries) name dependency := by
  obtain ⟨entry, hg, hd⟩ := h
  obtain rfl := name_of_get?_indexByName hg
  refine ⟨entry, ?_, rfl, hd⟩
  rw [mem_topologicalSort_iff, ← get?_indexByName_eq_some_iff]
  exact hg

/-- A dependency of an ordered entry on another one comes before it or leads back to it. -/
theorem precedes_or_leads_back {before after : List Entry}
    (hs : topologicalSort entries = before ++ entry :: after)
    (hd : dependency ∈ entry.dependencies) (hne : dependency ≠ entry.name)
    (hn : dependency ∈ (topologicalSort entries).map (·.name)) :
    dependency ∈ before.map (·.name) ∨
      TransGen (DependsOn (topologicalSort entries)) dependency entry.name := by
  have hk : dependency ∈ Assoc.keys (indexByName entries) := by
    rw [mem_keys_indexByName, ← mem_names_topologicalSort]
    exact hn
  rcases (ordered_topologicalSort entries).1.preceded before entry after hs dependency
    hd hne hk with hb | hc
  · exact Or.inl hb
  · exact Or.inr (TransGen.mono (fun _ _ => dependsOn_of_leads) _ _ hc)

/-- Ordering entries, whatever their names and dependencies, gives the last entry of each name once,
and every dependency of an entry on another one comes before it or leads back to it. -/
theorem topologicalSort_last_of_each_name_after_dependencies (entries : List Entry) :
    ((topologicalSort entries).map (·.name)).Nodup ∧
      (∀ name, name ∈ (topologicalSort entries).map (·.name) ↔ name ∈ entries.map (·.name)) ∧
      (∀ entry, entry ∈ topologicalSort entries ↔
        ∃ before after, entries = before ++ entry :: after ∧
          ∀ other ∈ after, other.name ≠ entry.name) ∧
      ∀ before entry after, topologicalSort entries = before ++ entry :: after →
        ∀ dependency ∈ entry.dependencies, dependency ≠ entry.name →
          dependency ∈ (topologicalSort entries).map (·.name) → dependency ∈ before.map (·.name) ∨
              TransGen (DependsOn (topologicalSort entries)) dependency entry.name := by
  refine ⟨nodup_names_topologicalSort entries, mem_names_topologicalSort entries,
    mem_topologicalSort_iff entries, ?_⟩
  intro before entry after hs dependency hd hne hn
  exact precedes_or_leads_back hs hd hne hn

end ApiSchema
