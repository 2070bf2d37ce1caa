/-
# Stability of the order of declaration

Entries that already come after their dependencies stay where they are, so that ordering once more
changes nothing unless entries depend on each other in a cycle. The entries that no other one
depends on keep their order in any case: what a visit pulls forward is a dependency of another
entry. -/
import ApiSchema.Proofs.Order

namespace ApiSchema

open List Relation

variable {entries done : List Entry} {name dependency : String} {entry : Entry}
  {index : List (String × Entry)} {opened : List String}

/-! ## Entries in order -/

/-- Every entry comes after the other ones that it depends on. -/
def Arranged (entries : List Entry) : Prop :=
  ∀ before entry after, entries = before ++ entry :: after →
    ∀ dependency ∈ entry.dependencies, dependency ≠ entry.name →
      dependency ∈ entries.map (·.name) → dependency ∈ before.map (·.name)

theorem visitName_eq_self (fuel : ℕ)
    (h : name ∈ done.map (·.name) ∨ name ∈ opened ∨ name ∉ Assoc.keys index) :
    visitName index fuel opened done name = done := by
  cases fuel with
  | zero => rfl
  | succ fuel =>
    rcases visitName_cases index fuel opened done name with
      ⟨-, hv⟩ | ⟨hn, hnt, entry, hg, -⟩
    · exact hv
    · rcases h with hd | ho | hu
      · exact absurd hd hn
      · exact absurd ho hnt
      · rw [(Assoc.get?_eq_none_iff index name).mpr hu] at hg
        exact absurd hg (by simp)

/-- Entries with distinct names that come after their dependencies are visited one by one. -/
theorem topologicalSort_eq_self (hd : (entries.map (·.name)).Nodup)
    (ha : Arranged entries) : topologicalSort entries = entries := by
  suffices hv : ∀ before, before <+: entries → (before.map (·.name)).foldl
      (visitName (indexByName entries) (entries.length + 1) []) [] = before from
    hv entries (prefix_refl entries)
  intro before hb
  induction before using List.reverseRecOn with
  | nil => rfl
  | append_singleton before entry ih =>
    obtain ⟨after, he⟩ := hb
    rw [append_assoc] at he
    have hm : entry ∈ entries := he ▸ mem_append_right _ (mem_cons_self ..)
    have hg := get?_indexByName_of_mem hd hm
    rw [map_append, foldl_append, ih ⟨entry :: after, he⟩, map_singleton, foldl_cons, foldl_nil]
    rcases visitName_cases (indexByName entries) entries.length [] before entry.name with
      ⟨hmt, -⟩ | ⟨-, -, other, ho, hvs⟩
    · -- The name is not met before, since names are distinct, and it is a name of the index.
      rcases hmt with hdn | hop | hu
      · rw [← he, map_append] at hd
        exact absurd rfl ((nodup_append.mp hd).2.2 _ hdn _ (by simp))
      · exact absurd hop (by simp)
      · rw [(Assoc.get?_eq_none_iff _ _).mpr hu] at hg
        exact absurd hg (by simp)
    · obtain rfl : entry = other := Option.some.inj (hg.symm.trans ho)
      rw [hvs]
      congr 1
      refine List.foldlRecOn (motive := (· = before)) _ _ rfl ?_
      intro later hl dependency hdp
      rw [hl]
      apply visitName_eq_self
      by_cases hs : dependency = entry.name
      · exact Or.inr (Or.inl (hs ▸ mem_cons_self ..))
      · by_cases hk : dependency ∈ entries.map (·.name)
        · exact Or.inl (ha before entry after he.symm dependency
            ((mem_sortNames _ _).mp hdp) hs hk)
        · exact Or.inr (Or.inr (mt (mem_keys_indexByName dependency).mp hk))

/-! ## Cycles -/

/-- Among some entries, one of the first name depends on another name. -/
def DependsOnOther (entries : List Entry) (name dependency : String) : Prop :=
  DependsOn entries name dependency ∧ dependency ≠ name

/-- A chain of dependencies from a name to another one needs no dependency of an entry on itself. -/
theorem transGen_dependsOnOther
    (h : TransGen (DependsOn entries) name dependency) (hn : dependency ≠ name) :
    TransGen (DependsOnOther entries) name dependency := by
  have hc : ReflTransGen (DependsOnOther entries) name dependency := by
    refine reflTransGen_closed (fun first second hd => ?_) _ _ h.to_reflTransGen
    by_cases hs : second = first
    · exact hs ▸ ReflTransGen.refl
    · exact ReflTransGen.single ⟨hd, hs⟩
  exact (reflTransGen_iff_eq_or_transGen.mp hc).resolve_left hn

theorem DependsOn.of_topologicalSort (h : DependsOn (topologicalSort entries) name dependency) :
    DependsOn entries name dependency := by
  obtain ⟨entry, he, hn, hd⟩ := h
  exact ⟨entry, mem_of_mem_topologicalSort he, hn, hd⟩

/-- Without cycles, ordered entries come after their dependencies. -/
theorem arranged_topologicalSort
    (ha : ∀ name, ¬ TransGen (DependsOnOther entries) name name) :
    Arranged (topologicalSort entries) := by
  intro before entry after hs dependency hd hn hnm
  refine (precedes_or_leads_back hs hd hn hnm).resolve_right fun hb => ?_
  have he : entry ∈ topologicalSort entries :=
    hs ▸ mem_append_right _ (mem_cons_self ..)
  have hf : DependsOnOther entries entry.name dependency :=
    ⟨⟨entry, mem_of_mem_topologicalSort he, rfl, hd⟩, hn⟩
  have hb : TransGen (DependsOnOther entries) dependency entry.name :=
    transGen_dependsOnOther
      (TransGen.mono (fun _ _ => DependsOn.of_topologicalSort) _ _ hb) hn.symm
  exact ha entry.name (hb.head hf)

/-! ## Entries that no other one depends on -/

/-- No entry of another name depends on the name. -/
def Free (entries : List Entry) (name : String) : Prop :=
  ∀ other ∈ entries, other.name ≠ name → name ∉ other.dependencies

instance (entries : List Entry) (name : String) : Decidable (Free entries name) :=
  inferInstanceAs (Decidable (∀ other ∈ entries, _ → _))

/-- The free ones of some finished entries. -/
def freeOf (entries done : List Entry) : List Entry := done.filter (Free entries ·.name)

theorem freeOf_concat (entries done : List Entry) (entry : Entry) :
    freeOf entries (done ++ [entry]) =
      freeOf entries done ++ if Free entries entry.name then [entry] else [] := by
  simp [freeOf, filter_cons]

theorem names_freeOf (entries done : List Entry) :
    (freeOf entries done).map (·.name) = (done.map (·.name)).filter (Free entries ·) := by
  rw [filter_map]
  rfl

/-- A visit of the dependencies of an entry finishes no free one: each of them is a dependency of
the entry, of another name. -/
theorem freeOf_foldl_visitName (fuel : ℕ) : ∀ (opened : List String) (done : List Entry),
    Assoc.get? (indexByName entries) entry.name = some entry →
      freeOf entries ((sortNames entry.dependencies).foldl
        (visitName (indexByName entries) fuel (entry.name :: opened)) done) =
          freeOf entries done := by
  induction fuel generalizing entry with
  | zero =>
    exact fun opened done _ => List.foldlRecOn
      (motive := (freeOf entries · = freeOf entries done)) _ _ rfl fun _ h _ _ => h
  | succ fuel ih =>
    intro opened done hg
    refine List.foldlRecOn (motive := (freeOf entries · = freeOf entries done)) _ _ rfl ?_
    intro later hl dependency hd
    rw [← hl]
    rcases visitName_cases (indexByName entries) fuel (entry.name :: opened) later dependency with
      ⟨-, hv⟩ | ⟨-, hnt, other, ho, hv⟩
    · rw [hv]
    · obtain rfl := name_of_get?_indexByName ho
      obtain ⟨before, after, heq, -⟩ := (get?_indexByName_eq_some_iff _).mp hg
      have he : entry ∈ entries := heq ▸ mem_append_right _ (mem_cons_self ..)
      have hn : ¬ Free entries other.name := fun hf =>
        hf entry he (fun hnm => hnt (hnm ▸ mem_cons_self ..))
          ((mem_sortNames _ _).mp hd)
      rw [hv, freeOf_concat, ih _ _ ho, if_neg hn, append_nil]

/-- A visit finishes its own entry as the only free one, if it is free and not finished. -/
theorem freeOf_visitName (hg : Assoc.get? (indexByName entries) entry.name = some entry)
    (fuel : ℕ) (done : List Entry) :
    freeOf entries (visitName (indexByName entries) (fuel + 1) [] done entry.name) =
      freeOf entries done ++
        if Free entries entry.name ∧ entry.name ∉ done.map (·.name) then [entry] else [] := by
  rcases visitName_cases (indexByName entries) fuel [] done entry.name with
    ⟨hd | hop | hu, hv⟩ | ⟨hn, -, other, ho, hv⟩
  · rw [hv, if_neg fun h => h.2 hd, append_nil]
  · exact absurd hop (by simp)
  · rw [(Assoc.get?_eq_none_iff _ _).mpr hu] at hg
    exact absurd hg (by simp)
  · obtain rfl : entry = other := Option.some.inj (hg.symm.trans ho)
    rw [hv, freeOf_concat, freeOf_foldl_visitName _ _ _ hg]
    simp only [hn, not_false_eq_true, and_true]

/-- Visits of the names of entries finish the free ones in the order in which the names occur
first. -/
theorem names_freeOf_visits {before : List Entry} (hb : before <+: entries) :
    (freeOf entries ((before.map (·.name)).foldl
      (visitName (indexByName entries) (entries.length + 1) []) [])).map (·.name) =
        (Assoc.keys (indexByName before)).filter (Free entries ·) := by
  induction before using List.reverseRecOn with
  | nil => rfl
  | append_singleton before entry ih =>
    have ih := ih ((prefix_append _ _).trans hb)
    have hi : indexByName (before ++ [entry]) =
        Assoc.put (indexByName before) entry.name entry := by
      rw [indexByName, map_append]
      exact Assoc.ofList_concat _ _
    have hkn : entry.name ∈ Assoc.keys (indexByName entries) :=
      (mem_keys_indexByName _).mpr (mem_map_of_mem (hb.subset (by simp)))
    obtain ⟨last, hl⟩ : ∃ last, Assoc.get? (indexByName entries) entry.name = some last :=
      Option.isSome_iff_exists.mp ((Assoc.has_iff_mem_keys _ _).mpr hkn)
    have hn := name_of_get?_indexByName hl
    rw [hi, map_append, foldl_append, map_singleton, foldl_cons, foldl_nil]
    generalize (before.map (·.name)).foldl _ [] = done at ih ⊢
    rw [← hn] at hl ⊢
    have hm : Free entries last.name →
        (last.name ∈ done.map (·.name) ↔ last.name ∈ Assoc.keys (indexByName before)) := by
      intro hf
      rw [names_freeOf] at ih
      simpa only [mem_filter, hf, decide_true, and_true] using
        iff_of_eq (congrArg (last.name ∈ ·) ih)
    rw [freeOf_visitName hl, map_append, ih]
    rcases Assoc.keys_put (indexByName before) last.name entry with hk | ⟨hnw, hk⟩
    · have hold : last.name ∈ Assoc.keys (indexByName before) := by
        rw [← hk, Assoc.mem_keys_put]
        exact Or.inr rfl
      rw [hk, if_neg fun h => h.2 ((hm h.1).mpr hold), map_nil, append_nil]
    · rw [hk]
      by_cases hf : Free entries last.name
      · rw [if_pos ⟨hf, fun hd => hnw ((hm hf).mp hd)⟩]
        simp [hf]
      · simp [hf]

/-- Entries of an index are found again by their names. -/
theorem filterMap_get?_names {listed : List Entry}
    (h : ∀ entry ∈ listed, Assoc.get? index entry.name = some entry) :
    (listed.map (·.name)).filterMap (Assoc.get? index) = listed := by
  induction listed with
  | nil => rfl
  | cons first rest ih =>
    rw [map_cons, filterMap_cons_some (h first (mem_cons_self ..)), ih (forall_mem_cons.mp h).2]

/-- The free ones of the ordered entries stand in the order in which their names were first
given. -/
theorem freeOf_topologicalSort :
    freeOf entries (topologicalSort entries) =
      freeOf entries ((indexByName entries).map (·.2)) := by
  have hi : ∀ pair ∈ indexByName entries,
      Assoc.get? (indexByName entries) pair.2.name = some pair.2 ∧ pair.2.name = pair.1 := by
    intro pair hp
    have hg := (Assoc.get?_eq_some_iff_mem (Assoc.nodup_keys_ofList _)).mpr hp
    have hn := name_of_get?_indexByName hg
    exact ⟨hn ▸ hg, hn⟩
  have hk : ((indexByName entries).map (·.2)).map (·.name) =
      Assoc.keys (indexByName entries) := by
    rw [List.map_map]
    exact List.map_congr_left fun pair hp => (hi pair hp).2
  have hnm : (freeOf entries (topologicalSort entries)).map (·.name) =
      (freeOf entries ((indexByName entries).map (·.2))).map (·.name) := by
    rw [names_freeOf _ ((indexByName entries).map _), hk]
    exact names_freeOf_visits (prefix_refl entries)
  have hs : ∀ entry ∈ freeOf entries (topologicalSort entries),
      Assoc.get? (indexByName entries) entry.name = some entry := fun entry he =>
    (ordered_topologicalSort entries).1.indexed entry (mem_of_mem_filter he)
  rw [← filterMap_get?_names hs, hnm, filterMap_get?_names]
  intro entry he
  obtain ⟨pair, hp, rfl⟩ := mem_map.mp (mem_of_mem_filter he)
  exact (hi pair hp).1

/-! ## Stability -/

/-- Ordering is stable. Entries with distinct names that come after their dependencies stay as they
are; ordering twice is ordering once, unless entries depend on each other in a cycle; and the
entries that no other one depends on stay in the order in which their names were first given, that
is in their own order if the names are distinct. -/
theorem topologicalSort_stable (entries : List Entry) :
    ((entries.map (·.name)).Nodup → Arranged entries → topologicalSort entries = entries) ∧
      ((∀ name, ¬ TransGen (DependsOnOther entries) name name) →
        topologicalSort (topologicalSort entries) = topologicalSort entries) ∧
      freeOf entries (topologicalSort entries) = freeOf entries ((indexByName entries).map (·.2)) ∧
      ((entries.map (·.name)).Nodup →
        freeOf entries (topologicalSort entries) = freeOf entries entries) := by
  refine ⟨topologicalSort_eq_self, fun ha => ?_, freeOf_topologicalSort,
    fun hd => ?_⟩
  · exact topologicalSort_eq_self (nodup_names_topologicalSort entries)
      (arranged_topologicalSort ha)
  · rw [freeOf_topologicalSort, indexByName, Assoc.ofList_eq_self, List.map_map, Function.comp_def,
      List.map_id']
    rw [List.pairwise_map]
    rw [nodup_iff_pairwise_ne, pairwise_map] at hd
    exact hd.imp fun h => by simpa using h

/-- A tag, and a pet and a toy that no other entry depends on. -/
def petEntries : List Entry :=
  [⟨"Tag", .string none, [], .component⟩, ⟨"Pet", .ref "Tag", ["Tag"], .component⟩,
    ⟨"Toy", .string none, [], .component⟩]

theorem topologicalSort_petEntries : (petEntries.map (·.name)).Nodup ∧ Arranged petEntries ∧
      (∀ name, ¬ TransGen (DependsOnOther petEntries) name name) ∧
      freeOf petEntries petEntries = petEntries.drop 1 ∧
      topologicalSort petEntries = petEntries ∧
      topologicalSort (topologicalSort petEntries) = topologicalSort petEntries ∧
      freeOf petEntries (topologicalSort petEntries) = freeOf petEntries petEntries := by
  have hds : (petEntries.map (·.name)).Nodup := by decide
  have ha : Arranged petEntries := by
    intro before entry after h dependency hd
    rcases before with _ | ⟨first, _ | ⟨second, _ | ⟨third, before⟩⟩⟩
    · cases h
      exact absurd hd (by simp)
    · cases h
      exact fun _ _ => by simpa using hd
    · cases h
      exact absurd hd (by simp)
    · exact absurd h (by simp [petEntries])
  have hac : ∀ name, ¬ TransGen (DependsOnOther petEntries) name name := by
    intro name h
    obtain ⟨_, ⟨hf, -⟩, -⟩ := TransGen.head'_iff.mp h
    obtain ⟨_, -, hl, -⟩ := TransGen.tail'_iff.mp h
    simp [DependsOn, petEntries] at hf hl
    exact absurd (hl.2.symm.trans hf.1.symm) (by decide)
  obtain ⟨hs, ht, -, hfr⟩ := topologicalSort_stable petEntries
  exact ⟨hds, ha, hac, rfl, hs hds ha, ht hac,
    hfr hds⟩

end ApiSchema
