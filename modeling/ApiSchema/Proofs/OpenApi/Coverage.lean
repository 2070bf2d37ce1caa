/-
# The search for components is complete

The search enters every map that its parts lead to, and meets every component among these maps: a
map that has been entered is done, except for those that are still being gone through. The number of
maps bounds the depth, so the search never stops short.
-/
import ApiSchema.Proofs.OpenApi.Reachable
import ApiSchema.Proofs.Remaining

namespace ApiSchema.OpenApi

open List

variable {item : Item} {fuel id : ℕ}

/-! ## Maps that have been entered -/

/-- If the item is a map, it has been entered. -/
def Found (graph : Graph) (reached : Reached) (item : Item) : Prop :=
  graph.isMap item = true → ∃ id, item = .node id ∧ id ∈ reached.seen

/-- The parts of a map have been entered, and the component that it is has been met. -/
structure Done (setting : Setting) (reached : Reached) (item : Item) : Prop where
  parts : ∀ part ∈ walkedParts setting.graph item, Found setting.graph reached part
  named : ∀ name, setting.componentName? item = some (.text name) → name ∈ reached.used

/-- A search has gone on: nothing is lost, and every map entered meanwhile is done. -/
structure Grown (setting : Setting) (reached result : Reached) : Prop where
  seen : reached.seen ⊆ result.seen
  used : reached.used ⊆ result.used
  done : ∀ id ∈ result.seen, id ∉ reached.seen → Done setting result (.node id)

section

variable {setting : Setting} {reached result : Reached}

theorem Grown.found (h : Grown setting reached result)
    (hi : Found setting.graph reached item) : Found setting.graph result item := by
  intro hm
  obtain ⟨id, hid, hs⟩ := hi hm
  exact ⟨id, hid, h.seen hs⟩

theorem Done.mono (h : Grown setting reached result)
    (hi : Done setting reached item) : Done setting result item :=
  ⟨fun part hp => h.found (hi.parts part hp),
    fun name hn => h.used (hi.named name hn)⟩

theorem Grown.refl (reached : Reached) : Grown setting reached reached :=
  ⟨fun _ h => h, fun _ h => h, fun _ hi hn => absurd hi hn⟩

theorem Grown.trans {middle : Reached} (h : Grown setting reached middle)
    (h' : Grown setting middle result) : Grown setting reached result := by
  refine ⟨fun _ hi => h'.seen (h.seen hi), fun _ hn => h'.used (h.used hn), ?_⟩
  intro id hi hnw
  by_cases hm : id ∈ middle.seen
  · exact (h.done id hm hnw).mono h'
  · exact h'.done id hi hm

/-- The maps that have not been entered. -/
def unentered (setting : Setting) (reached : Reached) : List ℕ :=
  remaining setting.graph.maps reached.seen

/-! ## The search -/

/-- Several steps of a search, each of which has something entered. -/
theorem grown_foldlM {β : Type} (entered : β → Reached → Prop)
    {step : Reached → β → Reading Reached}
    (hm : ∀ element reached result, Grown setting reached result → entered element reached →
      entered element result)
    {elements : List β} (h : ∀ element ∈ elements, ∀ reached result,
      (unentered setting reached).length < fuel → step reached element = .ok result →
        Grown setting reached result ∧ entered element result) :
    ∀ {reached result}, (unentered setting reached).length < fuel →
      elements.foldlM step reached = .ok result →
        Grown setting reached result ∧ ∀ element ∈ elements, entered element result := by
  induction elements with
  | nil =>
    intro reached result _ hr
    cases hr
    exact ⟨.refl reached, nofun⟩
  | cons first rest ih =>
    intro reached result hf hr
    obtain ⟨middle, hfr, hrs⟩ := of_bind_eq_ok hr
    obtain ⟨hg, hfn⟩ := h first (mem_cons_self ..) reached middle hf hfr
    have hl := length_remaining_le setting.graph.maps hg.seen
    obtain ⟨hg', hf'⟩ := ih (forall_mem_cons.mp h).2
      (Nat.lt_of_le_of_lt hl hf) hrs
    refine ⟨hg.trans hg', fun element he => ?_⟩
    rcases mem_cons.mp he with rfl | he
    · exact hm _ _ _ hg' hfn
    · exact hf' element he

/-- With enough depth, a search enters the part it starts with. -/
def SearchesFully (setting : Setting) (fuel : ℕ) : Prop :=
  ∀ item reached result, (unentered setting reached).length < fuel →
    reach setting fuel reached item = .ok result →
      Grown setting reached result ∧ Found setting.graph result item

theorem SearchesFully.all (h : SearchesFully setting fuel) {parts : List Item}
    (hfl : (unentered setting reached).length < fuel)
    (hr : parts.foldlM (reach setting fuel) reached = .ok result) :
    Grown setting reached result ∧ ∀ part ∈ parts, Found setting.graph result part :=
  grown_foldlM (fun part reached => Found setting.graph reached part)
    (fun _ _ _ hg hf => hg.found hf) (fun part _ => h part) hfl hr

/-- Noting the component that a map is leaves the maps alone and has the component met. -/
theorem meet_spec (h : reached.meet setting item = .ok result) :
    result.seen = reached.seen ∧ reached.used ⊆ result.used ∧
      ∀ name, setting.componentName? item = some (.text name) → name ∈ result.used := by
  unfold Reached.meet at h
  cases hn : setting.componentName? item with
  | none =>
    rw [hn] at h
    cases h
    exact ⟨rfl, fun _ hu => hu, fun name ht => by cases ht⟩
  | some atom =>
    rw [hn] at h
    obtain ⟨text, ht, hr⟩ := of_bind_eq_ok h
    have ha : ∀ name, some atom = some (.text name) → name = text := by
      intro name hs
      rw [eq_text_of_entryName ht] at hs
      cases hs
      rfl
    split at hr
    · rename_i hu
      cases hr
      refine ⟨rfl, fun _ hn => hn, fun name hs => ?_⟩
      rw [ha name hs]
      simpa using hu
    · cases hr
      refine ⟨rfl, subset_append_left _ _, fun name hs => ?_⟩
      rw [ha name hs]
      simp

theorem mem_maps {graph : Graph} (h : graph.isMap (.node id)) : id ∈ graph.maps := by
  refine mem_filter.mpr ⟨mem_range.mpr ?_, h⟩
  by_contra hl
  have hn : graph.nodes[id]? = none := Array.getElem?_eq_none (Nat.le_of_not_lt hl)
  simp [Graph.isMap, Graph.map?, Graph.node?, hn] at h

/-- A map that has not been entered is met, and then the search goes on with all its parts. -/
theorem SearchesFully.exists_met (h : SearchesFully setting fuel)
    (hm : setting.graph.isMap (.node id)) (hnw : id ∉ reached.seen)
    (hfl : (unentered setting reached).length < fuel + 1)
    (hr : reach setting (fuel + 1) reached (.node id) = .ok result) :
    ∃ met, met.seen = id :: reached.seen ∧ reached.used ⊆ met.used ∧
      (∀ name, setting.componentName? (.node id) = some (.text name) → name ∈ met.used) ∧
      Grown setting met result ∧
        ∀ part ∈ walkedParts setting.graph (.node id), Found setting.graph result part := by
  rw [reach_node, if_neg (by simp [hm, hnw])] at hr
  obtain ⟨met, hmt, hr⟩ := of_bind_eq_ok hr
  obtain ⟨hs, hu, hn⟩ := meet_spec hmt
  have hs : met.seen = id :: reached.seen := hs
  have hl : (unentered setting met).length < fuel := by
    have hlt := length_remaining_cons_lt (mem_maps hm) hnw
    unfold unentered at hfl ⊢
    rw [hs]
    omega
  obtain ⟨hg, he⟩ := grown_foldlM
    (fun group reached => ∃ parts, group = .ok parts ∧ ∀ part ∈ parts,
      Found setting.graph reached part)
    (fun _ _ _ hg ⟨parts, hp, hf⟩ =>
      ⟨parts, hp, fun part hpr => hg.found (hf part hpr)⟩)
    (fun group _ reached result hfl hst => by
      obtain ⟨parts, hp, hst⟩ := of_bind_eq_ok hst
      obtain ⟨hg, hf⟩ := h.all hfl hst
      exact ⟨hg, parts, hp, hf⟩) hl hr
  refine ⟨met, hs, hu, hn, hg, fun part hpr => ?_⟩
  obtain ⟨group, hgr, hrd⟩ := exists_group hpr
  obtain ⟨parts, hp, hf⟩ := he group hgr
  exact hf part (hrd parts hp)

/-- A search whose depth exceeds the number of maps that have not been entered enters all. -/
theorem searchesFully (fuel : ℕ) : SearchesFully setting fuel := by
  induction fuel with
  | zero =>
    intro item reached result hfl _
    omega
  | succ fuel ih =>
    intro item reached result hfl h
    cases item with
    | atom value =>
      cases h
      exact ⟨.refl reached, fun hm => by cases hm⟩
    | node id =>
      by_cases hf : (!setting.graph.isMap (.node id) || reached.seen.contains id)
      · rw [reach_node, if_pos hf] at h
        cases h
        refine ⟨.refl reached, fun hm => ⟨id, rfl, ?_⟩⟩
        simpa [hm] using hf
      · rw [Bool.or_eq_true, not_or, Bool.not_eq_true', Bool.not_eq_false] at hf
        have hnw : id ∉ reached.seen := by simpa using hf.2
        obtain ⟨met, hs, hu, hnm, hg, hp⟩ :=
          ih.exists_met hf.1 hnw hfl h
        have hs' : reached.seen ⊆ met.seen := by
          rw [hs]
          exact subset_cons_self ..
        refine ⟨⟨fun _ ho => hg.seen (hs' ho),
          fun _ hn => hg.used (hu hn), fun other ho hnw => ?_⟩,
          fun _ => ⟨id, rfl, hg.seen (hs ▸ mem_cons_self ..)⟩⟩
        by_cases hsm : other = id
        · rw [hsm]
          exact ⟨hp, fun name hn => hg.used (hnm name hn)⟩
        · refine hg.done other ho ?_
          rw [hs]
          exact not_mem_cons_of_ne_of_not_mem hsm hnw

/-! ## Used components -/

/-- What a finished search has entered may be gone through, and meets nothing else. -/
theorem Grown.walkable (h : Grown setting ⟨[], []⟩ reached) :
    Walkable setting (Found setting.graph reached) (· ∈ reached.used) := by
  have hd : ∀ {schema}, Found setting.graph reached schema →
      setting.graph.isMap schema → Done setting reached schema := by
    intro schema hf hm
    obtain ⟨id, rfl, hsn⟩ := hf hm
    exact h.done id hsn not_mem_nil
  exact ⟨fun hs hm hp => (hd hs hm).parts _ hp,
    fun hs hm hn => (hd hs hm).named _ hn⟩

/-- Operations that lead to more parts use more components. -/
theorem usedComponents_subset {operations operations' : List Operation} {used used' : List String}
    (hs : operations ⊆ operations') (h : usedComponents setting operations = .ok used)
    (h' : usedComponents setting operations' = .ok used') : used ⊆ used' := by
  obtain ⟨reached, hrc, hu⟩ := of_bind_eq_ok h'
  cases hu
  have hf : (unentered setting ⟨[], []⟩).length < setting.graph.maps.length + 1 :=
    Nat.lt_succ_of_le (length_remaining_le_length setting.graph.maps [])
  obtain ⟨hg, hrt⟩ := (searchesFully _).all hf hrc
  refine hg.walkable.of_mem_used (fun root hr => hrt root ?_) h
  obtain ⟨operation, ho, hr⟩ := mem_flatMap.mp hr
  exact mem_flatMap.mpr ⟨operation, hs ho, hr⟩

end

end ApiSchema.OpenApi
