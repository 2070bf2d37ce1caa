/-
# Recursive documents

Data in a document may contain itself. Conversion ends all the same if every cycle of schemas, each
of them described inside the one before, passes through a component, for components are referred to.
What is in the queue is bounded by the names of components, and the search for components enters no
map twice, so both end in every document.
-/
import ApiSchema.Proofs.OpenApi.Untouched

namespace ApiSchema.OpenApi

open List

open Relation (TransGen)

variable {α β : Type} {setting : Setting} {item : Item} {pre : Progress → Prop}

/-! ## Steps that end -/

/-- From no state with `pre` the step runs out of depth. -/
def Ends (pre : Progress → Prop) (step : Builder α) : Prop :=
  ∀ start, pre start → step.run start ≠ .error .endless

theorem ends_pure {result : α} : Ends pre (pure result : Builder α) := fun _ _ => nofun

theorem ends_modify {change : Progress → Progress} : Ends pre (modify change : Builder Unit) :=
  fun _ _ => nofun

/-- Tame reading ends. -/
theorem ends_lift {attempt : Reading α} (h : Tame attempt) :
    Ends pre (liftM attempt : Builder α) := by
  intro start _
  cases attempt with
  | error fault => exact fun hr => h (congrArg Except.error (Except.error.inj hr))
  | ok value => exact nofun

/-- Steps that end, one after the other, end. -/
theorem Ends.bind {step : Builder α} {next : α → Builder β} {middle : α → Progress → Prop}
    (h : Ends pre step) (hp : Ensures pre step middle)
    (hn : ∀ result, Ends (middle result) (next result)) : Ends pre (step >>= next) := by
  intro start hst hr
  rw [StateT.run_bind] at hr
  cases hs : step.run start with
  | error fault =>
    rw [hs] at hr
    exact h start hst (hs.trans (congrArg Except.error (Except.error.inj hr)))
  | ok pair =>
    rw [hs] at hr
    exact hn pair.1 pair.2 (hp start pair.1 pair.2 hst hs) hr

/-- Steps that end in any case. -/
def Calm (step : Builder α) : Prop := Ends (fun _ => True) step

theorem Calm.bind {step : Builder α} {next : α → Builder β} (h : Calm step)
    (hn : ∀ result, Calm (next result)) : Calm (step >>= next) :=
  Ends.bind h (fun _ _ _ _ _ => trivial) hn

/-- A calm step ends from every state. -/
theorem Calm.ends {step : Builder α} (h : Calm step) : Ends pre step :=
  fun start _ => h start trivial

theorem calm_get_bind {next : Progress → Builder α} (h : ∀ current, Calm (next current)) :
    Calm (get >>= next) := fun start _ => h start start trivial

theorem calm_forM {step : α → Builder PUnit} {elements : List α}
    (h : ∀ element ∈ elements, Calm (step element)) : Calm (elements.forM step) := by
  induction elements with
  | nil => exact ends_pure
  | cons first rest ih =>
    exact (h first (mem_cons_self ..)).bind fun _ =>
      ih (forall_mem_cons.mp h).2

/-! ## Conversion -/

/-- A map that is described wherever it stands, since it is no component. -/
def IsInline (setting : Setting) (item : Item) : Prop :=
  setting.graph.isMap item = true ∧ setting.componentName? item = none

/-- The second schema is described inside the first one, and neither is a component. -/
def Unfolds (setting : Setting) (outer inner : Item) : Prop :=
  IsInline setting outer ∧ inner ∈ describedParts setting.graph outer ∧ IsInline setting inner

/-- Every cycle of schemas, each of them described inside the one before, passes through a
component. -/
def Guarded (setting : Setting) : Prop := ∀ item, ¬ TransGen (Unfolds setting) item item

/-- A step ends if the conversions end that it is composed of. -/
theorem Composed.calm {parts : List Item} {made : List (Item × Schema) → α → Prop}
    {step : Converter → Builder α} {convert : Converter} (h : Composed parts made step)
    (hp : ∀ part ∈ parts, Calm (convert part)) : Calm (step convert) := by
  induction h with
  | fail hf => exact fun _ _ hr => hf (Except.error.inj hr)
  | done _ => exact ends_pure
  | ask hpr _ ih => exact (hp _ hpr).bind ih
  | warn _ ih => exact Calm.bind ends_modify fun _ => ih

theorem calm_refer (name : Atom) : Calm (refer name) := by
  refine Calm.bind (ends_lift ?_) fun text => Calm.bind ends_modify fun _ => ends_pure
  cases name <;> exact nofun

/-- A part is converted without running out of depth, if the depth exceeds the number of maps that
have not been entered, and the maps that have been entered unfold to the part. -/
theorem Guarded.calm_convert (h : Guarded setting) (fuel : ℕ) : ∀ (entered : List ℕ) (item : Item),
    (remaining setting.graph.maps entered).length < fuel →
    (IsInline setting item → ∀ id ∈ entered, TransGen (Unfolds setting) (.node id) item) →
      Calm (convert setting fuel none item) := by
  induction fuel with
  | zero => exact fun _ _ hf => absurd hf (Nat.not_lt_zero _)
  | succ fuel ih =>
    intro entered item hf he
    rw [convert]
    split
    · exact ends_pure
    · rename_i hm
      rw [Bool.not_eq_true, Bool.not_eq_false'] at hm
      split
      · exact calm_refer _
      · rename_i hn
        have hi : IsInline setting item := ⟨hm, hn⟩
        cases item with
        | atom value => cases hm
        | node id =>
          -- A map that was entered before would unfold to itself.
          have hnw : id ∉ entered := fun hid => h _ (he hi id hid)
          have hl := length_remaining_cons_lt (mem_maps hm) hnw
          refine (describes_fullSchema setting _).calm fun part hp =>
            ih (id :: entered) part (by omega) ?_
          intro hp' other ho
          have hu : Unfolds setting (.node id) part := ⟨hi, hp, hp'⟩
          rcases mem_cons.mp ho with rfl | ho
          · exact .single hu
          · exact (he hi other ho).tail hu

/-- If recursion is guarded, every schema is made. -/
theorem Guarded.calm_schemaOf (h : Guarded setting) {current : Option String} :
    Calm (schemaOf setting current item) := by
  have hf : Calm (fullSchema setting
      (convert setting (setting.graph.maps.length + 1) none) item) := by
    refine (describes_fullSchema setting item).calm fun part _ =>
      h.calm_convert _ [] part ?_ fun _ _ hi => ?_
    · exact Nat.lt_succ_of_le (length_remaining_le_length setting.graph.maps [])
    · cases hi
  unfold schemaOf
  rw [convert]
  split
  · exact ends_pure
  · split
    · split
      · exact hf
      · exact calm_refer _
    · exact hf

/-! ## Entries -/

theorem Guarded.calm_addOperation (h : Guarded setting) {operation : Operation} :
    Calm (addOperation setting operation) := by
  have ha : ∀ base role, Calm (answerClaim setting base operation role) := by
    intro base role
    refine calm_get_bind fun current => ?_
    split
    · exact ends_pure
    · have hc : Calm (operation.conversion setting role) :=
        (operation.composed_step role).calm fun part _ => h.calm_schemaOf
      exact hc.bind fun _ => ends_modify
  have hb : Tame operation.entryBase := by
    unfold Operation.entryBase
    split <;> exact nofun
  rw [addOperation_eq]
  refine Calm.bind (ends_lift hb) fun base => ?_
  exact (ha base _).bind fun _ => (ha base _).bind fun _ => ha base _

theorem Guarded.calm_addComponent (h : Guarded setting) {name : String} :
    Calm (addComponent setting name) := by
  refine calm_get_bind fun current => ?_
  split
  · exact ends_pure
  · refine Calm.bind ends_modify fun _ => ?_
    exact h.calm_schemaOf.bind fun _ => ends_modify

/-! ## The search -/

theorem tame_foldlM {step : β → α → Reading β} {elements : List α}
    (h : ∀ element ∈ elements, ∀ state, Tame (step state element)) (state : β) :
    Tame (elements.foldlM step state) := by
  induction elements generalizing state with
  | nil => exact nofun
  | cons first rest ih =>
    exact (h first (mem_cons_self ..) state).bind fun result _ =>
      ih (forall_mem_cons.mp h).2 result

theorem tame_of_mem_walkedGroups {graph : Graph} {group : Reading (List Item)}
    (h : group ∈ walkedGroups graph item) : Tame group := by
  simp only [walkedGroups, map_cons, map_nil, cons_append, nil_append,
    mem_cons, not_mem_nil, or_false] at h
  rcases h with rfl | rfl | rfl | rfl | rfl | rfl
  all_goals refine (tame_field item _).bind fun value _ => ?_
  · rintro ⟨⟩
  · exact (tame_entriesOf value).bind fun _ _ => by rintro ⟨⟩
  · rintro ⟨⟩
  all_goals exact tame_optionalItemsOf value

variable {fuel : ℕ}

/-- The search for components ends. -/
theorem tame_reach : ∀ item reached, Tame (reach setting fuel reached item) := by
  induction fuel with
  | zero => exact fun _ _ => nofun
  | succ fuel ih =>
    intro item reached
    cases item with
    | atom value => exact nofun
    | node id =>
      rw [reach_node]
      split
      · exact nofun
      · refine Tame.bind ?_ fun met _ => tame_foldlM (fun group hg reached => ?_) met
        · unfold Reached.meet
          split
          · exact nofun
          · rename_i name _
            cases name with
            | text name =>
              rw [entryName, ok_bind]
              split <;> exact nofun
            | _ => exact nofun
        · exact (tame_of_mem_walkedGroups hg).bind fun parts _ =>
            tame_foldlM (fun part _ => ih part) reached

theorem tame_usedComponents {operations : List Operation} :
    Tame (usedComponents setting operations) :=
  (tame_foldlM (fun part _ => tame_reach part) _).bind fun _ _ => nofun

/-- Two searches over the same elements agree if their steps do, and no step forgets a map. -/
theorem foldlM_eq_of_grown {step step' : Reached → β → Reading Reached}
    {elements : List β}
    (hg : ∀ element ∈ elements, ∀ {reached result},
      (unentered setting reached).length < fuel → step reached element = .ok result →
        Grown setting reached result)
    (h : ∀ element ∈ elements, ∀ {reached}, (unentered setting reached).length < fuel →
      step' reached element = step reached element) :
    ∀ {reached}, (unentered setting reached).length < fuel →
      elements.foldlM step' reached = elements.foldlM step reached := by
  induction elements with
  | nil => exact fun _ => rfl
  | cons first rest ih =>
    intro reached hf
    rw [foldlM_cons, h first (mem_cons_self ..) hf]
    refine bind_congr_of_ok fun middle hm => ?_
    have hl := length_remaining_le setting.graph.maps
      (hg first (mem_cons_self ..) hf hm).seen
    exact ih (forall_mem_cons.mp hg).2
      (forall_mem_cons.mp h).2 (Nat.lt_of_le_of_lt hl hf)

/-- More depth than the number of maps that have not been entered finds nothing else. -/
theorem reach_add {more : ℕ} : ∀ (item : Item) {reached : Reached},
    (unentered setting reached).length < fuel →
      reach setting (fuel + more) reached item = reach setting fuel reached item := by
  induction fuel with
  | zero => exact fun _ _ hf => absurd hf (Nat.not_lt_zero _)
  | succ fuel ih =>
    intro item reached hf
    cases item with
    | atom value => simp only [Nat.succ_add, reach]
    | node id =>
      rw [Nat.succ_add, reach_node, reach_node]
      split
      · rfl
      · rename_i hn
        rw [Bool.or_eq_true, not_or, Bool.not_eq_true', Bool.not_eq_false] at hn
        refine bind_congr_of_ok fun met hm => ?_
        have hl := length_remaining_cons_lt (mem_maps hn.1) (by simpa using hn.2)
        have hm : (unentered setting met).length < fuel := by
          have hs : met.seen = id :: reached.seen := (meet_spec hm).1
          unfold unentered at hf ⊢
          rw [hs]
          omega
        refine foldlM_eq_of_grown (fun group _ reached result hf hr => ?_)
          (fun group _ reached hf => bind_congr_of_ok fun parts _ => ?_) hm
        · obtain ⟨parts, -, hr⟩ := of_bind_eq_ok hr
          exact ((searchesFully fuel).all hf hr).1
        · exact foldlM_eq_of_grown (fun part _ _ _ hf hr =>
            ((searchesFully fuel) part _ _ hf hr).1) (fun part _ => ih part) hf

/-! ## The queue -/

/-- The names of components. -/
def componentNames (setting : Setting) : List String :=
  setting.components.filterMap (·.1.text?)

theorem mem_componentNames {name : String} (h : IsComponentName setting name) :
    name ∈ componentNames setting := by
  obtain ⟨item, hn⟩ := h
  obtain ⟨component, hc, hk⟩ := mem_map.mp (Setting.mem_names_of_componentName? hn)
  exact mem_filterMap.mpr ⟨component, hc, by rw [hk]; rfl⟩

theorem kept_true (operations : List Operation) :
    Kept setting operations (fun _ => True) fun _ _ => True := by
  constructor <;> intros <;> trivial

/-- The queue holds components, none of them twice, and those that are done will not be queued
again. -/
structure Draining (setting : Setting) (done : List String) (progress : Progress) : Prop where
  nodup : progress.pending.Nodup
  named : ∀ name ∈ progress.pending, IsComponentName setting name
  done : ∀ name ∈ done, name ∈ progress.taken ∧ name ∉ progress.pending

namespace Draining

variable {done : List String} {progress : Progress} {name : String}

theorem warn (h : Draining setting done progress) (text : String) :
    Draining setting done (progress.warn text) := by
  obtain ⟨-, ht, hp⟩ := progress.warn_fields text
  exact ⟨hp ▸ h.nodup, hp ▸ h.named, ht ▸ hp ▸ h.done⟩

theorem ensure (h : Draining setting done progress) (hn : IsComponentName setting name) :
    Draining setting done (progress.ensure name) := by
  unfold Progress.ensure
  split
  · exact h
  · rename_i hf
    simp only [Bool.or_eq_true, contains_eq_mem, decide_eq_true_eq, not_or] at hf
    constructor
    · exact h.nodup.append (nodup_singleton _) (by simpa using hf.2)
    · exact forall_mem_concat h.named hn
    · intro other ho
      refine ⟨(h.done other ho).1, fun hp => ?_⟩
      rcases mem_append.mp hp with hp | hp
      · exact (h.done other ho).2 hp
      · exact hf.1 (mem_singleton.mp hp ▸ (h.done other ho).1)

/-- A name that is not in the queue is done when it is taken. -/
theorem take {done' : List String} (h : Draining setting done progress)
    (hd : ∀ other ∈ done', other ∈ done ∨ other = name ∧ name ∉ progress.pending) :
    Draining setting done' (progress.take name) := by
  obtain ⟨-, hp⟩ := progress.take_entries name
  refine ⟨hp ▸ h.nodup, hp ▸ h.named, fun other ho => ?_⟩
  rw [hp, progress.mem_taken_take]
  rcases hd other ho with ho | ⟨rfl, hn⟩
  · exact ⟨Or.inl (h.done other ho).1, (h.done other ho).2⟩
  · exact ⟨Or.inr rfl, hn⟩

theorem add (h : Draining setting done progress) (schema : Schema) (category : Category) :
    Draining setting done (progress.add name schema category) := by
  obtain ⟨hnd, hn, hd⟩ := @take _ _ _ name _ h fun _ => Or.inl
  exact ⟨hnd, hn, hd⟩

/-- Conversions leave what is done. -/
theorem ensures_quiet {step : Builder α} (h : Quiet setting step) :
    Ensures (Draining setting done) step fun _ => Draining setting done :=
  h.keeps (fun _ text hs => hs.warn text) fun _ _ hn hs => hs.ensure hn

/-- A component that is not in the queue is done once its entry is there. -/
theorem ensures_addComponent (done done' : List String) (name : String) :
    Ensures (fun progress => Draining setting done progress ∧ ∀ other ∈ done',
        other ∈ done ∨ other = name ∧ name ∉ progress.pending)
      (addComponent setting name) fun _ => Draining setting done' := by
  refine ensures_get_bind fun current => ?_
  split
  · rename_i ht
    refine ensures_pure fun progress hs => ?_
    obtain ⟨rfl, hs, hd⟩ := hs
    refine ⟨hs.nodup, hs.named, fun other ho => ?_⟩
    rcases hd other ho with ho | ⟨rfl, hn⟩
    · exact hs.done other ho
    · exact ⟨by simpa using ht, hn⟩
  · have htk : Ensures (fun progress => progress = current ∧ Draining setting done progress ∧
        ∀ other ∈ done', other ∈ done ∨ other = name ∧ name ∉ progress.pending)
        (modify (·.take name) : Builder Unit) fun _ => Draining setting done' :=
      ensures_modify fun progress hs => hs.2.1.take hs.2.2
    refine ensures_bind htk fun _ => ?_
    refine ensures_bind (ensures_quiet (quiet_schemaOf _ _)) fun schema => ?_
    exact ensures_modify fun progress hs => hs.add schema _

theorem ensures_addOperation (operation : Operation) : Ensures (Draining setting done)
    (addOperation setting operation) fun _ => Draining setting done := by
  have ha : ∀ base role, Ensures (Draining setting done)
      (answerClaim setting base operation role) fun _ => Draining setting done := by
    intro base role
    refine ensures_get_bind fun current => ?_
    split
    · exact ensures_pure fun _ hs => hs.2
    · refine ensures_bind ((ensures_quiet (operation.quiet_conversion role)).consequence
        (fun _ hs => hs.2) fun _ _ h => h) fun schema => ?_
      exact ensures_modify fun progress hs => hs.add schema _
  rw [addOperation_eq]
  refine ensures_lift_bind fun base _ => ?_
  refine ensures_bind (ha base _) fun _ => ?_
  exact ensures_bind (ha base _) fun _ => ha base _

/-- The queue is emptied in as many rounds as there are components that are not done. -/
theorem ends_addPending (h : Guarded setting) (fuel : ℕ) : ∀ {done : List String},
    (remaining (componentNames setting) done).length ≤ fuel →
      Ends (Draining setting done) (addPending setting fuel) := by
  have hop : ∀ {done : List String} {progress : Progress} {name : String},
      Draining setting done progress → name ∈ progress.pending →
        name ∈ componentNames setting ∧ name ∉ done := fun hst hn =>
    ⟨mem_componentNames (hst.named _ hn), fun hd => (hst.done _ hd).2 hn⟩
  induction fuel with
  | zero =>
    intro done hf start hs
    rw [addPending, run_get_bind, if_pos]
    · rintro ⟨⟩
    · rw [List.isEmpty_iff, List.eq_nil_iff_forall_not_mem]
      intro name hn
      obtain ⟨hm, hnw⟩ := hop hs hn
      have hl := length_remaining_cons_lt hm hnw
      omega
  | succ fuel ih =>
    intro done hf start hs
    rw [addPending, run_get_bind]
    split
    · rintro ⟨⟩
    · rename_i name rest hp
      obtain ⟨hm, hnw⟩ := hop hs (hp ▸ mem_cons_self ..)
      have hl := length_remaining_cons_lt hm hnw
      have hnd := nodup_cons.mp (hp ▸ hs.nodup)
      have hsb : rest ⊆ start.pending := hp ▸ subset_cons_self ..
      have hpp : Draining setting done { start with pending := rest } :=
        ⟨hnd.2, fun other ho => hs.named other (hsb ho), fun other ho =>
          ⟨(hs.done other ho).1, fun hr => (hs.done other ho).2 (hsb hr)⟩⟩
      have hr := h.calm_addComponent.ends.bind (ensures_addComponent done (name :: done) name)
        fun _ => ih (by omega)
      refine hr _ ⟨hpp, fun other ho => ?_⟩
      exact (mem_cons.mp ho).symm.imp_right fun ho => ⟨ho, hnd.1⟩

/-- Nothing is done yet in a state with an empty queue. -/
theorem of_pending_eq_nil (h : progress.pending = []) : Draining setting [] progress :=
  ⟨h ▸ nodup_nil, h ▸ nofun, nofun⟩

/-- If recursion is guarded, all entries are made. -/
theorem ends_addAll (h : Guarded setting) {operations : List Operation} :
    Ends (Draining setting []) (addAll setting operations) := by
  have hl : (remaining (componentNames setting) []).length ≤ setting.components.length + 1 :=
    Nat.le_trans (length_remaining_le_length _ _)
      (Nat.le_succ_of_le (length_filterMap_le _ _))
  have hp := ends_addPending h _ hl
  have he : Ensures (Draining setting []) (addPending setting (setting.components.length + 1))
      fun _ => Draining setting [] :=
    (@Kept.ensures_addPending _ _ _ _ (fun _ => []) (kept_true operations) _).consequence
      (fun _ _ => trivial)
      fun _ _ hs => of_pending_eq_nil hs.2
  refine Ends.bind (ends_lift tame_usedComponents) (ensures_lift fun _ _ _ hs => hs)
    fun used => ?_
  refine (calm_forM fun name _ => h.calm_addComponent).ends.bind
    (ensures_forM used fun name _ => ?_) fun _ => ?_
  · exact (ensures_addComponent [] [] name).consequence (fun _ hs => ⟨hs, nofun⟩)
      fun _ _ hs => hs
  · refine hp.bind he fun _ => ?_
    refine (calm_forM fun operation _ => h.calm_addOperation).ends.bind
      (ensures_forM operations fun operation _ => ensures_addOperation operation) fun _ => hp

end Draining

/-! ## Catalogs -/

theorem tame_setting_of {graph : Graph} : Tame (Setting.of graph) := by
  rw [setting_of_eq]
  split
  · split
    · exact nofun
    · split
      · exact (tame_entriesOf (componentsItem graph)).bind fun _ _ => nofun
      · exact nofun
  · exact nofun

theorem tame_selectOperations {ids : Option (List String)} {operations : List Operation} :
    Tame (selectOperations ids operations) := by
  have hax : ∀ {attempt : Operation → Reading Bool}, (∀ operation, Tame (attempt operation)) →
      ∀ before, Tame (operations.filterAuxM attempt before) := by
    intro attempt ha
    induction operations with
    | nil => rintro _ ⟨⟩
    | cons first rest ih =>
      intro before
      exact (ha first).bind fun chosen _ => ih _
  cases ids with
  | none => rintro ⟨⟩
  | some ids =>
    refine (hax (fun operation => tame_keyOf.bind fun key _ => ?_) []).bind
      fun _ _ => by rintro ⟨⟩
    cases key <;> rintro ⟨⟩

/-- If every cycle of schemas passes through a component, a catalog is made or refused for something
that is malformed, and the search for components would find nothing else with more depth. -/
theorem catalog_ends_of_guarded {graph : Graph}
    (h : ∀ setting, Setting.of graph = .ok setting → Guarded setting)
    (operations : List Operation) (ids : Option (List String)) :
    catalog graph operations ids ≠ .error .endless ∧
      ∀ setting, Setting.of graph = .ok setting → ∀ more,
        (operations.flatMap (·.schemas setting.graph)).foldlM
            (reach setting (setting.graph.maps.length + 1 + more)) ⟨[], []⟩ =
          (operations.flatMap (·.schemas setting.graph)).foldlM
            (reach setting (setting.graph.maps.length + 1)) ⟨[], []⟩ := by
  constructor
  · refine tame_selectOperations.bind fun chosen _ => ?_
    refine tame_setting_of.bind fun setting hs => ?_
    refine Tame.bind ?_ fun _ _ => nofun
    exact Draining.ends_addAll (h setting hs) _ (.of_pending_eq_nil rfl)
  · intro setting _ more
    exact foldlM_eq_of_grown
      (fun part _ _ _ hf hr => (searchesFully _ part _ _ hf hr).1)
      (fun part _ => reach_add part)
      (Nat.lt_succ_of_le (length_remaining_le_length setting.graph.maps []))

/-! ## Trees -/

/-- The number of a node. -/
def number : Item → ℕ
  | .node id => id
  | .atom _ => 0

/-- A document with a component for trees. The children of a tree are a list of objects, each with a
tree and a label. -/
def treeSetting : Setting where
  graph := {
    nodes := #[.map [(.text "type", .text "string")],
      .map [(.text "tree", .node 5), (.text "label", .node 0)],
      .map [(.text "type", .text "object"), (.text "properties", .node 1)],
      .map [(.text "type", .text "array"), (.text "items", .node 2)],
      .map [(.text "children", .node 3)],
      .map [(.text "type", .text "object"), (.text "properties", .node 4)],
      .map [(.text "Tree", .node 5)],
      .map [(.text "schemas", .node 6)],
      .map [(.text "components", .node 7)]]
    root := .node 8 }
  components := [(.text "Tree", .node 5)]

/-- Inside the children, everything but trees has a smaller number. -/
theorem guarded_treeSetting : Guarded treeSetting := by
  refine not_transGen_of_rank number ?_
  rintro outer inner ⟨⟨hm, -⟩, hp, -, hn⟩
  have hs : ∀ id ∈ treeSetting.graph.maps,
      ∀ part ∈ describedParts treeSetting.graph (.node id),
        treeSetting.componentName? part = none → number part < id := by decide +kernel
  cases outer with
  | atom value => cases hm
  | node id => exact hs id (mem_maps hm) inner hp hn

/-- The children of a tree and the tree have entries. -/
theorem catalog_treeSetting_ends : Setting.of treeSetting.graph = .ok treeSetting ∧
      catalog treeSetting.graph
        [⟨.text "listChildren", "get", .text "/", .null, .node 3, [], []⟩] none ≠
          .error .endless := by
  have hs : Setting.of treeSetting.graph = .ok treeSetting := rfl
  refine ⟨hs, (catalog_ends_of_guarded (fun setting h => ?_) _ _).1⟩
  cases hs.symm.trans h
  exact guarded_treeSetting

/-- A document with a component that is the map of properties of a schema inside it, and an
operation that responds with this schema. -/
def childGraph : Graph where
  nodes := #[.map [(.text "child", .node 1)],
    .map [(.text "type", .text "object"), (.text "properties", .node 0)],
    .map [(.text "C", .node 0)],
    .map [(.text "schemas", .node 2)],
    .map [(.text "schema", .node 1)],
    .map [(.text "application/json", .node 4)],
    .map [(.text "content", .node 5)],
    .map [(.text "200", .node 6)],
    .map [(.text "operationId", .text "getPets"), (.text "responses", .node 7)],
    .map [(.text "get", .node 8)],
    .map [(.text "/pets", .node 9)],
    .map [(.text "paths", .node 10), (.text "components", .node 3)]]
  root := .node 11

/-- A cycle may pass through a component and yet never be cut there, if the component does not stand
as a schema: in this document, nothing but the component contains itself. -/
theorem component_of_properties_is_endless :
    Setting.of childGraph = .ok ⟨childGraph, [(.text "C", .node 0)]⟩ ∧
      (∀ item, ¬ TransGen (fun outer inner => outer ≠ .node 0 ∧ childGraph.Contains outer inner)
        item item) ∧
      (operations childGraph >>= (catalog childGraph · none)) = .error .endless := by
  have hs : ∀ id < 12, id ≠ 0 → ∀ part ∈ ((childGraph.node? (.node id)).map
      (·.contents)).getD [], number part < id := by decide +kernel
  refine ⟨rfl, not_transGen_of_rank number ?_, ?_⟩
  · rintro outer inner ⟨ho, node, hn, hi⟩
    cases outer with
    | atom value => cases hn
    | node id =>
      have hid : id < 12 := (Array.getElem?_eq_some_iff.mp hn).1
      refine hs id hid (fun hz => ho (congrArg _ hz)) inner ?_
      rw [hn]
      exact hi
  · have hf : (match operations childGraph >>= (catalog childGraph · none) with
        | .error .endless => true
        | _ => false) = true := by decide +kernel
    generalize operations childGraph >>= (catalog childGraph · none) = outcome at hf ⊢
    split at hf
    · rfl
    · cases hf

end ApiSchema.OpenApi
