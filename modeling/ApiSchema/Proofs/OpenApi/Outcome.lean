/-
# The outcome of replacing references

Which documents can have their references replaced, and what stands in each place afterwards, said
without the order in which a walk goes through the places.

The walk reaches a node through places: from a place that holds a reference it goes on to the part
to which the pointer leads. Replacing succeeds exactly if every reference in a place that is reached
leads somewhere, and then each such place holds the part to which its pointer led at the start. Two
conditions on the document make this true: no pointer steps through a reference, and no reference
under the key of pointers leads to a text. Without them what a pointer finds depends on which places
were written to before.
-/
import ApiSchema.Proofs.OpenApi.Dereference

namespace ApiSchema.OpenApi

open List Option Relation

variable {graph : Graph} {pointer : String} {error : ReferenceError} {task : Task}
  {outcome : Except ReferenceError Replacing} {final : Replacing} {part item : Item}

/-! ## Pointers that lead nowhere -/

/-- At the end of the first pointer there is a reference with the second one. -/
def Passes (graph : Graph) (pointer next : String) : Prop :=
  ∃ item, target graph pointer = .ok item ∧ pointer? graph item = some next

/-- A pointer that leads somewhere is not passed on to itself. -/
theorem LeadsTo.not_passes_self
    (h : LeadsTo graph pointer part) : ¬ TransGen (Passes graph) pointer pointer := by
  induction h with
  | here ht hp =>
    intro hl
    obtain ⟨_, ⟨item, hi, hn⟩, -⟩ := TransGen.head'_iff.mp hl
    obtain rfl := Except.ok.inj (ht.symm.trans hi)
    exact nomatch hp.symm.trans hn
  | @onward pointer next item part ht hn hr ih =>
    intro hl
    -- The loop leaves the pointer by its only way on, so it is a loop of the next pointer too.
    obtain ⟨next', ⟨item', hi', hn'⟩, hb⟩ := TransGen.head'_iff.mp hl
    obtain rfl := Except.ok.inj (ht.symm.trans hi')
    obtain rfl := some.inj (hn.symm.trans hn')
    exact ih (TransGen.tail' hb ⟨item, ht, hn⟩)

/-- A pointer from which following references fails leads nowhere. -/
theorem not_leadsTo_of_follows {start : String} {seen : List String}
    {outcome : Except ReferenceError Item} (h : Follows graph start seen item outcome) :
    ∀ error, outcome = .error error → ∀ pointer, target graph pointer = .ok item →
      (∀ earlier ∈ seen, ReflTransGen (Passes graph) earlier pointer) →
        ∀ part, ¬ LeadsTo graph pointer part := by
  induction h with
  | arrived => exact fun _ her => nomatch her
  | circular hn hs =>
    intro _ _ pointer ht he part hl
    exact hl.not_passes_self (TransGen.head' ⟨_, ht, hn⟩ (he _ hs))
  | lost hn _ hls =>
    intro _ _ pointer ht _ part hl
    obtain ⟨_, hf⟩ := (hl.of_next ht hn).exists_target
    exact nomatch hls.symm.trans hf
  | @next seen item part next outcome hn hnw hf hr ih =>
    intro error her pointer ht he part hl
    have hp : Passes graph pointer next := ⟨item, ht, hn⟩
    have hs : ∀ earlier ∈ next :: seen, ReflTransGen (Passes graph) earlier next := by
      intro earlier hm
      rcases mem_cons.mp hm with rfl | hm
      · exact ReflTransGen.refl
      · exact (he earlier hm).tail hp
    exact ih error her next hf hs part (hl.of_next ht hn)

/-- A pointer that cannot be resolved leads nowhere. -/
theorem not_leadsTo_of_resolves
    (h : Resolves graph pointer (.error error)) : ¬ LeadsTo graph pointer part := by
  cases h with
  | lost hls =>
    intro hl
    obtain ⟨_, hfn⟩ := hl.exists_target
    exact nomatch hls.symm.trans hfn
  | found ht hf =>
    refine not_leadsTo_of_follows hf error rfl pointer ht ?_ part
    intro earlier hm
    rw [mem_singleton.mp hm]

/-! ## What is reached -/

/-- The items that the walk comes to: the start of the document, what stands in a place of a node
that is reached, and for a reference in such a place the part to which its pointer leads. -/
inductive Arrives (graph : Graph) : Item → Prop
  | root : Arrives graph graph.root
  | place {id k : ℕ} {item : Item} (h : Arrives graph (.node id))
      (hplace : graph.place? id k = some item) (hplain : pointer? graph item = none) :
      Arrives graph item
  | target {id k : ℕ} {item part : Item} {pointer : String} (h : Arrives graph (.node id))
      (hplace : graph.place? id k = some item) (hpointer : pointer? graph item = some pointer)
      (hleads : LeadsTo graph pointer part) : Arrives graph part

theorem Arrives.within (h : Arrives graph item) : graph.Within item := by
  induction h with
  | root => exact ReflTransGen.refl
  | place _ hp _ ih => exact ih.place hp
  | target _ _ _ hl _ => exact hl.within

/-- Every reference in a place that is reached leads somewhere. -/
def Resolvable (graph : Graph) : Prop :=
  ∀ id k item pointer, Arrives graph (.node id) → graph.place? id k = some item →
    pointer? graph item = some pointer → ∃ part, LeadsTo graph pointer part

/-- No reference that stands under the key of pointers leads to a text. If one did, the map around
it would become a reference when it is replaced. -/
def NoneToText (graph : Graph) : Prop :=
  ∀ outer inner pointer text, graph.Within outer → graph.get? outer "$ref" = some inner →
    pointer? graph inner = some pointer → ¬ LeadsTo graph pointer (.text text)

/-! ## One step -/

/-- Replacing one more reference by the part to which it leads. -/
theorem Advanced.setAt {origin : Graph} (h : Advanced origin graph)
    (htx : NoneToText origin) {id k : ℕ}
    (hid : origin.Within (.node id)) (hi : origin.place? id k = some item)
    (hp : pointer? origin item = some pointer) (hl : LeadsTo origin pointer part) :
    Advanced origin (graph.setAt id k part) := by
  have hsh := h.shape.setAt id k part
  have hsl : (graph.setAt id k part).place? id k = some part := by
    obtain ⟨old, hold, -⟩ := h.places id k item hi
    exact graph.place?_setAt_self part hold
  refine ⟨hsh, h.places.setAt hi (Or.inr ⟨pointer, hp, hl⟩),
    fun other => Option.ext fun pointer' => ?_⟩
  · rw [← h.pointers, pointer?_eq_some_iff, pointer?_eq_some_iff, slot?_of_sameShape hsh,
      slot?_of_sameShape h.shape]
    -- Only a text that comes or goes under the key of pointers could make a difference.
    have hc : slot? origin "$ref" other = some (id, k) → part ≠ .text pointer' := by
      rintro hs rfl
      obtain rfl := eq_of_slot? hs
      refine htx (.node id) item pointer pointer' hid ?_ hp hl
      exact (get?_ref_eq_some_iff ..).mpr ⟨id, k, hs, hi⟩
    have hw : graph.place? id k ≠ some (.text pointer') ∨ part = .text pointer' := by
      by_cases hold : graph.place? id k = some (.text pointer')
      · obtain ⟨old, hold', ht⟩ := h.places.exists_origin h.shape hold
        obtain rfl := some.inj (hi.symm.trans hold')
        rcases ht with rfl | ⟨pointer'', hp'', hl'⟩
        · obtain ⟨_, hn, -⟩ := exists_of_pointer? hp
          cases hn
        · obtain rfl := some.inj (hp.symm.trans hp'')
          exact Or.inr (hl.unique hl')
      · exact Or.inl hold
    refine exists_congr fun id' => exists_congr fun k' => and_congr_right fun hs => ?_
    by_cases hsm : id' = id → k' ≠ k
    · rw [graph.place?_setAt_of_ne part hsm]
    · obtain ⟨rfl, rfl⟩ : id' = id ∧ k' = k := by
        simpa using hsm
      have hne := hc hs
      rw [hsl]
      refine ⟨fun he => absurd (some.inj he) hne, fun he => ?_⟩
      rcases hw with hw | hw
      · exact absurd he hw
      · exact absurd hw hne

/-- What holds of a document during the walk: references are replaced by the parts to which they
lead, pointers are resolved to these parts, and the nodes that are entered are reached. -/
structure Sound (origin : Graph) (state : Replacing) : Prop where
  advanced : Advanced origin state.graph
  resolved : ∀ pointer part, Assoc.get? state.resolved pointer = some part →
    LeadsTo origin pointer part
  visited : ∀ id ∈ state.visited, Arrives origin (.node id)

variable {origin : Graph} {state state' : Replacing} {id k : ℕ} {item part : Item}

theorem sound_start : Sound graph ⟨graph, [], []⟩ where
  advanced := ⟨.refl graph, .refl graph fun _ => Or.inl rfl, fun _ => rfl⟩
  resolved := by simp
  visited := by simp

/-- Entering a node that is reached. -/
theorem Sound.enter (h : Sound origin state) (hi : Arrives origin (.node id)) :
    Sound origin { state with visited := id :: state.visited } where
  advanced := h.advanced
  resolved := h.resolved
  visited := forall_mem_cons.mpr ⟨hi, h.visited⟩

theorem Sound.leadsTo_origin (h : Sound origin state) (hc : NoneThroughReferences origin)
    (hi : origin.Within item) (hp : pointer? origin item = some pointer)
    (hr : Resolves state.graph pointer (.ok part)) : LeadsTo origin pointer part :=
  h.advanced.leadsTo_origin hc (leadsTo_of_resolves hr) ⟨item, hi, hp⟩

/-- Settling a place of an entered node replaces a reference by the part to which it leads. -/
theorem Settles.sound (h : Settles state id k item (.ok (part, state')))
    (hc : NoneThroughReferences origin) (ht : NoneToText origin)
    (hs : Sound origin state) (hid : id ∈ state.visited)
    (hi : origin.place? id k = some item) :
    Sound origin state' ∧ pointer? origin part = none ∧ Arrives origin part := by
  have ha := hs.visited id hid
  have hw := ha.within.place hi
  cases h with
  | kept hpl =>
    rw [hs.advanced.pointers] at hpl
    exact ⟨hs, hpl, .place ha hi hpl⟩
  | @known pointer _ hp hk =>
    rw [hs.advanced.pointers] at hp
    have hl := hs.resolved pointer part hk
    have hadv := hs.advanced.setAt ht ha.within hi hp hl
    exact ⟨⟨hadv, hs.resolved, hs.visited⟩, hl.plain,
      .target ha hi hp hl⟩
  | @found pointer _ hp hn hr =>
    rw [hs.advanced.pointers] at hp
    have hl := hs.leadsTo_origin hc hw hp hr
    have hadv := hs.advanced.setAt ht ha.within hi hp hl
    exact ⟨⟨hadv, Assoc.forall_get?_put hs.resolved hl, hs.visited⟩, hl.plain,
      .target ha hi hp hl⟩

/-- A place that cannot be settled holds a reference that leads nowhere. -/
theorem Settles.not_resolvable
    (h : Settles state id k item (.error error)) (hc : NoneThroughReferences origin)
    (hs : Sound origin state) (hid : id ∈ state.visited)
    (hi : origin.place? id k = some item) : ¬ Resolvable origin := by
  intro hr
  have ha := hs.visited id hid
  cases h with
  | failed hp hnw hrs =>
    rw [hs.advanced.pointers] at hp
    obtain ⟨part, hl⟩ := hr id k item _ ha hi hp
    have hn := hs.advanced.leadsTo hc hl
      ⟨item, ha.within.place hi, hp⟩
    exact not_leadsTo_of_resolves hrs hn

/-! ## The whole walk -/

/-- References are replaced by the parts to which they lead all along a walk. -/
theorem carried_sound (hc : NoneThroughReferences origin) (ht : NoneToText origin) :
    Carried origin (fun _ => True) (Sound origin) (Arrives origin) where
  back _ _ _ _ := trivial
  enter := Sound.enter
  settle h hs hid hi _ _ := h.sound hc ht hs hid hi

/-- A walk that fails has come to a reference that leads nowhere. -/
theorem Walks.not_resolvable (hc : NoneThroughReferences origin) (ht : NoneToText origin)
    (h : Walks state task outcome) :
    ∀ error, outcome = .error error → Sound origin state → Partway origin state →
      task.Pending origin state → task.Reached (Arrives origin) → ¬ Resolvable origin := by
  induction h with
  | atom | again | missing | done => rintro _ ⟨⟩
  | @enter state id node outcome hnw hn hpl ih =>
    rintro error rfl hsn hpr - ha
    exact ih error rfl (hsn.enter ha) (hpr.enter id) (hpr.pending hnw hn)
      ha
  | failed hs =>
    rintro _ - hsn - hp -
    obtain ⟨ho, -⟩ := hp.2.2 _ (mem_cons_self ..)
    exact hs.not_resolvable hc hsn hp.1 ho
  | failedBelow hs hb ih =>
    rintro _ - hsn hpr hp -
    obtain ⟨ho, -⟩ := hp.2.2 _ (mem_cons_self ..)
    obtain ⟨hs', -, hf⟩ := hs.sound hc ht hsn hp.1 ho
    exact ih _ rfl hs' (hs.partway hpr hp.1) trivial hf
  | next hs hb hr _ ihrest =>
    rintro error rfl hsn hpr hp ha
    obtain ⟨ho, -⟩ := hp.2.2 _ (mem_cons_self ..)
    have hp' := hs.partway hpr hp.1
    obtain ⟨hp'', hpn', -⟩ := hs.pending_tail hb hpr hp
    obtain ⟨hs', -, hf⟩ := hs.sound hc ht hsn hp.1 ho
    obtain ⟨hs'', -⟩ := (carried_sound hc ht).clears hb _ rfl hs' hp'
      trivial hf trivial
    exact ihrest error rfl hs'' hp'' hpn' ha

/-! ## The whole document -/

/-- The result is the document with every reference that is reached replaced by the part to which
it leads. -/
structure Outcome (graph result : Graph) : Prop where
  shape : graph.SameShape result
  kept : ∀ id k item, Arrives graph (.node id) → graph.place? id k = some item →
    pointer? graph item = none → result.place? id k = some item
  replaced : ∀ id k item pointer part, Arrives graph (.node id) → graph.place? id k = some item →
    pointer? graph item = some pointer → LeadsTo graph pointer part → result.place? id k = some part
  unreached : ∀ id k, ¬ Arrives graph (.node id) → result.place? id k = graph.place? id k

/-- After the whole walk, what stands in a place of an entered node is no reference: it is what
stood there, or the part to which the reference there leads. -/
theorem exists_place_of_clears {start : Replacing}
    (hs : Sound graph final) (hc : Clears graph start final task)
    (hst : start.visited = []) (hid : id ∈ final.visited)
    (hi : graph.place? id k = some item) :
    ∃ part, final.graph.place? id k = some part ∧ Entered graph final part ∧
      (pointer? graph item = none ∧ part = item ∨
        ∃ pointer, pointer? graph item = some pointer ∧ LeadsTo graph pointer part) := by
  obtain ⟨part, hp, ht⟩ := hs.advanced.places id k item hi
  obtain ⟨hpl, he⟩ := hc.fresh id hid (by simp [hst]) k part hp
  refine ⟨part, hp, he, ?_⟩
  rcases ht with rfl | hl
  · exact Or.inl ⟨hpl, rfl⟩
  · exact Or.inr hl

theorem Entered.mem_visited
    (h : Entered graph final (.node id)) (hp : graph.place? id k = some item) :
    id ∈ final.visited := by
  rcases h id rfl with hi | hm
  · exact hi
  · rw [Graph.place?, hm] at hp
    cases hp

/-- The nodes that the whole walk has entered are those that are reached. -/
theorem entered_of_arrives (hs : Sound graph final)
    (hc : Clears graph ⟨graph, [], []⟩ final (.item graph.root)) (h : Arrives graph item) :
    Entered graph final item := by
  induction h with
  | root => exact hc.entered _ rfl
  | @place id k item ha hpl hpla ih =>
    obtain ⟨part, -, he, ⟨-, rfl⟩ | ⟨pointer, hp, -⟩⟩ :=
      exists_place_of_clears hs hc rfl (ih.mem_visited hpl) hpl
    · exact he
    · exact nomatch hpla.symm.trans hp
  | @target id k item part pointer ha hpl hp hl ih =>
    obtain ⟨part', -, he, ⟨hpla, -⟩ | ⟨pointer', hp', hl'⟩⟩ :=
      exists_place_of_clears hs hc rfl (ih.mem_visited hpl) hpl
    · exact nomatch hpla.symm.trans hp
    · obtain rfl := some.inj (hp.symm.trans hp')
      rw [hl.unique hl']
      exact he

/-- If no pointer steps through a reference and no reference under the key of pointers leads to a
text, replacing the references succeeds exactly if every one that is reached leads somewhere, and
replaces each by that part. -/
theorem dereference_cases (hcl : NoneThroughReferences graph)
    (ht : NoneToText graph) :
    (∃ result, dereference graph = .ok result ∧ Resolvable graph ∧ Outcome graph result) ∨
      ∃ error, dereference graph = .error error ∧ ¬ Resolvable graph := by
  obtain ⟨outcome, hw, ho⟩ := exists_walks_dereference
  have hst : Partway graph ⟨graph, [], []⟩ := ⟨.refl graph, fun _ _ _ => rfl⟩
  cases outcome with
  | error error =>
    exact Or.inr ⟨error, ho, hw.not_resolvable hcl ht error rfl
      sound_start hst trivial .root⟩
  | ok final =>
    obtain ⟨hs, hc⟩ := (carried_sound hcl ht).clears hw final rfl sound_start
      hst trivial .root trivial
    have he : ∀ id k item, Arrives graph (.node id) → graph.place? id k = some item →
        id ∈ final.visited := fun id k item ha hp =>
      (entered_of_arrives hs hc ha).mem_visited hp
    refine Or.inl ⟨final.graph, ho, ?_, hs.advanced.shape, ?_, ?_, ?_⟩
    · intro id k item pointer ha hp hpn
      obtain ⟨part, -, -, ⟨hpl, -⟩ | ⟨pointer', hp', hl⟩⟩ :=
        exists_place_of_clears hs hc rfl (he id k item ha hp) hp
      · exact nomatch hpl.symm.trans hpn
      · obtain rfl := some.inj (hpn.symm.trans hp')
        exact ⟨part, hl⟩
    · intro id k item ha hp hpl
      obtain ⟨part, hpa, -, ⟨-, rfl⟩ | ⟨pointer, hpn, -⟩⟩ :=
        exists_place_of_clears hs hc rfl (he id k item ha hp) hp
      · exact hpa
      · exact nomatch hpl.symm.trans hpn
    · intro id k item pointer part ha hp hpn hl
      obtain ⟨part', hpr', -, ⟨hpl, -⟩ | ⟨pointer', hp', hl'⟩⟩ :=
        exists_place_of_clears hs hc rfl (he id k item ha hp) hp
      · exact nomatch hpl.symm.trans hpn
      · obtain rfl := some.inj (hpn.symm.trans hp')
        rw [hpr', hl'.unique hl]
    · intro id k hu
      have hpr := (hw.frame final rfl hst trivial).1
      exact hpr.fresh id (fun hi => hu (hs.visited id hi)) k

end ApiSchema.OpenApi
