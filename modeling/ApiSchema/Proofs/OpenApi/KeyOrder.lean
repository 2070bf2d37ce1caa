/-
# References and the order of keys

Whether the order of keys matters when references are replaced. Pointers are looked up in the
document while it is being written to, so it can: if a pointer steps through a reference, what it
finds depends on whether that reference has been replaced before. It does not matter if no pointer
steps through a reference and no reference under the key of pointers leads to a text: then the
references of a document and of a reordered one can be replaced or not alike, and the results are
the same up to the order of keys.
-/
import ApiSchema.Proofs.OpenApi.Outcome
import ApiSchema.Proofs.Rearranged

namespace ApiSchema.OpenApi

open List Option

open ApiSchema.Graph

variable {R : ℕ → ℕ → Prop} {graph graph' : Graph} {item item' part : Item} {pointer : String}

/-! ## Pointers in rearranged documents -/

section

variable {result result' : Graph} (h : Rearranged R graph graph')

include h

section

variable (hitem : Item.Matches R item item')
include hitem

theorem pointer?_of_rearranged
    (hp : pointer? graph item = some pointer) : pointer? graph' item' = some pointer := by
  obtain ⟨inner, hi, ht⟩ := bind_eq_some_iff.mp hp
  obtain ⟨inner', hi', hm⟩ := h.exists_get? hitem hi
  have he : inner.text? = inner'.text? := by cases hm <;> rfl
  rw [he] at ht
  exact bind_eq_some_iff.mpr ⟨inner', hi', ht⟩

theorem pointer?_eq_of_rearranged : pointer? graph item = pointer? graph' item' :=
  Option.ext fun _ => ⟨pointer?_of_rearranged h hitem, pointer?_of_rearranged h.symm hitem.symm⟩

/-- A step along a pointer leads to matching items. -/
theorem exists_step_of_rearranged {token : String}
    (hst : step graph pointer item token = .ok part) :
    ∃ part', step graph' pointer item' token = .ok part' ∧ Item.Matches R part part' := by
  obtain ⟨id, k, hs, hp⟩ := (step_eq_ok_iff ..).mp hst
  obtain rfl := eq_of_slot? hs
  obtain ⟨id', rfl, hid⟩ := hitem.node_left
  obtain ⟨node, node', hn, hn', hm⟩ := h.paired.nodes id id' hid
  cases hm with
  | @list items items' hl hi =>
    -- The token names the same position in both lists.
    rw [slot?, hn] at hs
    rw [place?, hn] at hp
    obtain ⟨k', hk', hpr⟩ := map_eq_some_iff.mp hs
    obtain rfl : k' = k := (Prod.mk.inj hpr).2
    have hlt : k' < items'.length := hl ▸ (List.getElem?_eq_some_iff.mp hp).1
    have hp' : items'[k']? = some items'[k'] := List.getElem?_eq_getElem hlt
    refine ⟨items'[k'], (step_eq_ok_iff ..).mpr ⟨id', k', ?_, ?_⟩, hi k' _ _ hp hp'⟩
    · rw [slot?, hn']
      exact map_eq_some_iff.mpr ⟨k', hk', rfl⟩
    · rw [place?, hn']
      exact hp'
  | @map entries entries' hnd hk hi =>
    have hpa := (get?_eq_some_iff hn token part).mpr ⟨id, k, hs, hp⟩
    obtain ⟨part', hp', hm⟩ := h.exists_get? (.node hid) hpa
    have hr := (get?_eq_some_iff hn' token part').mp hp'
    exact ⟨part', (step_eq_ok_iff ..).mpr hr, hm⟩

/-- Tokens lead to matching items. -/
theorem exists_foldlM_of_rearranged {tokens : List String}
    (hf : tokens.foldlM (step graph pointer) item = .ok part) :
    ∃ part', tokens.foldlM (step graph' pointer) item' = .ok part' ∧ Item.Matches R part part' := by
  induction tokens generalizing item item' with
  | nil =>
    cases hf
    exact ⟨item', rfl, hitem⟩
  | cons token rest ih =>
    rw [foldlM_cons] at hf ⊢
    obtain ⟨middle, hs, hr⟩ := of_bind_eq_ok hf
    obtain ⟨middle', hs', hm⟩ := exists_step_of_rearranged h hitem hs
    rw [hs']
    exact ih hm hr

end

/-- At the end of a pointer there are matching items. -/
theorem exists_target_of_rearranged (ht : target graph pointer = .ok part) :
    ∃ part', target graph' pointer = .ok part' ∧ Item.Matches R part part' := by
  unfold target at ht ⊢
  cases htk : pointerTokens? pointer with
  | none =>
    rw [htk] at ht
    cases ht
  | some tokens =>
    rw [htk] at ht
    exact exists_foldlM_of_rearranged h h.root ht

/-- A pointer finally leads to matching items. -/
theorem LeadsTo.exists_of_rearranged (hl : LeadsTo graph pointer part) :
    ∃ part', LeadsTo graph' pointer part' ∧ Item.Matches R part part' := by
  induction hl with
  | here ht hpl =>
    obtain ⟨part', ht', hp⟩ := exists_target_of_rearranged h ht
    exact ⟨part', .here ht' (pointer?_eq_of_rearranged h hp ▸ hpl), hp⟩
  | onward ht hn _ ih =>
    obtain ⟨item', ht', hitem⟩ := exists_target_of_rearranged h ht
    obtain ⟨part', hl', hp⟩ := ih
    exact ⟨part', .onward ht' (pointer?_of_rearranged h hitem hn) hl', hp⟩

/-- The walk comes to matching items. -/
theorem Arrives.exists_of_rearranged (ha : Arrives graph item) :
    ∃ item', Arrives graph' item' ∧ Item.Matches R item item' := by
  induction ha with
  | root => exact ⟨graph'.root, .root, h.root⟩
  | place _ hp hpl ih =>
    obtain ⟨outer', ha', ho⟩ := ih
    obtain ⟨id', rfl, hi⟩ := ho.node_left
    obtain ⟨k', item', hp', hitem⟩ := h.exists_place hi hp
    have hpl' := pointer?_eq_of_rearranged h hitem ▸ hpl
    exact ⟨item', .place ha' hp' hpl', hitem⟩
  | target _ hp hpn hl ih =>
    obtain ⟨outer', ha', ho⟩ := ih
    obtain ⟨id', rfl, hi⟩ := ho.node_left
    obtain ⟨k', item', hp', hitem⟩ := h.exists_place hi hp
    obtain ⟨part', hl', hpr⟩ := hl.exists_of_rearranged h
    exact ⟨part', .target ha' hp' (pointer?_of_rearranged h hitem hpn) hl',
      hpr⟩

/-- The walk comes to a node exactly if it comes to the one that corresponds to it. -/
theorem arrives_node_iff {id id' : ℕ} (hi : R id id') :
    Arrives graph (.node id) ↔ Arrives graph' (.node id') := by
  constructor
  · intro ha
    obtain ⟨item', ha', hitem⟩ := ha.exists_of_rearranged h
    obtain ⟨other, rfl, ho⟩ := hitem.node_left
    rwa [h.paired.right_unique id id' other hi ho]
  · intro ha
    obtain ⟨item, ha', hitem⟩ := ha.exists_of_rearranged h.symm
    obtain ⟨other, rfl, ho⟩ := hitem.node_left
    rwa [h.paired.left_unique id other id' hi ho]

/-! ## Conditions on rearranged documents -/

/-- If every reference that is reached leads somewhere, so it does in a rearranged document. -/
theorem Resolvable.of_rearranged (hr : Resolvable graph) : Resolvable graph' := by
  intro id' k' item' pointer ha' hpl' hp'
  obtain ⟨outer, ha, ho⟩ := ha'.exists_of_rearranged h.symm
  obtain ⟨id, rfl, hi⟩ := ho.node_left
  obtain ⟨k, item, hpl, hitem⟩ := h.symm.exists_place hi hpl'
  have hp := pointer?_of_rearranged h.symm hitem hp'
  obtain ⟨part, hl⟩ := hr id k item pointer ha hpl hp
  obtain ⟨part', hl', -⟩ := hl.exists_of_rearranged h
  exact ⟨part', hl'⟩

/-- If no pointer steps through a reference, none does in a rearranged document. -/
theorem NoneThroughReferences.of_rearranged
    (hc : NoneThroughReferences graph) : NoneThroughReferences graph' := by
  intro item' pointer hw' hp' tokens ht front token rest hs hf part' hpr'
  obtain ⟨item, hw, hitem⟩ := h.symm.exists_within hw'
  have hp := pointer?_of_rearranged h.symm hitem hp'
  obtain ⟨part, hpr, hm⟩ := exists_foldlM_of_rearranged h.symm h.symm.root hpr'
  rw [pointer?_eq_of_rearranged h.symm hm]
  exact hc item pointer hw hp tokens ht front token rest hs hf part
    hpr

/-- If no reference under the key of pointers leads to a text, none does in a rearranged
document. -/
theorem NoneToText.of_rearranged (ht : NoneToText graph) : NoneToText graph' := by
  intro outer' inner' pointer text hw' hi' hp' hl'
  obtain ⟨outer, hw, ho⟩ := h.symm.exists_within hw'
  obtain ⟨inner, hi, hm⟩ := h.symm.exists_get? ho hi'
  have hp := pointer?_of_rearranged h.symm hm hp'
  obtain ⟨part, hl, hpr⟩ := hl'.exists_of_rearranged h.symm
  cases hpr with
  | atom => exact ht outer inner pointer text hw hi hp hl

/-! ## Results of rearranged documents -/

/-- In corresponding places of the results stand matching items. -/
theorem Outcome.matches_places (ho : Outcome graph result)
    (ho' : Outcome graph' result') (hr : Resolvable graph) {id id' k k' : ℕ}
    (hi : R id id') {settled settled' : Item} (hpl : graph.place? id k = some item)
    (hpl' : graph'.place? id' k' = some item') (hitem : Item.Matches R item item')
    (hs : result.place? id k = some settled)
    (hs' : result'.place? id' k' = some settled') : Item.Matches R settled settled' := by
  by_cases ha : Arrives graph (.node id)
  · have ha' := (arrives_node_iff h hi).mp ha
    cases hp : pointer? graph item with
    | none =>
      have hp' := pointer?_eq_of_rearranged h hitem ▸ hp
      rw [ho.kept id k item ha hpl hp, some.injEq] at hs
      rw [ho'.kept id' k' item' ha' hpl' hp', some.injEq] at hs'
      exact hs ▸ hs' ▸ hitem
    | some pointer =>
      have hp' := pointer?_of_rearranged h hitem hp
      obtain ⟨part, hl⟩ := hr id k item pointer ha hpl hp
      obtain ⟨part', hl', hpr⟩ := hl.exists_of_rearranged h
      rw [ho.replaced id k item pointer part ha hpl hp hl,
        some.injEq] at hs
      rw [ho'.replaced id' k' item' pointer part' ha' hpl' hp' hl',
        some.injEq] at hs'
      exact hs ▸ hs' ▸ hpr
  · have ha' : ¬ Arrives graph' (.node id') := fun h' =>
      ha ((arrives_node_iff h hi).mpr h')
    rw [ho.unreached id k ha, hpl, some.injEq] at hs
    rw [ho'.unreached id' k' ha', hpl', some.injEq] at hs'
    exact hs ▸ hs' ▸ hitem

/-- The results of rearranged documents are rearranged in the same way. -/
theorem Outcome.rearranged (ho : Outcome graph result) (ho' : Outcome graph' result')
    (hr : Resolvable graph) : Rearranged R result result' := by
  refine ⟨⟨h.paired.right_unique, h.paired.left_unique, fun id id' hi => ?_⟩, ?_⟩
  · obtain ⟨node, node', hn, hn', hm⟩ := h.paired.nodes id id' hi
    obtain ⟨settled, hs, hsh⟩ := ho.shape.exists_node hn
    obtain ⟨settled', hs', hsh'⟩ := ho'.shape.exists_node hn'
    refine ⟨settled, settled', hs, hs', hm.of_shape hsh hsh' ?_⟩
    intro k k' item item' part part' hitem hi' hpr hpr' hmt
    have hp : graph.place? id k = some item := by rw [place?, hn, bind_some, hitem]
    have hp' : graph'.place? id' k' = some item' := by
      rw [place?, hn', bind_some, hi']
    have hnw : result.place? id k = some part := by rw [place?, hs, bind_some, hpr]
    have hnw' : result'.place? id' k' = some part' := by
      rw [place?, hs', bind_some, hpr']
    exact ho.matches_places h ho' hr hi hp hp' hmt hnw hnw'
  · rw [ho.shape.root, ho'.shape.root]
    exact h.root

end

/-- The order of keys does not matter if no pointer steps through a reference and no reference under
the key of pointers leads to a text: the references of a document can be replaced exactly if those
of a reordered one can, and the results correspond as the documents do. -/
theorem dereference_of_reordered {value value' : Value} (h : Value.Reordered value value')
    (hclear : NoneThroughReferences (ofValue value)) (htext : NoneToText (ofValue value)) :
    ∃ R, Rearranged R (ofValue value) (ofValue value') ∧
      ((∃ result, dereference (ofValue value) = .ok result) ↔
        ∃ result', dereference (ofValue value') = .ok result') ∧
      ∀ result result', dereference (ofValue value) = .ok result →
        dereference (ofValue value') = .ok result' → Rearranged R result result' := by
  obtain ⟨R, hR⟩ := exists_corresponds h #[] #[]
  have hR : Rearranged R (ofValue value) (ofValue value') := ⟨hR.paired, hR.item⟩
  have hc := dereference_cases hclear htext
  have hc' := dereference_cases (hclear.of_rearranged hR)
    (htext.of_rearranged hR)
  refine ⟨R, hR, ?_, ?_⟩
  · rcases hc with ⟨result, hrs, hr, -⟩ | ⟨error, he, hu⟩
    · rcases hc' with ⟨result', hr', -⟩ | ⟨_, -, hu'⟩
      · exact ⟨fun _ => ⟨result', hr'⟩, fun _ => ⟨result, hrs⟩⟩
      · exact absurd (hr.of_rearranged hR) hu'
    · rcases hc' with ⟨_, -, hrs', -⟩ | ⟨error', he', -⟩
      · exact absurd (hrs'.of_rearranged hR.symm) hu
      · rw [he, he']
        exact ⟨fun ⟨_, h⟩ => (nomatch h), fun ⟨_, h⟩ => (nomatch h)⟩
  · intro result result' hrs hr'
    rcases hc with ⟨other, hot, hr, ho⟩ | ⟨_, he, -⟩
    · rcases hc' with ⟨other', hot', -, ho'⟩ | ⟨_, he', -⟩
      · obtain rfl := Except.ok.inj (hrs.symm.trans hot)
        obtain rfl := Except.ok.inj (hr'.symm.trans hot')
        exact ho.rearranged hR ho' hr
      · exact nomatch hr'.symm.trans he'
    · exact nomatch hrs.symm.trans he

/-! ## Documents in two orders -/

/-- A map whose entries are in another order, if its values have distinct keys too. -/
theorem reordered_of_perm {entries entries' : List (Atom × Value)}
    (hn : (entries.map (·.1)).Nodup) (hp : entries.Perm entries')
    (h : ∀ entry ∈ entries, Value.Reordered entry.2 entry.2) :
    Value.Reordered (.map entries) (.map entries') := by
  refine .map hn (hp.map _) fun key value value' hv hv' => ?_
  have hs := inj_on_of_nodup_map hn hv (hp.mem_iff.mpr hv') rfl
  rw [← (Prod.mk.inj hs).2]
  exact h _ hv

theorem reordered_singleton {key : Atom} {value : Value} (h : Value.Reordered value value) :
    Value.Reordered (.map [(key, value)]) (.map [(key, value)]) := by
  refine reordered_of_perm (nodup_singleton _) (.refl _) fun entry he => ?_
  rw [mem_singleton.mp he]
  exact h

/-- A reference. -/
def reference (pointer : String) : Value := .map [(.text "$ref", .atom (.text pointer))]

theorem reordered_reference : Value.Reordered (reference pointer) (reference pointer) :=
  reordered_singleton (.atom _)

/-- A reference to a reference, and a list with a reference to a text. -/
def chainEntries : List (Atom × Value) :=
  [(.text "alias", reference "#/part"), (.text "first", reference "#/alias"),
    (.text "part", .list [reference "#/name"]), (.text "name", .atom (.text "Ada"))]

/-- The entries can stand in the opposite order. -/
theorem reordered_chainEntries :
    Value.Reordered (.map chainEntries) (.map chainEntries.reverse) := by
  refine reordered_of_perm (by decide) (reverse_perm _).symm fun entry he => ?_
  have hl : Value.Reordered (.list [reference "#/name"]) (.list [reference "#/name"]) := by
    refine .list rfl fun k item item' hitem hi' => ?_
    obtain rfl := some.inj (hitem.symm.trans hi')
    rw [mem_singleton.mp (mem_of_getElem? hitem)]
    exact reordered_reference
  simp only [chainEntries, mem_cons, not_mem_nil, or_false] at he
  rcases he with rfl | rfl | rfl | rfl
  · exact reordered_reference
  · exact reordered_reference
  · exact hl
  · exact .atom _

theorem stepsClear_of_singleton {token : String} (h : pointerTokens? pointer = some [token]) :
    StepsClear graph pointer := by
  intro tokens ht front next rest hs hf
  obtain rfl := some.inj (h.symm.trans ht)
  obtain ⟨first, front, rfl⟩ := exists_cons_of_ne_nil hf
  simp at hs

/-- No pointer of the document steps through anything. -/
theorem noneThroughReferences_chain : NoneThroughReferences (ofValue (.map chainEntries)) := by
  intro item pointer _ hp
  obtain ⟨id, rfl, hi⟩ := exists_of_pointer? hp
  match id, hi with
  | 0, _ | 1, _ | 2, _ => exact some.inj hp ▸ stepsClear_of_singleton rfl
  | 3, _ | 4, _ => cases hp

/-- The only text that a reference leads to stands in a list. -/
theorem noneToText_chain : NoneToText (ofValue (.map chainEntries)) := by
  intro outer inner pointer text _ hi hp
  obtain ⟨inside, rfl, -⟩ := exists_of_pointer? hp
  cases outer with
  | atom value => cases hi
  | node id =>
    match id with
    | 0 | 1 | 2 | 3 | 4 | _ + 5 => cases hi

/-- The keys of the chain of references in reverse order give the same graph up to this order. -/
theorem dereference_chain_reversed :
    Value.Reordered (.map chainEntries) (.map chainEntries.reverse) ∧
      NoneThroughReferences (ofValue (.map chainEntries)) ∧
      NoneToText (ofValue (.map chainEntries)) ∧
      ∃ R result result', dereference (ofValue (.map chainEntries)) = .ok result ∧
        dereference (ofValue (.map chainEntries.reverse)) = .ok result' ∧
        Rearranged R result result' := by
  obtain ⟨R, -, hi, hr⟩ := dereference_of_reordered reordered_chainEntries
    noneThroughReferences_chain noneToText_chain
  obtain ⟨result', hr'⟩ := hi.mp ⟨_, rfl⟩
  exact ⟨reordered_chainEntries, noneThroughReferences_chain, noneToText_chain, R, _, result', rfl,
    hr', hr _ result' rfl hr'⟩

/-- A reference through an alias that has a key beside its pointer: the key is lost when the alias
is replaced. -/
def detourEntries : List (Atom × Value) :=
  [(.text "alias", .map [(.text "$ref", .atom (.text "#/part")),
      (.text "inner", .map [(.text "x", .atom (.int 1))])]),
    (.text "first", reference "#/alias/inner"),
    (.text "part", .map [(.text "inner", .map [(.text "y", .atom (.int 2))])])]

/-- If a pointer steps through a reference, the order of keys matters: the reference under `first`
is replaced by the map under the alias or by the one under the part that the alias stands for. -/
theorem dereference_detour_reversed :
    Value.Reordered (.map detourEntries) (.map detourEntries.reverse) ∧
      ∃ result result', dereference (ofValue (.map detourEntries)) = .ok result ∧
        dereference (ofValue (.map detourEntries.reverse)) = .ok result' ∧
        ∀ R, ¬ Rearranged R result result' := by
  refine ⟨?_, _, _, rfl, rfl, fun R h => ?_⟩
  · refine reordered_of_perm (by decide) (reverse_perm _).symm fun entry he => ?_
    have hi : ∀ (key : Atom) (value : Atom), Value.Reordered (.map [(key, .atom value)])
        (.map [(key, .atom value)]) := fun key value => reordered_singleton (.atom value)
    simp only [detourEntries, mem_cons, not_mem_nil, or_false] at he
    rcases he with rfl | rfl | rfl
    · refine reordered_of_perm (by decide) (.refl _) fun entry he => ?_
      simp only [mem_cons, not_mem_nil, or_false] at he
      rcases he with rfl | rfl
      · exact .atom _
      · exact hi _ _
    · exact reordered_reference
    · exact reordered_singleton (hi _ _)
  · -- One of the two maps has the key `y` and the other has not.
    obtain ⟨first, hf, hm⟩ := @Rearranged.exists_get? R _ _ _ _ h h.root "first" _ rfl
    obtain ⟨inner, hi, -⟩ := @Rearranged.exists_get? R _ _ _ _ h hm "y" _ rfl
    cases hf
    cases hi

end ApiSchema.OpenApi
