/-
# References replaced by their targets

After the references of a document are replaced, no part of it is a reference, and each place that
held a reference holds the very part that its pointer finally leads to.

A walk writes to the document in which it looks pointers up. What carries the argument is that a
place is written at most once, that only references are replaced, and that what takes their place is
no reference. As long as a map or a list takes the place of each reference, the same items are
references before and after a write.
-/
import Mathlib.Data.List.Induction
import ApiSchema.Proofs.Assoc
import ApiSchema.Proofs.Ensures
import ApiSchema.Proofs.OpenApi.Walk

namespace ApiSchema.OpenApi

variable {graph origin : Graph} {part item : Item} {pointer token : String}
  {state state' final : Replacing} {node : Node} {k id : ℕ} {rest : List (Item × ℕ)} {task : Task}
  {outcome : Except ReferenceError Replacing}

open List Option Relation

/-! ## Tokens and places -/

/-- The position of the place that a token names in a node. -/
def position? (token : String) : Node → Option ℕ
  | .list _ =>
    if !token.toList.isEmpty && token.toList.all Text.isDigitOfAnyScript then
      (Numeral.whole .decimal token.toList).toOption.map Int.toNat
    else none
  | .map entries => entries.findIdx? (·.1 == .text token)
  | _ => none

/-- The place that a token names in an item. -/
def slot? (graph : Graph) (token : String) : Item → Option (ℕ × ℕ)
  | .atom _ => none
  | .node id => (graph.nodes[id]?).bind fun node => (position? token node).map fun k => (id, k)

/-- Reading a map is reading the place of its key. -/
theorem get?_eq_findIdx? (entries : List (Atom × Item)) (key : Atom) : Assoc.get? entries key =
    (entries.findIdx? (·.1 == key)).bind fun k => (entries.map (·.2))[k]? := by
  induction entries with
  | nil => rfl
  | cons entry rest ih =>
    obtain ⟨first, item⟩ := entry
    rw [Assoc.get?_cons, findIdx?_cons]
    by_cases h : first == key
    · simp [h]
    · rw [ih]
      simp only [h]
      cases rest.findIdx? (·.1 == key) <;> simp

/-- Nodes of the same shape have the same positions. -/
theorem position?_of_shape {node' : Node} (h : node.shape = node'.shape) (token : String) :
    position? token node = position? token node' := by
  cases node <;> cases node' <;> simp only [Node.shape, Node.map.injEq, reduceCtorEq] at h <;>
    try rfl
  have hk := congrArg (List.map Prod.fst) h
  have hf := congrArg (List.findIdx? (· == Atom.text token)) hk
  simpa [position?, Function.comp_def] using hf

/-- Graphs of the same shape have the same places under the same tokens. -/
theorem slot?_of_sameShape {other : Graph} (h : graph.SameShape other) (token : String)
    (item : Item) : slot? other token item = slot? graph token item := by
  cases item with
  | atom value => rfl
  | node id =>
    rw [slot?, slot?]
    cases hn : graph.nodes[id]? with
    | none => rw [(h.getElem?_eq_none_iff id).mpr hn]
    | some node =>
      obtain ⟨node', hn', hs⟩ := h.exists_node hn
      rw [hn', bind_some, bind_some, position?_of_shape hs]

/-- A place that a token names is a place of the item. -/
theorem eq_of_slot? (h : slot? graph token item = some (id, k)) : item = .node id := by
  cases item with
  | atom value => cases h
  | node id' =>
    obtain ⟨node, -, hp⟩ := bind_eq_some_iff.mp h
    obtain ⟨k', -, hpr⟩ := map_eq_some_iff.mp hp
    rw [(Prod.mk.inj hpr).1]

/-- A step along a pointer reads the place that the token names. -/
theorem step_eq_ok_iff (pointer : String) (item : Item) (token : String)
    (next : Item) :
    step graph pointer item token = .ok next ↔
      ∃ id k, slot? graph token item = some (id, k) ∧ graph.place? id k = some next := by
  cases item with
  | atom value => simp [step, slot?, Graph.node?]
  | node id =>
    rw [step, slot?, Graph.node?]
    cases hn : graph.nodes[id]? with
    | none => simp
    | some node =>
      cases node with
      | list items =>
        simp only [position?]
        split
        · cases hnm : Numeral.whole .decimal token.toList with
          | error fault => simp [Except.toOption]
          | ok number =>
            cases hi : items[number.toNat]? <;>
              simp [Except.toOption, Graph.place?, hn, Node.places, hi]
        · simp
      | map entries =>
        simp only [bind_some, position?, get?_eq_findIdx?]
        cases hf : entries.findIdx? (·.1 == .text token) with
        | none => simp
        | some k =>
          cases hi : (entries.map (·.2))[k]? <;>
            simp [Graph.place?, hn, Node.places, hi, -getElem?_map]
      | tuple items => simp [position?]
      | set members => simp [position?]

theorem position?_ref_list (items : List Item) : position? "$ref" (.list items) = none := by
  rfl

/-- What a map has under a key stands in the place that the key names. -/
theorem get?_eq_some_iff {entries : List (Atom × Item)}
    (h : graph.nodes[id]? = some (.map entries)) (token : String) (inner : Item) :
    graph.get? (.node id) token = some inner ↔
      ∃ id' k, slot? graph token (.node id) = some (id', k) ∧ graph.place? id' k = some inner := by
  rw [Graph.get?, Graph.map?, Graph.node?, slot?, h]
  simp only [bind_some, position?, get?_eq_findIdx?]
  cases hf : entries.findIdx? (·.1 == .text token) with
  | none => simp
  | some k => simp [Graph.place?, h, Node.places]

/-- What a map has under the key of pointers stands in the place of that key. -/
theorem get?_ref_eq_some_iff (item inner : Item) :
    graph.get? item "$ref" = some inner ↔
      ∃ id k, slot? graph "$ref" item = some (id, k) ∧ graph.place? id k = some inner := by
  cases item with
  | atom value => simp [slot?, Graph.get?, Graph.map?, Graph.node?]
  | node id =>
    cases hn : graph.nodes[id]? with
    | none => simp [slot?, Graph.get?, Graph.map?, Graph.node?, hn]
    | some node =>
      cases node with
      | map entries => exact get?_eq_some_iff hn "$ref" inner
      | list items =>
        simp [slot?, Graph.get?, Graph.map?, Graph.node?, hn, position?_ref_list]
      | tuple items | set items =>
        simp [slot?, Graph.get?, Graph.map?, Graph.node?, hn, position?]

/-- The pointer of a reference is the text in one of its places. -/
theorem pointer?_eq_some_iff (item : Item) (pointer : String) :
    pointer? graph item = some pointer ↔ ∃ id k, slot? graph "$ref" item = some (id, k) ∧
        graph.place? id k = some (.text pointer) := by
  have ht : ∀ part : Item, part.text? = some pointer ↔ part = .text pointer := by
    intro part
    cases part with
    | atom value => cases value <;> simp [Item.text?, Item.text]
    | node id => simp [Item.text?, Item.text]
  rw [← get?_ref_eq_some_iff, pointer?, bind_eq_some_iff]
  simp only [ht, exists_eq_right]

theorem isContainer_of_pointer? (h : pointer? graph item = some pointer) :
    graph.IsContainer item := by
  obtain ⟨value, hv, -⟩ := bind_eq_some_iff.mp h
  obtain ⟨entries, he, -⟩ := bind_eq_some_iff.mp hv
  exact Or.inl ⟨entries, he⟩

theorem within_of_step {next : Item} (h : graph.Within item)
    (hst : step graph pointer item token = .ok next) : graph.Within next := by
  obtain ⟨id, k, hs, hp⟩ := (step_eq_ok_iff pointer item token next).mp hst
  obtain rfl := eq_of_slot? hs
  exact h.place hp

/-- Tokens lead to a part of the document. -/
theorem within_of_foldlM {tokens : List String}
    (h : tokens.foldlM (step graph pointer) graph.root = .ok item) : graph.Within item := by
  induction tokens using List.reverseRecOn generalizing item with
  | nil =>
    cases h
    exact ReflTransGen.refl
  | append_singleton front token ih =>
    rw [foldlM_append] at h
    obtain ⟨middle, hf, hs⟩ := of_bind_eq_ok h
    obtain ⟨last, hl, hr⟩ := of_bind_eq_ok hs
    cases hr
    exact within_of_step (ih hf) hl

theorem within_of_target (h : target graph pointer = .ok item) : graph.Within item := by
  rw [target] at h
  split at h
  · cases h
  · exact within_of_foldlM h

/-! ## Where pointers lead -/

/-- A pointer finally leads to an item: it is found at the end of the pointer, or at the end of the
aliases found there. -/
inductive LeadsTo (graph : Graph) : String → Item → Prop
  | here {pointer : String} {item : Item} (htarget : target graph pointer = .ok item)
      (h : pointer? graph item = none) : LeadsTo graph pointer item
  | onward {pointer next : String} {item part : Item} (htarget : target graph pointer = .ok item)
      (h : pointer? graph item = some next) (hrest : LeadsTo graph next part) :
      LeadsTo graph pointer part

namespace LeadsTo

variable {part' : Item}

section

variable (h : LeadsTo graph pointer part)
include h

theorem plain : pointer? graph part = none := by
  induction h with
  | here _ hp => exact hp
  | onward _ _ _ ih => exact ih

theorem within : graph.Within part := by
  induction h with
  | here ht _ => exact within_of_target ht
  | onward _ _ _ ih => exact ih

theorem exists_target : ∃ item, target graph pointer = .ok item := by
  cases h with
  | here ht | onward ht => exact ⟨_, ht⟩

theorem eq_of_plain (ht : target graph pointer = .ok item)
    (hp : pointer? graph item = none) : part = item := by
  cases h with
  | here ht' => exact Except.ok.inj (ht'.symm.trans ht)
  | onward ht' hn =>
    obtain rfl := Except.ok.inj (ht.symm.trans ht')
    exact nomatch hp.symm.trans hn

theorem of_next {next : String}
    (ht : target graph pointer = .ok item) (hn : pointer? graph item = some next) :
    LeadsTo graph next part := by
  cases h with
  | here ht' hp =>
    obtain rfl := Except.ok.inj (ht.symm.trans ht')
    exact nomatch hp.symm.trans hn
  | onward ht' hn' hr =>
    obtain rfl := Except.ok.inj (ht.symm.trans ht')
    obtain rfl := some.inj (hn.symm.trans hn')
    exact hr

/-- A pointer leads to one item only. -/
theorem unique (h' : LeadsTo graph pointer part') : part = part' := by
  induction h with
  | here ht hp => exact (h'.eq_of_plain ht hp).symm
  | onward ht hn _ ih => exact ih (h'.of_next ht hn)

end

end LeadsTo

/-- Following references ends where the pointers lead. -/
theorem leadsTo_of_follows {start : String} {seen : List String}
    {outcome : Except ReferenceError Item} (h : Follows graph start seen item outcome) :
    ∀ part, outcome = .ok part → ∀ pointer, target graph pointer = .ok item →
      LeadsTo graph pointer part := by
  induction h with
  | arrived hpl =>
    rintro part ⟨⟩ pointer ht
    exact .here ht hpl
  | circular | lost => exact fun _ hp => nomatch hp
  | next hpn _ ht _ ih =>
    intro part hp pointer hi
    exact .onward hi hpn (ih part hp _ ht)

theorem leadsTo_of_resolves (h : Resolves graph pointer (.ok part)) :
    LeadsTo graph pointer part := by
  cases h with
  | found ht hf => exact leadsTo_of_follows hf part rfl pointer ht

/-- No part that the pointer steps through, on its way from the start of the document, is a
reference. -/
def StepsClear (graph : Graph) (pointer : String) : Prop :=
  ∀ tokens, pointerTokens? pointer = some tokens → ∀ front token rest,
    tokens = front ++ token :: rest → front ≠ [] → ∀ item,
      front.foldlM (step graph pointer) graph.root = .ok item → pointer? graph item = none

/-- No pointer of a reference in the document steps through a reference. -/
def NoneThroughReferences (graph : Graph) : Prop :=
  ∀ item pointer, graph.Within item → pointer? graph item = some pointer → StepsClear graph pointer

/-! ## Partly replaced documents -/

/-- What can come into a place where an item stood: the item or, if it is a reference, the part to
which its pointer leads. -/
def TakesPlace (origin : Graph) (item part : Item) : Prop :=
  part = item ∨ ∃ pointer, pointer? origin item = some pointer ∧ LeadsTo origin pointer part

/-- The graph is the document with some references replaced by the parts to which they lead, and
this has made no item a reference that was none. -/
structure Advanced (origin graph : Graph) : Prop where
  shape : origin.SameShape graph
  places : origin.Traces (TakesPlace origin) graph
  pointers : ∀ item, pointer? graph item = pointer? origin item

namespace Advanced

theorem exists_step_origin (h : Advanced origin graph)
    (hst : step graph pointer item token = .ok part) :
    ∃ next, step origin pointer item token = .ok next ∧ TakesPlace origin next part := by
  obtain ⟨id, k, hs, hp⟩ := (step_eq_ok_iff ..).mp hst
  obtain ⟨next, hn, ht⟩ := h.places.exists_origin h.shape hp
  rw [slot?_of_sameShape h.shape] at hs
  exact ⟨next, (step_eq_ok_iff ..).mpr ⟨id, k, hs, hn⟩, ht⟩

theorem exists_step (h : Advanced origin graph) {next : Item}
    (hst : step origin pointer item token = .ok next) :
    ∃ part, step graph pointer item token = .ok part ∧ TakesPlace origin next part := by
  obtain ⟨id, k, hs, hp⟩ := (step_eq_ok_iff ..).mp hst
  obtain ⟨part, hpr, ht⟩ := h.places id k next hp
  rw [← slot?_of_sameShape h.shape] at hs
  exact ⟨part, (step_eq_ok_iff ..).mpr ⟨id, k, hs, hpr⟩, ht⟩

theorem eq_of_takesPlace (h : TakesPlace origin item part) (hpl : pointer? origin item = none) :
    part = item := by
  rcases h with rfl | ⟨pointer, hp, -⟩
  · rfl
  · exact nomatch hpl.symm.trans hp

section

variable (h : Advanced origin graph)
include h

/-- A pointer that steps through no reference leads to the same place now and at the start. -/
theorem takesPlace_foldlM (tokens : List String)
    (hc : ∀ front token rest, tokens = front ++ token :: rest → front ≠ [] → ∀ item,
      front.foldlM (step origin pointer) origin.root = .ok item → pointer? origin item = none) :
    (∀ part, tokens.foldlM (step graph pointer) graph.root = .ok part →
      ∃ item, tokens.foldlM (step origin pointer) origin.root = .ok item ∧
        TakesPlace origin item part) ∧
    ∀ item, tokens.foldlM (step origin pointer) origin.root = .ok item →
      ∃ part, tokens.foldlM (step graph pointer) graph.root = .ok part ∧
        TakesPlace origin item part := by
  -- From the end: all tokens but the last lead to the same item, which is no reference.
  induction tokens using List.reverseRecOn with
  | nil =>
    rw [h.shape.root]
    exact ⟨fun part hp => ⟨part, hp, Or.inl rfl⟩, fun item hi => ⟨item, hi, Or.inl rfl⟩⟩
  | append_singleton front token ih =>
    obtain ⟨ihback, ihforth⟩ := ih fun front' token' rest hf =>
      hc front' token' (rest ++ [token]) (by rw [hf]; simp)
    have hm : ∀ item part, front.foldlM (step origin pointer) origin.root = .ok item →
        front.foldlM (step graph pointer) graph.root = .ok part →
          TakesPlace origin item part → part = item := by
      intro item part hi hp ht
      rcases eq_nil_or_concat front with rfl | hf
      · cases hi
        cases hp
        exact h.shape.root
      · refine eq_of_takesPlace ht (hc front token [] rfl ?_ item hi)
        obtain ⟨inner, last, rfl⟩ := hf
        simp
    simp only [foldlM_append, foldlM_cons, foldlM_nil, bind_pure]
    constructor
    · intro part hp
      obtain ⟨middle, hf, hs⟩ := of_bind_eq_ok hp
      obtain ⟨item, hi, ht⟩ := ihback middle hf
      obtain rfl := hm item middle hi hf ht
      obtain ⟨next, hn, hl⟩ := h.exists_step_origin hs
      refine ⟨next, ?_, hl⟩
      rw [hi]
      exact hn
    · intro item hi
      obtain ⟨middle, hf, hs⟩ := of_bind_eq_ok hi
      obtain ⟨part, hp, ht⟩ := ihforth middle hf
      obtain rfl := hm middle part hf hp ht
      obtain ⟨next, hn, hl⟩ := h.exists_step hs
      refine ⟨next, ?_, hl⟩
      rw [hp]
      exact hn

/-- What is found at the end of a pointer now takes the place of what was found at the start. -/
theorem takesPlace_target (hc : StepsClear origin pointer) :
    (∀ part, target graph pointer = .ok part →
      ∃ item, target origin pointer = .ok item ∧ TakesPlace origin item part) ∧
    ∀ item, target origin pointer = .ok item →
      ∃ part, target graph pointer = .ok part ∧ TakesPlace origin item part := by
  unfold target
  cases ht : pointerTokens? pointer with
  | none => exact ⟨fun _ h => (nomatch h), fun _ h => (nomatch h)⟩
  | some tokens => exact h.takesPlace_foldlM tokens (hc tokens ht)

/-- Where a pointer leads to now is where it led to at the start. -/
theorem leadsTo_origin (hnn : NoneThroughReferences origin)
    (hl : LeadsTo graph pointer part) :
    (∃ item, origin.Within item ∧ pointer? origin item = some pointer) →
      LeadsTo origin pointer part := by
  induction hl with
  | here ht hpl =>
    rintro ⟨item, hi, hp⟩
    obtain ⟨old, hold, rfl | ⟨next, hn, hl⟩⟩ :=
      (h.takesPlace_target (hnn item _ hi hp)).1 _ ht
    · exact .here hold (h.pointers _ ▸ hpl)
    · exact .onward hold hn hl
  | onward ht hn hr ih =>
    rintro ⟨item, hi, hp⟩
    rw [h.pointers] at hn
    obtain ⟨old, hold, rfl | ⟨_, _, hl⟩⟩ :=
      (h.takesPlace_target (hnn item _ hi hp)).1 _ ht
    · exact .onward hold hn (ih ⟨_, within_of_target hold, hn⟩)
    · exact nomatch hl.plain.symm.trans hn

/-- Where a pointer led to at the start is where it leads to now. -/
theorem leadsTo (hnn : NoneThroughReferences origin) (hl : LeadsTo origin pointer part) :
    (∃ item, origin.Within item ∧ pointer? origin item = some pointer) →
      LeadsTo graph pointer part := by
  induction hl with
  | here ht hpl =>
    rintro ⟨item, hi, hp⟩
    obtain ⟨part, hpr, htk⟩ :=
      (h.takesPlace_target (hnn item _ hi hp)).2 _ ht
    obtain rfl := eq_of_takesPlace htk hpl
    exact .here hpr (h.pointers _ ▸ hpl)
  | onward ht hn hr ih =>
    rintro ⟨item, hi, hp⟩
    obtain ⟨part, hpr, rfl | ⟨next, hn', hl⟩⟩ :=
      (h.takesPlace_target (hnn item _ hi hp)).2 _ ht
    · refine .onward hpr ?_ (ih ⟨_, within_of_target ht, hn⟩)
      rw [h.pointers]
      exact hn
    · -- The alias has been replaced by the part it leads to.
      obtain rfl := some.inj (hn.symm.trans hn')
      obtain rfl := hr.unique hl
      exact .here hpr (h.pointers _ ▸ hl.plain)

end

end Advanced

/-- What is known of an item in the place of a reference with a pointer: it is no reference but a
part of the document, and the pointer leads to it if no pointer steps through a reference. -/
structure Answers (graph : Graph) (pointer : String) (part : Item) : Prop where
  plain : pointer? graph part = none
  within : graph.Within part
  leads : NoneThroughReferences graph → LeadsTo graph pointer part

/-- The second item stands in a place where the first one stood: it is the same, or the first one is
a reference and the second one answers it with a map or a list. -/
def StandsFor (origin : Graph) (item part : Item) : Prop :=
  part = item ∨ ∃ pointer, pointer? origin item = some pointer ∧ origin.IsContainer part ∧
      Answers origin pointer part

/-- What holds of a document during the walk, if every reference is replaced by a map or a list. -/
structure Replaced (origin : Graph) (state : Replacing) : Prop where
  shape : origin.SameShape state.graph
  places : origin.Traces (StandsFor origin) state.graph
  resolved : ∀ pointer part, Assoc.get? state.resolved pointer = some part →
    Answers origin pointer part
  visited : ∀ id ∈ state.visited, origin.Within (.node id)

namespace Replaced

variable (h : Replaced origin state)
include h

/-- The same items are references, with the same pointers, as at the start. -/
theorem pointer?_eq (item : Item) : pointer? state.graph item = pointer? origin item := by
  apply Option.ext
  intro pointer
  rw [pointer?_eq_some_iff, pointer?_eq_some_iff, slot?_of_sameShape h.shape]
  constructor
  · rintro ⟨id, k, hs, hp⟩
    obtain ⟨old, hold, rfl | ⟨_, _, hc, -⟩⟩ := h.places.exists_origin h.shape hp
    · exact ⟨id, k, hs, hold⟩
    · -- A map or a list is no text.
      simp [Item.text, Graph.IsContainer, Graph.map?, Graph.list?, Graph.node?] at hc
  · rintro ⟨id, k, hs, hp⟩
    obtain ⟨part, hpr, rfl | ⟨_, hpn, -⟩⟩ := h.places id k _ hp
    · exact ⟨id, k, hs, hpr⟩
    · -- A text is no reference.
      obtain ⟨_, ht, -⟩ := exists_of_pointer? hpn
      cases ht

/-- What is part of the document now was part of it at the start. -/
theorem within (hi : state.graph.Within item) : origin.Within item := by
  unfold Graph.Within at hi
  rw [h.shape.root] at hi
  induction hi with
  | refl => exact ReflTransGen.refl
  | tail _ hh ih =>
    obtain ⟨id, k, rfl, hp⟩ := hh
    obtain ⟨old, hold, rfl | ⟨_, _, _, ha⟩⟩ := h.places.exists_origin h.shape hp
    · exact ih.place hold
    · exact ha.within

/-- If no pointer steps through a reference, what stands in place of one is where its pointer led at
the start. -/
theorem advanced (hn : NoneThroughReferences origin) : Advanced origin state.graph where
  shape := h.shape
  places id k item hi := by
    obtain ⟨part, hpr, rfl | ⟨pointer, hp, -, ha⟩⟩ := h.places id k item hi
    · exact ⟨part, hpr, Or.inl rfl⟩
    · exact ⟨part, hpr, Or.inr ⟨pointer, hp, ha.leads hn⟩⟩
  pointers := h.pointer?_eq

theorem answers (hi : origin.Within item) (hp : pointer? origin item = some pointer)
    (hr : Resolves state.graph pointer (.ok part)) : Answers origin pointer part where
  plain := h.pointer?_eq _ ▸ (leadsTo_of_resolves hr).plain
  within := h.within (leadsTo_of_resolves hr).within
  leads hn :=
    (h.advanced hn).leadsTo_origin hn (leadsTo_of_resolves hr) ⟨item, hi, hp⟩

end Replaced

/-! ## What a walk leaves alone -/

/-- A document during the walk: nodes that have not been entered are as at the start. -/
structure Partway (origin : Graph) (state : Replacing) : Prop where
  shape : origin.SameShape state.graph
  fresh : ∀ id, id ∉ state.visited → ∀ k, state.graph.place? id k = origin.place? id k

/-- The places that are still to be settled are as at the start, and their node is entered. -/
def Task.Pending (origin : Graph) (state : Replacing) : Task → Prop
  | .item _ => True
  | .places id rest =>
    id ∈ state.visited ∧ (rest.map (·.2)).Nodup ∧
      ∀ place ∈ rest, origin.place? id place.2 = some place.1 ∧
        state.graph.place? id place.2 = some place.1

/-- The place is one that the task settles itself. -/
def Task.Touches (id k : ℕ) : Task → Prop
  | .item _ => False
  | .places id' rest => id = id' ∧ k ∈ rest.map (·.2)

theorem Settles.place?_of_ne {id' k' : ℕ}
    (h : Settles state id k item (.ok (part, state'))) (hn : id' = id → k' ≠ k) :
    state'.graph.place? id' k' = state.graph.place? id' k' := by
  cases h with
  | kept => rfl
  | known | found => exact state.graph.place?_setAt_of_ne part hn

theorem Settles.place?_self
    (h : Settles state id k item (.ok (part, state')))
    (hp : state.graph.place? id k = some item) : state'.graph.place? id k = some part := by
  cases h with
  | kept => exact hp
  | known | found => exact state.graph.place?_setAt_self part hp

/-- Settling a place of an entered node leaves the other nodes as they are. -/
theorem Settles.partway
    (h : Settles state id k item (.ok (part, state'))) (hp : Partway origin state)
    (hi : id ∈ state.visited) : Partway origin state' where
  shape := by
    cases h with
    | kept => exact hp.shape
    | known | found => exact hp.shape.setAt id k part
  fresh id' hi' k' := by
    rw [h.visited_eq.1] at hi'
    have hn : id' ≠ id := fun he => hi' (he ▸ hi)
    rw [h.place?_of_ne fun he => absurd he hn]
    exact hp.fresh id' hi' k'

/-- The places after the first are still as at the start when the first one has been settled and
walked below. -/
theorem Task.Pending.tail (h : (Task.places id ((item, k) :: rest)).Pending origin state)
    (hv : state.visited ⊆ state'.visited)
    (hpl : ∀ k' ≠ k, state'.graph.place? id k' = state.graph.place? id k') :
    (Task.places id rest).Pending origin state' := by
  obtain ⟨hi, hn, hr⟩ := h
  rw [map_cons, nodup_cons] at hn
  refine ⟨hv hi, hn.2, fun place hp => ?_⟩
  obtain ⟨ho, hs⟩ := hr place (mem_cons_of_mem _ hp)
  have hne : place.2 ≠ k := fun he => hn.1 (mem_map.mpr ⟨place, hp, he⟩)
  exact ⟨ho, (hpl place.2 hne).trans hs⟩

/-- When a node is entered for the first time, all its places are pending. -/
theorem Partway.pending (h : Partway origin state)
    (hnw : id ∉ state.visited) (hn : state.graph.nodes[id]? = some node) :
    (Task.places id node.places.zipIdx).Pending origin
      { state with visited := id :: state.visited } := by
  refine ⟨mem_cons_self .., ?_, fun place hp => ?_⟩
  · rw [zipIdx_map_snd]
    exact nodup_range'
  · have hs : state.graph.place? id place.2 = some place.1 := by
      rw [Graph.place?, hn]
      exact mem_zipIdx_iff_getElem?.mp hp
    exact ⟨(h.fresh id hnw place.2).symm.trans hs, hs⟩

theorem Partway.enter (h : Partway origin state) (id : ℕ) :
    Partway origin { state with visited := id :: state.visited } :=
  ⟨h.shape, fun id' hi' => h.fresh id' fun hm => hi' (mem_cons_of_mem _ hm)⟩

/-- A walk leaves alone the places of the nodes entered before it, other than its own places. -/
theorem Walks.frame
    (h : Walks state task outcome) :
    ∀ final, outcome = .ok final → Partway origin state → task.Pending origin state →
      Partway origin final ∧ ∀ id ∈ state.visited, ∀ k, ¬ task.Touches id k →
        final.graph.place? id k = state.graph.place? id k := by
  induction h with
  | atom | again | missing | done =>
    rintro _ ⟨⟩ hp -
    exact ⟨hp, fun _ _ _ _ => rfl⟩
  | @enter state id node outcome hn hnd hpl ih =>
    intro final hf hp _
    obtain ⟨ha, hfr⟩ := ih final hf (hp.enter id) (hp.pending hn hnd)
    refine ⟨ha, fun id' hi' k _ => hfr id' (mem_cons_of_mem _ hi') k ?_⟩
    rintro ⟨rfl, -⟩
    exact hn hi'
  | failed | failedBelow => exact fun _ hf => nomatch hf
  | @next state state' state'' id k item part rest outcome hs hb hr ihbelow ihrest =>
    intro final hf hp hpn
    have hv := hs.visited_eq.1
    have hsb := (hb.visited_subset _ rfl).1
    rw [hv] at hsb
    obtain ⟨ha, hfr⟩ := ihbelow _ rfl (hs.partway hp hpn.1) trivial
    rw [hv] at hfr
    have hpl : ∀ k' ≠ k, state''.graph.place? id k' = state.graph.place? id k' :=
      fun k' hk' =>
        (hfr id hpn.1 k' fun h => h).trans (hs.place?_of_ne fun _ => hk')
    obtain ⟨he, hf'⟩ := ihrest final hf ha (hpn.tail hsb hpl)
    refine ⟨he, fun id' hi' k' ht => ?_⟩
    have hu : ¬ (Task.places id rest).Touches id' k' :=
      fun h => ht ⟨h.1, mem_cons_of_mem _ h.2⟩
    have hne : id' = id → k' ≠ k :=
      fun hi hk => ht ⟨hi, by rw [hk]; exact mem_cons_self ..⟩
    calc final.graph.place? id' k' = state''.graph.place? id' k' :=
          hf' id' (hsb hi') k' hu
      _ = state'.graph.place? id' k' := hfr id' hi' k' fun h => h
      _ = state.graph.place? id' k' := hs.place?_of_ne hne

/-- When the first of the pending places has been settled and walked below, it holds the part that
was settled on, and the others are still pending. -/
theorem Settles.pending_tail {state'' : Replacing}
    (h : Settles state id k item (.ok (part, state')))
    (hb : Walks state' (.item part) (.ok state'')) (hpr : Partway origin state)
    (hp : (Task.places id ((item, k) :: rest)).Pending origin state) :
    Partway origin state'' ∧ (Task.places id rest).Pending origin state'' ∧
      state''.graph.place? id k = some part := by
  have hv := h.visited_eq.1
  have hs := (hb.visited_subset _ rfl).1
  obtain ⟨-, hpl⟩ := hp.2.2 _ (mem_cons_self ..)
  obtain ⟨hp'', hf⟩ := hb.frame _ rfl (h.partway hpr hp.1) trivial
  have ho : ∀ k', state''.graph.place? id k' = state'.graph.place? id k' :=
    fun k' => hf id (hv ▸ hp.1) k' fun h => h
  refine ⟨hp'', ?_, (ho k).trans (h.place?_self hpl)⟩
  exact hp.tail (hv ▸ hs) fun k' hk' =>
    (ho k').trans (h.place?_of_ne fun _ => hk')

/-! ## What a walk achieves -/

/-- A map or a list stands wherever there was a reference. -/
def ContainersForReferences (origin graph : Graph) : Prop :=
  ∀ id k item pointer part, origin.place? id k = some item → pointer? origin item = some pointer →
    graph.place? id k = some part → graph.IsContainer part

/-- If a map or a list stands for every reference after a walk, so it did before: what a walk does
not write to stays, and what it writes to was a reference. -/
theorem Walks.containersForReferences
    (h : Walks state task (.ok final)) (hp : Partway origin state)
    (hpn : task.Pending origin state) (hf : ContainersForReferences origin final.graph) :
    ContainersForReferences origin state.graph := by
  obtain ⟨he, hfr⟩ := h.frame final rfl hp hpn
  intro id k item pointer part hi hpo hpr
  have hs : final.graph.SameShape state.graph := he.shape.symm.trans hp.shape
  by_cases hkp : final.graph.place? id k = state.graph.place? id k
  · exact (hf id k item pointer part hi hpo (hkp.trans hpr)).of_sameShape hs
  · -- The reference still stands there, and a reference is a map.
    have ho : state.graph.place? id k = origin.place? id k := by
      by_cases hid : id ∈ state.visited
      · have ht : task.Touches id k := by
          by_contra hu
          exact hkp (hfr id hid k hu)
        cases task with
        | item => exact ht.elim
        | places id' rest =>
          obtain ⟨rfl, hk⟩ := ht
          obtain ⟨place, hpl, rfl⟩ := mem_map.mp hk
          obtain ⟨ho, hst⟩ := hpn.2.2 place hpl
          exact hst.trans ho.symm
      · exact hp.fresh id hid k
    obtain rfl := some.inj (hpr.symm.trans (ho.trans hi))
    exact (isContainer_of_pointer? hpo).of_sameShape hp.shape

/-- The item is an atom, a node that has been entered, or a node that is missing. -/
def Entered (origin : Graph) (state : Replacing) (item : Item) : Prop :=
  ∀ id, item = .node id → id ∈ state.visited ∨ origin.nodes[id]? = none

/-- What stands in the place is no reference, and it has been entered. -/
def Finished (origin : Graph) (state : Replacing) (id k : ℕ) : Prop :=
  ∀ part, state.graph.place? id k = some part → pointer? origin part = none ∧
    Entered origin state part

theorem Finished.mono (h : Finished origin state id k)
    (hp : state'.graph.place? id k = state.graph.place? id k)
    (hv : state.visited ⊆ state'.visited) : Finished origin state' id k := by
  intro part hpr
  obtain ⟨hpl, he⟩ := h part (hp.symm.trans hpr)
  exact ⟨hpl, fun id' hi' => (he id' hi').imp (fun hm => hv hm) fun h => h⟩

/-- Settling a place replaces a reference by a part that answers it. -/
theorem Settles.replaced
    (h : Settles state id k item (.ok (part, state'))) (hr : Replaced origin state)
    (hid : id ∈ state.visited) (ho : origin.place? id k = some item)
    (hc : ContainersForReferences origin state'.graph)
    (hpla : state'.graph.place? id k = some part) :
    Replaced origin state' ∧ pointer? origin part = none ∧ origin.Within part := by
  have hi : origin.Within item := (hr.visited id hid).place ho
  -- The three ways to settle a place differ only in where the part comes from.
  have hst : ∀ pointer resolved, pointer? origin item = some pointer →
      Answers origin pointer part →
      (∀ other value, Assoc.get? resolved other = some value → Answers origin other value) →
      state' = ⟨state.graph.setAt id k part, resolved, state.visited⟩ → Replaced origin state' := by
    rintro pointer resolved hp ha hrs rfl
    have hs := hr.shape.setAt id k part
    have hcn := hc id k item pointer part ho hp hpla
    exact ⟨hs, hr.places.setAt ho
      (Or.inr ⟨pointer, hp, hcn.of_sameShape hs.symm, ha⟩), hrs,
      hr.visited⟩
  cases h with
  | kept hpl =>
    rw [hr.pointer?_eq] at hpl
    exact ⟨hr, hpl, hi⟩
  | @known pointer _ hp hk =>
    rw [hr.pointer?_eq] at hp
    have ha := hr.resolved pointer part hk
    exact ⟨hst pointer _ hp ha hr.resolved rfl, ha.plain, ha.within⟩
  | @found pointer _ hp hn hre =>
    rw [hr.pointer?_eq] at hp
    have ha := hr.answers hi hp hre
    exact ⟨hst pointer _ hp ha (Assoc.forall_get?_put hr.resolved ha) rfl,
      ha.plain, ha.within⟩

/-- What a walk works on is reached. -/
def Task.Reached (reached : Item → Prop) : Task → Prop
  | .item part => reached part
  | .places id _ => reached (.node id)

/-- All places of the nodes that a walk has entered, and its own places, are finished. -/
structure Clears (origin : Graph) (state final : Replacing) (task : Task) : Prop where
  fresh : ∀ id ∈ final.visited, id ∉ state.visited → ∀ k, Finished origin final id k
  touched : ∀ id k, task.Touches id k → Finished origin final id k
  entered : ∀ item, task = .item item → Entered origin final item

namespace Clears

variable {state' state'' final : Replacing} {id : ℕ}

theorem of_entered (h : Entered origin state item) : Clears origin state state (.item item) where
  fresh _ hi hn := absurd hi hn
  touched _ _ ht := ht.elim
  entered := by
    rintro _ ⟨⟩
    exact h

theorem of_no_places : Clears origin state state (.places id []) where
  fresh _ hi hn := absurd hi hn
  touched := by
    rintro _ _ ⟨-, hk⟩
    cases hk
  entered := by rintro _ ⟨⟩

/-- A node has been walked below when all its places have been. -/
theorem of_places (hsh : final.graph.SameShape state.graph)
    (hn : state.graph.nodes[id]? = some node) (hi : id ∈ final.visited)
    (h : Clears origin { state with visited := id :: state.visited } final
      (.places id node.places.zipIdx)) : Clears origin state final (.item (.node id)) where
  fresh id' hi' hn' k := by
    by_cases hs : id' = id
    · subst hs
      by_cases hk : k < node.places.length
      · exact h.touched id' k ⟨rfl, by simpa [zipIdx_map_snd] using hk⟩
      · -- The node has no such place.
        intro part hp
        obtain ⟨old, hold⟩ := hsh.exists_place hp
        rw [Graph.place?, hn] at hold
        exact absurd (List.getElem?_eq_some_iff.mp hold).1 hk
    · exact h.fresh id' hi' (by simp [hs, hn']) k
  touched _ _ ht := ht.elim
  entered := by
    rintro _ ⟨⟩ _ ⟨⟩
    exact Or.inl hi

/-- The places of a node have been walked through when the first one has been settled and walked
below, and then the others have been walked through. -/
theorem next
    (hp : (Task.places id ((item, k) :: rest)).Pending origin state)
    (hv : state'.visited = state.visited) (hs : state'.visited ⊆ state''.visited)
    (hs' : state''.visited ⊆ final.visited) (hpla : pointer? origin part = none)
    (hpl : state''.graph.place? id k = some part)
    (hfr : ∀ id' ∈ state''.visited, ∀ k', ¬ (Task.places id rest).Touches id' k' →
      final.graph.place? id' k' = state''.graph.place? id' k')
    (hb : Clears origin state' state'' (.item part))
    (hr : Clears origin state'' final (.places id rest)) :
    Clears origin state final (.places id ((item, k) :: rest)) where
  fresh id' hi' hn k' := by
    by_cases hi'' : id' ∈ state''.visited
    · refine (hb.fresh id' hi'' (hv ▸ hn) k').mono (hfr id' hi'' k' ?_) hs'
      rintro ⟨rfl, -⟩
      exact hn hp.1
    · exact hr.fresh id' hi' hi'' k'
  touched := by
    rintro id' k' ⟨hi', hk'⟩
    rw [hi']
    rcases mem_cons.mp hk' with rfl | hk'
    · have hf : Finished origin state'' id k' := by
        intro part' hp'
        obtain rfl := some.inj (hpl.symm.trans hp')
        exact ⟨hpla, hb.entered _ rfl⟩
      have hnd := (nodup_cons.mp hp.2.1).1
      have hi : id ∈ state''.visited := hs (hv ▸ hp.1)
      exact hf.mono (hfr id hi k' fun h => hnd h.2) hs'
    · exact hr.touched id k' ⟨rfl, hk'⟩
  entered := by rintro _ ⟨⟩

end Clears

/-- A property of the state that entering a node and settling a place keep, as long as the document
is fine in the end; what is settled on is no reference, and it is reached. -/
structure Carried (origin : Graph) (fine : Graph → Prop) (holds : Replacing → Prop)
    (reached : Item → Prop) : Prop where
  back : ∀ {state task final}, Walks state task (.ok final) → Partway origin state →
    task.Pending origin state → fine final.graph → fine state.graph
  enter : ∀ {state id}, holds state → reached (.node id) →
    holds { state with visited := id :: state.visited }
  settle : ∀ {state state' id k item part}, Settles state id k item (.ok (part, state')) →
    holds state → id ∈ state.visited → origin.place? id k = some item → fine state'.graph →
      state'.graph.place? id k = some part →
        holds state' ∧ pointer? origin part = none ∧ reached part

/-- A walk clears what is below it, and a property that it carries holds in the end. -/
theorem Carried.clears {fine : Graph → Prop} {holds : Replacing → Prop} {reached : Item → Prop}
    (hc : Carried origin fine holds reached) (h : Walks state task outcome) :
    ∀ final, outcome = .ok final → holds state → Partway origin state →
      task.Pending origin state → task.Reached reached → fine final.graph →
        holds final ∧ Clears origin state final task := by
  induction h with
  | atom =>
    rintro _ ⟨⟩ hh - - - -
    refine ⟨hh, .of_entered fun id hi => ?_⟩
    cases hi
  | again hv =>
    rintro _ ⟨⟩ hh - - - -
    refine ⟨hh, .of_entered ?_⟩
    rintro _ ⟨⟩
    exact Or.inl hv
  | missing hn =>
    rintro _ ⟨⟩ hh hp - - -
    refine ⟨hh, .of_entered ?_⟩
    rintro _ ⟨⟩
    exact Or.inr ((hp.shape.getElem?_eq_none_iff _).mp hn)
  | @enter state id node outcome hnw hn hpl ih =>
    rintro final rfl hh hp - hr hf
    have hpn := hp.pending hnw hn
    obtain ⟨hfn, hcl⟩ :=
      ih final rfl (hc.enter hh hr) (hp.enter id) hpn hr hf
    have hsh := (hpl.frame final rfl (hp.enter id) hpn).1.shape
    have hi := (hpl.visited_subset final rfl).1 (mem_cons_self ..)
    exact ⟨hfn, .of_places (hsh.symm.trans hp.shape) hn hi hcl⟩
  | done =>
    rintro _ ⟨⟩ hh - - - -
    exact ⟨hh, .of_no_places⟩
  | failed | failedBelow => rintro _ ⟨⟩
  | next hs hb hrs ihbelow ihrest =>
    rintro final rfl hh hp hpn hr hf
    have hv := hs.visited_eq.1
    have hsb := (hb.visited_subset _ rfl).1
    obtain ⟨ho, hpla⟩ := hpn.2.2 _ (mem_cons_self ..)
    have hpr' := hs.partway hp hpn.1
    obtain ⟨hp'', hp', hpr''⟩ := hs.pending_tail hb hp hpn
    -- The document is fine at the end, so it was after each part of the walk.
    have hf'' := hc.back hrs hp'' hp' hf
    have hf' := hc.back hb hpr' trivial hf''
    obtain ⟨hh', hplai, hfo⟩ := hc.settle hs hh hpn.1 ho hf'
      (hs.place?_self hpla)
    obtain ⟨hd, hcl⟩ := ihbelow _ rfl hh' hpr' trivial hfo hf''
    obtain ⟨he, hc'⟩ := ihrest final rfl hd hp'' hp' hr hf
    exact ⟨he, .next hpn hv hsb (hrs.visited_subset _ rfl).1 hplai hpr''
      (hrs.frame final rfl hp'' hp').2 hcl hc'⟩

/-- References are replaced all along a walk if maps and lists stand for them in the end. -/
theorem carried_replaced :
    Carried origin (ContainersForReferences origin) (Replaced origin) origin.Within where
  back := Walks.containersForReferences
  enter h hi := ⟨h.shape, h.places, h.resolved, forall_mem_cons.mpr ⟨hi, h.visited⟩⟩
  settle := Settles.replaced

/-! ## The whole document -/

/-- The place is one of the result, and held a reference with the pointer. -/
structure HeldReference (graph result : Graph) (id k : ℕ) (pointer : String) : Prop where
  within : result.Within (.node id)
  held : ∃ item, graph.place? id k = some item ∧ pointer? graph item = some pointer

/-- What the whole walk leaves behind: every place of an entered node is finished, and all that can
be reached has been entered. -/
theorem exists_replaced_of_dereference {result : Graph} (h : dereference graph = .ok result)
    (hc : ContainersForReferences graph result) :
    ∃ final : Replacing, final.graph = result ∧ Replaced graph final ∧
      (∀ id ∈ final.visited, ∀ k, Finished graph final id k) ∧ Entered graph final graph.root := by
  obtain ⟨outcome, hw, ho⟩ := exists_walks_dereference
  rw [h] at ho
  cases outcome with
  | error error => cases ho
  | ok final =>
    obtain rfl : result = final.graph := Except.ok.inj ho
    have hs : Replaced graph ⟨graph, [], []⟩ :=
      ⟨.refl graph, .refl graph fun _ => Or.inl rfl, by simp, by simp⟩
    obtain ⟨hr, hcl⟩ := carried_replaced.clears hw final rfl hs
      ⟨.refl graph, fun _ _ _ => rfl⟩ trivial ReflTransGen.refl hc
    exact ⟨final, rfl, hr, fun id hi => hcl.fresh id hi (by simp),
      hcl.entered _ rfl⟩

/-- Everything that can be reached from an entered item has been entered, and is no reference if it
takes a step to reach it. -/
theorem entered_of_reachable (hr : Replaced graph final)
    (hf : ∀ id ∈ final.visited, ∀ k, Finished graph final id k) {start : Item}
    (hst : Entered graph final start) (h : TransGen final.graph.Holds start item) :
    pointer? graph item = none ∧ Entered graph final item := by
  have hs : ∀ outer inner, Entered graph final outer → final.graph.Holds outer inner →
      pointer? graph inner = none ∧ Entered graph final inner := by
    rintro outer inner ho ⟨id, k, rfl, hp⟩
    rcases ho id rfl with hv | hm
    · exact hf id hv k inner hp
    · rw [Graph.place?, (hr.shape.getElem?_eq_none_iff id).mpr hm] at hp
      cases hp
  induction h with
  | single hh => exact hs _ _ hst hh
  | tail _ hh ih => exact hs _ _ ih.2 hh

/-- In a place of the result that held a reference stands what its pointer leads to. -/
theorem exists_leadsTo_of_heldReference (hr : Replaced graph final)
    (hf : ∀ id ∈ final.visited, ∀ k, Finished graph final id k)
    (hrt : Entered graph final graph.root) (hn : NoneThroughReferences graph)
    (h : HeldReference graph final.graph id k pointer) :
    ∃ part, final.graph.place? id k = some part ∧ LeadsTo final.graph pointer part ∧
      LeadsTo graph pointer part := by
  obtain ⟨item, hi, hp⟩ := h.held
  have hw : graph.Within item := (hr.within h.within).place hi
  obtain ⟨part, hpr, hs⟩ := hr.places id k item hi
  have hpl : pointer? graph part = none := by
    have hrc : TransGen final.graph.Holds final.graph.root part :=
      TransGen.tail' h.within ⟨id, k, rfl, hpr⟩
    rw [hr.shape.root] at hrc
    exact (entered_of_reachable hr hf hrt hrc).1
  rcases hs with rfl | ⟨pointer', hp', -, ha⟩
  · exact nomatch hpl.symm.trans hp
  · obtain rfl := some.inj (hp.symm.trans hp')
    have hl := ha.leads hn
    refine ⟨part, hpr, ?_, hl⟩
    exact (hr.advanced hn).leadsTo hn hl ⟨item, hw, hp⟩

/-- Replacing the references of a document ends. If a map or a list takes the place of each, no
reference is left anywhere below the start of the result. If moreover no pointer steps through a
reference, each place that held a reference holds the very part to which its pointer leads in the
result, and in the document; so places whose pointers lead to the same part share it. -/
theorem dereference_shares_targets (graph : Graph) :
    (∃ outcome, Walks ⟨graph, [], []⟩ (.item graph.root) outcome ∧
      dereference graph = outcome.map (·.graph)) ∧
    ∀ result, dereference graph = .ok result → ContainersForReferences graph result →
      (∀ item, TransGen result.Holds result.root item → pointer? result item = none) ∧
      (NoneThroughReferences graph → (∀ id k pointer, HeldReference graph result id k pointer →
          ∃ part, result.place? id k = some part ∧ LeadsTo result pointer part ∧
            LeadsTo graph pointer part) ∧
        ∀ id k pointer id' k' pointer' part, HeldReference graph result id k pointer →
          HeldReference graph result id' k' pointer' → LeadsTo result pointer part →
            LeadsTo result pointer' part →
              result.place? id k = some part ∧ result.place? id' k' = some part) := by
  refine ⟨exists_walks_dereference, fun result hrs hc => ?_⟩
  obtain ⟨final, rfl, hr, hf, hrt⟩ :=
    exists_replaced_of_dereference hrs hc
  refine ⟨fun item hi => ?_, fun hn => ?_⟩
  · rw [hr.shape.root] at hi
    rw [hr.pointer?_eq]
    exact (entered_of_reachable hr hf hrt hi).1
  · have hh : ∀ id k pointer, HeldReference graph final.graph id k pointer →
        ∃ part, final.graph.place? id k = some part ∧ LeadsTo final.graph pointer part ∧
          LeadsTo graph pointer part := fun id k pointer hh =>
      exists_leadsTo_of_heldReference hr hf hrt hn hh
    refine ⟨hh, fun id k pointer id' k' pointer' part h h' hl hl' => ?_⟩
    obtain ⟨here, hp, hhr, -⟩ := hh id k pointer h
    obtain ⟨there, hp', ht, -⟩ := hh id' k' pointer' h'
    rw [hp, hp', hhr.unique hl, ht.unique hl']
    exact ⟨rfl, rfl⟩

/-! ## A part that refers to itself -/

/-- A document with a part that holds a reference to itself, and a reference to that reference. -/
def selfDocument : Graph where
  nodes := #[.map [(.text "first", .node 1), (.text "part", .node 2)],
    .map [(.text "$ref", .text "#/part/self")],
    .map [(.text "self", .node 3)],
    .map [(.text "$ref", .text "#/part")]]
  root := .node 0

/-- The document with both references replaced by the part. -/
def selfResult : Graph where
  nodes := #[.map [(.text "first", .node 2), (.text "part", .node 2)],
    .map [(.text "$ref", .text "#/part/self")],
    .map [(.text "self", .node 2)],
    .map [(.text "$ref", .text "#/part")]]
  root := .node 0

/-- The part takes the place of both references, and it is a map. -/
theorem containersForReferences_selfResult : ContainersForReferences selfDocument selfResult := by
  intro id k item pointer part hi hp hpr
  match id, k with
  | 0, 0 | 0, 1 | 2, 0 =>
    cases hpr
    exact Or.inl ⟨_, rfl⟩
  | 1, 0 | 3, 0 =>
    cases hi
    cases hp
  | 0, _ + 2 | 1, _ + 1 | 2, _ + 1 | 3, _ + 1 | _ + 4, _ => cases hi

/-- The one part that a pointer steps through is no reference. -/
theorem noneThroughReferences_selfDocument : NoneThroughReferences selfDocument := by
  have hc : ∀ pointer, pointer = "#/part/self" ∨ pointer = "#/part" →
      StepsClear selfDocument pointer := by
    rintro pointer (rfl | rfl) tokens ht (_ | ⟨first, front⟩) token rest hs hf item
      hi
    · exact absurd rfl hf
    · obtain rfl : ["part", "self"] = tokens := some.inj ht
      obtain ⟨rfl, hs⟩ := List.cons.inj hs
      cases front with
      | nil =>
        cases hi
        rfl
      | cons second front => simp at hs
    · exact absurd rfl hf
    · obtain rfl : ["part"] = tokens := some.inj ht
      simp at hs
  intro item pointer _ hp
  apply hc
  obtain ⟨id, rfl, hid⟩ := exists_of_pointer? hp
  match id, hid with
  | 0, _ | 2, _ => cases hp
  | 1, _ => exact Or.inl (some.inj hp).symm
  | 3, _ => exact Or.inr (some.inj hp).symm

theorem dereference_selfDocument : dereference selfDocument = .ok selfResult ∧
      ContainersForReferences selfDocument selfResult ∧ NoneThroughReferences selfDocument ∧
      (∀ item, TransGen selfResult.Holds selfResult.root item → pointer? selfResult item = none) ∧
      selfResult.place? 0 0 = some (.node 2) ∧ LeadsTo selfResult "#/part/self" (.node 2) := by
  have hr : dereference selfDocument = .ok selfResult := rfl
  have hc := containersForReferences_selfResult
  have hn := noneThroughReferences_selfDocument
  obtain ⟨hp, hs⟩ :=
    (dereference_shares_targets selfDocument).2 selfResult hr hc
  obtain ⟨part, hpr, hl, -⟩ :=
    (hs hn).1 0 0 "#/part/self" ⟨ReflTransGen.refl, .node 1, rfl, rfl⟩
  cases hpr
  exact ⟨hr, hc, hn, hp, rfl, hl⟩

end ApiSchema.OpenApi
