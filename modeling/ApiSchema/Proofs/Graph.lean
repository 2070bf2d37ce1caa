/-
# Places in shared data

The nodes of a graph have places, and writing to one place changes nothing else: the other places
stay as they are, and so do the kinds of the nodes and the keys of the maps.
-/
import Mathlib.Data.List.Basic
import Mathlib.Logic.Relation
import ApiSchema.Graph.Basic

namespace ApiSchema

open List Option Relation

variable {node : Node} {id position : ℕ} {item : Item}

/-! ## Places of a node -/

namespace Node

/-- The node with null in every place: its kind, and its keys or its length. -/
def shape : Node → Node
  | list items => list (items.map fun _ => .null)
  | map entries => map (entries.map fun entry => (entry.1, .null))
  | node => node

theorem length_places_of_shape {node' : Node} (h : node.shape = node'.shape) :
    node.places.length = node'.places.length := by
  cases node <;> cases node' <;> simp only [shape, list.injEq, map.injEq, reduceCtorEq] at h <;>
    first
    | rfl
    | simpa [places] using congrArg List.length h

/-- Writing to a place changes that place. -/
theorem places_setAt (position : ℕ) (item : Item) :
    (node.setAt position item).places = node.places.set position item := by
  cases node with
  | list items => rfl
  | map entries =>
    rw [setAt, places, places]
    apply ext_getElem?
    intro other
    by_cases h : position = other
    · subst h
      by_cases hl : position < entries.length <;> simp [hl]
    · simp [h]
  | tuple items => rfl
  | set members => rfl

/-- Writing to a place keeps the shape. -/
theorem shape_setAt : (node.setAt position item).shape = node.shape := by
  cases node with
  | list items => simp [setAt, shape]
  | map entries =>
    rw [setAt, shape]
    congr 1
    apply ext_getElem?
    intro other
    rw [getElem?_map, getElem?_map, getElem?_modify]
    by_cases h : position = other
    · subst h
      cases entries[position]? <;> simp
    · simp [h]
  | tuple items => rfl
  | set members => rfl

end Node

/-! ## Places of a graph -/

namespace Graph

/-- What stands in a place. -/
def place? (graph : Graph) (id position : ℕ) : Option Item :=
  (graph.nodes[id]?).bind fun node => node.places[position]?

/-- Writing to a place changes no other place. -/
theorem place?_setAt_of_ne (graph : Graph) {id' position' : ℕ} (item : Item)
    (h : id' = id → position' ≠ position) :
    (graph.setAt id position item).place? id' position' = graph.place? id' position' := by
  rw [place?, place?, setAt, Array.getElem?_modify]
  by_cases hi : id = id'
  · subst hi
    cases graph.nodes[id]? with
    | none => simp
    | some node =>
      rw [if_pos rfl, map_some, bind_some, bind_some, Node.places_setAt,
        getElem?_set_ne (Ne.symm (h rfl))]
  · rw [if_neg hi]

/-- After writing to a place, what was written stands there. -/
theorem place?_setAt_self (graph : Graph) {old : Item} (item : Item)
    (h : graph.place? id position = some old) :
    (graph.setAt id position item).place? id position = some item := by
  rw [place?] at h
  rw [place?, setAt, Array.getElem?_modify, if_pos rfl]
  cases hn : graph.nodes[id]? with
  | none => simp [hn] at h
  | some node =>
    rw [hn] at h
    rw [map_some, bind_some, Node.places_setAt]
    have hl : position < node.places.length := (List.getElem?_eq_some_iff.mp h).1
    rw [List.getElem?_set_self hl]

/-! ## Shapes -/

/-- The graphs start at the same item, and their nodes have the same shapes. -/
structure SameShape (graph other : Graph) : Prop where
  root : other.root = graph.root
  nodes : ∀ id : ℕ, (other.nodes[id]?).map Node.shape = (graph.nodes[id]?).map Node.shape

namespace SameShape

variable {graph other : Graph}

theorem refl (graph : Graph) : SameShape graph graph := ⟨rfl, fun _ => rfl⟩

variable (h : SameShape graph other)

include h

theorem symm : SameShape other graph :=
  ⟨h.root.symm, fun id => (h.nodes id).symm⟩

theorem trans {third : Graph} (h' : SameShape other third) : SameShape graph third :=
  ⟨h'.root.trans h.root, fun id => (h'.nodes id).trans (h.nodes id)⟩

/-- Writing to a place keeps the shape of the graph. -/
theorem setAt (id position : ℕ) (item : Item) : SameShape graph (other.setAt id position item) := by
  refine ⟨h.root, fun id' => ?_⟩
  rw [← h.nodes id', Graph.setAt, Array.getElem?_modify]
  by_cases hi : id = id'
  · subst hi
    rw [if_pos rfl, Option.map_map]
    congr 1
    funext node
    exact Node.shape_setAt
  · rw [if_neg hi]

theorem getElem?_eq_none_iff (id : ℕ) : other.nodes[id]? = none ↔ graph.nodes[id]? = none := by
  have hs := h.nodes id
  cases ho : other.nodes[id]? <;> cases hg : graph.nodes[id]? <;>
    simp_all

theorem exists_node (hn : graph.nodes[id]? = some node) :
    ∃ node', other.nodes[id]? = some node' ∧ node'.shape = node.shape := by
  have hs := h.nodes id
  rw [hn] at hs
  obtain ⟨node', hn', he⟩ := map_eq_some_iff.mp hs
  exact ⟨node', hn', he⟩

/-- Graphs of the same shape have the same places. -/
theorem exists_place (hp : graph.place? id position = some item) :
    ∃ item', other.place? id position = some item' := by
  obtain ⟨node, hn, hi⟩ := bind_eq_some_iff.mp hp
  obtain ⟨node', hn', hs⟩ := h.exists_node hn
  have hl : position < node'.places.length := by
    rw [Node.length_places_of_shape hs]
    exact (List.getElem?_eq_some_iff.mp hi).1
  refine ⟨node'.places[position], ?_⟩
  rw [place?, hn', bind_some, List.getElem?_eq_getElem hl]

end SameShape

/-- What stands in each place of the second graph is related to what stands there in the first. -/
def Traces (stands : Item → Item → Prop) (graph other : Graph) : Prop :=
  ∀ id position item, graph.place? id position = some item →
    ∃ part, other.place? id position = some part ∧ stands item part

namespace Traces

variable {stands : Item → Item → Prop} {graph other : Graph} {part : Item}

theorem refl (graph : Graph) (h : ∀ item, stands item item) : Traces stands graph graph :=
  fun _ _ item hi => ⟨item, hi, h item⟩

theorem exists_origin (h : Traces stands graph other) (hsh : SameShape graph other)
    (hp : other.place? id position = some part) :
    ∃ item, graph.place? id position = some item ∧ stands item part := by
  obtain ⟨item, hi⟩ := hsh.symm.exists_place hp
  obtain ⟨part', hp', hs⟩ := h id position item hi
  obtain rfl := some.inj (hp.symm.trans hp')
  exact ⟨item, hi, hs⟩

theorem setAt (h : Traces stands graph other) (hi : graph.place? id position = some item)
    (hst : stands item part) : Traces stands graph (other.setAt id position part) := by
  intro id' position' old hold
  obtain ⟨now, hn, hs'⟩ := h id' position' old hold
  by_cases hs : id' = id → position' ≠ position
  · exact ⟨now, (place?_setAt_of_ne _ _ hs).trans hn, hs'⟩
  · obtain ⟨rfl, rfl⟩ : id' = id ∧ position' = position := by simpa using hs
    obtain rfl := some.inj (hi.symm.trans hold)
    exact ⟨part, other.place?_setAt_self part hn, hst⟩

end Traces

/-! ## Containers -/

/-- The item is a map or a list. -/
def IsContainer (graph : Graph) (item : Item) : Prop :=
  (∃ entries, graph.map? item = some entries) ∨ ∃ items, graph.list? item = some items

/-- What is a map or a list in one graph is one in every graph of the same shape. -/
theorem IsContainer.of_sameShape {graph other : Graph} (h : SameShape graph other)
    (hi : graph.IsContainer item) : other.IsContainer item := by
  cases item with
  | atom value => simp [IsContainer, map?, list?, node?] at hi
  | node id =>
    cases hn : graph.nodes[id]? with
    | none => simp [IsContainer, map?, list?, node?, hn] at hi
    | some node =>
      obtain ⟨node', hn', hs⟩ := h.exists_node hn
      cases node <;> cases node' <;>
        simp_all [IsContainer, map?, list?, node?, Node.shape]

/-! ## Parts -/

/-- The second item stands in a place of the first one. -/
def Holds (graph : Graph) (outer inner : Item) : Prop :=
  ∃ id position, outer = .node id ∧ graph.place? id position = some inner

/-- The item is the one at which the data starts, or stands somewhere inside of it. -/
def Within (graph : Graph) (item : Item) : Prop := ReflTransGen graph.Holds graph.root item

theorem Within.place {graph : Graph}
    (h : graph.Within (.node id)) (hp : graph.place? id position = some item) :
    graph.Within item :=
  ReflTransGen.tail h ⟨id, position, rfl, hp⟩

end Graph

end ApiSchema
