/-
# Documents up to the order of keys

Two trees are reordered versions of each other if they differ only in the order in which their maps
have their keys. Two graphs are rearranged versions of each other if their nodes correspond one to
one, in such a way that corresponding lists hold corresponding items in the same order and
corresponding maps hold them under the same keys. The main statement is that the graphs of reordered
trees are rearranged: nodes are numbered in the order in which the keys come, and the correspondence
makes up for that.
-/
import Mathlib.Data.List.Nodup
import Mathlib.Data.List.Perm.Basic
import ApiSchema.Proofs.Graph

namespace ApiSchema

open List Option Relation

variable {id k id' j j' : ℕ} {node node' : Node} {entries : List (Atom × Item)} {key : Atom}
  {later : Array Node} {value value' : Value} {keys keys' : List Atom}

/-! ## Correspondences -/

/-- The items are the same atom, or nodes that correspond. -/
inductive Item.Matches (R : ℕ → ℕ → Prop) : Item → Item → Prop
  | atom (value : Atom) : Matches R (.atom value) (.atom value)
  | node {id id' : ℕ} (h : R id id') : Matches R (.node id) (.node id')

/-- The nodes are lists of items that correspond, or maps with the same keys and items that
correspond under each. -/
inductive Node.Matches (R : ℕ → ℕ → Prop) : Node → Node → Prop
  | list {items items' : List Item} (hlength : items.length = items'.length)
      (h : ∀ (k : ℕ) (item item' : Item), items[k]? = some item → items'[k]? = some item' →
        Item.Matches R item item') : Matches R (.list items) (.list items')
  | map {entries entries' : List (Atom × Item)} (hnodup : (entries.map (·.1)).Nodup)
      (hkeys : (entries.map (·.1)).Perm (entries'.map (·.1)))
      (h : ∀ (key : Atom) (item item' : Item), (key, item) ∈ entries → (key, item') ∈ entries' →
        Item.Matches R item item') : Matches R (.map entries) (.map entries')

/-- The nodes correspond one to one, and those that correspond match. -/
structure Graph.Paired (R : ℕ → ℕ → Prop) (nodes nodes' : Array Node) : Prop where
  right_unique : ∀ id first second, R id first → R id second → first = second
  left_unique : ∀ first second id, R first id → R second id → first = second
  nodes : ∀ id id', R id id' → ∃ node node', nodes[id]? = some node ∧ nodes'[id']? = some node' ∧
    Node.Matches R node node'

/-- The graphs start at corresponding items, and their nodes correspond one to one. So they are the
same, with the same sharing, up to the order of the keys of their maps. -/
structure Graph.Rearranged (R : ℕ → ℕ → Prop) (graph graph' : Graph) : Prop where
  paired : Paired R graph.nodes graph'.nodes
  root : Item.Matches R graph.root graph'.root

/-! ## Both ways -/

variable {R S : ℕ → ℕ → Prop} {item : Item}

theorem Item.Matches.symm {item' : Item} (h : Item.Matches R item item') :
    Item.Matches (flip R) item' item := by
  cases h with
  | atom value => exact .atom value
  | node h => exact .node h

theorem Item.Matches.mono (hs : ∀ id id', R id id' → S id id') {item' : Item}
    (h : Item.Matches R item item') : Item.Matches S item item' := by
  cases h with
  | atom value => exact .atom value
  | node h => exact .node (hs _ _ h)

theorem Item.Matches.node_left (h : Item.Matches R (.node id) item) :
    ∃ id', item = .node id' ∧ R id id' := by
  cases h with
  | node h => exact ⟨_, rfl, h⟩

/-- Nodes match both ways. -/
theorem Node.Matches.symm (h : Node.Matches R node node') : Node.Matches (flip R) node' node := by
  cases h with
  | list hl h =>
    exact .list hl.symm fun k item item' hi hi' => (h k item' item hi' hi).symm
  | map hn hk h =>
    exact .map (hk.nodup_iff.mp hn) hk.symm fun key item item' hi hi' =>
      (h key item' item hi' hi).symm

/-- Nodes that match keep matching when more nodes correspond. -/
theorem Node.Matches.mono (hs : ∀ id id', R id id' → S id id')
    (h : Node.Matches R node node') : Node.Matches S node node' := by
  cases h with
  | list hl h =>
    exact .list hl fun k item item' hi hi' => (h k item item' hi hi').mono hs
  | map hn hk h =>
    exact .map hn hk fun key item item' hi hi' =>
      (h key item item' hi hi').mono hs

/-- Graphs are rearranged both ways. -/
theorem Graph.Rearranged.symm {graph graph' : Graph} (h : Rearranged R graph graph') :
    Rearranged (flip R) graph' graph where
  paired :=
    { right_unique := fun id first second => h.paired.left_unique first second id
      left_unique := fun first second id => h.paired.right_unique id first second
      nodes := fun id id' hi => by
        obtain ⟨node, node', hn, hn', hm⟩ := h.paired.nodes id' id hi
        exact ⟨node', node, hn', hn, hm.symm⟩ }
  root := h.root.symm

/-! ## Places and keys -/

/-- An entry of a map stands in one of its places. -/
theorem Node.mem_map_iff_places :
    (Node.map entries).places[k]? = some item ↔ ∃ key, entries[k]? = some (key, item) := by
  rw [Node.places, getElem?_map, map_eq_some_iff]
  constructor
  · rintro ⟨⟨key, _⟩, he, rfl⟩
    exact ⟨key, he⟩
  · rintro ⟨key, he⟩
    exact ⟨(key, item), he, rfl⟩

/-- A node that matches has a matching item for each place. -/
theorem Node.Matches.exists_place (h : Node.Matches R node node')
    (hi : node.places[k]? = some item) :
    ∃ (k' : ℕ) (item' : Item), node'.places[k']? = some item' ∧ Item.Matches R item item' := by
  cases h with
  | @list items items' hl h =>
    have hlt : k < items'.length := hl ▸ (List.getElem?_eq_some_iff.mp hi).1
    have hi' : items'[k]? = some items'[k] := List.getElem?_eq_getElem hlt
    exact ⟨k, items'[k], hi', h k item items'[k] hi hi'⟩
  | @map entries entries' hn hk h =>
    obtain ⟨key, he⟩ := Node.mem_map_iff_places.mp hi
    have hm := mem_of_getElem? he
    obtain ⟨⟨_, item'⟩, hm', rfl⟩ :=
      mem_map.mp (hk.subset (mem_map_of_mem hm))
    obtain ⟨k', hk'⟩ := mem_iff_getElem?.mp hm'
    exact ⟨k', item', Node.mem_map_iff_places.mpr ⟨_, hk'⟩, h _ item item' hm hm'⟩

/-- Entries with the same keys have the same key at each position. -/
theorem exists_getElem?_of_keys {entries' : List (Atom × Item)}
    (h : entries'.map (·.1) = entries.map (·.1))
    (he : entries'[k]? = some (key, item)) : ∃ item', entries[k]? = some (key, item') := by
  have hk : (entries.map (·.1))[k]? = some key := by
    rw [← h, getElem?_map, he, map_some]
  rw [getElem?_map] at hk
  obtain ⟨⟨_, item'⟩, hi', rfl⟩ := map_eq_some_iff.mp hk
  exact ⟨item', hi'⟩

theorem Node.exists_list_of_shape {items : List Item} (h : node.shape = (Node.list items).shape) :
    ∃ items', node = .list items' ∧ items'.length = items.length := by
  cases node with
  | list items' => exact ⟨items', rfl, Node.length_places_of_shape h⟩
  | _ => cases h

/-- What has the shape of a map is a map with its keys. -/
theorem Node.exists_map_of_shape (h : node.shape = (Node.map entries).shape) : ∃ entries', node =
    .map entries' ∧ entries'.map (·.1) = entries.map (·.1) := by
  cases node with
  | map entries' =>
    refine ⟨entries', rfl, ?_⟩
    have hk := congrArg (List.map Prod.fst) (Node.map.inj h)
    simpa only [List.map_map, Function.comp_def] using hk
  | _ => cases h

/-- Nodes of the shapes of matching nodes match if what stands in corresponding places does. -/
theorem Node.Matches.of_shape {other other' : Node} (h : Node.Matches R node node')
    (hs : other.shape = node.shape) (hs' : other'.shape = node'.shape)
    (hpl : ∀ (k k' : ℕ) (item item' part part' : Item), node.places[k]? = some item →
      node'.places[k']? = some item' → other.places[k]? = some part →
        other'.places[k']? = some part' → Item.Matches R item item' →
          Item.Matches R part part') : Node.Matches R other other' := by
  cases h with
  | @list items items' hl h =>
    obtain ⟨parts, rfl, hp⟩ := Node.exists_list_of_shape hs
    obtain ⟨parts', rfl, hp'⟩ := Node.exists_list_of_shape hs'
    refine .list (by omega) fun k part part' hpr hpr' => ?_
    have hlt : k < items.length := hp ▸ (List.getElem?_eq_some_iff.mp hpr).1
    have hi : items[k]? = some items[k] := List.getElem?_eq_getElem hlt
    have hi' : items'[k]? = some items'[k] := List.getElem?_eq_getElem (hl ▸ hlt)
    exact hpl k k _ _ part part' hi hi' hpr hpr' (h k _ _ hi hi')
  | @map entries entries' hn hky h =>
    obtain ⟨parts, rfl, hp⟩ := Node.exists_map_of_shape hs
    obtain ⟨parts', rfl, hp'⟩ := Node.exists_map_of_shape hs'
    refine .map (hp ▸ hn) (by rw [hp, hp']; exact hky) ?_
    intro key part part' hpr hpr'
    obtain ⟨k, hk⟩ := mem_iff_getElem?.mp hpr
    obtain ⟨k', hk'⟩ := mem_iff_getElem?.mp hpr'
    obtain ⟨item, hi⟩ := exists_getElem?_of_keys hp hk
    obtain ⟨item', hi'⟩ := exists_getElem?_of_keys hp' hk'
    exact hpl k k' item item' part part' (Node.mem_map_iff_places.mpr ⟨key, hi⟩)
      (Node.mem_map_iff_places.mpr ⟨key, hi'⟩) (Node.mem_map_iff_places.mpr ⟨key, hk⟩)
      (Node.mem_map_iff_places.mpr ⟨key, hk'⟩)
      (h key item item' (mem_of_getElem? hi) (mem_of_getElem? hi'))

theorem beq_text_iff (text : String) : (key == .text text) ↔ key = .text text := by
  cases key with
  | text other =>
    rw [Atom.text.injEq]
    exact @beq_iff_eq String _ _ other text
  | _ => exact ⟨fun h => (nomatch h), fun h => (nomatch h)⟩

/-- A map with distinct keys has under a text what stands in the entry with that key. -/
theorem get?_text_eq_some_iff (h : (entries.map (·.1)).Nodup) (text : String) (item : Item) :
    Assoc.get? entries (.text text) = some item ↔ (.text text, item) ∈ entries := by
  induction entries with
  | nil => simp
  | cons entry rest ih =>
    obtain ⟨key, value⟩ := entry
    rw [map_cons, nodup_cons] at h
    rw [Assoc.get?_cons, mem_cons]
    by_cases hk : key = .text text
    · subst hk
      rw [if_pos ((beq_text_iff _).mpr rfl), some.injEq, Prod.mk.injEq]
      constructor
      · exact fun he => Or.inl ⟨rfl, he.symm⟩
      · rintro (⟨-, he⟩ | hm)
        · exact he.symm
        · exact absurd (mem_map_of_mem hm) h.1
    · rw [if_neg (fun he => hk ((beq_text_iff _).mp he)), ih h.2, Prod.mk.injEq]
      constructor
      · exact Or.inr
      · rintro (⟨he, -⟩ | hm)
        · exact absurd he.symm hk
        · exact hm

namespace Graph.Rearranged

variable {graph graph' : Graph} {item item' : Item}

section

variable (h : Rearranged R graph graph')
include h

theorem exists_place (hid : R id id') (hp : graph.place? id k = some item) : ∃ k' item',
    graph'.place? id' k' = some item' ∧ Item.Matches R item item' := by
  obtain ⟨node, node', hn, hn', hm⟩ := h.paired.nodes id id' hid
  rw [place?, hn] at hp
  obtain ⟨k', item', hi', hi⟩ := hm.exists_place hp
  exact ⟨k', item', by rw [place?, hn', bind_some, hi'], hi⟩

/-- A map that corresponds has a matching item for each text. -/
theorem exists_get? (hit : Item.Matches R item item')
    {key : String} {inner : Item} (hg : graph.get? item key = some inner) :
    ∃ inner', graph'.get? item' key = some inner' ∧ Item.Matches R inner inner' := by
  cases hit with
  | atom value => cases hg
  | @node id id' hid =>
    obtain ⟨node, node', hnd, hnd', hm⟩ := h.paired.nodes id id' hid
    cases hm with
    | list hl hi =>
      rw [get?, map?, node?, hnd] at hg
      cases hg
    | @map entries entries' hn hk hi =>
      rw [get?, map?, node?, hnd] at hg
      have hmm := (get?_text_eq_some_iff hn key inner).mp hg
      obtain ⟨⟨_, inner'⟩, hm', rfl⟩ :=
        mem_map.mp (hk.subset (mem_map_of_mem hmm))
      have hn' := hk.nodup_iff.mp hn
      refine ⟨inner', ?_, hi _ inner inner' hmm hm'⟩
      rw [get?, map?, node?, hnd']
      exact (get?_text_eq_some_iff hn' key inner').mpr hm'

/-- What is part of one graph matches a part of the other. -/
theorem exists_within (hit : graph.Within item) :
    ∃ item', graph'.Within item' ∧ Item.Matches R item item' := by
  induction hit with
  | refl => exact ⟨graph'.root, ReflTransGen.refl, h.root⟩
  | tail _ hh ih =>
    obtain ⟨outer', hw, hm⟩ := ih
    obtain ⟨id, k, rfl, hp⟩ := hh
    obtain ⟨id', rfl, hid⟩ := hm.node_left
    obtain ⟨k', inner', hp', hi⟩ := h.exists_place hid hp
    exact ⟨inner', hw.place hp', hi⟩

end

end Graph.Rearranged

/-! ## Trees -/

/-- The trees differ only in the order in which their maps, all with distinct keys, have them. -/
inductive Value.Reordered : Value → Value → Prop
  | atom (value : Atom) : Reordered (.atom value) (.atom value)
  | list {items items' : List Value} (hlength : items.length = items'.length)
      (h : ∀ (k : ℕ) (item item' : Value), items[k]? = some item → items'[k]? = some item' →
        Reordered item item') : Reordered (.list items) (.list items')
  | map {entries entries' : List (Atom × Value)} (hnodup : (entries.map (·.1)).Nodup)
      (hkeys : (entries.map (·.1)).Perm (entries'.map (·.1)))
      (h : ∀ (key : Atom) (value value' : Value), (key, value) ∈ entries →
        (key, value') ∈ entries' → Reordered value value') :
      Reordered (.map entries) (.map entries')

namespace Graph

/-- All nodes of the first array are in the second one, under the same numbers. -/
def Extends (nodes later : Array Node) : Prop :=
  ∀ (id : ℕ) (node : Node), nodes[id]? = some node → later[id]? = some node

theorem Extends.refl (nodes : Array Node) : Extends nodes nodes := fun _ _ h => h

variable {nodes : Array Node}

theorem Extends.trans {middle : Array Node} (h : Extends nodes middle)
    (h' : Extends middle later) : Extends nodes later := fun id node hn =>
  h' id node (h id node hn)

theorem Extends.size_le (h : Extends nodes later) :
    nodes.size ≤ later.size := by
  by_contra hlt
  have hl : later.size < nodes.size := by omega
  have hn := h later.size _ (Array.getElem?_eq_getElem hl)
  exact absurd (Array.getElem?_eq_some_iff.mp hn).1 (Nat.lt_irrefl _)

theorem extends_push : Extends nodes (nodes.push node) := by
  intro id old hold
  have hl := (Array.getElem?_eq_some_iff.mp hold).1
  rw [Array.getElem?_push, if_neg (Nat.ne_of_lt hl), hold]

mutual

/-- Adding a tree keeps the nodes that are there. -/
theorem extends_addValue (value : Value) (nodes : Array Node) :
    Extends nodes (addValue value nodes).2 := by
  cases value with
  | atom value => exact .refl nodes
  | list items => exact extends_addItems.trans extends_push
  | tuple items => exact extends_addItems.trans extends_push
  | set members => exact extends_push
  | map entries => exact extends_addEntries.trans extends_push
  | again container => exact .refl nodes

theorem extends_addItems {values : List Value} {nodes : Array Node} :
    Extends nodes (addItems values nodes).2 := by
  cases values with
  | nil => exact .refl nodes
  | cons value rest => exact (extends_addValue value nodes).trans extends_addItems

theorem extends_addEntries {entries : List (Atom × Value)} {nodes : Array Node} :
    Extends nodes (addEntries entries nodes).2 := by
  match entries with
  | [] => exact .refl nodes
  | (_, value) :: rest =>
    exact (extends_addValue value nodes).trans extends_addEntries

end

/-- The values of a map are added one after the other, like the items of a list. -/
theorem addEntries_eq (entries : List (Atom × Value)) (nodes : Array Node) :
    addEntries entries nodes =
      ((entries.map (·.1)).zip (addItems (entries.map (·.2)) nodes).1,
        (addItems (entries.map (·.2)) nodes).2) := by
  induction entries generalizing nodes with
  | nil => rfl
  | cons entry rest ih =>
    obtain ⟨key, value⟩ := entry
    simp only [addEntries, ih]
    rfl

/-! ## Where the parts of a tree go -/

/-- The nodes when the first of several trees have been added. -/
def nodesBefore (values : List Value) (nodes : Array Node) (j : ℕ) : Array Node :=
  (addItems (values.take j) nodes).2

variable {values : List Value}

/-- Each tree is added to the nodes of those before it. -/
theorem nodesBefore_succ (h : values[j]? = some value) (nodes : Array Node) :
    nodesBefore values nodes (j + 1) = (addValue value (nodesBefore values nodes j)).2 := by
  induction values generalizing j nodes with
  | nil => cases h
  | cons first rest ih =>
    cases j with
    | zero =>
      obtain rfl : first = value := by simpa using h
      rfl
    | succ j =>
      exact ih h (addValue first nodes).2

/-- What a tree becomes is what it becomes when added to the nodes of those before it. -/
theorem getElem?_addItems (h : (addItems values nodes).1[j]? = some item) : ∃ value, values[j]? =
    some value ∧ item = (addValue value (nodesBefore values nodes j)).1 := by
  induction values generalizing j nodes with
  | nil => cases h
  | cons first rest ih =>
    cases j with
    | zero => exact ⟨first, rfl, (some.inj h).symm⟩
    | succ j => exact @ih j (addValue first nodes).2 h

theorem length_addItems (values : List Value) (nodes : Array Node) :
    (addItems values nodes).1.length = values.length := by
  induction values generalizing nodes with
  | nil => rfl
  | cons first rest ih => exact congrArg (· + 1) (ih _)

/-- The nodes are kept from one tree to the next. -/
theorem extends_nodesBefore (values : List Value) (nodes : Array Node) (h : j ≤ k) :
    Extends (nodesBefore values nodes j) (nodesBefore values nodes k) := by
  induction h with
  | refl => exact .refl _
  | @step k _ ih =>
    refine ih.trans ?_
    cases hv : values[k]? with
    | some value =>
      rw [nodesBefore_succ hv]
      exact extends_addValue value _
    | none =>
      -- All trees have been added before.
      have hl : values.length ≤ k := getElem?_eq_none_iff.mp hv
      unfold nodesBefore
      rw [take_of_length_le hl, take_of_length_le (by omega)]
      exact .refl _

/-- A node comes from one tree only. -/
theorem eq_of_nodesBefore
    (hj : (nodesBefore values nodes j).size ≤ id)
    (hj' : id < (nodesBefore values nodes (j + 1)).size)
    (hk : (nodesBefore values nodes k).size ≤ id)
    (hk' : id < (nodesBefore values nodes (k + 1)).size) : j = k := by
  rcases Nat.lt_trichotomy j k with hl | he | hl
  · have hle := (extends_nodesBefore values nodes (show j + 1 ≤ k from hl)).size_le
    omega
  · exact he
  · have hle := (extends_nodesBefore values nodes (show k + 1 ≤ j from hl)).size_le
    omega

theorem extends_nodesBefore_addItems :
    Extends (nodesBefore values nodes j) (addItems values nodes).2 := by
  have h := extends_nodesBefore values nodes (Nat.le_add_right j values.length)
  have ha : nodesBefore values nodes (j + values.length) = (addItems values nodes).2 := by
    rw [nodesBefore, take_of_length_le (Nat.le_add_left ..)]
  exact ha ▸ h

/-! ## Graphs of reordered trees -/

/-- The nodes of two trees, added to what was there, correspond one to one. -/
structure Corresponds (R : ℕ → ℕ → Prop) (value value' : Value) (nodes nodes' : Array Node) :
    Prop where
  paired : Paired R (addValue value nodes).2 (addValue value' nodes').2
  fresh : ∀ id id', R id id' → nodes.size ≤ id ∧ nodes'.size ≤ id'
  item : Item.Matches R (addValue value nodes).1 (addValue value' nodes').1

variable {nodes' : Array Node}

theorem Paired.lt (h : Paired R nodes nodes')
    (hi : R id id') : id < nodes.size ∧ id' < nodes'.size := by
  obtain ⟨node, node', hn, hn', -⟩ := h.nodes id id' hi
  exact ⟨(Array.getElem?_eq_some_iff.mp hn).1, (Array.getElem?_eq_some_iff.mp hn').1⟩

theorem Paired.push (h : Paired R nodes nodes')
    (hn : Node.Matches R node node') :
    Paired (fun id id' => R id id' ∨ id = nodes.size ∧ id' = nodes'.size)
      (nodes.push node) (nodes'.push node') where
  right_unique := by
    rintro id first second (hf | ⟨rfl, rfl⟩) (hs | ⟨hi, rfl⟩)
    · exact h.right_unique id first second hf hs
    · exact absurd (h.lt hf).1 (by omega)
    · exact absurd (h.lt hs).1 (Nat.lt_irrefl _)
    · rfl
  left_unique := by
    rintro first second id (hf | ⟨rfl, rfl⟩) (hs | ⟨rfl, hi⟩)
    · exact h.left_unique first second id hf hs
    · exact absurd (h.lt hf).2 (by omega)
    · exact absurd (h.lt hs).2 (Nat.lt_irrefl _)
    · rfl
  nodes := by
    rintro id id' (hi | ⟨rfl, rfl⟩)
    · obtain ⟨old, old', hold, hold', hm⟩ := h.nodes id id' hi
      exact ⟨old, old', extends_push id old hold, extends_push id' old' hold',
        hm.mono fun _ _ => Or.inl⟩
    · exact ⟨node, node', by simp, by simp, hn.mono fun _ _ => Or.inl⟩

/-- The parts at linked positions correspond, each pair of them by a correspondence of its own. -/
def PartsCorrespond (link : ℕ → ℕ → Prop) (part : ℕ → ℕ → ℕ → ℕ → Prop)
    (values values' : List Value) (nodes nodes' : Array Node) : Prop :=
  ∀ (j j' : ℕ) (value value' : Value), link j j' → values[j]? = some value →
    values'[j']? = some value' → Corresponds (part j j') value value' (nodesBefore values nodes j)
        (nodesBefore values' nodes' j')

/-- Two nodes that belong to the parts at linked positions and correspond there. -/
structure InParts (link : ℕ → ℕ → Prop) (part : ℕ → ℕ → ℕ → ℕ → Prop) (values values' : List Value)
    (j j' id id' : ℕ) : Prop where
  linked : link j j'
  related : part j j' id id'
  left : ∃ value, values[j]? = some value
  right : ∃ value', values'[j']? = some value'

section

variable {link : ℕ → ℕ → Prop} {part : ℕ → ℕ → ℕ → ℕ → Prop} {values values' : List Value}
  {nodes nodes' : Array Node}

/-- If linked parts correspond wherever they are added, there are correspondences for all of
them. -/
theorem exists_partsCorrespond
    (h : ∀ (j j' : ℕ) (value value' : Value), link j j' → values[j]? = some value →
      values'[j']? = some value' → ∀ nodes nodes', ∃ R, Corresponds R value value' nodes nodes') :
    ∃ part, PartsCorrespond link part values values' nodes nodes' := by
  have hp : ∀ j j' : ℕ, ∃ R : ℕ → ℕ → Prop, ∀ value value', link j j' →
      values[j]? = some value → values'[j']? = some value' →
        Corresponds R value value' (nodesBefore values nodes j)
          (nodesBefore values' nodes' j') := by
    intro j j'
    by_cases hl : ∃ value value', link j j' ∧ values[j]? = some value ∧
        values'[j']? = some value'
    · obtain ⟨value, value', hln, hv, hv'⟩ := hl
      obtain ⟨R, hR⟩ := h j j' value value' hln hv hv' (nodesBefore values nodes j)
        (nodesBefore values' nodes' j')
      refine ⟨R, fun other other' _ ho ho' => ?_⟩
      obtain rfl := some.inj (hv.symm.trans ho)
      obtain rfl := some.inj (hv'.symm.trans ho')
      exact hR
    · exact ⟨fun _ _ => False, fun value value' hln hv hv' =>
        absurd ⟨value, value', hln, hv, hv'⟩ hl⟩
  choose part hpr using hp
  exact ⟨part, hpr⟩

section

variable (h : PartsCorrespond link part values values' nodes nodes')
include h

/-- Where two nodes correspond in linked parts, the nodes added up to these parts are paired. -/
theorem PartsCorrespond.paired_succ (hi : InParts link part values values' j j' id id') :
    Paired (part j j') (nodesBefore values nodes (j + 1))
      (nodesBefore values' nodes' (j' + 1)) := by
  obtain ⟨value, hv⟩ := hi.left
  obtain ⟨value', hv'⟩ := hi.right
  rw [nodesBefore_succ hv, nodesBefore_succ hv']
  exact (h j j' value value' hi.linked hv hv').paired

/-- Nodes that correspond in linked parts lie in the intervals of these parts. -/
theorem PartsCorrespond.bounds (hi : InParts link part values values' j j' id id') :
    ((nodesBefore values nodes j).size ≤ id ∧ id < (nodesBefore values nodes (j + 1)).size) ∧
      (nodesBefore values' nodes' j').size ≤ id' ∧
        id' < (nodesBefore values' nodes' (j' + 1)).size := by
  obtain ⟨value, hv⟩ := hi.left
  obtain ⟨value', hv'⟩ := hi.right
  have hf := (h j j' value value' hi.linked hv hv').fresh id id' hi.related
  have hl := (h.paired_succ hi).lt hi.related
  exact ⟨⟨hf.1, hl.1⟩, hf.2, hl.2⟩

/-- The correspondences of linked parts do not meet, so together they pair the nodes of all. -/
theorem PartsCorrespond.paired
    (hrg : ∀ j first second, link j first → link j second → first = second)
    (hl : ∀ first second j, link first j → link second j → first = second) :
    Paired (fun id id' => ∃ j j', InParts link part values values' j j' id id')
      (addItems values nodes).2 (addItems values' nodes').2 := by
  refine ⟨?_, ?_, ?_⟩
  · rintro id first second ⟨j, j', hf⟩ ⟨k, k', hs⟩
    -- A node lies in one interval only, and so both pairs belong to the same parts.
    obtain ⟨⟨hj, hj'⟩, -⟩ := h.bounds hf
    obtain ⟨⟨hk, hk'⟩, -⟩ := h.bounds hs
    obtain rfl := eq_of_nodesBefore hj hj' hk hk'
    obtain rfl := hrg j j' k' hf.linked hs.linked
    exact (h.paired_succ hf).right_unique id first second hf.related hs.related
  · rintro first second id ⟨j, j', hf⟩ ⟨k, k', hs⟩
    obtain ⟨-, hj, hj'⟩ := h.bounds hf
    obtain ⟨-, hk, hk'⟩ := h.bounds hs
    obtain rfl := eq_of_nodesBefore hj hj' hk hk'
    obtain rfl := hl j k j' hf.linked hs.linked
    exact (h.paired_succ hf).left_unique first second id hf.related hs.related
  · rintro id id' ⟨j, j', hi⟩
    obtain ⟨node, node', hn, hn', hm⟩ :=
      (h.paired_succ hi).nodes id id' hi.related
    refine ⟨node, node', extends_nodesBefore_addItems id node hn,
      extends_nodesBefore_addItems id' node' hn', ?_⟩
    exact hm.mono fun _ _ hr => ⟨j, j', hi.linked, hr, hi.left, hi.right⟩

end

end

/-- Trees whose parts were added in another order correspond if the linked parts do. The nodes of
each part fill an interval of their own, so that the correspondences of the parts do not meet. -/
theorem exists_paired_addItems {values' : List Value} (link : ℕ → ℕ → Prop)
    (hrg : ∀ j first second, link j first → link j second → first = second)
    (hlf : ∀ first second j, link first j → link second j → first = second)
    (h : ∀ (j j' : ℕ) (value value' : Value), link j j' → values[j]? = some value →
      values'[j']? = some value' → ∀ nodes nodes', ∃ R, Corresponds R value value' nodes nodes')
    (nodes nodes' : Array Node) :
    ∃ R : ℕ → ℕ → Prop, Paired R (addItems values nodes).2 (addItems values' nodes').2 ∧
      (∀ id id', R id id' → nodes.size ≤ id ∧ nodes'.size ≤ id') ∧
      ∀ (j j' : ℕ) (item item' : Item), link j j' → (addItems values nodes).1[j]? = some item →
        (addItems values' nodes').1[j']? = some item' → Item.Matches R item item' := by
  obtain ⟨part, hp⟩ := exists_partsCorrespond h
  refine ⟨fun id id' => ∃ j j', InParts link part values values' j j' id id',
    hp.paired hrg hlf, ?_, ?_⟩
  · rintro id id' ⟨j, j', hin⟩
    obtain ⟨⟨hj, -⟩, hj', -⟩ := hp.bounds hin
    have hs := (extends_nodesBefore values nodes (Nat.zero_le j)).size_le
    have hs' := (extends_nodesBefore values' nodes' (Nat.zero_le j')).size_le
    exact ⟨Nat.le_trans hs hj, Nat.le_trans hs' hj'⟩
  · intro j j' item item' hl hi hi'
    obtain ⟨value, hv, rfl⟩ := getElem?_addItems hi
    obtain ⟨value', hv', rfl⟩ := getElem?_addItems hi'
    exact (hp j j' value value' hl hv hv').item.mono fun _ _ hr =>
      ⟨j, j', hl, hr, ⟨value, hv⟩, value', hv'⟩

/-- Containers correspond if their parts do. -/
theorem Corresponds.of_push {later' : Array Node}
    (hv : addValue value nodes = (.node later.size, later.push node))
    (hv' : addValue value' nodes' = (.node later'.size, later'.push node'))
    (hp : Paired R later later')
    (hf : ∀ id id', R id id' → nodes.size ≤ id ∧ nodes'.size ≤ id')
    (hn : Node.Matches R node node') (hl : Extends nodes later)
    (hl' : Extends nodes' later') :
    Corresponds (fun id id' => R id id' ∨ id = later.size ∧ id' = later'.size) value value' nodes
      nodes' where
  paired := by
    rw [hv, hv']
    exact hp.push hn
  fresh := by
    rintro id id' (hi | ⟨rfl, rfl⟩)
    · exact hf id id' hi
    · exact ⟨hl.size_le, hl'.size_le⟩
  item := by
    rw [hv, hv']
    exact .node (Or.inr ⟨rfl, rfl⟩)

/-- The positions have the same key. -/
def SameKey (keys keys' : List Atom) (j j' : ℕ) : Prop :=
  ∃ key, keys[j]? = some key ∧ keys'[j']? = some key

theorem SameKey.right_unique (hn : keys'.Nodup) {first second : ℕ}
    (h : SameKey keys keys' j first) (h' : SameKey keys keys' j second) : first = second := by
  obtain ⟨key, hj, hf⟩ := h
  obtain ⟨key', hj', hs⟩ := h'
  obtain rfl := some.inj (hj.symm.trans hj')
  have hl := (List.getElem?_eq_some_iff.mp hf).1
  exact (List.getElem?_inj hl hn).mp (hf.trans hs.symm)

theorem SameKey.symm (h : SameKey keys keys' j j') : SameKey keys' keys j' j := by
  obtain ⟨key, hk, hk'⟩ := h
  exact ⟨key, hk', hk⟩

/-- A key and a value at the same position are an entry. -/
theorem mem_of_getElem?_map {entries : List (Atom × Value)}
    (hk : (entries.map (·.1))[j]? = some key) (hv : (entries.map (·.2))[j]? = some value) :
    (key, value) ∈ entries := by
  rw [getElem?_map] at hk hv
  obtain ⟨entry, he, rfl⟩ := map_eq_some_iff.mp hk
  obtain ⟨entry', he', rfl⟩ := map_eq_some_iff.mp hv
  obtain rfl := some.inj (he.symm.trans he')
  exact mem_of_getElem? he

theorem map_fst_zip_addItems (entries : List (Atom × Value)) (nodes : Array Node) :
    ((entries.map (·.1)).zip (addItems (entries.map (·.2)) nodes).1).map (·.1) =
      entries.map (·.1) := by
  have hl : (addItems (entries.map (·.2)) nodes).1.length = (entries.map (·.1)).length := by
    rw [length_addItems, length_map, length_map]
  exact map_fst_zip (Nat.le_of_eq hl.symm)

/-- The nodes of reordered trees correspond one to one. -/
theorem exists_corresponds (h : Value.Reordered value value')
    (nodes nodes' : Array Node) : ∃ R, Corresponds R value value' nodes nodes' := by
  induction h generalizing nodes nodes' with
  | atom value =>
    exact ⟨fun _ _ => False, ⟨fun _ _ _ h => h.elim, fun _ _ _ h => h.elim, fun _ _ h => h.elim⟩,
      fun _ _ h => h.elim, .atom value⟩
  | @list items items' hln _ ih =>
    obtain ⟨R, hp, hf, hit⟩ := exists_paired_addItems Eq
      (fun _ _ _ h h' => h.symm.trans h') (fun _ _ _ h h' => h.trans h'.symm)
      (fun j j' item item' hl hi hi' => ih j item item' hi (hl ▸ hi'))
      nodes nodes'
    refine ⟨_, .of_push rfl rfl hp hf (.list ?_ fun k item item' => ?_)
      extends_addItems extends_addItems⟩
    · rw [length_addItems, length_addItems, hln]
    · exact hit k k item item' rfl
  | @map entries entries' hn hky _ ih =>
    -- The values are linked by their keys.
    obtain ⟨R, hp, hf, hit⟩ := @exists_paired_addItems (entries.map (·.2))
      (entries'.map (·.2)) (SameKey (entries.map (·.1)) (entries'.map (·.1)))
      (fun _ _ _ => SameKey.right_unique (hky.nodup_iff.mp hn))
      (fun _ _ _ h h' => SameKey.right_unique hn h.symm h'.symm)
      (fun j j' value value' hl hv hv' => by
        obtain ⟨key, hk, hk'⟩ := hl
        exact ih key value value' (mem_of_getElem?_map hk hv)
          (mem_of_getElem?_map hk' hv'))
      nodes nodes'
    have ha := addEntries_eq entries nodes
    have ha' := addEntries_eq entries' nodes'
    refine ⟨_, .of_push (by rw [addValue, ha]) (by rw [addValue, ha']) hp hf
      (.map ?_ ?_ ?_) extends_addItems extends_addItems⟩
    · rw [map_fst_zip_addItems]
      exact hn
    · rw [map_fst_zip_addItems, map_fst_zip_addItems]
      exact hky
    · intro key item item' hi hi'
      obtain ⟨j, hj⟩ := mem_iff_getElem?.mp hi
      obtain ⟨j', hj'⟩ := mem_iff_getElem?.mp hi'
      obtain ⟨hk, hi⟩ := getElem?_zip_eq_some.mp hj
      obtain ⟨hk', hi'⟩ := getElem?_zip_eq_some.mp hj'
      exact hit j j' item item' ⟨key, hk, hk'⟩ hi hi'

end Graph

end ApiSchema
