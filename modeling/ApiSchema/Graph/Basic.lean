/-
# Data with shared parts

Plain data in which containers have an identity: the same list or map can stand in several places,
also inside itself. Every container is a node with a number, and a place holds an atom or the number
of a node.
-/
import ApiSchema.Value.Basic

namespace ApiSchema

/-- What stands in a place: an atom, or the node of a number. -/
inductive Item
  | atom (value : Atom)
  | node (id : Nat)
deriving DecidableEq, Inhabited

/-- A container. -/
inductive Node
  | list (items : List Item)
  | tuple (items : List Item)
  | set (members : List Atom)
  | map (entries : List (Atom × Item))
deriving Inhabited

namespace Node

/-- What stands in the places of a node that can be written to, in order. A tuple and a set have no
such places. -/
def places : Node → List Item
  | list items => items
  | map entries => entries.map (·.2)
  | _ => []

/-- What is met when a node is gone through. -/
def items : Node → List Item
  | list items => items
  | tuple items => items
  | set members => members.map .atom
  | map entries => entries.map fun entry => .atom entry.1

/-- The node with something else in the place at a position. -/
def setAt (position : Nat) (item : Item) : Node → Node
  | list items => list (items.set position item)
  | map entries => map (entries.modify position fun entry => (entry.1, item))
  | node => node

end Node

/-- Nodes by number, and the item at which the data starts. -/
structure Graph where
  nodes : Array Node
  root : Item
deriving Inhabited

namespace Item

def null : Item := atom .null

def text (s : String) : Item := atom (.text s)

def isNull : Item → Bool
  | atom .null => true
  | _ => false

def text? : Item → Option String
  | atom (.text s) => some s
  | _ => none

def isText (item : Item) (s : String) : Bool := item.text? == some s

end Item

namespace Graph

/-! ## Access -/

def node? (graph : Graph) : Item → Option Node
  | .atom _ => none
  | .node id => graph.nodes[id]?

def map? (graph : Graph) (item : Item) : Option (List (Atom × Item)) :=
  match graph.node? item with
  | some (.map entries) => some entries
  | _ => none

def list? (graph : Graph) (item : Item) : Option (List Item) :=
  match graph.node? item with
  | some (.list items) => some items
  | _ => none

/-- What a map has under a text key. -/
def get? (graph : Graph) (item : Item) (key : String) : Option Item :=
  (graph.map? item).bind fun entries => Assoc.get? entries (.text key)

def isMap (graph : Graph) (item : Item) : Bool := (graph.map? item).isSome

def maps (graph : Graph) : List Nat :=
  (List.range graph.nodes.size).filter fun id => graph.isMap (.node id)

/-- Whether an item counts as absent: an atom that does, or a container with nothing in it. -/
def isBlank (graph : Graph) : Item → Bool
  | .atom a => a.isBlank
  | .node id =>
    match graph.nodes[id]? with
    | some node => node.items.isEmpty
    | none => true

/-- The data with something else in one place of a node. -/
def setAt (graph : Graph) (id position : Nat) (item : Item) : Graph :=
  { graph with nodes := graph.nodes.modify id (·.setAt position item) }

/-! ## Trees -/

mutual

/-- Adds the nodes of a tree; no two places of it share a node. -/
def addValue : Value → Array Node → Item × Array Node
  | .atom value, nodes => (.atom value, nodes)
  | .list items, nodes =>
    let (items, nodes) := addItems items nodes
    (.node nodes.size, nodes.push (.list items))
  | .tuple items, nodes =>
    let (items, nodes) := addItems items nodes
    (.node nodes.size, nodes.push (.tuple items))
  | .set members, nodes => (.node nodes.size, nodes.push (.set members))
  | .map entries, nodes =>
    let (entries, nodes) := addEntries entries nodes
    (.node nodes.size, nodes.push (.map entries))
  | .again _, nodes => (.null, nodes)

/-- Adds the nodes of several trees. -/
def addItems : List Value → Array Node → List Item × Array Node
  | [], nodes => ([], nodes)
  | value :: rest, nodes =>
    let (item, nodes) := addValue value nodes
    let (items, nodes) := addItems rest nodes
    (item :: items, nodes)

/-- Adds the nodes of the values of a map. -/
def addEntries : List (Atom × Value) → Array Node → List (Atom × Item) × Array Node
  | [], nodes => ([], nodes)
  | (key, value) :: rest, nodes =>
    let (item, nodes) := addValue value nodes
    let (entries, nodes) := addEntries rest nodes
    ((key, item) :: entries, nodes)

end

/-- A tree as data in which nothing is shared. -/
def ofValue (value : Value) : Graph :=
  let (root, nodes) := addValue value #[]
  ⟨nodes, root⟩

/-- The tree below an item inside the nodes on `path`, to a depth; deeper parts are null. -/
def unfold (graph : Graph) : Nat → List Nat → Item → Value
  | _, _, .atom value => .atom value
  | 0, _, .node _ => .atom .null
  | depth + 1, path, .node id =>
    let below := graph.unfold depth (id :: path)
    let inside := path.contains id
    match graph.nodes[id]? with
    | some (.list items) => if inside then .again .list else .list (items.map below)
    | some (.tuple items) => if inside then .again .tuple else .tuple (items.map below)
    | some (.set members) => .set members
    | some (.map entries) =>
      if inside then .again .map else .map (entries.map fun (key, item) => (key, below item))
    | none => .atom .null

/-- The tree below an item, cut where a container comes back inside itself. No way down is longer
than the number of nodes. -/
def toValue (graph : Graph) (item : Item) : Value := graph.unfold (graph.nodes.size + 1) [] item

end Graph

end ApiSchema
