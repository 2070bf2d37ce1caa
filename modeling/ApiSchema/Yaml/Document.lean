/-
# YAML documents

From nodes to data. A collection is made empty and filled later, in the order in which collections
are met, so that it can contain itself. The entries of merged mappings go before the own entries of
a mapping, which replace them in place; of entries with the same key the last one counts. Keys are
atoms.
-/
import ApiSchema.Graph.Basic
import ApiSchema.Yaml.Tree

namespace ApiSchema.Yaml

/-- The state of making data from nodes. -/
structure Making where
  /-- The nodes of the text. Merging changes the entries of mappings and the tags of keys. -/
  elements : Array Element
  /-- The containers of the data. -/
  nodes : Array Node
  /-- What has been made of the nodes of the text. -/
  made : Array (Option Item)
  /-- The collections that wait to be filled, the last one first: nodes of the text and their
  containers. -/
  waiting : List (Nat × Nat)
deriving Inhabited

/-- A step in making data. -/
abbrev Maker := StateT Making Reading

namespace Making

def tag (making : Making) (id : Nat) : Tag := (making.elements[id]?.map (·.tag)).getD .null

def content (making : Making) (id : Nat) : Content :=
  (making.elements[id]?.map (·.content)).getD (.scalar "")

def entries (making : Making) (id : Nat) : List (Nat × Nat) :=
  match making.content id with
  | .mapping entries => entries
  | _ => []

/-- The state with other entries of a mapping. -/
def setEntries (making : Making) (id : Nat) (entries : List (Nat × Nat)) : Making :=
  { making with
    elements := making.elements.modify id fun element =>
      { element with content := .mapping entries } }

/-- The state with another tag of a node. -/
def setTag (making : Making) (id : Nat) (tag : Tag) : Making :=
  { making with elements := making.elements.modify id fun element => { element with tag } }

end Making

/-! ## Merging -/

/-- The first entry with a key that asks for a merge: what is to be merged, and the other entries.
-/
def firstMerge? (isMerge : Nat → Bool) :
    List (Nat × Nat) → Option (Nat × List (Nat × Nat))
  | [] => none
  | (key, value) :: rest =>
    if isMerge key then some (value, rest)
    else (firstMerge? isMerge rest).map fun (source, others) => (source, (key, value) :: others)

/-- The number of entries that ask for a merge. -/
def mergeCount (elements : Array Element) : Nat :=
  elements.foldl
    (fun count element =>
      match element.content with
      | .mapping entries =>
        count + entries.countP fun (key, _) => (elements[key]?.map (·.tag)) == some .merge
      | _ => count)
    0

/-- A key that is not a merge; the mark of a value is a text there. -/
def spellOut (key : Nat) : Maker Unit := do
  if (← get).tag key = .value then modify (·.setTag key .text)

/-- Carries out the merges in a mapping, one after the other. `merged` are the entries gained so
far; they go before the others. Of the mappings in a list the later ones go first. Every merge is
taken out before its source is looked at, so the first argument, which bounds the depth, need not
exceed the number of merges. -/
def carryOutMerges : Nat → Nat → List (Nat × Nat) → Maker Unit
  | 0, _, _ => return
  | fuel + 1, id, merged => do
    let making ← get
    let entries := making.entries id
    match firstMerge? (fun key => making.tag key = .merge) entries with
    | none =>
      modify (·.setEntries id (merged ++ entries))
      entries.forM fun (key, _) => spellOut key
    | some (source, others) =>
      modify (·.setEntries id others)
      let gain (id : Nat) : Maker (List (Nat × Nat)) := do
        match (← get).content id with
        | .mapping _ =>
          carryOutMerges fuel id []
          return (← get).entries id
        | _ => throw .malformed
      let gained ← match making.content source with
        | .sequence items => pure (← items.mapM gain).reverse.flatten
        | _ => gain source
      carryOutMerges fuel id (merged ++ gained)

/-! ## Items -/

/-- The text of a scalar. A mapping stands for the scalar under the mark of a value. The first
argument bounds the depth. -/
def scalarText (making : Making) : Nat → Nat → Reading String
  | 0, _ => .error .malformed
  | fuel + 1, id =>
    match making.content id with
    | .scalar text => .ok text
    | .sequence _ => .error .malformed
    | .mapping entries =>
      match entries.find? fun (key, _) => making.tag key = .value with
      | some (_, value) => scalarText making fuel value
      | none => .error .malformed

/-- The text that a node stands for. -/
def Making.text (making : Making) (id : Nat) : Reading String :=
  scalarText making (making.elements.size + 1) id

/-- The atom of a node that is no collection. -/
def atomFor (making : Making) (id : Nat) : Reading Atom := do
  let text ← making.text id
  match making.tag id, making.content id with
  | .timestamp, .mapping _ => .error .dateInMapping
  | tag, _ => atomOf tag text

def addNode (node : Node) : Maker Nat :=
  modifyGet fun making => (making.nodes.size, { making with nodes := making.nodes.push node })

/-- Starts a collection, which is filled later. -/
def start (id : Nat) (node : Node) : Maker Item := do
  let container ← addNode node
  modify fun making => { making with waiting := (id, container) :: making.waiting }
  return .node container

/-- What stands for a node; it is made once. -/
def make (id : Nat) : Maker Item := do
  let making ← get
  match making.made[id]?.join with
  | some item => return item
  | none =>
    let item ← match making.tag id with
      | .list => start id (.list [])
      | .pairs => start id (.list [])
      | .set => start id (.set [])
      | .map => start id (.map [])
      | _ => pure (.atom (← atomFor making id))
    modify fun making => { making with made := making.made.setIfInBounds id (some item) }
    return item

/-! ## Collections -/

/-- A key, with a number if it is the same as no other key. Only what is not a number, unless it is
written as the word for it, is such a key. -/
def makeKey (id : Nat) : Maker (Atom × Option Nat) := do
  match ← make id with
  | .node _ => throw .malformed
  | .atom key =>
    if key = .float .nan && !isNanWord (← (← get).text id) then return (key, some id)
    else return (key, none)

/-- The entries of a mapping; of those with the same key the last one counts. -/
def makeEntries (entries : List (Nat × Nat)) : Maker (List (Atom × Item)) := do
  let made ← entries.mapM fun (key, value) => return (← makeKey key, ← make value)
  return (Assoc.ofList made).map fun ((key, _), value) => (key, value)

/-- The pair of the only entry of a mapping. -/
def makePair (id : Nat) : Maker Item := do
  match (← get).content id with
  | .mapping [(key, value)] => return .node (← addNode (.tuple [← make key, ← make value]))
  | _ => throw .malformed

/-- The container for a collection, whose tag has to fit. `merges` bounds the number of merges. -/
def containerFor (merges id : Nat) : Maker Node := do
  let making ← get
  match making.tag id, making.content id with
  | .list, .sequence items => return .list (← items.mapM make)
  | .pairs, .sequence items => return .list (← items.mapM makePair)
  | .set, .mapping _ =>
    carryOutMerges (merges + 1) id []
    return .set ((← makeEntries ((← get).entries id)).map (·.1))
  | .map, .mapping _ =>
    carryOutMerges (merges + 1) id []
    return .map (← makeEntries ((← get).entries id))
  | _, _ => throw .malformed

def fillIn (merges : Nat) (collection : Nat × Nat) : Maker Unit := do
  let node ← containerFor merges collection.1
  modify fun making => { making with nodes := making.nodes.setIfInBounds collection.2 node }

/-- Fills the collections that wait, and then those that were met on the way. Every collection is
filled once, so the number of nodes bounds the number of rounds, which is the second argument. -/
def fillAll (merges : Nat) : Nat → Maker Unit
  | 0 => return
  | rounds + 1 => do
    match (← get).waiting with
    | [] => return
    | waiting =>
      modify fun making => { making with waiting := [] }
      waiting.reverse.forM (fillIn merges)
      fillAll merges rounds

/-! ## Documents -/

/-- The data of the nodes of a document. -/
def dataOf (root : Option Nat) (elements : Array Element) : Reading Graph := do
  match root with
  | none => return ⟨#[], .null⟩
  | some root =>
    let making : Making := ⟨elements, #[], Array.replicate elements.size none, []⟩
    let build : Maker Item := do
      let item ← make root
      fillAll (mergeCount elements) (elements.size + 1)
      return item
    let (item, making) ← build.run making
    return ⟨making.nodes, item⟩

/-- The data that a text writes; null if it has no document. -/
def parse (text : String) : Reading Graph := do
  let (root, elements) ← assemble (Token.scan text)
  dataOf root elements

end ApiSchema.Yaml
