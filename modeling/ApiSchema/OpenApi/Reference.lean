/-
# References

A reference is a map with a pointer under `$ref`. Every reference in a document is replaced by the
very part that it points to, so that places with references to the same part share it.
-/
import ApiSchema.Graph.Basic
import ApiSchema.Numeral
import ApiSchema.Text.Split

namespace ApiSchema.OpenApi

/-! ## Faults -/

/-- Why a reference cannot be replaced. -/
inductive ReferenceError
  /-- The pointer does not lead into the document. -/
  | external (pointer : String)
  /-- There is nothing at the end of the pointer. -/
  | unresolvable (pointer : String)
  /-- The pointer leads to a reference that leads back. -/
  | circular (pointer : String)
  /-- A position is past the end of a list. -/
  | pastEnd
  /-- A position is written in digits that give no number. -/
  | notANumber (fault : Numeral.Fault)
deriving DecidableEq, Inhabited

def ReferenceError.message? : ReferenceError → Option String
  | .external pointer => some ("Unsupported external reference: " ++ pointer)
  | .unresolvable pointer => some ("Unresolvable reference: " ++ pointer)
  | .circular pointer => some ("Circular reference alias: " ++ pointer)
  | .pastEnd => none
  | .notANumber fault => some fault.message

/-! ## Pointers -/

/-- A token of a pointer with its escapes replaced, those of slashes first. -/
def unescape (token : List Char) : String :=
  String.ofList (Text.replaceAll ['~', '0'] ['~'] (Text.replaceAll ['~', '1'] ['/'] token))

/-- How a pointer into the document starts. -/
def localStart : List Char := ['#', '/']

def pointerTokens? (pointer : String) : Option (List String) :=
  if localStart.isPrefixOf pointer.toList then
    some ((Text.splitAtMark '/' (pointer.toList.drop localStart.length)).map unescape)
  else none

def pointer? (graph : Graph) (item : Item) : Option String :=
  (graph.get? item "$ref").bind Item.text?

/-- Goes one step along a pointer: to a position of a list, or to a key of a map. -/
def step (graph : Graph) (pointer : String) (item : Item) (token : String) :
    Except ReferenceError Item :=
  let digits := token.toList
  match graph.node? item with
  | some (.list items) =>
    if !digits.isEmpty && digits.all Text.isDigitOfAnyScript then
      match Numeral.whole .decimal digits with
      | .error fault => .error (.notANumber fault)
      | .ok position =>
        match items[position.toNat]? with
        | some item => .ok item
        | none => .error .pastEnd
    else .error (.unresolvable pointer)
  | some (.map entries) =>
    match Assoc.get? entries (.text token) with
    | some item => .ok item
    | none => .error (.unresolvable pointer)
  | _ => .error (.unresolvable pointer)

/-- The part that a pointer leads to, which may itself be a reference. -/
def target (graph : Graph) (pointer : String) : Except ReferenceError Item :=
  match pointerTokens? pointer with
  | none => .error (.external pointer)
  | some tokens => tokens.foldlM (step graph pointer) graph.root

/-- Follows references from an item until there is none. `seen` are the pointers met on the way from
`start`. In a document with fewer references than the first argument says, one of them comes back
before it runs out. -/
def chase (graph : Graph) (start : String) :
    Nat → List String → Item → Except ReferenceError Item
  | 0, _, _ => .error (.circular start)
  | fuel + 1, seen, item =>
    match pointer? graph item with
    | none => .ok item
    | some pointer =>
      if seen.contains pointer then .error (.circular start)
      else do chase graph start fuel (pointer :: seen) (← target graph pointer)

/-- The part that a pointer finally leads to. -/
def resolve (graph : Graph) (pointer : String) : Except ReferenceError Item := do
  chase graph pointer (graph.nodes.size + 1) [pointer] (← target graph pointer)

/-! ## Replacing -/

/-- The document so far, the pointers that were resolved, and the nodes that were entered. -/
structure Replacing where
  graph : Graph
  resolved : List (String × Item)
  visited : List Nat
deriving Inhabited

/-- The part for a pointer; once resolved it stays the same. -/
def Replacing.resolve (state : Replacing) (pointer : String) :
    Except ReferenceError (Item × Replacing) :=
  match Assoc.get? state.resolved pointer with
  | some item => .ok (item, state)
  | none => do
    let item ← OpenApi.resolve state.graph pointer
    return (item, { state with resolved := Assoc.put state.resolved pointer item })

/-- What has to stand in a place of a node: a reference is replaced. -/
def Replacing.settle (state : Replacing) (id position : Nat) (item : Item) :
    Except ReferenceError (Item × Replacing) :=
  match pointer? state.graph item with
  | none => .ok (item, state)
  | some pointer => do
    let (part, state) ← state.resolve pointer
    return (part, { state with graph := state.graph.setAt id position part })

/-- Replaces the references in all places of a node and below it, place by place. A node is entered
once. The first argument bounds the depth, which never exceeds the number of nodes. -/
def replaceBelow : Nat → Replacing → Item → Except ReferenceError Replacing
  | 0, state, _ => .ok state
  | _, state, .atom _ => .ok state
  | fuel + 1, state, .node id =>
    if state.visited.contains id then .ok state
    else
      match state.graph.nodes[id]? with
      | none => .ok state
      | some node =>
        node.places.zipIdx.foldlM
          (fun state (item, position) => do
            let (item, state) ← state.settle id position item
            replaceBelow fuel state item)
          { state with visited := id :: state.visited }

/-- The document with every reference replaced by the part that it points to. -/
def dereference (graph : Graph) : Except ReferenceError Graph := do
  let state ← replaceBelow (graph.nodes.size + 1) ⟨graph, [], []⟩ graph.root
  return state.graph

end ApiSchema.OpenApi
