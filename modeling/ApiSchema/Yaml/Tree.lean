/-
# Nodes of YAML

The nodes that tokens make up: scalars, sequences and mappings, each with a tag. Every node has a
number. An anchor names a node and an alias stands for the node of that name, so that nodes can be
shared and can contain themselves.
-/
import ApiSchema.Assoc
import ApiSchema.Yaml.Resolve
import ApiSchema.Yaml.Token

namespace ApiSchema.Yaml

/-- What a node is made of; its parts are given by their numbers. -/
inductive Content
  | scalar (text : String)
  | sequence (items : List Nat)
  | mapping (entries : List (Nat × Nat))
deriving Inhabited

/-- A node. -/
structure Element where
  tag : Tag
  content : Content
deriving Inhabited

/-- The state of putting nodes together. -/
structure Assembly where
  tokens : List Token
  elements : Array Element
  anchors : List (String × Nat)
  /-- What the handles of tags stand for. -/
  handles : List (String × String)
deriving Inhabited

/-- A step in putting nodes together. -/
abbrev Assembler := StateT Assembly Reading

namespace Assembler

/-! ## Tokens -/

/-- Gives up because the text is not well formed. -/
def refuse {α : Type} : Assembler α := throw .malformed

/-- The next token. Where the text cannot be read the assembly ends. -/
def peek? : Assembler (Option Token) := do
  match (← get).tokens.head? with
  | some (.broken fault) => throw fault
  | token => return token

/-- Moves past a token. -/
def drop : Assembler Unit := modify fun s => { s with tokens := s.tokens.drop 1 }

/-- Moves past a given token, if it is next. -/
def takes (token : Token) : Assembler Bool := do
  if (← peek?) == some token then
    drop
    return true
  else return false

/-- Moves past a given token, which has to be next. -/
def expect (token : Token) : Assembler Unit := do
  if !(← takes token) then refuse

def seesAny (tokens : List Token) : Assembler Bool := return (← peek?).any tokens.contains

/-! ## Properties of nodes -/

def anchor? : Assembler (Option String) := do
  match ← peek? with
  | some (.anchor name) =>
    drop
    return some name
  | _ => return none

/-- The name of a tag, if one is next. -/
def tag? : Assembler (Option String) := do
  match ← peek? with
  | some (.tag handle suffix) =>
    drop
    match handle with
    | none => return some suffix
    | some handle =>
      match (← get).handles.lookup handle with
      | some start => return some (start ++ suffix)
      | none => refuse
  | _ => return none

/-- The anchor and the tag of a node, in any order. -/
def properties : Assembler (Option String × Option String) := do
  match ← anchor? with
  | some anchor => return (some anchor, ← tag?)
  | none =>
    match ← tag? with
    | some tag => return (← anchor?, some tag)
    | none => return (none, none)

/-- Names a node. A name is given once. -/
def name (anchor : Option String) (id : Nat) : Assembler Unit := do
  match anchor with
  | none => return
  | some anchor => modify fun s => { s with anchors := Assoc.put s.anchors anchor id }

/-- The tag of a scalar: its own, or the one that its text gives. The mark alone asks for the
latter also in quotes. -/
def scalarTag (tag : Option String) (plain : Bool) (text : String) : Tag :=
  match tag with
  | some "!" => tagOfText text
  | some tag => .ofName tag
  | none => if plain then tagOfText text else .text

def collectionTag (tag : Option String) (default : Tag) : Tag :=
  match tag with
  | some "!" => default
  | some tag => .ofName tag
  | none => default

def add (anchor : Option String) (element : Element) : Assembler Nat := do
  let id := (← get).elements.size
  modify fun s => { s with elements := s.elements.push element }
  name anchor id
  return id

/-- Adds a collection, which may be named before its parts are known. -/
def reserve (anchor : Option String) : Assembler Nat := add anchor ⟨.list, .sequence []⟩

def fill (id : Nat) (tag : Tag) (content : Content) : Assembler Nat := do
  modify fun s => { s with elements := s.elements.setIfInBounds id ⟨tag, content⟩ }
  return id

/-! ## Nodes -/

/-- The scalar that stands where nothing is written. -/
def nothing : Assembler Nat := add none ⟨.null, .scalar ""⟩

/-- The empty scalar, which may stand where an anchor or a tag does. -/
def empty (anchor tag : Option String) : Assembler Nat := do
  if anchor.isNone && tag.isNone then refuse
  else add anchor ⟨scalarTag tag true "", .scalar ""⟩

/-- Where a node stands: in a block, in a block where a sequence needs no indentation of its own, or
between brackets. -/
inductive Position
  | block
  | blockOrEntries
  | flow
deriving DecidableEq, Inhabited

mutual

def node : Nat → Position → Assembler Nat
  | 0, _ => refuse
  | fuel + 1, position => do
    match ← peek? with
    | some (.alias anchor) =>
      drop
      match (← get).anchors.lookup anchor with
      | some id => return id
      | none => refuse
    | _ =>
      let (anchor, tag) ← properties
      let named := (← get).anchors
      if anchor.any fun anchor => (named.lookup anchor).isSome then refuse
      let listTag := collectionTag tag .list
      let mapTag := collectionTag tag .map
      match ← peek? with
      | some (.scalar plain text) =>
        drop
        add anchor ⟨scalarTag tag plain text, .scalar text⟩
      | some .flowSequenceStart =>
        drop
        let id ← reserve anchor
        fill id listTag (.sequence (← flowItems fuel true))
      | some .flowMappingStart =>
        drop
        let id ← reserve anchor
        fill id mapTag (.mapping (← flowEntries fuel true))
      | some .blockEntry =>
        if position = .blockOrEntries then
          let id ← reserve anchor
          fill id listTag (.sequence (← entries fuel))
        else empty anchor tag
      | some .blockSequenceStart =>
        if position = .flow then empty anchor tag
        else
          drop
          let id ← reserve anchor
          fill id listTag (.sequence (← blockItems fuel))
      | some .blockMappingStart =>
        if position = .flow then empty anchor tag
        else
          drop
          let id ← reserve anchor
          fill id mapTag (.mapping (← blockEntries fuel))
      | _ => empty anchor tag

def blockItems : Nat → Assembler (List Nat)
  | 0 => refuse
  | fuel + 1 => do
    if ← takes .blockEntry then
      let item ←
        if ← seesAny [.blockEntry, .blockEnd] then nothing else node fuel .block
      return item :: (← blockItems fuel)
    else
      expect .blockEnd
      return []

/-- The items of a sequence without indentation of its own. -/
def entries : Nat → Assembler (List Nat)
  | 0 => refuse
  | fuel + 1 => do
    if ← takes .blockEntry then
      let item ←
        if ← seesAny [.blockEntry, .key, .value, .blockEnd] then nothing
        else node fuel .block
      return item :: (← entries fuel)
    else return []

/-- A key or a value of a block mapping. -/
def blockPart : Nat → Assembler Nat
  | 0 => refuse
  | fuel + 1 => do
    if ← seesAny [.key, .value, .blockEnd] then nothing else node fuel .blockOrEntries

def blockEntries : Nat → Assembler (List (Nat × Nat))
  | 0 => refuse
  | fuel + 1 => do
    if ← takes .key then
      let key ← blockPart fuel
      let value ← if ← takes .value then blockPart fuel else nothing
      return (key, value) :: (← blockEntries fuel)
    else
      expect .blockEnd
      return []

/-- A key or a value between brackets that ends before some tokens. -/
def flowPart : Nat → List Token → Assembler Nat
  | 0, _ => refuse
  | fuel + 1, ends => do if ← seesAny ends then nothing else node fuel .flow

/-- The items of a sequence in brackets. An item with a colon is a mapping of one entry. -/
def flowItems : Nat → Bool → Assembler (List Nat)
  | 0, _ => refuse
  | fuel + 1, first => do
    if ← takes .flowSequenceEnd then return []
    else
      if !first then expect .flowEntry
      if ← takes .key then
        let id ← reserve none
        let key ← flowPart fuel [.value, .flowEntry, .flowSequenceEnd]
        let value ←
          if ← takes .value then flowPart fuel [.flowEntry, .flowSequenceEnd] else nothing
        let item ← fill id .map (.mapping [(key, value)])
        return item :: (← flowItems fuel false)
      else if ← takes .flowSequenceEnd then return []
      else
        let item ← node fuel .flow
        return item :: (← flowItems fuel false)

/-- The entries of a mapping in braces. A key may stand alone. -/
def flowEntries : Nat → Bool → Assembler (List (Nat × Nat))
  | 0, _ => refuse
  | fuel + 1, first => do
    if ← takes .flowMappingEnd then return []
    else
      if !first then expect .flowEntry
      if ← takes .key then
        let key ← flowPart fuel [.value, .flowEntry, .flowMappingEnd]
        let value ←
          if ← takes .value then flowPart fuel [.flowEntry, .flowMappingEnd] else nothing
        return (key, value) :: (← flowEntries fuel false)
      else if ← takes .flowMappingEnd then return []
      else
        let key ← node fuel .flow
        return (key, ← nothing) :: (← flowEntries fuel false)

end

/-! ## Documents -/

/-- The handles of tags that need no directive. -/
def commonHandles : List (String × String) := [("!", "!"), ("!!", Tag.commonStart)]

/-- Reads the directives of a document. -/
def directives : Nat → Bool → Assembler Unit
  | 0, _ => refuse
  | fuel + 1, versioned => do
    match ← peek? with
    | some (.version major) =>
      if versioned || major != 1 then refuse
      drop
      directives fuel true
    | some (.tagHandle handle start) =>
      if ((← get).handles.lookup handle).isSome then refuse
      drop
      modify fun s => { s with handles := s.handles ++ [(handle, start)] }
      directives fuel versioned
    | some .otherDirective =>
      drop
      directives fuel versioned
    | _ => modify fun s => { s with handles := s.handles ++ commonHandles }

def seesDirective : Assembler Bool := do
  match ← peek? with
  | some (.version _) => return true
  | some (.tagHandle ..) => return true
  | some .otherDirective => return true
  | _ => return false

/-- The content of a document after its mark; it may be missing. -/
def content (fuel : Nat) : Assembler Nat := do
  if (← peek?).isNone || (← seesDirective) || (← seesAny [.documentStart, .documentEnd]) then
    nothing
  else node fuel .block

/-- Moves past marks of the end of a document. -/
def skipEnds : Nat → Assembler Unit
  | 0 => pure ()
  | fuel + 1 => do if ← takes .documentEnd then skipEnds fuel

/-- The only document of a text, if there is one. -/
def document (fuel : Nat) : Assembler (Option Nat) := do
  if (← peek?).isNone then return none
  else
    let root ←
      if (← seesDirective) || (← seesAny [.documentStart]) then do
        directives fuel false
        expect .documentStart
        content fuel
      else do
        modify fun s => { s with handles := commonHandles }
        node fuel .block
    skipEnds fuel
    if (← peek?).isSome then refuse
    return some root

end Assembler

/-- The nodes of a text, and its root if it has a document. -/
def assemble (tokens : List Token) : Reading (Option Nat × Array Element) := do
  let fuel := 4 * tokens.length + 4
  let (root, s) ← (Assembler.document fuel).run ⟨tokens, #[], [], []⟩
  return (root, s.elements)

end ApiSchema.Yaml
