/-
# Operations

The operations of a document, with their parameters and the schemas of their requests and responses,
and the address of the server. Documents come from outside, so any part may be of a wrong shape;
what is absent or empty is passed over, and what cannot be used for its purpose is a fault.
-/
import ApiSchema.Graph.Basic
import ApiSchema.Text.Casing
import ApiSchema.Text.Split
import ApiSchema.Value.Display

namespace ApiSchema.OpenApi

/-! ## Faults -/

/-- What makes a document unusable. -/
inductive Fault
  /-- Something other than a map is looked into. -/
  | notAMap
  /-- Something other than a list is gone through. -/
  | notAList
  /-- A list or a map is used as a key. -/
  | notAKey
  /-- A text or a list is used as if it were a map. -/
  | notKeyed
  | pathNotText
  /-- A path is binary data, from which no text can be stripped. -/
  | pathIsBinary
  | urlNotText
  /-- An address is a date or binary data, in which no text can be substituted. -/
  | urlNotWritable
  /-- A number has too many digits to be shown. -/
  | numberTooLong
  | variableNotText
  /-- The first server is looked for in something without positions. -/
  | noPositions
  /-- The first server is looked for in a map without it. -/
  | serverMissing
  /-- The name of an operation is not a text. -/
  | idNotText
  | componentNotText
  | nameMissing
  /-- The members of an enumeration are given as a text or as binary data. -/
  | enumIsText
  /-- A schema leads back into itself without the name of a component. -/
  | endless
deriving DecidableEq, Inhabited

/-- A result, or what makes the document unusable. -/
abbrev Reading := Except Fault

/-! ## Parts -/

/-- What a map has under a key, null if there is nothing. -/
def field (graph : Graph) (item : Item) (key : String) : Reading Item :=
  match graph.map? item with
  | some entries => .ok ((Assoc.get? entries (.text key)).getD .null)
  | none => .error .notAMap

/-- The entries of a map; what counts as absent has none. -/
def entriesOf (graph : Graph) (item : Item) : Reading (List (Atom × Item)) :=
  if graph.isBlank item then .ok []
  else
    match graph.map? item with
    | some entries => .ok entries
    | none => .error .notAMap

/-- What is met when an item is gone through: the items of a list, the keys of a map, the characters
of a text, the bytes of binary data. -/
def itemsOf (graph : Graph) (item : Item) : Reading (List Item) :=
  match item with
  | .atom (.text s) => .ok (s.toList.map fun c => .text (String.singleton c))
  | .atom (.bytes data) => .ok (data.map fun byte => .atom (.int byte.toNat))
  | .atom _ => .error .notAList
  | .node id =>
    match graph.nodes[id]? with
    | some node => .ok node.items
    | none => .error .notAList

/-- What is met when an item is gone through; what counts as absent has nothing in it. -/
def optionalItemsOf (graph : Graph) (item : Item) : Reading (List Item) :=
  if graph.isBlank item then .ok [] else itemsOf graph item

def keyOf : Item → Reading Atom
  | .atom value => .ok value
  | .node _ => .error .notAKey

/-! ## Names of operations -/

/-- Whether a character is kept in a name. -/
def isNameChar (c : Char) : Bool :=
  ('a' ≤ c && c ≤ 'z') || ('A' ≤ c && c ≤ 'Z') || ('0' ≤ c && c ≤ '9')

def upperLetter (c : Char) : Char := if 'a' ≤ c && c ≤ 'z' then c.toUpper else c

/-- Joins the words of a segment, each with an upper-case initial. The flag says whether a word
starts here. -/
def joinSegment : Bool → List Char → List Char
  | _, [] => []
  | atStart, c :: cs =>
    if isNameChar c then (if atStart then upperLetter c else c) :: joinSegment false cs
    else joinSegment true cs

/-- The parameter of a path segment in braces; a line break cannot be part of one. -/
def pathParameter? (segment : List Char) : Option (List Char) :=
  match segment with
  | '\x7b' :: rest =>
    if rest.getLast? == some '\x7d' && 2 ≤ rest.length && !rest.contains '\n' then
      some rest.dropLast
    else none
  | _ => none

def segmentName (segment : List Char) : List Char :=
  match pathParameter? segment with
  | some parameter => 'B' :: 'y' :: joinSegment true parameter
  | none => joinSegment true segment

/-- The name of an operation that has none: the method and the segments of the path. -/
def operationName (method path : String) : String :=
  String.ofList (Text.lowerAfter [] method.toList ++
    (Text.splitAtMark '/' path.toList).flatMap segmentName)

/-! ## Operations -/

/-- An operation. Request and response are null where there is no schema. -/
structure Operation where
  id : Item
  method : String
  path : Atom
  request : Item
  response : Item
  pathParameters : List Item
  queryParameters : List Item
deriving Inhabited

/-- The methods of operations, in the order in which they are looked for. -/
def methods : List String := ["get", "post", "put", "patch", "delete"]

/-- The responses that can give the schema, in the order in which they are looked for. -/
def responseCodes : List String := ["200", "201", "default"]

/-- The schema of the JSON form of a body, null if there is none. -/
def bodySchema (graph : Graph) (content : Item) : Reading Item := do
  if graph.isBlank content then return .null
  else
    let media ← field graph content "application/json"
    if graph.isBlank media then return .null else field graph media "schema"

def responseUnder (graph : Graph) (responses : Item) (code : String) : Reading (Option Item) :=
  if graph.isBlank responses then .ok none
  else
    match responses with
    | .atom (.text s) =>
      if (s.splitOn code).length ≤ 1 then .ok none else .error .notKeyed
    | .atom _ => .error .notAList
    | .node _ =>
      match graph.node? responses with
      | some (.map entries) => .ok (Assoc.get? entries (.text code))
      | some node => if node.items.any (·.isText code) then .error .notKeyed else .ok none
      | none => .ok none

/-- The schema of the first of some responses that has one. -/
def responseSchema (graph : Graph) (responses : Item) : List String → Reading Item
  | [] => .ok .null
  | code :: rest => do
    match ← responseUnder graph responses code with
    | none => responseSchema graph responses rest
    | some response =>
      let schema ← bodySchema graph (← field graph response "content")
      if schema.isNull then responseSchema graph responses rest else return schema

/-- Adds a parameter; one of the same name and location is replaced. -/
def addParameter (graph : Graph) (parameters : List ((Atom × Atom) × Item)) (parameter : Item) :
    Reading (List ((Atom × Atom) × Item)) := do
  let name ← field graph parameter "name"
  let location ← field graph parameter "in"
  return Assoc.put parameters (← keyOf name, ← keyOf location) parameter

/-- The parameters of an operation: the ones shared by the path, replaced and followed by its own.
-/
def parametersOf (graph : Graph) (shared own : Item) : Reading (List Item) := do
  let shared ← optionalItemsOf graph shared
  let own ← optionalItemsOf graph own
  let parameters ← (shared ++ own).foldlM (addParameter graph) []
  return parameters.map (·.2)

def isIn (graph : Graph) (location : String) (parameter : Item) : Bool :=
  (graph.get? parameter "in").any (·.isText location)

/-- The name of an operation: its own, or one made of method and path. -/
def idOf (graph : Graph) (operation : Item) (method : String) (path : Atom) : Reading Item := do
  let id ← field graph operation "operationId"
  if graph.isBlank id then
    match path with
    | .text path => return .text (operationName method path)
    | .bytes _ => .error .pathIsBinary
    | _ => .error .pathNotText
  else return id

def operationOf (graph : Graph) (path : Atom) (shared : Item) (method : String) (operation : Item) :
    Reading Operation := do
  let parameters ← parametersOf graph shared (← field graph operation "parameters")
  let response ←
    responseSchema graph (← field graph operation "responses") responseCodes
  let id ← idOf graph operation method path
  let body ← field graph operation "requestBody"
  let request ←
    if graph.isBlank body then pure .null
    else bodySchema graph (← field graph body "content")
  return ⟨id, method, path, request, response, parameters.filter (isIn graph "path"),
    parameters.filter (isIn graph "query")⟩

def operationsUnder (graph : Graph) (path : Atom) (item : Item) : Reading (List Operation) := do
  if !graph.isMap item then return []
  else
    let shared ← field graph item "parameters"
    let found := methods.filterMap fun method =>
      (graph.get? item method).bind fun operation =>
        if graph.isMap operation then some (method, operation) else none
    found.mapM fun (method, operation) => operationOf graph path shared method operation

/-- The operations of a document, path by path. -/
def operations (graph : Graph) : Reading (List Operation) := do
  let paths ← entriesOf graph (← field graph graph.root "paths")
  return (← paths.mapM fun (path, item) => operationsUnder graph path item).flatten

/-! ## Server -/

/-- The first server of a list; a text, binary data and a map have a first one in their own way. -/
def firstServer (graph : Graph) (servers : Item) : Reading Item :=
  match servers with
  | .atom (.text s) => .ok (.text (String.ofList (s.toList.take 1)))
  | .atom (.bytes data) => .ok (.atom (.int (data.headD 0).toNat))
  | .atom _ => .error .noPositions
  | .node _ =>
    match graph.node? servers with
    | some (.list items) => .ok (items.headD .null)
    | some (.tuple items) => .ok (items.headD .null)
    | some (.map entries) =>
      match Assoc.get? entries (.int 0) with
      | some server => .ok server
      | none => .error .serverMissing
    | _ => .error .noPositions

/-- An item as it is shown on its own. -/
def shown (graph : Graph) (item : Item) : Reading String :=
  let value := graph.toValue item
  if value.isShowable then .ok value.plain else .error .numberTooLong

/-- Whether an item can be asked to replace a text in it, although it is no text. -/
def isReplaceable : Atom → Bool
  | .date _ => true
  | .timestamp _ => true
  | .bytes _ => true
  | _ => false

/-- Substitutes the default of a variable in an address. -/
def substitute (graph : Graph) (url : Item) (name : Atom) (v : Item) : Reading Item := do
  let write (name : String) : Reading (List Char × List Char) := do
    let entries ← match graph.map? v with
      | some entries => pure entries
      | none => .error .notAMap
    let default := (Assoc.get? entries (.text "default")).getD (.text "")
    return ('\x7b' :: name.toList ++ ['\x7d'], (← shown graph default).toList)
  match url, name with
  | .atom (.text url), .text name =>
    let (mark, default) ← write name
    return .text (String.ofList (Text.replaceAll mark default url.toList))
  | .atom (.text _), _ => .error .variableNotText
  | .atom url, name =>
    if isReplaceable url then
      match name with
      | .text name =>
        let _ ← write name
        .error .urlNotWritable
      | _ => .error .variableNotText
    else .error .urlNotText
  | _, _ => .error .urlNotText

/-- The address of the first server, with the defaults of its variables; null if there is none. -/
def baseUrl (graph : Graph) : Reading Item := do
  let servers ← field graph graph.root "servers"
  if graph.isBlank servers then return .null
  else
    let server ← firstServer graph servers
    let url ← field graph server "url"
    if url.isNull then return .null
    else
      let substitutions ← entriesOf graph (← field graph server "variables")
      substitutions.foldlM (fun url (name, v) => substitute graph url name v) url

end ApiSchema.OpenApi
