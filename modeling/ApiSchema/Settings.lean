/-
# Settings

The settings of a run and the description of a collection, read from plain data. Every fault is
reported, in the order of the fields.
-/
import ApiSchema.Validator.Library

namespace ApiSchema

/-! ## Faults -/

/-- What is wrong with a value. -/
inductive FaultKind
  | missing
  | notText
  | notList
  | notMap
  | notOneOf
  | notMember
deriving DecidableEq, Inhabited

/-- A step to a value inside a setting. -/
inductive Step
  | key (name : String)
  | index (position : Nat)
deriving DecidableEq, Inhabited

/-- A wrong value and the way to it. -/
structure Fault where
  path : List Step
  kind : FaultKind
deriving DecidableEq, Inhabited

/-- A value, or the faults in it. -/
abbrev Checked (α : Type) := Except (List Fault) α

namespace Checked

/-- Joins two checks; the faults of both are reported. -/
def both {α β : Type} (a : Checked α) (b : Checked β) : Checked (α × β) :=
  match a, b with
  | .ok a, .ok b => .ok (a, b)
  | .error e, .ok _ => .error e
  | .ok _, .error f => .error f
  | .error e, .error f => .error (e ++ f)

/-- Joins many checks. -/
def all {α : Type} : List (Checked α) → Checked (List α)
  | [] => .ok []
  | check :: rest => (both check (all rest)).map fun (a, rest) => a :: rest

def fail {α : Type} (path : List Step) (kind : FaultKind) : Checked α := .error [⟨path, kind⟩]

end Checked

/-! ## Checks of single values -/

def checkText (path : List Step) : Value → Checked String
  | .atom (.text s) => .ok s
  | _ => .fail path .notText

/-- A value or null. -/
def checkOptional {α : Type} (check : Value → Checked α) : Option Value → Checked (Option α)
  | none => .ok none
  | some (.atom .null) => .ok none
  | some value => (check value).map some

/-- A text out of a fixed choice. -/
def checkChoice {α : Type} (path : List Step) (kind : FaultKind) (choices : List (String × α))
    (value : Value) : Checked α :=
  match value.text?.bind fun name => choices.lookup name with
  | some choice => .ok choice
  | none => .fail path kind

def checkTexts (path : List Step) : Value → Checked (List String)
  | .list items => .all (items.mapIdx fun i item => checkText (path ++ [.index i]) item)
  | _ => .fail path .notList

def checkTextMap (path : List Step) : Value → Checked (List (String × String))
  | .map entries =>
    .all (entries.map fun (key, value) =>
      let name := key.text?.getD ""
      (checkText (path ++ [.key name]) value).map fun text => (name, text))
  | _ => .fail path .notMap

/-! ## Settings of a run -/

structure Settings where
  library : Library := .zod
  /-- Code for GraphQL scalars. -/
  scalars : List (String × String) := []
  /-- The OpenAPI operations to keep; all of them if there is no list. -/
  operationIds : Option (List String) := none
  /-- Text in front of the module. -/
  header : Option String := none
deriving Inhabited

/-- Reads settings; unknown fields are ignored. -/
def Settings.check (input : Value) : Checked Settings :=
  let library := match input.get? "validator" with
    | none => .ok .zod
    | some value =>
      checkChoice [.key "validator"] .notMember (Library.all.map fun l => (l.name, l)) value
  let scalars := match input.get? "scalars" with
    | none => .ok []
    | some value => checkTextMap [.key "scalars"] value
  let operationIds :=
    checkOptional (checkTexts [.key "operation_ids"]) (input.get? "operation_ids")
  let header := checkOptional (checkText [.key "header"]) (input.get? "header")
  (Checked.both library (.both scalars (.both operationIds header))).map
    fun (library, scalars, operationIds, header) => { library, scalars, operationIds, header }

/-! ## Collections -/

/-- A way to write predicates in requests. -/
inductive Wording
  | restSimple
  | jsonApi
  | hasura
  | prisma
deriving DecidableEq, Inhabited

namespace Wording

def name : Wording → String
  | restSimple => "rest-simple"
  | jsonApi => "jsonapi"
  | hasura => "hasura"
  | prisma => "prisma"

/-- The wordings by name. -/
def named : List (String × Wording) :=
  [restSimple, jsonApi, hasura, prisma].map fun wording => (wording.name, wording)

end Wording

inductive Paging
  | offset
  | page
  | cursor
deriving DecidableEq, Inhabited

/-- When a collection is loaded. -/
inductive Loading
  | full
  | onDemand
deriving DecidableEq, Inhabited

/-- A collection whose load requests are translated. -/
structure Collection where
  name : String
  /-- The wording that was asked for. -/
  mapping : Option Wording := none
  /-- The wording that was detected. -/
  style : Option String := none
  sortParam : Option String := none
  limitParam : Option String := none
  offsetParam : Option String := none
  paging : Option Paging := none
  loading : Option Loading := none
deriving Inhabited

/-- Reads the description of a collection; unknown fields are ignored. -/
def Collection.check (input : Value) : Checked Collection :=
  let name := match input.get? "name" with
    | none => .fail [.key "name"] .missing
    | some value => checkText [.key "name"] value
  let text (key : String) := checkOptional (checkText [.key key]) (input.get? key)
  let choice {α : Type} (key : String) (choices : List (String × α)) : Checked (Option α) :=
    checkOptional (checkChoice [.key key] .notOneOf choices) (input.get? key)
  let mapping := choice "predicate_mapping" Wording.named
  let paging :=
    choice "pagination_style" [("offset", Paging.offset), ("page", .page), ("cursor", .cursor)]
  let loading := choice "sync_mode" [("full", Loading.full), ("on-demand", .onDemand)]
  (Checked.both name (.both mapping (.both (text "filter_style") (.both (text "sort_param")
    (.both (text "limit_param") (.both (text "offset_param") (.both paging loading))))))).map
    fun (name, mapping, style, sortParam, limitParam, offsetParam, paging, loading) =>
      { name, mapping, style, sortParam, limitParam, offsetParam, paging, loading }

end ApiSchema
