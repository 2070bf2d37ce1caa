/-
# Introspection results

A type system as a server describes it: a map with the list of its types and the names of its roots.
Unlike a schema document, the result has to list every type that it refers to.
-/
import ApiSchema.GraphQL.Grammar
import ApiSchema.GraphQL.TypeSystem
import ApiSchema.Value.Basic

namespace ApiSchema.GraphQL

/-- What is wrong with an introspection result. -/
inductive IntrospectionFault
  /-- A part is empty, of the wrong shape, or refers to a type that does not fit. -/
  | incomplete
  /-- A map lacks a key. -/
  | missingKey
  /-- Something else stands where a map is looked into. -/
  | notAMap
  /-- A name, or a default value in a type, is not written as it has to be. -/
  | illFormed
  /-- The default value of an argument cannot be read. -/
  | noDefault (fault : SyntaxFault)
deriving DecidableEq, Inhabited

namespace Introspection

/-- A result, or what is wrong. -/
abbrev Reading := Except IntrospectionFault

/-! ## Parts -/

/-- What a map has under a key that may be missing or null. -/
def optional (value : Value) (key : String) : Reading (Option Value) :=
  match value with
  | .map _ =>
    match value.get? key with
    | some (.atom .null) => .ok none
    | other => .ok other
  | _ => .error .notAMap

/-- What a map has under a key that has to be there. -/
def required (value : Value) (key : String) : Reading Value :=
  match value with
  | .map _ => (value.get? key).elim (.error .missingKey) .ok
  | _ => .error .incomplete

/-- What a map has under a key that has to be there and not null. -/
def present (value : Value) (key : String) : Reading Value := do
  (← optional value key).elim (.error .incomplete) .ok

/-- What a list, a map or a text consists of, one after the other. -/
def items : Value → Reading (List Value)
  | .list items => .ok items
  | .map entries => .ok (entries.map fun (key, _) => .atom key)
  | .atom (.text text) => .ok (text.toList.map fun c => .atom (.text (String.singleton c)))
  | _ => .error .incomplete

def itemsUnder (value : Value) (key : String) : Reading (List Value) := do
  items (← present value key)

def textUnder (value : Value) (key : String) : Reading String := do
  match ← required value key with
  | .atom (.text text) => .ok text
  | _ => .error .incomplete

/-! ## Names -/

def isName (text : String) : Bool :=
  match text.toList with
  | [] => false
  | c :: cs => Token.isNameStart c && cs.all Token.isNamePart

/-- The names of other values. -/
def valueWords : List String := ["true", "false", "null"]

def isEnumName (text : String) : Bool := isName text && !valueWords.contains text

def checkNames (accepts : String → Bool) (names : List String) : Reading Unit :=
  if names.all accepts then .ok () else .error .illFormed

def nameOf : Value → Reading String
  | .atom (.text text) => if isName text then .ok text else .error .illFormed
  | _ => .error .incomplete

/-! ## Named types -/

/-- The kind of a type by the word for it, with the parts that are needed at once. Fields are read
later, when all types are known. The values of a standard enumeration are not read. -/
def kindOf (standard : Bool) (type : Value) : Reading TypeKind := do
  match type.get? "kind" with
  | some (.atom (.text "SCALAR")) => return .scalar
  | some (.atom (.text "OBJECT")) => return .object []
  | some (.atom (.text "INTERFACE")) => return .interface []
  | some (.atom (.text "UNION")) =>
    let _ ← present type "possibleTypes"
    return .union
  | some (.atom (.text "ENUM")) =>
    let values ← present type "enumValues"
    if standard then return .enum []
    else return .enum (← (← items values).mapM (textUnder · "name")).eraseDups
  | some (.atom (.text "INPUT_OBJECT")) =>
    let _ ← present type "inputFields"
    return .input []
  | _ => .error .incomplete

/-- Whether a type of a kind may stand for a standard type of its name. -/
def mayBeStandard : TypeKind → Bool
  | .scalar => true
  | .object _ => true
  | .enum _ => true
  | _ => false

def enumNames : TypeKind → List String
  | .enum values => values
  | _ => []

/-- A type by name and kind, and its description if its fields are still to be read. -/
def outline (type : Value) : Reading (String × NamedType × Option Value) := do
  let name ← required type "name"
  let standard := name.text?.bind standardType?
  let kind ← kindOf standard.isSome type
  match standard with
  | some standard =>
    if mayBeStandard kind then return (standard.name, standard, none) else .error .incomplete
  | none =>
    let name ← nameOf name
    checkNames isEnumName (enumNames kind)
    return (name, ⟨name, kind⟩, some type)

/-! ## References -/

/-- The types that are known by name. -/
abbrev Known := List (String × NamedType × Option Value)

/-- The type that a reference names. -/
def named (known : Known) (reference : Value) : Reading NamedType := do
  match ← optional reference "name" with
  | some (.atom (.text name)) => ((Assoc.get? known name).map (·.1)).elim (.error .incomplete) .ok
  | _ => .error .incomplete

mutual

/-- The type that a reference with wrappers stands for, and the named type inside. -/
def reference (known : Known) (value : Value) : Reading (TypeRef × NamedType) :=
  match value with
  | .map entries => referenceOf known value entries (Assoc.get? entries (.text "kind"))
  | _ => .error .notAMap

/-- The type for a reference of a kind. -/
def referenceOf (known : Known) (value : Value) (entries : List (Atom × Value)) :
    Option Value → Reading (TypeRef × NamedType)
  | some (.atom (.text "LIST")) => do
    let (inner, base) ← wrapped known entries
    return (.list inner, base)
  | some (.atom (.text "NON_NULL")) => do
    let (inner, base) ← wrapped known entries
    if inner.isNonNull then .error .incomplete else return (.nonNull inner, base)
  | _ => do
    let base ← named known value
    return (.named base.name, base)

def wrapped (known : Known) : List (Atom × Value) → Reading (TypeRef × NamedType)
  | [] => .error .incomplete
  | (key, value) :: rest =>
    if key == .text "ofType" then
      if Value.isBlank value then .error .incomplete else reference known value
    else wrapped known rest

end

/-- Whether values of a type can be given to fields. -/
def isInputType (type : NamedType) : Bool :=
  match type.kind with
  | .scalar => true
  | .enum _ => true
  | .input _ => true
  | _ => false

/-- Whether fields can have a type. -/
def isOutputType (type : NamedType) : Bool := !type.isInput

/-- Whether there is a default value, which has to be readable. -/
def hasDefault (field : Value) : Reading Bool := do
  match ← optional field "defaultValue" with
  | none => return false
  | some (.atom (.text text)) =>
    match Literal.parse text with
    | .ok _ => return true
    | .error fault => throw (.noDefault fault)
  | some _ => throw .incomplete

def inputField (known : Known) (field : Value) : Reading InputField := do
  let name ← textUnder field "name"
  let (type, base) ← reference known (← required field "type")
  if isInputType base then return ⟨name, type, ← hasDefault field⟩ else .error .incomplete

def inputFields (known : Known) (fields : List Value) : Reading (List InputField) := do
  let fields ← fields.mapM (inputField known)
  checkNames isName (fields.map (·.name))
  return fields

/-- A field of an object or an interface. -/
def outputField (known : Known) (field : Value) : Reading (String × TypeRef) := do
  let name ← textUnder field "name"
  let (type, base) ← reference known (← required field "type")
  if isOutputType base then
    let _ ← inputFields known (← itemsUnder field "args")
    return (name, type)
  else .error .incomplete

/-- The fields of an object or an interface; of those with the same name the last one counts. -/
def outputFields (known : Known) (fields : List Value) : Reading (List (String × TypeRef)) := do
  let fields ← fields.mapM (outputField known)
  checkNames isName (fields.map (·.1))
  return Assoc.ofList fields

/-- The fields of a type of some kind, once all types are known. -/
def complete (known : Known) (description : Value) : TypeKind → Reading TypeKind
  | .object _ => do
    let interfaces ← (← itemsUnder description "interfaces").mapM (named known)
    if interfaces.all isInterface then
      return .object (← outputFields known (← itemsUnder description "fields"))
    else .error .incomplete
  | .interface _ => do
    let interfaces ← match ← optional description "interfaces" with
      | some list => (← items list).mapM (named known)
      | none => pure []
    if interfaces.all isInterface then
      return .interface (← outputFields known (← itemsUnder description "fields"))
    else .error .incomplete
  | .union => do
    let members ← (← itemsUnder description "possibleTypes").mapM (named known)
    if members.all (·.isObject) then return .union else .error .incomplete
  | .input _ => do
    let fields ← inputFields known (← itemsUnder description "inputFields")
    return .input ((Assoc.ofList (fields.map fun field => (field.name, field))).map (·.2))
  | kind => .ok kind
where
  isInterface (type : NamedType) : Bool := type.isAbstract && !type.isUnion

/-- What a fault within a type means for the result. -/
def faultInType : IntrospectionFault → IntrospectionFault
  | .illFormed => .illFormed
  | .noDefault .malformed => .illFormed
  | _ => .incomplete

/-- A type with its fields. -/
def finish (known : Known) : String × NamedType × Option Value → Reading NamedType
  | (_, type, none) => .ok type
  | (_, type, some description) =>
    match complete known description type.kind with
    | .ok kind => .ok ⟨type.name, kind⟩
    | .error fault => .error (faultInType fault)

/-! ## Results -/

/-- The name of a root type, which has to be an object. -/
def rootUnder (known : Known) (schema : Value) (key : String) : Reading (Option String) := do
  match ← optional schema key with
  | none => return none
  | some reference =>
    let type ← named known reference
    if type.isObject then return some type.name else .error .incomplete

/-- Whether a value is the word for a place where directives may stand. -/
def isLocation (value : Value) : Bool := value.text?.any Reader.directiveLocations.contains

/-- Checks the description of a directive. -/
def checkDirective (known : Known) (directive : Value) : Reading Unit := do
  let arguments ← present directive "args"
  let locations ← present directive "locations"
  let name ← required directive "name"
  let locations ← items locations
  let arguments ← (← items arguments).mapM (inputField known)
  let _ ← nameOf name
  if !locations.all isLocation then throw .incomplete
  checkNames isName (arguments.map (·.name))

def directives (schema : Value) : Reading (List Value) := do
  match ← optional schema "directives" with
  | none => return []
  | some list => if Value.isBlank list then return [] else items list

def ofSchema (schema : Value) : Reading TypeSystem := do
  let known := Assoc.ofList (← (← items (← required schema "types")).mapM outline)
  let query ← rootUnder known schema "queryType"
  let mutation ← rootUnder known schema "mutationType"
  let _ ← rootUnder known schema "subscriptionType"
  (← directives schema).forM (checkDirective known)
  let types ← known.mapM (finish known)
  return ⟨types ++ commonTypes, query, mutation⟩

end Introspection

def TypeSystem.ofIntrospection (result : Value) : Except IntrospectionFault TypeSystem :=
  match result with
  | .map _ =>
    match ((result.get? "data").getD result).get? "__schema" with
    | some (.map entries) => Introspection.ofSchema (.map entries)
    | _ => .error .incomplete
  | _ => .error .notAMap

end ApiSchema.GraphQL
