/-
# The grammar of GraphQL documents

Reads a document from its tokens by recursive descent. Anything outside the grammar gives no
document. A broken token matters when all tokens before it have been taken.
-/
import ApiSchema.GraphQL.Syntax
import ApiSchema.GraphQL.Token

namespace ApiSchema.GraphQL

/-- A reader: takes tokens from the front of a list, or refuses. -/
abbrev Reader := StateT (List Token) (Except SyntaxFault)

namespace Reader

/-! ## Single tokens -/

/-- Refuses what is outside the grammar. -/
def refuse {α : Type} : Reader α := throw .malformed

def peek : Reader (Option Token) := do
  match (← get).head? with
  | some (.broken fault) => throw fault
  | token => return token

/-- Whether the given token is in front. -/
def sees (token : Token) : Reader Bool := do return (← peek) == some token

/-- Takes the given token if it is in front. -/
def accept (token : Token) : Reader Bool := do
  if ← sees token then
    modify List.tail
    return true
  else return false

/-- Takes the given token, which has to be in front. -/
def expect (token : Token) : Reader Unit := do
  unless ← accept token do refuse

def mark (c : Char) : Reader Unit := expect (.punctuator c)

def name : Reader String := do
  match ← peek with
  | some (.name text) =>
    modify List.tail
    return text
  | _ => refuse

def keyword (word : String) : Reader Unit := expect (.name word)

/-- Takes a given name if it is in front. -/
def acceptKeyword (word : String) : Reader Bool := accept (.name word)

/-- Passes over a description. -/
def description : Reader Unit := do discard (accept .text)

/-! ## Repetition -/

/-- Items up to a closing token. The last argument bounds their number. -/
def itemsUntil {α : Type} (close : Token) (item : Reader α) : Nat → Reader (List α)
  | 0 => refuse
  | fuel + 1 => do
    if ← accept close then return []
    let first ← item
    let others ← itemsUntil close item fuel
    return first :: others

/-- At least one item up to a closing token. -/
def someUntil {α : Type} (close : Token) (item : Reader α) (fuel : Nat) : Reader (List α) := do
  let first ← item
  let others ← itemsUntil close item fuel
  return first :: others

/-- At least one item between brackets, if the opening bracket is there. -/
def optionalBlock {α : Type} (opening closing : Char) (item : Reader α) (fuel : Nat) :
    Reader (List α) := do
  if ← accept (.punctuator opening) then someUntil (.punctuator closing) item fuel else return []

/-- Items after a first one, each behind a separator. -/
def moreBehind {α : Type} (separator : Char) (item : Reader α) : Nat → Reader (List α)
  | 0 => refuse
  | fuel + 1 => do
    if ← accept (.punctuator separator) then
      let first ← item
      let others ← moreBehind separator item fuel
      return first :: others
    else return []

/-- At least one item, with separators between items and possibly one in front. -/
def separated {α : Type} (separator : Char) (item : Reader α) (fuel : Nat) :
    Reader (List α) := do
  discard (accept (.punctuator separator))
  let first ← item
  let others ← moreBehind separator item fuel
  return first :: others

/-! ## Types, values and directives -/

def typeRef : Nat → Reader TypeRef
  | 0 => refuse
  | fuel + 1 => do
    let inner ←
      if ← accept (.punctuator '[') then
        let item ← typeRef fuel
        mark ']'
        pure (TypeRef.list item)
      else
        pure (TypeRef.named (← name))
    if ← accept (.punctuator '!') then return .nonNull inner else return inner

/-- The value that a name stands for. -/
def namedLiteral (text : String) : Literal :=
  if text == "true" || text == "false" then .boolean
  else if text == "null" then .null
  else .enum text

/-- A value; variables are refused in a constant one. -/
def literal (constant : Bool) : Nat → Reader Literal
  | 0 => refuse
  | fuel + 1 => do
    match ← peek with
    | some (.punctuator '[') =>
      modify List.tail
      return .list (← itemsUntil (.punctuator ']') (literal constant fuel) fuel)
    | some (.punctuator '\x7b') =>
      modify List.tail
      let field : Reader (String × Literal) := do
        let key ← name
        mark ':'
        return (key, ← literal constant fuel)
      return .object (← itemsUntil (.punctuator '\x7d') field fuel)
    | some (.punctuator '$') =>
      modify List.tail
      let label ← name
      if constant then refuse else return .reference label
    | some .int =>
      modify List.tail
      return .number
    | some .float =>
      modify List.tail
      return .number
    | some .text =>
      modify List.tail
      return .text
    | some (.name text) =>
      modify List.tail
      return namedLiteral text
    | _ => refuse

def argument (constant : Bool) (fuel : Nat) : Reader (String × Literal) := do
  let key ← name
  mark ':'
  return (key, ← literal constant fuel)

/-- The arguments of a field or directive, if there are any. -/
def arguments (constant : Bool) (fuel : Nat) : Reader (List (String × Literal)) :=
  optionalBlock '(' ')' (argument constant fuel) fuel

/-- The directives that stand here. -/
def directives (constant : Bool) (bound : Nat) : Nat → Reader (List Directive)
  | 0 => refuse
  | fuel + 1 => do
    if ← accept (.punctuator '@') then
      let directive ← name
      let args ← arguments constant bound
      let others ← directives constant bound fuel
      return ⟨directive, args⟩ :: others
    else return []

def defaultValue (fuel : Nat) : Reader (Option Literal) := do
  if ← accept (.punctuator '=') then return some (← literal true fuel) else return none

/-! ## Client definitions -/

/-- Selections between braces, given a reader of one selection. There may be none between them, also
where a field, a fragment or an operation opens the braces. -/
def braced (selection : Reader Selection) (fuel : Nat) : Reader (List Selection) := do
  mark '\x7b'
  itemsUntil (.punctuator '\x7d') selection fuel

def selection (bound : Nat) : Nat → Reader Selection
  | 0 => refuse
  | fuel + 1 => do
    if ← accept .spread then
      if ← acceptKeyword "on" then
        let condition ← name
        let tags ← directives false bound bound
        return .inline (some condition) tags (← braced (selection bound fuel) fuel)
      match ← peek with
      | some (.name _) =>
        let fragment ← name
        return .spread fragment (← directives false bound bound)
      | _ =>
        let tags ← directives false bound bound
        return .inline none tags (← braced (selection bound fuel) fuel)
    else
      let first ← name
      let (responseName, field) ←
        if ← accept (.punctuator ':') then pure (some first, ← name) else pure (none, first)
      let args ← arguments false bound
      let tags ← directives false bound bound
      let selections ←
        if ← sees (.punctuator '\x7b') then
          pure (some (← braced (selection bound fuel) fuel))
        else pure none
      return .field responseName field args tags selections

def selectionSet (fuel : Nat) : Reader (List Selection) := braced (selection fuel fuel) fuel

def variableDefinition (fuel : Nat) : Reader Variable := do
  description
  mark '$'
  let label ← name
  mark ':'
  let type ← typeRef fuel
  let default ← defaultValue fuel
  return ⟨label, type, default, ← directives true fuel fuel⟩

def operationKind : Reader OperationKind := do
  match ← name with
  | "query" => return .query
  | "mutation" => return .mutation
  | "subscription" => return .subscription
  | _ => refuse

def operation (fuel : Nat) : Reader Operation := do
  let kind ← operationKind
  let label ←
    match ← peek with
    | some (.name _) => pure (some (← name))
    | _ => pure none
  let variableDefs ← optionalBlock '(' ')' (variableDefinition fuel) fuel
  let tags ← directives false fuel fuel
  return ⟨kind, label, variableDefs, tags, ← selectionSet fuel⟩

/-- A fragment; its name is anything but the word for a condition. -/
def fragment (fuel : Nat) : Reader Fragment := do
  keyword "fragment"
  let label ← name
  if label == "on" then refuse
  keyword "on"
  let condition ← name
  let tags ← directives false fuel fuel
  return ⟨label, condition, tags, ← selectionSet fuel⟩

/-! ## Server definitions -/

/-- An argument or input field. -/
def inputValue (fuel : Nat) : Reader InputValue := do
  description
  let label ← name
  mark ':'
  let type ← typeRef fuel
  let default ← defaultValue fuel
  return ⟨label, type, default, ← directives true fuel fuel⟩

/-- A field of an object or interface. -/
def fieldDefinition (fuel : Nat) : Reader FieldDefinition := do
  description
  let label ← name
  let args ← optionalBlock '(' ')' (inputValue fuel) fuel
  mark ':'
  let type ← typeRef fuel
  return ⟨label, args, type, ← directives true fuel fuel⟩

def enumValue (fuel : Nat) : Reader EnumValue := do
  description
  let label ← name
  if label == "true" || label == "false" || label == "null" then refuse
  return ⟨label, ← directives true fuel fuel⟩

def interfaces (fuel : Nat) : Reader (List String) := do
  if ← acceptKeyword "implements" then separated '&' name fuel else return []

def members (fuel : Nat) : Reader (List String) := do
  if ← accept (.punctuator '=') then separated '|' name fuel else return []

/-- The fields of an object or interface. -/
def fieldDefinitions (fuel : Nat) : Reader (List FieldDefinition) :=
  optionalBlock '\x7b' '\x7d' (fieldDefinition fuel) fuel

def typeDefinition (word : String) (fuel : Nat) : Reader TypeDefinition := do
  let label ← name
  match word with
  | "scalar" => return ⟨label, ← directives true fuel fuel, .scalar⟩
  | "type" =>
    let implemented ← interfaces fuel
    let tags ← directives true fuel fuel
    return ⟨label, tags, .object implemented (← fieldDefinitions fuel)⟩
  | "interface" =>
    let implemented ← interfaces fuel
    let tags ← directives true fuel fuel
    return ⟨label, tags, .interface implemented (← fieldDefinitions fuel)⟩
  | "union" =>
    let tags ← directives true fuel fuel
    return ⟨label, tags, .union (← members fuel)⟩
  | "enum" =>
    let tags ← directives true fuel fuel
    return ⟨label, tags, .enum (← optionalBlock '\x7b' '\x7d' (enumValue fuel) fuel)⟩
  | "input" =>
    let tags ← directives true fuel fuel
    return ⟨label, tags, .input (← optionalBlock '\x7b' '\x7d' (inputValue fuel) fuel)⟩
  | _ => refuse

def root : Reader (OperationKind × String) := do
  let kind ← operationKind
  mark ':'
  return (kind, ← name)

/-- The places where a directive may stand. -/
def directiveLocations : List String :=
  ["QUERY", "MUTATION", "SUBSCRIPTION", "FIELD", "FRAGMENT_DEFINITION", "FRAGMENT_SPREAD",
    "INLINE_FRAGMENT", "VARIABLE_DEFINITION", "SCHEMA", "SCALAR", "OBJECT", "FIELD_DEFINITION",
    "ARGUMENT_DEFINITION", "INTERFACE", "UNION", "ENUM", "ENUM_VALUE", "INPUT_OBJECT",
    "INPUT_FIELD_DEFINITION"]

/-- A place where a directive may stand. -/
def directiveLocation : Reader String := do
  let label ← name
  if directiveLocations.contains label then return label else refuse

def directiveDefinition (fuel : Nat) : Reader DirectiveDefinition := do
  mark '@'
  let label ← name
  let args ← optionalBlock '(' ')' (inputValue fuel) fuel
  let repeatable ← acceptKeyword "repeatable"
  keyword "on"
  return ⟨label, args, repeatable, ← separated '|' directiveLocation fuel⟩

/-- Whether an extension adds something to what it extends. -/
def addsSomething (definition : TypeDefinition) : Bool :=
  !definition.directives.isEmpty ||
    (match definition.body with
      | .scalar => false
      | .object interfaces fields => !interfaces.isEmpty || !fields.isEmpty
      | .interface interfaces fields => !interfaces.isEmpty || !fields.isEmpty
      | .union members => !members.isEmpty
      | .enum values => !values.isEmpty
      | .input fields => !fields.isEmpty)

/-- An extension from behind its keyword. -/
def extension (fuel : Nat) : Reader Definition := do
  let word ← name
  if word == "schema" then
    let tags ← directives true fuel fuel
    let roots ← optionalBlock '\x7b' '\x7d' root fuel
    if tags.isEmpty && roots.isEmpty then refuse else return .schemaExtension ⟨tags, roots⟩
  else
    let definition ← typeDefinition word fuel
    if addsSomething definition then return .typeExtension definition else refuse

/-! ## Documents -/

/-- The words that open a client definition with a kind. -/
def operationWords : List String := ["query", "mutation", "subscription"]

/-- A definition. Neither an operation without a keyword nor an extension has a description. -/
def definition (fuel : Nat) : Reader Definition := do
  if ← sees (.punctuator '\x7b') then
    return .operation ⟨.query, none, [], [], ← selectionSet fuel⟩
  let described ← accept .text
  match ← peek with
  | some (.name word) =>
    if operationWords.contains word then return .operation (← operation fuel)
    else if word == "fragment" then return .fragment (← fragment fuel)
    else
      discard name
      if word == "extend" then
        if described then refuse else extension fuel
      else if word == "schema" then
        let tags ← directives true fuel fuel
        mark '\x7b'
        return .schema ⟨tags, ← someUntil (.punctuator '\x7d') root fuel⟩
      else if word == "directive" then return .directive (← directiveDefinition fuel)
      else return .type (← typeDefinition word fuel)
  | _ => refuse

/-- Definitions up to the end. -/
def definitions (bound : Nat) : Nat → Reader (List Definition)
  | 0 => refuse
  | fuel + 1 => do
    let first ← definition bound
    if (← get).isEmpty then return [first]
    let others ← definitions bound fuel
    return first :: others

end Reader

/-- Reads a document; it has at least one definition. -/
def Document.parse (text : String) : Except SyntaxFault Document := do
  let tokens := Token.ofText text
  let fuel := tokens.length + 1
  let (document, _) ← (Reader.definitions fuel fuel).run tokens
  return document

/-- Reads a value that is all of a text. -/
def Literal.parse (text : String) : Except SyntaxFault Literal := do
  let tokens := Token.ofText text
  let whole : Reader Literal := do
    let literal ← Reader.literal false (tokens.length + 1)
    if (← Reader.peek).isSome then Reader.refuse else return literal
  whole.run' tokens

end ApiSchema.GraphQL
