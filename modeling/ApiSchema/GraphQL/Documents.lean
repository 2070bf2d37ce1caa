/-
# Client documents

The operations and fragments of a set of documents. Operations need a name, because their entries
are named after them; subscriptions are passed over.
-/
import ApiSchema.GraphQL.Grammar

namespace ApiSchema.GraphQL

/-! ## Spreads -/

namespace Selection

mutual

/-- The fragments that a selection spreads at any depth, in the order of occurrence and with
repetitions. -/
def spreadNames : Selection → List String
  | .field _ _ _ _ (some selections) => spreadNamesOfAll selections
  | .field _ _ _ _ none => []
  | .spread fragment _ => [fragment]
  | .inline _ _ selections => spreadNamesOfAll selections

def spreadNamesOfAll : List Selection → List String
  | [] => []
  | selection :: rest => spreadNames selection ++ spreadNamesOfAll rest

end

mutual

/-- The number of selections in a selection, itself included. -/
def size : Selection → Nat
  | .field _ _ _ _ (some selections) => 1 + sizeOfAll selections
  | .field _ _ _ _ none => 1
  | .spread .. => 1
  | .inline _ _ selections => 1 + sizeOfAll selections

def sizeOfAll : List Selection → Nat
  | [] => 0
  | selection :: rest => size selection + sizeOfAll rest

end

/-- The fragments spread by some selections, each once, in the order of first occurrence. -/
def spreadSet (selections : List Selection) : List String :=
  (spreadNamesOfAll selections).foldl
    (fun names name => if names.contains name then names else names ++ [name]) []

end Selection

/-! ## Documents -/

/-- A named query or mutation. -/
structure NamedOperation where
  name : String
  kind : OperationKind
  variableDefs : List Variable
  selections : List Selection
  source : String
deriving Inhabited

/-- A fragment and the document it comes from. -/
structure SourcedFragment where
  fragment : Fragment
  source : String
deriving Inhabited

namespace SourcedFragment

def name (f : SourcedFragment) : String := f.fragment.name

/-- The type that the fragment applies to. -/
def condition (f : SourcedFragment) : String := f.fragment.condition

def selections (f : SourcedFragment) : List Selection := f.fragment.selections

/-- The fragments that the fragment spreads. -/
def spreads (f : SourcedFragment) : List String := Selection.spreadSet f.selections

end SourcedFragment

def NamedOperation.spreads (operation : NamedOperation) : List String :=
  Selection.spreadSet operation.selections

/-- The operations and fragments of a set of documents, and the subscriptions passed over. -/
structure Documents where
  operations : List NamedOperation
  fragments : List SourcedFragment
  skipped : List String
deriving Inhabited

namespace Documents

def empty : Documents := ⟨[], [], []⟩

/-- The first fragment of a name. -/
def fragment? (documents : Documents) (name : String) : Option SourcedFragment :=
  documents.fragments.find? (·.name == name)

/-- The number of selections in all operations and fragments. -/
def size (documents : Documents) : Nat :=
  Selection.sizeOfAll (documents.operations.flatMap (·.selections)) +
    Selection.sizeOfAll (documents.fragments.flatMap (·.selections))

end Documents

/-- Why documents cannot be used. -/
inductive DocumentError
  /-- A text is no document. -/
  | unreadable (fault : SyntaxFault)
  | anonymous (kind : OperationKind) (source : String)
  | noMatch (patterns : List String)
deriving DecidableEq, Inhabited

def SyntaxFault.message? : SyntaxFault → Option String
  | .malformed => some "Syntax Error"
  | .cutShort => none

def DocumentError.message? : DocumentError → Option String
  | .unreadable fault => fault.message?
  | .anonymous kind source =>
    some ("Anonymous " ++ kind.name ++ " in " ++ source ++
      ": operations must be named to generate types")
  | .noMatch patterns => some ("No GraphQL documents match " ++ ", ".intercalate patterns)

namespace Documents

/-- Adds a definition of a document; definitions of a server are passed over. -/
def addDefinition (documents : Documents) (source : String) :
    Definition → Except DocumentError Documents
  | .operation operation =>
    match operation.name with
    | none => .error (.anonymous operation.kind source)
    | some name =>
      if operation.kind = .subscription then
        .ok { documents with skipped := documents.skipped ++ [name] }
      else
        .ok { documents with
          operations := documents.operations ++
            [⟨name, operation.kind, operation.variableDefs, operation.selections, source⟩] }
  | .fragment fragment =>
    .ok { documents with fragments := documents.fragments ++ [⟨fragment, source⟩] }
  | _ => .ok documents

/-- Adds the definitions of a text. -/
def addText (documents : Documents) (source text : String) : Except DocumentError Documents :=
  match Document.parse text with
  | .error fault => .error (.unreadable fault)
  | .ok document => document.foldlM (addDefinition · source) documents

/-- The operations and fragments of named texts. -/
def ofTexts (sources : List (String × String)) : Except DocumentError Documents :=
  sources.foldlM (fun documents (source, text) => documents.addText source text) empty

/-! ## What is gathered before an error -/

/-- Adds the definitions before the first one that cannot be used. -/
def addUsable (documents : Documents) (source : String) : List Definition → Documents
  | [] => documents
  | definition :: rest =>
    match documents.addDefinition source definition with
    | .ok documents => documents.addUsable source rest
    | .error _ => documents

/-- The operations and fragments of named texts up to the first one that cannot be used. -/
def usable (documents : Documents) : List (String × String) → Documents
  | [] => documents
  | (source, text) :: rest =>
    match documents.addText source text with
    | .ok documents => documents.usable rest
    | .error _ => documents.addUsable source ((Document.parse text).toOption.getD [])

end Documents

end ApiSchema.GraphQL
