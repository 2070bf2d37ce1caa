/-
# Schemas and documents in files

A schema is a file, all schema files below a folder, or an introspection result. Client documents
are found by patterns.
-/
import ApiSchema.Files.Glob
import ApiSchema.GraphQL.Check
import ApiSchema.GraphQL.Documents
import ApiSchema.GraphQL.Introspection
import ApiSchema.Json

namespace ApiSchema.GraphQL

/-! ## Schemas -/

inductive SchemaError
  /-- The text is no document. -/
  | unreadable (fault : SyntaxFault)
  /-- The document breaks a rule. -/
  | faulty (fault : SchemaFault)
  /-- An introspection result is no JSON. -/
  | notJson
  /-- A number in an introspection result cannot be read. -/
  | noNumber (fault : Numeral.Fault)
  /-- An introspection result gives no type system. -/
  | introspection (fault : IntrospectionFault)
  /-- There is nothing under the path. -/
  | missing (path : String)
  | noFiles (path : String)
  /-- The path of an introspection result is that of a folder. -/
  | isFolder
deriving DecidableEq, Inhabited

def SchemaError.message? : SchemaError → Option String
  | .missing path => some ("Schema path does not exist: " ++ path)
  | .noFiles path => some ("No schema files found in " ++ path)
  | .unreadable fault => fault.message?
  | .faulty .unfitArgument => some "Invalid argument of a standard directive"
  | .introspection .illFormed => some "Invalid name or value in an introspection result"
  | .introspection (.noDefault fault) => fault.message?
  | _ => none

def schemaEndings : List String := [".graphql", ".graphqls", ".gql"]

def introspectionEnding : String := ".json"

def TypeSystem.ofText (text : String) : Except SchemaError TypeSystem :=
  match Document.parse text with
  | .error fault => .error (.unreadable fault)
  | .ok document => (TypeSystem.ofDocument document).mapError .faulty

def TypeSystem.ofIntrospectionText (text : String) : Except SchemaError TypeSystem :=
  match Json.parse text with
  | .ok value => (TypeSystem.ofIntrospection value).mapError .introspection
  | .error .malformed => .error .notJson
  | .error (.number fault) => .error (.noNumber fault)

/-- The texts of the schema files under a path: of one file, or of all schema files below a folder
in the order of their paths. -/
def schemaTexts (folder : Folder) (path : String) : List String :=
  match folder.folder? path with
  | none => (folder.read? path).toList
  | some names =>
    let found := (folder.below names).filterMap fun (names, isFile) =>
      if isFile && Path.endsInAny schemaEndings (names.getLastD "") then
        some (Path.join path ("/".intercalate names))
      else none
    found.mergeSort.filterMap folder.read?

def TypeSystem.load (folder : Folder) (path : String) : Except SchemaError TypeSystem :=
  if !folder.has path then .error (.missing path)
  else if Path.endsInAny [introspectionEnding] path then
    match folder.read? path with
    | some text => TypeSystem.ofIntrospectionText text
    | none => .error .isFolder
  else
    match schemaTexts folder path with
    | [] => .error (.noFiles path)
    | texts => TypeSystem.ofText ("\n".intercalate texts)

/-! ## Client documents -/

/-- The paths and texts of the documents that match some patterns. -/
def documentTexts (folder : Folder) (patterns : List String) :
    Except DocumentError (List (String × String)) :=
  match Glob.files folder patterns with
  | [] => .error (.noMatch patterns)
  | paths =>
    .ok (paths.filterMap fun path => (folder.read? path).map fun text => (path, text))

def Documents.load (folder : Folder) (patterns : List String) :
    Except DocumentError Documents := do
  Documents.ofTexts (← documentTexts folder patterns)

end ApiSchema.GraphQL
