/-
# Documents in files

A document is a JSON file, told by its ending, or a YAML file.
-/
import ApiSchema.Files.Folder
import ApiSchema.Graph.Basic
import ApiSchema.Json
import ApiSchema.Yaml.Document

namespace ApiSchema.OpenApi

/-- Why a document cannot be loaded. -/
inductive LoadError
  /-- There is no such file. -/
  | notFound (path : String)
  /-- The text of the file is not well formed. -/
  | unparsable (path : String)
  /-- The file has something other than a map in it. -/
  | notAnObject (path : String)
  /-- A number in a JSON file cannot be read. -/
  | noNumber (fault : Numeral.Fault)
  /-- A value in a YAML file cannot be used. -/
  | unusable (fault : Yaml.Fault)
deriving DecidableEq, Inhabited

def LoadError.message? : LoadError → Option String
  | .notFound path => some ("OpenAPI document not found: " ++ path)
  | .unparsable path => some ("Failed to parse " ++ path)
  | .notAnObject path => some (path ++ " does not contain an OpenAPI object")
  | .noNumber fault => some fault.message
  | .unusable fault => fault.message?

/-- The data of a text; `path` tells its format. -/
def parseText (path text : String) : Except LoadError Graph :=
  if Path.suffix path = ".json" then
    match Json.parse text with
    | .ok value => .ok (.ofValue value)
    | .error .malformed => .error (.unparsable path)
    | .error (.number fault) => .error (.noNumber fault)
  else
    match Yaml.parse text with
    | .ok graph => .ok graph
    | .error .malformed => .error (.unparsable path)
    | .error fault => .error (.unusable fault)

/-- The document under a path. -/
def load (folder : Folder) (path : String) : Except LoadError Graph := do
  let path := Path.normalize path
  match folder.read? path with
  | none => .error (.notFound path)
  | some text =>
    let graph ← parseText path text
    if graph.isMap graph.root then return graph else .error (.notAnObject path)

end ApiSchema.OpenApi
