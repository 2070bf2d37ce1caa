/-
# Sessions

A command prints to two streams and writes files. What it has printed stays when it stops early.
-/
import ApiSchema.Command.Usage
import ApiSchema.Generation
import ApiSchema.GraphQL.Builder
import ApiSchema.GraphQL.Source
import ApiSchema.OpenApi.Document
import ApiSchema.OpenApi.Operation
import ApiSchema.OpenApi.Reference

namespace ApiSchema.Command

/-! ## Ends -/

/-- A cause that ends a command without a report. -/
inductive Breakdown
  | schema (error : GraphQL.SchemaError)
  | documents (error : GraphQL.DocumentError)
  | build (error : GraphQL.BuildError)
  | load (error : OpenApi.LoadError)
  | reference (error : OpenApi.ReferenceError)
  | document (fault : OpenApi.Fault)
  | emit (error : EmitError)
  | write (error : Folder.WriteError)

/-- Why a command stops early. -/
inductive Stop
  /-- The arguments of a command, or of the program, cannot be used. -/
  | misused (command : Option String) (error : UsageError)
  /-- All that was asked for is some information. -/
  | answered
  /-- There is an error to report. -/
  | failed (message : String)
  /-- The report of an error ends without the details and the line end. -/
  | failedOpenly (message : String)
  | broken (cause : Breakdown)

/-! ## Sessions -/

/-- What a command can see and change. -/
structure Console where
  /-- The path of the folder. -/
  location : String
  folder : Folder
  /-- Whether the steps are logged. -/
  verbose : Bool
  out : String
  err : String

/-- A part of a command. -/
abbrev Session := ExceptT Stop (StateM Console)

def say (line : String) : Session Unit :=
  modify fun console => { console with out := console.out ++ line ++ "\n" }

/-- Prints a line to the stream of errors. -/
def complain (line : String) : Session Unit :=
  modify fun console => { console with err := console.err ++ line ++ "\n" }

/-- Prints a line if the steps are logged. -/
def detail (line : String) : Session Unit := do if (← get).verbose then say line

/-- The importance of a record in the log. -/
inductive Level
  | debug
  | info

def Level.name : Level → String
  | debug => "DEBUG"
  | info => "INFO"

/-- Adds a record about a part of the work to the log, if the steps are logged. -/
def log (level : Level) (part message : String) : Session Unit := do
  if (← get).verbose then complain (level.name ++ " schemagen.core." ++ part ++ ": " ++ message)

/-- Goes on with a result, or stops. -/
def orStop {ε α : Type} (stop : ε → Stop) : Except ε α → Session α
  | .ok a => pure a
  | .error e => throw (stop e)

/-! ## Files -/

/-- The names that lead from the folder to a path, without steps up; nothing if it is outside. -/
def placeOf (path : String) : Option (List String) :=
  if path.toList.head? == some '/' then none
  else
    (Path.parts path).foldlM
      (fun names name =>
        if name = "" || name = "." then some names
        else if name = ".." then if names.isEmpty then none else some names.dropLast
        else some (names ++ [name]))
      []

/-- A file to be written: the names that lead to it, if it is inside the folder, and its path. -/
structure Target where
  names : Option (List String)
  path : String

/-- The file of a path; `location` is the path of the folder. -/
def Target.of (location path : String) : Target :=
  match placeOf path with
  | some names => ⟨some names, "/".intercalate (location :: names)⟩
  | none => ⟨none, path⟩

def target (path : String) : Session Target := return .of (← get).location path

/-- Writes a file. Only files inside the folder can be written. -/
def save (target : Target) (text : String) : Session Unit := do
  match target.names with
  | none => throw (.broken (.write .missing))
  | some names =>
    let path := if names.isEmpty then "." else "/".intercalate names
    let folder ← orStop (fun e => .broken (.write e)) ((← get).folder.write path text)
    modify fun console => { console with folder }

end ApiSchema.Command
