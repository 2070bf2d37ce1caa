/-
# Commands

The program has three commands: one for each kind of API description, and one for the translators of
predicates.
-/
import ApiSchema.Command.Arguments
import ApiSchema.Command.Session
import ApiSchema.GraphQL.Catalog
import ApiSchema.OpenApi.Catalog
import ApiSchema.Predicate

namespace ApiSchema.Command

/-! ## Options -/

def helpOption : OptionSpec := { long := "--help", kind := .flag }

def versionOption : OptionSpec := { long := "--version", kind := .flag }

/-- The option for the file to be written. -/
def outputOption : OptionSpec := { long := "--output", short := some 'o', required := true }

def validatorOption : OptionSpec := { long := "--validator", kind := .choice Library.names }

/-- The option for more output. -/
def verboseOption : OptionSpec := { long := "--verbose", short := some 'v', kind := .flag }

def programOptions : List OptionSpec := [versionOption, helpOption]

/-- The options for GraphQL schemas. -/
def graphQLOptions : List OptionSpec :=
  [{ long := "--schema", short := some 's', kind := .existing, required := true },
    { long := "--documents", short := some 'd', required := true, repeated := true },
    outputOption, validatorOption, { long := "--scalar", repeated := true }, verboseOption,
    helpOption]

/-- The options for OpenAPI documents. -/
def openApiOptions : List OptionSpec :=
  [{ long := "--spec", short := some 's', kind := .existing, required := true }, outputOption,
    validatorOption, { long := "--operation-id", repeated := true }, verboseOption, helpOption]

def predicateOptions : List OptionSpec :=
  [{ long := "--name", short := some 'n', required := true },
    { long := "--source"
      kind := .choice ([Predicate.Source.openApi, .graphQL].map Predicate.Source.name) },
    { long := "--dialect", kind := .choice (Wording.named.map (·.1)) },
    { long := "--params-type" }, { long := "--sort-param" }, { long := "--limit-param" },
    { long := "--offset-param" }, outputOption, helpOption]

/-- The library that is asked for; Zod by default. -/
def libraryOf (arguments : Arguments) : Library :=
  ((arguments.value? validatorOption.long).bind Library.ofName?).getD .zod

/-- The file that is asked for. -/
def outputOf (arguments : Arguments) : Session Target :=
  target ((arguments.value? outputOption.long).getD "")

/-! ## Modules -/

/-- The number of entries of each role, in the order of first occurrence. -/
def countByCategory (entries : List Entry) : List (String × Nat) :=
  entries.foldl
    (fun counts entry =>
      let name := entry.category.name
      Assoc.put counts name ((Assoc.get? counts name).getD 0 + 1))
    []

/-- Writes the module of a catalog and reports on it. -/
def writeModule (settings : Settings) (catalog : Catalog) (target : Target) : Session Unit := do
  let output ← orStop (fun e => .broken (.emit e)) (generate settings {} catalog)
  let count := toString output.entries.length
  log .info "generator" ("Generated " ++ count ++ " " ++ settings.library.name ++ " schemas (" ++
    toString output.warnings.length ++ " warnings)")
  save target output.content
  log .info "generator" ("Wrote " ++ target.path)
  output.warnings.forM fun warning => complain ("Warning: " ++ warning)
  (countByCategory output.entries).forM fun (name, number) =>
    detail ("  " ++ name ++ ": " ++ toString number)
  say ("Done! Generated " ++ count ++ " schemas in " ++ target.path)

/-! ## GraphQL -/

/-- How an unusable schema ends a command. -/
def stopOfSchema (error : GraphQL.SchemaError) : Stop :=
  match error.message? with
  | some message => .failed message
  | none => .broken (.schema error)

def loadSchema (path : String) : Session GraphQL.TypeSystem := do
  let folder := (← get).folder
  let files := GraphQL.schemaTexts folder path
  if !Path.endsInAny [GraphQL.introspectionEnding] path && !files.isEmpty then
    log .debug "documents" ("Building schema from " ++ toString files.length ++ " files")
  orStop stopOfSchema (GraphQL.TypeSystem.load folder path)

def loadDocuments (patterns : List String) : Session GraphQL.Documents := do
  let stop (error : GraphQL.DocumentError) : Stop :=
    error.message?.elim (.broken (.documents error)) .failed
  let sources ← orStop stop (GraphQL.documentTexts (← get).folder patterns)
  (GraphQL.Documents.usable .empty sources).skipped.forM fun name =>
    log .debug "documents" ("Skipping subscription " ++ name)
  let documents ← orStop stop (GraphQL.Documents.ofTexts sources)
  log .debug "documents" ("Parsed " ++ toString documents.operations.length ++
    " operations and " ++ toString documents.fragments.length ++ " fragments")
  return documents

/-- Writes the module of a GraphQL schema and client documents. -/
def runGraphQL (arguments : Arguments) : Session Unit := do
  let target ← outputOf arguments
  let library := libraryOf arguments
  let scalars ← orStop (fun e => .misused (some "graphql") (.scalar e))
    (scalarOptions (arguments.values "--scalar"))
  say "Parsing schema..."
  let system ← loadSchema ((arguments.value? "--schema").getD "")
  let documents ← loadDocuments (arguments.values "--documents")
  detail ("  Operations: " ++ toString documents.operations.length)
  detail ("  Fragments: " ++ toString documents.fragments.length)
  say ("Generating " ++ library.name ++ " schemas...")
  let registry ← orStop (fun e => .failed (ScalarError.message e))
    (Registry.of (some library) scalars)
  let catalog ← orStop (fun e => .broken (.build e))
    (GraphQL.catalog ⟨system, documents, registry⟩)
  log .debug "graphql_parser" ("Built " ++ toString catalog.entries.length ++
    " GraphQL entries with " ++ toString catalog.warnings.length ++ " warnings")
  writeModule { library, scalars } catalog target

/-! ## OpenAPI -/

/-- How a document that cannot be loaded ends a command. -/
def stopOfLoad (error : OpenApi.LoadError) : Stop :=
  match error, error.message? with
  | .noNumber _, _ => .broken (.load error)
  | .unusable _, _ => .broken (.load error)
  | .unparsable _, some message => .failedOpenly message
  | _, some message => .failed message
  | _, none => .broken (.load error)

/-- How a reference that cannot be followed ends a command. -/
def stopOfReference (error : OpenApi.ReferenceError) : Stop :=
  match error, error.message? with
  | .notANumber _, _ => .broken (.reference error)
  | _, some message => .failed message
  | _, none => .broken (.reference error)

/-- The address of an API as it is shown. -/
def shownUrl (graph : Graph) (url : Item) : OpenApi.Reading String :=
  if graph.isBlank url then .ok "(none)" else OpenApi.shown graph url

/-- Writes the module of an OpenAPI document. -/
def runOpenApi (arguments : Arguments) : Session Unit := do
  let target ← outputOf arguments
  let library := libraryOf arguments
  let ids := arguments.values "--operation-id"
  let operationIds := if ids.isEmpty then none else some ids
  let unusable (fault : OpenApi.Fault) : Stop := .broken (.document fault)
  say "Loading OpenAPI document..."
  let loaded ← orStop stopOfLoad
    (OpenApi.load (← get).folder ((arguments.value? "--spec").getD ""))
  let graph ← orStop stopOfReference (OpenApi.dereference loaded)
  let operations ← orStop unusable (OpenApi.operations graph)
  log .debug "openapi_document" ("Extracted " ++ toString operations.length ++ " operations")
  if (← get).verbose then
    let url ← orStop unusable (OpenApi.baseUrl graph)
    say ("  Base URL: " ++ (← orStop unusable (shownUrl graph url)))
    say ("  Operations: " ++ toString operations.length)
  say ("Generating " ++ library.name ++ " schemas...")
  let selected ← orStop unusable (OpenApi.selectOperations operationIds operations)
  let catalog ← orStop unusable (OpenApi.catalog graph operations operationIds)
  log .debug "openapi_parser" ("Built " ++ toString catalog.entries.length ++
    " OpenAPI entries from " ++ toString selected.length ++ " operations")
  writeModule { library, operationIds } catalog target

/-! ## Predicates -/

def collectionOf (arguments : Arguments) (source : Predicate.Source) : Collection where
  name := (arguments.value? "--name").getD ""
  mapping :=
    match (arguments.value? "--dialect").bind fun name => Wording.named.lookup name with
    | some wording => some wording
    | none => if source = .graphQL then some .hasura else none
  sortParam := arguments.value? "--sort-param"
  limitParam := arguments.value? "--limit-param"
  offsetParam := arguments.value? "--offset-param"
  loading := some .onDemand

/-- Writes the translator of a collection. -/
def runPredicates (arguments : Arguments) : Session Unit := do
  let source := ((arguments.value? "--source").bind Predicate.Source.ofName?).getD .openApi
  let translator := Predicate.translator (collectionOf arguments source)
    (arguments.value? "--params-type") source true
  translator.warnings.forM fun warning => complain ("Warning: " ++ warning)
  let target ← outputOf arguments
  save target (Predicate.imports ++ "\n\n" ++ translator.content)
  say ("Done! Generated " ++ translator.wording.name ++ " translator in " ++ target.path)

/-! ## The program -/

/-- A command with its options. -/
structure Subcommand where
  name : String
  options : List OptionSpec
  run : Arguments → Session Unit

/-- The commands of the program. -/
def subcommands : List Subcommand :=
  [⟨"graphql", graphQLOptions, runGraphQL⟩, ⟨"openapi", openApiOptions, runOpenApi⟩,
    ⟨"predicates", predicateOptions, runPredicates⟩]

def versionLine : String := programName ++ ", version 0.1.0"

def showUsage (command : Option String) : Session Unit := do
  modify fun console => { console with out := console.out ++ usage command }
  throw .answered

/-- Reads the arguments of a command and runs it. -/
def Subcommand.start (command : Subcommand) (arguments : List String) : Session Unit := do
  let misused := Stop.misused (some command.name)
  let arguments ← orStop misused (Arguments.read command.options true arguments)
  if arguments.has helpOption.long then showUsage (some command.name)
  orStop misused (arguments.check (← get).folder command.options)
  modify fun console => { console with verbose := arguments.has verboseOption.long }
  command.run arguments

/-- Reads the arguments of the program itself, answers what they ask for, and gives the others. -/
def readProgram (arguments : List String) : Session (List String) := do
  let arguments ← orStop (.misused none) (Arguments.read programOptions false arguments)
  match arguments.given.head? with
  | none => return arguments.rest
  | some (name, _) =>
    if name = versionOption.long then
      say versionLine
      throw .answered
    else
      showUsage none
      return []

/-- Runs the program. What is in the place of a command and is none is read as an option once more,
even behind two dashes. -/
def program (arguments : List String) : Session Unit := do
  match ← readProgram arguments with
  | [] => throw (.misused none .commandMissing)
  | name :: rest =>
    match subcommands.find? (·.name == name) with
    | some command => command.start rest
    | none =>
      discard (readProgram (name :: rest))
      throw (.misused none (.noSuchCommand name))

/-- What a run leaves behind. -/
structure Outcome where
  exit : Nat
  out : String
  err : String
  folder : Folder
  /-- The cause of an end without a report. -/
  breakdown : Option Breakdown

/-- What a run leaves behind, by the way it ended. -/
def Outcome.of (console : Console) : Except Stop Unit → Outcome
  | .ok () => ⟨0, console.out, console.err, console.folder, none⟩
  | .error .answered => ⟨0, console.out, console.err, console.folder, none⟩
  | .error (.misused command error) =>
    ⟨2, console.out, console.err ++ error.report command, console.folder, none⟩
  | .error (.failed message) =>
    ⟨1, console.out, console.err ++ "Error: " ++ message ++ "\n", console.folder, none⟩
  | .error (.failedOpenly message) =>
    ⟨1, console.out, console.err ++ "Error: " ++ message, console.folder, none⟩
  | .error (.broken cause) => ⟨1, console.out, console.err, console.folder, some cause⟩

/-- Runs the program in a folder; `location` is the path of the folder. -/
def run (location : String) (folder : Folder) (arguments : List String) : Outcome :=
  let (result, console) := (program arguments).run.run ⟨location, folder, false, "", ""⟩
  .of console result

end ApiSchema.Command
