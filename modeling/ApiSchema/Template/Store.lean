/-
# Template sources

Templates by name. A folder of custom templates goes before the built-in ones.
-/
import ApiSchema.Files.Folder
import ApiSchema.Predicate
import ApiSchema.Validator.Module

namespace ApiSchema.Template

def builtIn : List Template :=
  [moduleTemplate, Predicate.restTemplate, Predicate.graphQLTemplate, Predicate.nestingTemplate]

/-- The names on the way to a template. A name never leads upwards. -/
def namesOf (name : String) : Option (List String) :=
  let parts := Path.parts name
  if parts.contains ".." then none
  else some (parts.filter fun part => part != "" && part != ".")

/-- The source of a template in a folder of custom templates. -/
def custom? (folder : Folder) (directory : String) (names : List String) : Option String :=
  folder.read? ("/".intercalate (Path.normalize directory :: names))

/-- The source of a template. A folder that is not there is passed over. -/
def source? (folder : Folder) (directory : Option String) (name : String) : Option String := do
  let names ← namesOf name
  let custom := directory.bind fun directory =>
    if directory.isEmpty then none else custom? folder directory names
  custom.orElse fun _ =>
    (builtIn.find? (·.name == "/".intercalate names)).map (·.source)

end ApiSchema.Template
