/-
# Generation

From a catalog to a module: filters, the text of the module, headers.
-/
import ApiSchema.Filter
import ApiSchema.Settings
import ApiSchema.Validator.Module

namespace ApiSchema

/-- A module with the entries it holds and all warnings. -/
structure Output where
  content : String
  entries : List Entry
  warnings : List String
deriving Inhabited

/-- The hooks of a run: the given ones, and then the header of the settings. -/
def Settings.hooks (settings : Settings) (hooks : Hooks) : Hooks :=
  match settings.header with
  | some header =>
    if header.isEmpty then hooks else { hooks with headers := hooks.headers ++ [header] }
  | none => hooks

def generate (settings : Settings) (hooks : Hooks) (catalog : Catalog) :
    Except EmitError Output := do
  let hooks := settings.hooks hooks
  let entries := hooks.filterEntries catalog.entries
  let generated ← emitModule settings.library entries
  return ⟨hooks.addHeaders generated.content, entries, catalog.warnings ++ generated.warnings⟩

end ApiSchema
