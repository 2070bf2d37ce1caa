/-
# Modules

A module binds the schema of each entry in order, and then exports the type inferred from each
binding.
-/
import ApiSchema.Template.Basic
import ApiSchema.Validator.Arktype
import ApiSchema.Validator.Effect
import ApiSchema.Validator.Notice
import ApiSchema.Validator.Valibot
import ApiSchema.Validator.Zod

namespace ApiSchema

open TypeScript

/-! ## Declarations -/

def Library.express (library : Library) (scope : Scope) (schema : Schema) :
    Except EmitError Expr :=
  match library with
  | .zod => Zod.dialect.express scope false schema
  | .valibot => Valibot.dialect.express scope false schema
  | .arktype => Arktype.express schema
  | .effect => Effect.dialect.express scope false schema

/-- What a module says about one entry. -/
structure Declaration where
  name : String
  expr : Expr
deriving Inhabited

/-- The declarations of entries that follow the entries declared already. -/
def declareAll (library : Library) (spreadable : List String) :
    List String → List Entry → Except EmitError (List Declaration)
  | _, [] => .ok []
  | declared, entry :: rest => do
    let expr ← library.express ⟨spreadable, declared⟩ entry.schema
    let declarations ← declareAll library spreadable (entry.name :: declared) rest
    return ⟨entry.name, expr⟩ :: declarations

/-- The warnings about entries that follow the entries declared already. -/
def warnAll (library : Library) (spreadable : List String) :
    List String → List Entry → List String
  | _, [] => []
  | declared, entry :: rest =>
    schemaWarnings library ⟨spreadable, declared⟩ entry.schema ++
      warnAll library spreadable (entry.name :: declared) rest

/-! ## Text -/

def moduleTemplate : Template where
  name := "module.ts.j2"
  pieces :=
    [.text "/**\n * This file was automatically generated by schemagen.\n",
      .text " * Do not edit it manually; regenerate it from the source schema instead.\n */\n\n",
      .slot "import_statement", .text "\n\n// ", .slot "rule", .text "\n// ", .slot "title",
      .text " Schemas\n// ", .slot "rule", .text "\n",
      .each "decl" "declarations"
        [.text "\nexport const ", .slot "decl.var_name", .text " = ", .slot "decl.code",
          .text ";\n"],
      .text "\n// ", .slot "rule", .text "\n// TypeScript Types (inferred from ", .slot "title",
      .text " schemas)\n// ", .slot "rule", .text "\n\n",
      .each "decl" "declarations" [.slot "decl.type_export", .text "\n"]]

/-- The line under and over a heading. -/
def rule : String := String.ofList (List.replicate 76 '=')

/-- The row of a declaration in the layout. -/
def Declaration.row (library : Library) (declaration : Declaration) : List (String × String) :=
  let binding := Name.binding declaration.name
  [("decl.name", declaration.name), ("decl.var_name", binding),
    ("decl.code", declaration.expr.render 0),
    ("decl.type_export", library.typeExport binding declaration.name)]

def moduleText (library : Library) (declarations : List Declaration) : String :=
  moduleTemplate.fill
    { texts :=
        [("import_statement", library.importStatement), ("title", library.title), ("rule", rule)]
      tables := [("declarations", declarations.map (·.row library))]
      flags := [] }

/-- Generated text and what was noticed on the way. -/
structure Generated where
  content : String
  warnings : List String
deriving Inhabited

def emitModule (library : Library) (entries : List Entry) : Except EmitError Generated := do
  let spreadable ← spreadableNames entries
  let declarations ← declareAll library spreadable [] entries
  return ⟨moduleText library declarations, warnAll library spreadable [] entries⟩

/-- The library of a name, which has to be supported. -/
def requireLibrary (name : String) : Except EmitError Library :=
  match Library.ofName? name with
  | some library => .ok library
  | none => .error (.unknownLibrary name)

end ApiSchema
