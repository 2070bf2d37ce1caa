/-
# TypeScript expressions

The expressions that a generated module is made of, and their text. An object literal is written
either on one line or as a block with one line for each field; a block indents what it holds by one
tab more than the line it starts on.
-/
import ApiSchema.Value.Written

namespace ApiSchema.TypeScript

/-- An expression. A field key is given as it is written. -/
inductive Expr
  | name (path : String)
  | text (value : String)
  | literal (value : Value)
  | regex (pattern : String)
  | member (receiver : Expr) (field : String)
  | call (callee : Expr) (arguments : List Expr)
  | array (items : List Expr)
  | thunk (body : Expr)
  | inlineObject (fields : List (String × Expr))
  | block (spreads : List Expr) (fields : List (String × Expr))
  | verbatim (code : String)
deriving Inhabited

/-- Tabs up to a depth. -/
def indent (depth : Nat) : String := String.ofList (List.replicate depth '\t')

/-- Lines with a line break between them. -/
def joinLines (lines : List String) : String := "\n".intercalate lines

namespace Expr

mutual

/-- The text of an expression whose first line is indented to the given depth. -/
def render (depth : Nat) : Expr → String
  | .name path => path
  | .text value => Text.quote value
  | .literal value => value.jsonText
  | .regex pattern => "/" ++ pattern ++ "/"
  | .member receiver field => render depth receiver ++ "." ++ field
  | .call callee arguments =>
    render depth callee ++ "(" ++ commaSeparated (renderAll depth arguments) ++ ")"
  | .array items => "[" ++ commaSeparated (renderAll depth items) ++ "]"
  | .thunk body => "() => " ++ render depth body
  | .inlineObject fields => "\x7b " ++ commaSeparated (renderFields depth fields) ++ " \x7d"
  | .block spreads fields =>
    let lines := (renderAll (depth + 1) spreads).map ("..." ++ ·) ++ renderFields (depth + 1) fields
    if lines.isEmpty then "\x7b\x7d"
    else
      "\x7b\n" ++ joinLines (lines.map (indent (depth + 1) ++ · ++ ",")) ++ "\n" ++ indent depth ++
        "\x7d"
  | .verbatim code => code

/-- The texts of several expressions. -/
def renderAll (depth : Nat) : List Expr → List String
  | [] => []
  | expr :: rest => render depth expr :: renderAll depth rest

/-- The texts of the fields of an object literal. -/
def renderFields (depth : Nat) : List (String × Expr) → List String
  | [] => []
  | (key, value) :: rest => (key ++ ": " ++ render depth value) :: renderFields depth rest

end

theorem renderAll_eq_map (depth : Nat) (exprs : List Expr) :
    renderAll depth exprs = exprs.map (render depth) := by
  induction exprs with
  | nil => rfl
  | cons expr rest ih => rw [renderAll, ih, List.map_cons]

theorem renderFields_eq_map (depth : Nat) (fields : List (String × Expr)) :
    renderFields depth fields = fields.map fun field =>
      field.1 ++ ": " ++ render depth field.2 := by
  induction fields with
  | nil => rfl
  | cons field rest ih => rw [renderFields, ih, List.map_cons]

def apply (function : String) (arguments : List Expr) : Expr := call (name function) arguments

def method (receiver : Expr) (field : String) (arguments : List Expr) : Expr :=
  call (member receiver field) arguments

end Expr

end ApiSchema.TypeScript
