/-
# Text templates

A template is a text with slots, loops over rows, parts under a condition, and other templates
included. It has a source form, with `{{ }}` around slots and `{% %}` around the other constructs,
and it is filled from a context. In the source form a construct other than a slot ends its line, and
that line break does not belong to the filled text.
-/
import ApiSchema.Text.Quoted

namespace ApiSchema

/-- A part of a template. -/
inductive Piece
  /-- Text that stays as it is. -/
  | text (content : String)
  /-- The value of a name. -/
  | slot (name : String)
  /-- The value of a name as a quoted text. -/
  | quoted (name : String)
  /-- The body once for each row of a table; `names` are the columns as the source writes them. -/
  | each (names table : String) (body : List Piece)
  | onlyIf (flag : String) (body : List Piece)
  /-- Another template. -/
  | included (name : String) (body : List Piece)
deriving Inhabited

/-- What a template is filled with. -/
structure Context where
  texts : List (String × String)
  tables : List (String × List (List (String × String)))
  flags : List String
deriving Inhabited

namespace Context

/-- The value of a name; an unknown name has an empty value. -/
def text (context : Context) (name : String) : String := (context.texts.lookup name).getD ""

def table (context : Context) (name : String) : List (List (String × String)) :=
  (context.tables.lookup name).getD []

/-- The context inside a row. -/
def within (context : Context) (row : List (String × String)) : Context :=
  { context with texts := row ++ context.texts }

end Context

namespace Piece

mutual

/-- The source form of a piece. -/
def source : Piece → String
  | .text content => content
  | .slot name => "\x7b\x7b " ++ name ++ " \x7d\x7d"
  | .quoted name => "\x7b\x7b " ++ name ++ " | json \x7d\x7d"
  | .each names table body =>
    "\x7b% for " ++ names ++ " in " ++ table ++ " %\x7d\n" ++ sources body ++ "\x7b% endfor %\x7d\n"
  | .onlyIf flag body => "\x7b% if " ++ flag ++ " %\x7d\n" ++ sources body ++ "\x7b% endif %\x7d\n"
  | .included name _ => "\x7b% include \"" ++ name ++ "\" %\x7d\n"

def sources : List Piece → String
  | [] => ""
  | piece :: rest => source piece ++ sources rest

end

mutual

def fill : Piece → Context → String
  | .text content, _ => content
  | .slot name, context => context.text name
  | .quoted name, context => Text.quote (context.text name)
  | .each _ table body, context =>
    String.join ((context.table table).map fun row => fillAll body (context.within row))
  | .onlyIf flag body, context => if context.flags.contains flag then fillAll body context else ""
  | .included _ body, context => fillAll body context

def fillAll : List Piece → Context → String
  | [], _ => ""
  | piece :: rest, context => fill piece context ++ fillAll rest context

end

end Piece

/-- A template under its name. -/
structure Template where
  name : String
  pieces : List Piece
deriving Inhabited

namespace Template

/-- The source form of a template. -/
def source (template : Template) : String := Piece.sources template.pieces

def fill (template : Template) (context : Context) : String :=
  Piece.fillAll template.pieces context

end Template

end ApiSchema
