/-
# Nullability of unions

A union of one schema with null, with the undefined value, or with both is that schema made
nullable, optional or nullish. Validator libraries have a form of their own for these.
-/
import ApiSchema.Schema.Basic

namespace ApiSchema

/-- The three ways to widen a schema by null and the undefined value. -/
inductive Modifier
  | nullable
  | optional
  | nullish
deriving DecidableEq, Inhabited

def Modifier.name : Modifier → String
  | nullable => "nullable"
  | optional => "optional"
  | nullish => "nullish"

namespace Schema

/-- Whether a union member is neither null nor the undefined value. -/
def isConcrete (schema : Schema) : Bool := !schema.isNull && !schema.isUndefined

/-- The concrete members of a union, whether null is a member, and whether the undefined value
is. -/
def splitNullability (members : List Schema) : List Schema × Bool × Bool :=
  (members.filter isConcrete, members.any isNull, members.any isUndefined)

/-- The modifier of a union with a single concrete member; `none` for every other union. -/
def modifier? (members : List Schema) : Option Modifier :=
  match splitNullability members with
  | ([_], true, true) => some .nullish
  | ([_], true, false) => some .nullable
  | ([_], false, true) => some .optional
  | _ => none

/-- The single concrete member of a union and its modifier. -/
def wrapper? (members : List Schema) : Option (Schema × Modifier) :=
  match modifier? members, members.filter isConcrete with
  | some modifier, [inner] => some (inner, modifier)
  | _, _ => none

/-- The single concrete member of a widened schema; any other schema as it is. -/
def stripNullability : Schema → Schema
  | union members =>
    match wrapper? members with
    | some (inner, _) => inner
    | none => union members
  | schema => schema

/-- Whether null is accepted outright: the schema is null, or a union with null as a member. -/
def acceptsNull : Schema → Bool
  | union members => members.any isNull
  | schema => schema.isNull

/-- Of the results for each member of a union, the one for the first concrete member. -/
def concreteResult? {α : Type} (members : List Schema) (results : List α) : Option α :=
  ((members.zip results).find? (·.1.isConcrete)).map (·.2)

end Schema

end ApiSchema
