/-
# Scopes

What a schema expression may rely on: the entries bound earlier in the module, and the entries
written as plain objects, whose fields can be spread into another object.
-/
import ApiSchema.Validator.Library

namespace ApiSchema

/-- The names that an expression can rely on. -/
structure Scope where
  /-- Entries written as plain objects. -/
  spreadable : List String
  /-- Entries bound earlier in the module. -/
  declared : List String
deriving Inhabited

/-- Whether a reference points to a binding that comes later. -/
def Scope.isForward (scope : Scope) (name : String) : Bool := !scope.declared.contains name

/-! ## Spreadable entries -/

/-- Goes through the entries once and drops each one that spreads an entry already dropped. -/
def spreadPass : List Entry → List String → Except EmitError (List String)
  | [], names => .ok names
  | entry :: rest, names =>
    if names.contains entry.name then
      match entry.schema with
      | .object _ _ spreads =>
        if spreads.all names.contains then spreadPass rest names
        else spreadPass rest (names.filter (· != entry.name))
      | _ => .error (.mixedEntries entry.name)
    else spreadPass rest names

/-- Repeats the pass until it drops nothing. The first argument bounds the number of passes, of
which each but the last drops a name. -/
def spreadFixpoint (entries : List Entry) : Nat → List String → Except EmitError (List String)
  | 0, names => .ok names
  | fuel + 1, names =>
    match spreadPass entries names with
    | .error e => .error e
    | .ok next => if next.length = names.length then .ok names else spreadFixpoint entries fuel next

def objectNames (entries : List Entry) : List String :=
  ((entries.filter (·.schema.isObject)).map (·.name)).eraseDups

/-- The entries written as plain objects. An object that spreads any other entry is written as an
intersection, so its own fields cannot be spread either. -/
def spreadableNames (entries : List Entry) : Except EmitError (List String) :=
  let names := objectNames entries
  spreadFixpoint entries (names.length + 1) names

end ApiSchema
