/-
# Order of declaration

Entries are ordered by a depth-first visit, so that an entry comes after the entries it depends on.
A cycle is cut where the visit meets an entry that is still open. Dependencies are visited in order
of their names, and names outside the collection are passed over.
-/
import ApiSchema.Schema.Dependencies

namespace ApiSchema

/-- The last entry of each name, at the place of the first. -/
def indexByName (entries : List Entry) : List (String × Entry) :=
  Assoc.ofList (entries.map fun entry => (entry.name, entry))

/-- Visits a name: its dependencies first, then its own entry. `opened` are the names met on the way
down, `done` the entries finished so far. The first argument bounds the depth, which never exceeds
the number of names. -/
def visitName (index : List (String × Entry)) :
    Nat → List String → List Entry → String → List Entry
  | 0, _, done, _ => done
  | fuel + 1, opened, done, name =>
    if done.any (·.name == name) || opened.contains name then done
    else
      match Assoc.get? index name with
      | none => done
      | some entry =>
        (sortNames entry.dependencies).foldl (visitName index fuel (name :: opened)) done ++ [entry]

/-- The entries in an order of declaration, one for each name. -/
def topologicalSort (entries : List Entry) : List Entry :=
  (entries.map (·.name)).foldl (visitName (indexByName entries) (entries.length + 1) []) []

end ApiSchema
