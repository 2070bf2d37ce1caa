/-
# Filters and headers

A filter keeps the entries that pass a test on name and category, and with them everything they
depend on. A header is put in front of a generated text.
-/
import ApiSchema.Schema.Dependencies
import ApiSchema.Schema.Order

namespace ApiSchema

/-! ## Filters -/

/-- A test on entries. An empty text sets no condition. -/
structure Filter where
  excludeStart : String := ""
  excludeEnd : String := ""
  includeStart : String := ""
  includeEnd : String := ""
  categories : Option (List Category) := none
deriving Inhabited

def startsWith (text start : String) : Bool := start.toList.isPrefixOf text.toList

def endsWith (text tail : String) : Bool := tail.toList.isSuffixOf text.toList

namespace Filter

/-- Whether an entry passes the test by itself. -/
def admits (filter : Filter) (entry : Entry) : Bool :=
  (filter.excludeStart == "" || !startsWith entry.name filter.excludeStart) &&
    (filter.excludeEnd == "" || !endsWith entry.name filter.excludeEnd) &&
    (filter.includeStart == "" || startsWith entry.name filter.includeStart) &&
    (filter.includeEnd == "" || endsWith entry.name filter.includeEnd) &&
    (match filter.categories with
      | none => true
      | some categories => categories.contains entry.category)

end Filter

/-- Adds the dependencies of the names kept so far, as far as they are in the collection. -/
def growKept (index : List (String × Entry)) (kept : List String) : List String :=
  unionNames kept
    ((kept.flatMap fun name => ((Assoc.get? index name).map (·.dependencies)).getD []).filter
      (Assoc.has index))

/-- Grows the kept names until nothing is added. The first argument bounds the number of rounds, of
which each but the last adds a name of the collection. -/
def closeKept (index : List (String × Entry)) : Nat → List String → List String
  | 0, kept => kept
  | fuel + 1, kept =>
    let next := growKept index kept
    if next.length = kept.length then kept else closeKept index fuel next

namespace Filter

/-- The names of the entries that pass and of everything they depend on. -/
def keptNames (filter : Filter) (entries : List Entry) : List String :=
  let index := indexByName entries
  closeKept index (index.length + 1) (unionNames [] ((entries.filter filter.admits).map (·.name)))

/-- The entries that pass and everything they depend on, in their order. -/
def apply (filter : Filter) (entries : List Entry) : List Entry :=
  let kept := filter.keptNames entries
  entries.filter fun entry => kept.contains entry.name

end Filter

/-! ## Headers -/

/-- Puts a header in front of a text, with an empty line between them. -/
def addHeader (header content : String) : String :=
  header ++ (if endsWith header "\n" then "\n" else "\n\n") ++ content

/-! ## Hooks -/

/-- What happens around the writing of a module: filters on the entries before it, headers on the
text after it. -/
structure Hooks where
  filters : List Filter := []
  headers : List String := []
deriving Inhabited

namespace Hooks

def filterEntries (hooks : Hooks) (entries : List Entry) : List Entry :=
  hooks.filters.foldl (fun entries filter => filter.apply entries) entries

/-- The text under all headers; each header goes in front of the ones before it. -/
def addHeaders (hooks : Hooks) (content : String) : String :=
  hooks.headers.foldl (fun content header => addHeader header content) content

end Hooks

end ApiSchema
