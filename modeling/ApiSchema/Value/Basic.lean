/-
# Plain data

The values that documents and settings are made of: atoms, lists, tuples, sets, and maps in
insertion order. A map key is any atom, because some formats write numbers, truth values and dates
as keys.
-/
import ApiSchema.Assoc
import ApiSchema.Double
import ApiSchema.Value.Date

namespace ApiSchema

/-! ## Atoms -/

/-- A value without parts. -/
inductive Atom
  | null
  | bool (value : Bool)
  | int (value : Int)
  | float (value : Double)
  | text (value : String)
  | date (value : Date)
  | timestamp (value : Timestamp)
  | bytes (data : List UInt8)
deriving DecidableEq, Inhabited

namespace Atom

/-- The whole number that a truth value counts as. -/
def ofBool (b : Bool) : Int := if b then 1 else 0

/-- Whether two atoms are the same key. Numbers are the same by value, whatever their kind, and a
truth value counts as zero or one. What is not a number is the same key as itself. -/
def same : Atom → Atom → Bool
  | null, null => true
  | bool a, bool b => a == b
  | bool a, int n => ofBool a == n
  | bool a, float x => x.sameInt (ofBool a)
  | int n, bool b => n == ofBool b
  | int m, int n => m == n
  | int n, float x => x.sameInt n
  | float x, bool b => x.sameInt (ofBool b)
  | float x, int n => x.sameInt n
  | float x, float y => x.same y || (x == .nan && y == .nan)
  | text s, text t => s == t
  | date d, date e => d == e
  | timestamp t, timestamp u => t.same u
  | bytes a, bytes b => a == b
  | _, _ => false

/-- Atoms are compared as keys. -/
instance : BEq Atom := ⟨same⟩

def text? : Atom → Option String
  | text s => some s
  | _ => none

/-- Whether an atom counts as absent: null, false, zero, or nothing in it. -/
def isBlank : Atom → Bool
  | null => true
  | bool b => !b
  | int n => n == 0
  | float x => x.isZero
  | text s => s.isEmpty
  | bytes data => data.isEmpty
  | _ => false

end Atom

/-! ## Values -/

/-- The kinds of values that have parts. -/
inductive Container
  | list
  | tuple
  | map
deriving DecidableEq, Inhabited

/-- A tree of plain data. Data that contains itself is cut where it comes back: there stands the
kind of the container that is met again. -/
inductive Value
  | atom (value : Atom)
  | list (items : List Value)
  | tuple (items : List Value)
  | set (members : List Atom)
  | map (entries : List (Atom × Value))
  | again (container : Container)
deriving Inhabited

namespace Value

def atom? : Value → Option Atom
  | atom a => some a
  | _ => none

def text? : Value → Option String
  | atom (.text s) => some s
  | _ => none

def bool? : Value → Option Bool
  | atom (.bool b) => some b
  | _ => none

def list? : Value → Option (List Value)
  | list items => some items
  | _ => none

def map? : Value → Option (List (Atom × Value))
  | map entries => some entries
  | _ => none

/-- Whether a value counts as absent: an atom that does, or a container with nothing in it. -/
def isBlank : Value → Bool
  | atom a => a.isBlank
  | list items => items.isEmpty
  | tuple items => items.isEmpty
  | set members => members.isEmpty
  | map entries => entries.isEmpty
  | again _ => false

/-- The value under a text key of a map. -/
def get? (value : Value) (key : String) : Option Value :=
  match value with
  | map entries => Assoc.get? entries (.text key)
  | _ => none

end Value

end ApiSchema
