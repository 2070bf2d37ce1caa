/-
# Maps in insertion order

A map is a list of keys and values. Writing to a key that is present keeps its place and replaces
its value; a new key goes to the end.
-/

namespace ApiSchema.Assoc

variable {κ α β : Type} [BEq κ]

/-- The value of the first entry with the given key. -/
def get? (entries : List (κ × α)) (key : κ) : Option α :=
  match entries with
  | [] => none
  | (k, value) :: rest => if k == key then some value else get? rest key

def has (entries : List (κ × α)) (key : κ) : Bool := (get? entries key).isSome

/-- Writes a value, at the place of the key if it is present and else at the end. -/
def put (entries : List (κ × α)) (key : κ) (value : α) : List (κ × α) :=
  match entries with
  | [] => [(key, value)]
  | (k, old) :: rest => if k == key then (k, value) :: rest else (k, old) :: put rest key value

/-- Writes the entries of one map into another, in order. -/
def putAll (entries extra : List (κ × α)) : List (κ × α) :=
  extra.foldl (fun map entry => put map entry.1 entry.2) entries

/-- The map of a list of entries in which keys may repeat. -/
def ofList (entries : List (κ × α)) : List (κ × α) := putAll [] entries

@[simp]
theorem get?_nil (key : κ) : get? ([] : List (κ × α)) key = none := rfl

theorem get?_cons (k : κ) (value : α) (rest : List (κ × α)) (key : κ) :
    get? ((k, value) :: rest) key = if k == key then some value else get? rest key := rfl

/-- After writing, the key has the value written. -/
theorem get?_put_self [LawfulBEq κ] (entries : List (κ × α)) (key : κ) (value : α) :
    get? (put entries key value) key = some value := by
  induction entries with
  | nil => simp [put, get?]
  | cons entry rest ih =>
      obtain ⟨k, old⟩ := entry
      by_cases h : k == key <;> simp [put, get?, h, ih]

/-- Writing leaves the other keys alone. -/
theorem get?_put_of_ne [LawfulBEq κ] (entries : List (κ × α)) {key other : κ} (value : α)
    (h : key ≠ other) : get? (put entries key value) other = get? entries other := by
  induction entries with
  | nil => simp [put, get?, h]
  | cons entry rest ih =>
      obtain ⟨k, old⟩ := entry
      by_cases hk : k = key
      · subst hk
        simp [put, get?, h]
      · simp [put, get?, hk, ih]

end ApiSchema.Assoc
