/-
# JSON

Reads JSON text into plain data. A number with a point or an exponent is a floating-point number,
any other a whole number. The words `NaN`, `Infinity` and `-Infinity` are accepted. A
key that repeats keeps its first place and its last value.
-/
import ApiSchema.Numeral
import ApiSchema.Text.Quoted
import ApiSchema.Value.Basic

namespace ApiSchema.Json

open Numeral (isDigit digitsValue)

/-- Blanks between tokens. -/
def isSpace (c : Char) : Bool := c = ' ' || c = '\t' || c = '\n' || c = '\r'

/-- The text after leading blanks. -/
def skip (cs : List Char) : List Char := cs.dropWhile isSpace

/-- The text after a word, if the text starts with it. -/
def word? : List Char → List Char → Option (List Char)
  | [], rest => some rest
  | w :: ws, c :: cs => if w = c then word? ws cs else none
  | _ :: _, [] => none

/-! ## Numbers -/

/-- Digits and what follows them; there has to be one at least. -/
def digits? (cs : List Char) : Option (List Char × List Char) :=
  match cs.span isDigit with
  | ([], _) => none
  | (digits, rest) => some (digits, rest)

/-- The whole part of a number: a zero stands alone. -/
def wholePart? : List Char → Option (List Char × List Char)
  | '0' :: rest => some (['0'], rest)
  | cs => digits? cs

/-- The fraction after a point, if there is one. -/
def fraction (cs : List Char) : List Char × List Char :=
  match cs with
  | '.' :: rest => (digits? rest).getD ([], cs)
  | _ => ([], cs)

def exponent (cs : List Char) : Option Int × List Char :=
  match cs with
  | e :: rest =>
    if e = 'e' ∨ e = 'E' then
      let (negative, unsigned) :=
        match rest with
        | '-' :: more => (true, more)
        | '+' :: more => (false, more)
        | _ => (false, rest)
      match digits? unsigned with
      | some (digits, after) =>
        (some (if negative then -(digitsValue digits : Int) else digitsValue digits), after)
      | none => (none, cs)
    else (none, cs)
  | [] => (none, [])

/-- Why a text is not read. -/
inductive Fault
  /-- The text is no JSON. -/
  | malformed
  /-- A number cannot be read. -/
  | number (fault : Numeral.Fault)
deriving DecidableEq, Inhabited

/-- A result that has to be there. -/
def required {α : Type} : Option α → Except Fault α
  | some a => .ok a
  | none => .error .malformed

/-- A number without its sign. -/
def unsigned (negative : Bool) (cs : List Char) : Except Fault (Value × List Char) := do
  let (whole, rest) ← required (wholePart? cs)
  let (places, rest) := fraction rest
  let (power, rest) := exponent rest
  if places.isEmpty && power.isNone then
    match Numeral.whole .decimal whole with
    | .ok n => return (.atom (.int (if negative then -n else n)), rest)
    | .error fault => throw (.number fault)
  else
    let x := Double.ofDecimal negative (digitsValue (whole ++ places))
      (power.getD 0 - places.length)
    return (.atom (.float x), rest)

def number : List Char → Except Fault (Value × List Char)
  | '-' :: rest => unsigned true rest
  | cs => unsigned false cs

/-! ## Values -/

def words : List (String × Atom) :=
  [("null", .null), ("true", .bool true), ("false", .bool false), ("NaN", .float .nan),
    ("Infinity", .float (.infinite false)), ("-Infinity", .float (.infinite true))]

/-- A value without parts: a text, a word or a number. -/
def atom (cs : List Char) : Except Fault (Value × List Char) :=
  match cs with
  | '"' :: rest => do
    let (text, after) ← required (Text.readQuotedBody rest)
    return (.atom (.text (String.ofList text)), after)
  | _ =>
    let found := words.findSome? fun (w, a) =>
      (word? w.toList cs).map fun after => (Value.atom a, after)
    match found with
    | some found => .ok found
    | none => number cs

mutual

/-- Reads a value that starts here. The first argument bounds the number of steps. -/
def value : Nat → List Char → Except Fault (Value × List Char)
  | 0, _ => .error .malformed
  | fuel + 1, cs =>
    match cs with
    | '[' :: rest =>
      match skip rest with
      | ']' :: after => .ok (.list [], after)
      | rest => do
        let (items, after) ← items fuel rest
        return (.list items, after)
    | '\x7b' :: rest =>
      match skip rest with
      | '\x7d' :: after => .ok (.map [], after)
      | rest => do
        let (entries, after) ← entries fuel rest
        return (.map (Assoc.ofList entries), after)
    | _ => atom cs

/-- Reads the items of a list up to its closing bracket. -/
def items : Nat → List Char → Except Fault (List Value × List Char)
  | 0, _ => .error .malformed
  | fuel + 1, cs => do
    let (item, rest) ← value fuel cs
    match skip rest with
    | ',' :: rest =>
      let (items, after) ← items fuel (skip rest)
      return (item :: items, after)
    | ']' :: after => return ([item], after)
    | _ => throw .malformed

/-- Reads the entries of a map up to its closing brace. -/
def entries : Nat → List Char → Except Fault (List (Atom × Value) × List Char)
  | 0, _ => .error .malformed
  | fuel + 1, cs => do
    let (key, rest) ← required (Text.readQuoted cs)
    let rest ← required (word? [':'] (skip rest))
    let (value, rest) ← value fuel (skip rest)
    let entry := (Atom.text (String.ofList key), value)
    match skip rest with
    | ',' :: rest =>
      let (entries, after) ← entries fuel (skip rest)
      return (entry :: entries, after)
    | '\x7d' :: after => return ([entry], after)
    | _ => throw .malformed

end

/-- Reads a whole text as one value with blanks around it. -/
def parse (text : String) : Except Fault Value := do
  let cs := text.toList
  let (value, rest) ← value (cs.length + 1) (skip cs)
  match skip rest with
  | [] => return value
  | _ => throw .malformed

end ApiSchema.Json
