/-
# Values as JSON text

Lists and maps are written on one line with a blank after each comma and colon. Texts are quoted in
ASCII, floating-point numbers take the fewest digits that read back. A tuple is written as a list.
Dates, sets and binary data have no JSON form, and neither has a value that contains itself or a
number with too many digits.
-/
import ApiSchema.Numeral
import ApiSchema.Text.Quoted
import ApiSchema.Value.Basic

namespace ApiSchema

/-- The words for what is no finite number in JSON text. -/
def jsonWords : Double.Words := ⟨"NaN", "Infinity"⟩

/-! ## Days and times -/

/-- A number in a field of the given width, filled up with zeros. -/
def padded (width n : Nat) : String :=
  let digits := Nat.toDigits 10 n
  String.ofList (List.replicate (width - digits.length) '0' ++ digits)

/-- Year, month and day. -/
def Date.iso (d : Date) : String :=
  padded 4 d.year ++ "-" ++ padded 2 d.month ++ "-" ++ padded 2 d.day

/-- An offset from universal time: hours, minutes, and seconds if there are any. -/
def offsetText (offset : Int) : String :=
  let seconds := offset.natAbs
  (if offset < 0 then "-" else "+") ++ padded 2 (seconds / 3600) ++ ":" ++
    padded 2 (seconds / 60 % 60) ++
    (if seconds % 60 = 0 then "" else ":" ++ padded 2 (seconds % 60))

/-- Date and time of day with a separator between them; the fraction is written if it is not
zero. -/
def Timestamp.iso (separator : String) (t : Timestamp) : String :=
  t.date.iso ++ separator ++ padded 2 t.hour ++ ":" ++ padded 2 t.minute ++ ":" ++
    padded 2 t.second ++
    (if t.microsecond = 0 then "" else "." ++ padded 6 t.microsecond) ++
    (match t.offset with
      | none => ""
      | some offset => offsetText offset)

/-! ## JSON text -/

/-- Why a value has no JSON form. -/
inductive Unwritable
  /-- Values of its kind have none. -/
  | noForm
  /-- The value contains itself. -/
  | circular
  /-- A number has too many digits. -/
  | tooLong
deriving DecidableEq, Inhabited

/-- The message about a value that has no JSON form, if there is one. -/
def Unwritable.message? : Unwritable → Option String
  | noForm => none
  | circular => some "Circular reference detected"
  | tooLong => some Numeral.tooLongToWrite

namespace Atom

/-- Why an atom has no JSON form, if it has none. -/
def unwritable? : Atom → Option Unwritable
  | int n => if Numeral.isWritable n then none else some .tooLong
  | date _ => some .noForm
  | timestamp _ => some .noForm
  | bytes _ => some .noForm
  | _ => none

def jsonText : Atom → String
  | null => "null"
  | bool b => if b then "true" else "false"
  | int n => toString n
  | float x => x.text jsonWords
  | text s => Text.quote s
  | date d => Text.quote d.iso
  | timestamp t => Text.quote (t.iso "T")
  | bytes data => Text.displayBytes data

/-- The JSON form of a map key, which is always a quoted text. -/
def jsonKey : Atom → String
  | text s => Text.quote s
  | a => Text.quote a.jsonText

end Atom

/-- Texts with a comma and a blank between them. -/
def commaSeparated (parts : List String) : String := ", ".intercalate parts

namespace Value

mutual

/-- Why a value has no JSON form, if it has none: the first cause on the way through it. -/
def unwritable? : Value → Option Unwritable
  | .atom a => a.unwritable?
  | .list items => firstUnwritable? items
  | .tuple items => firstUnwritable? items
  | .set _ => some .noForm
  | .map entries => firstUnwritableEntry? entries
  | .again _ => some .circular

/-- The first cause among several values. -/
def firstUnwritable? : List Value → Option Unwritable
  | [] => none
  | item :: rest => item.unwritable?.orElse fun _ => firstUnwritable? rest

/-- The first cause among the keys and values of a map. -/
def firstUnwritableEntry? : List (Atom × Value) → Option Unwritable
  | [] => none
  | (key, value) :: rest =>
    (key.unwritable?.orElse fun _ => value.unwritable?).orElse fun _ => firstUnwritableEntry? rest

end

mutual

/-- The JSON form of a value; of one that has none it is only a stand-in. -/
def jsonText : Value → String
  | .atom a => a.jsonText
  | .list items => "[" ++ commaSeparated (jsonTexts items) ++ "]"
  | .tuple items => "[" ++ commaSeparated (jsonTexts items) ++ "]"
  | .set members => "[" ++ commaSeparated (members.map Atom.jsonText) ++ "]"
  | .map entries => "\x7b" ++ commaSeparated (jsonEntryTexts entries) ++ "\x7d"
  | .again _ => "null"

def jsonTexts : List Value → List String
  | [] => []
  | item :: rest => item.jsonText :: jsonTexts rest

def jsonEntryTexts : List (Atom × Value) → List String
  | [] => []
  | (key, value) :: rest => (key.jsonKey ++ ": " ++ value.jsonText) :: jsonEntryTexts rest

end

end Value

end ApiSchema
