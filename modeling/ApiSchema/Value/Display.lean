/-
# Values as shown to people

The form of a value inside messages and inside another text.
-/
import ApiSchema.Text.Shown
import ApiSchema.Value.Written

namespace ApiSchema

/-! ## Values -/

/-- The words for what is no finite number in a displayed value. -/
def displayWords : Double.Words := ⟨"nan", "inf"⟩

/-- A day as a displayed value inside a list or map. -/
def Date.display (d : Date) : String :=
  "datetime.date(" ++ commaSeparated ([d.year, d.month, d.day].map toString) ++ ")"

/-- A length of time that is not negative and shorter than a day, or one day less such a length. -/
def spanDisplay (seconds : Int) : String :=
  let days := seconds.fdiv 86400
  let rest := seconds.fmod 86400
  let parts :=
    (if days = 0 then [] else ["days=" ++ toString days]) ++
      (if rest = 0 then [] else ["seconds=" ++ toString rest])
  "datetime.timedelta(" ++ commaSeparated (if parts.isEmpty then ["0"] else parts) ++ ")"

/-- A time as a displayed value inside a list or map; seconds are left out when they are zero and
no fraction follows. -/
def Timestamp.display (t : Timestamp) : String :=
  let clock :=
    if t.microsecond ≠ 0 then [t.second, t.microsecond]
    else if t.second ≠ 0 then [t.second]
    else []
  let numbers := [t.date.year, t.date.month, t.date.day, t.hour, t.minute] ++ clock
  let zone :=
    match t.offset with
    | none => []
    | some 0 => ["tzinfo=datetime.timezone.utc"]
    | some offset => ["tzinfo=datetime.timezone(" ++ spanDisplay offset ++ ")"]
  "datetime.datetime(" ++ commaSeparated (numbers.map toString ++ zone) ++ ")"

def Atom.display : Atom → String
  | .null => "None"
  | .bool b => if b then "True" else "False"
  | .int n => toString n
  | .float x => x.text displayWords
  | .text s => Text.displayQuoted s
  | .date d => d.display
  | .timestamp t => t.display
  | .bytes data => Text.displayBytes data

/-- An atom shown on its own: a text as it is, dates in their written form. -/
def Atom.plain : Atom → String
  | .text s => s
  | .date d => d.iso
  | .timestamp t => t.iso " "
  | a => a.display

/-- Whether an atom can be shown: a number needs few enough digits. -/
def Atom.isShowable : Atom → Bool
  | .int n => Numeral.isWritable n
  | _ => true

/-- What is shown of a container inside itself. -/
def Container.display : Container → String
  | .list => "[...]"
  | .tuple => "(...)"
  | .map => "\x7b...\x7d"

namespace Value

mutual

def display : Value → String
  | .atom a => a.display
  | .list items => "[" ++ commaSeparated (displays items) ++ "]"
  | .tuple [item] => "(" ++ item.display ++ ",)"
  | .tuple items => "(" ++ commaSeparated (displays items) ++ ")"
  | .set [] => "set()"
  | .set members => "\x7b" ++ commaSeparated (members.map Atom.display) ++ "\x7d"
  | .map entries => "\x7b" ++ commaSeparated (displayEntries entries) ++ "\x7d"
  | .again container => container.display

def displays : List Value → List String
  | [] => []
  | item :: rest => item.display :: displays rest

def displayEntries : List (Atom × Value) → List String
  | [] => []
  | (key, value) :: rest => (key.display ++ ": " ++ value.display) :: displayEntries rest

end

/-- A value shown on its own. -/
def plain : Value → String
  | .atom a => a.plain
  | value => value.display

mutual

/-- Whether all numbers in a value have few enough digits to be shown. -/
def isShowable : Value → Bool
  | .atom a => a.isShowable
  | .list items => allShowable items
  | .tuple items => allShowable items
  | .set members => members.all Atom.isShowable
  | .map entries => allShowableEntries entries
  | .again _ => true

def allShowable : List Value → Bool
  | [] => true
  | item :: rest => item.isShowable && allShowable rest

/-- Whether all numbers in the keys and values of a map can be shown. -/
def allShowableEntries : List (Atom × Value) → Bool
  | [] => true
  | (key, value) :: rest => key.isShowable && value.isShowable && allShowableEntries rest

end

end Value

end ApiSchema
