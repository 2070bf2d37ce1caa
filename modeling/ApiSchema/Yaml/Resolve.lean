/-
# Scalars and their types

The tag of a scalar says what its text means. A plain scalar without a tag gets one from the form of
its text: truth values, numbers, null, dates, the mark of a merge.
-/
import ApiSchema.Text.Base64
import ApiSchema.Text.Casing
import ApiSchema.Text.Split
import ApiSchema.Yaml.Cursor
import ApiSchema.Yaml.Fault

namespace ApiSchema.Yaml

/-! ## Tags -/

/-- What a tag says about a node. -/
inductive Tag
  | null
  | bool
  | int
  | float
  | timestamp
  | binary
  | text
  | list
  | pairs
  | set
  | map
  | merge
  | value
  | other (name : String)
deriving DecidableEq, Inhabited

namespace Tag

/-- How the names of the common tags start. -/
def commonStart : String := "tag:yaml.org,2002:"

def common : List (String × Tag) :=
  [("null", null), ("bool", bool), ("int", int), ("float", float), ("timestamp", timestamp),
    ("binary", binary), ("str", text), ("seq", list), ("omap", pairs), ("pairs", pairs),
    ("set", set), ("map", map), ("merge", merge), ("value", value)]

def ofName (name : String) : Tag :=
  ((common.map fun (ending, tag) => (commonStart ++ ending, tag)).lookup name).getD (other name)

end Tag

/-! ## Forms of texts -/

/-- The digits and underscores that a number may be written with. -/
def isDigitOrMark (c : Char) : Bool := isDigit c || c = '_'

/-- The words for truth values. -/
def boolWords : List (String × Bool) :=
  [("yes", true), ("no", false), ("true", true), ("false", false), ("on", true), ("off", false)]

/-- The words for truth values in lower case, capitalised, and in upper case. -/
def boolSpellings : List String :=
  boolWords.flatMap fun (word, _) => [word, word.capitalize, word.toUpper]

def nullSpellings : List String := ["~", "null", "Null", "NULL", ""]

/-- Whether what follows is made of sixtieths: a colon and a number below sixty, again and again. -/
def isSixtieths : List Char → Bool
  | [] => true
  | [':', a] => isDigit a
  | ':' :: a :: b :: rest =>
    ('0' ≤ a && a ≤ '5' && isDigit b && isSixtieths rest) || (isDigit a && isSixtieths (b :: rest))
  | _ => false

/-- Whether a text is made of a number and at least one sixtieth. -/
def hasSixtieths (isStart : Char → Bool) (cs : List Char) : Bool :=
  let rest := cs.dropWhile isDigitOrMark
  cs.head?.any isStart && !rest.isEmpty && isSixtieths rest

/-- Whether a text is a whole number: binary, octal, hexadecimal, decimal, or in sixtieths. -/
def isInt (cs : List Char) : Bool :=
  let digitsOf (base : Numeral.Base) (cs : List Char) :=
    cs.all fun c => (base.digit? c).isSome || c = '_'
  let isFirst (c : Char) := '1' ≤ c && c ≤ '9'
  match (Numeral.splitSign cs).2 with
  | '0' :: 'b' :: rest => !rest.isEmpty && digitsOf .binary rest
  | '0' :: 'x' :: rest => !rest.isEmpty && digitsOf .hexadecimal rest
  | '0' :: rest => digitsOf .octal rest
  | c :: rest => (isFirst c && rest.all isDigitOrMark) || hasSixtieths isFirst (c :: rest)
  | [] => false

/-- Whether a text is an exponent with a sign, or nothing. -/
def isExponent : List Char → Bool
  | [] => true
  | e :: sign :: digits =>
    (e = 'e' || e = 'E') && (sign = '+' || sign = '-') && !digits.isEmpty && digits.all isDigit
  | _ => false

/-- The words for infinity, after an optional sign. -/
def infinitySpellings : List String := [".inf", ".Inf", ".INF"]

/-- The words for what is not a number. -/
def nanSpellings : List String := [".nan", ".NaN", ".NAN"]

/-- Whether a text is a number with a point. -/
def isFloat (cs : List Char) : Bool :=
  let body := (Numeral.splitSign cs).2
  let whole := body.takeWhile (· != '.')
  let rest := body.dropWhile (· != '.')
  let fraction := rest.drop 1
  let exponent := fraction.dropWhile isDigitOrMark
  infinitySpellings.contains (String.ofList body) || nanSpellings.contains (String.ofList cs) ||
    (!rest.isEmpty &&
      ((whole.head?.any isDigit && whole.all isDigitOrMark && isExponent exponent) ||
        (cs.head? == some '.' && fraction.head?.any isDigit && isExponent exponent) ||
        (hasSixtieths isDigit whole && exponent.isEmpty)))

/-! ## Dates -/

/-- The parts of a date or a time, as numbers. The fraction of a second is in digits. -/
structure DateParts where
  year : Nat
  month : Nat
  day : Nat
  time : Option (Nat × Nat × Nat × List Char)
  /-- The offset in seconds, if there is one. -/
  offset : Option Int
deriving Inhabited

/-- A number of as many digits as there are, between a least and a greatest count. -/
def digitsBetween (least greatest : Nat) (cs : List Char) : Option (Nat × List Char) :=
  let digits := (cs.take greatest).takeWhile isDigit
  if digits.length < least then none else some (Numeral.digitsValue digits, cs.drop digits.length)

/-- What stands after a given character. -/
def after (c : Char) : List Char → Option (List Char)
  | d :: cs => if c = d then some cs else none
  | [] => none

/-- The offset of a time from universal time. -/
def offsetPart? (cs : List Char) : Option (Option Int) := do
  match cs.dropWhile isSpaceOrTab with
  | [] => if cs.isEmpty then some none else none
  | ['Z'] => some (some 0)
  | sign :: rest =>
    if sign = '+' || sign = '-' then
      let (hours, rest) ← digitsBetween 1 2 rest
      let minutes ← match rest with
        | [] => some 0
        | ':' :: rest => do
          let (minutes, rest) ← digitsBetween 2 2 rest
          if rest.isEmpty then some minutes else none
        | _ => none
      let seconds : Int := (hours * 60 + minutes) * 60
      some (some (if sign = '-' then -seconds else seconds))
    else none

/-- The time of day after a date. -/
def timePart? (cs : List Char) : Option ((Nat × Nat × Nat × List Char) × Option Int) := do
  let cs ← match cs with
    | 'T' :: rest => some rest
    | 't' :: rest => some rest
    | c :: _ => if isSpaceOrTab c then some (cs.dropWhile isSpaceOrTab) else none
    | [] => none
  let (hour, cs) ← digitsBetween 1 2 cs
  let (minute, cs) ← digitsBetween 2 2 (← after ':' cs)
  let (second, cs) ← digitsBetween 2 2 (← after ':' cs)
  let (fraction, cs) := match cs with
    | '.' :: rest => (rest.takeWhile isDigit, rest.dropWhile isDigit)
    | _ => ([], cs)
  let offset ← offsetPart? cs
  return ((hour, minute, second, fraction), offset)

/-- The parts of a text that is a date, or a date and a time. -/
def dateParts? (cs : List Char) : Option DateParts := do
  let (year, cs) ← digitsBetween 4 4 cs
  let (month, cs) ← digitsBetween 1 2 (← after '-' cs)
  let (day, cs) ← digitsBetween 1 2 (← after '-' cs)
  if cs.isEmpty then return ⟨year, month, day, none, none⟩
  else
    let (time, offset) ← timePart? cs
    return ⟨year, month, day, some time, offset⟩

/-- Whether a text is a date or a time. A date alone is written in full. -/
def isTimestamp (cs : List Char) : Bool :=
  match dateParts? cs with
  | some parts => parts.time.isSome || cs.length = 10
  | none => false

/-- The marks that stand before a node and never are one. -/
def propertyMarks : List String := ["!", "&", "*"]

/-- A text without the line break at its end. -/
def withoutLastBreak (text : String) : String :=
  if text.toList.getLast? == some '\n' then String.ofList text.toList.dropLast else text

/-- The tag that the form of a text gives. A line break at its end is passed over, unless there is
nothing else. -/
def tagOfText (text : String) : Tag :=
  let form := if text = "\n" then text else withoutLastBreak text
  let cs := form.toList
  if boolSpellings.contains form then .bool
  else if isFloat cs then .float
  else if isInt cs then .int
  else if form = "<<" then .merge
  else if nullSpellings.contains form then .null
  else if isTimestamp cs then .timestamp
  else if form = "=" then .value
  else if propertyMarks.contains form then .other (Tag.commonStart ++ "yaml")
  else .text

/-! ## Values -/

/-! ### Numbers -/

/-- The whole number that a text without its sign and underscores writes: in binary, hexadecimal or
octal digits, in sixtieths, or in decimal digits. -/
def unsignedInt (cs : List Char) : Reading Int :=
  match cs with
  | [] => .error .emptyNumber
  | ['0'] => .ok 0
  | '0' :: 'b' :: rest => numberOr (Numeral.whole .binary rest)
  | '0' :: 'x' :: rest => numberOr (Numeral.whole .hexadecimal rest)
  | '0' :: _ => numberOr (Numeral.whole .octal cs)
  | _ =>
    if cs.contains ':' then
      (Text.splitAtMark ':' cs).foldlM
        (fun n part => return n * 60 + (← numberOr (Numeral.whole .decimal part))) 0
    else numberOr (Numeral.whole .decimal cs)

/-- The whole number that a text writes. -/
def intOf (text : String) : Reading Int := do
  let (negative, body) := Numeral.splitSign (text.toList.filter (· != '_'))
  let n ← unsignedInt body
  return if negative then -n else n

/-- Adds up sixtieths, the lowest place first; `unit` is the unit of the next place. -/
def sumPlaces : Nat → Double → List Double → Reading Double
  | _, sum, [] => .ok sum
  | unit, sum, place :: places =>
    match Double.ofNat? unit with
    | none => .error .tooManyPlaces
    | some factor => sumPlaces (unit * 60) (sum.plus (place.times factor)) places

def infinityWord : List Char := ['.', 'i', 'n', 'f']

/-- The word for what is not a number in lower case. -/
def nanWord : List Char := ['.', 'n', 'a', 'n']

/-- The number with a point that a text without its sign and underscores writes: a decimal, or a
decimal in sixtieths. -/
def unsignedDouble (cs : List Char) : Reading Double :=
  if cs = infinityWord then .ok (.infinite false)
  else if cs = nanWord then .ok .nan
  else if cs.contains ':' then do
    let places ← (Text.splitAtMark ':' cs).mapM fun place => numberOr (Numeral.decimal place)
    sumPlaces 1 .zero places.reverse
  else numberOr (Numeral.decimal cs)

/-- A text as numbers with a point are read: without underscores, in lower case. -/
def lowered (text : String) : List Char := Text.lowerAfter [] (text.toList.filter (· != '_'))

/-- Whether a text is the word for what is not a number. -/
def isNanWord (text : String) : Bool := (Numeral.splitSign (lowered text)).2 == nanWord

/-- The number with a point that a text writes, in any case. -/
def doubleOf (text : String) : Reading Double := do
  let cs := lowered text
  let (negative, body) := Numeral.splitSign cs
  if cs.isEmpty then .error .emptyNumber
  else
    let x ← unsignedDouble body
    return if negative then x.negate else x

/-! ### Dates -/

def checkDate (parts : DateParts) : Reading Date :=
  if parts.year = 0 then .error .yearOutOfRange
  else if parts.month < 1 || 12 < parts.month then .error .monthOutOfRange
  else if parts.day < 1 || Date.daysIn parts.year parts.month < parts.day then
    .error .dayOutOfRange
  else .ok ⟨parts.year, parts.month, parts.day⟩

/-- The microseconds that the digits of a fraction write; further digits are dropped. -/
def microseconds (digits : List Char) : Nat :=
  Numeral.digitsValue (digits.take 6 ++ List.replicate (6 - digits.length) '0')

/-- The number of seconds of the offsets that are too long. -/
def offsetBound : Nat := 86400

/-- Checks that an offset is shorter than a day. -/
def checkOffset (offset : Option Int) : Reading Unit :=
  match offset with
  | none => .ok ()
  | some seconds =>
    if offsetBound ≤ seconds.natAbs then .error (.offsetOutOfRange seconds) else .ok ()

/-- The date or the time that a text writes. A line break at its end is passed over. -/
def timestampOf (text : String) : Reading Atom :=
  match dateParts? (withoutLastBreak text).toList with
  | none => .error .noDate
  | some parts =>
    match parts.time with
    | none => return .date (← checkDate parts)
    | some (hour, minute, second, fraction) => do
      checkOffset parts.offset
      let date ← checkDate parts
      if 23 < hour then .error .hourOutOfRange
      else if 59 < minute then .error .minuteOutOfRange
      else if 59 < second then .error .secondOutOfRange
      else return .timestamp ⟨date, hour, minute, second, microseconds fraction, parts.offset⟩

/-! ### Atoms -/

/-- The truth value of a word, in any case. -/
def boolOf (text : String) : Reading Bool :=
  match boolWords.lookup (String.ofList (Text.lowerAfter [] text.toList)) with
  | some b => .ok b
  | none => .error .noTruthValue

/-- The data that a text writes in base 64. -/
def bytesOf (text : String) : Reading (List UInt8) :=
  match Text.Base64.decode? text.toList with
  | some data => .ok data
  | none => .error .malformed

/-- The value of a text with a tag. Only some tags belong to texts. -/
def atomOf (tag : Tag) (text : String) : Reading Atom :=
  match tag with
  | .null => .ok .null
  | .bool => return .bool (← boolOf text)
  | .int => return .int (← intOf text)
  | .float => return .float (← doubleOf text)
  | .timestamp => timestampOf text
  | .binary => return .bytes (← bytesOf text)
  | .text => .ok (.text text)
  | _ => .error .malformed

end ApiSchema.Yaml
