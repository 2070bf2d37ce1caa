/-
# Numbers in texts

Whole numbers in a base and decimals, with blanks around them and one sign before them. The digits
may be of any script, and the mark of the base may stand before the digits. A whole number in base
ten with very many digits is neither read nor written, because that would take too long.
-/
import ApiSchema.Double
import ApiSchema.Text.Blank
import ApiSchema.Text.Digit
import ApiSchema.Text.Shown

namespace ApiSchema.Numeral

/-- The bases of whole numbers. -/
inductive Base
  | binary
  | octal
  | decimal
  | hexadecimal
deriving DecidableEq, Inhabited

namespace Base

/-- The number of digits of a base. -/
def radix : Base → Nat
  | binary => 2
  | octal => 8
  | decimal => 10
  | hexadecimal => 16

/-- The letter that follows a zero in the mark of a base. -/
def letter? : Base → Option Char
  | binary => some 'b'
  | octal => some 'o'
  | decimal => none
  | hexadecimal => some 'x'

end Base

/-- Why a text has no number. -/
inductive Fault
  | notWhole (base : Base) (text : String)
  | notDecimal (text : String)
  | tooLong (digits : Nat)
deriving DecidableEq, Inhabited

/-- The largest number of digits of a whole number in base ten. -/
def digitLimit : Nat := 4300

/-- The largest number of characters of a text that a message shows. -/
def shownLength : Nat := 200

/-- The message about a fault. -/
def Fault.message : Fault → String
  | .notWhole base text =>
    "invalid literal for int() with base " ++ toString base.radix ++ ": " ++
      String.ofList ((Text.displayQuoted text).toList.take shownLength)
  | .notDecimal text => "could not convert string to float: " ++ Text.displayQuoted text
  | .tooLong digits =>
    "Exceeds the limit (" ++ toString digitLimit ++
      " digits) for integer string conversion: value has " ++ toString digits ++
      " digits; use sys.set_int_max_str_digits() to increase the limit"

/-- The least number that is too long to be written. -/
def writableBound : Nat := Nat.pow 10 digitLimit

/-- Whether a whole number has few enough digits to be written. -/
def isWritable (n : Int) : Bool := decide (n.natAbs < writableBound)

def tooLongToWrite : String :=
  "Exceeds the limit (" ++ toString digitLimit ++ " digits) for integer string conversion; " ++
    "use sys.set_int_max_str_digits() to increase the limit"

/-! ## Texts -/

/-- A character as it is read: a digit of any script is the plain one, a blank outside of ASCII is a
space. -/
def plainChar (c : Char) : Char :=
  if c.toNat < 0x7F then c
  else if Text.isBlank c then ' '
  else (Text.digitValue? c).elim c fun value => Char.ofNat ('0'.toNat + value)

/-- The blanks of ASCII that may stand around a number. -/
def isSpace (c : Char) : Bool := c = ' ' || ('\t' ≤ c && c ≤ '\r')

/-- A text as it is read, without the blanks around it. -/
def trimmed (cs : List Char) : List Char :=
  (((cs.map plainChar).dropWhile isSpace).reverse.dropWhile isSpace).reverse

/-- Whether a text starts with a minus, and what follows its sign. -/
def splitSign : List Char → Bool × List Char
  | '-' :: cs => (true, cs)
  | '+' :: cs => (false, cs)
  | cs => (false, cs)

/-- The value of a digit, or of a letter that stands for one. -/
def digit? (c : Char) : Option Nat :=
  if '0' ≤ c && c ≤ '9' then some (c.toNat - '0'.toNat)
  else if 'a' ≤ c && c ≤ 'z' then some (c.toNat - 'a'.toNat + 10)
  else if 'A' ≤ c && c ≤ 'Z' then some (c.toNat - 'A'.toNat + 10)
  else none

/-! ## Whole numbers -/

/-- A text without the mark of its base. -/
def Base.unmarked (base : Base) : List Char → List Char
  | '0' :: c :: cs => if base.letter? == some c.toLower then cs else '0' :: c :: cs
  | cs => cs

def Base.digit? (base : Base) (c : Char) : Option Nat :=
  (Numeral.digit? c).filter (· < base.radix)

/-- The number that digits write, the highest first. -/
def Base.ofDigits (base : Base) (digits : List Nat) : Nat :=
  digits.foldl (fun value digit => value * base.radix + digit) 0

/-- The whole number of a base that a text writes. -/
def whole (base : Base) (text : List Char) : Except Fault Int :=
  let (negative, body) := splitSign (trimmed text)
  match (base.unmarked body).mapM base.digit? with
  | none => .error (.notWhole base (String.ofList text))
  | some [] => .error (.notWhole base (String.ofList text))
  | some digits =>
    if base = .decimal && digitLimit < digits.length then .error (.tooLong digits.length)
    else
      let value : Int := base.ofDigits digits
      .ok (if negative then -value else value)

/-! ## Decimals -/

def isDigit (c : Char) : Bool := '0' ≤ c && c ≤ '9'

/-- The number that plain digits write. -/
def digitsValue (digits : List Char) : Nat :=
  digits.foldl (fun value c => value * 10 + (c.toNat - '0'.toNat)) 0

/-- The exponent of a decimal, zero if there is none. -/
def exponent? : List Char → Option Int
  | [] => some 0
  | e :: cs =>
    let (negative, digits) := splitSign cs
    if (e = 'e' || e = 'E') && !digits.isEmpty && digits.all isDigit then
      some (if negative then -(digitsValue digits : Int) else digitsValue digits)
    else none

/-- The finite number that a decimal without sign writes. -/
def finite? (negative : Bool) (cs : List Char) : Option Double := do
  let (whole, rest) := cs.span isDigit
  let (fraction, rest) := match rest with
    | '.' :: rest => rest.span isDigit
    | _ => ([], rest)
  if whole.isEmpty && fraction.isEmpty then none
  else
    let exponent ← exponent? rest
    return .ofDecimal negative (digitsValue (whole ++ fraction)) (exponent - fraction.length)

/-- The words for numbers that are not finite. -/
def words (negative : Bool) : List (String × Double) :=
  [("inf", .infinite negative), ("infinity", .infinite negative), ("nan", .nan)]

/-- The decimal that a text writes. -/
def decimal (text : List Char) : Except Fault Double :=
  let (negative, body) := splitSign (trimmed text)
  match (words negative).lookup (String.ofList (body.map Char.toLower)) with
  | some number => .ok number
  | none =>
    match finite? negative body with
    | some number => .ok number
    | none => .error (.notDecimal (String.ofList text))

end ApiSchema.Numeral
