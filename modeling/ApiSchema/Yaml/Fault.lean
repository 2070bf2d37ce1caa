/-
# Faults of YAML texts

Why a text has no data: it is not well formed, or something in it cannot be used for its purpose.
-/
import ApiSchema.Numeral
import ApiSchema.Value.Display

namespace ApiSchema.Yaml

/-- Why a text has no data. -/
inductive Fault
  /-- The text is not well formed, or a node cannot be what its tag says. -/
  | malformed
  /-- The code in an escape is that of no character. -/
  | noCharacter
  | codeTooLarge
  | noNumber (fault : Numeral.Fault)
  /-- There is nothing where a number should be. -/
  | emptyNumber
  | tooManyPlaces
  | noTruthValue
  | noDate
  | dateInMapping
  /-- The year is zero. -/
  | yearOutOfRange
  | monthOutOfRange
  /-- The month has no such day. -/
  | dayOutOfRange
  | hourOutOfRange
  | minuteOutOfRange
  | secondOutOfRange
  /-- An offset is not shorter than a day. -/
  | offsetOutOfRange (seconds : Int)
deriving DecidableEq, Inhabited

def Fault.message? : Fault → Option String
  | noCharacter => some "chr() arg not in range(0x110000)"
  | noNumber fault => some fault.message
  | yearOutOfRange => some "year 0 is out of range"
  | monthOutOfRange => some "month must be in 1..12"
  | dayOutOfRange => some "day is out of range for month"
  | hourOutOfRange => some "hour must be in 0..23"
  | minuteOutOfRange => some "minute must be in 0..59"
  | secondOutOfRange => some "second must be in 0..59"
  | offsetOutOfRange seconds =>
    some ("offset must be a timedelta strictly between -timedelta(hours=24) and " ++
      "timedelta(hours=24), not " ++ spanDisplay seconds ++ ".")
  | _ => none

/-- A result, or why there is none. -/
abbrev Reading := Except Fault

/-- A result that has to be there. -/
def required {α : Type} : Option α → Reading α
  | some a => .ok a
  | none => .error .malformed

/-- A number, or the fault that there is none. -/
def numberOr {α : Type} : Except Numeral.Fault α → Reading α
  | .ok number => .ok number
  | .error fault => .error (.noNumber fault)

end ApiSchema.Yaml
