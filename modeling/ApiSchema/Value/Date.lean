/-
# Days and times

Days of the calendar and times of day, with the offset from universal time if it is known. Two times
with an offset are the same if they are the same instant.
-/

namespace ApiSchema

/-- A day of the calendar. -/
structure Date where
  year : Nat
  month : Nat
  day : Nat
deriving DecidableEq, Inhabited

/-- A time of day on some date; the offset from universal time is in seconds, if it is known. -/
structure Timestamp where
  date : Date
  hour : Nat
  minute : Nat
  second : Nat
  microsecond : Nat
  offset : Option Int
deriving DecidableEq, Inhabited

/-! ## The calendar -/

namespace Date

def isLeapYear (year : Nat) : Bool := year % 4 = 0 && (year % 100 != 0 || year % 400 = 0)

def daysIn (year month : Nat) : Nat :=
  if month = 2 then (if isLeapYear year then 29 else 28)
  else if [4, 6, 9, 11].contains month then 30
  else 31

/-- The number of days of the years before one. -/
def daysBeforeYear (year : Nat) : Nat :=
  let past := year - 1
  365 * past + past / 4 - past / 100 + past / 400

/-- The number of days of a year before one of its months. -/
def daysBeforeMonth (year month : Nat) : Nat :=
  (List.range (month - 1)).foldl (fun days index => days + daysIn year (index + 1)) 0

/-- The number of a day, counted from the first day of the first year. -/
def ordinal (d : Date) : Nat := daysBeforeYear d.year + daysBeforeMonth d.year d.month + d.day

end Date

/-! ## Instants -/

namespace Timestamp

/-- The microseconds from the start of the calendar to a time, as its clock shows it. -/
def clock (t : Timestamp) : Nat :=
  (((t.date.ordinal * 24 + t.hour) * 60 + t.minute) * 60 + t.second) * 1000000 + t.microsecond

/-- Whether two times are the same: the same instant if both have an offset, the same clock if
neither has one. -/
def same (t u : Timestamp) : Bool :=
  match t.offset, u.offset with
  | none, none => t.clock == u.clock
  | some a, some b => (t.clock : Int) - a * 1000000 == (u.clock : Int) - b * 1000000
  | _, _ => false

end Timestamp

end ApiSchema
