import MiniJava.Text.Bytes

/-!
# Dates and times

A date, a time, or both with the distance from Universal Time, as a TOML file writes them.  The
grammar fixes the number of digits only, so the numbers may be those of no day and no hour;
`Datetime.fault?` says which is the first that cannot be.
-/

namespace MiniJava.Toml

/-- A day of the calendar. -/
structure Date where
  year : Nat
  month : Nat
  day : Nat
  deriving DecidableEq, Repr

/-- A time of the day. -/
structure Time where
  hour : Nat
  minute : Nat
  second : Nat
  deriving DecidableEq, Repr

/-- The distance of a clock from Universal Time. -/
structure ClockOffset where
  hour : Nat
  minute : Nat
  deriving DecidableEq, Repr

/-- A date, a time or both, with the text that says so. -/
structure Datetime where
  written : Bytes
  date : Option Date
  time : Option Time
  offset : Option ClockOffset
  deriving DecidableEq, Repr

/-- The parts of a date or time that can be out of range. -/
inductive DatetimeFault where
  | month
  | hour
  | minute
  | second
  | offsetHour
  | offsetMinute
  | day
  deriving DecidableEq, Repr

/-- The name of a part. -/
def DatetimeFault.name : DatetimeFault → Bytes
  | month => "month"
  | hour => "hour"
  | minute => "minute"
  | second => "second"
  | offsetHour => "time zone offset hour"
  | offsetMinute => "time zone offset minute"
  | day => "day"

/-- Is the year a leap year? -/
def isLeapYear (year : Nat) : Bool := year % 4 == 0 && (year % 100 != 0 || year % 400 == 0)

/-- How many days a month has. -/
def daysIn (year month : Nat) : Nat :=
  if month = 2 then if isLeapYear year then 29 else 28
  else if month ∈ [4, 6, 9, 11] then 30
  else 31

namespace Datetime

/-- The first fault of a time of the day. -/
def timeFault? (t : Time) : Option DatetimeFault :=
  if 24 ≤ t.hour then some .hour
  else if 60 ≤ t.minute then some .minute
  else if 60 ≤ t.second then some .second
  else none

/-- The fault of an offset: a whole day and a whole hour are still allowed, and of two faults the
minutes are blamed. -/
def offsetFault? (o : ClockOffset) : Option DatetimeFault :=
  if 60 < o.minute then some .offsetMinute
  else if 24 < o.hour then some .offsetHour
  else none

/-- The first fault of a date or time.  The day is looked at last, as its range depends on the
month. -/
def fault? (d : Datetime) : Option DatetimeFault :=
  let month := d.date.bind fun x => if 1 ≤ x.month ∧ x.month ≤ 12 then none else some .month
  let day := d.date.bind fun x =>
    if 1 ≤ x.day ∧ x.day ≤ daysIn x.year x.month then none else some .day
  month <|> d.time.bind timeFault? <|> d.offset.bind offsetFault? <|> day

end Datetime

end MiniJava.Toml
