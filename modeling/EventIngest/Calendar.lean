import EventIngest.Duration
/-!
# The calendar

Dates of the proleptic Gregorian calendar and times of day in UTC, counted in milliseconds from the
start of 1970. Days are converted over eras of 400 years that begin on the first of March, so that a
leap day is the last day of its year.
-/
namespace EventIngest

structure Date where
  year : Int
  month : Nat
  day : Nat
  deriving DecidableEq, Repr

structure TimeOfDay where
  hour : Nat
  minute : Nat
  second : Nat
  milli : Nat
  deriving DecidableEq, Repr

structure DateTime where
  date : Date
  time : TimeOfDay
  deriving DecidableEq, Repr

namespace Calendar

def millisPerDay : Int := 86400000

/-- Start of the first representable year, `-262143`. -/
def earliest : Int := -8334601228800000

/-- Last millisecond of the last representable year, `262142`. -/
def latest : Int := 8210266876799999

def covers (t : Int) : Bool := decide (earliest ≤ t ∧ t ≤ latest)

def isLeapYear (y : Int) : Bool := decide (y % 4 = 0 ∧ (y % 100 ≠ 0 ∨ y % 400 = 0))

def daysInMonth (y : Int) (m : Nat) : Nat :=
  if m = 2 then (if isLeapYear y then 29 else 28)
  else if m = 4 ∨ m = 6 ∨ m = 9 ∨ m = 11 then 30
  else 31

def IsValid (d : Date) : Prop :=
  1 ≤ d.month ∧ d.month ≤ 12 ∧ 1 ≤ d.day ∧ d.day ≤ daysInMonth d.year d.month

def daysBeforeMonth (y : Int) (m : Nat) : Nat :=
  ((List.range m).filter (1 ≤ ·)).foldl (fun n k => n + daysInMonth y k) 0

/-- Days from the first of January of year 0 to that of year `y`. -/
def daysBeforeYear (y : Int) : Int :=
  365 * y + (y + 3).fdiv 4 - (y + 99).fdiv 100 + (y + 399).fdiv 400

/-- Days from the start of 1970 to a date. -/
def dayNumber (d : Date) : Int :=
  daysBeforeYear d.year - daysBeforeYear 1970 + daysBeforeMonth d.year d.month + (d.day - 1)

def dateOfDay (n : Int) : Date :=
  let shifted := n + 719468
  let era := shifted.fdiv 146097
  let dayOfEra := (shifted - era * 146097).toNat
  let yearOfEra := (dayOfEra - dayOfEra / 1460 + dayOfEra / 36524 - dayOfEra / 146096) / 365
  let dayOfYear := dayOfEra - (365 * yearOfEra + yearOfEra / 4 - yearOfEra / 100)
  let monthFromMarch := (5 * dayOfYear + 2) / 153
  let month := if monthFromMarch < 10 then monthFromMarch + 3 else monthFromMarch - 9
  { year := yearOfEra + era * 400 + (if month ≤ 2 then 1 else 0)
    month := month
    day := dayOfYear - (153 * monthFromMarch + 2) / 5 + 1 }

def timeOfMillis (n : Nat) : TimeOfDay :=
  ⟨n / 3600000, n / 60000 % 60, n / 1000 % 60, n % 1000⟩

def millisOfTime (t : TimeOfDay) : Nat :=
  ((t.hour * 60 + t.minute) * 60 + t.second) * 1000 + t.milli

def ofMillis (t : Int) : DateTime :=
  let day := t.fdiv millisPerDay
  ⟨dateOfDay day, timeOfMillis (t - day * millisPerDay).toNat⟩

def toMillis (d : DateTime) : Int := dayNumber d.date * millisPerDay + millisOfTime d.time

def number (width n : Nat) : String := String.ofList (Decimal.padded width n)

/-- Four digits; a year outside them has a sign and as many digits as it needs. -/
def yearText (y : Int) : String :=
  if y < 0 then "-" ++ number 4 y.natAbs
  else if 9999 < y then "+" ++ number 4 y.natAbs
  else number 4 y.natAbs

def secondsText (d : DateTime) : String :=
  yearText d.date.year ++ "-" ++ number 2 d.date.month ++ "-" ++ number 2 d.date.day ++ "T"
    ++ number 2 d.time.hour ++ ":" ++ number 2 d.time.minute ++ ":" ++ number 2 d.time.second

def text (d : DateTime) : String := secondsText d ++ "." ++ number 3 d.time.milli ++ "Z"

end Calendar

end EventIngest
