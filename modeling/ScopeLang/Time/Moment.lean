import ScopeLang.Time.Format

/-!
# Moments

A moment is a point in time together with an offset from universal time. The calendar fields of a
time format are computed from the days since the first of January 1970.

## Main definitions

* `Date.ofDays` — the proleptic Gregorian date of a day.
* `Moment.clock` — what a moment shows for each directive.
-/

namespace ScopeLang

/-- A calendar date. Months and days count from 1. -/
structure Date where
  year : Int
  month : Nat
  day : Nat
deriving DecidableEq

namespace Date

/-- The date of a day, counted from the first of January 1970. Years are taken to begin in March, so
that the leap day comes last; 400 of them have 146097 days. -/
def ofDays (days : Int) : Date :=
  let shifted := days + 719468
  let era := shifted.fdiv 146097
  let dayOfEra := (shifted.fmod 146097).toNat
  let yearOfEra := (dayOfEra - dayOfEra / 1460 + dayOfEra / 36524 - dayOfEra / 146096) / 365
  let dayOfYear := dayOfEra - (365 * yearOfEra + yearOfEra / 4 - yearOfEra / 100)
  let march := (5 * dayOfYear + 2) / 153
  let month := if march < 10 then march + 3 else march - 9
  { year := era * 400 + yearOfEra + (if month ≤ 2 then 1 else 0)
    month
    day := dayOfYear - (153 * march + 2) / 5 + 1 }

def isLeap (year : Int) : Bool := year % 4 = 0 && (year % 100 ≠ 0 || year % 400 = 0)

/-- The number of days of a year before each month. -/
def daysBefore (year : Int) (month : Nat) : Nat :=
  let lengths := [31, if isLeap year then 29 else 28, 31, 30, 31, 30, 31, 31, 30, 31, 30, 31]
  (lengths.take (month - 1)).foldl (· + ·) 0

/-- The day in the year, from 1. -/
def ordinal (d : Date) : Nat := daysBefore d.year d.month + d.day

/-- The number of weeks of a year by the rule that a week belongs to the year of its Thursday. -/
def weeksIn (year : Int) : Nat :=
  let dominical (y : Int) : Int := (y + y.fdiv 4 - y.fdiv 100 + y.fdiv 400) % 7
  if dominical year = 4 || dominical (year - 1) = 3 then 53 else 52

end Date

/-- A point in time, in seconds since 1970 and nanoseconds, and an offset in seconds east of
universal time. -/
structure Moment where
  seconds : Int
  nanosecond : Nat
  offset : Int

namespace Moment

def localSeconds (m : Moment) : Int := m.seconds + m.offset

def days (m : Moment) : Int := m.localSeconds.fdiv 86400

def date (m : Moment) : Date := .ofDays m.days

def secondOfDay (m : Moment) : Nat := (m.localSeconds.fmod 86400).toNat

def hour (m : Moment) : Nat := m.secondOfDay / 3600

def minute (m : Moment) : Nat := m.secondOfDay / 60 % 60

def second (m : Moment) : Nat := m.secondOfDay % 60

/-- The hour as clocks with twelve hours show it. -/
def hour12 (m : Moment) : Nat := if m.hour % 12 = 0 then 12 else m.hour % 12

/-- The days since the last Sunday. -/
def weekday (m : Moment) : Nat := ((m.days + 4).fmod 7).toNat

/-- The days since the last Monday. -/
def fromMonday (m : Moment) : Nat := (m.weekday + 6) % 7

/-- The year and the number of the week, where a week belongs to the year of its Thursday. -/
def isoWeek (m : Moment) : Int × Nat :=
  let week := (m.date.ordinal + 10 - (m.fromMonday + 1)) / 7
  if week = 0 then (m.date.year - 1, Date.weeksIn (m.date.year - 1))
  else if week = 53 && Date.weeksIn m.date.year = 52 then (m.date.year + 1, 1)
  else (m.date.year, week)

def monthNames : List String :=
  ["January", "February", "March", "April", "May", "June", "July", "August", "September",
    "October", "November", "December"]

def dayNames : List String :=
  ["Sunday", "Monday", "Tuesday", "Wednesday", "Thursday", "Friday", "Saturday"]

def monthName (m : Moment) : String := monthNames.getD (m.date.month - 1) ""

def dayName (m : Moment) : String := dayNames.getD m.weekday ""

def abbreviate (name : String) : String := (name.take 3).toString

/-- A number, filled up on the left to a width. -/
def padded (fill : Char) (width : Nat) (n : Int) : String :=
  let digits := toString n.natAbs
  let filling := String.ofList (List.replicate (width - digits.length) fill)
  if 0 ≤ n then filling ++ digits
  else if fill = '0' then "-" ++ filling ++ digits
  else filling ++ "-" ++ digits

/-- A numeric field: its usual filling, its width and its value. -/
def numeric? (m : Moment) (d : String) : Option (Char × Nat × Int) :=
  match d with
  | "C" => some ('0', 2, m.date.year.fdiv 100)
  | "G" => some ('0', 4, m.isoWeek.1)
  | "H" => some ('0', 2, m.hour)
  | "I" => some ('0', 2, m.hour12)
  | "M" => some ('0', 2, m.minute)
  | "S" => some ('0', 2, m.second)
  | "U" => some ('0', 2, (m.date.ordinal + 6 - m.weekday) / 7)
  | "V" => some ('0', 2, m.isoWeek.2)
  | "W" => some ('0', 2, (m.date.ordinal + 6 - m.fromMonday) / 7)
  | "Y" => some ('0', 4, m.date.year)
  | "d" => some ('0', 2, m.date.day)
  | "e" => some (' ', 2, m.date.day)
  | "f" => some ('0', 9, m.nanosecond)
  | "g" => some ('0', 2, m.isoWeek.1.fmod 100)
  | "j" => some ('0', 3, m.date.ordinal)
  | "k" => some (' ', 2, m.hour)
  | "l" => some (' ', 2, m.hour12)
  | "m" => some ('0', 2, m.date.month)
  | "q" => some ('0', 1, (m.date.month - 1) / 3 + 1)
  | "s" => some ('0', 1, m.seconds)
  | "u" => some ('0', 1, m.fromMonday + 1)
  | "w" => some ('0', 1, m.weekday)
  | "y" => some ('0', 2, m.date.year.fmod 100)
  | _ => none

/-- A numeric field, with the filling that a mark before it asks for. -/
def numericText? (m : Moment) (d : String) : Option String :=
  let field (letter : String) (fill : Char → Char) (bare : Bool) : Option String :=
    (m.numeric? letter).map fun (usual, width, n) =>
      padded (fill usual) (if bare then 0 else width) n
  match d.toList with
  | ['-', c] => field c.toString id true
  | ['_', c] => field c.toString (fun _ => ' ') false
  | ['0', c] => field c.toString (fun _ => '0') false
  | _ => field d id false

/-- The offset, with a mark between its parts. -/
def offsetText (m : Moment) (mark : String) (parts : Nat) : String :=
  let size := m.offset.natAbs
  let shown := [size / 3600, size / 60 % 60, size % 60].take parts
  let sign := if m.offset < 0 then "-" else "+"
  sign ++ String.intercalate mark (shown.map fun (n : Nat) => padded '0' 2 n)

/-- The leading digits of the fraction of the second. -/
def fractionText (m : Moment) (places : Nat) : String :=
  ((padded '0' 9 m.nanosecond).take places).toString

/-- The fraction of the second with as many thousandths as it needs. -/
def shortFraction (m : Moment) : String :=
  if m.nanosecond = 0 then ""
  else if m.nanosecond % 1000000 = 0 then "." ++ m.fractionText 3
  else if m.nanosecond % 1000 = 0 then "." ++ m.fractionText 6
  else "." ++ m.fractionText 9

/-- A field that is no number and no combination of others. -/
def wordText? (m : Moment) (d : String) : Option String :=
  match d with
  | "A" => some m.dayName
  | "a" => some (abbreviate m.dayName)
  | "B" => some m.monthName
  | "b" | "h" => some (abbreviate m.monthName)
  | "P" => some (if m.hour < 12 then "am" else "pm")
  | "p" => some (if m.hour < 12 then "AM" else "PM")
  | "z" => some (m.offsetText "" 2)
  | "Z" | ":z" => some (m.offsetText ":" 2)
  | "::z" => some (m.offsetText ":" 3)
  | ":::z" => some (m.offsetText ":" 1)
  | ".f" => some m.shortFraction
  | ".3f" => some ("." ++ m.fractionText 3)
  | ".6f" => some ("." ++ m.fractionText 6)
  | ".9f" => some ("." ++ m.fractionText 9)
  | "3f" => some (m.fractionText 3)
  | "6f" => some (m.fractionText 6)
  | "9f" => some (m.fractionText 9)
  | _ => none

/-- The format that a directive abbreviates. -/
def expansion? : String → Option String
  | "D" | "x" => some "%m/%d/%y"
  | "F" => some "%Y-%m-%d"
  | "v" => some "%e-%b-%Y"
  | "R" => some "%H:%M"
  | "T" | "X" => some "%H:%M:%S"
  | "r" => some "%I:%M:%S %p"
  | "c" => some "%a %b %e %H:%M:%S %Y"
  | "+" => some "%Y-%m-%dT%H:%M:%S%.f%:z"
  | _ => none

/-- A field by itself. -/
def field (m : Moment) (d : String) : String := (m.numericText? d <|> m.wordText? d).getD ""

/-- What a moment shows for a directive. -/
def clock (m : Moment) : TimeFormat.Clock := fun d =>
  match expansion? d with
  | some format => (TimeFormat.render m.field format).getD ""
  | none => m.field d

end Moment

end ScopeLang
