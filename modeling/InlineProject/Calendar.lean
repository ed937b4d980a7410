import InlineProject.Text.Digit
/-!
Dates and times of day: whether they exist, which instant they are, and how they are written.
-/

namespace InlineProject

inductive DateError where
  | year
  | month
  | day
  | hour
  | minute
  | second
  -- The offset from universal time in seconds.
  | offset (seconds : Int)
deriving DecidableEq

structure Date where
  year : Nat
  month : Nat
  day : Nat
deriving DecidableEq, Inhabited

/-- A moment; without an offset from universal time it is not known which. -/
structure DateTime where
  date : Date
  hour : Nat
  minute : Nat
  second : Nat
  microsecond : Nat
  offset : Option Int
deriving DecidableEq, Inhabited

namespace Date

def isLeap (year : Nat) : Bool := year % 4 == 0 && (year % 100 != 0 || year % 400 == 0)

def daysIn (year month : Nat) : Nat :=
  if month = 2 then if isLeap year then 29 else 28
  else if [4, 6, 9, 11].contains month then 30 else 31

/-- The faults of a date are looked for from the year down to the day. -/
def check (d : Date) : Except DateError Date :=
  if d.year = 0 then .error .year
  else if d.month = 0 || 12 < d.month then .error .month
  else if d.day = 0 || daysIn d.year d.month < d.day then .error .day
  else .ok d

def leapDaysBefore (year : Nat) : Nat :=
  let y := year - 1
  y / 4 - y / 100 + y / 400

/-- Days since the first day of the first year. -/
def dayNumber (d : Date) : Nat :=
  (d.year - 1) * 365 + leapDaysBefore d.year
    + (List.range (d.month - 1)).foldl (fun days m => days + daysIn d.year (m + 1)) 0 + d.day

-- The day of a year, counted from zero, as a month and a day.
def ofDayOfYear (year : Nat) : Nat → Nat → Nat → Date
  | 0, month, day => ⟨year, month, day + 1⟩
  | fuel + 1, month, day =>
      let days := daysIn year month
      if day < days then ⟨year, month, day + 1⟩ else ofDayOfYear year fuel (month + 1) (day - days)

/-- The date of a day number. Leap years come round every four, hundred and four hundred years. -/
def ofDayNumber (number : Nat) : Date :=
  let n := number - 1
  let centuries := min (n % 146097 / 36524) 3
  let inCentury := n % 146097 - centuries * 36524
  let inFour := inCentury % 1461
  let years := min (inFour / 365) 3
  let year := n / 146097 * 400 + centuries * 100 + inCentury / 1461 * 4 + years + 1
  ofDayOfYear year 11 1 (inFour - years * 365)

def twoDigits (n : Nat) : String := String.ofList (Digit.padded 2 (Nat.toDigits 10 n))
def fourDigits (n : Nat) : String := String.ofList (Digit.padded 4 (Nat.toDigits 10 n))
def sixDigits (n : Nat) : String := String.ofList (Digit.padded 6 (Nat.toDigits 10 n))

def text (d : Date) : String :=
  fourDigits d.year ++ "-" ++ twoDigits d.month ++ "-" ++ twoDigits d.day

/-- The date as an expression that builds it. -/
def display (d : Date) : String :=
  "datetime.date(" ++ toString d.year ++ ", " ++ toString d.month ++ ", " ++ toString d.day ++ ")"

end Date

namespace DateTime

open Date (twoDigits sixDigits)

def secondsPerDay : Nat := 86400

def check (t : DateTime) : Except DateError DateTime := do
  if let some seconds := t.offset then
    if secondsPerDay ≤ seconds.natAbs then throw (.offset seconds)
  let _ ← t.date.check
  if 23 < t.hour then throw .hour
  if 59 < t.minute then throw .minute
  if 59 < t.second then throw .second
  return t

/-- The day number of the first day of 1970, from which systems count seconds. -/
def systemEpoch : Nat := 719163

/-- The moment, in universal time, some seconds after the start of 1970. -/
def ofSystemTime (seconds microsecond : Nat) : DateTime :=
  let time := seconds % secondsPerDay
  { date := Date.ofDayNumber (systemEpoch + seconds / secondsPerDay)
    hour := time / 3600
    minute := time % 3600 / 60
    second := time % 60
    microsecond := microsecond
    offset := none }

/-- Microseconds since the first day, counted in universal time where the offset is known. -/
def instant (t : DateTime) : Int :=
  let seconds : Int := t.date.dayNumber * secondsPerDay + t.hour * 3600 + t.minute * 60 + t.second
  (seconds - t.offset.getD 0) * 1000000 + t.microsecond

/-- Moments are the same if both offsets are known or both are not, and the instants agree. -/
def sameMoment (a b : DateTime) : Bool :=
  a.offset.isSome == b.offset.isSome && a.instant == b.instant

def clock (t : DateTime) : String :=
  twoDigits t.hour ++ ":" ++ twoDigits t.minute ++ ":" ++ twoDigits t.second
    ++ if t.microsecond = 0 then "" else "." ++ sixDigits t.microsecond

-- Offsets are given to the minute.
def offsetText (seconds : Int) : String :=
  let minutes := seconds.natAbs / 60
  (if seconds < 0 then "-" else "+") ++ twoDigits (minutes / 60) ++ ":" ++ twoDigits (minutes % 60)

/-- The text of a moment, with a separator between date and time. -/
def textWith (separator : String) (t : DateTime) : String :=
  t.date.text ++ separator ++ t.clock ++ ((t.offset.map offsetText).getD "")

def text (t : DateTime) : String := t.textWith " "

/-- The length of time as an expression that builds it; days may be negative, seconds may not. -/
def durationDisplay (seconds : Int) : String :=
  let days := Int.fdiv seconds secondsPerDay
  let rest := Int.fmod seconds secondsPerDay
  let parts := (if days = 0 then [] else ["days=" ++ toString days])
    ++ (if rest = 0 then [] else ["seconds=" ++ toString rest])
  "datetime.timedelta(" ++ (if parts.isEmpty then "0" else ", ".intercalate parts) ++ ")"

def zoneDisplay (seconds : Int) : String :=
  if seconds = 0 then "datetime.timezone.utc"
  else "datetime.timezone(" ++ durationDisplay seconds ++ ")"

/-- The moment as an expression that builds it; zero seconds and microseconds are left out. -/
def display (t : DateTime) : String :=
  let parts := [t.date.year, t.date.month, t.date.day, t.hour, t.minute]
    ++ (if t.microsecond = 0 then if t.second = 0 then [] else [t.second]
        else [t.second, t.microsecond])
  let zone := (t.offset.map fun seconds => ", tzinfo=" ++ zoneDisplay seconds).getD ""
  "datetime.datetime(" ++ ", ".intercalate (parts.map toString) ++ zone ++ ")"

end DateTime

def DateError.message : DateError → String
  | .year => "year 0 is out of range"
  | .month => "month must be in 1..12"
  | .day => "day is out of range for month"
  | .hour => "hour must be in 0..23"
  | .minute => "minute must be in 0..59"
  | .second => "second must be in 0..59"
  | .offset seconds =>
      "offset must be a timedelta strictly between -timedelta(hours=24) and timedelta(hours=24), not "
        ++ DateTime.durationDisplay seconds ++ "."

end InlineProject
