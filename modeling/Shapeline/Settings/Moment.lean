/-!
# Dates and times

Days of the calendar, and times of day with or without a distance from universal time. Only days
that the calendar has and times that a clock shows can be formed.
-/

namespace Shapeline

/-- A number in decimal digits, filled up with zeros on the left to a width. -/
def zeroPadded (width n : Nat) : String :=
  let digits := (toString n).toList
  String.ofList (List.replicate (width - digits.length) '0' ++ digits)

namespace Date

/-- Whether a year has a leap day. -/
def isLeapYear (year : Nat) : Bool :=
  decide (year % 4 = 0 ∧ (year % 100 ≠ 0 ∨ year % 400 = 0))

/-- The number of days of a month, and zero for what is no month. -/
def daysIn (year month : Nat) : Nat :=
  if month = 2 then (if isLeapYear year then 29 else 28)
  else if [4, 6, 9, 11].contains month then 30
  else if 1 ≤ month ∧ month ≤ 12 then 31
  else 0

/-- Whether the calendar has a day. -/
def Exists (year month day : Nat) : Prop := 1 ≤ year ∧ 1 ≤ day ∧ day ≤ daysIn year month

instance (year month day : Nat) : Decidable (Exists year month day) := by
  unfold Exists
  infer_instance

end Date

/-- A day of the calendar. -/
structure Date where
  /-- The year. -/
  year : Nat
  /-- The month, from one on. -/
  month : Nat
  /-- The day of the month, from one on. -/
  day : Nat
  /-- The calendar has this day. -/
  isDay : Date.Exists year month day
  deriving DecidableEq

namespace Date

/-- The day with the given year, month and day of the month, if the calendar has it. -/
def of? (year month day : Nat) : Option Date :=
  if isDay : Exists year month day then some ⟨year, month, day, isDay⟩ else none

/-- The number of days from the first day of the first year on. -/
def number (date : Date) : Nat :=
  let years := date.year - 1
  let leapDays := years / 4 - years / 100 + years / 400
  let earlierMonths := (List.range (date.month - 1)).foldl
    (fun days i => days + daysIn date.year (i + 1)) 0
  365 * years + leapDays + earlierMonths + date.day

/-- A day as it is shown. -/
def text (date : Date) : String :=
  zeroPadded 4 date.year ++ "-" ++ zeroPadded 2 date.month ++ "-" ++ zeroPadded 2 date.day

/-- A day as it is written in messages. -/
def literal (date : Date) : String := s!"datetime.date({date.year}, {date.month}, {date.day})"

end Date

/-- A time on a day. -/
structure Moment where
  /-- The day. -/
  date : Date
  /-- The hour, below 24. -/
  hour : Nat
  /-- The minute, below 60. -/
  minute : Nat
  /-- The second, below 60. -/
  second : Nat
  /-- The millionths of a second, below a million. -/
  micro : Nat
  /-- The minutes by which the clock is ahead of universal time, if that is known. -/
  ahead : Option Int
  /-- A clock shows this time, and it is less than a day ahead or behind. -/
  isTime : hour < 24 ∧ minute < 60 ∧ second < 60 ∧ micro < 1000000 ∧
    ∀ minutes ∈ ahead, minutes.natAbs < 1440
  deriving DecidableEq

namespace Moment

/-- The time with the given parts, if a clock shows it. -/
def of? (date : Date) (hour minute second micro : Nat) (ahead : Option Int) : Option Moment :=
  if isTime : hour < 24 ∧ minute < 60 ∧ second < 60 ∧ micro < 1000000 ∧
      ∀ minutes ∈ ahead, minutes.natAbs < 1440 then
    some ⟨date, hour, minute, second, micro, ahead, isTime⟩
  else none

/-- The millionths of a second since the first day of the first year began, by the time's own clock
or, if its distance is known, by universal time. -/
def instant (m : Moment) : Int :=
  let minutes : Int := ((m.date.number * 24 + m.hour) * 60 + m.minute : Nat)
  ((minutes - m.ahead.getD 0) * 60 + (m.second : Int)) * 1000000 + (m.micro : Int)

/-- Whether two times are the same. A time by a clock of its own is never one by universal time. -/
def same (a b : Moment) : Bool := a.ahead.isSome == b.ahead.isSome && a.instant == b.instant

/-- A time as it is shown. Millionths that are zero are left out. -/
def text (m : Moment) : String :=
  let clock := ":".intercalate ([m.hour, m.minute, m.second].map (zeroPadded 2))
  let micro := if m.micro = 0 then "" else "." ++ zeroPadded 6 m.micro
  let zone := (m.ahead.map fun minutes =>
    (if minutes < 0 then "-" else "+") ++ zeroPadded 2 (minutes.natAbs / 60) ++ ":" ++
      zeroPadded 2 (minutes.natAbs % 60)).getD ""
  m.date.text ++ " " ++ clock ++ micro ++ zone

/-- A distance from universal time as it is written in messages. -/
def zoneLiteral (minutes : Int) : String :=
  let days := if minutes < 0 then "days=-1, " else ""
  let seconds := (if minutes < 0 then minutes + 1440 else minutes) * 60
  if minutes = 0 then "datetime.timezone.utc"
  else s!"datetime.timezone(datetime.timedelta({days}seconds={seconds}))"

/-- A time as it is written in messages. Millionths and then seconds that are zero are left out. -/
def literal (m : Moment) : String :=
  let fine :=
    if m.micro ≠ 0 then [m.second, m.micro] else if m.second ≠ 0 then [m.second] else []
  let numbers := ([m.date.year, m.date.month, m.date.day, m.hour, m.minute] ++ fine).map toString
  let zone := (m.ahead.map fun minutes => ["tzinfo=" ++ zoneLiteral minutes]).getD []
  "datetime.datetime(" ++ ", ".intercalate (numbers ++ zone) ++ ")"

end Moment

end Shapeline
