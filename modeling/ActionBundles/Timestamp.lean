import ActionBundles.Text.Basic

/-!
# Times

A time is a number of seconds since the beginning of the year 1970. `Timestamp.render` writes it
with its date in the Gregorian calendar, in universal time.
-/

namespace ActionBundles.Timestamp

/-- A number in two digits at least. -/
def twoDigits (n : Nat) : Text := if n < 10 then '0' :: Text.ofNat n else Text.ofNat n

/-- The number of days from the beginning of March of the year zero to that of the year 1970. -/
def daysBefore1970 : Nat := 719468

/-- The year, month and day after a number of days since 1970. Years are taken from March on, so
that a leap day is the last day of its year; the calendar repeats after 400 of them. -/
def date (days : Nat) : Nat × Nat × Nat :=
  let days := days + daysBefore1970
  let era := days / 146097
  let dayOfEra := days % 146097
  let yearOfEra := (dayOfEra - dayOfEra / 1460 + dayOfEra / 36524 - dayOfEra / 146096) / 365
  let dayOfYear := dayOfEra - (365 * yearOfEra + yearOfEra / 4 - yearOfEra / 100)
  let month := (5 * dayOfYear + 2) / 153
  let day := dayOfYear - (153 * month + 2) / 5 + 1
  let year := 400 * era + yearOfEra
  if month < 10 then (year, month + 3, day) else (year + 1, month - 9, day)

/-- The date and the time of day, to the second. -/
def render (seconds : Nat) : Text :=
  let (year, month, day) := date (seconds / 86400)
  let time := seconds % 86400
  Text.join ['-'] [Text.ofNat year, twoDigits month, twoDigits day] ++ 'T' ::
    Text.join [':'] [twoDigits (time / 3600), twoDigits (time / 60 % 60), twoDigits (time % 60)] ++
    ['Z']

end ActionBundles.Timestamp
