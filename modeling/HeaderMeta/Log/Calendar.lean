/-! Dates in the proleptic Gregorian calendar, and the names of log files. -/

set_option autoImplicit false

namespace HeaderMeta

structure CivilDate where
  year : Int
  month : Nat
  day : Nat
  deriving DecidableEq, Repr

namespace CivilDate

/-- The date a number of days after 1970-01-01. Years are counted from March, so that a leap day is
the last day of its year. -/
def ofDays (days : Int) : CivilDate :=
  let shifted := days + 719468
  let era := shifted / 146097
  let dayOfEra := (shifted % 146097).toNat
  let yearOfEra := (dayOfEra - dayOfEra / 1460 + dayOfEra / 36524 - dayOfEra / 146096) / 365
  let dayOfYear := dayOfEra - (365 * yearOfEra + yearOfEra / 4 - yearOfEra / 100)
  let shiftedMonth := (5 * dayOfYear + 2) / 153
  let month := if shiftedMonth < 10 then shiftedMonth + 3 else shiftedMonth - 9
  { year := yearOfEra + era * 400 + (if month ≤ 2 then 1 else 0)
    month
    day := dayOfYear - (153 * shiftedMonth + 2) / 5 + 1 }

end CivilDate

def padded (width n : Nat) : String :=
  let digits := toString n
  String.ofList (List.replicate (width - digits.length) '0') ++ digits

/-- A moment in universal time, to the nanosecond. Nanoseconds beyond a full second mark a leap
second. -/
structure Moment where
  seconds : Int
  nanos : Nat
  deriving DecidableEq, Repr

namespace Moment

/-- The moment of a Unix time, when its date is in range and nanoseconds beyond a full second come
in the last second of a minute. -/
def ofUnix? (seconds nanos : Int) : Option Moment :=
  let year := (CivilDate.ofDays (seconds / 86400)).year
  if nanos < 0 || nanos ≥ 2000000000 || (nanos ≥ 1000000000 && seconds % 60 != 59) ||
      year < -262143 || year > 262142 then
    none
  else some ⟨seconds, nanos.toNat⟩

/-- Four digits, with a sign outside the years 0 to 9999. -/
def yearText (year : Int) : String :=
  if year < 0 then "-" ++ padded 4 year.natAbs
  else if year > 9999 then "+" ++ padded 4 year.natAbs
  else padded 4 year.natAbs

def logName (m : Moment) : String :=
  let date := CivilDate.ofDays (m.seconds / 86400)
  let second := (m.seconds % 86400).toNat
  let leap := m.nanos / 1000000000
  "tributary_" ++ padded 2 date.day ++ "-" ++ padded 2 date.month ++ "-" ++ yearText date.year ++
    "_" ++ padded 2 (second / 3600) ++ "-" ++ padded 2 (second / 60 % 60) ++ "-" ++
    padded 2 (second % 60 + leap) ++ "." ++ padded 2 (m.nanos / 10000000) ++ ".log"

end Moment

end HeaderMeta
