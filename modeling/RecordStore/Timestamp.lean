import RecordStore.Number.Digits

/-!
# Points in time

A `Timestamp` counts seconds from the start of 1970 and nanoseconds within the second. A leap
second is written as the second before it with a thousand million nanoseconds or more. The text is
that of RFC 3339, with as many of 0, 3, 6 or 9 fraction digits as the nanoseconds need.
-/

namespace RecordStore

/-- The first second of the year -262143. -/
def Timestamp.firstSecond : Int := -8334601228800

/-- The last second of the year 262142. -/
def Timestamp.lastSecond : Int := 8210266876799

/-- Whether the seconds lie in the years that have dates, and the nanoseconds in the second; only
the last second of a minute may run over. -/
def Timestamp.IsValid (seconds : Int) (nanos : Nat) : Prop :=
  Timestamp.firstSecond ≤ seconds ∧ seconds ≤ Timestamp.lastSecond ∧
    (nanos < 1000000000 ∨ nanos < 2000000000 ∧ seconds % 60 = 59)

instance (seconds : Int) (nanos : Nat) : Decidable (Timestamp.IsValid seconds nanos) := by
  unfold Timestamp.IsValid; infer_instance

/-- A point in time to the nanosecond. -/
structure Timestamp where
  seconds : Int
  nanos : Nat
  valid : Timestamp.IsValid seconds nanos
  deriving DecidableEq

namespace Timestamp

/-- The point in time, if there is one. -/
def of? (seconds : Int) (nanos : Nat) : Option Timestamp :=
  if h : IsValid seconds nanos then some ⟨seconds, nanos, h⟩ else none

/-- Earlier before later. -/
def cmp (a b : Timestamp) : Ordering :=
  (compare a.seconds b.seconds).then (compare a.nanos b.nanos)

/-- A day of the civil calendar. -/
structure Date where
  year : Int
  month : Nat
  day : Nat

/-- The civil date of a day counted from 1 January 1970. Years are counted from March, so that the
leap day comes last, in cycles of four hundred years. -/
def Date.ofDays (days : Int) : Date :=
  let shifted := days + 719468
  let cycle := shifted.fdiv 146097
  let dayOfCycle := (shifted - cycle * 146097).toNat
  let yearOfCycle :=
    (dayOfCycle - dayOfCycle / 1460 + dayOfCycle / 36524 - dayOfCycle / 146096) / 365
  let dayOfYear := dayOfCycle - (365 * yearOfCycle + yearOfCycle / 4 - yearOfCycle / 100)
  let monthFromMarch := (5 * dayOfYear + 2) / 153
  let day := dayOfYear - (153 * monthFromMarch + 2) / 5 + 1
  let month := if monthFromMarch < 10 then monthFromMarch + 3 else monthFromMarch - 9
  let year := (yearOfCycle : Int) + cycle * 400 + (if month ≤ 2 then 1 else 0)
  ⟨year, month, day⟩

/-- A year in four digits, with a sign and at least four digits outside 0 to 9999. -/
def yearText (year : Int) : List Char :=
  if 0 ≤ year ∧ year ≤ 9999 then Digits.padded 4 year.toNat
  else (if year < 0 then '-' else '+') :: Digits.padded 4 year.natAbs

/-- The fraction of a second in the fewest of 0, 3, 6 or 9 digits that lose nothing. -/
def fractionText (nanos : Nat) : List Char :=
  if nanos = 0 then []
  else if nanos % 1000000 = 0 then '.' :: Digits.padded 3 (nanos / 1000000)
  else if nanos % 1000 = 0 then '.' :: Digits.padded 6 (nanos / 1000)
  else '.' :: Digits.padded 9 nanos

/-- Date and time of day; a leap second shows as second sixty. -/
def localText (t : Timestamp) : List Char :=
  let days := t.seconds.fdiv 86400
  let secondOfDay := (t.seconds - days * 86400).toNat
  let date := Date.ofDays days
  let leap := t.nanos / 1000000000
  yearText date.year ++ '-' :: Digits.padded 2 date.month ++ '-' :: Digits.padded 2 date.day ++
    'T' :: Digits.padded 2 (secondOfDay / 3600) ++
    ':' :: Digits.padded 2 (secondOfDay / 60 % 60) ++
    ':' :: Digits.padded 2 (secondOfDay % 60 + leap) ++
    fractionText (t.nanos % 1000000000)

/-- RFC 3339 text with the offset of UTC as numbers. -/
def text (t : Timestamp) : String := String.ofList (t.localText ++ ['+', '0', '0', ':', '0', '0'])

/-- RFC 3339 text with the offset of UTC as a letter. -/
def zuluText (t : Timestamp) : String := String.ofList (t.localText ++ ['Z'])

end Timestamp

end RecordStore
