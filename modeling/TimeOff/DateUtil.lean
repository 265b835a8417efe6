import TimeOff.NumberText

/-! The date helpers of the service, on the JavaScript dates they use: a time value is a
number of milliseconds since 1970-01-01 UTC, `none` for an invalid date. -/
namespace TimeOff

def msPerDay : ℤ := 86400000

/-- Days from 1970-01-01 to day `d` of month `m` (from 1) of year `y`, proleptic Gregorian. -/
def daysFromCivil (y m d : ℤ) : ℤ :=
  let y' := if m ≤ 2 then y - 1 else y
  let era := y' / 400
  let yoe := y' - era * 400
  let doy := (153 * (if m > 2 then m - 3 else m + 9) + 2) / 5 + d - 1
  let doe := yoe * 365 + yoe / 4 - yoe / 100 + doy
  era * 146097 + doe - 719468

/-- `MakeDay` and `TimeClip`: months count from 0, months and days may overflow. -/
def makeTime (y m d : ℤ) : Option ℤ :=
  let t := (daysFromCivil (y + m / 12) (m % 12 + 1) 1 + d - 1) * msPerDay
  if |t| ≤ 8640000000000000 then some t else none

/-- `ToIntegerOrInfinity`: the fraction is dropped. -/
def toInteger (x : ℚ) : ℤ := if 0 ≤ x then ⌊x⌋ else ⌈x⌉

/-- `Date.UTC(year, month, day)`: the years 0 to 99 are 1900 to 1999. -/
def dateUTC : Num → Num → Num → Option ℤ
  | some y, some m, some d =>
    let year := toInteger y
    makeTime (if 0 ≤ year ∧ year ≤ 99 then 1900 + year else year) (toInteger m) (toInteger d)
  | _, _, _ => none

def digit (c : Char) : Option ℤ :=
  if '0' ≤ c ∧ c ≤ '9' then some (c.toNat - 48) else none

def digits : ℤ → List Char → Option ℤ
  | n, [] => some n
  | n, c :: cs => (digit c).bind fun d => digits (10 * n + d) cs

/-- `const [year, month, day] = dateStr.split('-').map(Number)`. -/
def splitDate (dateStr : String) : Num × Num × Num :=
  let parts := (dateStr.toList.splitOn '-').map number
  ((parts[0]?).join, (parts[1]?).join, (parts[2]?).join)

/-- `Date.UTC(year, month - 1, day)` of the parts of a date string. -/
def splitDateUTC (dateStr : String) : Option ℤ :=
  let p := splitDate dateStr
  dateUTC p.1 (p.2.1.map fun month => Double.round (month - 1)) p.2.2

def calculateDaysRequested (startDate endDate : String) : Num :=
  match splitDateUTC startDate, splitDateUTC endDate with
  | some s, some e => some (max ((2 * (e - s) + msPerDay) / (2 * msPerDay) + 1) 1 : ℤ)
  | _, _ => none

theorem one_le_calculateDaysRequested {startDate endDate : String} {days : ℚ}
    (h : calculateDaysRequested startDate endDate = some days) : 1 ≤ days := by
  unfold calculateDaysRequested at h
  split at h
  · cases h
    exact_mod_cast le_max_right _ _
  · cases h

def isNotInPast (dateStr : String) (now : ℕ) : Bool :=
  match splitDateUTC dateStr with
  | some target => (now : ℤ) / msPerDay * msPerDay ≤ target
  | none => false

def leTime : Option ℤ → Option ℤ → Bool
  | some s, some t => s ≤ t
  | _, _ => false

def datesOverlap (start1 end1 start2 end2 : String) : Bool :=
  leTime (splitDateUTC start1) (splitDateUTC end2) &&
    leTime (splitDateUTC start2) (splitDateUTC end1)

/-- A `YYYY-MM-DD` string as ECMAScript reads it: month 01 to 12, day 01 to 31. -/
def plainDate (dateStr : String) : Option (ℤ × ℤ × ℤ) :=
  match dateStr.toList with
  | [y1, y2, y3, y4, '-', m1, m2, '-', d1, d2] =>
    match digits 0 [y1, y2, y3, y4], digits 0 [m1, m2], digits 0 [d1, d2] with
    | some y, some m, some d =>
      if 1 ≤ m ∧ m ≤ 12 ∧ 1 ≤ d ∧ d ≤ 31 then some (y, m, d) else none
    | _, _, _ => none
  | _ => none

/-- `new Date(dateStr + 'T00:00:00Z')`. -/
def parseMidnight (cfg : Config) (dateStr : String) : Option ℤ :=
  match plainDate dateStr with
  | some (y, m, d) => makeTime y (m - 1) d
  | none => cfg.parseOtherDate dateStr

def ltTime : Option ℤ → Option ℤ → Bool
  | some s, some t => s < t
  | _, _ => false

end TimeOff
