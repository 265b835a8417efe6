import TimeOff.Calendar
import TimeOff.PlainDates

/-! JavaScript's `Date` in UTC, on the Gregorian calendar: the getters, `setUTCDate` and
`toISOString`. A plain date is the first ten characters of the text of its midnight. -/
namespace TimeOff

open Calendar

section Methods

/-- `MakeDay`: the day of a month from 0, either of which may overflow. -/
def makeDay (y m d : ℤ) : ℤ := daysFromCivil (y + m / 12) (m % 12 + 1) 1 + d - 1

def timeClip (t : ℤ) : Option ℤ := if |t| ≤ 8640000000000000 then some t else none

def getUTCDay (t : ℤ) : ℤ := (t / msPerDay + 4) % 7

def getUTCFullYear (t : ℤ) : ℤ := (Date.ofNumber (t / msPerDay)).year

/-- The month from 0. -/
def getUTCMonth (t : ℤ) : ℤ := (Date.ofNumber (t / msPerDay)).month - 1

def getUTCDate (t : ℤ) : ℤ := (Date.ofNumber (t / msPerDay)).day

/-- The time that `setUTCDate(date)` leaves: another day, at the same time of day. -/
def setUTCDate (t date : ℤ) : Option ℤ :=
  timeClip (makeDay (getUTCFullYear t) (getUTCMonth t) date * msPerDay + t % msPerDay)

theorem daysFromCivil_number (c : Date) :
    daysFromCivil c.year c.month c.day = c.number := by
  have hmonth := c.month_bounds
  unfold daysFromCivil Date.number yearStart monthStart
  dsimp only
  by_cases hm : c.month ≤ 2
  · rw [if_pos hm, if_pos hm, if_neg (by omega)]
    omega
  · rw [if_neg hm, if_neg hm, if_pos (by omega)]
    -- past February the leap day of this year has been counted
    by_cases hleap : IsLeap c.year
    · rw [if_pos hleap]
      unfold IsLeap at hleap
      omega
    · rw [if_neg hleap]
      unfold IsLeap at hleap
      omega

/-- A later or an earlier day of the month of `c`. -/
theorem makeDay_month (c : Date) (d : ℤ) :
    makeDay c.year (c.month - 1) d = c.number + d - c.day := by
  have hm := c.month_bounds
  have hyear : c.year + (c.month - 1) / 12 = c.year := by omega
  have hmonth : (c.month - 1) % 12 + 1 = c.month := by omega
  have hfirst : daysFromCivil c.year c.month 1 = c.number - c.day + 1 := by
    rw [← daysFromCivil_number c]
    unfold daysFromCivil
    dsimp only
    omega
  unfold makeDay
  rw [hyear, hmonth, hfirst]
  omega

/-- Setting the date to the next one moves by a day, over the ends of months and years. -/
theorem setUTCDate_next (t : ℤ) :
    setUTCDate t (getUTCDate t + 1) = timeClip (t + msPerDay) := by
  unfold setUTCDate getUTCFullYear getUTCMonth getUTCDate
  rw [makeDay_month, Date.number_ofNumber]
  have htime : (t / msPerDay + ((Date.ofNumber (t / msPerDay)).day + 1) -
      (Date.ofNumber (t / msPerDay)).day) * msPerDay + t % msPerDay = t + msPerDay := by
    unfold msPerDay
    omega
  rw [htime]

end Methods

section Text

def digitChar (n : ℤ) : Char := Char.ofNat (n.toNat + 48)

/-- The last `w` decimal digits of `n`. -/
def pad : ℕ → ℤ → List Char
  | 0, _ => []
  | w + 1, n => pad w (n / 10) ++ [digitChar (n % 10)]

/-- Years outside 0 to 9999 are written with a sign and six digits. -/
def isoYear (y : ℤ) : List Char :=
  if 0 ≤ y ∧ y ≤ 9999 then pad 4 y
  else (if y < 0 then '-' else '+') :: pad 6 |y|

def isoDate (c : Date) : List Char :=
  isoYear c.year ++ '-' :: (pad 2 c.month ++ '-' :: pad 2 c.day)

/-- The time of a day, of `ms` milliseconds. -/
def isoTime (ms : ℤ) : List Char :=
  pad 2 (ms / 3600000) ++ ':' :: (pad 2 (ms / 60000 % 60) ++ ':' ::
    (pad 2 (ms / 1000 % 60) ++ '.' :: pad 3 (ms % 1000)))

/-- `toISOString` of a date that is not invalid. -/
def isoString (t : ℤ) : String :=
  String.ofList (isoDate (Date.ofNumber (t / msPerDay)) ++ 'T' :: (isoTime (t % msPerDay) ++ ['Z']))

/-- `s.slice(0, 10)`. -/
def slice10 (s : String) : String := String.ofList (s.toList.take 10)

@[simp] theorem length_pad (w : ℕ) (n : ℤ) : (pad w n).length = w := by
  induction w generalizing n with
  | zero => rfl
  | succ w ih =>
    unfold pad
    rw [List.length_append, ih]
    rfl

theorem digit_digitChar {n : ℤ} (h0 : 0 ≤ n) (h9 : n ≤ 9) : digit (digitChar n) = some n := by
  interval_cases n <;> rfl

theorem digitChar_digit {c : Char} {n : ℤ} (h : digit c = some n) : digitChar n = c := by
  obtain ⟨h0, _, _, _⟩ := digit_some h
  have hn : (c.toNat : ℤ) - 48 = n := by
    unfold digit at h
    exact Option.some.inj (Option.ite_none_right_eq_some.mp h).2
  have hc : '0'.toNat ≤ c.toNat := h0
  have e0 : '0'.toNat = 48 := rfl
  have hnat : n.toNat + 48 = c.toNat := by omega
  unfold digitChar
  rw [hnat, Char.ofNat_toNat]

theorem digits_concat (acc : ℤ) (cs : List Char) (c : Char) :
    digits acc (cs ++ [c]) = (digits acc cs).bind fun n => (digit c).bind fun d =>
      some (10 * n + d) := by
  induction cs generalizing acc with
  | nil => rfl
  | cons c' cs ih =>
    rw [List.cons_append]
    unfold digits
    cases digit c' with
    | none => rfl
    | some d => exact ih (10 * acc + d)

theorem digits_pad {w : ℕ} {n : ℤ} (h0 : 0 ≤ n) (hw : n < 10 ^ w) :
    digits 0 (pad w n) = some n := by
  induction w generalizing n with
  | zero =>
    obtain rfl : n = 0 := by omega
    rfl
  | succ w ih =>
    rw [pow_succ] at hw
    have hinit : digits 0 (pad w (n / 10)) = some (n / 10) := by
      apply ih
      · omega
      · omega
    have hlast : digit (digitChar (n % 10)) = some (n % 10) := by
      apply digit_digitChar
      · omega
      · omega
    have hsum : 10 * (n / 10) + n % 10 = n := by omega
    unfold pad
    rw [digits_concat, hinit, Option.bind_some, hlast, Option.bind_some, hsum]

/-- Digits are the decimal digits of the number they are read as. -/
theorem pad_digits {cs : List Char} {n : ℤ} (h : digits 0 cs = some n) :
    pad cs.length n = cs := by
  induction cs using List.reverseRecOn generalizing n with
  | nil => rfl
  | append_singleton cs c ih =>
    rw [digits_concat] at h
    obtain ⟨k, hk, hbind⟩ := Option.bind_eq_some_iff.mp h
    obtain ⟨d, hd, hsum⟩ := Option.bind_eq_some_iff.mp hbind
    have hn : 10 * k + d = n := Option.some.inj hsum
    obtain ⟨_, _, hd0, hd9⟩ := digit_some hd
    have hquot : n / 10 = k := by omega
    have hrem : n % 10 = d := by omega
    rw [List.length_append, List.length_singleton]
    unfold pad
    rw [hquot, hrem, ih hk, digitChar_digit hd]

end Text

section Reading

/-- The string is a valid `YYYY-MM-DD` date, namely `c`. -/
def Reads (s : String) (c : Date) : Prop := plainDate s = some (c.year, c.month, c.day)

instance decidableReads (s : String) (c : Date) : Decidable (Reads s c) :=
  inferInstanceAs (Decidable (_ = _))

theorem Reads.year {s : String} {c : Date} (h : Reads s c) : 0 ≤ c.year ∧ c.year ≤ 9999 :=
  (plainDate_bounds h).1

/-- A plain date is written in one way. -/
theorem reads_iff {s : String} {c : Date} (hy : 0 ≤ c.year ∧ c.year ≤ 9999) :
    Reads s c ↔ s.toList = isoDate c := by
  have hmonth := c.month_bounds
  have hday := c.day_bounds
  have hdays := daysInMonth_bounds c.year c.month
  unfold isoDate isoYear
  rw [if_pos hy]
  constructor
  · intro h
    obtain ⟨ys, ms, ds, hs, ⟨hy4, hm2, hd2⟩, ⟨hys, hms, hds⟩, _⟩ := plainDate_some h
    rw [hs, ← pad_digits hys, ← pad_digits hms, ← pad_digits hds, hy4, hm2, hd2]
  · intro h
    have hys : digits 0 (pad 4 c.year) = some c.year := digits_pad hy.1 (by omega)
    have hms : digits 0 (pad 2 c.month) = some c.month := digits_pad (by omega) (by omega)
    have hds : digits 0 (pad 2 c.day) = some c.day := digits_pad (by omega) (by omega)
    have hrange : 1 ≤ c.month ∧ c.month ≤ 12 ∧ 1 ≤ c.day ∧ c.day ≤ 31 := by omega
    -- the texts of the three fields, character by character
    obtain ⟨y1, y2, y3, y4, hy4⟩ : ∃ y1 y2 y3 y4, pad 4 c.year = [y1, y2, y3, y4] :=
      ⟨_, _, _, _, rfl⟩
    obtain ⟨m1, m2, hm2⟩ : ∃ m1 m2, pad 2 c.month = [m1, m2] := ⟨_, _, rfl⟩
    obtain ⟨d1, d2, hd2⟩ : ∃ d1 d2, pad 2 c.day = [d1, d2] := ⟨_, _, rfl⟩
    rw [hy4] at hys h
    rw [hm2] at hms h
    rw [hd2] at hds h
    unfold Reads plainDate
    rw [h]
    simp only [List.cons_append, List.nil_append, hys, hms, hds]
    exact if_pos hrange

/-- The day's date is cut off its text. -/
theorem slice10_isoString {c : Date} (hy : 0 ≤ c.year ∧ c.year ≤ 9999) :
    slice10 (isoString (c.number * msPerDay)) = String.ofList (isoDate c) := by
  have hday : c.number * msPerDay / msPerDay = c.number :=
    Int.mul_ediv_cancel _ (by decide)
  have hlen : (isoDate c).length = 10 := by
    unfold isoDate isoYear
    rw [if_pos hy]
    simp
  unfold slice10 isoString
  rw [hday, Date.ofNumber_number, String.toList_ofList, List.take_left' hlen]

theorem slice10_eq_iff {s : String} {c : Date} (hy : 0 ≤ c.year ∧ c.year ≤ 9999) :
    slice10 (isoString (c.number * msPerDay)) = s ↔ Reads s c := by
  rw [slice10_isoString hy, reads_iff hy]
  constructor
  · intro h
    rw [← h, String.toList_ofList]
  · intro h
    rw [← h, String.ofList_toList]

end Reading

end TimeOff
