import TimeOff.UtcDate
import TimeOff.DaysCharged

/-! The two counters of working days step a mutable date from the first day to the last. Each
turn is the next date of the calendar, seen once as a weekday and once as a text, so both
counters count dates. -/
namespace TimeOff

open Calendar

/-- The error of `toISOString` on an invalid date. -/
structure RangeError where
  message : String
deriving DecidableEq

def toISOString : Option ℤ → Except RangeError String
  | some t => .ok (isoString t)
  | none => .error ⟨"Invalid time value"⟩

/-- `new Date(dateStr)`; strings other than plain dates are read by `otherDate`. -/
def newDate (otherDate : String → Option ℤ) (dateStr : String) : Option ℤ :=
  match plainDate dateStr with
  | some (y, m, d) => makeTime y (m - 1) d
  | none => otherDate dateStr

section Loop

/-- The milliseconds that `current` has left to pass `stop`. -/
def remaining : Option ℤ → Option ℤ → ℕ
  | some e, some t => (e + 1 - t).toNat
  | _, _ => 0

theorem remaining_setUTCDate {t e : ℤ} (h : t ≤ e) :
    remaining (some e) (setUTCDate t (getUTCDate t + 1)) < remaining (some e) (some t) := by
  rw [setUTCDate_next]
  unfold timeClip
  split
  · unfold remaining msPerDay
    dsimp only
    omega
  -- past the last time of a date the loop stops as well
  · unfold remaining
    dsimp only
    omega

/-- The loop `while (current <= end)` of both counters; `counts` is the `if` in its body. It
ends whatever the dates are: a turn leaves less time to `end`, or an invalid date. -/
def countDays (counts : ℤ → String → Bool) (stop current : Option ℤ) (count : ℕ) : ℕ :=
  match stop, current with
  | some e, some t =>
    if _h : t ≤ e then
      let count' := if counts (getUTCDay t) (slice10 (isoString t)) then count + 1 else count
      countDays counts (some e) (setUTCDate t (getUTCDate t + 1)) count'
    else count
  -- a comparison with an invalid date is false
  | _, _ => count
termination_by remaining stop current
decreasing_by exact remaining_setUTCDate _h

end Loop

/-- `weekendDays` is `[0, 6]` and `holidays` is `[]` where they are not given. -/
def calculateWorkingDays (startDate endDate : String) (weekendDays : List ℤ := [0, 6])
    (holidays : List String := []) : ℕ :=
  let current := splitDateUTC startDate
  let stop := splitDateUTC endDate
  countDays (fun dayOfWeek isoString =>
    !weekendDays.contains dayOfWeek && !holidays.contains isoString) stop current 0

def countBusinessDays (otherDate : String → Option ℤ) (startDate endDate : String)
    (holidays : List String := []) : Except RangeError ℕ := do
  let current := newDate otherDate startDate
  let stop := newDate otherDate endDate
  if ltTime stop current then return 0
  let holidaySet ← holidays.mapM fun h => (toISOString (newDate otherDate h)).map slice10
  return countDays (fun day dateStr =>
    day != 0 && day != 6 && !holidaySet.contains dateStr) stop current 0

section Counting

theorem year_le {c d : Date} (h : c ≤ d) : c.year ≤ d.year := by
  rcases eq_or_lt_of_le h with rfl | hlt
  · exact le_rfl
  · have hcases := Date.lt_iff.mp hlt
    omega

/-- From the year 0 to the year 9999 the day after is never too late for a date. -/
theorem setUTCDate_number {c : Date} (hy : 0 ≤ c.year ∧ c.year ≤ 9999) :
    setUTCDate (c.number * msPerDay) (getUTCDate (c.number * msPerDay) + 1) =
      some (c.next.number * msPerDay) := by
  obtain ⟨hlo, hhi⟩ := c.number_bounds
  unfold yearStart at hlo hhi
  have htime : c.number * msPerDay + msPerDay = (c.number + 1) * msPerDay := by
    unfold msPerDay
    omega
  rw [setUTCDate_next, Date.number_next, htime]
  apply if_pos
  rw [abs_le]
  unfold msPerDay
  omega

theorem getUTCDay_number (c : Date) : getUTCDay (c.number * msPerDay) = c.weekday := by
  have hday : c.number * msPerDay / msPerDay = c.number := Int.mul_ediv_cancel _ (by decide)
  unfold getUTCDay Date.weekday
  rw [hday]

variable {counts : ℤ → String → Bool} {P : Date → Prop} [DecidablePred P]

/-- A turn of the loop takes the next date. -/
theorem countDays_step {c c' : Date} (hle : c ≤ c') (hy : 0 ≤ c.year ∧ c.year ≤ 9999)
    (hcount : counts c.weekday (slice10 (isoString (c.number * msPerDay))) = decide (P c))
    (count : ℕ) :
    countDays counts (some (c'.number * msPerDay)) (some (c.number * msPerDay)) count =
      countDays counts (some (c'.number * msPerDay)) (some (c.next.number * msPerDay))
        (count + if P c then 1 else 0) := by
  have htime : c.number * msPerDay ≤ c'.number * msPerDay := by
    have hnumber := Date.number_le.mpr hle
    unfold msPerDay
    omega
  rw [countDays]
  dsimp only
  rw [dif_pos htime, getUTCDay_number, hcount, setUTCDate_number hy]
  by_cases hP : P c
  · rw [if_pos (decide_eq_true hP), if_pos hP]
  · rw [if_neg (by simpa using hP), if_neg hP, add_zero]

theorem countDays_eq {c c' : Date} (h0 : 0 ≤ c.year) (h9 : c'.year ≤ 9999)
    (hcounts : ∀ d : Date, 0 ≤ d.year ∧ d.year ≤ 9999 →
      counts d.weekday (slice10 (isoString (d.number * msPerDay))) = decide (P d))
    (count : ℕ) :
    countDays counts (some (c'.number * msPerDay)) (some (c.number * msPerDay)) count =
      count + countIn P c c' := by
  -- induction on the days that are left
  induction hk : (c'.number + 1 - c.number).toNat generalizing c count with
  | zero =>
    have hlt : c'.number < c.number := by omega
    have htime : ¬ c.number * msPerDay ≤ c'.number * msPerDay := by
      unfold msPerDay
      omega
    rw [countIn_of_lt P (Date.number_lt.mp hlt), countDays]
    dsimp only
    rw [dif_neg htime, add_zero]
  | succ k ih =>
    have hle : c ≤ c' := by
      apply Date.number_le.mp
      omega
    have hy : 0 ≤ c.year ∧ c.year ≤ 9999 := ⟨h0, (year_le hle).trans h9⟩
    have hnext : c ≤ c.next := (Date.next_le_iff.mp le_rfl).le
    have hleft : (c'.number + 1 - c.next.number).toNat = k := by
      rw [Date.number_next]
      omega
    rw [countDays_step hle hy (hcounts c hy), countIn_of_le P hle,
      ih (h0.trans (year_le hnext)) _ hleft, add_assoc]

end Counting

section Both

/-- A date that is counted: no day of the weekend and no holiday. -/
def IsWorkingDay (weekendDays : List ℤ) (holidays : List String) (d : Date) : Prop :=
  d.weekday ∉ weekendDays ∧ ∀ h ∈ holidays, ¬ Reads h d

instance decidableIsWorkingDay (weekendDays : List ℤ) (holidays : List String) :
    DecidablePred (IsWorkingDay weekendDays holidays) :=
  fun _ => inferInstanceAs (Decidable (_ ∧ _))

variable {startDate endDate : String} {c c' : Date}

/-- From the year 100 on `Date.UTC` takes the year as it is written. -/
theorem splitDateUTC_reads (h : Reads startDate c) (hy : 100 ≤ c.year) :
    splitDateUTC startDate = some (c.number * msPerDay) := by
  have hyear : utcYear c.year = c.year := if_neg (by omega)
  rw [splitDateUTC_plain h, hyear, daysFromCivil_number]

theorem newDate_reads (otherDate : String → Option ℤ) (h : Reads startDate c) :
    newDate otherDate startDate = some (c.number * msPerDay) := by
  obtain ⟨hy, hm, hd⟩ := plainDate_bounds h
  have hplain : plainDate startDate = some (c.year, c.month, c.day) := h
  unfold newDate
  rw [hplain]
  dsimp only
  rw [makeTime_civil hy hm hd, daysFromCivil_number]

theorem contains_slice10 {holidays : List String} {d : Date} (hy : 0 ≤ d.year ∧ d.year ≤ 9999) :
    holidays.contains (slice10 (isoString (d.number * msPerDay))) = true ↔
      ∃ h ∈ holidays, Reads h d := by
  rw [List.contains_iff_mem]
  constructor
  · intro hmem
    exact ⟨_, hmem, (slice10_eq_iff hy).mp rfl⟩
  · intro hex
    obtain ⟨h, hmem, hreads⟩ := hex
    rw [(slice10_eq_iff hy).mpr hreads]
    exact hmem

theorem calculateWorkingDays_eq (hs : Reads startDate c) (he : Reads endDate c')
    (hc : 100 ≤ c.year) (hc' : 100 ≤ c'.year) (weekendDays : List ℤ) (holidays : List String) :
    calculateWorkingDays startDate endDate weekendDays holidays =
      countIn (IsWorkingDay weekendDays holidays) c c' := by
  unfold calculateWorkingDays
  dsimp only
  rw [splitDateUTC_reads hs hc, splitDateUTC_reads he hc']
  refine (countDays_eq (by omega) he.year.2 ?_ 0).trans (zero_add _)
  intro d hy
  rw [Bool.eq_iff_iff, decide_eq_true_iff, Bool.and_eq_true, Bool.not_eq_true', Bool.not_eq_true',
    ← Bool.not_eq_true, ← Bool.not_eq_true, List.contains_iff_mem, contains_slice10 hy]
  unfold IsWorkingDay
  simp only [not_exists, not_and]

/-- The texts of the holidays' midnights are the holidays. -/
theorem mapM_slice10 (otherDate : String → Option ℤ) {holidays : List String}
    (hreads : ∀ h ∈ holidays, ∃ d, Reads h d) :
    (holidays.mapM fun h => (toISOString (newDate otherDate h)).map slice10) =
      .ok holidays := by
  induction holidays with
  | nil => rfl
  | cons h hs ih =>
    obtain ⟨d, hd⟩ := hreads h List.mem_cons_self
    have hhead : (toISOString (newDate otherDate h)).map slice10 = .ok h := by
      rw [newDate_reads otherDate hd]
      exact congrArg Except.ok ((slice10_eq_iff hd.year).mpr hd)
    have htail := ih fun h' hmem => hreads h' (List.mem_cons_of_mem _ hmem)
    rw [List.mapM_cons, hhead, htail]
    rfl

theorem countBusinessDays_eq (otherDate : String → Option ℤ) (hs : Reads startDate c)
    (he : Reads endDate c') {weekendDays : List ℤ} (hweekend : ∀ w, w ∈ weekendDays ↔ w = 0 ∨ w = 6)
    {holidays : List String} (hreads : ∀ h ∈ holidays, ∃ d, Reads h d) :
    countBusinessDays otherDate startDate endDate holidays =
      .ok (countIn (IsWorkingDay weekendDays holidays) c c') := by
  unfold countBusinessDays
  dsimp only
  rw [newDate_reads otherDate hs, newDate_reads otherDate he, mapM_slice10 otherDate hreads]
  by_cases hlt : c' < c
  · have htime : ltTime (some (c'.number * msPerDay)) (some (c.number * msPerDay)) = true := by
      have hnumber := Date.number_lt.mpr hlt
      apply decide_eq_true
      unfold msPerDay
      omega
    rw [if_pos htime, countIn_of_lt _ hlt]
    rfl
  · have htime : ¬ ltTime (some (c'.number * msPerDay)) (some (c.number * msPerDay)) = true := by
      have hnumber := Date.number_le.mpr (not_lt.mp hlt)
      intro h
      have hlt' := of_decide_eq_true h
      unfold msPerDay at hlt'
      omega
    rw [if_neg htime]
    refine congrArg Except.ok ((countDays_eq hs.year.1 he.year.2 ?_ 0).trans (zero_add _))
    intro d hy
    rw [Bool.eq_iff_iff, decide_eq_true_iff, Bool.and_eq_true, Bool.not_eq_true',
      ← Bool.not_eq_true, contains_slice10 hy, Bool.and_eq_true, bne_iff_ne, bne_iff_ne]
    unfold IsWorkingDay
    rw [hweekend]
    simp only [not_exists, not_and, not_or]

/-- There are no more working days than days requested. -/
theorem calculateWorkingDays_le (hs : Reads startDate c) (he : Reads endDate c')
    (hc : 100 ≤ c.year) (hc' : 100 ≤ c'.year) (hle : c ≤ c') (weekendDays : List ℤ)
    (holidays : List String) :
    ∃ days, calculateDaysRequested startDate endDate = some days ∧
      (calculateWorkingDays startDate endDate weekendDays holidays : ℚ) ≤ days := by
  obtain ⟨k, hk, hdays⟩ :=
    calculateDaysRequested_eq (splitDateUTC_reads hs hc) (splitDateUTC_reads he hc')
  have hcount : (countIn (IsWorkingDay weekendDays holidays) c c' : ℤ) ≤ max k 0 + 1 := by
    have hbound := countIn_le (IsWorkingDay weekendDays holidays) hle
    unfold msPerDay at hk
    omega
  refine ⟨_, hdays, ?_⟩
  rw [calculateWorkingDays_eq hs he hc hc']
  exact_mod_cast hcount

/-- The working days of a range are counted exactly: the dates of the calendar from the first
to the last that are neither weekend nor holiday. So the count is that of the two parts of a
split range, at most the days requested, and that of `countBusinessDays`. -/
theorem working_days_exact (otherDate : String → Option ℤ)
    (hs : Reads startDate c) (he : Reads endDate c') (hc : 1000 ≤ c.year) (hc' : 1000 ≤ c'.year)
    (weekendDays : List ℤ) {holidays : List String} (hreads : ∀ h ∈ holidays, ∃ d, Reads h d) :
    calculateWorkingDays startDate endDate weekendDays holidays =
        ((Finset.Icc c c').filter (IsWorkingDay weekendDays holidays)).card ∧
      (c' < c → calculateWorkingDays startDate endDate weekendDays holidays = 0) ∧
      (∀ m n d, Reads m d → Reads n d.next → c ≤ d.next → d ≤ c' →
        calculateWorkingDays startDate endDate weekendDays holidays =
          calculateWorkingDays startDate m weekendDays holidays +
            calculateWorkingDays n endDate weekendDays holidays) ∧
      (c ≤ c' → ∃ days, calculateDaysRequested startDate endDate = some days ∧
        (calculateWorkingDays startDate endDate weekendDays holidays : ℚ) ≤ days) ∧
      ((∀ w, w ∈ weekendDays ↔ w = 0 ∨ w = 6) →
        countBusinessDays otherDate startDate endDate holidays =
          .ok (calculateWorkingDays startDate endDate weekendDays holidays)) := by
  have hexact := calculateWorkingDays_eq hs he (by omega) (by omega) weekendDays holidays
  refine ⟨hexact, ?_, ?_, ?_, ?_⟩
  · intro hlt
    rw [hexact]
    exact countIn_of_lt _ hlt
  · intro m n d hm hn hcd hdc
    have hnext := year_le hcd
    have hyear : d.next.year ≤ d.year + 1 := Date.next_year_le d
    rw [hexact, calculateWorkingDays_eq hs hm (by omega) (by omega),
      calculateWorkingDays_eq hn he (by omega) (by omega)]
    exact countIn_split _ hcd hdc
  · intro hle
    exact calculateWorkingDays_le hs he (by omega) (by omega) hle weekendDays holidays
  · intro hweekend
    rw [hexact]
    exact countBusinessDays_eq otherDate hs he hweekend hreads

/-- The last week of February 2024, a leap year, with one holiday. -/
def monday : Date := ⟨2024, 2, 26, by decide, by decide⟩

def leapDay : Date := ⟨2024, 2, 29, by decide, by decide⟩

def sunday : Date := ⟨2024, 3, 3, by decide, by decide⟩

theorem working_days_leap_week :
    calculateWorkingDays "2024-02-26" "2024-03-03" [0, 6] ["2024-02-29"] = 4 ∧
      countBusinessDays (fun _ => none) "2024-02-26" "2024-03-03" ["2024-02-29"] = .ok 4 ∧
      calculateWorkingDays "2024-02-26" "2024-02-29" [0, 6] ["2024-02-29"] +
        calculateWorkingDays "2024-03-01" "2024-03-03" [0, 6] ["2024-02-29"] = 4 := by
  have hreads : ∀ h ∈ ["2024-02-29"], ∃ d, Reads h d := by
    intro h hmem
    rw [List.mem_singleton.mp hmem]
    exact ⟨leapDay, by decide⟩
  have hweekend : ∀ w : ℤ, w ∈ ([0, 6] : List ℤ) ↔ w = 0 ∨ w = 6 := by
    intro w
    rw [List.mem_pair]
  have hs : Reads "2024-02-26" monday := by decide
  have he : Reads "2024-03-03" sunday := by decide
  have hcard : ((Finset.Icc monday sunday).filter
      (IsWorkingDay [0, 6] ["2024-02-29"])).card = 4 := by decide
  obtain ⟨hexact, _, hsplit, _, hboth⟩ :=
    working_days_exact (fun _ => none) hs he (by decide) (by decide) [0, 6] hreads
  have hcount := hexact.trans hcard
  have hparts := hsplit "2024-02-29" "2024-03-01" leapDay (by decide) (by decide) (by decide)
    (by decide)
  refine ⟨hcount, ?_, hparts.symm.trans hcount⟩
  rw [hboth hweekend, hcount]

end Both

end TimeOff
