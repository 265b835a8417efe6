import Mathlib.Data.Prod.Lex
import Mathlib.Order.Interval.Finset.Basic
import Mathlib.Data.Finset.Range
import Mathlib.Tactic.IntervalCases

/-! The Gregorian calendar, extended to all years: dates in their order, numbered from
1970-01-01. Taking the next date adds one to the number, so the dates are a copy of the whole
numbers. -/
namespace Calendar

def IsLeap (y : ℤ) : Prop := y % 4 = 0 ∧ (y % 100 ≠ 0 ∨ y % 400 = 0)

instance decidableIsLeap (y : ℤ) : Decidable (IsLeap y) :=
  inferInstanceAs (Decidable (_ ∧ _))

def daysInMonth (y m : ℤ) : ℤ :=
  if m = 2 then
    if IsLeap y then 29 else 28
  else if m = 4 ∨ m = 6 ∨ m = 9 ∨ m = 11 then 30
  else 31

theorem daysInMonth_bounds (y m : ℤ) : 28 ≤ daysInMonth y m ∧ daysInMonth y m ≤ 31 := by
  unfold daysInMonth
  split
  · split <;> omega
  · split <;> omega

/-- A date that exists. -/
@[ext] structure Date where
  year : ℤ
  month : ℤ
  day : ℤ
  month_bounds : 1 ≤ month ∧ month ≤ 12
  day_bounds : 1 ≤ day ∧ day ≤ daysInMonth year month

/-- The first date of a month. -/
def monthFirst (y m : ℤ) (hm : 1 ≤ m ∧ m ≤ 12) : Date where
  year := y
  month := m
  day := 1
  month_bounds := hm
  day_bounds := by
    have h := (daysInMonth_bounds y m).1
    omega

/-- The date after `c`. -/
def Date.next (c : Date) : Date :=
  if h : c.day < daysInMonth c.year c.month then
    { c with
      day := c.day + 1
      day_bounds := by
        have hday := c.day_bounds.1
        omega }
  else if hm : c.month < 12 then
    monthFirst c.year (c.month + 1) (by
      have h1 := c.month_bounds.1
      omega)
  else monthFirst (c.year + 1) 1 (by omega)

section Starts

/-- The number of the first day of a year. -/
def yearStart (y : ℤ) : ℤ :=
  365 * (y - 1970) + (y - 1969) / 4 - (y - 1901) / 100 + (y - 1601) / 400

def yearLength (y : ℤ) : ℤ := if IsLeap y then 366 else 365

/-- The days of a year before a month. -/
def monthStart (y m : ℤ) : ℤ :=
  if m ≤ 2 then 31 * (m - 1)
  else (153 * (m - 3) + 2) / 5 + (if IsLeap y then 60 else 59)

theorem yearStart_succ (y : ℤ) : yearStart (y + 1) = yearStart y + yearLength y := by
  unfold yearStart yearLength
  by_cases hleap : IsLeap y
  · rw [if_pos hleap]
    unfold IsLeap at hleap
    omega
  · rw [if_neg hleap]
    unfold IsLeap at hleap
    omega

theorem yearStart_le {y y' : ℤ} (h : y ≤ y') : yearStart y ≤ yearStart y' := by
  unfold yearStart
  omega

@[simp] theorem monthStart_one (y : ℤ) : monthStart y 1 = 0 := rfl

theorem monthStart_succ (y m : ℤ) (hm : 1 ≤ m ∧ m ≤ 11) :
    monthStart y (m + 1) = monthStart y m + daysInMonth y m := by
  obtain ⟨h1, h11⟩ := hm
  unfold monthStart daysInMonth
  by_cases hleap : IsLeap y
  · simp only [if_pos hleap]
    interval_cases m <;> omega
  · simp only [if_neg hleap]
    interval_cases m <;> omega

theorem monthStart_twelve (y : ℤ) : monthStart y 12 + daysInMonth y 12 = yearLength y := by
  unfold monthStart daysInMonth yearLength
  by_cases hleap : IsLeap y
  · simp only [if_pos hleap]
    omega
  · simp only [if_neg hleap]
    omega

/-- A month begins after the end of every earlier month of its year. -/
theorem monthStart_le {y m m' : ℤ} (hm : 1 ≤ m) (hlt : m < m') (hm' : m' ≤ 12) :
    monthStart y m + daysInMonth y m ≤ monthStart y m' := by
  rw [← monthStart_succ y m (by omega)]
  unfold monthStart
  split <;> split <;> omega

theorem monthStart_nonneg {y m : ℤ} (hm : 1 ≤ m) : 0 ≤ monthStart y m := by
  unfold monthStart
  split
  · omega
  · split <;> omega

theorem monthStart_end_le {y m : ℤ} (hm : 1 ≤ m ∧ m ≤ 12) :
    monthStart y m + daysInMonth y m ≤ yearLength y := by
  by_cases hlast : m = 12
  · rw [hlast]
    exact le_of_eq (monthStart_twelve y)
  · have hle := monthStart_le (y := y) hm.1 (by omega : m < 12) le_rfl
    have hlen := monthStart_twelve y
    have hdays := (daysInMonth_bounds y 12).1
    omega

end Starts

namespace Date

/-- The days from 1970-01-01 to a date. -/
def number (c : Date) : ℤ := yearStart c.year + monthStart c.year c.month + c.day - 1

theorem number_next (c : Date) : c.next.number = c.number + 1 := by
  obtain ⟨y, m, d, hm, hd⟩ := c
  unfold next number monthFirst
  dsimp only at hm hd ⊢
  by_cases hday : d < daysInMonth y m
  · rw [dif_pos hday]
    dsimp only
    omega
  · rw [dif_neg hday]
    -- the month is over, and then perhaps the year
    by_cases hmonth : m < 12
    · rw [dif_pos hmonth]
      dsimp only
      have hstart := monthStart_succ y m (by omega)
      omega
    · rw [dif_neg hmonth]
      dsimp only
      have hyear := yearStart_succ y
      have htwelve := monthStart_twelve y
      obtain rfl : m = 12 := by omega
      rw [monthStart_one]
      omega

theorem next_year_le (c : Date) : c.next.year ≤ c.year + 1 := by
  unfold next monthFirst
  split
  · dsimp only
    omega
  · split <;> dsimp only <;> omega

/-- A date lies in its year. -/
theorem number_bounds (c : Date) :
    yearStart c.year ≤ c.number ∧ c.number < yearStart (c.year + 1) := by
  have hstart := monthStart_nonneg (y := c.year) c.month_bounds.1
  have hend := monthStart_end_le (y := c.year) c.month_bounds
  have hday := c.day_bounds
  rw [yearStart_succ]
  unfold number
  omega

/-- Dates are compared by year, then month, then day. -/
def key (c : Date) : ℤ ×ₗ ℤ ×ₗ ℤ := toLex (c.year, toLex (c.month, c.day))

theorem key_injective : Function.Injective key := by
  intro c c' h
  have hyear : c.year = c'.year := congrArg (fun k => (ofLex k).1) h
  have hmonth : c.month = c'.month := congrArg (fun k => (ofLex (ofLex k).2).1) h
  have hday : c.day = c'.day := congrArg (fun k => (ofLex (ofLex k).2).2) h
  exact Date.ext hyear hmonth hday

instance linearOrder : LinearOrder Date := LinearOrder.lift' key key_injective

theorem lt_iff {c c' : Date} :
    c < c' ↔ c.year < c'.year ∨ c.year = c'.year ∧
      (c.month < c'.month ∨ c.month = c'.month ∧ c.day < c'.day) := by
  change key c < key c' ↔ _
  unfold key
  rw [Prod.Lex.toLex_lt_toLex]
  dsimp only
  rw [Prod.Lex.toLex_lt_toLex]

theorem number_lt_of_lt {c c' : Date} (hlt : c < c') : c.number < c'.number := by
  have hday := c.day_bounds
  have hday' := c'.day_bounds
  rcases lt_iff.mp hlt with hyear | ⟨hyear, hmonth | ⟨hmonth, hlt⟩⟩
  · calc c.number < yearStart (c.year + 1) := c.number_bounds.2
      _ ≤ yearStart c'.year := yearStart_le (by omega)
      _ ≤ c'.number := c'.number_bounds.1
  · have hle := monthStart_le (y := c.year) c.month_bounds.1 hmonth c'.month_bounds.2
    unfold number
    rw [← hyear]
    omega
  · unfold number
    rw [← hyear, ← hmonth]
    omega

theorem number_lt {c c' : Date} : c.number < c'.number ↔ c < c' := by
  refine ⟨fun h => ?_, number_lt_of_lt⟩
  by_contra hnot
  rcases eq_or_lt_of_le (not_lt.mp hnot) with heq | hlt
  · rw [heq] at h
    omega
  · have hlt' := number_lt_of_lt hlt
    omega

theorem number_le {c c' : Date} : c.number ≤ c'.number ↔ c ≤ c' := by
  rw [← not_lt, ← not_lt, number_lt]

theorem number_injective : Function.Injective number := by
  intro c c' h
  apply le_antisymm
  · exact number_le.mp (by omega)
  · exact number_le.mp (by omega)

theorem next_le_iff {c c' : Date} : c.next ≤ c' ↔ c < c' := by
  rw [← number_le, ← number_lt, number_next]
  omega

end Date

section Numbered

/-- The year that holds day `n`. -/
def yearOf (n : ℤ) : ℤ :=
  -- an average year is 146097 / 400 days, so the estimate is off by at most one
  let y := 1970 + 400 * n / 146097
  if n < yearStart y then y - 1 else if yearStart (y + 1) ≤ n then y + 1 else y

theorem yearOf_bounds (n : ℤ) : yearStart (yearOf n) ≤ n ∧ n < yearStart (yearOf n + 1) := by
  have hlo : yearStart (1970 + 400 * n / 146097 - 1) ≤ n := by
    unfold yearStart
    omega
  have hhi : n < yearStart (1970 + 400 * n / 146097 + 1 + 1) := by
    unfold yearStart
    omega
  unfold yearOf
  dsimp only
  split
  · next h =>
    rw [sub_add_cancel]
    exact ⟨hlo, h⟩
  · next h =>
    split
    · next h' => exact ⟨h', hhi⟩
    · next h' => exact ⟨by omega, by omega⟩

/-- The month that holds day `n` of year `y`. -/
def monthOf (y n : ℤ) : ℤ :=
  let k := n - yearStart y
  let m := k / 31 + 1
  if m < 12 ∧ monthStart y (m + 1) ≤ k then m + 1 else m

theorem monthOf_bounds {y n : ℤ} (h : yearStart y ≤ n ∧ n < yearStart (y + 1)) :
    (1 ≤ monthOf y n ∧ monthOf y n ≤ 12) ∧ monthStart y (monthOf y n) ≤ n - yearStart y ∧
      n - yearStart y < monthStart y (monthOf y n) + daysInMonth y (monthOf y n) := by
  rw [yearStart_succ] at h
  unfold monthOf monthStart daysInMonth
  unfold yearLength at h
  dsimp only
  by_cases hleap : IsLeap y
  · simp only [if_pos hleap] at h ⊢
    split <;> omega
  · simp only [if_neg hleap] at h ⊢
    split <;> omega

namespace Date

/-- The date with number `n`. -/
def ofNumber (n : ℤ) : Date where
  year := yearOf n
  month := monthOf (yearOf n) n
  day := n - yearStart (yearOf n) - monthStart (yearOf n) (monthOf (yearOf n) n) + 1
  month_bounds := (monthOf_bounds (yearOf_bounds n)).1
  day_bounds := by
    have h := (monthOf_bounds (yearOf_bounds n)).2
    omega

@[simp] theorem number_ofNumber (n : ℤ) : (ofNumber n).number = n := by
  unfold ofNumber number
  dsimp only
  omega

@[simp] theorem ofNumber_number (c : Date) : ofNumber c.number = c :=
  number_injective (number_ofNumber _)

/-- The dates from `c` to `c'`. -/
def interval (c c' : Date) : Finset Date :=
  (Finset.range (c'.number + 1 - c.number).toNat).map
    ⟨fun i : ℕ => ofNumber (c.number + i), by
      intro i j h
      have hnumber := congrArg number h
      rw [number_ofNumber, number_ofNumber] at hnumber
      omega⟩

theorem mem_interval {c c' d : Date} : d ∈ interval c c' ↔ c ≤ d ∧ d ≤ c' := by
  unfold interval
  rw [Finset.mem_map, ← number_le, ← number_le]
  constructor
  · intro h
    obtain ⟨i, hi, rfl⟩ := h
    have hlt := Finset.mem_range.mp hi
    change c.number ≤ (ofNumber (c.number + i)).number ∧
      (ofNumber (c.number + i)).number ≤ c'.number
    rw [number_ofNumber]
    omega
  · intro h
    refine ⟨(d.number - c.number).toNat, Finset.mem_range.mpr (by omega), ?_⟩
    apply number_injective
    change (ofNumber (c.number + ((d.number - c.number).toNat : ℤ))).number = d.number
    rw [number_ofNumber]
    omega

instance locallyFiniteOrder : LocallyFiniteOrder Date :=
  LocallyFiniteOrder.ofIcc Date interval fun _ _ _ => mem_interval

/-- The day of the week, from 0 for Sunday; 1970-01-01 is a Thursday. -/
def weekday (c : Date) : ℤ := (c.number + 4) % 7

end Date

end Numbered

section Counting

variable (P : Date → Prop) [DecidablePred P]

/-- The dates from `c` to `c'` inclusive that satisfy `P`. -/
def countIn (c c' : Date) : ℕ := ((Finset.Icc c c').filter P).card

theorem countIn_of_lt {c c' : Date} (h : c' < c) : countIn P c c' = 0 := by
  unfold countIn
  rw [Finset.Icc_eq_empty (not_le.mpr h)]
  rfl

theorem countIn_of_le {c c' : Date} (h : c ≤ c') :
    countIn P c c' = (if P c then 1 else 0) + countIn P c.next c' := by
  have hnotMem : c ∉ Finset.Icc c.next c' := by
    intro hmem
    exact absurd (Finset.mem_Icc.mp hmem).1 (not_le.mpr (Date.next_le_iff.mp le_rfl))
  have hinsert : Finset.Icc c c' = insert c (Finset.Icc c.next c') := by
    ext d
    rw [Finset.mem_insert, Finset.mem_Icc, Finset.mem_Icc, Date.next_le_iff]
    constructor
    · intro hd
      rcases eq_or_lt_of_le hd.1 with heq | hlt
      · exact .inl heq.symm
      · exact .inr ⟨hlt, hd.2⟩
    · intro hd
      rcases hd with rfl | hd
      · exact ⟨le_rfl, h⟩
      · exact ⟨hd.1.le, hd.2⟩
  unfold countIn
  rw [hinsert, Finset.filter_insert]
  split
  · rw [Finset.card_insert_of_notMem (fun hmem => hnotMem (Finset.mem_filter.mp hmem).1)]
    omega
  · omega

/-- A range splits after any of its dates. -/
theorem countIn_split {c m c' : Date} (hc : c ≤ m.next) (hc' : m ≤ c') :
    countIn P c c' = countIn P c m + countIn P m.next c' := by
  have hunion : Finset.Icc c c' = Finset.Icc c m ∪ Finset.Icc m.next c' := by
    ext d
    rw [Finset.mem_union, Finset.mem_Icc, Finset.mem_Icc, Finset.mem_Icc]
    rw [← Date.number_le, Date.number_next] at hc
    rw [← Date.number_le] at hc'
    simp only [← Date.number_le, Date.number_next]
    omega
  have hdisjoint : Disjoint (Finset.Icc c m) (Finset.Icc m.next c') := by
    apply Finset.disjoint_left.mpr
    intro d hd hd'
    have hlt := Date.next_le_iff.mp (Finset.mem_Icc.mp hd').1
    exact absurd (Finset.mem_Icc.mp hd).2 (not_le.mpr hlt)
  unfold countIn
  rw [hunion, Finset.filter_union]
  exact Finset.card_union_of_disjoint (Finset.disjoint_filter_filter hdisjoint)

/-- No more dates are counted than the range has. -/
theorem countIn_le {c c' : Date} (h : c ≤ c') :
    (countIn P c c' : ℤ) ≤ c'.number - c.number + 1 := by
  have hle := Date.number_le.mpr h
  have hcard : (Finset.Icc c c').card = (c'.number + 1 - c.number).toNat := by
    calc (Finset.Icc c c').card
        = (Finset.range (c'.number + 1 - c.number).toNat).card := Finset.card_map _
      _ = (c'.number + 1 - c.number).toNat := Finset.card_range _
  have hfilter : countIn P c c' ≤ (Finset.Icc c c').card := Finset.card_filter_le _ _
  omega

end Counting

end Calendar
