import TimeOff.DateUtil
import Mathlib.Algebra.Order.Group.Abs
import Mathlib.Tactic.Linarith
import Mathlib.Tactic.Positivity

/-! `YYYY-MM-DD` strings: the three readings of the service agree on them, up to the years 0
to 99, which `Date.UTC` takes for 1900 to 1999. -/
namespace TimeOff

section Digits

theorem digit_some {c : Char} {n : ℤ} (h : digit c = some n) :
    '0' ≤ c ∧ c ≤ '9' ∧ 0 ≤ n ∧ n ≤ 9 := by
  unfold digit at h
  split at h
  · next hc =>
    obtain rfl : (c.toNat : ℤ) - 48 = n := Option.some.inj h
    have h0 : '0'.toNat ≤ c.toNat := hc.1
    have h9 : c.toNat ≤ '9'.toNat := hc.2
    have e0 : '0'.toNat = 48 := rfl
    have e9 : '9'.toNat = 57 := rfl
    refine ⟨hc.1, hc.2, ?_, ?_⟩ <;> omega
  · cases h

theorem digit_ne {c d : Char} {n : ℤ} (h : digit c = some n) (hd : d < '0') : c ≠ d := by
  intro heq
  have h0 : '0' ≤ c := (digit_some h).1
  rw [heq] at h0
  exact absurd hd (Char.not_lt.mpr h0)

theorem digits_cons {acc n : ℤ} {c : Char} {cs : List Char}
    (h : digits acc (c :: cs) = some n) :
    ∃ d, digit c = some d ∧ digits (10 * acc + d) cs = some n :=
  Option.bind_eq_some_iff.mp h

theorem digits_bounds {acc n : ℤ} {cs : List Char} (h : digits acc cs = some n) :
    acc * 10 ^ cs.length ≤ n ∧ n < (acc + 1) * 10 ^ cs.length := by
  induction cs generalizing acc with
  | nil =>
    obtain rfl : acc = n := Option.some.inj h
    simp
  | cons c cs ih =>
    obtain ⟨d, hd, hcs⟩ := digits_cons h
    obtain ⟨_, _, h0, h9⟩ := digit_some hd
    obtain ⟨hlo, hhi⟩ := ih hcs
    have hpow : (0 : ℤ) < 10 ^ cs.length := by positivity
    -- one more digit multiplies both bounds by ten
    rw [List.length_cons, pow_succ]
    constructor
    · nlinarith
    · nlinarith

theorem digits_all {acc n : ℤ} {cs : List Char} (h : digits acc cs = some n) :
    ∀ c ∈ cs, ∃ d, digit c = some d := by
  induction cs generalizing acc with
  | nil =>
    intro c hc
    cases hc
  | cons c cs ih =>
    obtain ⟨d, hd, hcs⟩ := digits_cons h
    intro c' hc'
    rcases List.mem_cons.mp hc' with rfl | hmem
    · exact ⟨d, hd⟩
    · exact ih hcs c' hmem

theorem isDigit_of_digit {c : Char} {n : ℤ} (h : digit c = some n) : c.isDigit = true := by
  obtain ⟨h0, h9, _, _⟩ := digit_some h
  unfold Char.isDigit
  rw [Bool.and_eq_true, decide_eq_true_eq, decide_eq_true_eq]
  exact ⟨h0, h9⟩

theorem not_isStrWhiteSpace_of_digit {c : Char} {n : ℤ} (h : digit c = some n) :
    isStrWhiteSpace c = false := by
  obtain ⟨h0, h9, _, _⟩ := digit_some h
  have hlow : 48 ≤ c.val.toNat := h0
  have hhigh : c.val.toNat ≤ 57 := h9
  have hne (k : UInt32) (hk : k.toNat < 48 ∨ 57 < k.toNat) : c.val ≠ k := by
    rintro rfl
    omega
  have hspaces : ¬ 0x2000 ≤ c.val := by
    intro hle
    have hle' : (0x2000 : UInt32).toNat ≤ c.val.toNat := hle
    have hvalue : (0x2000 : UInt32).toNat = 0x2000 := rfl
    omega
  simp [isStrWhiteSpace, hspaces, hne 9, hne 10, hne 11, hne 12, hne 13, hne 32, hne 0xA0,
    hne 0x1680, hne 0x2028, hne 0x2029, hne 0x202F, hne 0x205F, hne 0x3000, hne 0xFEFF]

theorem digitsValue_of_digits {acc : ℕ} {n : ℤ} {cs : List Char} (h : digits acc cs = some n) :
    ((cs.foldl (fun n c => 10 * n + (c.toNat - '0'.toNat)) acc : ℕ) : ℤ) = n := by
  induction cs generalizing acc with
  | nil => exact Option.some.inj h
  | cons c cs ih =>
    obtain ⟨d, hd, hcs⟩ := digits_cons h
    have hvalue : (c.toNat : ℤ) - 48 = d := by
      unfold digit at hd
      exact Option.some.inj (Option.ite_none_right_eq_some.mp hd).2
    have hzero : '0'.toNat = 48 := rfl
    have hacc : ((10 * acc + (c.toNat - '0'.toNat) : ℕ) : ℤ) = 10 * acc + d := by
      obtain ⟨_, _, hnonneg, _⟩ := digit_some hd
      omega
    rw [List.foldl_cons]
    apply ih
    rw [hacc]
    exact hcs

/-- `Number` of a text of digits. -/
theorem decimalNumber_of_digits {n : ℤ} {cs : List Char} (hne : cs ≠ [])
    (h : digits 0 cs = some n) : decimalNumber cs = some (n : ℚ) := by
  have hdigit : ∀ c ∈ cs, c.isDigit = true := by
    intro c hc
    obtain ⟨d, hd⟩ := digits_all h c hc
    exact isDigit_of_digit hd
  have hmantissa : mantissa cs = (cs, [], []) := by
    unfold mantissa
    rw [List.takeWhile_eq_self_iff.mpr hdigit, List.dropWhile_eq_nil_iff.mpr hdigit]
  have hvalue : ((digitsValue cs : ℕ) : ℚ) = n := by
    have hint : ((digitsValue cs : ℕ) : ℤ) = n := digitsValue_of_digits h
    exact_mod_cast hint
  unfold decimalNumber unsignedDecimal
  rw [hmantissa]
  simp [isExponent, exponentValue, hne, hvalue]

/-- The texts of digits that a date has are read exactly. -/
theorem number_of_digits {n : ℤ} {cs : List Char} (hne : cs ≠ []) (hlen : cs.length ≤ 15)
    (h : digits 0 cs = some n) : number cs = some (n : ℚ) := by
  have hall := digits_all h
  -- the trim around a part of digits removes nothing
  have hblank : ∀ c ∈ cs, isStrWhiteSpace c = false := by
    intro c hc
    obtain ⟨d, hd⟩ := hall c hc
    exact not_isStrWhiteSpace_of_digit hd
  have hdrop : cs.dropWhile isStrWhiteSpace = cs := by
    cases cs with
    | nil => rfl
    | cons c cs => exact List.dropWhile_cons_of_neg (by simp [hblank c List.mem_cons_self])
  have htrim : cs.rdropWhile isStrWhiteSpace = cs := by
    apply List.rdropWhile_eq_self_iff.mpr
    intro hcs
    simp [hblank _ (List.getLast_mem hcs)]
  have hsmall : |n| < 2 ^ 53 := by
    obtain ⟨hlow, hhigh⟩ := digits_bounds h
    have hpow : (10 : ℤ) ^ cs.length ≤ 10 ^ 15 := pow_le_pow_right₀ (by norm_num) hlen
    rw [abs_lt]
    constructor
    · linarith
    · linarith
  have hround : (decimalNumber cs).map Double.round = some (n : ℚ) := by
    rw [decimalNumber_of_digits hne h, Option.map_some, Double.round_intCast hsmall]
  unfold number
  rw [hdrop, htrim]
  -- neither a sign nor a letter is among the digits, so they are read as they stand
  have hne_of (d : Char) (hd : digit d = none) : ∀ c ∈ cs, c ≠ d := by
    rintro c hc rfl
    obtain ⟨k, hk⟩ := hall c hc
    rw [hd] at hk
    cases hk
  have hletter {c d : Char} {rest : List Char} (hd : digit d = none) : cs ≠ c :: d :: rest := by
    rintro rfl
    exact hne_of d hd d (List.mem_cons_of_mem _ List.mem_cons_self) rfl
  have hsign {d : Char} {rest : List Char} (hd : digit d = none) : cs ≠ d :: rest := by
    rintro rfl
    exact hne_of d hd d List.mem_cons_self rfl
  dsimp only
  split
  · exact absurd rfl hne
  · exact absurd rfl (hletter (by decide))
  · exact absurd rfl (hletter (by decide))
  · exact absurd rfl (hletter (by decide))
  · exact absurd rfl (hletter (by decide))
  · exact absurd rfl (hletter (by decide))
  · exact absurd rfl (hletter (by decide))
  · exact absurd rfl (hsign (by decide))
  · exact absurd rfl (hsign (by decide))
  · exact hround

theorem dash_notMem_of_digits {n : ℤ} {cs : List Char} (h : digits 0 cs = some n) :
    '-' ∉ cs := by
  intro hmem
  obtain ⟨d, hd⟩ := digits_all h '-' hmem
  exact digit_ne hd (by decide) rfl

end Digits

/-- The three fields of a plain date, read digit by digit. -/
theorem plainDate_some {s : String} {y m d : ℤ} (h : plainDate s = some (y, m, d)) :
    ∃ ys ms ds : List Char, s.toList = ys ++ '-' :: (ms ++ '-' :: ds) ∧
      (ys.length = 4 ∧ ms.length = 2 ∧ ds.length = 2) ∧
      (digits 0 ys = some y ∧ digits 0 ms = some m ∧ digits 0 ds = some d) ∧
      (1 ≤ m ∧ m ≤ 12 ∧ 1 ≤ d ∧ d ≤ 31) := by
  unfold plainDate at h
  split at h
  · next y1 y2 y3 y4 m1 m2 d1 d2 hs =>
    split at h
    · next y' m' d' hy hm hd =>
      obtain ⟨hrange, heq⟩ := Option.ite_none_right_eq_some.mp h
      cases heq
      exact ⟨[y1, y2, y3, y4], [m1, m2], [d1, d2], hs, ⟨rfl, rfl, rfl⟩, ⟨hy, hm, hd⟩, hrange⟩
    · cases h
  · cases h

theorem plainDate_bounds {s : String} {y m d : ℤ} (h : plainDate s = some (y, m, d)) :
    (0 ≤ y ∧ y ≤ 9999) ∧ (1 ≤ m ∧ m ≤ 12) ∧ 1 ≤ d ∧ d ≤ 31 := by
  obtain ⟨ys, ms, ds, _, ⟨hlen, _, _⟩, ⟨hy, _, _⟩, hrange⟩ := plainDate_some h
  have hb := digits_bounds hy
  rw [hlen] at hb
  refine ⟨⟨?_, ?_⟩, ⟨hrange.1, hrange.2.1⟩, hrange.2.2⟩ <;> omega

theorem splitDate_plain {s : String} {y m d : ℤ} (h : plainDate s = some (y, m, d)) :
    splitDate s = (some (y : ℚ), some (m : ℚ), some (d : ℚ)) := by
  obtain ⟨ys, ms, ds, hs, ⟨hy4, hm2, hd2⟩, ⟨hy, hm, hd⟩, _⟩ := plainDate_some h
  have hne {cs : List Char} {n : ℕ} (hlen : cs.length = n + 1) : cs ≠ [] := by
    intro hnil
    rw [hnil] at hlen
    cases hlen
  -- none of the three parts holds a dash, so the split cuts where the dashes were put
  have hsplit : s.toList.splitOn '-' = [ys, ms, ds] := by
    rw [hs, List.splitOn_append_cons_self_of_not_mem (dash_notMem_of_digits hy),
      List.splitOn_append_cons_self_of_not_mem (dash_notMem_of_digits hm),
      List.splitOn_eq_singleton (dash_notMem_of_digits hd)]
  have hparts : (s.toList.splitOn '-').map number =
      [some (y : ℚ), some (m : ℚ), some (d : ℚ)] := by
    rw [hsplit, List.map_cons, List.map_cons, List.map_cons, List.map_nil,
      number_of_digits (hne hy4) (by omega) hy, number_of_digits (hne hm2) (by omega) hm,
      number_of_digits (hne hd2) (by omega) hd]
  unfold splitDate
  dsimp only
  rw [hparts]
  rfl

theorem abs_daysFromCivil_le {y m d : ℤ} (hy : 0 ≤ y ∧ y ≤ 9999) (hm : 1 ≤ m ∧ m ≤ 12)
    (hd : 1 ≤ d ∧ d ≤ 31) : |daysFromCivil y m d * msPerDay| ≤ 8640000000000000 := by
  rw [abs_le]
  unfold daysFromCivil msPerDay
  dsimp only
  split <;> split <;> omega

theorem makeTime_civil {y m d : ℤ} (hy : 0 ≤ y ∧ y ≤ 9999) (hm : 1 ≤ m ∧ m ≤ 12)
    (hd : 1 ≤ d ∧ d ≤ 31) : makeTime y (m - 1) d = some (daysFromCivil y m d * msPerDay) := by
  have hyear : y + (m - 1) / 12 = y := by omega
  have hmonth : (m - 1) % 12 + 1 = m := by omega
  have hday : daysFromCivil y m 1 + d - 1 = daysFromCivil y m d := by
    unfold daysFromCivil
    dsimp only
    omega
  unfold makeTime
  dsimp only
  rw [hyear, hmonth, hday]
  exact if_pos (abs_daysFromCivil_le hy hm hd)

theorem toInteger_intCast (n : ℤ) : toInteger n = n := by
  unfold toInteger
  rw [Int.floor_intCast, Int.ceil_intCast, ite_self]

/-- The year that `Date.UTC` makes of a year. -/
def utcYear (y : ℤ) : ℤ := if 0 ≤ y ∧ y ≤ 99 then 1900 + y else y

theorem splitDateUTC_plain {s : String} {y m d : ℤ} (h : plainDate s = some (y, m, d)) :
    splitDateUTC s = some (daysFromCivil (utcYear y) m d * msPerDay) := by
  obtain ⟨hy, hm, hd⟩ := plainDate_bounds h
  have hutc : 0 ≤ utcYear y ∧ utcYear y ≤ 9999 := by
    unfold utcYear
    split <;> omega
  have hmonth : Double.round ((m : ℚ) - 1) = ((m - 1 : ℤ) : ℚ) := by
    have hsmall : |m - 1| < 2 ^ 53 := by
      rw [abs_lt]
      constructor <;> omega
    rw [← Double.round_intCast hsmall]
    push_cast
    rfl
  unfold splitDateUTC
  dsimp only
  rw [splitDate_plain h]
  dsimp only [dateUTC, Option.map_some]
  rw [hmonth, toInteger_intCast, toInteger_intCast, toInteger_intCast]
  exact makeTime_civil hutc hm hd

theorem parseMidnight_plain {cfg : Config} {s : String} {y m d : ℤ}
    (h : plainDate s = some (y, m, d)) :
    parseMidnight cfg s = some (daysFromCivil y m d * msPerDay) := by
  obtain ⟨hy, hm, hd⟩ := plainDate_bounds h
  unfold parseMidnight
  rw [h]
  exact makeTime_civil hy hm hd

/-- The string is a plain date, the `k`th day from 1970-01-01. -/
def PlainDay (s : String) (k : ℤ) : Prop :=
  ∃ y m d, plainDate s = some (y, m, d) ∧ daysFromCivil y m d = k

/-- 2000-01-01, as a day. -/
def day2000 : ℤ := 10957

/-- The year that `Date.UTC` takes it for moves a date only within the time before 2000. -/
theorem daysFromCivil_utcYear {y m d : ℤ} (hy : 0 ≤ y ∧ y ≤ 9999) (hm : 1 ≤ m ∧ m ≤ 12)
    (hd : 1 ≤ d ∧ d ≤ 31) :
    daysFromCivil (utcYear y) m d = daysFromCivil y m d ∨
      (daysFromCivil (utcYear y) m d < day2000 ∧ daysFromCivil y m d < day2000) := by
  unfold utcYear
  split
  · right
    unfold daysFromCivil day2000
    dsimp only
    constructor
    · split <;> split <;> omega
    · split <;> split <;> omega
  · exact .inl rfl

theorem PlainDay.split {s : String} {k : ℤ} (h : PlainDay s k) :
    ∃ k', splitDateUTC s = some (k' * msPerDay) ∧ (k' = k ∨ k' < day2000 ∧ k < day2000) := by
  obtain ⟨y, m, d, hplain, rfl⟩ := h
  obtain ⟨hy, hm, hd⟩ := plainDate_bounds hplain
  exact ⟨_, splitDateUTC_plain hplain, daysFromCivil_utcYear hy hm hd⟩

theorem PlainDay.parse {cfg : Config} {s : String} {k : ℤ} (h : PlainDay s k) :
    parseMidnight cfg s = some (k * msPerDay) := by
  obtain ⟨y, m, d, hplain, rfl⟩ := h
  exact parseMidnight_plain hplain

/-- From 2000 on the days split off are the days. -/
theorem PlainDay.split_of_le {s : String} {k : ℤ} (h : PlainDay s k) (hk : day2000 ≤ k) :
    splitDateUTC s = some (k * msPerDay) := by
  obtain ⟨k', hsplit, hcases⟩ := h.split
  rcases hcases with rfl | ⟨_, hlt⟩
  · exact hsplit
  · exact absurd hk (not_le.mpr hlt)

end TimeOff
