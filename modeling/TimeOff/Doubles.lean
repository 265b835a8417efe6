import Mathlib.Data.Int.Log
import Mathlib.Data.Rat.Floor
import Mathlib.Algebra.Order.Field.Power
import Mathlib.Tactic.Linarith
import Mathlib.Tactic.NormNum
import Mathlib.Tactic.Ring
import Mathlib.Tactic.FieldSimp
import Mathlib.Tactic.Positivity

/-! Binary64 numbers as the rationals they are: rounding to the nearest, ties to even, with 53
digits of mantissa down to `2 ^ (-1074)`. Numbers too large for the format are not cut off. -/
namespace Double

/-- The nearest integer; of two, the even one. -/
def roundEven (y : ℚ) : ℤ :=
  if Int.fract y < 1 / 2 then ⌊y⌋
  else if 1 / 2 < Int.fract y then ⌊y⌋ + 1
  else if Even ⌊y⌋ then ⌊y⌋
  else ⌊y⌋ + 1

/-- The exponent of the last place of `x`. -/
def placeExponent (x : ℚ) : ℤ := max (Int.log 2 |x| - 52) (-1074)

/-- The unit in the last place of `x`. -/
def place (x : ℚ) : ℚ := 2 ^ placeExponent x

/-- The double nearest to `x`. -/
def round (x : ℚ) : ℚ := roundEven (x / place x) * place x

section Nearest

variable {x y : ℚ}

theorem abs_roundEven_sub_le (y : ℚ) : |(roundEven y : ℚ) - y| ≤ 1 / 2 := by
  have hfract : (⌊y⌋ : ℚ) + Int.fract y = y := Int.floor_add_fract y
  have hnonneg := Int.fract_nonneg y
  have hlt := Int.fract_lt_one y
  have hdown (h : Int.fract y ≤ 1 / 2) : |((⌊y⌋ : ℤ) : ℚ) - y| ≤ 1 / 2 := by
    rw [abs_le]
    constructor <;> linarith
  have hup (h : 1 / 2 ≤ Int.fract y) : |((⌊y⌋ + 1 : ℤ) : ℚ) - y| ≤ 1 / 2 := by
    push_cast
    rw [abs_le]
    constructor <;> linarith
  unfold roundEven
  by_cases hsmall : Int.fract y < 1 / 2
  · rw [if_pos hsmall]
    exact hdown hsmall.le
  rw [if_neg hsmall]
  by_cases hlarge : 1 / 2 < Int.fract y
  · rw [if_pos hlarge]
    exact hup hlarge.le
  rw [if_neg hlarge]
  -- a tie, which either neighbour settles
  split
  · exact hdown (not_lt.mp hlarge)
  · exact hup (not_lt.mp hsmall)

theorem roundEven_intCast (n : ℤ) : roundEven n = n := by
  unfold roundEven
  rw [Int.fract_intCast, if_pos (by norm_num), Int.floor_intCast]

theorem place_pos (x : ℚ) : 0 < place x := zpow_pos (by norm_num) _

/-- A double is off by at most half a unit in the last place. -/
theorem abs_round_sub_le (x : ℚ) : |round x - x| ≤ place x / 2 := by
  have hpos := place_pos x
  have hscaled : round x - x = ((roundEven (x / place x) : ℚ) - x / place x) * place x := by
    unfold round
    rw [sub_mul, div_mul_cancel₀ x hpos.ne']
  calc
    |round x - x| = |(roundEven (x / place x) : ℚ) - x / place x| * place x := by
      rw [hscaled, abs_mul, abs_of_pos hpos]
    _ ≤ 1 / 2 * place x :=
      mul_le_mul_of_nonneg_right (abs_roundEven_sub_le _) hpos.le
    _ = place x / 2 := by ring

/-- A multiple of its last place is a double. -/
theorem round_eq_of_mul {n : ℤ} (h : x = n * place x) : round x = x := by
  have hquot : x / place x = n := by
    rw [div_eq_iff (place_pos x).ne']
    exact h
  unfold round
  rw [hquot, roundEven_intCast]
  exact h.symm

/-- So are the integers of 53 digits. -/
theorem round_intCast {n : ℤ} (hn : |n| < 2 ^ 53) : round n = n := by
  have hlog : Int.log 2 |(n : ℚ)| ≤ 52 := by
    by_cases hzero : n = 0
    · rw [hzero, Int.cast_zero, abs_zero, Int.log_zero_right]
      omega
    · have hpos : 0 < |(n : ℚ)| := abs_pos.mpr (Int.cast_ne_zero.mpr hzero)
      have hlt : Int.log 2 |(n : ℚ)| < 53 := by
        apply (Int.lt_zpow_iff_log_lt (by norm_num) hpos).mp
        exact_mod_cast hn
      omega
  obtain ⟨k, hk⟩ : ∃ k : ℕ, placeExponent n = -k := by
    have hexponent : placeExponent n ≤ 0 := by
      unfold placeExponent
      apply max_le
      · omega
      · omega
    exact ⟨(-placeExponent n).toNat, by omega⟩
  -- the places go down to the unit at least
  apply round_eq_of_mul (n := n * 2 ^ k)
  unfold place
  rw [hk, zpow_neg, zpow_natCast]
  push_cast
  field_simp

/-- Below `2 ^ k` the last place is at most `2 ^ (k - 53)`. -/
theorem place_le {k : ℤ} (hk : 1 ≤ k) (hx : |x| < 2 ^ k) : place x ≤ 2 ^ (k - 53) := by
  have hlog : Int.log 2 |x| ≤ k - 1 := by
    by_cases hzero : x = 0
    · rw [hzero, abs_zero, Int.log_zero_right]
      omega
    · have hpos : 0 < |x| := abs_pos.mpr hzero
      have hlt : Int.log 2 |x| < k := by
        apply (Int.lt_zpow_iff_log_lt (by norm_num) hpos).mp
        exact_mod_cast hx
      omega
  unfold place placeExponent
  apply zpow_le_zpow_right₀ (by norm_num)
  apply max_le
  · omega
  · omega

/-- The error of one rounding below `2 ^ k`. -/
theorem abs_round_sub_lt {k : ℤ} (hk : 1 ≤ k) (hx : |x| < 2 ^ k) :
    |round x - x| ≤ 2 ^ (k - 54) := by
  have hhalf : (2 : ℚ) ^ (k - 53) / 2 = 2 ^ (k - 54) := by
    rw [show k - 53 = (k - 54) + 1 by omega, zpow_add_one₀ (by norm_num)]
    ring
  calc
    |round x - x| ≤ place x / 2 := abs_round_sub_le x
    _ ≤ 2 ^ (k - 53) / 2 := by
      apply div_le_div_of_nonneg_right (place_le hk hx) (by norm_num)
    _ = 2 ^ (k - 54) := hhalf

end Nearest

end Double
