import TimeOff.Doubles
import TimeOff.HcmSyncService

/-! The drift of a balance in the doubles of the code, against the drift in exact numbers: for
amounts that the columns hold, the tolerances can only be in doubt where the HCM is one hundredth
off. -/
namespace TimeOff

section Cents

/-- A whole number of hundredths, the scale of the columns. -/
def Cents (x : ℚ) : Prop := ∃ n : ℤ, x = n / 100

theorem Cents.add {x y : ℚ} (hx : Cents x) (hy : Cents y) : Cents (x + y) := by
  obtain ⟨m, rfl⟩ := hx
  obtain ⟨n, rfl⟩ := hy
  refine ⟨m + n, ?_⟩
  push_cast
  ring

theorem Cents.sub {x y : ℚ} (hx : Cents x) (hy : Cents y) : Cents (x - y) := by
  obtain ⟨m, rfl⟩ := hx
  obtain ⟨n, rfl⟩ := hy
  refine ⟨m - n, ?_⟩
  push_cast
  ring

/-- Up to sign, hundredths are none, one, or more than one. -/
theorem Cents.abs_cases {x : ℚ} (hx : Cents x) : x = 0 ∨ |x| = 1 / 100 ∨ 2 / 100 ≤ |x| := by
  obtain ⟨n, rfl⟩ := hx
  have habs : |(n : ℚ) / 100| = (|n| : ℤ) / 100 := by
    rw [abs_div, Int.cast_abs]
    norm_num
  rw [habs]
  have hcases : |n| = 0 ∨ |n| = 1 ∨ 2 ≤ |n| := by
    have hpos := abs_nonneg n
    omega
  rcases hcases with h0 | h1 | h2
  · left
    rw [abs_eq_zero.mp h0]
    norm_num
  · right; left
    rw [h1]
    norm_num
  · right; right
    have hcast : (2 : ℚ) ≤ (|n| : ℤ) := by exact_mod_cast h2
    linarith

/-- An amount that fits a column: six digits, two of them behind the point. -/
structure InColumn (x : ℚ) : Prop where
  cents : Cents x
  small : |x| < 10000

def EmployeeBalance.localTotal (b : EmployeeBalance) : ℚ :=
  b.usedBalance + b.pendingBalance + b.availableBalance

/-- The amounts that a reconciliation reads. -/
structure EmployeeBalance.InColumns (b : EmployeeBalance) : Prop where
  used : InColumn b.usedBalance
  pending : InColumn b.pendingBalance
  available : InColumn b.availableBalance

theorem EmployeeBalance.InColumns.cents {b : EmployeeBalance} (h : b.InColumns) :
    Cents b.localTotal :=
  (h.used.cents.add h.pending.cents).add h.available.cents

end Cents

section Rounding

variable {b : EmployeeBalance} {hcmTotal x : ℚ}

theorem round_near (hx : |x| < 100000) : |Double.round x - x| ≤ 1 / 10 ^ 9 := by
  have hbound : |x| < (2 : ℚ) ^ (17 : ℤ) := hx.trans (by norm_num)
  refine (Double.abs_round_sub_lt (by norm_num) hbound).trans ?_
  norm_num

theorem realTimeTolerance_near : |Double.round realTimeTolerance - 1 / 1000| ≤ 1 / 10 ^ 9 :=
  round_near (by norm_num [realTimeTolerance, abs_of_pos])

theorem driftTolerance_near : |Double.round driftTolerance - 1 / 100| ≤ 1 / 10 ^ 9 :=
  round_near (by norm_num [driftTolerance, abs_of_pos])

/-- The two tolerances keep their order in doubles. -/
theorem roundedTolerances : 0 < Double.round realTimeTolerance ∧
    Double.round realTimeTolerance < Double.round driftTolerance := by
  obtain ⟨hreal, hreal'⟩ := abs_le.mp realTimeTolerance_near
  obtain ⟨hbatch, hbatch'⟩ := abs_le.mp driftTolerance_near
  constructor <;> linarith

/-- Seven roundings: four amounts, two sums and the difference. -/
theorem driftIn_near (hb : b.InColumns) (ht : InColumn hcmTotal) :
    |b.driftIn Double.round hcmTotal - (hcmTotal - b.localTotal)| ≤ 1 / 10 ^ 8 := by
  have hread {y : ℚ} (hy : InColumn y) : |Double.round y - y| ≤ 1 / 10 ^ 9 :=
    round_near (hy.small.trans (by norm_num))
  obtain ⟨hu, hu'⟩ := abs_le.mp (hread hb.used)
  obtain ⟨hp, hp'⟩ := abs_le.mp (hread hb.pending)
  obtain ⟨ha, ha'⟩ := abs_le.mp (hread hb.available)
  obtain ⟨ht₁, ht₂⟩ := abs_le.mp (hread ht)
  obtain ⟨hus, hus'⟩ := abs_lt.mp hb.used.small
  obtain ⟨hps, hps'⟩ := abs_lt.mp hb.pending.small
  obtain ⟨has, has'⟩ := abs_lt.mp hb.available.small
  obtain ⟨hts, hts'⟩ := abs_lt.mp ht.small
  -- the two sums
  obtain ⟨hs, hs'⟩ := abs_le.mp (round_near
    (x := Double.round b.usedBalance + Double.round b.pendingBalance)
    (abs_lt.mpr ⟨by linarith, by linarith⟩))
  obtain ⟨hl, hl'⟩ := abs_le.mp (round_near
    (x := Double.round (Double.round b.usedBalance + Double.round b.pendingBalance) +
      Double.round b.availableBalance) (abs_lt.mpr ⟨by linarith, by linarith⟩))
  -- and the difference
  obtain ⟨hd, hd'⟩ := abs_le.mp (round_near
    (x := Double.round hcmTotal - Double.round (Double.round (Double.round b.usedBalance +
      Double.round b.pendingBalance) + Double.round b.availableBalance))
    (abs_lt.mpr ⟨by linarith, by linarith⟩))
  unfold EmployeeBalance.driftIn EmployeeBalance.localTotal
  rw [abs_le]
  constructor <;> linarith

/-- In the arithmetic `fl` the batch finds the total below the amounts by more than it
tolerates. -/
def FallsShort (fl : ℚ → ℚ) (b : EmployeeBalance) (hcmTotal : ℚ) : Prop :=
  fl driftTolerance < |b.driftIn fl hcmTotal| ∧ b.driftIn fl hcmTotal ≤ fl driftTolerance

instance (fl : ℚ → ℚ) (b : EmployeeBalance) (hcmTotal : ℚ) : Decidable (FallsShort fl b hcmTotal) :=
  inferInstanceAs (Decidable (_ ∧ _))

/-- The drift is beyond the tolerance of `applyHcmRealTimeUpdate` and within that of the batch. -/
def PartsTolerances (fl : ℚ → ℚ) (b : EmployeeBalance) (hcmTotal : ℚ) : Prop :=
  fl realTimeTolerance < |b.driftIn fl hcmTotal| ∧
    |b.driftIn fl hcmTotal| ≤ fl driftTolerance

/-- In columns of two decimals only a total of one hundredth less can be taken wrongly. -/
theorem fallsShort_iff_of_ne (hb : b.InColumns) (ht : InColumn hcmTotal)
    (hne : hcmTotal ≠ b.localTotal - 1 / 100) :
    FallsShort Double.round b hcmTotal ↔ hcmTotal < b.localTotal - 1 / 100 := by
  obtain ⟨hd, hd'⟩ := abs_le.mp (driftIn_near hb ht)
  obtain ⟨htol, htol'⟩ := abs_le.mp driftTolerance_near
  unfold FallsShort
  rcases (ht.cents.sub hb.cents).abs_cases with h0 | h1 | h2
  · have hsmall : |b.driftIn Double.round hcmTotal| ≤ 1 / 10 ^ 8 :=
      abs_le.mpr ⟨by linarith, by linarith⟩
    apply iff_of_false
    · rintro ⟨hlarge, _⟩
      linarith
    · linarith
  · -- one hundredth more
    have habove : hcmTotal - b.localTotal = 1 / 100 := by
      rcases (abs_eq (by norm_num)).mp h1 with hpos | hneg
      · exact hpos
      · exact absurd (by linarith) hne
    have hpos : 0 < b.driftIn Double.round hcmTotal := by linarith
    rw [abs_of_pos hpos]
    apply iff_of_false
    · rintro ⟨hlarge, hsmall⟩
      linarith
    · linarith
  · rcases le_abs.mp h2 with hpos | hneg
    · apply iff_of_false
      · rintro ⟨_, hsmall⟩
        linarith
      · linarith
    · have hlarge : -b.driftIn Double.round hcmTotal ≤ |b.driftIn Double.round hcmTotal| :=
        neg_le_abs _
      apply iff_of_true
      · constructor <;> linarith
      · linarith

theorem partsTolerances_iff (hb : b.InColumns) (ht : InColumn hcmTotal) :
    PartsTolerances Double.round b hcmTotal ↔
      |hcmTotal - b.localTotal| = 1 / 100 ∧
        |b.driftIn Double.round hcmTotal| ≤ Double.round driftTolerance := by
  have hnear := driftIn_near hb ht
  obtain ⟨htol, htol'⟩ := abs_le.mp driftTolerance_near
  obtain ⟨hreal, hreal'⟩ := abs_le.mp realTimeTolerance_near
  -- the absolute values are as near as the drifts
  obtain ⟨hd, hd'⟩ := abs_le.mp ((abs_abs_sub_abs_le _ _).trans hnear)
  refine and_congr_left fun hsmall => ?_
  rcases (ht.cents.sub hb.cents).abs_cases with h0 | h1 | h2
  · have habs : |hcmTotal - b.localTotal| = 0 := abs_eq_zero.mpr h0
    rw [habs] at hd' ⊢
    apply iff_of_false
    · intro hlarge
      linarith
    · norm_num
  · apply iff_of_true
    · linarith
    · exact h1
  · apply iff_of_false
    · intro hlarge
      linarith
    · intro h1
      linarith

end Rounding

end TimeOff
