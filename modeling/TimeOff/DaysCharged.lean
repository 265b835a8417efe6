import TimeOff.PlainDates
import TimeOff.TimeOffService

/-! The days that `createRequest` charges: it reads the dates in three ways, and an `endDate`
that one of them cannot read passes its guard. -/
namespace TimeOff

open Async

section Steps

variable (cfg : Config) (dto : CreateTimeOffRequestDto)

/-- Step 1 of `createRequest`: what it throws, or the days it goes on with. -/
def validateDates (now : ℕ) : Except ServiceError Num :=
  if !isNotInPast dto.startDate now then
    .error (.invalidDateRange "startDate cannot be in the past")
  else if ltTime (parseMidnight cfg dto.endDate) (parseMidnight cfg dto.startDate) then
    .error (.invalidDateRange "endDate must be on or after startDate")
  else .ok (calculateDaysRequested dto.startDate dto.endDate)

/-- The other steps of `createRequest`; the transaction of `createLocked` checks the overlaps
and deducts the days. -/
def proceed (idempotencyKey : String) : Except ServiceError Num → Svc RequestBody
  | .error e => throw (.service e)
  | .ok daysRequested =>
    (checkIdempotency idempotencyKey dto.employeeId (cfg.hashObject dto)).bind fun
      | some body => pure body
      | none =>
        withCreateLock (lockKey dto)
          (createLocked cfg dto idempotencyKey daysRequested (cfg.hashObject dto))

theorem createRequest_eq {idempotencyKey : String} (hkey : idempotencyKey ≠ "") :
    createRequest cfg dto idempotencyKey =
      Svc.now.bind fun now => proceed cfg dto idempotencyKey (validateDates cfg dto now) := by
  unfold createRequest
  rw [if_neg hkey]
  refine congrArg (Prog.bind Svc.now) (funext fun now => ?_)
  unfold validateDates
  cases isNotInPast dto.startDate now with
  | false => rfl
  | true =>
    cases ltTime (parseMidnight cfg dto.endDate) (parseMidnight cfg dto.startDate) with
    | true => rfl
    | false => rfl

end Steps

section Days

theorem splitDateUTC_dvd {s : String} {t : ℤ} (h : splitDateUTC s = some t) : msPerDay ∣ t := by
  unfold splitDateUTC dateUTC at h
  dsimp only at h
  split at h
  · unfold makeTime at h
    obtain ⟨_, heq⟩ := Option.ite_none_right_eq_some.mp h
    exact ⟨_, (Option.some.inj heq).symm.trans (mul_comm _ _)⟩
  · cases h

/-- Midnights `k` days apart count as `k + 1` days, or as one if the range runs backwards. -/
theorem calculateDaysRequested_eq {startDate endDate : String} {s e : ℤ}
    (hs : splitDateUTC startDate = some s) (he : splitDateUTC endDate = some e) :
    ∃ k : ℤ, e - s = k * msPerDay ∧
      calculateDaysRequested startDate endDate = some ((max k 0 + 1 : ℤ) : ℚ) := by
  -- both dates are whole days, so the rounding does nothing
  obtain ⟨k, hk⟩ := dvd_sub (splitDateUTC_dvd he) (splitDateUTC_dvd hs)
  have hround : (2 * (e - s) + msPerDay) / (2 * msPerDay) = k := by
    rw [hk]
    unfold msPerDay
    omega
  have hmax : max (k + 1) 1 = max k 0 + 1 := by omega
  refine ⟨k, hk.trans (mul_comm _ _), ?_⟩
  unfold calculateDaysRequested
  rw [hs, he]
  dsimp only
  rw [hround, hmax]

variable (named : String → Option ℤ)

/-- The calendar day a date names, counted from 1970-01-01: that of a plain date is the
Gregorian one, that of another ISO-8601 string is given by `named`. -/
def calendarDay (s : String) : Option ℤ :=
  match plainDate s with
  | some (y, m, d) => some (daysFromCivil y m d)
  | none => named s

/-- The request is refused for its dates, or the dates are numbers for the overlap check and
the days for the balance are those from the start day to the end day inclusive. -/
def DaysTaken (dto : CreateTimeOffRequestDto) : Except ServiceError Num → Prop
  | .error e => ∃ message, e = .invalidDateRange message
  | .ok days =>
    ((splitDateUTC dto.startDate).isSome = true ∧ (splitDateUTC dto.endDate).isSome = true) ∧
      ∃ (n : ℕ) (s e : ℤ), 1 ≤ n ∧ days = some (n : ℚ) ∧
        calendarDay named dto.startDate = some s ∧ calendarDay named dto.endDate = some e ∧
        (n : ℤ) = e - s + 1

/-- Both strings split at `-` into dates that lie as far apart as the days they name; an end
before the start counts as the same day here. -/
def SplitAsNamed (dto : CreateTimeOffRequestDto) : Prop :=
  ∃ s e s' e', splitDateUTC dto.startDate = some s ∧ splitDateUTC dto.endDate = some e ∧
    calendarDay named dto.startDate = some s' ∧ calendarDay named dto.endDate = some e' ∧
    max (e - s) 0 = (e' - s') * msPerDay

variable {named}

theorem daysTaken_calculate_iff {dto : CreateTimeOffRequestDto} :
    DaysTaken named dto (.ok (calculateDaysRequested dto.startDate dto.endDate)) ↔
      SplitAsNamed named dto := by
  constructor
  · intro h
    obtain ⟨⟨hs, he⟩, n, s', e', _, hdays, hs', he', hn⟩ := h
    obtain ⟨s, hs⟩ := Option.isSome_iff_exists.mp hs
    obtain ⟨e, he⟩ := Option.isSome_iff_exists.mp he
    obtain ⟨k, hk, hcalc⟩ := calculateDaysRequested_eq hs he
    have hkn : ((max k 0 + 1 : ℤ) : ℚ) = (n : ℚ) := Option.some.inj (hcalc.symm.trans hdays)
    -- the two counts are of whole numbers, so the casts do not matter
    have hkn' : max k 0 + 1 = (n : ℤ) := by exact_mod_cast hkn
    refine ⟨s, e, s', e', hs, he, hs', he', ?_⟩
    have hdiff : max k 0 = e' - s' := by omega
    rw [hk, ← hdiff]
    unfold msPerDay
    omega
  · intro h
    obtain ⟨s, e, s', e', hs, he, hs', he', hmax⟩ := h
    obtain ⟨k, hk, hcalc⟩ := calculateDaysRequested_eq hs he
    have hdiff : max k 0 = e' - s' := by
      rw [hk] at hmax
      unfold msPerDay at hmax
      omega
    refine ⟨⟨Option.isSome_iff_exists.mpr ⟨s, hs⟩, Option.isSome_iff_exists.mpr ⟨e, he⟩⟩,
      (max k 0 + 1).toNat, s', e', ?_, ?_, hs', he', ?_⟩
    · omega
    -- the count is positive, so it is a natural number
    · have hcast : (((max k 0 + 1).toNat : ℤ) : ℚ) = ((max k 0 + 1 : ℤ) : ℚ) := by
        congr 1
        omega
      rw [hcalc]
      congr 1
      exact hcast.symm
    · omega

theorem daysTaken_validateDates_iff (cfg : Config) (dto : CreateTimeOffRequestDto) (now : ℕ) :
    DaysTaken named dto (validateDates cfg dto now) ↔
      isNotInPast dto.startDate now = false ∨
        ltTime (parseMidnight cfg dto.endDate) (parseMidnight cfg dto.startDate) = true ∨
        SplitAsNamed named dto := by
  unfold validateDates
  -- the three answers of the validation
  cases hpast : isNotInPast dto.startDate now with
  | false =>
    refine ⟨fun _ => .inl rfl, fun _ => ?_⟩
    exact ⟨"startDate cannot be in the past", rfl⟩
  | true =>
    cases hlt : ltTime (parseMidnight cfg dto.endDate) (parseMidnight cfg dto.startDate) with
    | true =>
      refine ⟨fun _ => .inr (.inl rfl), fun _ => ?_⟩
      exact ⟨"endDate must be on or after startDate", rfl⟩
    | false =>
      refine Iff.trans daysTaken_calculate_iff ?_
      constructor
      · intro h
        exact .inr (.inr h)
      · intro h
        rcases h with h | h | h
        · cases h
        · cases h
        · exact h

/-- Plain dates from the year 100 on are charged as they are named, whatever the other strings
mean. -/
theorem plain_dates_taken (cfg : Config) {dto : CreateTimeOffRequestDto} {y m d y' m' d' : ℤ}
    (hs : plainDate dto.startDate = some (y, m, d)) (he : plainDate dto.endDate = some (y', m', d'))
    (hy : 100 ≤ y) (hy' : 100 ≤ y') (now : ℕ) :
    DaysTaken named dto (validateDates cfg dto now) := by
  -- from the year 100 on the parser and the constructor agree on the year
  have hyear : utcYear y = y := if_neg (by omega)
  have hyear' : utcYear y' = y' := if_neg (by omega)
  have hsplit := splitDateUTC_plain hs
  have hsplit' := splitDateUTC_plain he
  rw [hyear] at hsplit
  rw [hyear'] at hsplit'
  apply (daysTaken_validateDates_iff cfg dto now).mpr
  by_cases hlt : ltTime (parseMidnight cfg dto.endDate) (parseMidnight cfg dto.startDate) = true
  · exact .inr (.inl hlt)
  · refine .inr (.inr ⟨_, _, daysFromCivil y m d, daysFromCivil y' m' d', hsplit, hsplit',
      ?_, ?_, ?_⟩)
    · unfold calendarDay
      rw [hs]
    · unfold calendarDay
      rw [he]
    -- what is left is an end that is not before the start
    · rw [parseMidnight_plain hs, parseMidnight_plain he] at hlt
      have hle : ¬ daysFromCivil y' m' d' * msPerDay < daysFromCivil y m d * msPerDay := by
        simpa [ltTime] using hlt
      rw [← sub_mul]
      unfold msPerDay at hle ⊢
      omega

/-- The day that a date-time of January 2040 names. -/
def januaryDateTime (s : String) : Option ℤ :=
  if s = "2040-01-06T00:00:00Z" then some (daysFromCivil 2040 1 6) else none

end Days

end TimeOff
