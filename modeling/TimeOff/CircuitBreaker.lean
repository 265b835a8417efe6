import TimeOff.Transitions
import Mathlib.Data.Rat.Floor
import Mathlib.Algebra.Order.Ring.Rat
import Mathlib.Tactic.Linarith

/-! `CircuitBreaker`: the state that the calls share, and the runs of overlapping calls. A
call is admitted or refused at once and settles once, later: a result that comes after its
timeout is dropped. The source's `_halfOpenInFlight` is set in the constructor and read
nowhere. -/
namespace TimeOff

inductive CircuitState | closed | opened | halfOpen
deriving DecidableEq, Repr

structure CircuitOptions where
  name : String
  failureThreshold : ℕ
  cooldownMs : ℚ
deriving DecidableEq

structure CircuitBreaker where
  options : CircuitOptions
  state : CircuitState
  failureCount : ℕ
  openedAt : Option ℚ
  nextAttemptAt : Option ℚ
  successCount : ℕ
deriving DecidableEq

structure CircuitBreakerOpenError where
  circuitName : String
  cooldownRemainingMs : ℚ

def CircuitBreakerOpenError.message (e : CircuitBreakerOpenError) : String :=
  "CircuitBreaker [" ++ e.circuitName ++ "] is OPEN. Retry in " ++
    toString ⌈e.cooldownRemainingMs / 1000⌉ ++ "s."

/-- A number that a test for truth lets through. -/
def truthy : Option ℚ → Option ℚ
  | none => none
  | some x => if x = 0 then none else some x

/-- `Number(x.toFixed(digits))` of a number that is not negative: of two nearest the larger. -/
def toFixed (digits : ℕ) (x : ℚ) : ℚ := ⌊x * 10 ^ digits + 1 / 2⌋ / 10 ^ digits

namespace CircuitBreaker

def new (options : CircuitOptions) : CircuitBreaker :=
  ⟨options, .closed, 0, none, none, 0⟩

/-- The time from which `call` counts the cooldown. -/
def cooldownStart (b : CircuitBreaker) (now : ℚ) : ℚ :=
  match truthy b.openedAt with
  | some openedAt => openedAt
  | none =>
    match truthy b.nextAttemptAt with
    | some nextAttemptAt => nextAttemptAt - b.options.cooldownMs
    | none => now

def remaining (b : CircuitBreaker) (now : ℚ) : ℚ :=
  b.options.cooldownMs - (now - b.cooldownStart now)

/-- The part of `call` before its function runs. -/
def admission (b : CircuitBreaker) (now : ℚ) : Except CircuitBreakerOpenError CircuitBreaker :=
  if b.state = .opened then
    -- still cooling down: refused without a call; then this call is the probe
    if 0 < b.remaining now then .error ⟨b.options.name, b.remaining now⟩
    else .ok { b with state := .halfOpen }
  else .ok b

def onSuccess (b : CircuitBreaker) : CircuitBreaker :=
  -- the probe succeeded: everything but the successes starts over
  if b.state = .halfOpen then
    { b with
      state := .closed, failureCount := 0, openedAt := none, nextAttemptAt := none
      successCount := b.successCount + 1 }
  else { b with failureCount := 0, successCount := b.successCount + 1 }

def onFailure (b : CircuitBreaker) (now : ℚ) : CircuitBreaker :=
  -- a failed probe reopens at once, other failures when they reach the threshold
  if b.state = .halfOpen ∨ b.options.failureThreshold ≤ b.failureCount + 1 then
    { b with
      state := .opened, failureCount := b.failureCount + 1, openedAt := some now
      nextAttemptAt := some (now + b.options.cooldownMs) }
  else { b with failureCount := b.failureCount + 1 }

/-- The breaker counts its cooldown from `t`. -/
structure OpenSince (b : CircuitBreaker) (t : ℚ) : Prop where
  openedAt : b.openedAt = some t
  nextAttemptAt : b.nextAttemptAt = some (t + b.options.cooldownMs)

@[simp] theorem onSuccess_options (b : CircuitBreaker) : b.onSuccess.options = b.options := by
  unfold onSuccess
  split <;> rfl

@[simp] theorem onFailure_options (b : CircuitBreaker) (now : ℚ) :
    (b.onFailure now).options = b.options := by
  unfold onFailure
  split <;> rfl

/-- Also for an opening at time 0, which JavaScript takes for a missing one. -/
theorem OpenSince.remaining_eq {b : CircuitBreaker} {t now : ℚ} (h : b.OpenSince t)
    (hnow : t ≤ now) : b.remaining now ≤ 0 ↔ t + b.options.cooldownMs ≤ now := by
  -- an opening at time 0 falls through to the attempt time, which gives the same start
  have hstart : b.cooldownStart now = t ∨ t = 0 ∧ b.options.cooldownMs = 0 := by
    unfold cooldownStart
    rw [h.openedAt, h.nextAttemptAt]
    by_cases ht : t = 0
    · by_cases hc : b.options.cooldownMs = 0
      · exact .inr ⟨ht, hc⟩
      · left
        simp [truthy, ht, hc]
    · left
      simp [truthy, ht]
  unfold remaining
  rcases hstart with hs | ⟨ht, hc⟩
  · rw [hs]
    constructor <;> intro hle <;> linarith
  -- with no cooldown either, the start is now and nothing remains
  · have hs : b.cooldownStart now = now := by
      simp [cooldownStart, truthy, h.openedAt, h.nextAttemptAt, ht, hc]
    rw [hs, hc, ht]
    constructor
    · intro _
      linarith
    · intro _
      linarith

theorem admission_cases {b b' : CircuitBreaker} {now : ℚ} (h : b.admission now = .ok b') :
    (b.state = .opened ∧ b.remaining now ≤ 0 ∧ b' = { b with state := .halfOpen }) ∨
      (b.state ≠ .opened ∧ b' = b) := by
  unfold admission at h
  split at h
  · next ho =>
    split at h
    · cases h
    · next hr => exact .inl ⟨ho, not_lt.mp hr, (Except.ok.inj h).symm⟩
  · next ho => exact .inr ⟨ho, (Except.ok.inj h).symm⟩

theorem admission_of_not_opened {b : CircuitBreaker} (now : ℚ) (h : b.state ≠ .opened) :
    b.admission now = .ok b :=
  if_neg h

theorem onSuccess_state (b : CircuitBreaker) :
    b.onSuccess.state = if b.state = .halfOpen then .closed else b.state := by
  unfold onSuccess
  split <;> rfl

theorem onSuccess_failureCount (b : CircuitBreaker) : b.onSuccess.failureCount = 0 := by
  unfold onSuccess
  split <;> rfl

theorem onFailure_state (b : CircuitBreaker) (now : ℚ) :
    (b.onFailure now).state =
      if b.state = .halfOpen ∨ b.options.failureThreshold ≤ b.failureCount + 1 then .opened
      else b.state := by
  unfold onFailure
  split <;> rfl

theorem onFailure_failureCount (b : CircuitBreaker) (now : ℚ) :
    (b.onFailure now).failureCount = b.failureCount + 1 := by
  unfold onFailure
  split <;> rfl

theorem onSuccess_openSince {b : CircuitBreaker} {t : ℚ} (h : b.OpenSince t)
    (ho : b.state = .opened) : b.onSuccess.OpenSince t := by
  have hne : ¬ b.state = .halfOpen := by
    rw [ho]
    decide
  unfold onSuccess
  rw [if_neg hne]
  exact ⟨h.openedAt, h.nextAttemptAt⟩

/-- A failure opens the breaker now, or it only counts. -/
theorem onFailure_cases (b : CircuitBreaker) (now : ℚ) :
    ((b.onFailure now).state = .opened ∧ (b.onFailure now).OpenSince now) ∨
      (b.state ≠ .halfOpen ∧ b.onFailure now = { b with failureCount := b.failureCount + 1 }) := by
  by_cases h : b.state = .halfOpen ∨ b.options.failureThreshold ≤ b.failureCount + 1
  · left
    rw [onFailure, if_pos h]
    exact ⟨rfl, rfl, rfl⟩
  · right
    refine ⟨fun hh => h (.inl hh), ?_⟩
    rw [onFailure, if_neg h]

end CircuitBreaker

/-- The calls admitted and not yet settled are listed with the number of openings that
preceded their admission. -/
structure BreakerRun where
  breaker : CircuitBreaker
  now : ℚ
  openings : ℕ
  inFlight : List ℕ
deriving DecidableEq

inductive BreakerEvent
  | call
  | succeed (i : ℕ)
  | fail (i : ℕ)
  | elapse (now : ℚ)

namespace BreakerRun

def init (options : CircuitOptions) (now : ℚ) : BreakerRun :=
  ⟨.new options, now, 0, []⟩

/-- The `i`th call in flight settles and leaves the breaker at `b`. -/
def settle (r : BreakerRun) (i : ℕ) (b : CircuitBreaker) : Option BreakerRun :=
  if i < r.inFlight.length then
    some
      { r with
        breaker := b, inFlight := r.inFlight.eraseIdx i
        openings :=
          -- a late failure of a call admitted before an opening does not count as another one
          if r.breaker.state ≠ .opened ∧ b.state = .opened then r.openings + 1
          else r.openings }
  else none

def step (r : BreakerRun) : BreakerEvent → Option BreakerRun
  | .call =>
    match r.breaker.admission r.now with
    | .error _ => some r
    | .ok b => some { r with breaker := b, inFlight := r.inFlight ++ [r.openings] }
  | .succeed i => r.settle i r.breaker.onSuccess
  | .fail i => r.settle i (r.breaker.onFailure r.now)
  | .elapse t => if r.now ≤ t then some { r with now := t } else none

/-- A call made now would be admitted to run. -/
def Admits (r : BreakerRun) : Prop := ∃ b, r.breaker.admission r.now = .ok b

theorem settle_some {r r' : BreakerRun} {i : ℕ} {b : CircuitBreaker}
    (h : r.settle i b = some r') :
    ∃ g, r.inFlight[i]? = some g ∧ r'.breaker = b ∧ r'.now = r.now ∧
      r'.inFlight = r.inFlight.eraseIdx i ∧
      r'.openings =
        if r.breaker.state ≠ .opened ∧ b.state = .opened then r.openings + 1
        else r.openings := by
  unfold settle at h
  split at h
  -- the position is in range: the call is one in flight
  · next hi =>
    obtain rfl := Option.some.inj h
    exact ⟨r.inFlight[i], List.getElem?_eq_getElem hi, rfl, rfl, rfl, rfl⟩
  · cases h

theorem step_call {r r' : BreakerRun} (h : r.step .call = some r') :
    r' = r ∧ ¬ r.Admits ∨
      ∃ b, r.breaker.admission r.now = .ok b ∧
        r' = { r with breaker := b, inFlight := r.inFlight ++ [r.openings] } := by
  dsimp only [step] at h
  cases hb : r.breaker.admission r.now with
  | error e =>
    rw [hb] at h
    refine .inl ⟨(Option.some.inj h).symm, ?_⟩
    intro hadm
    obtain ⟨b, hb'⟩ := hadm
    rw [hb] at hb'
    cases hb'
  | ok b =>
    rw [hb] at h
    exact .inr ⟨b, rfl, (Option.some.inj h).symm⟩

theorem step_elapse {r r' : BreakerRun} {t : ℚ} (h : r.step (.elapse t) = some r') :
    r.now ≤ t ∧ r' = { r with now := t } := by
  obtain ⟨ht, h⟩ := Option.ite_none_right_eq_some.mp h
  exact ⟨ht, (Option.some.inj h).symm⟩

theorem step_elapse_eq {r : BreakerRun} {t : ℚ} (h : r.now ≤ t) :
    r.step (.elapse t) = some { r with now := t } :=
  if_pos h

end BreakerRun

end TimeOff
