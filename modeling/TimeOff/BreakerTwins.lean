import TimeOff.CircuitBreaker

/-! The two circuit breakers of the service: `CircuitBreaker`, which wraps its calls, and
`CircuitBreakerStateMachine`, which is asked before a call and told after it. Driven by the
same attempts, one after the other, they cannot be told apart. -/
namespace TimeOff

open Transitions

structure CircuitBreakerStateMachine where
  failureThreshold : ℕ
  cooldownMs : ℚ
  state : CircuitState
  failureCount : ℕ
  lastStateChange : ℚ
deriving DecidableEq

namespace CircuitBreakerStateMachine

/-- A missing option and one of 0 get the default. -/
def new (failureThreshold : Option ℕ) (cooldownMs : Option ℚ) (now : ℚ) :
    CircuitBreakerStateMachine where
  failureThreshold :=
    match failureThreshold with
    | some (n + 1) => n + 1
    | _ => 3
  cooldownMs := (truthy cooldownMs).getD 5000
  state := .closed
  failureCount := 0
  lastStateChange := now

/-- `getState` moves the machine, and the new state is its answer. -/
def getState (m : CircuitBreakerStateMachine) (now : ℚ) : CircuitBreakerStateMachine :=
  if m.state = .opened ∧ m.cooldownMs ≤ now - m.lastStateChange then
    { m with state := .halfOpen, lastStateChange := now }
  else m

def recordSuccess (m : CircuitBreakerStateMachine) (now : ℚ) : CircuitBreakerStateMachine :=
  { m with failureCount := 0, state := .closed, lastStateChange := now }

def recordFailure (m : CircuitBreakerStateMachine) (now : ℚ) : CircuitBreakerStateMachine :=
  if m.failureThreshold ≤ m.failureCount + 1 ∨ m.state = .halfOpen then
    { m with failureCount := m.failureCount + 1, state := .opened, lastStateChange := now }
  else { m with failureCount := m.failureCount + 1 }

def canExecute (m : CircuitBreakerStateMachine) (now : ℚ) :
    Bool × CircuitBreakerStateMachine :=
  ((m.getState now).state ≠ .opened, m.getState now)

end CircuitBreakerStateMachine

/-- An attempt asks for admission at one time and, if it is admitted, ends at another. -/
structure Attempt where
  time : ℚ
  succeeds : Bool
  settledAt : ℚ

/-- What is seen of a breaker after an attempt. -/
structure Sighting where
  admitted : Bool
  state : CircuitState
  failureCount : ℕ
deriving DecidableEq

/-- An attempt driven through `call`. The breaker is paired with the time it was last used
at, and time does not go back. -/
def CircuitBreaker.attempt (s : CircuitBreaker × ℚ) (a : Attempt) :
    Option (Sighting × CircuitBreaker × ℚ) :=
  if s.2 ≤ a.time then
    match s.1.admission a.time with
    | .error _ => some (⟨false, s.1.state, s.1.failureCount⟩, s.1, a.time)
    | .ok b =>
      if a.time ≤ a.settledAt then
        let b' := if a.succeeds then b.onSuccess else b.onFailure a.settledAt
        some (⟨true, b'.state, b'.failureCount⟩, b', a.settledAt)
      else none
  else none

/-- The same attempt driven through `canExecute` and the record of its outcome. -/
def CircuitBreakerStateMachine.attempt (s : CircuitBreakerStateMachine × ℚ) (a : Attempt) :
    Option (Sighting × CircuitBreakerStateMachine × ℚ) :=
  if s.2 ≤ a.time then
    let m := (s.1.canExecute a.time).2
    if (s.1.canExecute a.time).1 then
      if a.time ≤ a.settledAt then
        let m' := if a.succeeds then m.recordSuccess a.settledAt
          else m.recordFailure a.settledAt
        some (⟨true, m'.state, m'.failureCount⟩, m', a.settledAt)
      else none
    else some (⟨false, m.state, m.failureCount⟩, m, a.time)
  else none

/-- A breaker and a machine in step: while they are open, both count the cooldown from the
machine's last change. -/
structure Twins (b : CircuitBreaker) (m : CircuitBreakerStateMachine) : Prop where
  failureThreshold : m.failureThreshold = b.options.failureThreshold
  cooldownMs : m.cooldownMs = b.options.cooldownMs
  state : m.state = b.state
  failureCount : m.failureCount = b.failureCount
  openSince : b.state = .opened → b.OpenSince m.lastStateChange

section Steps

variable {b b' : CircuitBreaker} {m : CircuitBreakerStateMachine} {now t : ℚ}

theorem Twins.admitted (h : Twins b m) (hpast : b.state = .opened → m.lastStateChange ≤ t)
    (hb : b.admission t = .ok b') :
    (m.canExecute t).1 = true ∧ Twins b' (m.canExecute t).2 ∧ b'.state ≠ .opened := by
  -- the breaker half-opens after the cooldown, or is not open
  rcases CircuitBreaker.admission_cases hb with ⟨ho, hrem, rfl⟩ | ⟨hne, rfl⟩
  · have hcool : m.lastStateChange + b.options.cooldownMs ≤ t :=
      ((h.openSince ho).remaining_eq (hpast ho)).mp hrem
    -- the twin half-opens when its state is read
    have hmove : m.getState t = { m with state := .halfOpen, lastStateChange := t } := by
      apply if_pos
      rw [h.state, h.cooldownMs]
      exact ⟨ho, by linarith⟩
    have hhalf : CircuitState.halfOpen ≠ .opened := by decide
    simp only [CircuitBreakerStateMachine.canExecute, hmove]
    refine ⟨rfl, ⟨h.failureThreshold, h.cooldownMs, rfl, h.failureCount, ?_⟩, hhalf⟩
    intro hs
    exact absurd hs hhalf
  -- the reading changes nothing
  · have hstay : m.getState t = m := by
      apply if_neg
      rw [h.state]
      exact fun hs => hne hs.1
    simp only [CircuitBreakerStateMachine.canExecute, hstay]
    rw [h.state]
    exact ⟨decide_eq_true hne, h, hne⟩

theorem Twins.refused (h : Twins b m) (hpast : b.state = .opened → m.lastStateChange ≤ t)
    {e : CircuitBreakerOpenError} (hb : b.admission t = .error e) :
    (m.canExecute t).1 = false ∧ (m.canExecute t).2 = m := by
  unfold CircuitBreaker.admission at hb
  split at hb
  · next ho =>
    split at hb
    · next hrem =>
      -- the cooldown is not over for the twin either
      have hcool : ¬ m.lastStateChange + b.options.cooldownMs ≤ t := by
        intro hle
        exact absurd (((h.openSince ho).remaining_eq (hpast ho)).mpr hle) (not_le.mpr hrem)
      have hstay : m.getState t = m := by
        apply if_neg
        rw [h.cooldownMs]
        intro hs
        apply hcool
        linarith [hs.2]
      have hstate : m.state = .opened := h.state.trans ho
      simp only [CircuitBreakerStateMachine.canExecute, hstay, hstate]
      exact ⟨rfl, trivial⟩
    · cases hb
  · cases hb

theorem Twins.succeeded (h : Twins b m) (now : ℚ) (hne : b.state ≠ .opened) :
    Twins b.onSuccess (m.recordSuccess now) := by
  -- a success closes the breaker from both states that admit a call
  have hclosed : b.onSuccess.state = .closed := by
    rw [CircuitBreaker.onSuccess_state]
    split
    · rfl
    · next hh =>
      cases hs : b.state with
      | closed => rfl
      | opened => exact absurd hs hne
      | halfOpen => exact absurd hs hh
  refine ⟨?_, ?_, hclosed.symm, b.onSuccess_failureCount.symm, ?_⟩
  · rw [CircuitBreaker.onSuccess_options]
    exact h.failureThreshold
  · rw [CircuitBreaker.onSuccess_options]
    exact h.cooldownMs
  · intro ho
    rw [hclosed] at ho
    cases ho

theorem Twins.failed (h : Twins b m) (now : ℚ) (hne : b.state ≠ .opened) :
    Twins (b.onFailure now) (m.recordFailure now) ∧
      ((b.onFailure now).state = .opened → (m.recordFailure now).lastStateChange = now) := by
  -- the two test the same condition, the other way round
  have hsame : (m.failureThreshold ≤ m.failureCount + 1 ∨ m.state = .halfOpen) ↔
      (b.state = .halfOpen ∨ b.options.failureThreshold ≤ b.failureCount + 1) := by
    rw [h.failureThreshold, h.failureCount, h.state]
    exact or_comm
  have hcount : m.failureCount + 1 = b.failureCount + 1 := congrArg (· + 1) h.failureCount
  by_cases hopens : b.state = .halfOpen ∨ b.options.failureThreshold ≤ b.failureCount + 1
  · rw [CircuitBreaker.onFailure, if_pos hopens, CircuitBreakerStateMachine.recordFailure,
      if_pos (hsame.mpr hopens)]
    exact ⟨⟨h.failureThreshold, h.cooldownMs, rfl, hcount, fun _ => ⟨rfl, rfl⟩⟩, fun _ => rfl⟩
  · rw [CircuitBreaker.onFailure, if_neg hopens, CircuitBreakerStateMachine.recordFailure,
      if_neg fun hs => hopens (hsame.mp hs)]
    refine ⟨⟨h.failureThreshold, h.cooldownMs, h.state, hcount, ?_⟩, ?_⟩
    · intro ho
      exact absurd ho hne
    · intro ho
      exact absurd ho hne

end Steps

/-- Twins that were used last at the same time, not before the cooldown of an open one
began. -/
def InStepAt (s : CircuitBreaker × ℚ) (t : CircuitBreakerStateMachine × ℚ) : Prop :=
  Twins s.1 t.1 ∧ s.2 = t.2 ∧ (s.1.state = .opened → t.1.lastStateChange ≤ s.2)

theorem InStepAt.attempt {s : CircuitBreaker × ℚ} {t : CircuitBreakerStateMachine × ℚ}
    (h : InStepAt s t) (a : Attempt) :
    Option.Rel (fun p q => p.1 = q.1 ∧ InStepAt p.2 q.2) (CircuitBreaker.attempt s a)
      (CircuitBreakerStateMachine.attempt t a) := by
  obtain ⟨b, now⟩ := s
  obtain ⟨m, now'⟩ := t
  obtain ⟨htwins, rfl, hpast⟩ := h
  unfold CircuitBreaker.attempt CircuitBreakerStateMachine.attempt
  by_cases htime : now ≤ a.time
  · rw [if_pos htime, if_pos htime]
    -- the cooldown has begun by the time of the attempt, as time does not go back
    have hbefore : b.state = .opened → m.lastStateChange ≤ a.time :=
      fun ho => (hpast ho).trans htime
    cases hb : b.admission a.time with
    | error e =>
      obtain ⟨hrefused, hstay⟩ := htwins.refused hbefore hb
      simp only [hrefused, hstay, Bool.false_eq_true, if_false]
      apply Option.Rel.some
      refine ⟨?_, htwins, rfl, hbefore⟩
      rw [htwins.state, htwins.failureCount]
    | ok b' =>
      obtain ⟨hadmitted, htwins', hne⟩ := htwins.admitted hbefore hb
      simp only [hadmitted, if_true]
      -- admitted by both, which hear of the same outcome unless it lies before the attempt
      split
      · apply Option.Rel.some
        cases a.succeeds with
        | true =>
          have hs := htwins'.succeeded a.settledAt hne
          refine ⟨?_, hs, rfl, fun _ => le_rfl⟩
          show Sighting.mk _ _ _ = Sighting.mk _ _ _
          simp only [if_true, hs.state, hs.failureCount]
        | false =>
          obtain ⟨hs, hchange⟩ := htwins'.failed a.settledAt hne
          refine ⟨?_, hs, rfl, fun ho => (hchange ho).le⟩
          show Sighting.mk _ _ _ = Sighting.mk _ _ _
          simp only [Bool.false_eq_true, if_false, hs.state, hs.failureCount]
      · exact Option.Rel.none
  · rw [if_neg htime, if_neg htime]
    exact Option.Rel.none

theorem inStepAt_new (name : String) {failureThreshold : ℕ} {cooldownMs : ℚ}
    (hthreshold : 1 ≤ failureThreshold) (hcooldown : 1 ≤ cooldownMs) (start : ℚ) :
    InStepAt (.new ⟨name, failureThreshold, cooldownMs⟩, start)
      (.new (some failureThreshold) (some cooldownMs) start, start) := by
  refine ⟨⟨?_, ?_, rfl, rfl, fun ho => nomatch ho⟩, rfl, fun ho => nomatch ho⟩
  · cases failureThreshold with
    | zero => exact absurd hthreshold (by decide)
    | succ n => rfl
  -- `||` puts the default in place of zero only
  · have hne : cooldownMs ≠ 0 := by
      rintro rfl
      exact absurd hcooldown (by decide +kernel)
    show (truthy (some cooldownMs)).getD 5000 = cooldownMs
    simp [truthy, hne]

/-- Over every timeline of attempts the two breakers admit the same ones, and after each of
them are in the same state with the same failure count. -/
theorem breakers_are_twins (name : String) (failureThreshold : ℕ) (cooldownMs : ℚ)
    (hthreshold : 1 ≤ failureThreshold) (hcooldown : 1 ≤ cooldownMs) (start : ℚ)
    (attempts : List Attempt) :
    outputs CircuitBreaker.attempt (.new ⟨name, failureThreshold, cooldownMs⟩, start)
        attempts =
      outputs CircuitBreakerStateMachine.attempt
        (.new (some failureThreshold) (some cooldownMs) start, start) attempts := by
  apply outputs_eq (R := InStepAt)
  · intro s t a h
    exact h.attempt a
  · exact inStepAt_new name hthreshold hcooldown start

/-- One failure opens them at time 0; the attempt at 5 is refused, the one at 10 probes. -/
theorem reopened_alike :
    outputs CircuitBreaker.attempt (.new ⟨"HCM", 1, 10⟩, 0)
        [⟨0, false, 0⟩, ⟨5, true, 5⟩, ⟨10, false, 12⟩] =
      some [⟨true, .opened, 1⟩, ⟨false, .opened, 1⟩, ⟨true, .opened, 2⟩] ∧
    outputs CircuitBreaker.attempt (.new ⟨"HCM", 1, 10⟩, 0)
        [⟨0, false, 0⟩, ⟨5, true, 5⟩, ⟨10, false, 12⟩] =
      outputs CircuitBreakerStateMachine.attempt (.new (some 1) (some 10) 0, 0)
        [⟨0, false, 0⟩, ⟨5, true, 5⟩, ⟨10, false, 12⟩] :=
  ⟨by decide +kernel, breakers_are_twins "HCM" 1 10 (by decide) (by decide +kernel) 0 _⟩

end TimeOff
