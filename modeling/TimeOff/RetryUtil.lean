import TimeOff.AsyncEval
import TimeOff.HcmService
import Mathlib.Order.Bounds.Basic
import Mathlib.Data.Rat.Floor
import Mathlib.Tactic.Linarith
import Mathlib.Tactic.Positivity

/-! The two retry loops, `withRetry` and `retryWithBackoff`, over what they await: the calls of
`fn`, the waits, and the random numbers of the jitter. -/
namespace TimeOff

namespace RetryUtil

open Async

section Errors

/-- The `status` of a reply, as `===` and as `>=` and `<` see it. -/
structure ReplyStatus where
  /-- The number that it is. -/
  number : Num
  /-- The number that it converts to. -/
  converted : Num

/-- A thrown object; `rest` is what the loops do not look at. -/
structure ErrorObject (ρ : Type) where
  code : Option String
  /-- The status of the `response`, if there is one. -/
  response : Option ReplyStatus
  rest : ρ

def isRetryable {ρ : Type} (error : ErrorObject ρ) : Bool :=
  if error.code = some "CIRCUIT_OPEN" ∨ error.code = some "CIRCUIT_HALF_OPEN" then false
  else
    match error.response with
    | some status =>
      if status.number = some 429 ∨ status.number = some 408 then true
      else if Num.le (some 400) status.converted && Num.lt status.converted (some 500) then false
      else true
    | none => true

/-- What the HCM client throws, as an error object. -/
def hcmErrorObject : HcmError → ErrorObject Unit
  | .circuitOpen => ⟨some "CIRCUIT_OPEN", none, ()⟩
  | .response status => ⟨none, some ⟨some status, some status⟩, ()⟩
  | .noResponse => ⟨none, none, ()⟩

theorem isRetryable_hcm (e : HcmError) :
    isRetryable (hcmErrorObject e) = TimeOff.isRetryable (.hcm e) := by
  cases e with
  | circuitOpen => rfl
  | noResponse => rfl
  | response status =>
    have hcast (n : ℕ) : (some (status : ℚ) : Num) = some (n : ℚ) ↔ status = n := by
      rw [Option.some.injEq, Nat.cast_inj]
    have h429 := hcast 429
    have h408 := hcast 408
    have hlo : ((400 : ℚ) ≤ status) ↔ 400 ≤ status := by exact_mod_cast Iff.rfl
    have hhi : ((status : ℚ) < 500) ↔ status < 500 := by exact_mod_cast Iff.rfl
    simp only [isRetryable, hcmErrorObject, TimeOff.isRetryable, Num.le, Num.lt]
    push_cast at h429 h408
    simp only [h429, h408, hlo, hhi]
    simp

end Errors

variable {ρ α : Type}

/-- What the loops await or ask for. A wait is the delay asked of `setTimeout`, which keeps it to
the millisecond from 1 to 2147483647. -/
inductive RetryOp (ρ : Type) where
  | call (attempt : Option ℕ)
  | random
  | onRetry (error : ErrorObject ρ) (attempt : ℕ)
  | sleep (ms : ℚ)

/-- A call answers with how it has settled. -/
@[reducible] def RetryOp.Resp (α : Type) : RetryOp ρ → Type
  | .call _ => Except (ErrorObject ρ) α
  | .random => ℚ
  | .onRetry _ _ => Unit
  | .sleep _ => Unit

/-- A loop throws an error of `fn`, or `undefined` for want of one. -/
abbrev Retry (ρ α : Type) := Prog (RetryOp ρ) (RetryOp.Resp α) (Option (ErrorObject ρ))

section Loops

/-- How a call of `fn` settles, which the `try` around it tells apart. -/
def callFn (attempt : Option ℕ) : Retry ρ α (Except (ErrorObject ρ) α) :=
  Prog.perform (RetryOp.call attempt)

/-- `none` is `undefined`; `onRetry` says whether there is a callback. -/
structure RetryOptions where
  maxAttempts : Option ℕ := none
  baseDelayMs : Option ℚ := none
  maxDelayMs : Option ℚ := none
  jitter : Option Bool := none
  onRetry : Bool := false

def RetryOptions.cappedDelay (options : RetryOptions) (attempt : ℕ) : ℚ :=
  let exponentialDelay := options.baseDelayMs.getD 1000 * 2 ^ (attempt - 1)
  min exponentialDelay (options.maxDelayMs.getD 10000)

def RetryOptions.actualDelay (options : RetryOptions) (attempt : ℕ) : Retry ρ α ℚ :=
  if options.jitter.getD true then
    (Prog.perform .random).bind fun r =>
      pure (options.cappedDelay attempt * (1 / 2 + r * (1 / 2)))
  else pure (options.cappedDelay attempt)

/-- The loop from turn `attempt` on, with `left` turns up to `maxAttempts`. -/
def withRetryFrom (options : RetryOptions) (lastError : Option (ErrorObject ρ)) (attempt : ℕ) :
    ℕ → Retry ρ α α
  | 0 => Prog.throw lastError
  | left + 1 =>
    (callFn (some attempt)).bind fun
      | .ok value => pure value
      | .error error =>
        if attempt = options.maxAttempts.getD 3 || !isRetryable error then
          Prog.throw (some error)
        else
          (options.actualDelay attempt).bind fun actualDelay =>
            (if options.onRetry then Prog.perform (.onRetry error attempt) else pure ()).bind
              fun _ => (Prog.perform (.sleep actualDelay)).bind
                fun _ => withRetryFrom options (some error) (attempt + 1) left

def withRetry (options : RetryOptions) : Retry ρ α α :=
  withRetryFrom options none 1 (options.maxAttempts.getD 3)

structure BackoffOptions (ρ : Type) where
  maxAttempts : Option ℕ := none
  initialDelayMs : Option ℚ := none
  backoffFactor : Option ℚ := none
  maxDelayMs : Option ℚ := none
  shouldRetry : Option (ErrorObject ρ → Bool) := none

/-- `x || fallback` for a number. -/
def orElse {β : Type} [Zero β] [DecidableEq β] (x : Option β) (fallback : β) : β :=
  match x with
  | some v => if v = 0 then fallback else v
  | none => fallback

/-- The wait after call `attempt`, for the random number `r`. -/
def BackoffOptions.jitterDelay (options : BackoffOptions ρ) (attempt : ℕ) (r : ℚ) : ℚ :=
  let baseDelay := min (orElse options.maxDelayMs 5000)
    (orElse options.initialDelayMs 100 * orElse options.backoffFactor 2 ^ (attempt - 1))
  ⌊r * baseDelay⌋

/-- The loop after `attempt` turns, with `left` more up to `maxAttempts`. -/
def retryWithBackoffFrom (options : BackoffOptions ρ) (lastError : Option (ErrorObject ρ))
    (attempt : ℕ) : ℕ → Retry ρ α α
  | 0 => Prog.throw lastError
  | left + 1 =>
    let attempt := attempt + 1
    (callFn none).bind fun
      | .ok value => pure value
      | .error err =>
        if orElse options.maxAttempts 3 ≤ attempt ||
            !(options.shouldRetry.getD fun _ => true) err then
          Prog.throw (some err)
        else
          (Prog.perform .random).bind fun r =>
            (Prog.perform (.sleep (options.jitterDelay attempt r))).bind
              fun _ => retryWithBackoffFrom options (some err) attempt left

def retryWithBackoff (options : BackoffOptions ρ) : Retry ρ α α :=
  retryWithBackoffFrom options none 0 (orElse options.maxAttempts 3)

end Loops

section Runs

inductive RetryStep where
  | called
  | waited (ms : ℚ)
deriving DecidableEq

structure RetryRun where
  calls : ℕ
  draws : ℕ
  log : List RetryStep
deriving DecidableEq

namespace RetryRun

def start : RetryRun := ⟨0, 0, []⟩

def call (s : RetryRun) : RetryRun := { s with calls := s.calls + 1, log := s.log ++ [.called] }

def draw (s : RetryRun) : RetryRun := { s with draws := s.draws + 1 }

def wait (s : RetryRun) (ms : ℚ) : RetryRun := { s with log := s.log ++ [.waited ms] }

end RetryRun

/-- The `n`th call has the outcome `outcomes n`, counted from 1; callbacks return. -/
def exec (outcomes : ℕ → Except (ErrorObject ρ) α) (random : ℕ → ℚ) : (o : RetryOp ρ) →
    RetryRun → Option (Except (Option (ErrorObject ρ)) (RetryOp.Resp α o) × RetryRun)
  | .call _, s => some (.ok (outcomes (s.calls + 1)), s.call)
  | .random, s => some (.ok (random s.draws), s.draw)
  | .onRetry _ _, s => some (.ok (), s)
  | .sleep ms, s => some (.ok (), s.wait ms)

/-- An outcome after which nothing is retried. -/
def Final : Except (ErrorObject ρ) α → Prop
  | .ok _ => True
  | .error e => isRetryable e = false

/-- The calls after the `n`th at which the loop may stop. -/
def stops (outcomes : ℕ → Except (ErrorObject ρ) α) (maxAttempts n : ℕ) : Set ℕ :=
  {i | n < i ∧ (i = maxAttempts ∨ Final (outcomes i))}

/-- Calls with one wait between each and the next. -/
def trace : List ℚ → List RetryStep
  | [] => [.called]
  | ms :: rest => .called :: .waited ms :: trace rest

variable (outcomes : ℕ → Except (ErrorObject ρ) α) (maxAttempts : ℕ) (bound : ℕ → ℚ → Prop)

/-- From `s` on the loop calls up to the first call at which it stops, waits in between, and
settles as that call has. -/
def Ends (s : RetryRun)
    (r : Option (Except (Option (ErrorObject ρ)) α × RetryRun)) : Prop :=
  ∃ k waits s', IsLeast (stops outcomes maxAttempts s.calls) k ∧
    r = some ((outcomes k).mapError some, s') ∧ s'.calls = k ∧ s'.log = s.log ++ trace waits ∧
    s.calls + waits.length + 1 = k ∧
    ∀ i ms, waits[i]? = some ms → bound (s.calls + 1 + i) ms

variable {outcomes maxAttempts bound} {s s₁ : RetryRun}
  {r : Option (Except (Option (ErrorObject ρ)) α × RetryRun)}

theorem Ends.stop (h : s.calls + 1 = maxAttempts ∨ Final (outcomes (s.calls + 1)))
    (hr : r = some ((outcomes (s.calls + 1)).mapError some, s.call)) :
    Ends outcomes maxAttempts bound s r := by
  refine ⟨s.calls + 1, [], s.call, ⟨⟨Nat.lt_succ_self _, h⟩, ?_⟩, hr, rfl, rfl, rfl, ?_⟩
  · intro i hi
    exact hi.1
  · intro i ms hi
    cases hi

theorem Ends.of_ok {value : α} (hout : outcomes (s.calls + 1) = .ok value) :
    Ends outcomes maxAttempts bound s (some (.ok value, s.call)) := by
  apply Ends.stop
  · right
    rw [hout]
    exact trivial
  · rw [hout]
    rfl

theorem Ends.of_error {error : ErrorObject ρ} (hout : outcomes (s.calls + 1) = .error error)
    (h : s.calls + 1 = maxAttempts ∨ isRetryable error = false) :
    Ends outcomes maxAttempts bound s (some (.error (some error), s.call)) := by
  apply Ends.stop
  · rw [hout]
    exact h
  · rw [hout]
    rfl

theorem Ends.again {ms : ℚ} (hmax : s.calls + 1 ≠ maxAttempts)
    (hfinal : ¬ Final (outcomes (s.calls + 1))) (hbound : bound (s.calls + 1) ms)
    (hcalls : s₁.calls = s.calls + 1) (hlog : s₁.log = s.log ++ [.called, .waited ms])
    (h : Ends outcomes maxAttempts bound s₁ r) : Ends outcomes maxAttempts bound s r := by
  obtain ⟨k, waits, s', ⟨⟨hlt, hstop⟩, hleast⟩, hr, hk, hlog', hlength, hbounds⟩ := h
  rw [hcalls] at hlt hleast hlength hbounds
  refine ⟨k, ms :: waits, s', ⟨⟨by omega, hstop⟩, ?_⟩, hr, hk, ?_, ?_, ?_⟩
  · intro i hi
    -- the call just made is not one to stop at
    have hne : i ≠ s.calls + 1 := by
      intro heq
      subst heq
      exact hi.2.elim hmax hfinal
    have hgt : s.calls < i := hi.1
    exact hleast ⟨by omega, hi.2⟩
  · rw [hlog', hlog, List.append_assoc]
    rfl
  · rw [List.length_cons]
    omega
  · intro i ms' hi
    cases i with
    | zero =>
      obtain rfl : ms = ms' := Option.some.inj hi
      exact hbound
    | succ i =>
      have hrest := hbounds i ms' hi
      have hindex : s.calls + 1 + (i + 1) = s.calls + 1 + 1 + i := by omega
      rw [hindex]
      exact hrest

end Runs

section Agreement

variable {outcomes : ℕ → Except (ErrorObject ρ) α} {random : ℕ → ℚ}

theorem eval_callFn (attempt : Option ℕ) (s : RetryRun) :
    (callFn attempt : Retry ρ α _).eval (exec outcomes random) s =
      some (.ok (outcomes (s.calls + 1)), s.call) :=
  Prog.eval_perform rfl

theorem eval_random (s : RetryRun) :
    (Prog.perform RetryOp.random : Retry ρ α ℚ).eval (exec outcomes random) s =
      some (.ok (random s.draws), s.draw) :=
  Prog.eval_perform (o := RetryOp.random) rfl

theorem eval_sleep (ms : ℚ) (s : RetryRun) :
    (Prog.perform (RetryOp.sleep ms) : Retry ρ α Unit).eval (exec outcomes random) s =
      some (.ok (), s.wait ms) :=
  Prog.eval_perform (o := RetryOp.sleep ms) rfl

theorem eval_onRetry (options : RetryOptions) (error : ErrorObject ρ) (attempt : ℕ)
    (s : RetryRun) :
    (if options.onRetry then Prog.perform (RetryOp.onRetry error attempt)
      else pure () : Retry ρ α Unit).eval (exec outcomes random) s = some (.ok (), s) := by
  split <;> rfl

/-- The jitter leaves at least half of the delay, and no more than all of it. -/
theorem eval_actualDelay {options : RetryOptions} {attempt : ℕ}
    (hcapped : 0 ≤ options.cappedDelay attempt) (hrandom : ∀ n, 0 ≤ random n ∧ random n < 1)
    (s : RetryRun) : ∃ ms s₁, (options.actualDelay attempt : Retry ρ α ℚ).eval
        (exec outcomes random) s = some (.ok ms, s₁) ∧
      (s₁.calls = s.calls ∧ s₁.log = s.log) ∧
      options.cappedDelay attempt / 2 ≤ ms ∧ ms ≤ options.cappedDelay attempt := by
  unfold RetryOptions.actualDelay
  by_cases hjitter : options.jitter.getD true
  · obtain ⟨h0, h1⟩ := hrandom s.draws
    rw [if_pos hjitter]
    refine ⟨_, s.draw, rfl, ⟨rfl, rfl⟩, ?_, ?_⟩
    · nlinarith
    · nlinarith
  · rw [if_neg hjitter]
    refine ⟨_, s, rfl, ⟨rfl, rfl⟩, ?_, ?_⟩
    · linarith
    · exact le_refl _

variable (outcomes) in
theorem withRetryFrom_ends {options : RetryOptions} (hrandom : ∀ n, 0 ≤ random n ∧ random n < 1)
    (hcapped : ∀ attempt, 0 ≤ options.cappedDelay attempt) {left : ℕ} {s : RetryRun}
    (hleft : s.calls + left = options.maxAttempts.getD 3) (hpos : 0 < left)
    (lastError : Option (ErrorObject ρ)) :
    Ends outcomes (options.maxAttempts.getD 3)
      (fun i ms => options.cappedDelay i / 2 ≤ ms ∧ ms ≤ options.cappedDelay i) s
      ((withRetryFrom options lastError (s.calls + 1) left : Retry ρ α α).eval
        (exec outcomes random) s) := by
  induction left generalizing s lastError with
  | zero => exact absurd hpos (Nat.lt_irrefl _)
  | succ left ih =>
    unfold withRetryFrom
    rw [Prog.eval_bind_ok (eval_callFn _ s)]
    cases hout : outcomes (s.calls + 1) with
    | ok value =>
      exact Ends.of_ok hout
    | error error =>
      dsimp only
      by_cases hstop : s.calls + 1 = options.maxAttempts.getD 3 ∨ isRetryable error = false
      · rw [if_pos (by simpa using hstop)]
        exact Ends.of_error hout hstop
      · rw [if_neg (by simpa using hstop)]
        obtain ⟨hmax, hretry⟩ := not_or.mp hstop
        obtain ⟨ms, s₁, hms, ⟨hcalls, hlog⟩, hbound⟩ :=
          eval_actualDelay (hcapped (s.calls + 1)) hrandom s.call
        rw [Prog.eval_bind_ok hms]
        rw [Prog.eval_bind_ok (eval_onRetry options error _ s₁),
          Prog.eval_bind_ok (eval_sleep ms s₁)]
        have hcalls' : (s₁.wait ms).calls = s.calls + 1 := hcalls
        have hlog' : (s₁.wait ms).log = s.log ++ [.called, .waited ms] := by
          change s₁.log ++ [.waited ms] = _
          rw [hlog]
          exact List.append_assoc _ _ _
        have hrest := ih (s := s₁.wait ms) (by omega) (by omega) (some error)
        rw [hcalls'] at hrest
        refine Ends.again hmax ?_ hbound hcalls' hlog' hrest
        rw [hout]
        exact hretry

variable (outcomes random) in
theorem retryWithBackoffFrom_ends {options : BackoffOptions ρ}
    (hretry : options.shouldRetry = some isRetryable) {left : ℕ} {s : RetryRun}
    (hleft : s.calls + left = orElse options.maxAttempts 3) (hpos : 0 < left)
    (lastError : Option (ErrorObject ρ)) :
    Ends outcomes (orElse options.maxAttempts 3) (fun _ _ => True) s
      ((retryWithBackoffFrom options lastError s.calls left : Retry ρ α α).eval
        (exec outcomes random) s) := by
  induction left generalizing s lastError with
  | zero => exact absurd hpos (Nat.lt_irrefl _)
  | succ left ih =>
    unfold retryWithBackoffFrom
    dsimp only
    rw [Prog.eval_bind_ok (eval_callFn _ s)]
    cases hout : outcomes (s.calls + 1) with
    | ok value =>
      exact Ends.of_ok hout
    | error err =>
      dsimp only
      rw [hretry, Option.getD_some]
      -- `attempt >= maxAttempts` holds at `maxAttempts` for the first time
      by_cases hstop : s.calls + 1 = orElse options.maxAttempts 3 ∨ isRetryable err = false
      · have hcond : orElse options.maxAttempts 3 ≤ s.calls + 1 ∨ isRetryable err = false :=
          hstop.imp_left fun h => by omega
        rw [if_pos (by simpa using hcond)]
        exact Ends.of_error hout hstop
      · obtain ⟨hmax, hnot⟩ := not_or.mp hstop
        have hcond : ¬ (orElse options.maxAttempts 3 ≤ s.calls + 1 ∨ isRetryable err = false) := by
          intro h
          rcases h with h | h
          · omega
          · exact hnot h
        rw [if_neg (by simpa using hcond), Prog.eval_bind_ok (eval_random s.call),
          Prog.eval_bind_ok (eval_sleep _ s.call.draw)]
        generalize options.jitterDelay (s.calls + 1) (random s.call.draws) = ms
        have hcalls : (s.call.draw.wait ms).calls = s.calls + 1 := rfl
        have hleft' : (s.call.draw.wait ms).calls + left = orElse options.maxAttempts 3 := by
          omega
        have hlog : (s.call.draw.wait ms).log = s.log ++ [.called, .waited ms] :=
          List.append_assoc _ _ _
        refine Ends.again hmax ?_ trivial hcalls hlog (ih hleft' (by omega) (some err))
        rw [hout]
        exact hnot

/-- Both loops stop at the first call at which they may: the last attempt allowed, or the first
success or final error. They settle as that call has, and `withRetry` waits between two calls
for half the capped exponential delay at least and for the whole of it at most. -/
theorem retry_loops_agree (outcomes : ℕ → Except (ErrorObject ρ) α) (random random' : ℕ → ℚ)
    (hrandom : ∀ n, 0 ≤ random n ∧ random n < 1) {maxAttempts : ℕ} (hmax : 1 ≤ maxAttempts)
    (options : RetryOptions) (hoptions : options.maxAttempts.getD 3 = maxAttempts)
    (hbase : ∀ d, options.baseDelayMs = some d → 0 < d)
    (hcap : ∀ d, options.maxDelayMs = some d → 0 < d) (backoff : BackoffOptions ρ)
    (hbackoff : orElse backoff.maxAttempts 3 = maxAttempts)
    (hretry : backoff.shouldRetry = some isRetryable) :
    ∃ k, IsLeast {i | 0 < i ∧ (i = maxAttempts ∨ Final (outcomes i))} k ∧
      (∃ s waits, (withRetry options).eval (exec outcomes random) .start =
          some ((outcomes k).mapError some, s) ∧ s.calls = k ∧ s.log = trace waits ∧
        waits.length + 1 = k ∧ ∀ i ms, 1 ≤ i → waits[i - 1]? = some ms →
          min (options.baseDelayMs.getD 1000 * 2 ^ (i - 1)) (options.maxDelayMs.getD 10000) / 2 ≤
              ms ∧
            ms ≤ min (options.baseDelayMs.getD 1000 * 2 ^ (i - 1))
              (options.maxDelayMs.getD 10000)) ∧
      ∃ s, (retryWithBackoff backoff).eval (exec outcomes random') .start =
        some ((outcomes k).mapError some, s) ∧ s.calls = k := by
  have hcapped (attempt : ℕ) : 0 ≤ options.cappedDelay attempt := by
    have hbase0 : 0 ≤ options.baseDelayMs.getD 1000 := by
      cases hb : options.baseDelayMs with
      | none => norm_num
      | some d => exact (hbase d hb).le
    have hcap0 : 0 ≤ options.maxDelayMs.getD 10000 := by
      cases hc : options.maxDelayMs with
      | none => norm_num
      | some d => exact (hcap d hc).le
    exact le_min (by positivity) hcap0
  have hleft : RetryRun.start.calls + maxAttempts = options.maxAttempts.getD 3 := by
    rw [hoptions]
    exact Nat.zero_add _
  have hleft' : RetryRun.start.calls + maxAttempts = orElse backoff.maxAttempts 3 := by
    rw [hbackoff]
    exact Nat.zero_add _
  obtain ⟨k, waits, s, hk, hrun, hcalls, hlog, hlength, hwaits⟩ :=
    withRetryFrom_ends outcomes hrandom hcapped hleft hmax none
  obtain ⟨k', _, s', hk', hrun', hcalls', _⟩ :=
    retryWithBackoffFrom_ends outcomes random' hretry hleft' hmax none
  rw [hoptions] at hk
  rw [hbackoff] at hk'
  obtain rfl : k = k' := hk.unique hk'
  refine ⟨k, hk, ⟨s, waits, ?_, hcalls, hlog, ?_, ?_⟩, s', ?_, hcalls'⟩
  · unfold withRetry
    rw [hoptions]
    exact hrun
  · change 0 + waits.length + 1 = k at hlength
    omega
  · intro i ms hi hms
    have hbound := hwaits (i - 1) ms hms
    have hindex : RetryRun.start.calls + 1 + (i - 1) = i := by
      change 0 + 1 + (i - 1) = i
      omega
    rw [hindex] at hbound
    exact hbound
  · unfold retryWithBackoff
    rw [hbackoff]
    exact hrun'

/-- A first call that finds the upstream down, and a second that does not. -/
def flaky (n : ℕ) : Except (ErrorObject Unit) ℕ :=
  if n = 1 then .error ⟨none, some ⟨some 503, some 503⟩, ()⟩ else .ok 7

theorem retry_flaky :
    ∃ s s' : RetryRun, (withRetry {}).eval (exec flaky fun _ => 1 / 2) .start = some (.ok 7, s) ∧
      s.calls = 2 ∧ s.log.length = 3 ∧
      (retryWithBackoff { shouldRetry := some isRetryable }).eval (exec flaky fun _ => 1 / 4)
        .start = some (.ok 7, s') ∧ s'.calls = 2 := by
  have hrandom : ∀ n : ℕ, (0 : ℚ) ≤ 1 / 2 ∧ (1 / 2 : ℚ) < 1 := by
    intro n
    norm_num
  obtain ⟨k, hk, ⟨s, waits, hrun, hcalls, hlog, hlength, _⟩, s', hrun', hcalls'⟩ :=
    retry_loops_agree flaky (fun _ => 1 / 2) (fun _ => 1 / 4) hrandom (by decide : 1 ≤ 3) {} rfl
      nofun nofun { shouldRetry := some isRetryable } rfl rfl
  have htwo : IsLeast {i | 0 < i ∧ (i = 3 ∨ Final (flaky i))} 2 := by
    refine ⟨⟨by decide, .inr trivial⟩, ?_⟩
    intro i hi
    by_contra hlt
    obtain rfl : i = 1 := by
      have hpos := hi.1
      omega
    rcases hi.2 with heq | hfinal
    · cases heq
    · cases hfinal
  obtain rfl : k = 2 := hk.unique htwo
  refine ⟨s, s', hrun, hcalls, ?_, hrun', hcalls'⟩
  obtain ⟨ms, rfl⟩ : ∃ ms, waits = [ms] := List.length_eq_one_iff.mp (by omega)
  rw [hlog]
  rfl

end Agreement

end RetryUtil

end TimeOff
