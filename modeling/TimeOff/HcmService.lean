import TimeOff.Ops

/-! `HcmService`: the retried calls to the HCM. The circuit breaker is seen through its
answers: a call it refuses fails with `CIRCUIT_OPEN` and is not dispatched. -/
namespace TimeOff

open Async

def isRetryable : Err → Bool
  -- a refusal of the breaker is final
  | .hcm .circuitOpen => false
  | .hcm (.response status) =>
    -- too many requests and timeouts may pass; any other client error will not
    if status = 429 ∨ status = 408 then true
    else if 400 ≤ status ∧ status < 500 then false
    else true
  -- no status at all: a connection error
  | _ => true

/-- `maxDelayMs` of `withRetry`. -/
def maxDelayMs : ℕ := 10000

/-- The attempts of `withRetry` from number `attempt` on, `left` of them with this one. The
jitter only shortens the wait. -/
def retryFrom {β : Type} (cfg : Config) (fn : Svc β) (attempt : ℕ) : ℕ → Svc β
  -- zero attempts throw the `lastError` that nothing has assigned
  | 0 => throw .undefined
  | left + 1 =>
    fn.handle fun error =>
      -- the last attempt and a permanent error are not retried
      if left = 0 || !isRetryable error then throw error
      else do
        Svc.base (.sleep (min (cfg.retryBaseDelayMs * 2 ^ (attempt - 1)) maxDelayMs))
        retryFrom cfg fn (attempt + 1) left

def withRetry {β : Type} (cfg : Config) (fn : Svc β) : Svc β :=
  retryFrom cfg fn 1 cfg.retryMaxAttempts

/-- Null when the circuit is open or the retries are exhausted. -/
def callWithResilience {β : Type} (cfg : Config) (callFn : Svc β) : Svc (Option β) :=
  ((withRetry cfg callFn).bind fun response => pure (some response)).handle fun error =>
    -- reading `message` of an undefined error throws in its turn
    if error = .undefined then throw .typeError else pure none

def putBalance (put : PutBalance) : Svc PutReply := do
  let message ← Svc.base (.sendPut put)
  Svc.base (.awaitPut message put)

def notifyApproval (cfg : Config) (key : BalanceKey) (daysRequested : ℚ) (requestId : ℕ) :
    Svc (Option PutReply) :=
  callWithResilience cfg (putBalance ⟨key, daysRequested, requestId⟩)

/-- `res !== null && res.success !== false`. -/
def approvalAcknowledged : Option PutReply → Bool
  | none => false
  | some res => res.success ≠ some false

/-- A validation leaves nothing at the HCM, so its attempts are one operation here; it
answers null when they are exhausted. -/
def validateRequest (key : BalanceKey) (daysRequested : Num) : Svc (Option ValidateReply) :=
  Svc.base (.validateRequest key daysRequested)

end TimeOff
