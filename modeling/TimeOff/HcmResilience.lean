import TimeOff.CircuitBreaker
import TimeOff.HcmService

/-! The HCM client with its breaker: every attempt of every `HcmService` operation goes through
`CircuitBreaker.call`. Operations run one after the other here, so the log of the dispatched
calls decides when the breaker opens. -/
namespace TimeOff

open Async

/-- The requests of the `HcmService` operations. -/
inductive HcmCall
  | getBalance (key : BalanceKey)
  | validateRequest (key : BalanceKey) (daysRequested : ℚ)
  | notifyApproval (key : BalanceKey) (daysRequested : ℚ) (requestId : ℕ)
  | notifyRejection (key : BalanceKey) (daysRequested : ℚ) (requestId : ℕ)
  | getBatchBalances (locationId : Option String)

/-- What the breaker and the retries await or do at once; `δ` is the data of a reply. -/
inductive ClientOp
  | admission
  | request (config : HcmCall)
  | onSuccess
  | onFailure
  | sleep (ms : ℕ)

@[reducible] def ClientOp.Resp (δ : Type) : ClientOp → Type
  | request _ => δ
  | _ => Unit

abbrev Client (δ : Type) := Prog ClientOp (ClientOp.Resp δ) Err

namespace HcmClient

variable {δ β : Type}

/-- `CircuitBreaker.call`. -/
def circuitCall (callFn : Client δ β) : Client δ β :=
  -- a refusal throws before the `try`, so it counts as no failure
  (Prog.perform .admission).bind fun _ =>
    callFn.attempt.bind fun
      | .ok result => (Prog.perform .onSuccess).bind fun _ => pure result
      | .error err => (Prog.perform .onFailure).bind fun _ => throw err

/-- The attempts of `withRetry` from number `attempt` on, `left` of them with this one. -/
def retryFrom (cfg : Config) (fn : Client δ β) (attempt : ℕ) : ℕ → Client δ β
  | 0 => throw .undefined
  | left + 1 =>
    fn.handle fun error =>
      if left = 0 || !isRetryable error then throw error
      else
        (Prog.perform
            (.sleep (min (cfg.retryBaseDelayMs * 2 ^ (attempt - 1)) maxDelayMs))).bind fun _ =>
          retryFrom cfg fn (attempt + 1) left

def withRetry (cfg : Config) (fn : Client δ β) : Client δ β :=
  retryFrom cfg fn 1 cfg.retryMaxAttempts

def callWithResilience (cfg : Config) (callFn : Client δ β) : Client δ (Option β) :=
  ((withRetry cfg callFn).bind fun response => pure (some response)).handle fun error =>
    -- reading `message` of an undefined error throws in its turn
    if error = .undefined then throw .typeError else pure none

/-- The function bound to the breaker. -/
def dispatch (config : HcmCall) : Client δ δ := Prog.perform (ClientOp.request config)

/-- The body that the operations share. -/
def operation (cfg : Config) (config : HcmCall) : Client δ (Option δ) :=
  callWithResilience cfg (circuitCall (dispatch config))

def getBalance (cfg : Config) (key : BalanceKey) : Client δ (Option δ) :=
  operation cfg (.getBalance key)

def validateRequest (cfg : Config) (key : BalanceKey) (daysRequested : ℚ) :
    Client δ (Option δ) :=
  operation cfg (.validateRequest key daysRequested)

def notifyApproval (cfg : Config) (key : BalanceKey) (daysRequested : ℚ) (requestId : ℕ) :
    Client δ (Option δ) :=
  operation cfg (.notifyApproval key daysRequested requestId)

def notifyRejection (cfg : Config) (key : BalanceKey) (daysRequested : ℚ) (requestId : ℕ) :
    Client δ (Option δ) :=
  operation cfg (.notifyRejection key daysRequested requestId)

def getBatchBalances (cfg : Config) (locationId : Option String) : Client δ (Option δ) :=
  operation cfg (.getBatchBalances locationId)

/-- The operation that sends this request. -/
def perform (cfg : Config) : HcmCall → Client δ (Option δ)
  | .getBalance key => getBalance cfg key
  | .validateRequest key daysRequested => validateRequest cfg key daysRequested
  | .notifyApproval key daysRequested requestId =>
    notifyApproval cfg key daysRequested requestId
  | .notifyRejection key daysRequested requestId =>
    notifyRejection cfg key daysRequested requestId
  | .getBatchBalances locationId => getBatchBalances cfg locationId

/-- One operation after the other, whatever each of them ends with. -/
def sequentially (cfg : Config) : List HcmCall → Client δ Unit
  | [] => pure ()
  | c :: cs => (perform cfg c).attempt.bind fun _ => sequentially cfg cs

end HcmClient

/-- How the HTTP client ends a dispatched call: with a reply, or with a timeout or a network
error. -/
inductive Ending (δ : Type)
  | reply (status : ℕ) (data : δ)
  | noResponse

/-- The status of the reply, if there was one. -/
def Ending.status {δ : Type} : Ending δ → Option ℕ
  | reply status _ => some status
  | noResponse => none

/-- The HTTP client resolves for a 2xx reply only. -/
def resolves : Option ℕ → Bool
  | some status => 200 ≤ status ∧ status < 300
  | none => false

def Ending.result {δ : Type} : Ending δ → Except Err δ
  | reply status data =>
    if resolves (some status) then .ok data else .error (.hcm (.response status))
  | noResponse => .error (.hcm .noResponse)

/-- A 5xx reply, a timeout or a network error. -/
def upstreamFault : Option ℕ → Bool
  | some status => 500 ≤ status ∧ status < 600
  | none => true

/-- A 4xx reply other than 408 and 429. -/
def clientError : Option ℕ → Bool
  | some status => 400 ≤ status ∧ status < 500 ∧ status ≠ 408 ∧ status ≠ 429
  | none => false

/-- The breaker and what is remembered of the upstream: how each dispatched call ended, the
last one first, and that log at each move from CLOSED to OPEN. -/
structure ClientState where
  breaker : CircuitBreaker
  now : ℚ
  log : List (Option ℕ)
  trips : List (List (Option ℕ))

/-- When an operation happens, and how a dispatched call ends. -/
structure Moment (δ : Type) where
  now : ℚ
  ending : Ending δ

namespace ClientState

def init (options : CircuitOptions) (now : ℚ) : ClientState := ⟨.new options, now, [], []⟩

/-- The breaker moves to `b`. -/
def move (s : ClientState) (b : CircuitBreaker) : ClientState :=
  { s with
    breaker := b
    trips :=
      if s.breaker.state = .closed ∧ b.state = .opened then s.log :: s.trips else s.trips }

def exec {δ : Type} (o : ClientOp) (m : Moment δ) (s : ClientState) :
    Option (Except Err (o.Resp δ) × ClientState) :=
  -- the clock never runs backwards
  if s.now ≤ m.now then
    match o with
    | .admission =>
      match s.breaker.admission m.now with
      | .error _ => some (.error (.hcm .circuitOpen), { s with now := m.now })
      | .ok b => some (.ok (), { s with now := m.now, breaker := b })
    -- only a dispatched call enters the log
    | .request _ =>
      some (m.ending.result, { s with now := m.now, log := m.ending.status :: s.log })
    | .onSuccess => some (.ok (), { s.move s.breaker.onSuccess with now := m.now })
    | .onFailure => some (.ok (), { s.move (s.breaker.onFailure m.now) with now := m.now })
    | .sleep _ => some (.ok (), { s with now := m.now })
  else none

end ClientState

end TimeOff
