import TimeOff.AsyncProg
import TimeOff.Store

/-! What the services await. A transaction callback is a program of its own; the other
operations belong to the event loop, the create locks and the HCM client. -/
namespace TimeOff

open Async

/-- The tasks handed to `setImmediate`, with what their closures captured. -/
inductive Task
  | notifyHcm (requestId : ℕ) (key : BalanceKey) (daysRequested : Num)
  | notifyApprovalToHcm (request : TimeOffRequest) (requestId : ℕ)
  deriving DecidableEq

/-- Inside a transaction callback. -/
inductive TxOp
  | db (o : DbOp)
  | now
  | setImmediate (task : Task)

@[reducible] def TxOp.Resp : TxOp → Type
  | db o => o.Resp
  | now => ℕ
  | setImmediate _ => Unit

abbrev Tx := Prog TxOp TxOp.Resp Err

/-- The reply of `POST /hcm/validate`; `none` when the field is missing or no boolean. -/
structure ValidateReply where
  valid : Option Bool
  deriving DecidableEq, Repr

/-- The body of `PUT /hcm/balance` with action `APPROVE`. -/
structure PutBalance where
  key : BalanceKey
  daysRequested : ℚ
  referenceId : ℕ
  deriving DecidableEq, Repr

/-- The reply of `PUT /hcm/balance`; `none` when the field is missing or no boolean. -/
structure PutReply where
  success : Option Bool
  deriving DecidableEq, Repr

inductive BaseOp
  | db (o : DbOp)
  | now
  | setImmediate (task : Task)
  | enterLock (lane : String)
  | awaitPrevious
  | releaseLock (lane : String)
  | sleep (ms : ℕ)
  | validateRequest (key : BalanceKey) (daysRequested : Num)
  | sendPut (put : PutBalance)
  | awaitPut (message : ℕ) (put : PutBalance)

@[reducible] def BaseOp.Resp : BaseOp → Type
  | db o => o.Resp
  | now => ℕ
  | setImmediate _ => Unit
  | enterLock _ => Unit
  | awaitPrevious => Unit
  | releaseLock _ => Unit
  | sleep _ => Unit
  | validateRequest _ _ => Option ValidateReply
  | sendPut _ => ℕ
  | awaitPut _ _ => PutReply

inductive Op : Type 1
  | base (o : BaseOp)
  | transaction {β : Type} (body : Tx β)

@[reducible] def Op.Resp : Op → Type
  | base o => o.Resp
  | @transaction β _ => β

abbrev Svc := Prog Op Op.Resp Err

def Tx.db (o : DbOp) : Tx o.Resp := .perform (TxOp.db o)
def Tx.now : Tx ℕ := .perform TxOp.now
def Tx.setImmediate (task : Task) : Tx Unit := .perform (TxOp.setImmediate task)

def Svc.base (o : BaseOp) : Svc o.Resp := .perform (Op.base o)
def Svc.db (o : DbOp) : Svc o.Resp := Svc.base (.db o)
def Svc.now : Svc ℕ := Svc.base .now
def Svc.transaction {β : Type} (body : Tx β) : Svc β := .perform (Op.transaction body)

end TimeOff
