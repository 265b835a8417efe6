import TimeOff.Ops

/-! `mock-hcm`: what `PUT /hcm/balance` does to the balances of the HCM, and the requests and
replies under way between the service and it. -/
namespace TimeOff

structure HcmBalance where
  totalBalance : ℚ
  availableBalance : ℚ
  deriving DecidableEq, Repr

def getBalanceKey (key : BalanceKey) : String :=
  key.employeeId ++ "_" ++ key.locationId ++ "_" ++ key.leaveType

structure MockHcm where
  hcmBalances : List (String × HcmBalance)
  /-- Sent and neither handled nor lost. -/
  inTransit : List (ℕ × PutBalance)
  answers : List (ℕ × Except HcmError PutReply)
  nextMessage : ℕ
  /-- Each amount subtracted for an `APPROVE`, under its `referenceId`. -/
  deducted : List (ℕ × ℚ)

namespace MockHcm

def init (hcmBalances : List (String × HcmBalance)) : MockHcm := ⟨hcmBalances, [], [], 0, []⟩

/-- `ensureBalanceRecord`, without the record it may add. -/
def balance (h : MockHcm) (key : BalanceKey) : HcmBalance :=
  (h.hcmBalances.lookup (getBalanceKey key)).getD ⟨0, 0⟩

def setBalance (h : MockHcm) (key : BalanceKey) (b : HcmBalance) : MockHcm :=
  { h with
    hcmBalances := (getBalanceKey key, b) ::
      h.hcmBalances.filter fun e => e.1 ≠ getBalanceKey key }

/-- `PUT /hcm/balance` with action `APPROVE`; the `referenceId` is not looked at. -/
def putBalance (h : MockHcm) (put : PutBalance) : Except HcmError PutReply × MockHcm :=
  let record := h.balance put.key
  if record.availableBalance < put.daysRequested then
    (.error (.response 422), h.setBalance put.key record)
  else
    (.ok ⟨some true⟩,
      { h.setBalance put.key
          { availableBalance := record.availableBalance - put.daysRequested
            totalBalance := record.totalBalance - put.daysRequested } with
        deducted := (put.referenceId, put.daysRequested) :: h.deducted })

/-- `POST /hcm/validate` without an override; a `NaN` is sent as null, which compares as zero. -/
def validate (h : MockHcm) (key : BalanceKey) (daysRequested : Num) : ValidateReply :=
  match h.hcmBalances.lookup (getBalanceKey key) with
  | none => ⟨some false⟩
  | some record => ⟨some (decide ¬ record.availableBalance < daysRequested.getD 0)⟩

def send (h : MockHcm) (put : PutBalance) : ℕ × MockHcm :=
  (h.nextMessage,
    { h with
      inTransit := h.inTransit ++ [(h.nextMessage, put)]
      nextMessage := h.nextMessage + 1 })

def remove (h : MockHcm) (message : ℕ) : MockHcm :=
  { h with inTransit := h.inTransit.filter (·.1 ≠ message) }

/-- A request under way arrives and is handled. -/
def deliver (h : MockHcm) (message : ℕ) : Option MockHcm :=
  (h.inTransit.lookup message).map fun put =>
    let r := (h.remove message).putBalance put
    { r.2 with answers := (message, r.1) :: r.2.answers }

/-- What was subtracted on behalf of one request. -/
def deductedFor (h : MockHcm) (referenceId : ℕ) : ℚ :=
  ((h.deducted.filter (·.1 = referenceId)).map (·.2)).sum

end MockHcm

end TimeOff
