import TimeOff.TimeOffService

/-! `HcmSyncService`: the reconciliation of one record of the batch, and the worker that
retries the requests whose HCM sync is pending. -/
namespace TimeOff

open Async

section Reconcile

def driftTolerance : ℚ := 1 / 100

variable (fl : ℚ → ℚ)

/-- What `_reconcileRecord` writes for a row it read as `localBalance`, and its answer. -/
def reconcilePatchIn (localBalance : EmployeeBalance) (hcmTotal : Num) (version : Option String)
    (now : ℕ) : BalancePatch × Bool :=
  let drift := driftIn fl localBalance hcmTotal
  let common : BalancePatch :=
    { hcmTotalBalance := some hcmTotal
      hcmLastSync := some (some now)
      hcmVersion := some version }
  -- no meaningful drift: the metadata of the sync alone
  if drift.abs.le (some (fl driftTolerance)) then
    ({ common with
        hasDiscrepancy := some false
        discrepancyAmount := some none }, false)
  -- the HCM has more: the surplus goes to the available days
  else if Num.lt (some (fl driftTolerance)) drift then
    ({ common with
        totalBalance := some hcmTotal
        availableBalance := some (raisedIn fl localBalance drift)
        hasDiscrepancy := some false
        discrepancyAmount := some none }, true)
  -- the HCM has less: the amounts stay, the row is flagged
  else
    ({ common with
        hasDiscrepancy := some true
        discrepancyAmount := some drift.abs }, true)

/-- A total that is `NaN` is written to a column that refuses it. -/
theorem reconcilePatchIn_accepted (b : EmployeeBalance) (total : Num) (version : Option String)
    (now : ℕ) : (reconcilePatchIn fl b total version now).1.accepted = total.isSome := by
  unfold reconcilePatchIn
  cases total with
  | none => rfl
  | some t =>
    dsimp only
    split
    · rfl
    · split <;> rfl

/-- `_reconcileRecord` after its `findOne`. -/
def reconcileWriteIn (hcmRecord : HcmRecord) (localBalance : Option EmployeeBalance) :
    Svc Bool := do
  let now ← Svc.now
  match localBalance with
  -- a new employee or leave type
  | none =>
    let _ ← Svc.db (.insertBalance
      { key := hcmRecord.key
        totalBalance := hcmRecord.totalBalance
        availableBalance := hcmRecord.totalBalance
        pendingBalance := some 0
        usedBalance := some 0
        hcmTotalBalance := hcmRecord.totalBalance
        hcmLastSync := now
        hcmVersion := hcmRecord.version })
    return true
  | some localBalance =>
    let patch := reconcilePatchIn fl localBalance hcmRecord.totalBalance hcmRecord.version now
    Svc.db (.saveBalance hcmRecord.key patch.1)
    return patch.2

def reconcileRecordIn (hcmRecord : HcmRecord) : Svc Bool := do
  let localBalance ← Svc.db (.findBalance hcmRecord.key)
  reconcileWriteIn fl hcmRecord localBalance

/-! In exact numbers. -/

abbrev reconcilePatch (localBalance : EmployeeBalance) (hcmTotal : Num) (version : Option String)
    (now : ℕ) : BalancePatch × Bool :=
  reconcilePatchIn id localBalance hcmTotal version now

theorem reconcilePatch_accepted (b : EmployeeBalance) (total : Num) (version : Option String)
    (now : ℕ) : (reconcilePatch b total version now).1.accepted = total.isSome :=
  reconcilePatchIn_accepted id b total version now

def reconcileWrite (hcmRecord : HcmRecord) (localBalance : Option EmployeeBalance) : Svc Bool :=
  reconcileWriteIn id hcmRecord localBalance

def reconcileRecord (hcmRecord : HcmRecord) : Svc Bool :=
  reconcileRecordIn id hcmRecord

end Reconcile

section Retry

def maxPendingSyncRetries : ℕ := 10

def updateSyncAttempt (request : TimeOffRequest) (patch : RequestPatch) : Svc Unit := do
  let now ← Svc.now
  updateRequest request.id
    { patch with
      hcmSyncAttempts := some (request.hcmSyncAttempts + 1)
      hcmLastSyncAt := some (some now) }

def retryValidationOnly (request : TimeOffRequest) : Svc Unit := do
  -- a request validated before is not validated again
  let validation ←
    (if request.hcmValidated then pure (some ⟨some true⟩)
    else validateRequest request.balanceKey (some request.daysRequested) :
      Svc (Option ValidateReply))
  match validation with
  -- no answer: the request stays in the queue
  | none => updateSyncAttempt request { hcmSyncStatus := some .pending }
  | some validation =>
    -- anything but an explicit yes ends the sync
    if validation.valid ≠ some true then
      updateSyncAttempt request
        { hcmSyncStatus := some .failed
          hcmValidated := some false }
    else
      updateSyncAttempt request
        { hcmSyncStatus := some .success
          hcmValidated := some true }

/-- `_retryApprovalFlow` from `notifyApproval` on. -/
def retryApproval (cfg : Config) (request : TimeOffRequest) (isValidated : Bool) :
    Svc Unit := do
  let approval ← notifyApproval cfg request.balanceKey request.daysRequested request.id
  if approvalAcknowledged approval then
    updateSyncAttempt request
      { hcmSyncStatus := some .success
        hcmValidated := some isValidated }
  else
    updateSyncAttempt request
      { hcmSyncStatus := some .pending
        hcmValidated := some isValidated }

def retryApprovalFlow (cfg : Config) (request : TimeOffRequest) : Svc Unit := do
  if request.hcmValidated then retryApproval cfg request true
  else
    match ← validateRequest request.balanceKey (some request.daysRequested) with
    | none => updateSyncAttempt request { hcmSyncStatus := some .pending }
    | some validation =>
      if validation.valid ≠ some true then
        updateSyncAttempt request
          { hcmSyncStatus := some .failed
            hcmValidated := some false }
      else retryApproval cfg request true

/-- The branches of the worker on the status of its snapshot. -/
def retryByStatus (cfg : Config) (request : TimeOffRequest) : Svc Unit :=
  match request.status with
  | .rejected => updateSyncAttempt request { hcmSyncStatus := some .skipped }
  | .cancelled => updateSyncAttempt request { hcmSyncStatus := some .skipped }
  | .pending => retryValidationOnly request
  | .approved => retryApprovalFlow cfg request

def retryRequest (cfg : Config) (request : TimeOffRequest) : Svc Unit := do
  -- out of attempts: given up, whatever its status
  if request.hcmSyncAttempts ≥ maxPendingSyncRetries then
    let now ← Svc.now
    updateRequest request.id
      { hcmSyncStatus := some .failed
        hcmLastSyncAt := some (some now) }
  else
    -- whatever the branch throws, the request stays in the queue
    (retryByStatus cfg request).handle fun _ =>
      updateSyncAttempt request { hcmSyncStatus := some .pending }

def retryEach (cfg : Config) : List TimeOffRequest → Svc Unit
  | [] => return ()
  | request :: rest => do
    retryRequest cfg request
    retryEach cfg rest

def retryPendingHcmSyncs (cfg : Config) : Svc Unit := do
  let pendingRequests ← Svc.db (.findPendingSync 50)
  retryEach cfg pendingRequests

end Retry

end TimeOff
