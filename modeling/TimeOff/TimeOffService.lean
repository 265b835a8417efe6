import TimeOff.BalanceService
import TimeOff.DateUtil
import TimeOff.HcmService

/-! `TimeOffService`: the life of a request, from `createRequest` to its three ends, and the
two tasks that tell the HCM about it. -/
namespace TimeOff

open Async

section Idempotency

def checkIdempotency (idempotencyKey _employeeId requestHash : String) :
    Svc (Option RequestBody) := do
  match ← Svc.db (.findRecord idempotencyKey) with
  | none => return none
  | some existing =>
    let now ← Svc.now
    -- an expired record counts for nothing
    if existing.expiresAt < now then
      return none
    else if existing.requestHash ≠ requestHash then
      throw (.service .idempotencyConflict)
    else
      return some existing.responseBody

def recoverAfterConstraint (idempotencyKey employeeId requestHash : String) :
    Svc (Option RequestBody) := do
  match ← checkIdempotency idempotencyKey employeeId requestHash with
  | some cached => return some cached
  | none =>
    -- the record may be gone or expired while the key is still taken
    match ← Svc.db (.findRequestByKey idempotencyKey) with
    | some existingRequest => return some (serializeRequest existingRequest)
    | none => return none

end Idempotency

section Create

/-- The loop over the active requests. -/
def throwIfOverlap (startDate endDate : String) : List ActiveRequest → Tx Unit
  | [] => return ()
  | existing :: rest =>
    if datesOverlap startDate endDate existing.startDate existing.endDate then
      throw (.service (.overlappingRequest existing.id existing.status
        (existing.startDate ++ " → " ++ existing.endDate) (startDate ++ " → " ++ endDate)))
    else
      throwIfOverlap startDate endDate rest

def assertNoOverlap (employeeId locationId startDate endDate : String) : Tx Unit := do
  let activeRequests ← Tx.db (.findActiveRequests employeeId locationId)
  throwIfOverlap startDate endDate activeRequests

/-- On sqlite `_getWriteLock` is null, so the rows are read and not locked. -/
def lockEmployeeBalances (employeeId locationId : String) : Tx Unit := do
  let _ ← Tx.db (.findBalances employeeId locationId)

/-- Step 7: what `manager.create` is given. -/
def newRequest (dto : CreateTimeOffRequestDto) (idempotencyKey : String) (daysRequested : Num) :
    NewRequest where
  idempotencyKey := idempotencyKey
  employeeId := dto.employeeId
  locationId := dto.locationId
  leaveType := dto.leaveType
  startDate := dto.startDate
  endDate := dto.endDate
  daysRequested := daysRequested
  status := .pending
  requestedBy := dto.employeeId
  notes := dto.notes.filter (· ≠ "")
  hcmSyncStatus := .pending

/-- Step 8: the idempotency record of a saved request. -/
def newRecord (cfg : Config) (dto : CreateTimeOffRequestDto) (idempotencyKey requestHash : String)
    (saved : TimeOffRequest) (now : ℕ) : IdempotencyRecord where
  idempotencyKey := idempotencyKey
  employeeId := dto.employeeId
  requestHash := requestHash
  responseStatus := 201
  responseBody := serializeRequest saved
  expiresAt := now + cfg.idempotencyTtlMs

/-- Steps 4 to 8 of `createRequest`: the transaction callback. -/
def createTransaction (cfg : Config) (dto : CreateTimeOffRequestDto) (idempotencyKey : String)
    (daysRequested : Num) (requestHash : String) : Tx TimeOffRequest := do
  lockEmployeeBalances dto.employeeId dto.locationId
  assertNoOverlap dto.employeeId dto.locationId dto.startDate dto.endDate
  atomicDeduct dto.balanceKey daysRequested
  let saved ← Tx.db (.insertRequest (newRequest dto idempotencyKey daysRequested))
  let now ← Tx.now
  Tx.db (.insertRecord (newRecord cfg dto idempotencyKey requestHash saved now))
  return saved

/-- The attempts of `_runCreateTransactionWithRetry` from number `attempt` on, `left` of them
after this one. -/
def runAttempts {β : Type} (runTx : Svc β) (attempt : ℕ) : ℕ → Svc β
  | 0 => runTx
  | left + 1 =>
    -- the last of the three attempts throws whatever it met
    runTx.handle fun err =>
      if isSqliteTransientTxError err then do
        Svc.base (.sleep (5 * attempt))
        runAttempts runTx (attempt + 1) left
      else throw err

def runCreateTransactionWithRetry {β : Type} (runTx : Svc β) : Svc β :=
  runAttempts runTx 1 2

def withCreateLock {β : Type} (lockKey : String) (fn : Svc β) : Svc β := do
  Svc.base (.enterLock lockKey)
  Svc.base .awaitPrevious
  fn.ensuring (Svc.base (.releaseLock lockKey))

def lockKey (dto : CreateTimeOffRequestDto) : String :=
  dto.employeeId ++ ":" ++ dto.locationId

/-- The `catch` of `createRequest`. -/
def createFailed (dto : CreateTimeOffRequestDto) (idempotencyKey requestHash : String)
    (err : Err) : Svc RequestBody := do
  -- a constraint violation means that another create won the key
  let recovered ←
    (if isSqliteConstraintError err then
      recoverAfterConstraint idempotencyKey dto.employeeId requestHash
    else pure none : Svc (Option RequestBody))
  match recovered with
  | some body => return body
  | none =>
    -- a contended write may have lost to a create with this key too
    if isSqliteTransientTxError err then
      match ← recoverAfterConstraint idempotencyKey dto.employeeId requestHash with
      | some body => return body
      | none => throw (.service .writeContention)
    else throw err

/-- The `try` of `createRequest`. -/
def createFresh (cfg : Config) (dto : CreateTimeOffRequestDto) (idempotencyKey : String)
    (daysRequested : Num) (requestHash : String) : Svc RequestBody := do
  let createdRequest ← runCreateTransactionWithRetry
    (Svc.transaction (createTransaction cfg dto idempotencyKey daysRequested requestHash))
  Svc.base (.setImmediate (.notifyHcm createdRequest.id dto.balanceKey daysRequested))
  return serializeRequest createdRequest

/-- What `createRequest` does while it holds the lock. -/
def createLocked (cfg : Config) (dto : CreateTimeOffRequestDto) (idempotencyKey : String)
    (daysRequested : Num) (requestHash : String) : Svc RequestBody := do
  -- the create that held the lock before may have used the key
  match ← checkIdempotency idempotencyKey dto.employeeId requestHash with
  | some body => return body
  | none =>
    (createFresh cfg dto idempotencyKey daysRequested requestHash).handle
      (createFailed dto idempotencyKey requestHash)

def createRequest (cfg : Config) (dto : CreateTimeOffRequestDto) (idempotencyKey : String) :
    Svc RequestBody := do
  if idempotencyKey = "" then
    throw (.service .missingIdempotencyKey)
  else
    let now ← Svc.now
    if !isNotInPast dto.startDate now then
      throw (.service (.invalidDateRange "startDate cannot be in the past"))
    else if ltTime (parseMidnight cfg dto.endDate) (parseMidnight cfg dto.startDate) then
      throw (.service (.invalidDateRange "endDate must be on or after startDate"))
    else
      let daysRequested := calculateDaysRequested dto.startDate dto.endDate
      let requestHash := cfg.hashObject dto
      -- the first of the two idempotency checks, before any lock
      match ← checkIdempotency idempotencyKey dto.employeeId requestHash with
      | some body => return body
      | none =>
        -- employee and location: creates of the two leave types wait for each other
        withCreateLock (lockKey dto)
          (createLocked cfg dto idempotencyKey daysRequested requestHash)

end Create

section Transitions

def getRequestLockedOrThrow (requestId : ℕ) : Tx TimeOffRequest := do
  match ← Tx.db (.findRequest requestId) with
  | none => throw (.service (.requestNotFound requestId))
  | some request => return request

def assertValidTransition (currentStatus targetStatus : RequestStatus) : Tx Unit :=
  if targetStatus ∈ validTransitions currentStatus then return ()
  else throw (.service (.invalidStatusTransition currentStatus targetStatus))

/-- The columns a transition changes, with those `manager.save` refreshes on the entity. -/
def RequestPatch.saved (p : RequestPatch) (r : TimeOffRequest) (now : ℕ) : RequestPatch :=
  { p with
    version := some (r.version + 1)
    updatedAt := some now }

/-- The common course of the three transitions: `stamp` is what they change beside the
status, `settle` the balance mutation that follows the save. -/
def transition (requestId : ℕ) (target : RequestStatus)
    (stamp : TimeOffRequest → ℕ → RequestPatch) (settle : BalanceKey → Num → Tx Unit) :
    Tx TimeOffRequest := do
  let request ← getRequestLockedOrThrow requestId
  assertValidTransition request.status target
  let now ← Tx.now
  let patch : RequestPatch := { stamp request now with status := some target }
  Tx.db (.saveRequest requestId patch)
  -- the entity in hand takes the saved columns
  let request := (patch.saved request now).apply request
  settle request.balanceKey (some request.daysRequested)
  return request

def approveTransaction (requestId : ℕ) (approverId : String) : Tx RequestBody := do
  let request ← transition requestId .approved
    (fun _ now =>
      { approvedBy := some (some approverId)
        approvedAt := some (some now) })
    finalizeUsed
  Tx.setImmediate (.notifyApprovalToHcm request requestId)
  return serializeRequest request

def rejectTransaction (requestId : ℕ) (approverId reason : String) : Tx RequestBody := do
  let request ← transition requestId .rejected
    (fun _ now =>
      { approvedBy := some (some approverId)
        approvedAt := some (some now)
        rejectionReason := some (some reason) })
    releaseFromPending
  return serializeRequest request

/-- A reason that stays null is no changed value. -/
def cancelTransaction (requestId : ℕ) (reason : Option String) : Tx RequestBody := do
  let request ← transition requestId .cancelled
    (fun request _ =>
      { rejectionReason := if reason = request.rejectionReason then none else some reason })
    releaseFromPending
  return serializeRequest request

def approveRequest (requestId : ℕ) (approverId : String) : Svc RequestBody :=
  Svc.transaction (approveTransaction requestId approverId)

def rejectRequest (requestId : ℕ) (approverId reason : String) : Svc RequestBody :=
  Svc.transaction (rejectTransaction requestId approverId reason)

def cancelRequest (requestId : ℕ) (reason : Option String) : Svc RequestBody :=
  Svc.transaction (cancelTransaction requestId reason)

end Transitions

section Tasks

/-- `requestRepository.update`. -/
def updateRequest (requestId : ℕ) (patch : RequestPatch) : Svc Unit := do
  let _ ← Svc.db (.saveRequest requestId patch)

/-- `_notifyApprovalToHcmAsync` up to `notifyApproval`: whether to go on. -/
def validateApproval (request : TimeOffRequest) (requestId : ℕ) : Svc Bool := do
  if request.hcmValidated then return true
  else
    -- the days were validated when the request was created, or are now
    match ← validateRequest request.balanceKey (some request.daysRequested) with
    | none =>
      let now ← Svc.now
      updateRequest requestId
        { hcmSyncStatus := some .pending
          hcmSyncAttempts := some (request.hcmSyncAttempts + 1)
          hcmLastSyncAt := some (some now) }
      return false
    | some validation =>
      -- anything but an explicit yes ends the sync
      if validation.valid ≠ some true then
        let now ← Svc.now
        updateRequest requestId
          { hcmSyncStatus := some .failed
            hcmValidated := some false
            hcmSyncAttempts := some (request.hcmSyncAttempts + 1)
            hcmLastSyncAt := some (some now) }
        return false
      else return true

def notifyApprovalToHcm (cfg : Config) (request : TimeOffRequest) (requestId : ℕ) :
    Svc Unit := do
  let isValidated ← validateApproval request requestId
  if isValidated then
    let res ← notifyApproval cfg request.balanceKey request.daysRequested requestId
    let now ← Svc.now
    updateRequest requestId
      { hcmSyncStatus := some (if approvalAcknowledged res then .success else .pending)
        hcmValidated := some isValidated
        hcmSyncAttempts := some (request.hcmSyncAttempts + 1)
        hcmLastSyncAt := some (some now) }

def notifyApprovalToHcmAsync (cfg : Config) (request : TimeOffRequest) (requestId : ℕ) :
    Svc Unit :=
  (notifyApprovalToHcm cfg request requestId).handle fun _ => do
    let now ← Svc.now
    updateRequest requestId
      { hcmSyncStatus := some .pending
        hcmSyncAttempts := some (request.hcmSyncAttempts + 1)
        hcmLastSyncAt := some (some now) }

def notifyHcm (requestId : ℕ) (key : BalanceKey) (daysRequested : Num) : Svc Unit := do
  -- only an explicit refusal fails here; an answer without `valid` passes
  match ← validateRequest key daysRequested with
  | some result =>
    let now ← Svc.now
    if result.valid = some false then
      updateRequest requestId
        { hcmSyncStatus := some .failed
          hcmValidated := some false
          hcmSyncAttempts := some 1
          hcmLastSyncAt := some (some now) }
    else
      updateRequest requestId
        { hcmSyncStatus := some .success
          hcmValidated := some true
          hcmSyncAttempts := some 1
          hcmLastSyncAt := some (some now) }
  | none =>
    let now ← Svc.now
    updateRequest requestId
      { hcmSyncStatus := some .pending
        hcmSyncAttempts := some 1
        hcmLastSyncAt := some (some now) }

def notifyHcmAsync (requestId : ℕ) (key : BalanceKey) (daysRequested : Num) : Svc Unit :=
  (notifyHcm requestId key daysRequested).handle fun _ =>
    updateRequest requestId
      { hcmSyncStatus := some .pending
        hcmSyncAttempts := some 1 }

end Tasks

end TimeOff
