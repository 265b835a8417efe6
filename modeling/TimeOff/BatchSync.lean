import TimeOff.AsyncProg
import TimeOff.Payload

/-! `HcmSyncService.runBatchSync` and `triggerManualBatchSync`: the nightly reconciliation of
all balances, the guard against overlapping runs, and the log each run leaves. -/
namespace TimeOff

open Async

inductive SyncType
  | realtime
  | batch
  deriving DecidableEq, Repr

inductive SyncLogStatus
  | started
  | completed
  | failed
  | partialSync
  deriving DecidableEq, Repr

/-- An entry of `errorDetails`. -/
structure ErrorDetail where
  employeeId : Option Json
  locationId : Option Json
  leaveType : Option Json
  error : String

structure SyncLog where
  syncType : SyncType
  status : SyncLogStatus
  recordsProcessed : ℕ
  recordsUpdated : ℕ
  recordsFailed : ℕ
  errorDetails : Option (List ErrorDetail)
  startedAt : ℕ
  completedAt : Option ℕ

/-- The columns the end of a run writes. -/
structure SyncLogPatch where
  status : SyncLogStatus
  recordsProcessed : ℕ
  recordsUpdated : ℕ
  recordsFailed : ℕ
  errorDetails : Option (List ErrorDetail)
  completedAt : ℕ

def SyncLogPatch.apply (p : SyncLogPatch) (log : SyncLog) : SyncLog :=
  { log with
    status := p.status
    recordsProcessed := p.recordsProcessed
    recordsUpdated := p.recordsUpdated
    recordsFailed := p.recordsFailed
    errorDetails := p.errorDetails
    completedAt := some p.completedAt }

/-- What the batch awaits, and its accesses to the flag and the event loop. -/
inductive BatchOp
  /-- The test of `_batchRunning` with the assignment that follows it at once. -/
  | enter
  | leave
  | isRunning
  | setImmediate
  | now
  | saveSyncLog (log : SyncLog)
  | updateSyncLog (id : ℕ) (patch : SyncLogPatch)
  | getBatchBalances
  | findOne (columns : Columns)
  | insertBalance (columns : Columns) (hcmTotal : Num) (hcmLastSync : ℕ)
      (version : Option String)
  | updateBalance (key : BalanceKey) (patch : BalancePatch)
  | findBalances

@[reducible] def BatchOp.Resp : BatchOp → Type
  | enter => Bool
  | leave => Unit
  | isRunning => Bool
  | setImmediate => Unit
  | now => ℕ
  | saveSyncLog _ => ℕ
  | updateSyncLog _ _ => Unit
  | getBatchBalances => Option Json
  | findOne _ => Option EmployeeBalance
  | insertBalance _ _ _ _ => Unit
  | updateBalance _ _ => Unit
  | findBalances => List EmployeeBalance

abbrev Batch := Prog BatchOp BatchOp.Resp BatchErr

def Batch.call (o : BatchOp) : Batch o.Resp := .perform o

section Reconcile

variable (rt : Runtime)

/-- `_reconcileRecord`, on an element of the payload. -/
def reconcileElement (hcmRecord : Json) : Batch Bool := do
  -- destructuring null throws
  let r ← .ofExcept hcmRecord.fields
  let hcmTotal ← .ofExcept (hcmTotalOf rt r.totalBalance)
  let columns ← .ofExcept (r.columns rt)
  let localBalance ← Batch.call (.findOne columns)
  let version ← .ofExcept (versionOf rt r.version)
  let now ← Batch.call .now
  match localBalance with
  | none =>
    Batch.call (.insertBalance columns hcmTotal now version)
    return true
  | some localBalance =>
    let patch := reconcilePatchIn rt.round localBalance hcmTotal version now
    Batch.call (.updateBalance localBalance.key patch.1)
    return patch.2

/-- The counters of a run. -/
structure Tally where
  recordsProcessed : ℕ
  recordsUpdated : ℕ
  recordsFailed : ℕ
  errors : List ErrorDetail

def Tally.zero : Tally := ⟨0, 0, 0, []⟩

/-- One more record, with what its reconciliation ended with. The `catch` reads the
identifiers of the record again. -/
def Tally.record (t : Tally) (hcmRecord : Json) : Except BatchErr Bool → Except BatchErr Tally
  | .ok updated =>
    .ok
      { t with
        recordsProcessed := t.recordsProcessed + 1
        recordsUpdated := if updated then t.recordsUpdated + 1 else t.recordsUpdated }
  | .error err => do
    -- on a record that is null the `catch` throws in its turn
    let r ← hcmRecord.fields
    return { t with
      recordsProcessed := t.recordsProcessed + 1
      recordsFailed := t.recordsFailed + 1
      errors := t.errors ++ [⟨r.employeeId, r.locationId, r.leaveType, err.message⟩] }

/-- One more row that the payload leaves out. -/
def Tally.omit (t : Tally) (key : BalanceKey) : Tally :=
  { t with
    recordsProcessed := t.recordsProcessed + 1
    recordsFailed := t.recordsFailed + 1
    errors := t.errors ++
      [⟨some (.string key.employeeId), some (.string key.locationId),
        some (.string key.leaveType), "Balance missing from HCM batch payload"⟩] }

def Tally.finalStatus (t : Tally) : SyncLogStatus :=
  if t.recordsFailed = 0 then .completed
  else if t.recordsFailed < t.recordsProcessed then .partialSync
  else .failed

/-- The `catch` block of a run, with the counters at the throw. -/
def batchFailed (syncLog : ℕ) (t : Tally) (err : BatchErr) : Batch Unit := do
  let now ← Batch.call .now
  Batch.call (.updateSyncLog syncLog
    { status := .failed
      recordsProcessed := t.recordsProcessed
      recordsUpdated := t.recordsUpdated
      recordsFailed := t.recordsFailed
      errorDetails := some [⟨none, none, none, err.message⟩]
      completedAt := now })

/-- One step of the `try` block and what follows it. -/
def tryStep {β : Type} (syncLog : ℕ) (t : Tally) (p : Batch β) (next : β → Batch Unit) :
    Batch Unit :=
  p.attempt.bind fun
    | .ok v => next v
    | .error err => batchFailed syncLog t err

/-- The loop over the records; `next` is what follows it. -/
def reconcileEach (syncLog : ℕ) (next : Tally → Batch Unit) : List Json → Tally → Batch Unit
  | [], t => next t
  | hcmRecord :: rest, t =>
    (reconcileElement rt hcmRecord).attempt.bind fun updated =>
      match t.record hcmRecord updated with
      | .ok t => reconcileEach syncLog next rest t
      -- both counters are up before the `catch` throws out of the loop
      | .error err =>
        batchFailed syncLog
          { t with
            recordsProcessed := t.recordsProcessed + 1
            recordsFailed := t.recordsFailed + 1 } err

/-- The columns the omission pass sets in a row. -/
def omittedPatch (localBalance : EmployeeBalance) (now : ℕ) : BalancePatch :=
  { hasDiscrepancy := some true
    discrepancyAmount := some (some (localBalance.discrepancyAmount.getD 0))
    hcmLastSync := some (some now) }

/-- The loop over the local rows. -/
def omitEach (hcmKeySet : List String) (syncLog : ℕ) (next : Tally → Batch Unit) :
    List EmployeeBalance → Tally → Batch Unit
  | [], t => next t
  | localBalance :: rest, t =>
    -- the payload names this row
    if localBalance.key.joined ∈ hcmKeySet then omitEach hcmKeySet syncLog next rest t
    else
      tryStep syncLog (t.omit localBalance.key)
        (do
          let now ← Batch.call .now
          Batch.call (.updateBalance localBalance.key (omittedPatch localBalance now)))
        fun _ => omitEach hcmKeySet syncLog next rest (t.omit localBalance.key)

/-- The entry at the end of the `try` block. -/
def batchCompleted (syncLog : ℕ) (t : Tally) : Batch Unit :=
  tryStep syncLog t
    (do
      let now ← Batch.call .now
      Batch.call (.updateSyncLog syncLog
        { status := t.finalStatus
          recordsProcessed := t.recordsProcessed
          recordsUpdated := t.recordsUpdated
          recordsFailed := t.recordsFailed
          errorDetails := if t.errors.isEmpty then none else some t.errors
          completedAt := now }))
    fun _ => pure ()

/-- The keys of all elements, built before any of them is reconciled. -/
def hcmKeySetOf : List Json → Except BatchErr (List String)
  | [] => .ok []
  | r :: rest => do
    let key ← r.joinedKey rt
    let keys ← hcmKeySetOf rest
    return key :: keys

/-- `!hcmBalances || !Array.isArray(hcmBalances)`. -/
def payloadRecords : Option Json → Except BatchErr (List Json)
  | some (.array items) => .ok items
  | _ => .error .invalidResponse

/-- The `try` and `catch` blocks of `runBatchSync`. -/
def syncBalances (syncLog : ℕ) : Batch Unit :=
  tryStep syncLog .zero
    (do
      let hcmBalances ← Batch.call .getBatchBalances
      let records ← .ofExcept (payloadRecords hcmBalances)
      -- one null element ends the run here, before any record is reconciled
      let hcmKeySet ← .ofExcept (hcmKeySetOf rt records)
      return (records, hcmKeySet))
    fun ⟨records, hcmKeySet⟩ =>
      reconcileEach rt syncLog
        (fun t =>
          tryStep syncLog t (Batch.call .findBalances) fun localBalances =>
            omitEach hcmKeySet syncLog (batchCompleted syncLog) localBalances t)
        records .zero

/-- The log a run begins with. -/
def startedLog (startedAt : ℕ) : SyncLog where
  syncType := .batch
  status := .started
  recordsProcessed := 0
  recordsUpdated := 0
  recordsFailed := 0
  errorDetails := none
  startedAt := startedAt
  completedAt := none

def runBatchSync : Batch Unit := do
  if ← Batch.call .enter then
    let startedAt ← Batch.call .now
    -- outside the `try`: when this save fails the flag stays up
    let syncLog ← Batch.call (.saveSyncLog (startedLog startedAt))
    (syncBalances rt syncLog).ensuring (Batch.call .leave)
  else
    return ()

structure TriggerReply where
  triggered : Bool
  message : String
  deriving DecidableEq, Repr

def triggerManualBatchSync : Batch TriggerReply := do
  if ← Batch.call .isRunning then throw .alreadyRunning
  else
    Batch.call .setImmediate
    return ⟨true, "Batch sync started in background"⟩

end Reconcile

section State

/-- The tables, the flag, the logs by their number, and the runs handed to `setImmediate`. -/
structure BatchState where
  store : Store
  clock : ℕ
  batchRunning : Bool
  syncLogs : List SyncLog
  immediates : ℕ

/-- How an operation turns out: it does what it should, it fails, or the HCM client answers. -/
inductive BatchChoice
  | go
  | fail (e : Err)
  | reply (data : Option Json)

/-- The operations that are awaited; the others cannot fail. -/
def BatchOp.awaited : BatchOp → Bool
  | enter | leave | isRunning | setImmediate | now => false
  | _ => true

namespace BatchState

/-- A call of the repository of the balances. -/
def db (s : BatchState) (o : DbOp) : Except BatchErr o.Resp × BatchState :=
  let r := o.run s.clock 0 s.store
  (r.1.mapError .driver, { s with store := r.2 })

/-- The row of a record that has none yet. -/
def newBalance (key : BalanceKey) (hcmTotal : Num) (now : ℕ) (version : Option String) :
    NewBalance where
  key := key
  totalBalance := hcmTotal
  availableBalance := hcmTotal
  pendingBalance := some 0
  usedBalance := some 0
  hcmTotalBalance := hcmTotal
  hcmLastSync := now
  hcmVersion := version

def insertBalance (rt : Runtime) (columns : Columns) (hcmTotal : Num) (now : ℕ)
    (version : Option String) (s : BatchState) : Except BatchErr Unit × BatchState :=
  match columns.key? with
  | none =>
    (.error (.driver (constraintError "NOT NULL constraint failed: employee_balances")), s)
  | some key =>
    if rt.takes key then
      let r := s.db (.insertBalance (newBalance key hcmTotal now version))
      (r.1.map fun _ => (), r.2)
    else
      (.error (.driver (constraintError "CHECK constraint failed: employee_balances")), s)

end BatchState

def BatchOp.exec (rt : Runtime) :
    (o : BatchOp) → BatchChoice → BatchState → Option (Except BatchErr o.Resp × BatchState)
  -- the flag is up after the test, whichever way it went
  | enter, .go, s => some (.ok (!s.batchRunning), { s with batchRunning := true })
  | leave, .go, s => some (.ok (), { s with batchRunning := false })
  | isRunning, .go, s => some (.ok s.batchRunning, s)
  | setImmediate, .go, s => some (.ok (), { s with immediates := s.immediates + 1 })
  | now, .go, s => some (.ok s.clock, s)
  | saveSyncLog log, .go, s =>
    some (.ok s.syncLogs.length, { s with syncLogs := s.syncLogs ++ [log] })
  | updateSyncLog id patch, .go, s =>
    some (.ok (), { s with syncLogs := s.syncLogs.modify id patch.apply })
  | getBatchBalances, .reply data, s => some (.ok data, s)
  -- columns that the record leaves out do not restrict the search
  | findOne columns, .go, s =>
    some (.ok (rt.pick (s.store.balances.filter (columns.admits ·.key))), s)
  | insertBalance columns hcmTotal hcmLastSync version, .go, s =>
    some (s.insertBalance rt columns hcmTotal hcmLastSync version)
  | updateBalance key patch, .go, s => some (s.db (.saveBalance key patch))
  | findBalances, .go, s => some (.ok s.store.balances, s)
  | o, .fail e, s => if o.awaited then some (.error (.driver e), s) else none
  | _, _, _ => none

end State

end TimeOff
