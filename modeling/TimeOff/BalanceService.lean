import TimeOff.Ops

/-! `BalanceService`: the balance mutations called inside a transaction, and the upsert. -/
namespace TimeOff

open Async

/-- The common course of the three mutations: load the row, check it, save the new amounts. -/
def moveDays (key : BalanceKey) (notFound : ServiceError)
    (shortfall : EmployeeBalance → Option ServiceError)
    (patch : EmployeeBalance → BalancePatch) : Tx Unit := do
  match ← Tx.db (.findBalance key) with
  | none => throw (.service notFound)
  | some balance =>
    match shortfall balance with
    | some e => throw (.service e)
    -- `shortfall` compares the amounts of the row as it was read
    | none => Tx.db (.saveBalance key (patch balance))

def deductPatch (days : Num) (balance : EmployeeBalance) : BalancePatch :=
  { availableBalance := some (Num.sub (some balance.availableBalance) days)
    pendingBalance := some (Num.add (some balance.pendingBalance) days) }

def releasePatch (days : Num) (balance : EmployeeBalance) : BalancePatch :=
  { pendingBalance := some (Num.sub (some balance.pendingBalance) days)
    availableBalance := some (Num.add (some balance.availableBalance) days) }

def finalizePatch (days : Num) (balance : EmployeeBalance) : BalancePatch :=
  { pendingBalance := some (Num.sub (some balance.pendingBalance) days)
    usedBalance := some (Num.add (some balance.usedBalance) days) }

def availableShortfall (key : BalanceKey) (days : Num) (balance : EmployeeBalance) :
    Option ServiceError :=
  if Num.lt (some balance.availableBalance) days then
    some (.insufficientBalance days (some balance.availableBalance) (some balance.pendingBalance)
      (some balance.usedBalance) key.leaveType)
  else none

def pendingShortfall (move : BalanceMove) (key : BalanceKey) (days : Num)
    (balance : EmployeeBalance) : Option ServiceError :=
  if Num.lt (some balance.pendingBalance) days then
    some (.pendingUnderflow move key (some balance.pendingBalance) days)
  else none

def atomicDeduct (key : BalanceKey) (days : Num) : Tx Unit :=
  moveDays key (.balanceNotFound .deduct key) (availableShortfall key days) (deductPatch days)

def releaseFromPending (key : BalanceKey) (days : Num) : Tx Unit :=
  moveDays key (.balanceNotFound .release key) (pendingShortfall .release key days)
    (releasePatch days)

def finalizeUsed (key : BalanceKey) (days : Num) : Tx Unit :=
  moveDays key (.balanceNotFound .finalize key) (pendingShortfall .finalize key days)
    (finalizePatch days)

def upsertBalance (key : BalanceKey) (totalBalance : Num) : Svc EmployeeBalance := do
  match ← Svc.db (.findBalance key) with
  -- an existing row is returned unchanged, its total too
  | some existing => return existing
  | none =>
    let now ← Svc.now
    Svc.db (.insertBalance
      { key := key
        totalBalance := totalBalance
        availableBalance := totalBalance
        pendingBalance := some 0
        usedBalance := some 0
        hcmTotalBalance := totalBalance
        hcmLastSync := now })

/-- The payload of the HCM for one balance: `totalBalance` is what `parseFloat` makes of it,
`version` what `version || null` does. -/
structure HcmRecord where
  key : BalanceKey
  totalBalance : Num
  version : Option String
  deriving DecidableEq, Repr

/-- `0.001`, the drift `applyHcmRealTimeUpdate` ignores. -/
def realTimeTolerance : ℚ := 1 / 1000

section RealTime

variable (fl : ℚ → ℚ)

/-- `hcmTotal - localTotal`. An amount stands for the double nearest to it: `fl` is what a double
makes of a number, `id` where the arithmetic is taken to be exact. -/
def EmployeeBalance.driftIn (balance : EmployeeBalance) (hcmTotal : ℚ) : ℚ :=
  fl (fl hcmTotal -
    fl (fl (fl balance.usedBalance + fl balance.pendingBalance) + fl balance.availableBalance))

def driftIn (balance : EmployeeBalance) (hcmTotal : Num) : Num :=
  hcmTotal.map (balance.driftIn fl)

/-- `parseFloat(balance.availableBalance) + drift`. -/
def raisedIn (balance : EmployeeBalance) (drift : Num) : Num :=
  drift.map fun drift => fl (fl balance.availableBalance + drift)

/-- What `applyHcmRealTimeUpdate` sets on the row it loaded. -/
def realTimePatchIn (balance : EmployeeBalance) (hcmTotal : Num) (version : Option String)
    (now : ℕ) : BalancePatch :=
  let drift := driftIn fl balance hcmTotal
  let patch : BalancePatch :=
    { hcmTotalBalance := some hcmTotal
      hcmLastSync := some (some now)
      hcmVersion := some version
      hasDiscrepancy := some false
      discrepancyAmount := some none }
  -- the HCM has more: an accrual, safe to add
  if Num.lt (some (fl realTimeTolerance)) drift then
    { patch with
      availableBalance := some (raisedIn fl balance drift)
      totalBalance := some hcmTotal }
  -- the HCM has less: flagged for a manual review, never taken from the available days
  else if drift.lt (some (-fl realTimeTolerance)) then
    { patch with
      hasDiscrepancy := some true
      discrepancyAmount := some drift.abs }
  else patch

/-- Answers whether the row exists. -/
def applyHcmRealTimeUpdateIn (key : BalanceKey) (hcmTotal : Num) (version : Option String) :
    Tx Bool := do
  match ← Tx.db (.findBalance key) with
  -- no local row to update
  | none => return false
  | some balance =>
    let now ← Tx.now
    Tx.db (.saveBalance key (realTimePatchIn fl balance hcmTotal version now))
    return true

end RealTime

/-! In exact numbers. -/

abbrev drift (balance : EmployeeBalance) (hcmTotal : Num) : Num :=
  driftIn id balance hcmTotal

abbrev realTimePatch (balance : EmployeeBalance) (hcmTotal : Num) (version : Option String)
    (now : ℕ) : BalancePatch :=
  realTimePatchIn id balance hcmTotal version now

def applyHcmRealTimeUpdate (key : BalanceKey) (hcmTotal : Num) (version : Option String) :
    Tx Bool :=
  applyHcmRealTimeUpdateIn id key hcmTotal version

theorem drift_none (balance : EmployeeBalance) : drift balance none = none := rfl

theorem drift_some (balance : EmployeeBalance) (hcmTotal : ℚ) :
    drift balance (some hcmTotal) = some (hcmTotal -
      (balance.usedBalance + balance.pendingBalance + balance.availableBalance)) := rfl

end TimeOff
