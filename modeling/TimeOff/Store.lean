import TimeOff.Entities
import Mathlib.Data.List.Sort

/-! The three tables and what one repository or manager call does to them. A call is atomic.
`save` writes the columns that were changed on the loaded entity and steps the version
column without comparing it; the columns of a rejected statement are not written. -/
namespace TimeOff

/-- The columns of `employee_balances` a call writes; an amount may be `NaN`. -/
structure BalancePatch where
  totalBalance : Option Num := none
  availableBalance : Option Num := none
  pendingBalance : Option Num := none
  usedBalance : Option Num := none
  hcmTotalBalance : Option Num := none
  hcmLastSync : Option (Option ℕ) := none
  hcmVersion : Option (Option String) := none
  hasDiscrepancy : Option Bool := none
  discrepancyAmount : Option Num := none
  version : Option ℕ := none
  deriving DecidableEq, Repr

/-- A number is written into the text of the statement, where `NaN` is the name of a column that
the table does not have. -/
def BalancePatch.accepted (p : BalancePatch) : Bool :=
  [p.totalBalance, p.availableBalance, p.pendingBalance, p.usedBalance, p.hcmTotalBalance].all
    (· ≠ some none)

def amountOr (p : Option Num) (old : ℚ) : ℚ :=
  (p.getD (some old)).getD old

def BalancePatch.apply (p : BalancePatch) (b : EmployeeBalance) : EmployeeBalance where
  key := b.key
  totalBalance := amountOr p.totalBalance b.totalBalance
  availableBalance := amountOr p.availableBalance b.availableBalance
  pendingBalance := amountOr p.pendingBalance b.pendingBalance
  usedBalance := amountOr p.usedBalance b.usedBalance
  hcmTotalBalance := amountOr p.hcmTotalBalance b.hcmTotalBalance
  hcmLastSync := p.hcmLastSync.getD b.hcmLastSync
  hcmVersion := p.hcmVersion.getD b.hcmVersion
  hasDiscrepancy := p.hasDiscrepancy.getD b.hasDiscrepancy
  discrepancyAmount := p.discrepancyAmount.getD b.discrepancyAmount
  version := p.version.getD b.version

/-- The patch that writes back what `b` has in the columns of `p`. -/
def BalancePatch.before (p : BalancePatch) (b : EmployeeBalance) : BalancePatch where
  totalBalance := p.totalBalance.map fun _ => some b.totalBalance
  availableBalance := p.availableBalance.map fun _ => some b.availableBalance
  pendingBalance := p.pendingBalance.map fun _ => some b.pendingBalance
  usedBalance := p.usedBalance.map fun _ => some b.usedBalance
  hcmTotalBalance := p.hcmTotalBalance.map fun _ => some b.hcmTotalBalance
  hcmLastSync := p.hcmLastSync.map fun _ => b.hcmLastSync
  hcmVersion := p.hcmVersion.map fun _ => b.hcmVersion
  hasDiscrepancy := p.hasDiscrepancy.map fun _ => b.hasDiscrepancy
  discrepancyAmount := p.discrepancyAmount.map fun _ => b.discrepancyAmount
  version := p.version.map fun _ => b.version

/-- The columns of `time_off_requests` a call writes. -/
structure RequestPatch where
  status : Option RequestStatus := none
  approvedBy : Option (Option String) := none
  approvedAt : Option (Option ℕ) := none
  rejectionReason : Option (Option String) := none
  hcmValidated : Option Bool := none
  hcmSyncStatus : Option HcmSyncStatus := none
  hcmSyncAttempts : Option ℕ := none
  hcmLastSyncAt : Option (Option ℕ) := none
  version : Option ℕ := none
  updatedAt : Option ℕ := none
  deriving DecidableEq, Repr

def RequestPatch.apply (p : RequestPatch) (r : TimeOffRequest) : TimeOffRequest :=
  { r with
    status := p.status.getD r.status
    approvedBy := p.approvedBy.getD r.approvedBy
    approvedAt := p.approvedAt.getD r.approvedAt
    rejectionReason := p.rejectionReason.getD r.rejectionReason
    hcmValidated := p.hcmValidated.getD r.hcmValidated
    hcmSyncStatus := p.hcmSyncStatus.getD r.hcmSyncStatus
    hcmSyncAttempts := p.hcmSyncAttempts.getD r.hcmSyncAttempts
    hcmLastSyncAt := p.hcmLastSyncAt.getD r.hcmLastSyncAt
    version := p.version.getD r.version
    updatedAt := p.updatedAt.getD r.updatedAt }

def RequestPatch.before (p : RequestPatch) (r : TimeOffRequest) : RequestPatch where
  status := p.status.map fun _ => r.status
  approvedBy := p.approvedBy.map fun _ => r.approvedBy
  approvedAt := p.approvedAt.map fun _ => r.approvedAt
  rejectionReason := p.rejectionReason.map fun _ => r.rejectionReason
  hcmValidated := p.hcmValidated.map fun _ => r.hcmValidated
  hcmSyncStatus := p.hcmSyncStatus.map fun _ => r.hcmSyncStatus
  hcmSyncAttempts := p.hcmSyncAttempts.map fun _ => r.hcmSyncAttempts
  hcmLastSyncAt := p.hcmLastSyncAt.map fun _ => r.hcmLastSyncAt
  version := p.version.map fun _ => r.version
  updatedAt := p.updatedAt.map fun _ => r.updatedAt

theorem amountOr_before (p : Option Num) (old : ℚ) :
    amountOr (p.map fun _ => some old) (amountOr p old) = old := by
  cases p <;> rfl

theorem getD_before {α : Type} (p : Option α) (old : α) :
    (p.map fun _ => old).getD (p.getD old) = old := by
  cases p <;> rfl

theorem balance_before_apply (p : BalancePatch) (b : EmployeeBalance) :
    (p.before b).apply (p.apply b) = b := by
  simp only [BalancePatch.before, BalancePatch.apply, amountOr_before, getD_before]

theorem request_before_apply (p : RequestPatch) (r : TimeOffRequest) :
    (p.before r).apply (p.apply r) = r := by
  simp only [RequestPatch.before, RequestPatch.apply, getD_before]

@[simp] theorem balancePatch_key (p : BalancePatch) (b : EmployeeBalance) :
    (p.apply b).key = b.key := rfl

@[simp] theorem requestPatch_id (p : RequestPatch) (r : TimeOffRequest) :
    (p.apply r).id = r.id := rfl

structure NewBalance where
  key : BalanceKey
  totalBalance : Num
  availableBalance : Num
  pendingBalance : Num
  usedBalance : Num
  hcmTotalBalance : Num
  hcmLastSync : ℕ
  hcmVersion : Option String := none
  deriving DecidableEq, Repr

/-- The row of a new balance, unless an amount is `NaN`. -/
def NewBalance.row (b : NewBalance) : Option EmployeeBalance :=
  match b.totalBalance, b.availableBalance, b.pendingBalance, b.usedBalance,
    b.hcmTotalBalance with
  | some total, some available, some pending, some used, some hcmTotal =>
    some
      { key := b.key
        totalBalance := total
        availableBalance := available
        pendingBalance := pending
        usedBalance := used
        hcmTotalBalance := hcmTotal
        hcmLastSync := some b.hcmLastSync
        hcmVersion := b.hcmVersion
        hasDiscrepancy := false
        discrepancyAmount := none
        version := 1 }
  | _, _, _, _, _ => none

structure NewRequest where
  idempotencyKey : String
  employeeId : String
  locationId : String
  leaveType : String
  startDate : String
  endDate : String
  daysRequested : Num
  status : RequestStatus
  requestedBy : String
  notes : Option String
  hcmSyncStatus : HcmSyncStatus
  deriving DecidableEq, Repr

/-- The row of a new request under the id its insertion draws. -/
def NewRequest.row (r : NewRequest) (now id : ℕ) : Option TimeOffRequest :=
  r.daysRequested.map fun days =>
    { id := id
      idempotencyKey := r.idempotencyKey
      employeeId := r.employeeId
      locationId := r.locationId
      leaveType := r.leaveType
      startDate := r.startDate
      endDate := r.endDate
      daysRequested := days
      status := r.status
      requestedBy := r.requestedBy
      approvedBy := none
      approvedAt := none
      rejectionReason := none
      notes := r.notes
      hcmValidated := false
      hcmSyncStatus := r.hcmSyncStatus
      hcmSyncAttempts := 0
      hcmLastSyncAt := none
      version := 1
      createdAt := now
      updatedAt := now }

theorem newBalance_row_key {b : NewBalance} {row : EmployeeBalance} (h : b.row = some row) :
    row.key = b.key := by
  unfold NewBalance.row at h
  split at h
  · cases h
    rfl
  · cases h

theorem newRequest_row_eq {r : NewRequest} {now id : ℕ} {row : TimeOffRequest}
    (h : r.row now id = some row) :
    row.id = id ∧ row.idempotencyKey = r.idempotencyKey := by
  simp only [NewRequest.row, Option.map_eq_some_iff] at h
  obtain ⟨days, _, rfl⟩ := h
  exact ⟨rfl, rfl⟩

/-- The columns `_assertNoOverlap` selects. -/
structure ActiveRequest where
  id : ℕ
  startDate : String
  endDate : String
  status : RequestStatus
  deriving DecidableEq, Repr

/-- The three tables, with the unique constraints of their columns. -/
structure Store where
  balances : List EmployeeBalance
  requests : List TimeOffRequest
  records : List IdempotencyRecord
  balanceKeys : (balances.map (·.key)).Nodup
  requestIds : (requests.map (·.id)).Nodup
  requestKeys : (requests.map (·.idempotencyKey)).Nodup
  recordKeys : (records.map (·.idempotencyKey)).Nodup
  deriving DecidableEq

def isActive (r : TimeOffRequest) : Bool :=
  r.status = .pending || r.status = .approved

namespace Store

def empty : Store := ⟨[], [], [], .nil, .nil, .nil, .nil⟩

def ofBalance (b : EmployeeBalance) : Store :=
  { empty with
    balances := [b]
    balanceKeys := List.nodup_singleton _ }

def balance? (s : Store) (key : BalanceKey) : Option EmployeeBalance :=
  s.balances.find? (·.key = key)

def request? (s : Store) (id : ℕ) : Option TimeOffRequest :=
  s.requests.find? (·.id = id)

def requestByKey? (s : Store) (idempotencyKey : String) : Option TimeOffRequest :=
  s.requests.find? (·.idempotencyKey = idempotencyKey)

def record? (s : Store) (idempotencyKey : String) : Option IdempotencyRecord :=
  s.records.find? (·.idempotencyKey = idempotencyKey)

def activeRequests (s : Store) (employeeId locationId : String) : List ActiveRequest :=
  (s.requests.filter fun r =>
    r.employeeId = employeeId && r.locationId = locationId && isActive r).map
      fun r => ⟨r.id, r.startDate, r.endDate, r.status⟩

theorem map_ite_key {α β : Type} (key : α → β) (c : α → Prop) [DecidablePred c] (f : α → α)
    (hf : ∀ a, key (f a) = key a) (l : List α) :
    (l.map fun a => if c a then f a else a).map key = l.map key := by
  rw [List.map_map]
  refine List.map_congr_left fun a _ => ?_
  by_cases ha : c a <;> simp [ha, hf]

/-- Writes the columns of `patch b` in the row `b` of `key`. -/
def saveBalance (s : Store) (key : BalanceKey) (patch : EmployeeBalance → BalancePatch) : Store :=
  { s with
    balances := s.balances.map fun b => if b.key = key then (patch b).apply b else b
    balanceKeys := by
      rw [map_ite_key (·.key) (·.key = key) (fun b => (patch b).apply b) fun _ => rfl]
      exact s.balanceKeys }

/-- Writes the columns of `patch r` in the row `r` of `id`. -/
def saveRequest (s : Store) (id : ℕ) (patch : TimeOffRequest → RequestPatch) : Store :=
  { s with
    requests := s.requests.map fun r => if r.id = id then (patch r).apply r else r
    requestIds := by
      rw [map_ite_key (·.id) (·.id = id) (fun r => (patch r).apply r) fun _ => rfl]
      exact s.requestIds
    requestKeys := by
      rw [map_ite_key (·.idempotencyKey) (·.id = id) (fun r => (patch r).apply r) fun _ => rfl]
      exact s.requestKeys }

theorem nodup_append_key {α β : Type} [DecidableEq β] {key : α → β} {l : List α} {a : α}
    (hl : (l.map key).Nodup) (ha : l.find? (fun b => decide (key b = key a)) = none) :
    ((l ++ [a]).map key).Nodup := by
  rw [List.map_append, List.map_singleton]
  refine List.nodup_append.mpr ⟨hl, List.nodup_singleton _, ?_⟩
  intro x hx y hy hxy
  obtain ⟨b, hb, rfl⟩ := List.mem_map.mp hx
  rw [List.mem_singleton.mp hy] at hxy
  simpa [hxy] using List.find?_eq_none.mp ha b hb

def insertBalance (s : Store) (row : EmployeeBalance) : Option Store :=
  if h : s.balance? row.key = none then
    some { s with
      balances := s.balances ++ [row]
      balanceKeys := nodup_append_key s.balanceKeys h }
  else none

def insertRequest (s : Store) (row : TimeOffRequest) : Option Store :=
  if h : s.request? row.id = none ∧ s.requestByKey? row.idempotencyKey = none then
    some { s with
      requests := s.requests ++ [row]
      requestIds := nodup_append_key s.requestIds h.1
      requestKeys := nodup_append_key s.requestKeys h.2 }
  else none

def insertRecord (s : Store) (row : IdempotencyRecord) : Option Store :=
  if h : s.record? row.idempotencyKey = none then
    some { s with
      records := s.records ++ [row]
      recordKeys := nodup_append_key s.recordKeys h }
  else none

theorem nodup_filter_key {α β : Type} {key : α → β} {l : List α} (p : α → Bool)
    (hl : (l.map key).Nodup) : ((l.filter p).map key).Nodup :=
  hl.sublist (List.filter_sublist.map key)

def removeBalance (s : Store) (key : BalanceKey) : Store :=
  { s with
    balances := s.balances.filter (·.key ≠ key)
    balanceKeys := nodup_filter_key _ s.balanceKeys }

def removeRequest (s : Store) (id : ℕ) : Store :=
  { s with
    requests := s.requests.filter (·.id ≠ id)
    requestIds := nodup_filter_key _ s.requestIds
    requestKeys := nodup_filter_key _ s.requestKeys }

def removeRecord (s : Store) (idempotencyKey : String) : Store :=
  { s with
    records := s.records.filter (·.idempotencyKey ≠ idempotencyKey)
    recordKeys := nodup_filter_key _ s.recordKeys }

section Lookup

variable {α β : Type} [DecidableEq β] {key : α → β} {l : List α}

theorem find?_key_eq_some (hl : (l.map key).Nodup) {k : β} {a : α} :
    l.find? (fun b => decide (key b = k)) = some a ↔ a ∈ l ∧ key a = k := by
  constructor
  · intro h
    exact ⟨List.mem_of_find?_eq_some h, by simpa using List.find?_some h⟩
  · rintro ⟨ha, rfl⟩
    induction l with
    | nil => cases ha
    | cons b l ih =>
      rw [List.map_cons, List.nodup_cons] at hl
      rcases List.mem_cons.mp ha with rfl | ha
      · simp
      · have hne : key b ≠ key a := fun h => hl.1 (h ▸ List.mem_map_of_mem ha)
        simpa [hne] using ih hl.2 ha

theorem find?_key_map (key : α → β) (c : α → Prop) [DecidablePred c] (f : α → α)
    (hf : ∀ a, key (f a) = key a) (l : List α) (k : β) :
    (l.map fun a => if c a then f a else a).find? (fun b => decide (key b = k)) =
      (l.find? fun b => decide (key b = k)).map fun a => if c a then f a else a := by
  have hkey : (fun b => decide (key b = k)) ∘ (fun a => if c a then f a else a) =
      fun b => decide (key b = k) := by
    funext a
    by_cases ha : c a <;> simp [ha, hf]
  rw [List.find?_map, hkey]

theorem find?_key_append {a : α} {k : β} :
    (l ++ [a]).find? (fun b => decide (key b = k)) =
      (l.find? fun b => decide (key b = k)).or (if key a = k then some a else none) := by
  rw [List.find?_append]
  by_cases h : key a = k <;> simp [h]

theorem find?_key_filter {k k' : β} :
    (l.filter fun b => decide (key b ≠ k')).find? (fun b => decide (key b = k)) =
      if k = k' then none else l.find? fun b => decide (key b = k) := by
  rw [List.find?_filter]
  by_cases h : k = k'
  · rw [if_pos h, List.find?_eq_none]
    intro b _
    simp [h]
  · rw [if_neg h]
    congr 1
    funext b
    by_cases hb : key b = k <;> simp [hb, h]

end Lookup

section Rows

variable {s s' : Store}

theorem balance?_eq_some {key : BalanceKey} {b : EmployeeBalance} :
    s.balance? key = some b ↔ b ∈ s.balances ∧ b.key = key :=
  find?_key_eq_some s.balanceKeys

theorem request?_eq_some {id : ℕ} {r : TimeOffRequest} :
    s.request? id = some r ↔ r ∈ s.requests ∧ r.id = id :=
  find?_key_eq_some s.requestIds

theorem requestByKey?_eq_some {idempotencyKey : String} {r : TimeOffRequest} :
    s.requestByKey? idempotencyKey = some r ↔
      r ∈ s.requests ∧ r.idempotencyKey = idempotencyKey :=
  find?_key_eq_some s.requestKeys

theorem record?_eq_some {idempotencyKey : String} {r : IdempotencyRecord} :
    s.record? idempotencyKey = some r ↔ r ∈ s.records ∧ r.idempotencyKey = idempotencyKey :=
  find?_key_eq_some s.recordKeys

theorem balance?_saveBalance (key k : BalanceKey) (patch : EmployeeBalance → BalancePatch) :
    (s.saveBalance key patch).balance? k =
      (s.balance? k).map fun b => if b.key = key then (patch b).apply b else b :=
  find?_key_map EmployeeBalance.key (fun b => b.key = key) (fun b => (patch b).apply b)
    (fun _ => rfl) s.balances k

theorem request?_saveRequest (id i : ℕ) (patch : TimeOffRequest → RequestPatch) :
    (s.saveRequest id patch).request? i =
      (s.request? i).map fun r => if r.id = id then (patch r).apply r else r :=
  find?_key_map TimeOffRequest.id (fun r => r.id = id) (fun r => (patch r).apply r)
    (fun _ => rfl) s.requests i

theorem insertBalance_eq {row : EmployeeBalance} (h : s.insertBalance row = some s') :
    s.balance? row.key = none ∧ s'.balances = s.balances ++ [row] ∧
      s'.requests = s.requests ∧ s'.records = s.records := by
  unfold insertBalance at h
  split at h
  · rename_i hnone
    cases h
    exact ⟨hnone, rfl, rfl, rfl⟩
  · cases h

theorem insertRequest_eq {row : TimeOffRequest} (h : s.insertRequest row = some s') :
    s.request? row.id = none ∧ s.requestByKey? row.idempotencyKey = none ∧
      s'.requests = s.requests ++ [row] ∧ s'.balances = s.balances ∧ s'.records = s.records := by
  unfold insertRequest at h
  split at h
  · rename_i hnone
    cases h
    exact ⟨hnone.1, hnone.2, rfl, rfl, rfl⟩
  · cases h

theorem insertRecord_eq {row : IdempotencyRecord} (h : s.insertRecord row = some s') :
    s.record? row.idempotencyKey = none ∧ s'.records = s.records ++ [row] ∧
      s'.balances = s.balances ∧ s'.requests = s.requests := by
  unfold insertRecord at h
  split at h
  · rename_i hnone
    cases h
    exact ⟨hnone, rfl, rfl, rfl⟩
  · cases h

end Rows

end Store

inductive DbOp
  | findBalance (key : BalanceKey)
  | findBalances (employeeId locationId : String)
  | saveBalance (key : BalanceKey) (patch : BalancePatch)
  | insertBalance (balance : NewBalance)
  | findRequest (id : ℕ)
  | findRequestByKey (idempotencyKey : String)
  | findActiveRequests (employeeId locationId : String)
  | findPendingSync (take : ℕ)
  | saveRequest (id : ℕ) (patch : RequestPatch)
  | insertRequest (request : NewRequest)
  | findRecord (idempotencyKey : String)
  | insertRecord (record : IdempotencyRecord)

@[reducible] def DbOp.Resp : DbOp → Type
  | findBalance _ => Option EmployeeBalance
  | findBalances _ _ => List BalanceKey
  | saveBalance _ _ => Unit
  | insertBalance _ => EmployeeBalance
  | findRequest _ => Option TimeOffRequest
  | findRequestByKey _ => Option TimeOffRequest
  | findActiveRequests _ _ => List ActiveRequest
  | findPendingSync _ => List TimeOffRequest
  | saveRequest _ _ => Unit
  | insertRequest _ => TimeOffRequest
  | findRecord _ => Option IdempotencyRecord
  | insertRecord _ => Unit

def constraintError (message : String) : Err := .sqlite .constraint message

/-- What a statement with `NaN` in its text fails with. -/
def nanError : Err := .sqlite .other "SQLITE_ERROR: no such column: NaN"

/-- `order: { hcmSyncAttempts: 'ASC', createdAt: 'ASC' }`. -/
def syncOrder (a b : TimeOffRequest) : Prop :=
  a.hcmSyncAttempts < b.hcmSyncAttempts ∨
    a.hcmSyncAttempts = b.hcmSyncAttempts ∧ a.createdAt ≤ b.createdAt

instance : DecidableRel syncOrder := fun _ _ => inferInstanceAs (Decidable (_ ∨ _))

/-- One call of a repository or manager at time `now`, when the driver does not fail; an
inserted request gets the id `fresh`. -/
def DbOp.run (now fresh : ℕ) : (o : DbOp) → Store → Except Err o.Resp × Store
  | findBalance key, s => (.ok (s.balance? key), s)
  | findBalances employeeId locationId, s =>
    (.ok ((s.balances.filter fun b =>
      b.key.employeeId = employeeId && b.key.locationId = locationId).map (·.key)), s)
  | saveBalance key patch, s =>
    if patch.accepted then
      (.ok (), s.saveBalance key fun b => { patch with version := some (b.version + 1) })
    else (.error nanError, s)
  | insertBalance balance, s =>
    match balance.row with
    | none => (.error nanError, s)
    | some row =>
      match s.insertBalance row with
      | none => (.error (constraintError "UNIQUE constraint failed: employee_balances"), s)
      | some s' => (.ok row, s')
  | findRequest id, s => (.ok (s.request? id), s)
  | findRequestByKey idempotencyKey, s => (.ok (s.requestByKey? idempotencyKey), s)
  | findActiveRequests employeeId locationId, s =>
    (.ok (s.activeRequests employeeId locationId), s)
  | findPendingSync take, s =>
    (.ok (((s.requests.filter (·.hcmSyncStatus = .pending)).insertionSort syncOrder).take take),
      s)
  | saveRequest id patch, s =>
    (.ok (), s.saveRequest id fun r =>
      { patch with version := some (r.version + 1), updatedAt := some now })
  | insertRequest request, s =>
    -- the id and the two dates are given by the table
    match request.row now fresh with
    | none => (.error nanError, s)
    | some row =>
      match s.insertRequest row with
      | none => (.error (constraintError "UNIQUE constraint failed: time_off_requests"), s)
      | some s' => (.ok row, s')
  | findRecord idempotencyKey, s => (.ok (s.record? idempotencyKey), s)
  | insertRecord record, s =>
    match s.insertRecord record with
    | none => (.error (constraintError "UNIQUE constraint failed: idempotency_records"), s)
    | some s' => (.ok (), s')

/-- A call leaves the requests alone, saves columns of one, or inserts one. -/
theorem DbOp.run_requests (o : DbOp) (now fresh : ℕ) (s : Store) :
    (o.run now fresh s).2.requests = s.requests ∨
      (∃ id patch, o = saveRequest id patch ∧ (o.run now fresh s).2 = s.saveRequest id fun r =>
        { patch with version := some (r.version + 1), updatedAt := some now }) ∨
      ∃ request row, o = insertRequest request ∧ request.row now fresh = some row ∧
        s.insertRequest row = some (o.run now fresh s).2 := by
  cases o with
  | saveBalance key patch =>
    simp only [DbOp.run]
    split <;> exact .inl rfl
  | insertBalance balance =>
    simp only [DbOp.run]
    split
    · exact .inl rfl
    · split
      · exact .inl rfl
      · rename_i hs
        exact .inl (Store.insertBalance_eq hs).2.2.1
  | saveRequest id patch => exact .inr (.inl ⟨id, patch, rfl, rfl⟩)
  | insertRequest request =>
    cases hrow : request.row now fresh with
    | none => exact .inl (by simp [DbOp.run, hrow])
    | some row =>
      cases hs : s.insertRequest row with
      | none => exact .inl (by simp [DbOp.run, hrow, hs])
      | some s' => exact .inr (.inr ⟨request, row, rfl, hrow, by simp [DbOp.run, hrow, hs]⟩)
  | insertRecord row =>
    simp only [DbOp.run]
    split
    · exact .inl rfl
    · rename_i hs
      exact .inl (Store.insertRecord_eq hs).2.2.2
  | _ => exact .inl rfl

/-- What undoes one write of a transaction: the before-image of the columns it wrote, or the
removal of the row it inserted. -/
inductive Undo
  | balance (key : BalanceKey) (patch : BalancePatch)
  | request (id : ℕ) (patch : RequestPatch)
  | newBalance (key : BalanceKey)
  | newRequest (id : ℕ)
  | newRecord (idempotencyKey : String)
  deriving DecidableEq

def Undo.run : Undo → Store → Store
  | balance key patch, s => s.saveBalance key fun _ => patch
  | request id patch, s => s.saveRequest id fun _ => patch
  | newBalance key, s => s.removeBalance key
  | newRequest id, s => s.removeRequest id
  | newRecord idempotencyKey, s => s.removeRecord idempotencyKey

/-- What undoes a call that succeeds from `s`. -/
def DbOp.undo (fresh : ℕ) : DbOp → Store → Option Undo
  | saveBalance key patch, s =>
    (s.balance? key).map fun b =>
      .balance key (BalancePatch.before { patch with version := some 0 } b)
  | insertBalance balance, _ => some (.newBalance balance.key)
  | saveRequest id patch, s =>
    (s.request? id).map fun r =>
      .request id (RequestPatch.before { patch with version := some 0, updatedAt := some 0 } r)
  | insertRequest _, _ => some (.newRequest fresh)
  | insertRecord record, _ => some (.newRecord record.idempotencyKey)
  | _, _ => none

end TimeOff
