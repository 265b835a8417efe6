import Mathlib.Algebra.Order.Field.Rat
import Mathlib.Algebra.Order.Group.Unbundled.Abs
import Mathlib.Data.List.Infix

/-! The constants, entities and errors of the service. A JavaScript number is a
rational or `NaN` (`none`); a primary key is the value its generator drew. -/
namespace TimeOff

inductive RequestStatus
  | pending
  | approved
  | rejected
  | cancelled
  deriving DecidableEq, Repr

def RequestStatus.text : RequestStatus → String
  | .pending => "PENDING"
  | .approved => "APPROVED"
  | .rejected => "REJECTED"
  | .cancelled => "CANCELLED"

inductive HcmSyncStatus
  | pending
  | success
  | failed
  | skipped
  deriving DecidableEq, Repr

def validTransitions : RequestStatus → List RequestStatus
  | .pending => [.approved, .rejected, .cancelled]
  | .approved => []
  | .rejected => []
  | .cancelled => []

theorem pending_of_mem_validTransitions {current target : RequestStatus}
    (h : target ∈ validTransitions current) : current = .pending := by
  cases current <;> simp_all [validTransitions]

/-- A JavaScript number; `none` is `NaN`. -/
abbrev Num := Option ℚ

def Num.add : Num → Num → Num
  | some x, some y => some (x + y)
  | _, _ => none

def Num.sub : Num → Num → Num
  | some x, some y => some (x - y)
  | _, _ => none

/-- `a < b`, false when either side is `NaN`. -/
def Num.lt : Num → Num → Bool
  | some x, some y => x < y
  | _, _ => false

def Num.le : Num → Num → Bool
  | some x, some y => x ≤ y
  | _, _ => false

def Num.abs : Num → Num
  | some x => some |x|
  | none => none

def Num.text : Num → String
  | some x => toString x
  | none => "NaN"

/-- The unique triple of a row of `employee_balances`; it stands for the row's id. -/
structure BalanceKey where
  employeeId : String
  locationId : String
  leaveType : String
  deriving DecidableEq, Repr

structure EmployeeBalance where
  key : BalanceKey
  totalBalance : ℚ
  availableBalance : ℚ
  pendingBalance : ℚ
  usedBalance : ℚ
  hcmTotalBalance : ℚ
  hcmLastSync : Option ℕ
  hcmVersion : Option String
  hasDiscrepancy : Bool
  discrepancyAmount : Option ℚ
  version : ℕ
  deriving DecidableEq, Repr

structure TimeOffRequest where
  id : ℕ
  idempotencyKey : String
  employeeId : String
  locationId : String
  leaveType : String
  startDate : String
  endDate : String
  daysRequested : ℚ
  status : RequestStatus
  requestedBy : String
  approvedBy : Option String
  approvedAt : Option ℕ
  rejectionReason : Option String
  notes : Option String
  hcmValidated : Bool
  hcmSyncStatus : HcmSyncStatus
  hcmSyncAttempts : ℕ
  hcmLastSyncAt : Option ℕ
  version : ℕ
  createdAt : ℕ
  updatedAt : ℕ
  deriving DecidableEq, Repr

def TimeOffRequest.balanceKey (r : TimeOffRequest) : BalanceKey :=
  ⟨r.employeeId, r.locationId, r.leaveType⟩

/-- The object `_serializeRequest` builds, with the keys of the response. -/
structure RequestBody where
  id : ℕ
  idempotencyKey : String
  employeeId : String
  locationId : String
  leaveType : String
  startDate : String
  endDate : String
  daysRequested : ℚ
  status : RequestStatus
  requestedBy : String
  approvedBy : Option String
  approvedAt : Option ℕ
  rejectionReason : Option String
  notes : Option String
  hcmValidated : Bool
  hcmSyncStatus : HcmSyncStatus
  version : ℕ
  createdAt : ℕ
  updatedAt : ℕ
  deriving DecidableEq, Repr

def serializeRequest (r : TimeOffRequest) : RequestBody where
  id := r.id
  idempotencyKey := r.idempotencyKey
  employeeId := r.employeeId
  locationId := r.locationId
  leaveType := r.leaveType
  startDate := r.startDate
  endDate := r.endDate
  daysRequested := r.daysRequested
  status := r.status
  requestedBy := r.requestedBy
  approvedBy := r.approvedBy
  approvedAt := r.approvedAt
  rejectionReason := r.rejectionReason
  notes := r.notes
  hcmValidated := r.hcmValidated
  hcmSyncStatus := r.hcmSyncStatus
  version := r.version
  createdAt := r.createdAt
  updatedAt := r.updatedAt

structure IdempotencyRecord where
  idempotencyKey : String
  employeeId : String
  requestHash : String
  responseStatus : ℕ
  responseBody : RequestBody
  expiresAt : ℕ
  deriving DecidableEq, Repr

structure CreateTimeOffRequestDto where
  employeeId : String
  locationId : String
  leaveType : String
  startDate : String
  endDate : String
  notes : Option String
  deriving DecidableEq, Repr

def CreateTimeOffRequestDto.balanceKey (d : CreateTimeOffRequestDto) : BalanceKey :=
  ⟨d.employeeId, d.locationId, d.leaveType⟩

/-- What the caller of `createRequest` cannot see of the process it runs in: the digest of
`hashObject`, what `new Date` makes of a string outside the `YYYY-MM-DD` form, and the
environment settings the service reads. -/
structure Config where
  hashObject : CreateTimeOffRequestDto → String
  parseOtherDate : String → Option ℤ
  idempotencyTtlMs : ℕ
  retryMaxAttempts : ℕ
  retryBaseDelayMs : ℕ

section PlainConfig

/-- A text that no other text continues. -/
def spell : List Char → List Char
  | [] => ['.']
  | c :: cs => '-' :: c :: spell cs

theorem spell_append_inj {s t u v : List Char} (h : spell s ++ u = spell t ++ v) :
    s = t ∧ u = v := by
  induction s generalizing t with
  | nil =>
    cases t with
    | nil => exact ⟨rfl, List.cons.inj h |>.2⟩
    | cons c t => exact absurd (List.cons.inj h).1 (by decide)
  | cons c s ih =>
    cases t with
    | nil => exact absurd (List.cons.inj h).1 (by decide)
    | cons d t =>
      obtain ⟨hcd, hrest⟩ := List.cons.inj (List.cons.inj h).2
      obtain ⟨hst, huv⟩ := ih hrest
      exact ⟨by rw [hcd, hst], huv⟩

/-- The payload spelled out, which distinguishes all payloads. -/
def plainHash (d : CreateTimeOffRequestDto) : String :=
  String.ofList (spell d.employeeId.toList ++ (spell d.locationId.toList ++
    (spell d.leaveType.toList ++ (spell d.startDate.toList ++ (spell d.endDate.toList ++
      match d.notes with
      | none => []
      | some notes => spell notes.toList)))))

theorem plainHash_injective : Function.Injective plainHash := by
  intro d e h
  -- each field is spelled out and closed, so the text splits one way
  obtain ⟨h1, h⟩ := spell_append_inj (String.ofList_injective h)
  obtain ⟨h2, h⟩ := spell_append_inj h
  obtain ⟨h3, h⟩ := spell_append_inj h
  obtain ⟨h4, h⟩ := spell_append_inj h
  obtain ⟨h5, h⟩ := spell_append_inj h
  have h6 : d.notes = e.notes := by
    cases hd : d.notes with
    | none =>
      cases he : e.notes with
      | none => rfl
      | some n =>
        rw [hd, he] at h
        cases hn : n.toList <;> simp [hn, spell] at h
    | some m =>
      cases he : e.notes with
      | none =>
        rw [hd, he] at h
        cases hm : m.toList <;> simp [hm, spell] at h
      | some n =>
        rw [hd, he] at h
        have hmn : spell m.toList ++ [] = spell n.toList ++ [] := by
          rw [List.append_nil, List.append_nil]
          exact h
        rw [String.toList_injective (spell_append_inj hmn).1]
  cases d
  cases e
  simp only at h6
  simp only [CreateTimeOffRequestDto.mk.injEq]
  exact ⟨String.toList_injective h1, String.toList_injective h2, String.toList_injective h3,
    String.toList_injective h4, String.toList_injective h5, h6⟩

/-- A configuration to compute with. -/
def plainConfig : Config where
  hashObject := plainHash
  parseOtherDate _ := none
  idempotencyTtlMs := 86400000
  retryMaxAttempts := 3
  retryBaseDelayMs := 1000

def plainKey : BalanceKey := ⟨"EMP123", "LOC1", "VACATION"⟩

def plainDto (startDate endDate : String) : CreateTimeOffRequestDto :=
  ⟨"EMP123", "LOC1", "VACATION", startDate, endDate, none⟩

end PlainConfig

/-- The three balance mutations, by the words of their error messages. -/
inductive BalanceMove
  | deduct
  | release
  | finalize
  deriving DecidableEq, Repr

inductive ServiceError
  | missingIdempotencyKey
  | invalidDateRange (message : String)
  | idempotencyConflict
  | overlappingRequest (conflictingRequestId : ℕ) (conflictingStatus : RequestStatus)
      (conflictingRange requestedRange : String)
  | balanceNotFound (move : BalanceMove) (key : BalanceKey)
  | insufficientBalance (requested available pending used : Num) (leaveType : String)
  | pendingUnderflow (move : BalanceMove) (key : BalanceKey) (pending days : Num)
  | writeContention
  | requestNotFound (id : ℕ)
  | invalidStatusTransition (current target : RequestStatus)
  deriving DecidableEq, Repr

def ServiceError.status : ServiceError → ℕ
  | .missingIdempotencyKey => 400
  | .invalidDateRange _ => 422
  | .idempotencyConflict => 409
  | .overlappingRequest .. => 409
  | .balanceNotFound .. => 404
  | .insufficientBalance .. => 422
  | .pendingUnderflow .. => 409
  | .writeContention => 409
  | .requestNotFound _ => 404
  | .invalidStatusTransition .. => 409

def ServiceError.error : ServiceError → String
  | .missingIdempotencyKey => "MISSING_IDEMPOTENCY_KEY"
  | .invalidDateRange _ => "INVALID_DATE_RANGE"
  | .idempotencyConflict => "IDEMPOTENCY_CONFLICT"
  | .overlappingRequest .. => "OVERLAPPING_REQUEST"
  | .balanceNotFound .. => "BALANCE_NOT_FOUND"
  | .insufficientBalance .. => "INSUFFICIENT_BALANCE"
  | .pendingUnderflow .. => "BALANCE_CONFLICT"
  | .writeContention => "BALANCE_CONFLICT"
  | .requestNotFound _ => "REQUEST_NOT_FOUND"
  | .invalidStatusTransition .. => "INVALID_STATUS_TRANSITION"

def allowedText (current : RequestStatus) : String :=
  match validTransitions current with
  | [] => "none"
  | allowed => ", ".intercalate (allowed.map RequestStatus.text)

def ServiceError.message : ServiceError → String
  | .missingIdempotencyKey => "X-Idempotency-Key header is required for all write operations"
  | .invalidDateRange message => message
  | .idempotencyConflict =>
    "Idempotency key has already been used for a different request payload. " ++
      "Use a new idempotency key for a new request."
  | .overlappingRequest _ status _ _ =>
    "Request overlaps with existing " ++ status.text ++ " request"
  | .balanceNotFound .deduct _ =>
    "Balance record not found. Create a balance record before submitting requests."
  | .balanceNotFound .release _ => "Balance record not found during pending release"
  | .balanceNotFound .finalize _ => "Balance record not found during pending finalization"
  | .insufficientBalance requested available _ _ _ =>
    "Requested " ++ requested.text ++ " days but only " ++ available.text ++ " days available"
  | .pendingUnderflow .finalize _ _ _ =>
    "Pending balance underflow detected during approval finalization"
  | .pendingUnderflow _ _ _ _ => "Pending balance underflow detected during release"
  | .writeContention =>
    "Concurrent write contention detected. Please retry with the same idempotency key."
  | .requestNotFound id => "Time-off request " ++ toString id ++ " not found"
  | .invalidStatusTransition current target =>
    "Cannot transition from " ++ current.text ++ " to " ++ target.text ++
      ". Allowed transitions from " ++ current.text ++ ": [" ++ allowedText current ++ "]"

inductive SqliteCode
  | constraint
  | constraintUnique
  | busy
  | locked
  | other
  deriving DecidableEq, Repr

/-- What a call to the HCM can fail with: a refusal by the circuit breaker, a reply with an
error status, or no reply. -/
inductive HcmError
  | circuitOpen
  | response (status : ℕ)
  | noResponse
  deriving DecidableEq, Repr

/-- Anything the services can throw; `undefined` is `throw lastError` before any error was
caught, `typeError` the reading of a field of it. -/
inductive Err
  | service (e : ServiceError)
  | sqlite (code : SqliteCode) (message : String)
  | hcm (e : HcmError)
  | undefined
  | typeError
  deriving DecidableEq, Repr

def Err.message : Err → String
  | .service e => e.message
  | .sqlite _ message => message
  | _ => ""

def includes (text phrase : String) : Bool :=
  decide (phrase.toList <:+: text.toList)

def isSqliteConstraintError : Err → Bool
  | .sqlite .constraint _ => true
  | .sqlite .constraintUnique _ => true
  | _ => false

def isSqliteTransientTxError (err : Err) : Bool :=
  match err with
  | .sqlite .busy _ => true
  | .sqlite .locked _ => true
  | _ =>
    includes err.message.toLower "cannot start a transaction within a transaction" ||
      includes err.message.toLower "database is locked"

end TimeOff
