import TimeOff.AloneCalls
import TimeOff.RowCells

/-! What a committed call makes of the tables, cell by cell, and that the same call run alone on
tables with the same cells does the same. -/
namespace TimeOff

open Async

section Advance

def SameCells (s s' : Store) : Prop := ∀ x, s.cell x = s'.cell x

/-- The decision takes the pending request `r` to `target` and its days out of the pending ones
of `b`. -/
structure Decision (requestId : ℕ) (target : RequestStatus)
    (patch : Num → EmployeeBalance → BalancePatch) (A B : Store) (r : TimeOffRequest)
    (b : EmployeeBalance) : Prop where
  found : A.cell (.request requestId) = some (.request r)
  pending : r.status = .pending
  balance : A.cell (.balance r.balanceKey) = some (.balance b)
  enough : r.daysRequested ≤ b.pendingBalance
  request : B.cell (.request requestId) = some (.request { r with status := target })
  moved : B.cell (.balance r.balanceKey) = some (.balance
    (BalancePatch.apply { patch (some r.daysRequested) b with version := some (b.version + 1) } b))
  others : ∀ x, x ≠ .request requestId → x ≠ .balance r.balanceKey → B.cell x = A.cell x

/-- The row of a new request but for the times. -/
def createdFacts (dto : CreateTimeOffRequestDto) (idempotencyKey : String) (days : ℚ) (id : ℕ) :
    Option TimeOffRequest :=
  ((newRequest dto idempotencyKey (some days)).row 0 id).map TimeOffRequest.facts

/-- The creation takes the days from the available ones of `b` and adds the request `id` and the
record of its key. -/
structure Booked (dto : CreateTimeOffRequestDto) (idempotencyKey : String) (days : ℚ) (id : ℕ)
    (A B : Store) (b : EmployeeBalance) : Prop where
  balance : A.cell (.balance dto.balanceKey) = some (.balance b)
  enough : days ≤ b.availableBalance
  free : ∀ i r, A.cell (.request i) = some (.request r) → r.employeeId = dto.employeeId →
    r.locationId = dto.locationId → isActive r = true →
      datesOverlap dto.startDate dto.endDate r.startDate r.endDate = false
  newId : A.cell (.request id) = none
  newKey : ∀ i r, A.cell (.request i) = some (.request r) → r.idempotencyKey ≠ idempotencyKey
  newRecord : A.cell (.record idempotencyKey) = none
  deducted : B.cell (.balance dto.balanceKey) = some (.balance
    (BalancePatch.apply { deductPatch (some days) b with version := some (b.version + 1) } b))
  request : B.cell (.request id) =
    (createdFacts dto idempotencyKey days id).map .request
  record : B.cell (.record idempotencyKey) = some .record
  others : ∀ x, x ≠ .balance dto.balanceKey → x ≠ .request id → x ≠ .record idempotencyKey →
    B.cell x = A.cell x

/-- What the call makes of the tables `A` when it succeeds. -/
inductive Advance (cfg : Config) (A B : Store) : Call → Prop
  | decide {c : Call} {requestId : ℕ} {target : RequestStatus}
      {patch : Num → EmployeeBalance → BalancePatch} {r : TimeOffRequest} {b : EmployeeBalance}
      (hc : Decides c requestId target patch) (h : Decision requestId target patch A B r b) :
      Advance cfg A B c
  | create {dto : CreateTimeOffRequestDto} {idempotencyKey : String} {days : ℚ} {clock id : ℕ}
      {b : EmployeeBalance} (hne : idempotencyKey ≠ "")
      (hdates : validateDates cfg dto clock = .ok (some days))
      (h : Booked dto idempotencyKey days id A B b) :
      Advance cfg A B (.create dto idempotencyKey)

variable {cfg : Config} {A B s s' : Store}

theorem SameCells.trans {s₁ s₂ s₃ : Store} (h : SameCells s₁ s₂) (h' : SameCells s₂ s₃) :
    SameCells s₁ s₃ := fun x => (h x).trans (h' x)

section Decide

variable {requestId : ℕ} {target : RequestStatus}
  {patch : Num → EmployeeBalance → BalancePatch} {r : TimeOffRequest} {b : EmployeeBalance}

theorem decision_of_effect (h : TransitionEffect requestId target patch s s' r b) :
    Decision requestId target patch s s' r.facts b := by
  obtain ⟨stamp, now, hs'⟩ := h.store_eq
  refine ⟨cell_request.mpr ⟨r, h.found, rfl⟩, h.pending, cell_balance.mpr h.balance, h.enough,
    cell_request.mpr ?_, cell_balance.mpr ?_, fun x hx hx' => ?_⟩
  · rw [hs']
    refine ⟨_, request?_saveRequest_self h.found _, ?_⟩
    rfl
  · rw [hs']
    exact balance?_saveBalance_self h.balance _
  · rw [hs']
    exact (cell_saveBalance_of_ne hx' _).trans (cell_saveRequest_of_ne hx _)

/-- Two decisions on the same cells leave the same cells. -/
theorem Decision.same {r' : TimeOffRequest} {b' : EmployeeBalance}
    (h : Decision requestId target patch A B r b) (h' : Decision requestId target patch s s' r' b')
    (hs : SameCells s A) : SameCells s' B := by
  have hr : r' = r := by
    have heq := h'.found.symm.trans ((hs _).trans h.found)
    cases heq
    rfl
  -- both start from the same row and the same balance, and write the same over them
  subst hr
  have hb : b' = b := by
    have heq := h'.balance.symm.trans ((hs _).trans h.balance)
    cases heq
    rfl
  subst hb
  intro x
  by_cases hx : x = .request requestId
  · rw [hx, h'.request, h.request]
  by_cases hx' : x = .balance r'.balanceKey
  · rw [hx', h'.moved, h.moved]
  · rw [h'.others x hx hx', hs x, h.others x hx hx']

theorem Decision.in_turn {c : Call} (cfg : Config) (hc : Decides c requestId target patch)
    (h : Decision requestId target patch A B r b) (hs : SameCells s A) :
    ∃ s', Alone cfg c s s' ∧ SameCells s' B := by
  obtain ⟨row, hrow, rfl⟩ := cell_request.mp ((hs _).trans h.found)
  have hsettle : Settleable requestId row b s :=
    ⟨hrow, h.pending, cell_balance.mp ((hs _).trans h.balance), h.enough⟩
  obtain ⟨s', halone, heffect⟩ := decision_alone cfg hc hsettle
  exact ⟨s', halone, h.same (decision_of_effect heffect) hs⟩

end Decide

section Create

variable {dto : CreateTimeOffRequestDto} {idempotencyKey : String} {days : ℚ} {id now : ℕ}
  {b : EmployeeBalance} {requestHash : String} {saved : TimeOffRequest}

/-- The cells that a committed creation leaves. -/
theorem booked_of_effect
    (h : CreateEffect cfg dto idempotencyKey days requestHash now id s s' saved b) :
    s'.cell (.balance dto.balanceKey) = some (.balance (BalancePatch.apply
        { deductPatch (some days) b with version := some (b.version + 1) } b)) ∧
      s'.cell (.request id) = (createdFacts dto idempotencyKey days id).map .request ∧
      s'.cell (.record idempotencyKey) ≠ none ∧
      ∀ x, x ≠ .balance dto.balanceKey → x ≠ .request id → x ≠ .record idempotencyKey →
        s'.cell x = s.cell x := by
  -- what the three tables find after the creation, by the key that is looked for
  have hbalances (key : BalanceKey) : s'.balance? key = (s.saveBalance dto.balanceKey fun x =>
      { deductPatch (some days) b with version := some (x.version + 1) }).balance? key := by
    rw [Store.balance?, h.balances]
    rfl
  have hrequests (i : ℕ) : s'.request? i =
      (s.request? i).or (if saved.id = i then some saved else none) := by
    rw [Store.request?, h.requests]
    exact Store.find?_key_append
  have hrecords (key : String) : s'.record? key = (s.record? key).or
      (if idempotencyKey = key then
        some (newRecord cfg dto idempotencyKey requestHash saved now) else none) := by
    rw [Store.record?, h.records]
    exact Store.find?_key_append
  have hid : saved.id = id := (newRequest_row_eq h.row).1
  refine ⟨cell_balance.mpr ?_, ?_, ?_, fun x hx hx' hx'' => ?_⟩
  · rw [hbalances]
    exact balance?_saveBalance_self h.balance _
  · have hrow := h.row
    change Option.map _ (s'.request? id) = _
    rw [hrequests, h.newId, Option.none_or, if_pos hid]
    cases hrow
    rfl
  · rw [Ne, cell_record_none, hrecords, if_pos rfl]
    cases s.record? idempotencyKey <;> simp
  · refine cell_congr (fun k hk => ?_) (fun i hi => ?_) fun k hk => ?_
    · rw [hbalances]
      refine balance?_saveBalance_of_ne ?_ _
      rintro rfl
      exact hx hk
    · rw [hrequests, if_neg, Option.or_none]
      rintro rfl
      exact hx' (by rw [hi, hid])
    · rw [hrecords, if_neg, Option.or_none]
      rintro rfl
      exact hx'' hk

theorem Booked.in_turn {clock : ℕ} (hne : idempotencyKey ≠ "")
    (hdates : validateDates cfg dto clock = .ok (some days))
    (h : Booked dto idempotencyKey days id A B b) (hs : SameCells s A) :
    ∃ s', Alone cfg (.create dto idempotencyKey) s s' ∧ SameCells s' B := by
  have hbalance : s.balance? dto.balanceKey = some b :=
    cell_balance.mp ((hs _).trans h.balance)
  have hrow (r : TimeOffRequest) (hr : r ∈ s.requests) :
      A.cell (.request r.id) = some (.request r.facts) :=
    (hs _).symm.trans (cell_request.mpr ⟨r, Store.request?_eq_some.mpr ⟨hr, rfl⟩, rfl⟩)
  have hid : s.request? id = none := cell_request_none.mp ((hs _).trans h.newId)
  have hrecord : s.record? idempotencyKey = none := cell_record_none.mp ((hs _).trans h.newRecord)
  have hkey : s.requestByKey? idempotencyKey = none := by
    cases hfound : s.requestByKey? idempotencyKey with
    | none => rfl
    | some r =>
      obtain ⟨hr, hrkey⟩ := Store.requestByKey?_eq_some.mp hfound
      exact absurd hrkey (h.newKey r.id r.facts (hrow r hr))
  have hbook : Bookable dto days s := by
    refine ⟨fun a ha => ?_, b, hbalance, h.enough⟩
    obtain ⟨r, hr, hemp, hloc, hactive, rfl⟩ := mem_activeRequests.mp ha
    exact h.free r.id r.facts (hrow r hr) hemp hloc hactive
  obtain ⟨s', saved, b', halone, heffect⟩ :=
    create_alone hne hdates hid hkey hrecord hbook
  -- the call has found the same balance, so that it leaves the same cells
  obtain rfl : b' = b := Option.some.inj (heffect.balance.symm.trans hbalance)
  obtain ⟨hdeducted, hcreated, hkept, hothers⟩ := booked_of_effect heffect
  refine ⟨s', halone, fun x => ?_⟩
  by_cases hx : x = .balance dto.balanceKey
  · rw [hx, hdeducted, h.deducted]
  by_cases hx' : x = .request id
  · rw [hx', hcreated, h.request]
  by_cases hx'' : x = .record idempotencyKey
  · rw [hx'', h.record]
    cases hcell : s'.cell (.record idempotencyKey) with
    | none => exact absurd hcell hkept
    | some c =>
      obtain ⟨_, _, rfl⟩ := Option.map_eq_some_iff.mp hcell
      rfl
  · rw [hothers x hx hx' hx'', hs x, h.others x hx hx' hx'']

end Create

/-- Dates that pass have the days that are charged. -/
theorem validateDates_days {dto : CreateTimeOffRequestDto} {clock : ℕ} {days : Num}
    (h : validateDates cfg dto clock = .ok days) :
    calculateDaysRequested dto.startDate dto.endDate = days := by
  unfold validateDates at h
  split at h
  · cases h
  split at h
  · cases h
  · exact Except.ok.inj h

/-- The step that a call has taken between two tables it also takes alone. -/
theorem Advance.in_turn {c : Call} (h : Advance cfg A B c) (hs : SameCells s A) :
    ∃ s', Alone cfg c s s' ∧ SameCells s' B := by
  cases h with
  | decide hc h => exact h.in_turn cfg hc hs
  | create hne hdates h => exact h.in_turn hne hdates hs

section Consequences

/-- A balance that is not overdrawn, or a request for no fewer than no days. -/
def Cell.Sound : Cell → Prop
  | balance b => 0 ≤ b.availableBalance
  | request r => 0 ≤ r.daysRequested
  | record => True

def Solvent (s : Store) : Prop := ∀ x c, s.cell x = some c → c.Sound

theorem Solvent.congr (h : Solvent s) (hs : ∀ x, s'.cell x = s.cell x) : Solvent s' :=
  fun x c hc => h x c ((hs x).symm.trans hc)

theorem Solvent.of_change {x : Item} (h : Solvent s) (hs : ∀ y, y ≠ x → s'.cell y = s.cell y)
    (hx : ∀ c, s'.cell x = some c → c.Sound) : Solvent s' := by
  intro y c hc
  by_cases hy : y = x
  · exact hx c (hy ▸ hc)
  · exact h y c ((hs y hy).symm.trans hc)

theorem solvent_iff : Solvent s ↔
    (∀ b ∈ s.balances, 0 ≤ b.availableBalance) ∧ ∀ r ∈ s.requests, 0 ≤ r.daysRequested := by
  constructor
  · intro h
    exact ⟨fun b hb => h _ (.balance b) (cell_balance.mpr (Store.balance?_eq_some.mpr ⟨hb, rfl⟩)),
      fun r hr => h _ (.request r.facts)
        (cell_request.mpr ⟨r, Store.request?_eq_some.mpr ⟨hr, rfl⟩, rfl⟩)⟩
  · intro h x c hc
    obtain ⟨hbalances, hrequests⟩ := h
    cases x with
    -- a cell is the value of some row, and the rows are as asked
    | balance key =>
      obtain ⟨b, hb, rfl⟩ := Option.map_eq_some_iff.mp hc
      exact hbalances b (Store.balance?_eq_some.mp hb).1
    | request id =>
      obtain ⟨r, hr, rfl⟩ := Option.map_eq_some_iff.mp hc
      exact hrequests r (Store.request?_eq_some.mp hr).1
    | record key =>
      obtain ⟨_, _, rfl⟩ := Option.map_eq_some_iff.mp hc
      trivial
    | _ => cases hc

/-- The request that a call takes out of PENDING. -/
def Call.decides : Call → Option ℕ
  | .approve requestId _ => some requestId
  | .reject requestId _ _ => some requestId
  | .cancel requestId _ => some requestId
  | _ => none

/-- The request is in the tables and no longer pending. -/
def Closed (s : Store) (id : ℕ) : Prop :=
  ∃ r, s.cell (.request id) = some (.request r) ∧ r.status ≠ .pending

theorem Closed.congr {id : ℕ} (h : Closed s id) (hs : ∀ x, s'.cell x = s.cell x) :
    Closed s' id := by
  obtain ⟨r, hr, hstatus⟩ := h
  exact ⟨r, (hs _).trans hr, hstatus⟩

variable {c : Call} {requestId : ℕ} {target : RequestStatus}
  {patch : Num → EmployeeBalance → BalancePatch} {r : TimeOffRequest} {b : EmployeeBalance}

theorem decides_eq (hc : Decides c requestId target patch) :
    c.decides = some requestId ∧ target ≠ .pending := by
  cases hc with
  | approve => exact ⟨rfl, by decide⟩
  | reject => exact ⟨rfl, by decide⟩
  | cancel => exact ⟨rfl, by decide⟩

/-- The available days after a decision: as many, or more by those of the request. -/
theorem decides_available (hc : Decides c requestId target patch) {days : ℚ} (hdays : 0 ≤ days)
    (h : 0 ≤ b.availableBalance) : 0 ≤ (BalancePatch.apply
      { patch (some days) b with version := some (b.version + 1) } b).availableBalance := by
  cases hc with
  | approve => exact h
  | reject => exact add_nonneg h hdays
  | cancel => exact add_nonneg h hdays

theorem Advance.closed {id : ℕ} (h : Advance cfg A B c) (hid : Closed A id) : Closed B id := by
  obtain ⟨r, hr, hstatus⟩ := hid
  -- a decision leaves its request closed and the others alone, a creation adds a new one
  cases h with
  | @decide _ requestId _ _ _ _ hc h =>
    by_cases heq : id = requestId
    · rw [heq]
      exact ⟨_, h.request, (decides_eq hc).2⟩
    · exact ⟨r, (h.others _ (by simpa using heq) (by simp)).trans hr, hstatus⟩
  | @create _ _ _ _ newId _ _ _ h =>
    have hne : id ≠ newId := by
      rintro rfl
      rw [h.newId] at hr
      cases hr
    exact ⟨r, (h.others _ (by simp) (by simpa using hne) (by simp)).trans hr, hstatus⟩

/-- A call that decides a request finds it pending and closes it. -/
theorem Advance.decides {id : ℕ} (h : Advance cfg A B c) (hid : c.decides = some id) :
    ¬ Closed A id ∧ Closed B id := by
  cases h with
  | decide hc h =>
    obtain rfl : id = _ := Option.some.inj (hid.symm.trans (decides_eq hc).1)
    refine ⟨fun hclosed => ?_, _, h.request, (decides_eq hc).2⟩
    obtain ⟨r', hr', hstatus⟩ := hclosed
    cases hr'.symm.trans h.found
    exact hstatus h.pending
  | create hne hdates h => cases hid

theorem Advance.solvent (h : Advance cfg A B c) (hA : Solvent A) : Solvent B := by
  intro x cell hcell
  cases h with
  | @decide _ requestId _ _ r b hc h =>
    have hdays : 0 ≤ r.daysRequested := hA _ _ h.found
    -- the decided row keeps its day count
    by_cases hx : x = .request requestId
    · rw [hx, h.request] at hcell
      cases hcell
      exact hdays
    -- the move is guarded, so the balance does not pass zero
    by_cases hx' : x = .balance r.balanceKey
    · rw [hx', h.moved] at hcell
      cases hcell
      exact decides_available hc hdays (hA _ _ h.balance)
    · exact hA x cell ((h.others x hx hx').symm.trans hcell)
  | @create dto idempotencyKey days clock newId b hne hdates h =>
    have hdays : 0 ≤ days := by
      have hone : 1 ≤ days := one_le_calculateDaysRequested (validateDates_days hdates)
      linarith
    -- the deduction is guarded by `enough`
    by_cases hx : x = .balance dto.balanceKey
    · rw [hx, h.deducted] at hcell
      cases hcell
      exact sub_nonneg.mpr h.enough
    by_cases hx' : x = .request newId
    · rw [hx', h.request] at hcell
      cases hcell
      exact hdays
    by_cases hx'' : x = .record idempotencyKey
    · rw [hx'', h.record] at hcell
      cases hcell
      trivial
    · exact hA x cell ((h.others x hx hx' hx'').symm.trans hcell)

end Consequences

end Advance

end TimeOff
