import TimeOff.CreateRule
import TimeOff.Ledger
import TimeOff.SerialDecisions

/-! Creations among open transactions that do not clash: what a transaction has read of its lane
stays so until it commits, and its commit takes the days of the request that it adds. -/
namespace TimeOff

open Async

section Lane

variable {i : ℕ} {dto : CreateTimeOffRequestDto} {own : Option ℕ} {w w' : World} {d : DbOp}

/-- Every request of the lane was read by the transaction of process `i` and is clear of the new
one, but for the request that it has inserted itself. -/
structure LaneRead (i : ℕ) (dto : CreateTimeOffRequestDto) (own : Option ℕ) (w : World) : Prop where
  lane : w.Touches i (.requestsOf dto.employeeId dto.locationId)
  rows : ∀ id ∈ w.store.requestIdsOf dto.employeeId dto.locationId, own = some id ∨
    ∃ r, Held i (.request id) (some (.request r)) (some (.request r)) w ∧ (isActive r = true →
      datesOverlap dto.startDate dto.endDate r.startDate r.endDate = false)

theorem LaneRead.undisturbed (h : LaneRead i dto own w) (hR : Undisturbed i w w') :
    LaneRead i dto own w' := by
  refine ⟨hR.touches.mpr h.lane, fun id hid => ?_⟩
  rcases h.rows id (hR.lanes _ _ h.lane id hid) with hown | ⟨r, hheld, hfree⟩
  · exact .inl hown
  · exact .inr ⟨r, hheld.undisturbed hR, hfree⟩

/-- A call that writes no request leaves the lane read. -/
theorem LaneRead.called (h : LaneRead i dto own w)
    (hlane : .requestsOf dto.employeeId dto.locationId ∉ d.writes w.nextId)
    (hrows : ∀ id, .request id ∉ d.writes w.nextId) : LaneRead i dto own (w.called i d) := by
  refine ⟨h.lane.called d, fun id hid => ?_⟩
  rcases h.rows id (requestIdsOf_db w hlane hid) with hown | ⟨r, hheld, hfree⟩
  · exact .inl hown
  · exact .inr ⟨r, hheld.called (hrows id), hfree⟩

/-- The transaction has read the lane and found no overlap. -/
theorem laneRead_of_find (hseparate : w.Separate)
    (hd : w.Isolated i (.findActiveRequests dto.employeeId dto.locationId))
    (hwrites : WritesOnly i [] w)
    (hfree : ∀ a ∈ w.store.activeRequests dto.employeeId dto.locationId,
      datesOverlap dto.startDate dto.endDate a.startDate a.endDate = false) :
    LaneRead i dto none (w.called i (.findActiveRequests dto.employeeId dto.locationId)) := by
  refine ⟨touches_called w i (.inl List.mem_cons_self), fun id hid => .inr ?_⟩
  have hid : id ∈ w.store.requestIdsOf dto.employeeId dto.locationId := hid
  obtain ⟨row, hrow, hemp, hloc, rfl⟩ := mem_requestIdsOf.mp hid
  -- an active row of the lane was in the answer of the query, so it does not overlap
  have hcell : w.store.cell (.request row.id) = some (.request row.facts) :=
    cell_request.mpr ⟨row, Store.request?_eq_some.mpr ⟨hrow, rfl⟩, rfl⟩
  have hheld := held_of_read (x := .request row.id) hseparate hd hwrites List.not_mem_nil
    (List.mem_cons_of_mem _ (List.mem_map_of_mem hid)) rfl
  rw [hcell] at hheld
  refine ⟨row.facts, hheld, fun hactive => ?_⟩
  exact hfree ⟨row.id, row.startDate, row.endDate, row.status⟩
    (mem_activeRequests.mpr ⟨row, hrow, hemp, hloc, hactive, rfl⟩)

/-- The transaction inserts its own request into the lane. -/
theorem LaneRead.insert (h : LaneRead i dto none w) {request : NewRequest} {row : TimeOffRequest}
    {s' : Store} (hrow : request.row w.clock w.nextId = some row)
    (hs' : w.store.insertRequest row = some s')
    (hdb : (w.db (.insertRequest request)).2.store = s') :
    LaneRead i dto (some w.nextId) (w.called i (.insertRequest request)) := by
  obtain ⟨hnone, _, hrequests, _, _⟩ := Store.insertRequest_eq hs'
  have hid : row.id = w.nextId := (newRequest_row_eq hrow).1
  refine ⟨h.lane.called _, fun id hmem => ?_⟩
  have hmem : id ∈ (w.db (.insertRequest request)).2.store.requestIdsOf dto.employeeId
    dto.locationId := hmem
  rw [hdb] at hmem
  obtain ⟨r, hr, hemp, hloc, rfl⟩ := mem_requestIdsOf.mp hmem
  rw [hrequests] at hr
  rcases List.mem_append.mp hr with hold | hnew
  -- a row that was there before keeps what the query said of it
  · have hbefore := mem_requestIdsOf.mpr ⟨r, hold, hemp, hloc, rfl⟩
    rcases h.rows r.id hbefore with hown | ⟨r', hheld, hfree⟩
    · cases hown
    · have hne : r.id ≠ w.nextId := by
        intro heq
        rw [← heq] at hid
        rw [hid, Store.request?_eq_some.mpr ⟨hold, rfl⟩] at hnone
        cases hnone
      exact .inr ⟨r', hheld.called (by simpa [DbOp.writes] using hne), hfree⟩
  · rw [List.mem_singleton.mp hnew, hid]
    exact .inl rfl

end Lane

section Body

variable {cfg : Config} {start : Store} {dto : CreateTimeOffRequestDto} {idempotencyKey : String}
  {days : ℚ} {i id : ℕ} {L L' : Logged Call World} {b : EmployeeBalance}

/-- The overlap is checked. -/
def Looked (i : ℕ) (dto : CreateTimeOffRequestDto) (idempotencyKey : String)
    (L : Logged Call World) : Prop :=
  Progress i (.create dto idempotencyKey) [] [] L ∧ LaneRead i dto none L.state

/-- The balance before and after the deduction. -/
def takenFrom (dto : CreateTimeOffRequestDto) (days : ℚ) (b : EmployeeBalance) :
    Item × Option Cell × Option Cell :=
  (.balance dto.balanceKey, some (.balance b),
    some (.balance (savedBalance (deductPatch (some days) b) b)))

/-- The days are taken from the available ones. -/
def Taken (i : ℕ) (dto : CreateTimeOffRequestDto) (idempotencyKey : String) (days : ℚ)
    (L : Logged Call World) : Prop :=
  ∃ b, days ≤ b.availableBalance ∧ LaneRead i dto none L.state ∧
    Progress i (.create dto idempotencyKey) [.balance dto.balanceKey] [takenFrom dto days b] L

/-- What the transaction writes until its request is inserted. -/
def insertedItems (dto : CreateTimeOffRequestDto) (idempotencyKey : String) (id : ℕ) : List Item :=
  [.request id, .requestKey idempotencyKey, .requestsOf dto.employeeId dto.locationId,
    .balance dto.balanceKey]

/-- The request `id` is inserted. -/
def Inserted (i : ℕ) (dto : CreateTimeOffRequestDto) (idempotencyKey : String) (days : ℚ) (id : ℕ)
    (L : Logged Call World) : Prop :=
  ∃ b, days ≤ b.availableBalance ∧ LaneRead i dto (some id) L.state ∧
    Progress i (.create dto idempotencyKey) (insertedItems dto idempotencyKey id)
      [(.request id, none, (createdFacts dto idempotencyKey days id).map .request),
        takenFrom dto days b] L

/-- So is its record. -/
def Recorded (i : ℕ) (dto : CreateTimeOffRequestDto) (idempotencyKey : String) (days : ℚ) (id : ℕ)
    (L : Logged Call World) : Prop :=
  ∃ b, days ≤ b.availableBalance ∧ LaneRead i dto (some id) L.state ∧
    Progress i (.create dto idempotencyKey)
      (.record idempotencyKey :: insertedItems dto idempotencyKey id)
      [(.record idempotencyKey, none, some .record),
        (.request id, none, (createdFacts dto idempotencyKey days id).map .request),
        takenFrom dto days b] L

theorem Inserted.relied (h : Inserted i dto idempotencyKey days id L) (hR : Relied i L L') :
    Inserted i dto idempotencyKey days id L' := by
  obtain ⟨b, henough, hlane, hp⟩ := h
  exact ⟨b, henough, hlane.undisturbed hR.1, hp.relied hR⟩

theorem Recorded.relied (h : Recorded i dto idempotencyKey days id L) (hR : Relied i L L') :
    Recorded i dto idempotencyKey days id L' := by
  obtain ⟨b, henough, hlane, hp⟩ := h
  exact ⟨b, henough, hlane.undisturbed hR.1, hp.relied hR⟩

theorem enough_of_shortfall {key : BalanceKey}
    (h : availableShortfall key (some days) b = none) : days ≤ b.availableBalance := by
  unfold availableShortfall at h
  split at h
  · cases h
  · next hlt => simpa [Num.lt] using hlt

/-- The deduction, while the lane stays as it was read. -/
theorem deduct_order (hL : Looked i dto idempotencyKey L) :
    (atomicDeduct dto.balanceKey (calculateDaysRequested dto.startDate dto.endDate)).Holds
      (fun o => OrderStep cfg start i (.tx o)) (Relied i) (OrderKept cfg start i)
      (fun x t => x = .ok () → ∃ days,
        calculateDaysRequested dto.startDate dto.endDate = some days ∧
        Taken i dto idempotencyKey days t) L := by
  refine Prog.Holds.mono ?_ (moveDays_order (A := LaneRead i dto none)
    (fun _ _ h hR => h.undisturbed hR) (fun w d h hd => ?_) hL.1 hL.2 List.not_mem_nil
    (fun t ht => (nomatch ht)) fun b t hshort haccepted _ _ _ => ?_)
  · intro x t h hx
    obtain ⟨hlane, b, hshort, haccepted, hp⟩ := h hx
    -- `NaN` days would have been refused
    obtain ⟨days, hdays⟩ := deductPatch_accepted_iff.mp haccepted
    rw [hdays] at hshort hp
    exact ⟨days, hdays, b, enough_of_shortfall hshort, hlane, hp⟩
  · rcases hd with rfl | ⟨p, rfl⟩
    · exact h.called List.not_mem_nil fun _ => List.not_mem_nil
    · exact h.called (by simp [DbOp.writes]) (by simp [DbOp.writes])
  · obtain ⟨days, hdays⟩ := deductPatch_accepted_iff.mp haccepted
    rw [hdays] at hshort ⊢
    exact sub_nonneg.mpr (enough_of_shortfall hshort)

/-- The row that an insertion of the request makes. -/
theorem cell_insertRequest {w : World} {row : TimeOffRequest} {s' : Store}
    (hrow : (newRequest dto idempotencyKey (some days)).row w.clock w.nextId = some row)
    (hs' : w.store.insertRequest row = some s') :
    w.store.cell (.request w.nextId) = none ∧ s'.cell (.request w.nextId) =
      (createdFacts dto idempotencyKey days w.nextId).map .request := by
  obtain ⟨hnone, _, hrequests, _, _⟩ := Store.insertRequest_eq hs'
  have hid : row.id = w.nextId := (newRequest_row_eq hrow).1
  rw [hid] at hnone
  refine ⟨cell_request_none.mpr hnone, ?_⟩
  have hfound : s'.request? w.nextId = some row := by
    rw [Store.request?, hrequests]
    refine Store.find?_key_append.trans ?_
    rw [if_pos hid]
    exact (congrArg (Option.or · (some row)) hnone).trans (Option.none_or)
  change Option.map _ (s'.request? w.nextId) = _
  rw [hfound]
  cases hrow
  rfl

theorem inserted_step {x : Except Err TimeOffRequest} (hdays : 0 ≤ days)
    (ht : Taken i dto idempotencyKey days L)
    (h : OrderStep cfg start i
      (.tx (.db (.insertRequest (newRequest dto idempotencyKey (some days))))) L x L') :
    OrderKept cfg start i L L' ∧
      ∀ saved, x = .ok saved → ∃ id, Inserted i dto idempotencyKey days id L' := by
  obtain ⟨b, henough, hlane, hp⟩ := ht
  rcases World.db_insertRequest L.state (newRequest dto idempotencyKey (some days)) with
    ⟨code, message, hdb⟩ | ⟨row, s', hrow, hs', hdb⟩
  · obtain ⟨hkept, _, hok⟩ := order_call h fun hsolvent => by
      rw [hdb]
      exact hsolvent
    refine ⟨hkept, fun saved hx => ?_⟩
    have hres := (hok _ hx).1
    rw [hdb] at hres
    cases hres
  -- the row is inserted: it was not there, and now is what `createdFacts` says
  obtain ⟨hnone, hnow⟩ := cell_insertRequest hrow hs'
  have hstore : (L.state.db (.insertRequest (newRequest dto idempotencyKey (some days)))).2.store =
      s' := by rw [hdb]
  rw [← hstore] at hnow
  obtain ⟨hkept, _, hok⟩ := order_call h fun hsolvent => by
    refine hsolvent.of_change (x := .request L.state.nextId) (fun y hy => ?_) fun cell hcell => ?_
    · by_cases hwritten : y ∈ (DbOp.insertRequest
          (newRequest dto idempotencyKey (some days))).writes L.state.nextId
      · -- the unique key and the lane are no cells
        rcases List.mem_cons.mp hwritten with rfl | hwritten
        · exact absurd rfl hy
        rcases List.mem_cons.mp hwritten with rfl | hwritten
        · rfl
        · rw [List.mem_singleton.mp hwritten]
          rfl
      · exact cell_db L.state hwritten
    · cases hnow.symm.trans hcell
      exact hdays
  refine ⟨hkept, fun saved hx => ⟨L.state.nextId, b, henough, ?_, ?_⟩⟩
  · rw [(hok _ hx).2]
    exact hlane.insert hrow hs' hstore
  · rw [(hok _ hx).2]
    refine Progress.add (hp.called (fun t ht => ?_) (fun y hy => ?_) ?_) ?_
    · rw [List.mem_singleton.mp ht]
      simp [takenFrom, DbOp.writes]
    · exact List.mem_append_left [_] hy
    · exact List.subset_append_right [_, _, _] _
    · exact held_of_insert hnone List.mem_cons_self hnow

theorem recorded_step {x : Except Err Unit} {record : IdempotencyRecord}
    (hrecord : record.idempotencyKey = idempotencyKey)
    (ht : Inserted i dto idempotencyKey days id L)
    (h : OrderStep cfg start i (.tx (.db (.insertRecord record))) L x L') :
    OrderKept cfg start i L L' ∧ (x = .ok () → Recorded i dto idempotencyKey days id L') := by
  subst hrecord
  obtain ⟨b, henough, hlane, hp⟩ := ht
  rcases World.db_insertRecord L.state record with ⟨message, hdb⟩ | ⟨s', hs', hdb⟩
  · obtain ⟨hkept, _, hok⟩ := order_call h fun hsolvent => by
      rw [hdb]
      exact hsolvent
    refine ⟨hkept, fun hx => ?_⟩
    have hres := (hok _ hx).1
    rw [hdb] at hres
    cases hres
  -- the key was free, and the row is behind the others now
  obtain ⟨hnone, hrecords, _, _⟩ := Store.insertRecord_eq hs'
  have hnow : (L.state.db (.insertRecord record)).2.store.cell (.record record.idempotencyKey) =
      some .record := by
    rw [hdb]
    change Option.map _ (s'.record? record.idempotencyKey) = _
    rw [Store.record?, hrecords, Store.find?_key_append, if_pos rfl]
    rw [Store.record?] at hnone
    rw [hnone]
    rfl
  obtain ⟨hkept, _, hok⟩ := order_call h fun hsolvent => by
    -- an idempotency row makes no balance negative and no day count
    refine hsolvent.of_change (fun y hy => cell_db L.state (by simpa [DbOp.writes] using hy))
      fun cell hcell => ?_
    cases hnow.symm.trans hcell
    trivial
  refine ⟨hkept, fun hx => ⟨b, henough, ?_, ?_⟩⟩
  · rw [(hok _ hx).2]
    exact hlane.called (by simp [DbOp.writes]) (by simp [DbOp.writes])
  · rw [(hok _ hx).2]
    refine Progress.add (hp.called (fun t ht => ?_) (fun y hy => ?_) (List.subset_cons_self _ _)) ?_
    · rcases List.mem_cons.mp ht with rfl | ht
      · simp [DbOp.writes]
      · rw [List.mem_singleton.mp ht]
        simp [takenFrom, DbOp.writes]
    · rw [List.mem_singleton.mp hy]
      exact List.mem_cons_self
    · exact held_of_insert (cell_record_none.mpr hnone) (List.mem_singleton_self _) hnow

/-- Once the days are taken, the request and its record are inserted. -/
theorem order_inserts (cfg : Config) (start : Store) (requestHash : String) (hpos : 0 ≤ days)
    (ht : Taken i dto idempotencyKey days L) :
    ((Tx.db (.insertRequest (newRequest dto idempotencyKey (some days)))).bind fun saved =>
      Tx.now.bind fun now =>
        (Tx.db (.insertRecord (newRecord cfg dto idempotencyKey requestHash saved now))).bind
          fun _ => (.ret saved : Tx TimeOffRequest)).Holds (fun o => OrderStep cfg start i (.tx o))
      (Relied i) (OrderKept cfg start i)
      (fun x u => ∀ saved, x = .ok saved → ∃ id, Recorded i dto idempotencyKey days id u) L := by
  refine tx_db_bind ?_
  intro L₁ hR x L₂ hs
  obtain ⟨b, henough, hlane, hp⟩ := ht
  have htaken : Taken i dto idempotencyKey days L₁ :=
    ⟨b, henough, hlane.undisturbed hR.1, hp.relied hR⟩
  obtain ⟨hkept, hinserted⟩ := inserted_step hpos htaken hs
  refine ⟨hkept, ?_⟩
  rcases x with e | saved
  · exact fun _ h => nomatch h
  obtain ⟨id, hinserted⟩ := hinserted saved rfl
  dsimp only [Prog.after]
  refine tx_now_bind ?_
  intro L₃ hR x L₄ hs
  obtain ⟨hkept, hR'⟩ := order_now hs
  refine ⟨hkept, ?_⟩
  rcases x with e | now
  · exact fun _ h => nomatch h
  have hinserted : Inserted i dto idempotencyKey days id L₄ := (hinserted.relied hR).relied hR'
  dsimp only [Prog.after]
  refine tx_db_bind ?_
  intro L₅ hR x L₆ hs
  obtain ⟨hkept, hrecorded⟩ := recorded_step rfl (hinserted.relied hR) hs
  refine ⟨hkept, ?_⟩
  rcases x with e | _
  · exact fun _ h => nomatch h
  · exact fun _ _ => ⟨id, hrecorded rfl⟩

/-- The transaction of a create: it reads, checks and books, and no step of it is disturbed. -/
theorem order_createBody (cfg : Config) (start : Store)
    (hL : Progress i (.create dto idempotencyKey) [] [] L) :
    (createTransaction cfg dto idempotencyKey (calculateDaysRequested dto.startDate dto.endDate)
      (cfg.hashObject dto)).Holds (fun o => OrderStep cfg start i (.tx o)) (Relied i)
        (OrderKept cfg start i) (fun x u => ∀ saved, x = .ok saved → ∃ days id,
          calculateDaysRequested dto.startDate dto.endDate = some days ∧
            Recorded i dto idempotencyKey days id u) L := by
  -- the balances are read, and nothing depends on what was found
  refine Prog.Holds.bind (tx_db_bind ?_)
  intro L₁ hR x L₂ hs
  obtain ⟨hkept, _, hok⟩ := order_call hs id
  refine ⟨hkept, ?_⟩
  rcases x with e | balances
  · exact fun _ h => nomatch h
  obtain ⟨_, rfl⟩ := hok _ rfl
  have hp₂ := Progress.read (d := .findBalances dto.employeeId dto.locationId) (hL.relied hR) rfl
  dsimp only [Prog.after]
  -- the lane is read, and every request in it checked
  refine Prog.Holds.bind (tx_db_bind ?_)
  intro L₃ hR x L₄ hs
  have hp₃ := hp₂.relied hR
  obtain ⟨hkept, _, hok⟩ := order_call hs id
  refine ⟨hkept, ?_⟩
  rcases x with e | rows
  · exact fun _ h => nomatch h
  obtain ⟨hres, rfl⟩ := hok _ rfl
  obtain rfl := Except.ok.inj hres
  dsimp only [Prog.after]
  rcases throwIfOverlap_cases dto.startDate dto.endDate
    (L₃.state.store.activeRequests dto.employeeId dto.locationId) with ⟨hfree, hret⟩ | ⟨e, hthrow⟩
  swap
  · rw [hthrow]
    exact fun _ h => nomatch h
  rw [hret]
  have hlooked : Looked i dto idempotencyKey { L₃ with
      state := L₃.state.called i (.findActiveRequests dto.employeeId dto.locationId) } :=
    ⟨hp₃.read rfl, laneRead_of_find hs.1.separate (hs.2.1 _ rfl) hp₃.writes hfree⟩
  refine Prog.Holds.bind (Prog.Holds.mono ?_ (deduct_order hlooked))
  rintro (e | _) L₅ htaken
  · exact fun _ h => nomatch h
  obtain ⟨days, hdays, htaken⟩ := htaken rfl
  have hpos : 0 ≤ days := zero_le_one.trans (one_le_calculateDaysRequested hdays)
  dsimp only [Prog.after]
  rw [hdays]
  refine Prog.Holds.mono ?_ (order_inserts cfg start (cfg.hashObject dto) hpos htaken)
  intro x u h saved hx
  obtain ⟨id, hrecorded⟩ := h saved hx
  exact ⟨days, id, rfl, hrecorded⟩

/-- What a creation must find for its commit to be in order. -/
theorem recorded_advance {clock : ℕ} (hne : idempotencyKey ≠ "")
    (hdates : validateDates cfg dto clock = .ok (some days)) (hL : InOrder cfg start L)
    (h : Recorded i dto idempotencyKey days id L) :
    Advance cfg L.state.settled (L.state.commit i).settled (.create dto idempotencyKey) := by
  obtain ⟨b, henough, hlane, hp⟩ := h
  obtain ⟨hnewRecord, hrecord⟩ := (hp.held _ List.mem_cons_self).commit hL.separate
  obtain ⟨hnewId, hrequest⟩ :=
    (hp.held _ (List.mem_cons_of_mem _ List.mem_cons_self)).commit hL.separate
  obtain ⟨hbalance, hdeducted⟩ := (hp.held (takenFrom dto days b)
    (List.mem_cons_of_mem _ (List.mem_cons_of_mem _ List.mem_cons_self))).commit hL.separate
  -- a settled request is one of the tables
  have hrow {t : ℕ} {r : TimeOffRequest}
      (hr : L.state.settled.cell (.request t) = some (.request r)) :
      ∃ row ∈ L.state.store.requests, row.id = t ∧ row.idempotencyKey = r.idempotencyKey ∧
        row.employeeId = r.employeeId ∧ row.locationId = r.locationId := by
    obtain ⟨settled, hfound, rfl⟩ := cell_request.mp hr
    obtain ⟨hmem, rfl⟩ := Store.request?_eq_some.mp hfound
    exact within_undoAll L.state.journal L.state.store settled hmem
  refine .create hne hdates ⟨hbalance, henough, fun t r hr hemp hloc hactive => ?_, hnewId,
    fun t r hr hkey => ?_, hnewRecord, hdeducted, hrequest, hrecord, fun x hx hx' hx'' => ?_⟩
  · obtain ⟨row, hmem, rfl, _, hrowemp, hrowloc⟩ := hrow hr
    have hid := mem_requestIdsOf.mpr ⟨row, hmem, hrowemp.trans hemp, hrowloc.trans hloc, rfl⟩
    -- a settled request of the lane is not the own one, so it was read and is clear of it
    rcases hlane.rows row.id hid with hown | ⟨r', hheld, hfree⟩
    · cases hown
      cases hnewId.symm.trans hr
    · cases (hheld.commit hL.separate).1.symm.trans hr
      exact hfree hactive
  · -- the key is that of the request inserted, which is not settled yet
    obtain ⟨row, hmem, rfl, hrowkey, _⟩ := hrow hr
    obtain ⟨own, hown, hfacts⟩ : ∃ own, L.state.store.request? id = some own ∧
        own.idempotencyKey = idempotencyKey := by
      have hnow := (hp.held _ (List.mem_cons_of_mem _ List.mem_cons_self)).now
      dsimp only [createdFacts] at hnow
      obtain ⟨own, hown, hfacts⟩ := cell_request.mp hnow
      exact ⟨own, hown, congrArg TimeOffRequest.idempotencyKey hfacts⟩
    obtain ⟨hownmem, rfl⟩ := Store.request?_eq_some.mp hown
    obtain rfl : row = own := List.inj_on_of_nodup_map L.state.store.requestKeys hmem hownmem
      (hrowkey.trans (hkey.trans hfacts.symm))
    cases hnewId.symm.trans hr
  · by_cases hother : x ∈ Item.record idempotencyKey :: insertedItems dto idempotencyKey id
    · rcases List.mem_cons.mp hother with rfl | hother
      · exact absurd rfl hx''
      rcases List.mem_cons.mp hother with rfl | hother
      · exact absurd rfl hx'
      -- the unique key and the lane are no cells
      rcases List.mem_cons.mp hother with rfl | hother
      · rfl
      rcases List.mem_cons.mp hother with rfl | hother
      · rfl
      · exact absurd (List.mem_singleton.mp hother) hx
    · exact hp.writes.commit hL.separate hother

end Body

section Create

variable {cfg : Config} {start : Store} {dto : CreateTimeOffRequestDto} {idempotencyKey : String}
  {i : ℕ} {c : Call} {L L' : Logged Call World}

/-- An operation outside the transaction, of a call that has none open. -/
theorem order_idle {o : BaseOp}
    (ho : (∃ dto key, CreateOp cfg dto key (.base o)) ∨ SyncOp (fun _ => True) (.base o)) :
    Triple (OrderStep cfg start i) (Relied i) (OrderKept cfg start i) (Idle i c)
      (flatten (.base o)) fun _ _ t => Idle i c t := by
  intro L hL
  refine Prog.Holds.perform ?_
  intro t hR r t' hs
  obtain ⟨hkept, hR'⟩ := order_base ho hs
  exact ⟨hkept, (hL.relied hR).relied hR'⟩

/-- One that does not fail. -/
theorem order_goes {o : BaseOp}
    (ho : (∃ dto key, CreateOp cfg dto key (.base o)) ∨ SyncOp (fun _ => True) (.base o))
    (hgoes : ∀ x w r w', o.exec i x w = some (r, w') → ∃ u, r = .ok u) :
    Triple (OrderStep cfg start i) (Relied i) (OrderKept cfg start i) (Idle i c)
      (flatten (.base o)) fun _ r t => (∃ u, r = .ok u) ∧ Idle i c t := by
  intro L hL
  refine Prog.Holds.perform ?_
  intro t hR r t' hs
  obtain ⟨hkept, hR'⟩ := order_base ho hs
  obtain ⟨_, _, x, w, hx, _⟩ := hs
  exact ⟨hkept, hgoes x _ _ _ hx, (hL.relied hR).relied hR'⟩

theorem order_createTransaction {clock : ℕ} {days : Num} (hne : idempotencyKey ≠ "")
    (hdates : validateDates cfg dto clock = .ok days) :
    Triple (OrderStep cfg start i) (Relied i) (OrderKept cfg start i)
      (Idle i (.create dto idempotencyKey))
      (flatten (.transaction (createTransaction cfg dto idempotencyKey
        (calculateDaysRequested dto.startDate dto.endDate) (cfg.hashObject dto))))
      fun _ _ t => Idle i (.create dto idempotencyKey) t := by
  intro L hL
  refine order_transaction (fun _ u => ∃ days id,
    calculateDaysRequested dto.startDate dto.endDate = some days ∧
      Recorded i dto idempotencyKey days id u) (fun t ht => ?_) ?_ ?_ hL
  · exact order_createBody cfg start ht.progress
  · intro _ t t' h hR
    obtain ⟨days, id, hdays, hrecorded⟩ := h
    exact ⟨days, id, hdays, hrecorded.relied hR⟩
  · intro _ t h hin
    obtain ⟨charged, id, hcharged, hrecorded⟩ := h
    obtain rfl : days = some charged := (validateDates_days hdates).symm.trans hcharged
    exact recorded_advance hne hdates hin hrecorded

theorem order_triples {clock : ℕ} {days : Num} (hne : idempotencyKey ≠ "")
    (hdates : validateDates cfg dto clock = .ok days) (start : Store) (i : ℕ) :
    CreateTriples flatten (OrderStep cfg start i) (Relied i) (OrderKept cfg start i) cfg dto
      idempotencyKey (Idle i (.create dto idempotencyKey)) (Idle i (.create dto idempotencyKey))
      (Idle i (.create dto idempotencyKey)) (Idle i (.create dto idempotencyKey)) (fun _ => True)
      fun _ _ => True := by
  have hstay {o : BaseOp} (ho : CreateOp cfg dto idempotencyKey (.base o))
      {B : Logged Call World → Except Err o.Resp → Logged Call World → Prop}
      (hB : ∀ L r t, Idle i (.create dto idempotencyKey) t → B L r t) :
      Triple (OrderStep cfg start i) (Relied i) (OrderKept cfg start i)
        (Idle i (.create dto idempotencyKey)) (flatten (.base o)) B :=
    fun L hL => Prog.Holds.mono (hB L) (order_idle (.inl ⟨_, _, ho⟩) L hL)
  exact
    { out_end := fun _ _ => trivial
      now_out := hstay .now fun _ _ _ h => ⟨h, fun _ => id⟩
      find_out := hstay .findRecord fun _ _ _ h => ⟨h, fun _ _ _ => trivial⟩
      enter := order_goes (.inl ⟨dto, idempotencyKey, .enterLock⟩) fun x w r w' hx => by
        cases hx
        exact ⟨_, rfl⟩
      await := order_goes (.inl ⟨dto, idempotencyKey, .awaitPrevious⟩) fun x w r w' hx => by
        obtain ⟨l, _, heq⟩ := Option.map_eq_some_iff.mp hx
        cases heq
        exact ⟨_, rfl⟩
      now_in := hstay .now fun _ _ _ h => ⟨h, fun _ => id⟩
      sleep_in := fun ms => hstay (.sleep ms) fun _ _ _ => id
      find_in := hstay .findRecord fun _ _ _ h => ⟨h, fun _ _ _ => trivial⟩
      row_in := hstay .findRequestByKey fun _ _ _ h => ⟨h, fun _ _ => trivial⟩
      transaction := fun L hL => Prog.Holds.mono
        (fun _ _ h => ⟨fun _ _ => ⟨h, trivial⟩, fun _ _ => h⟩)
        (order_createTransaction hne hdates L hL)
      schedule := fun task L hL => by
        refine Prog.Holds.perform ?_
        intro t hR r t' hs
        obtain ⟨hkept, hR'⟩ := order_quiet hs (fun _ => rfl) fun x w hx => by
          cases hx
          exact ⟨rfl, fun _ => rfl, .refl _⟩
        obtain ⟨_, _, x, w, hx, _⟩ := hs
        cases hx
        exact ⟨hkept, ⟨_, rfl⟩, (hL.relied hR).relied hR', fun _ => id⟩
      release_in := hstay .releaseLock fun _ _ _ _ => ⟨trivial, fun _ => id⟩
      release_done := hstay .releaseLock fun _ _ _ _ => ⟨trivial, fun _ => id⟩ }

/-- A creation whose dates no clock lets pass is refused before its transaction. -/
theorem order_create (cfg : Config) (start : Store) (hL : Idle i (.create dto idempotencyKey) L) :
    (((Call.create dto idempotencyKey).svc cfg).interp flatten).Holds (OrderStep cfg start i)
      (Relied i) (OrderKept cfg start i) (fun _ _ => True) L := by
  have hends : ((createRequest cfg dto idempotencyKey).interp flatten).Holds
      (OrderStep cfg start i) (Relied i) (OrderKept cfg start i) (fun _ _ => True) L := by
    by_cases hne : idempotencyKey = ""
    -- without a key the call is refused at once
    · unfold createRequest
      rw [if_pos hne]
      trivial
    by_cases hdates : ∃ clock days, validateDates cfg dto clock = .ok days
    · obtain ⟨clock, days, hdates⟩ := hdates
      exact Prog.Holds.mono (fun _ _ _ => trivial)
        ((order_triples hne hdates start i).createRequest L hL)
    -- no clock lets these dates pass, so nothing is written
    · rw [createRequest_eq cfg dto hne]
      refine holds_now_bind (Prog.Holds.mono ?_
        (order_idle (.inl ⟨dto, idempotencyKey, .now⟩) L hL))
      rintro (e | now) t _
      · trivial
      dsimp only [Prog.after]
      cases hnow : validateDates cfg dto now with
      | error e => trivial
      | ok days => exact absurd ⟨now, days, hnow⟩ hdates
  refine Prog.Holds.interp_bind (Prog.Holds.mono ?_ hends)
  rintro (e | body) t _ <;> trivial

/-- The tasks and the worker open no transaction. -/
theorem order_background {c : Call} (cfg : Config) (start : Store) (i : ℕ)
    (hc : ∀ o, CallOp cfg c o → SyncOp (fun _ => True) o) (L : Logged Call World) :
    ((c.svc cfg).interp flatten).Holds (OrderStep cfg start i) (Relied i) (OrderKept cfg start i)
      (fun _ _ => True) L := by
  have hflat : ((c.svc cfg).interp flatten).Each fun o =>
      ∃ b, o = .base b ∧ SyncOp (fun _ => True) (.base b) := by
    refine (svc_each cfg c).interp fun o ho => ?_
    cases o with
    | base b => exact Prog.Each.perform ⟨b, rfl, hc _ ho⟩
    | transaction body => cases hc _ ho
  refine Prog.Holds.mono (fun _ _ _ => trivial) (Prog.Holds.of_each ?_ hflat L)
  rintro o t r t' ⟨b, rfl, hb⟩ hs
  exact (order_base (.inr hb) hs).1

end Create

end TimeOff
