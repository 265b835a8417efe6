import TimeOff.World

/-! What each transaction does when it runs alone: how its callback can end, and the tables it
leaves when it ends well. -/
namespace TimeOff

open Async

section TxEnds

def TxStep (o : TxOp) (w : World) (r : Except Err o.Resp) (w' : World) : Prop :=
  ∃ x, o.exec x w = some (r, w')

variable {β γ : Type} {w w' : World}

/-- However its calls turn out, the callback run alone from `w` ends with `Q`. -/
abbrev TxEnds (Q : Except Err β → World → Prop) (p : Tx β) (w : World) : Prop :=
  p.Holds TxStep Eq (fun _ _ => True) Q w

theorem txEnds_ret {Q : Except Err β → World → Prop} {v : β} (h : Q (.ok v) w) :
    TxEnds Q (.ret v) w := h

theorem txEnds_bind {Q : Except Err γ → World → Prop} {p : Tx β} {f : β → Tx γ}
    (h : TxEnds (Prog.after (fun v u => TxEnds Q (f v) u) Q) p w) : TxEnds Q (p.bind f) w :=
  Prog.Holds.bind h

theorem txEnds_db {o : DbOp} {Q : Except Err o.Resp → World → Prop}
    (hfail : ∀ code message, Q (.error (.sqlite code message)) w)
    (hgo : Q (w.db o).1 (w.db o).2) : TxEnds Q (Tx.db o) w := by
  refine Prog.Holds.perform ?_
  rintro _ rfl r w' ⟨x, hx⟩
  -- an operation fails with a driver error or does what it should
  refine ⟨trivial, ?_⟩
  cases x with
  | go =>
    cases hx
    exact hgo
  | fail code message =>
    cases hx
    exact hfail code message
  | _ => cases hx

/-- A call that only reads. -/
theorem txEnds_read {o : DbOp} {v : o.Resp} {Q : Except Err γ → World → Prop}
    {f : o.Resp → Tx γ} (ho : w.db o = (.ok v, w))
    (hfail : ∀ code message, Q (.error (.sqlite code message)) w)
    (h : TxEnds Q (f v) w) : TxEnds Q ((Tx.db o).bind f) w := by
  refine txEnds_bind (txEnds_db hfail ?_)
  rw [ho]
  exact h

theorem txEnds_now {Q : Except Err ℕ → World → Prop} (h : Q (.ok w.clock) w) :
    TxEnds Q Tx.now w := by
  refine Prog.Holds.perform ?_
  rintro _ rfl r w' ⟨x, hx⟩
  cases hx
  exact ⟨trivial, h⟩

theorem txEnds_setImmediate {task : Task} {Q : Except Err Unit → World → Prop}
    (h : Q (.ok ()) (w.schedule task)) : TxEnds Q (Tx.setImmediate task) w := by
  refine Prog.Holds.perform ?_
  rintro _ rfl r w' ⟨x, hx⟩
  cases hx
  exact ⟨trivial, h⟩

theorem TxEnds.mono {Q Q' : Except Err β → World → Prop} {p : Tx β}
    (hQ : ∀ r u, Q r u → Q' r u) (h : TxEnds Q p w) : TxEnds Q' p w :=
  Prog.Holds.mono hQ h

/-- A transaction either commits what its callback did or leaves the tables as they were. -/
theorem atomically_ends {Q : Except Err β → World → Prop} {p : Tx β} {xs : List Choice}
    {commit : Choice} {r : Except Err β} (h : TxEnds Q p w)
    (hr : atomically p xs commit w = some (r, w')) :
    (∃ v, r = .ok v ∧ Q (.ok v) w') ∨
      ∃ e, r = .error e ∧ w'.store = w.store ∧
        ((∃ code message, e = .sqlite code message) ∨ ∃ u, Q (.error e) u) := by
  obtain ⟨⟨x, u⟩, hplay, hr⟩ := Option.bind_eq_some_iff.mp hr
  -- the callback first, then its commit
  have hQ : Q x u :=
    Prog.Holds.play (fun _ => rfl) (fun o c s r s' hs => ⟨c, hs⟩) h hplay
  dsimp only at hr
  -- the callback and the commit, each with two ends
  split at hr
  · cases hr
    exact .inl ⟨_, rfl, by simpa using hQ⟩
  · cases hr
    exact .inr ⟨_, rfl, rfl, .inl ⟨_, _, rfl⟩⟩
  · cases hr
    exact .inr ⟨_, rfl, rfl, .inr ⟨_, by simpa using hQ⟩⟩
  · cases hr

end TxEnds

section Moves

variable {w : World} {key : BalanceKey}

theorem World.db_saveBalance {patch : BalancePatch} (h : patch.accepted = true) :
    w.db (.saveBalance key patch) =
      (.ok (), { w with store := w.store.saveBalance key fun b =>
        { patch with version := some (b.version + 1) } }) := by
  simp [World.db, DbOp.run, h, DbOp.nextId]

theorem World.db_saveBalance_rejected {patch : BalancePatch} (h : patch.accepted = false) :
    w.db (.saveBalance key patch) =
      (.error nanError, w) := by
  simp [World.db, DbOp.run, h, DbOp.nextId]

theorem moveDays_ends {notFound : ServiceError}
    {shortfall : EmployeeBalance → Option ServiceError}
    {patch : EmployeeBalance → BalancePatch} {Q : Except Err Unit → World → Prop}
    (hfail : ∀ code message, Q (.error (.sqlite code message)) w)
    (hnone : w.store.balance? key = none → Q (.error (.service notFound)) w)
    (hshort : ∀ b e, w.store.balance? key = some b → shortfall b = some e →
      Q (.error (.service e)) w)
    (hgo : ∀ b, w.store.balance? key = some b → shortfall b = none →
      (patch b).accepted = true →
      Q (.ok ()) { w with store := w.store.saveBalance key fun x =>
        { patch b with version := some (x.version + 1) } }) :
    TxEnds Q (moveDays key notFound shortfall patch) w := by
  refine txEnds_read rfl hfail ?_
  -- the three steps of the mutation: the row, the check, the save
  cases hb : w.store.balance? key with
  | none => exact hnone hb
  | some b =>
    dsimp only
    cases hs : shortfall b with
    | some e => exact hshort b e hb hs
    | none =>
      refine txEnds_db hfail ?_
      -- a patch that makes an amount `NaN` is refused by the column
      cases ha : (patch b).accepted with
      | true =>
        rw [World.db_saveBalance ha]
        exact hgo b hb hs ha
      | false =>
        rw [World.db_saveBalance_rejected ha]
        exact hfail _ _

end Moves

section Transitions

variable {w : World}

theorem transition_ends {requestId : ℕ} {target : RequestStatus}
    {stamp : TimeOffRequest → ℕ → RequestPatch} {settle : BalanceKey → Num → Tx Unit}
    {Q : Except Err TimeOffRequest → World → Prop}
    (hfail : ∀ code message, Q (.error (.sqlite code message)) w)
    (hnone : Q (.error (.service (.requestNotFound requestId))) w)
    (hbad : ∀ current, Q (.error (.service (.invalidStatusTransition current target))) w)
    (hgo : ∀ r, w.store.request? requestId = some r → r.status = .pending →
      TxEnds (fun x u => Q (x.map fun _ =>
          (RequestPatch.saved { stamp r w.clock with status := some target } r w.clock).apply r) u)
        (settle r.balanceKey (some r.daysRequested))
        { w with store := w.store.saveRequest requestId fun x =>
          { stamp r w.clock with
            status := some target
            version := some (x.version + 1)
            updatedAt := some w.clock } }) :
    TxEnds Q (transition requestId target stamp settle) w := by
  refine txEnds_bind (txEnds_read rfl hfail ?_)
  cases hr : w.store.request? requestId with
  | none => exact hnone
  | some r =>
    refine txEnds_bind ?_
    unfold assertValidTransition
    -- the table of transitions lets only a pending request through
    split
    · rename_i hvalid
      refine txEnds_bind (txEnds_now (txEnds_bind (txEnds_db hfail ?_)))
      refine txEnds_bind (TxEnds.mono ?_ (hgo r hr (pending_of_mem_validTransitions hvalid)))
      intro x u hx
      cases x with
      | ok v => exact hx
      | error e => exact hx
    · exact hbad _

/-- What a committed transition of request `r`, whose days leave the pending of `b`, does. -/
structure TransitionEffect (requestId : ℕ) (target : RequestStatus)
    (move : Num → EmployeeBalance → BalancePatch) (s s' : Store) (r : TimeOffRequest)
    (b : EmployeeBalance) : Prop where
  found : s.request? requestId = some r
  pending : r.status = .pending
  balance : s.balance? r.balanceKey = some b
  enough : r.daysRequested ≤ b.pendingBalance
  store_eq : ∃ (stamp : RequestPatch) (now : ℕ),
    s' = (s.saveRequest requestId fun x =>
      { stamp with
        status := some target
        version := some (x.version + 1)
        updatedAt := some now }).saveBalance r.balanceKey fun x =>
          { move (some r.daysRequested) b with version := some (x.version + 1) }

/-- How a transition can fail. -/
inductive TransitionFailure (requestId : ℕ) (target : RequestStatus) (move : BalanceMove)
    (s : Store) : Err → Prop
  | driver (code : SqliteCode) (message : String) : TransitionFailure requestId target move s
      (.sqlite code message)
  | notFound : TransitionFailure requestId target move s (.service (.requestNotFound requestId))
  | invalid (current : RequestStatus) : TransitionFailure requestId target move s
      (.service (.invalidStatusTransition current target))
  | noBalance {r : TimeOffRequest} (found : s.request? requestId = some r)
      (pending : r.status = .pending) (balance : s.balance? r.balanceKey = none) :
      TransitionFailure requestId target move s
        (.service (.balanceNotFound move r.balanceKey))
  | underflow {r : TimeOffRequest} {b : EmployeeBalance} (found : s.request? requestId = some r)
      (pending : r.status = .pending) (balance : s.balance? r.balanceKey = some b)
      (short : b.pendingBalance < r.daysRequested) :
      TransitionFailure requestId target move s
        (.service (.pendingUnderflow move r.balanceKey (some b.pendingBalance)
          (some r.daysRequested)))

/-- A transaction ends with a transition or one of its failures. -/
def TransitionEnds (requestId : ℕ) (target : RequestStatus) (move : BalanceMove)
    (patch : Num → EmployeeBalance → BalancePatch) (w : World) {β : Type}
    (r : Except Err β) (w' : World) : Prop :=
  match r with
  | .ok _ => ∃ r b, TransitionEffect requestId target patch w.store w'.store r b
  | .error e => TransitionFailure requestId target move w.store e

theorem transition_settles {requestId : ℕ} {target : RequestStatus} {move : BalanceMove}
    {stamp : TimeOffRequest → ℕ → RequestPatch}
    {patch : Num → EmployeeBalance → BalancePatch} :
    TxEnds (TransitionEnds requestId target move patch w)
      (transition requestId target stamp fun key days =>
        moveDays key (.balanceNotFound move key) (pendingShortfall move key days) (patch days))
      w := by
  refine transition_ends (fun _ _ => .driver _ _) .notFound (fun _ => .invalid _) ?_
  intro r hr hpending
  refine moveDays_ends (fun _ _ => .driver _ _) (fun hb => .noBalance hr hpending hb) ?_ ?_
  -- a shortfall is that of the row that was read
  · intro b e hb he
    unfold pendingShortfall at he
    split at he
    · rename_i hlt
      cases he
      exact .underflow hr hpending hb (by simpa [Num.lt] using hlt)
    · cases he
  · intro b hb hs _
    refine ⟨r, b, hr, hpending, hb, ?_, stamp r w.clock, w.clock, rfl⟩
    unfold pendingShortfall at hs
    split at hs
    · cases hs
    · rename_i hlt
      simpa [Num.lt] using hlt

theorem approve_ends {requestId : ℕ} {approverId : String} :
    TxEnds (TransitionEnds requestId .approved .finalize finalizePatch w)
      (approveTransaction requestId approverId) w := by
  refine txEnds_bind (TxEnds.mono ?_ transition_settles)
  intro x u hx
  cases x with
  | ok r => exact txEnds_bind (txEnds_setImmediate hx)
  | error e => exact hx

theorem reject_ends {requestId : ℕ} {approverId reason : String} :
    TxEnds (TransitionEnds requestId .rejected .release releasePatch w)
      (rejectTransaction requestId approverId reason) w := by
  refine txEnds_bind (TxEnds.mono ?_ transition_settles)
  intro x u hx
  cases x with
  | ok r => exact hx
  | error e => exact hx

theorem cancel_ends {requestId : ℕ} {reason : Option String} :
    TxEnds (TransitionEnds requestId .cancelled .release releasePatch w)
      (cancelTransaction requestId reason) w := by
  refine txEnds_bind (TxEnds.mono ?_ transition_settles)
  intro x u hx
  cases x with
  | ok r => exact hx
  | error e => exact hx

end Transitions

section Create

variable {w : World}

theorem throwIfOverlap_cases (startDate endDate : String) (l : List ActiveRequest) :
    (∀ a ∈ l, datesOverlap startDate endDate a.startDate a.endDate = false) ∧
        throwIfOverlap startDate endDate l = .ret () ∨
      ∃ e, throwIfOverlap startDate endDate l = .throw (.service e) := by
  induction l with
  | nil => exact .inl ⟨fun a ha => (nomatch ha), rfl⟩
  -- the first conflict throws; the rest is not looked at
  | cons a l ih =>
    unfold throwIfOverlap
    cases ha : datesOverlap startDate endDate a.startDate a.endDate with
    | true => exact .inr ⟨_, rfl⟩
    | false =>
      rcases ih with ⟨hl, hret⟩ | herr
      · exact .inl ⟨List.forall_mem_cons.mpr ⟨ha, hl⟩, hret⟩
      · exact .inr herr

/-- What a committed creation of the request `saved`, charged to `b`, does. -/
structure CreateEffect (cfg : Config) (dto : CreateTimeOffRequestDto) (idempotencyKey : String)
    (days : ℚ) (requestHash : String) (now id : ℕ) (s s' : Store) (saved : TimeOffRequest)
    (b : EmployeeBalance) : Prop where
  balance : s.balance? dto.balanceKey = some b
  enough : days ≤ b.availableBalance
  free : ∀ a ∈ s.activeRequests dto.employeeId dto.locationId,
    datesOverlap dto.startDate dto.endDate a.startDate a.endDate = false
  row : (newRequest dto idempotencyKey (some days)).row now id = some saved
  newId : s.request? id = none
  newKey : s.requestByKey? idempotencyKey = none
  balances : s'.balances = (s.saveBalance dto.balanceKey fun x =>
    { deductPatch (some days) b with version := some (x.version + 1) }).balances
  requests : s'.requests = s.requests ++ [saved]
  records : s'.records = s.records ++ [newRecord cfg dto idempotencyKey requestHash saved now]

theorem World.db_insertBalance (w : World) (balance : NewBalance) :
    (∃ code message, w.db (.insertBalance balance) = (.error (.sqlite code message), w)) ∨
    ∃ row s', balance.row = some row ∧ w.store.insertBalance row = some s' ∧
      w.db (.insertBalance balance) = (.ok row, { w with store := s' }) := by
  simp only [World.db, DbOp.run, DbOp.nextId]
  cases hrow : balance.row with
  | none => exact .inl ⟨_, _, rfl⟩
  | some row =>
    cases hs : w.store.insertBalance row with
    | none =>
      exact .inl ⟨.constraint, "UNIQUE constraint failed: employee_balances", by
        simp [hs, constraintError]⟩
    | some s' => exact .inr ⟨row, s', rfl, hs, by simp [hs]⟩

theorem World.db_insertRequest (w : World) (request : NewRequest) :
    (∃ code message, w.db (.insertRequest request) =
      (.error (.sqlite code message), { w with nextId := w.nextId + 1 })) ∨
    ∃ row s', request.row w.clock w.nextId = some row ∧ w.store.insertRequest row = some s' ∧
      w.db (.insertRequest request) =
        (.ok row, { w with store := s', nextId := w.nextId + 1 }) := by
  simp only [World.db, DbOp.run, DbOp.nextId]
  cases hrow : request.row w.clock w.nextId with
  | none => exact .inl ⟨_, _, rfl⟩
  | some row =>
    cases hs : w.store.insertRequest row with
    | none =>
      exact .inl ⟨.constraint, "UNIQUE constraint failed: time_off_requests", by
        simp [hs, constraintError]⟩
    | some s' => exact .inr ⟨row, s', rfl, hs, by simp [hs]⟩

theorem World.db_insertRecord (w : World) (record : IdempotencyRecord) :
    (∃ message, w.db (.insertRecord record) = (.error (constraintError message), w)) ∨
    ∃ s', w.store.insertRecord record = some s' ∧
      w.db (.insertRecord record) = (.ok (), { w with store := s' }) := by
  simp only [World.db, DbOp.run, DbOp.nextId]
  cases hs : w.store.insertRecord record with
  | none => exact .inl ⟨_, rfl⟩
  | some s' => exact .inr ⟨s', rfl, rfl⟩

theorem deductPatch_accepted_iff {days : Num} {b : EmployeeBalance} :
    (deductPatch days b).accepted = true ↔ ∃ d, days = some d := by
  cases days <;> simp [deductPatch, BalancePatch.accepted, Num.sub, Num.add]

theorem create_ends {cfg : Config} {dto : CreateTimeOffRequestDto} {idempotencyKey : String}
    {daysRequested : Num} {requestHash : String} :
    TxEnds (fun r w' => ∀ saved, r = .ok saved → ∃ days b, daysRequested = some days ∧
        CreateEffect cfg dto idempotencyKey days requestHash w.clock w.nextId w.store w'.store
          saved b)
      (createTransaction cfg dto idempotencyKey daysRequested requestHash) w := by
  -- every exit but the last is an error, of which nothing is claimed
  have herr {e : Err} {P : TimeOffRequest → Prop} (saved : TimeOffRequest)
      (h : (Except.error e : Except Err TimeOffRequest) = .ok saved) : P saved := nomatch h
  refine txEnds_bind (txEnds_read rfl (fun _ _ => herr) (txEnds_ret ?_))
  refine txEnds_bind (txEnds_read rfl (fun _ _ => herr) ?_)
  rcases throwIfOverlap_cases dto.startDate dto.endDate
    (w.store.activeRequests dto.employeeId dto.locationId) with ⟨hfree, hret⟩ | ⟨e, hthrow⟩
  · rw [hret]
    refine txEnds_ret (txEnds_bind (moveDays_ends (fun _ _ => herr) (fun _ => herr)
      (fun _ _ _ _ => herr) ?_))
    intro b hb hs ha
    -- the days are a number, or the save of the balance would have failed
    obtain ⟨days, rfl⟩ := deductPatch_accepted_iff.mp ha
    -- enough available days: the check compared the same row
    have henough : days ≤ b.availableBalance := by
      unfold availableShortfall at hs
      split at hs
      · cases hs
      · rename_i hlt
        simpa [Num.lt] using hlt
    refine txEnds_bind (txEnds_db (fun _ _ => herr) ?_)
    rcases World.db_insertRequest _ (newRequest dto idempotencyKey (some days)) with
      ⟨code, message, hdb⟩ | ⟨saved, s₁, hrow, hs₁, hdb⟩
    · rw [hdb]
      exact herr
    rw [hdb]
    refine txEnds_bind (txEnds_now (txEnds_bind (txEnds_db (fun _ _ => herr) ?_)))
    rcases World.db_insertRecord _
      (newRecord cfg dto idempotencyKey requestHash saved w.clock) with
      ⟨message, hdb'⟩ | ⟨s₂, hs₂, hdb'⟩
    · rw [hdb']
      exact herr
    rw [hdb']
    rintro _ ⟨rfl⟩
    obtain ⟨hid, hkey⟩ := newRequest_row_eq hrow
    obtain ⟨hnewId, hnewKey, hreq, hbal, hrec⟩ := Store.insertRequest_eq hs₁
    obtain ⟨_, hrec', hbal', hreq'⟩ := Store.insertRecord_eq hs₂
    rw [hid] at hnewId
    rw [hkey] at hnewKey
    exact ⟨days, b, rfl, hb, henough, hfree, hrow, hnewId, hnewKey, hbal'.trans hbal,
      hreq'.trans hreq, by rw [hrec', hrec]; rfl⟩
  -- an overlap throws before anything is written
  · rw [hthrow]
    exact herr

end Create

section Steps

def SvcStep (i : ℕ) (o : Op) (w : World) (r : Except Err o.Resp) (w' : World) : Prop :=
  ∃ x, o.exec i x w = some (r, w')

variable {w w' : World} {i : ℕ}

theorem exec_transaction {β : Type} {body : Tx β} {x : AtomicChoice} {r : Except Err β}
    (h : (Op.transaction body).exec i x w = some (r, w')) :
    (∃ code message, r = .error (.sqlite code message) ∧ w' = w) ∨
      ∃ xs commit, atomically body xs commit w = some (r, w') := by
  cases x with
  | op x =>
    cases x with
    | fail code message =>
      cases h
      exact .inl ⟨code, message, rfl, rfl⟩
    | _ => cases h
  | transaction xs commit => exact .inr ⟨xs, commit, h⟩

theorem atomically_sameCalls {β : Type} {p : Tx β} {xs : List Choice} {commit : Choice}
    {r : Except Err β} (h : atomically p xs commit w = some (r, w')) : SameCalls w w' := by
  obtain ⟨⟨y, u⟩, hplay, hr⟩ := Option.bind_eq_some_iff.mp h
  have hu : SameCalls w u := by
    refine Prog.play_inv (SameCalls w) ?_ (.refl w) hplay
    exact fun o c s r s' hs hw => hw.trans (txExec_sameCalls hs)
  dsimp only at hr
  split at hr <;> cases hr
  · exact hu
  · exact ⟨hu.journal, hu.returned, hu.approvals, hu.running⟩
  · exact ⟨hu.journal, hu.returned, hu.approvals, hu.running⟩

theorem opExec_sameCalls {o : Op} {x : AtomicChoice} {r : Except Err o.Resp}
    (h : o.exec i x w = some (r, w')) : SameCalls w w' := by
  cases o with
  | base o =>
    cases x with
    | op x => exact baseExec_sameCalls h
    | transaction xs commit => cases h
  | transaction body =>
    rcases exec_transaction h with ⟨_, _, _, rfl⟩ | ⟨xs, commit, h⟩
    · exact .refl _
    · exact atomically_sameCalls h

theorem World.load_nil (w : World) (i : ℕ) : w.load i [] = w := by
  simp [World.load]

theorem loaded_eq_nil {o : DbOp} (ho : ∀ take, o ≠ .findPendingSync take)
    (r : Except Err o.Resp) : o.loaded r = [] := by
  cases o with
  | findPendingSync take => exact absurd rfl (ho take)
  | _ => rfl

theorem play_now_bind {β : Type} {f : ℕ → Svc β} {xs : List AtomicChoice} :
    (Svc.now.bind f).play (Op.exec i) (.op .go :: xs) w = (f w.clock).play (Op.exec i) xs w :=
  rfl

theorem exec_db_go {o : DbOp} (ho : ∀ take, o ≠ .findPendingSync take) :
    (BaseOp.db o).exec i .go w = some (w.db o) := by
  change some ((w.db o).1, (w.db o).2.load i (o.loaded (w.db o).1)) = _
  rw [loaded_eq_nil ho, World.load_nil]

theorem play_db_bind {β : Type} {o : DbOp} {f : o.Resp → Svc β} {xs : List AtomicChoice}
    (ho : ∀ take, o ≠ .findPendingSync take) :
    ((Svc.db o).bind f).play (Op.exec i) (.op .go :: xs) w =
      match (w.db o).1 with
      | .ok v => (f v).play (Op.exec i) xs (w.db o).2
      | .error e => (Prog.throw e : Svc β).play (Op.exec i) xs (w.db o).2 := by
  change ((BaseOp.db o).exec i .go w).bind (fun r =>
    (Prog.bind (Prog.ofExcept r.1) f).play (Op.exec i) xs r.2) = _
  rw [exec_db_go ho]
  change (Prog.bind (Prog.ofExcept (w.db o).1) f).play (Op.exec i) xs (w.db o).2 = _
  cases (w.db o).1 <;> rfl

/-- However its operations turn out, the program run alone from `w` moves the world by `G` and
ends with `Q`. -/
abbrev SvcEnds {β : Type} (i : ℕ) (G : World → World → Prop) (Q : Except Err β → World → Prop)
    (p : Svc β) (w : World) : Prop :=
  p.Holds (SvcStep i) Eq G Q w

theorem svcEnds_db {o : DbOp} {G : World → World → Prop} {Q : Except Err o.Resp → World → Prop}
    (hfail : ∀ code message u, u.store = w.store → G w u ∧ Q (.error (.sqlite code message)) u)
    (hgo : ∀ u, u.store = (w.db o).2.store → G w u ∧ Q (w.db o).1 u) :
    SvcEnds i G Q (Svc.db o) w := by
  refine Prog.Holds.perform ?_
  rintro _ rfl r u ⟨x, hx⟩
  cases x with
  | op x =>
    rcases exec_db_cases hx with ⟨code, message, rfl, hu⟩ | ⟨rfl, hu⟩
    · exact hfail code message u hu
    · exact hgo u hu
  | transaction xs commit => cases hx

/-- A call that only reads. -/
theorem svcEnds_read {β : Type} {o : DbOp} {v : o.Resp} {G : World → World → Prop}
    {Q : Except Err β → World → Prop} {f : o.Resp → Svc β} (ho : w.db o = (.ok v, w))
    (hfail : ∀ code message u, u.store = w.store → G w u ∧ Q (.error (.sqlite code message)) u)
    (h : ∀ u, u.store = w.store → G w u ∧ SvcEnds i G Q (f v) u) :
    SvcEnds i G Q ((Svc.db o).bind f) w := by
  refine Prog.Holds.bind (svcEnds_db hfail ?_)
  rw [ho]
  exact h

theorem svcEnds_now {G : World → World → Prop} {Q : Except Err ℕ → World → Prop}
    (h : G w w ∧ Q (.ok w.clock) w) : SvcEnds i G Q Svc.now w := by
  refine Prog.Holds.perform ?_
  rintro _ rfl r u ⟨x, hx⟩
  cases x with
  | op x =>
    cases hx
    exact h
  | transaction xs commit => cases hx

end Steps

end TimeOff
