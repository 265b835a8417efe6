import TimeOff.CallOps

/-! The calls on the machine that isolates nothing: the operations of their transactions, what
beginning, committing and rolling back do, and the proof rule of a whole transaction. -/
namespace TimeOff

open Async

section TxOps

/-- The operations of a transition. -/
inductive TransitionOp (requestId : ℕ) (target : RequestStatus) : TxOp → Prop
  | findRequest : TransitionOp requestId target (.db (.findRequest requestId))
  | now : TransitionOp requestId target .now
  | saveRequest (patch : RequestPatch) (status : patch.status = some target)
      (sync : patch.hcmSyncStatus = none) :
      TransitionOp requestId target (.db (.saveRequest requestId patch))
  | findBalance (key : BalanceKey) : TransitionOp requestId target (.db (.findBalance key))
  | saveBalance (key : BalanceKey) (patch : BalancePatch) :
      TransitionOp requestId target (.db (.saveBalance key patch))

/-- The operations inside the transaction of a call. -/
inductive TxCallOp (cfg : Config) : Call → TxOp → Prop
  | createBalances (dto : CreateTimeOffRequestDto) (idempotencyKey : String) :
      TxCallOp cfg (.create dto idempotencyKey)
        (.db (.findBalances dto.employeeId dto.locationId))
  | createActive (dto : CreateTimeOffRequestDto) (idempotencyKey : String) :
      TxCallOp cfg (.create dto idempotencyKey)
        (.db (.findActiveRequests dto.employeeId dto.locationId))
  | createBalance (dto : CreateTimeOffRequestDto) (idempotencyKey : String) :
      TxCallOp cfg (.create dto idempotencyKey) (.db (.findBalance dto.balanceKey))
  | createDeduct (dto : CreateTimeOffRequestDto) (idempotencyKey : String)
      (patch : BalancePatch) :
      TxCallOp cfg (.create dto idempotencyKey) (.db (.saveBalance dto.balanceKey patch))
  | createRequest (dto : CreateTimeOffRequestDto) (idempotencyKey : String) :
      TxCallOp cfg (.create dto idempotencyKey)
        (.db (.insertRequest (newRequest dto idempotencyKey
          (calculateDaysRequested dto.startDate dto.endDate))))
  | createNow (dto : CreateTimeOffRequestDto) (idempotencyKey : String) :
      TxCallOp cfg (.create dto idempotencyKey) .now
  | createRecord (dto : CreateTimeOffRequestDto) (idempotencyKey : String)
      (saved : TimeOffRequest) (now : ℕ) :
      TxCallOp cfg (.create dto idempotencyKey)
        (.db (.insertRecord (newRecord cfg dto idempotencyKey (cfg.hashObject dto) saved now)))
  | approve (requestId : ℕ) (approverId : String) {o : TxOp}
      (h : TransitionOp requestId .approved o) : TxCallOp cfg (.approve requestId approverId) o
  | approveTask (requestId : ℕ) (approverId : String) (request : TimeOffRequest) :
      TxCallOp cfg (.approve requestId approverId)
        (.setImmediate (.notifyApprovalToHcm request requestId))
  | reject (requestId : ℕ) (approverId reason : String) {o : TxOp}
      (h : TransitionOp requestId .rejected o) :
      TxCallOp cfg (.reject requestId approverId reason) o
  | cancel (requestId : ℕ) (reason : Option String) {o : TxOp}
      (h : TransitionOp requestId .cancelled o) : TxCallOp cfg (.cancel requestId reason) o
  | realTimeFind (key : BalanceKey) (total : Num) (version : Option String) :
      TxCallOp cfg (.realTime key total version) (.db (.findBalance key))
  | realTimeNow (key : BalanceKey) (total : Num) (version : Option String) :
      TxCallOp cfg (.realTime key total version) .now
  | realTimeSave (key : BalanceKey) (total : Num) (version : Option String)
      (patch : BalancePatch) :
      TxCallOp cfg (.realTime key total version) (.db (.saveBalance key patch))

variable {φ : TxOp → Prop}

theorem moveDays_each {key : BalanceKey} {notFound : ServiceError}
    {shortfall : EmployeeBalance → Option ServiceError}
    {patch : EmployeeBalance → BalancePatch} (hfind : φ (.db (.findBalance key)))
    (hsave : ∀ patch, φ (.db (.saveBalance key patch))) :
    (moveDays key notFound shortfall patch).Each φ := by
  refine Prog.Each.bind (Prog.Each.perform hfind) fun r => ?_
  cases r with
  | none => trivial
  | some balance =>
    dsimp only
    split
    · trivial
    · exact Prog.Each.perform (hsave _)

theorem throwIfOverlap_each (startDate endDate : String) (l : List ActiveRequest) :
    (throwIfOverlap startDate endDate l).Each φ := by
  induction l with
  | nil => trivial
  | cons existing rest ih =>
    unfold throwIfOverlap
    split
    · trivial
    · exact ih

theorem lockEmployeeBalances_each {employeeId locationId : String}
    (h : φ (.db (.findBalances employeeId locationId))) :
    (lockEmployeeBalances employeeId locationId).Each φ :=
  Prog.Each.bind (Prog.Each.perform h) fun _ => trivial

theorem assertNoOverlap_each {employeeId locationId startDate endDate : String}
    (h : φ (.db (.findActiveRequests employeeId locationId))) :
    (assertNoOverlap employeeId locationId startDate endDate).Each φ :=
  Prog.Each.bind (Prog.Each.perform h) fun _ => throwIfOverlap_each _ _ _

theorem createTransaction_each (cfg : Config) (dto : CreateTimeOffRequestDto)
    (idempotencyKey : String) :
    (createTransaction cfg dto idempotencyKey (calculateDaysRequested dto.startDate dto.endDate)
      (cfg.hashObject dto)).Each (TxCallOp cfg (.create dto idempotencyKey)) := by
  refine Prog.Each.bind (lockEmployeeBalances_each (.createBalances _ _)) fun _ => ?_
  refine Prog.Each.bind (assertNoOverlap_each (.createActive _ _)) fun _ => ?_
  refine Prog.Each.bind (moveDays_each (.createBalance _ _) fun _ => .createDeduct _ _ _)
    fun _ => ?_
  refine Prog.Each.bind (Prog.Each.perform (.createRequest _ _)) fun saved => ?_
  refine Prog.Each.bind (Prog.Each.perform (.createNow _ _)) fun now => ?_
  exact Prog.Each.bind (Prog.Each.perform (.createRecord _ _ _ _)) fun _ => trivial

theorem transition_each {requestId : ℕ} {target : RequestStatus}
    {stamp : TimeOffRequest → ℕ → RequestPatch} {settle : BalanceKey → Num → Tx Unit}
    (hstamp : ∀ r now, (stamp r now).hcmSyncStatus = none)
    (hsettle : ∀ key days, (settle key days).Each (TransitionOp requestId target)) :
    (transition requestId target stamp settle).Each (TransitionOp requestId target) := by
  -- load, check, clock, save, settle
  refine Prog.Each.bind (Prog.Each.bind (Prog.Each.perform .findRequest) fun r => ?_)
    fun request => ?_
  · cases r <;> trivial
  refine Prog.Each.bind ?_ fun _ => ?_
  · unfold assertValidTransition
    split <;> trivial
  refine Prog.Each.bind (Prog.Each.perform .now) fun now => ?_
  refine Prog.Each.bind (Prog.Each.perform (.saveRequest _ rfl (hstamp request now)))
    fun _ => ?_
  exact Prog.Each.bind (hsettle _ _) fun _ => trivial

theorem approveTransaction_each (cfg : Config) (requestId : ℕ) (approverId : String) :
    (approveTransaction requestId approverId).Each
      (TxCallOp cfg (.approve requestId approverId)) := by
  refine Prog.Each.bind (Prog.Each.mono (fun _ => .approve _ _) (transition_each ?_ ?_))
    fun request => Prog.Each.bind (Prog.Each.perform (.approveTask _ _ _)) fun _ => trivial
  · exact fun _ _ => rfl
  · exact fun key _ => moveDays_each (.findBalance key) (.saveBalance key)

theorem rejectTransaction_each (cfg : Config) (requestId : ℕ) (approverId reason : String) :
    (rejectTransaction requestId approverId reason).Each
      (TxCallOp cfg (.reject requestId approverId reason)) := by
  refine Prog.Each.bind (Prog.Each.mono (fun _ => .reject _ _ _) (transition_each ?_ ?_))
    fun _ => trivial
  · exact fun _ _ => rfl
  · exact fun key _ => moveDays_each (.findBalance key) (.saveBalance key)

theorem cancelTransaction_each (cfg : Config) (requestId : ℕ) (reason : Option String) :
    (cancelTransaction requestId reason).Each (TxCallOp cfg (.cancel requestId reason)) := by
  refine Prog.Each.bind (Prog.Each.mono (fun _ => .cancel _ _) (transition_each ?_ ?_))
    fun _ => trivial
  · exact fun _ _ => rfl
  · exact fun key _ => moveDays_each (.findBalance key) (.saveBalance key)

theorem realTime_each (cfg : Config) (key : BalanceKey) (total : Num)
    (version : Option String) :
    (applyHcmRealTimeUpdate key total version).Each
      (TxCallOp cfg (.realTime key total version)) := by
  refine Prog.Each.bind (Prog.Each.perform (.realTimeFind _ _ _)) fun r => ?_
  cases r with
  | none => trivial
  | some balance =>
    refine Prog.Each.bind (Prog.Each.perform (.realTimeNow _ _ _)) fun now => ?_
    exact Prog.Each.bind (Prog.Each.perform (.realTimeSave _ _ _ _)) fun _ => trivial

theorem transaction_each {cfg : Config} {c : Call} {β : Type} {body : Tx β}
    (h : CallOp cfg c (.transaction body)) : body.Each (TxCallOp cfg c) := by
  cases h with
  | create h =>
    cases h with
    | transaction => exact createTransaction_each _ _ _
  | approve id approver => exact approveTransaction_each _ _ _
  | reject id approver reason => exact rejectTransaction_each _ _ _ _
  | cancel id reason => exact cancelTransaction_each _ _ _
  | realTime key total version => exact realTime_each _ _ _ _
  | retrySyncs h => cases h
  | task t h => cases h

end TxOps

section Flat

/-- The operations of a call. -/
inductive FlatCallOp (cfg : Config) (c : Call) : FlatOp → Prop
  | base {o : BaseOp} (h : CallOp cfg c (.base o)) : FlatCallOp cfg c (.base o)
  | begin : FlatCallOp cfg c .begin
  | tx {o : TxOp} (h : TxCallOp cfg c o) : FlatCallOp cfg c (.tx o)
  | commit : FlatCallOp cfg c .commit
  | rollback : FlatCallOp cfg c .rollback

theorem flattenTransaction_each {β : Type} {ψ : FlatOp → Prop} {body : Tx β}
    (hbegin : ψ .begin) (hbody : body.Each fun o => ψ (.tx o)) (hcommit : ψ .commit)
    (hrollback : ψ .rollback) : (flattenTransaction body).Each ψ := by
  refine Prog.Each.handle (Prog.Each.bind (Prog.Each.perform hbegin) fun _ => ?_) fun e =>
    Prog.Each.bind (Prog.Each.perform hrollback) fun _ => trivial
  refine Prog.Each.bind (Prog.Each.interp hbody fun _ h => Prog.Each.perform h) fun v => ?_
  exact Prog.Each.bind (Prog.Each.perform hcommit) fun _ => trivial

theorem flat_each (cfg : Config) (c : Call) :
    ((c.svc cfg).interp flatten).Each (FlatCallOp cfg c) := by
  refine Prog.Each.interp (svc_each cfg c) fun o ho => ?_
  cases o with
  | base o => exact Prog.Each.perform (.base ho)
  | transaction body =>
    exact flattenTransaction_each .begin (Prog.Each.mono (fun _ => .tx) (transaction_each ho))
      .commit .rollback

/-- Only a create call inserts a request, and only one of its payload. -/
theorem insertRequest_of_each {cfg : Config} {c : Call} {o : FlatOp} {request : NewRequest}
    (h : FlatCallOp cfg c o)
    (ho : o = .base (.db (.insertRequest request)) ∨ o = .tx (.db (.insertRequest request))) :
    ∃ dto idempotencyKey, c = .create dto idempotencyKey ∧ o = .tx (.db (.insertRequest request)) ∧
      request = newRequest dto idempotencyKey
        (calculateDaysRequested dto.startDate dto.endDate) := by
  rcases ho with rfl | rfl
  · cases h with
    -- outside a transaction no call inserts a request
    | base h => cases h with
      | create h => cases h
      | retrySyncs h => cases h
      | task t h => cases h
  · cases h with
    | tx h => cases h with
      | createRequest dto key => exact ⟨dto, key, rfl, rfl, rfl⟩
      | approve _ _ h => cases h
      | reject _ _ _ h => cases h
      | cancel _ _ h => cases h

variable {w w' : World} {i : ℕ}

theorem begin_cases {x : Choice} {r : Except Err Unit}
    (h : FlatOp.begin.exec i x w = some (r, w')) : w' = w := by
  cases x <;> cases h <;> rfl

/-- A call in a transaction fails and does nothing, or runs and is journaled. -/
theorem txDb_cases {o : DbOp} {x : Choice} {r : Except Err o.Resp}
    (h : (FlatOp.tx (.db o)).exec i x w = some (r, w')) :
    (∃ code message, r = .error (.sqlite code message) ∧ w' = w) ∨
      r = (w.db o).1 ∧ w' = (w.db o).2.journaled (entryOf i o w) := by
  cases x with
  | go =>
    cases h
    exact .inr ⟨rfl, rfl⟩
  | fail code message =>
    cases h
    exact .inl ⟨code, message, rfl, rfl⟩
  | _ => cases h

theorem commit_cases {x : Choice} {r : Except Err Unit}
    (h : FlatOp.commit.exec i x w = some (r, w')) :
    (∃ code message, r = .error (.sqlite code message) ∧ w' = w) ∨
      r = .ok () ∧ w' = w.commit i := by
  cases x with
  | go =>
    cases h
    exact .inr ⟨rfl, rfl⟩
  | fail code message =>
    cases h
    exact .inl ⟨code, message, rfl, rfl⟩
  | _ => cases h

theorem rollback_cases {x : Choice} {r : Except Err Unit}
    (h : FlatOp.rollback.exec i x w = some (r, w')) : r = .ok () ∧ w' = w.rollback i := by
  cases x <;> cases h <;> exact ⟨rfl, rfl⟩

/-- What each undo keeps, a rollback keeps. -/
theorem undoAll_inv (I : Store → Prop) {entries : List Entry} {s : Store} (hs : I s)
    (hstep : ∀ e ∈ entries, ∀ u, e.undo = some u → ∀ s, I s → I (u.run s)) :
    I (undoAll entries s) := by
  induction entries generalizing s with
  | nil => exact hs
  | cons e entries ih =>
    obtain ⟨he, hrest⟩ := List.forall_mem_cons.mp hstep
    refine ih ?_ hrest
    dsimp only
    cases hu : e.undo with
    | none => exact hs
    | some u => exact he u hu s hs

/-- A step leaves the tables alone, makes one call of the database, or rolls back. -/
inductive TablesStep (i : ℕ) (o : FlatOp) (w w' : World) : Prop
  | same (store : w'.store = w.store) (nextId : w'.nextId = w.nextId)
  | db (d : DbOp) (op : o = .base (.db d) ∨ o = .tx (.db d))
      (store : w'.store = (w.db d).2.store) (nextId : w'.nextId = (w.db d).2.nextId)
  | undo (op : o = .rollback) (store : w'.store = undoAll (w.entriesOf i) w.store)
      (nextId : w'.nextId = w.nextId)

theorem flatExec_tables {o : FlatOp} {x : Choice} {r : Except Err o.Resp}
    (h : o.exec i x w = some (r, w')) : TablesStep i o w w' := by
  cases o with
  | base o =>
    -- of the base operations the database alone writes
    cases o with
    | db d =>
      obtain ⟨⟨r', u⟩, hu, heq⟩ := Option.map_eq_some_iff.mp h
      cases heq
      rcases execDb_cases hu with ⟨_, _, _, rfl⟩ | ⟨_, rfl⟩
      · exact .same rfl rfl
      · exact .db d (.inl rfl) rfl rfl
    | awaitPrevious =>
      obtain ⟨l, _, heq⟩ := Option.map_eq_some_iff.mp h
      cases heq
      exact .same rfl rfl
    | awaitPut message put =>
      obtain ⟨l, _, heq⟩ := Option.map_eq_some_iff.mp h
      cases heq
      exact .same (World.acknowledge_tables _ _).1 (World.acknowledge_tables _ _).2
    | validateRequest key days => cases x <;> cases h <;> exact .same rfl rfl
    | sendPut put => cases x <;> cases h <;> exact .same rfl rfl
    | _ =>
      cases h
      exact .same rfl rfl
  | begin =>
    rw [begin_cases h]
    exact .same rfl rfl
  | tx o =>
    cases o with
    | db d =>
      rcases txDb_cases h with ⟨_, _, _, rfl⟩ | ⟨_, rfl⟩
      · exact .same rfl rfl
      · exact .db d (.inr rfl) rfl rfl
    | now =>
      cases h
      exact .same rfl rfl
    | setImmediate task =>
      cases h
      exact .same rfl rfl
  | commit => rcases commit_cases h with ⟨_, _, _, rfl⟩ | ⟨_, rfl⟩ <;> exact .same rfl rfl
  | rollback =>
    rw [(rollback_cases h).2]
    exact .undo rfl rfl rfl

/-- A step leaves the open transactions alone, adds a call to one, or ends that of process `i`. -/
inductive JournalStep (i : ℕ) (o : FlatOp) (w w' : World) : Prop
  | same (journal : w'.journal = w.journal)
  | entry (d : DbOp) (op : o = .tx (.db d)) (journal : w'.journal = entryOf i d w :: w.journal)
  | close (op : o = .commit ∨ o = .rollback)
      (journal : w'.journal = w.journal.filter (·.pid ≠ i))

theorem flatExec_journal {o : FlatOp} {x : Choice} {r : Except Err o.Resp}
    (h : o.exec i x w = some (r, w')) : JournalStep i o w w' := by
  cases o with
  | base o => exact .same (baseExec_sameCalls h).journal
  | begin =>
    rw [begin_cases h]
    exact .same rfl
  | tx o =>
    cases o with
    | db d =>
      rcases txDb_cases h with ⟨_, _, _, rfl⟩ | ⟨_, rfl⟩
      · exact .same rfl
      · exact .entry d rfl rfl
    | now =>
      cases h
      exact .same rfl
    | setImmediate task =>
      cases h
      exact .same rfl
  | commit =>
    rcases commit_cases h with ⟨_, _, _, rfl⟩ | ⟨_, rfl⟩
    · exact .same rfl
    · exact .close (.inl rfl) rfl
  | rollback =>
    rw [(rollback_cases h).2]
    exact .close (.inr rfl) rfl

theorem mem_entriesOf {e : Entry} : e ∈ w.entriesOf i ↔ e ∈ w.journal ∧ e.pid = i := by
  rw [World.entriesOf, List.mem_filter, decide_eq_true_eq]

/-- Ending the transaction of one process leaves those of the others open. -/
theorem entriesOf_of_close {j : ℕ} (hj : j ≠ i)
    (hjournal : w'.journal = w.journal.filter (·.pid ≠ i)) : w'.entriesOf j = w.entriesOf j := by
  rw [World.entriesOf, hjournal, List.filter_filter, World.entriesOf]
  refine List.filter_congr fun e _ => ?_
  by_cases he : e.pid = j <;> simp [he, hj]

/-- And its own is closed. -/
theorem entriesOf_closed (hjournal : w'.journal = w.journal.filter (·.pid ≠ i)) :
    w'.entriesOf i = [] := by
  rw [World.entriesOf, hjournal, List.filter_filter, List.filter_eq_nil_iff]
  intro e _
  by_cases he : e.pid = i <;> simp [he]

/-- A step of process `i` touches no open transaction of another. -/
theorem flatExec_entriesOf {o : FlatOp} {x : Choice} {r : Except Err o.Resp} {j : ℕ} (hj : j ≠ i)
    (h : o.exec i x w = some (r, w')) : w'.entriesOf j = w.entriesOf j := by
  cases flatExec_journal h with
  | same hjournal => rw [World.entriesOf, hjournal, World.entriesOf]
  | entry d ho hjournal =>
    rw [World.entriesOf, hjournal, List.filter_cons_of_neg, World.entriesOf]
    simp [entryOf, hj.symm]
  | close ho hjournal => exact entriesOf_of_close hj hjournal

/-- A step ends no call and starts no task. -/
theorem flatExec_history {o : FlatOp} {x : Choice} {r : Except Err o.Resp}
    (h : o.exec i x w = some (r, w')) :
    w'.history.returned = w.history.returned ∧ w'.history.running = w.history.running := by
  cases o with
  | base o =>
    have hsame := baseExec_sameCalls h
    exact ⟨hsame.returned, hsame.running⟩
  | begin =>
    rw [begin_cases h]
    exact ⟨rfl, rfl⟩
  -- the history changes when a call ends, never in one of its operations
  | tx o =>
    cases o with
    | db o => rcases txDb_cases h with ⟨_, _, _, rfl⟩ | ⟨_, rfl⟩ <;> exact ⟨rfl, rfl⟩
    | now =>
      cases h
      exact ⟨rfl, rfl⟩
    | setImmediate task =>
      cases h
      exact ⟨rfl, rfl⟩
  | commit => rcases commit_cases h with ⟨_, _, _, rfl⟩ | ⟨_, rfl⟩ <;> exact ⟨rfl, rfl⟩
  | rollback =>
    rw [(rollback_cases h).2]
    exact ⟨rfl, rfl⟩

/-- What the HCM has acknowledged and what a worker has loaded stays on record, and no step takes
a task from the queue. -/
theorem flatExec_grows {o : FlatOp} {x : Choice} {r : Except Err o.Resp}
    (h : o.exec i x w = some (r, w')) :
    w.history.acknowledged ⊆ w'.history.acknowledged ∧ w.history.loaded ⊆ w'.history.loaded ∧
      w.immediates ⊆ w'.immediates := by
  have hrefl : w.history.acknowledged ⊆ w.history.acknowledged ∧
      w.history.loaded ⊆ w.history.loaded ∧ w.immediates ⊆ w.immediates :=
    ⟨List.Subset.refl _, List.Subset.refl _, List.Subset.refl _⟩
  cases o with
  | base o =>
    cases o with
    | db d =>
      obtain ⟨⟨r', u⟩, hu, heq⟩ := Option.map_eq_some_iff.mp h
      cases heq
      rcases execDb_cases hu with ⟨_, _, _, rfl⟩ | ⟨_, rfl⟩ <;>
        exact ⟨hrefl.1, List.subset_append_left _ _, hrefl.2.2⟩
    | setImmediate task =>
      cases h
      exact ⟨hrefl.1, hrefl.2.1, List.subset_append_left _ _⟩
    | awaitPrevious =>
      obtain ⟨l, _, heq⟩ := Option.map_eq_some_iff.mp h
      cases heq
      exact hrefl
    | awaitPut message put =>
      obtain ⟨r', _, heq⟩ := Option.map_eq_some_iff.mp h
      cases heq
      rcases r with e | reply
      · exact hrefl
      · dsimp only [World.acknowledge]
        -- a reply that confirms is noted
        split
        · exact ⟨List.subset_cons_self _ _, hrefl.2⟩
        · exact hrefl
    | validateRequest key days => cases x <;> cases h <;> exact hrefl
    | sendPut put => cases x <;> cases h <;> exact hrefl
    | _ =>
      cases h
      exact hrefl
  | begin =>
    rw [begin_cases h]
    exact hrefl
  | tx o =>
    cases o with
    | db d => rcases txDb_cases h with ⟨_, _, _, rfl⟩ | ⟨_, rfl⟩ <;> exact hrefl
    | now =>
      cases h
      exact hrefl
    | setImmediate task =>
      cases h
      exact ⟨hrefl.1, hrefl.2.1, List.subset_append_left _ _⟩
  | commit => rcases commit_cases h with ⟨_, _, _, rfl⟩ | ⟨_, rfl⟩ <;> exact hrefl
  | rollback =>
    rw [(rollback_cases h).2]
    exact hrefl

end Flat

section TxRules

variable {σ β : Type} {step : (o : TxOp) → σ → Except Err o.Resp → σ → Prop}
  {R G : σ → σ → Prop} {w : σ} {Q : Except Err β → σ → Prop}

theorem tx_db_bind {o : DbOp} {f : o.Resp → Tx β}
    (h : ∀ w₁, R w w₁ → ∀ r w₂, step (.db o) w₁ r w₂ → G w₁ w₂ ∧
      Prog.after (fun v t => (f v).Holds step R G Q t) Q r w₂) :
    ((Tx.db o).bind f).Holds step R G Q w :=
  Prog.Holds.bind (Prog.Holds.perform h)

theorem tx_now_bind {f : ℕ → Tx β}
    (h : ∀ w₁, R w w₁ → ∀ r w₂, step .now w₁ r w₂ → G w₁ w₂ ∧
      Prog.after (fun v t => (f v).Holds step R G Q t) Q r w₂) :
    (Tx.now.bind f).Holds step R G Q w :=
  Prog.Holds.bind (Prog.Holds.perform h)

theorem tx_setImmediate_bind {task : Task} {f : Unit → Tx β}
    (h : ∀ w₁, R w w₁ → ∀ r w₂, step (.setImmediate task) w₁ r w₂ → G w₁ w₂ ∧
      Prog.after (fun v t => (f v).Holds step R G Q t) Q r w₂) :
    ((Tx.setImmediate task).bind f).Holds step R G Q w :=
  Prog.Holds.bind (Prog.Holds.perform h)

/-- The rule of a transition: `Found r` holds once the pending request `r` is loaded, `Saved r`
once its new status is saved, `Moved r` once its days are moved. -/
theorem holds_transition {requestId : ℕ} {target : RequestStatus}
    {stamp : TimeOffRequest → ℕ → RequestPatch} {settle : BalanceKey → Num → Tx Unit}
    (Found Saved Moved : TimeOffRequest → σ → Prop)
    (hstamp : ∀ r now, (stamp r now).hcmSyncStatus = none)
    (hfind : ∀ w₁, R w w₁ → ∀ x w₂, step (.db (.findRequest requestId)) w₁ x w₂ → G w₁ w₂ ∧
      ∀ r, x = .ok (some r) → r.status = .pending → Found r w₂)
    (hnow : ∀ r w, Found r w → ∀ w₁, R w w₁ → ∀ x w₂, step .now w₁ x w₂ →
      G w₁ w₂ ∧ Found r w₂)
    (hsave : ∀ r w, Found r w → ∀ w₁, R w w₁ → ∀ (patch : RequestPatch) x w₂,
      patch.status = some target → patch.hcmSyncStatus = none →
      step (.db (.saveRequest requestId patch)) w₁ x w₂ →
      G w₁ w₂ ∧ (x = .ok () → Saved r w₂))
    (hsettle : ∀ r w, Saved r w → (settle r.balanceKey (some r.daysRequested)).Holds step R G
      (fun x w => x = .ok () → Moved r w) w) :
    (transition requestId target stamp settle).Holds step R G
      (fun x w => ∀ request, x = .ok request →
        ∃ r patch, request = RequestPatch.apply patch r ∧ Moved r w) w := by
  refine Prog.Holds.bind (tx_db_bind ?_)
  intro w₁ hR x w₂ hs
  obtain ⟨hG, hfound⟩ := hfind w₁ hR x w₂ hs
  refine ⟨hG, ?_⟩
  -- only a pending request passes the check
  rcases x with e | (_ | r)
  · exact fun _ h => nomatch h
  · exact fun _ h => nomatch h
  refine Prog.Holds.bind ?_
  unfold assertValidTransition
  split
  · rename_i hvalid
    have hpending := pending_of_mem_validTransitions hvalid
    refine tx_now_bind ?_
    intro w₃ hR x w₄ hs
    obtain ⟨hG, hfound⟩ := hnow r w₂ (hfound r rfl hpending) w₃ hR x w₄ hs
    refine ⟨hG, ?_⟩
    rcases x with e | now
    · exact fun _ h => nomatch h
    refine tx_db_bind ?_
    intro w₅ hR x w₆ hs
    obtain ⟨hG, hsaved⟩ := hsave r w₄ hfound w₅ hR _ x w₆ rfl (hstamp r now) hs
    refine ⟨hG, ?_⟩
    rcases x with e | u
    · exact fun _ h => nomatch h
    refine Prog.Holds.bind (Prog.Holds.mono ?_ (hsettle r w₆ (hsaved rfl)))
    rintro (e | _) w₇ hdone
    · exact fun _ h => nomatch h
    · rintro request ⟨⟩
      exact ⟨r, _, rfl, hdone rfl⟩
  · exact fun _ h => nomatch h

end TxRules

section Rule

variable {σ β : Type} {step : (o : FlatOp) → σ → Except Err o.Resp → σ → Prop}
  {R G : σ → σ → Prop} {w : σ}

theorem holds_txFlat {body : Tx β} {Q : Except Err β → σ → Prop}
    (h : body.Holds (fun o => step (.tx o)) R G Q w) : (txFlat body).Holds step R G Q w := by
  induction body generalizing w with
  | ret v => exact h
  | throw e => exact h
  | op o k ih =>
    intro w₁ hR r w₂ hs
    obtain ⟨hG, hk⟩ := h w₁ hR r w₂ hs
    refine ⟨hG, ?_⟩
    cases r <;> exact ih _ hk

/-- The rule of a transaction: `Begun` holds once it has begun, `Ready v` when its callback has
returned `v`, `Failed` before a rollback. -/
theorem holds_flattenTransaction {body : Tx β} {Q : Except Err β → σ → Prop}
    (Begun : σ → Prop) (Ready : β → σ → Prop) (Failed : σ → Prop)
    (hbegin : ∀ w₁, R w w₁ → ∀ r w₂, step .begin w₁ r w₂ → G w₁ w₂ ∧
      (∀ u, r = .ok u → Begun w₂) ∧ ∀ e, r = .error e → Failed w₂)
    (hbody : ∀ t, Begun t → body.Holds (fun o => step (.tx o)) R G (fun r u =>
      (∀ v, r = .ok v → Ready v u) ∧ ∀ e, r = .error e → Failed u) t)
    (hcommit : ∀ v t, Ready v t → ∀ w₁, R t w₁ → ∀ r w₂, step .commit w₁ r w₂ → G w₁ w₂ ∧
      (∀ u, r = .ok u → Q (.ok v) w₂) ∧ ∀ e, r = .error e → Failed w₂)
    (hrollback : ∀ t, Failed t → ∀ w₁, R t w₁ → ∀ r w₂, step .rollback w₁ r w₂ →
      G w₁ w₂ ∧ ∀ e, Q (.error e) w₂) :
    (flattenTransaction body).Holds step R G Q w := by
  -- whatever fails, the rollback is what follows
  have hcatch (e : Err) (t : σ) (ht : Failed t) :
      ((Prog.perform FlatOp.rollback).bind fun _ => (Prog.throw e : Flat β)).Holds step R G Q
        t := by
    refine Prog.Holds.bind (Prog.Holds.perform ?_)
    intro w₁ hR r w₂ hs
    obtain ⟨hG, hQ⟩ := hrollback t ht w₁ hR r w₂ hs
    refine ⟨hG, ?_⟩
    cases r <;> exact hQ _
  refine Prog.Holds.handle (Prog.Holds.bind (Prog.Holds.perform ?_))
  intro w₁ hR r w₂ hs
  obtain ⟨hG, hok, herr⟩ := hbegin w₁ hR r w₂ hs
  refine ⟨hG, ?_⟩
  rcases r with e | u
  · exact hcatch e w₂ (herr e rfl)
  refine Prog.Holds.bind (Prog.Holds.mono ?_ (holds_txFlat (hbody w₂ (hok u rfl))))
  -- the body failed, or its commit is next
  rintro (e | v) t ⟨hready, hfailed⟩
  · exact hcatch e t (hfailed e rfl)
  refine Prog.Holds.bind (Prog.Holds.perform ?_)
  intro w₃ hR' r' w₄ hs'
  obtain ⟨hG', hok', herr'⟩ := hcommit v t (hready v rfl) w₃ hR' r' w₄ hs'
  refine ⟨hG', ?_⟩
  rcases r' with e | u'
  · exact hcatch e w₄ (herr' e rfl)
  · exact hok' u' rfl

/-- A call that is one transaction. -/
theorem holds_transaction {α : Type} {body : Tx β} {k : β → Svc α}
    {Q : Except Err α → σ → Prop}
    (h : (flattenTransaction body).Holds step R G
      (Prog.after (fun v t => ((k v).interp flatten).Holds step R G Q t) Q) w) :
    (((Svc.transaction body).bind k).interp flatten).Holds step R G Q w := by
  refine Prog.Holds.interp_bind ?_
  rw [Svc.transaction, Prog.interp_perform]
  exact h

end Rule

end TimeOff
