import TimeOff.AsyncPool
import TimeOff.CreateLock
import TimeOff.HcmSyncService
import TimeOff.MockHcm

/-! The process the services run in: its database, event loop, create locks and HCM, and what
each awaited operation does to them. A choice says how an operation turns out. -/
namespace TimeOff

open Async

section Calls

/-- A call of the API, a run of the worker, the reconciliation of one HCM record, or a task
that left the `setImmediate` queue. -/
inductive Call
  | create (dto : CreateTimeOffRequestDto) (idempotencyKey : String)
  | approve (requestId : ℕ) (approverId : String)
  | reject (requestId : ℕ) (approverId reason : String)
  | cancel (requestId : ℕ) (reason : Option String)
  | upsert (key : BalanceKey) (totalBalance : Num)
  | reconcile (hcmRecord : HcmRecord)
  | realTime (key : BalanceKey) (hcmTotal : Num) (version : Option String)
  | retrySyncs
  | task (t : Task)
  deriving DecidableEq

def Task.svc (cfg : Config) : Task → Svc Unit
  | .notifyHcm requestId key daysRequested => notifyHcmAsync requestId key daysRequested
  | .notifyApprovalToHcm request requestId => notifyApprovalToHcmAsync cfg request requestId

/-- The response of the calls that answer with a request. -/
def Call.svc (cfg : Config) : Call → Svc (Option RequestBody)
  | .create dto key => (createRequest cfg dto key).bind fun body => .ret (some body)
  | .approve id approver => (approveRequest id approver).bind fun body => .ret (some body)
  | .reject id approver reason =>
    (rejectRequest id approver reason).bind fun body => .ret (some body)
  | .cancel id reason => (cancelRequest id reason).bind fun body => .ret (some body)
  | .upsert key total => (upsertBalance key total).bind fun _ => .ret none
  | .reconcile hcmRecord => (reconcileRecord hcmRecord).bind fun _ => .ret none
  | .realTime key total version =>
    (Svc.transaction (applyHcmRealTimeUpdate key total version)).bind fun _ => .ret none
  | .retrySyncs => (retryPendingHcmSyncs cfg).bind fun _ => .ret none
  | .task t => (t.svc cfg).bind fun _ => .ret none

end Calls

section Footprint

/-- What a database call of a transaction may read or write: a row, the use of a unique
value, or the set of rows of an employee and location. -/
inductive Item
  | balance (key : BalanceKey)
  | balancesOf (employeeId locationId : String)
  | request (id : ℕ)
  | requestKey (idempotencyKey : String)
  | requestsOf (employeeId locationId : String)
  | record (idempotencyKey : String)
  deriving DecidableEq

def Store.requestIdsOf (s : Store) (employeeId locationId : String) : List ℕ :=
  (s.requests.filter fun r => r.employeeId = employeeId && r.locationId = locationId).map (·.id)

def DbOp.writes (fresh : ℕ) : DbOp → List Item
  | saveBalance key _ => [.balance key]
  | insertBalance b => [.balance b.key, .balancesOf b.key.employeeId b.key.locationId]
  | saveRequest id _ => [.request id]
  | insertRequest r =>
    [.request fresh, .requestKey r.idempotencyKey, .requestsOf r.employeeId r.locationId]
  | insertRecord r => [.record r.idempotencyKey]
  | _ => []

def DbOp.reads (s : Store) : DbOp → List Item
  | findBalance key => [.balance key]
  | findBalances employeeId locationId => [.balancesOf employeeId locationId]
  | findRequest id => [.request id]
  | findActiveRequests employeeId locationId =>
    .requestsOf employeeId locationId ::
      (s.requestIdsOf employeeId locationId).map .request
  | findRecord key => [.record key]
  | _ => []

end Footprint

section World

/-- One database call of a transaction that is still open. -/
structure Entry where
  pid : ℕ
  op : DbOp
  reads : List Item
  writes : List Item
  undo : Option Undo

/-- What happened so far: no code reads it. -/
structure History where
  returned : List (Call × RequestBody)
  /-- The requests whose approval was committed. -/
  approvals : List ℕ
  /-- The requests for which an approval was acknowledged by the HCM. -/
  acknowledged : List ℕ
  /-- The requests that each run of the worker loaded. -/
  loaded : List (ℕ × TimeOffRequest)
  /-- The tasks that have started and not ended. -/
  running : List (ℕ × Task)

structure World where
  store : Store
  clock : ℕ
  nextId : ℕ
  /-- Of the open transactions, the newest call first. -/
  journal : List Entry
  locks : CreateLocks
  immediates : List Task
  hcm : MockHcm
  history : History

def World.init (store : Store) (clock nextId : ℕ) (hcm : MockHcm) : World :=
  ⟨store, clock, nextId, [], .init, [], hcm, ⟨[], [], [], [], []⟩⟩

end World

section Exec

/-- How an operation turns out: it does what it should, the driver reports an error and
nothing is done, or the HCM is silent, refuses or replies. -/
inductive Choice
  | go
  | fail (code : SqliteCode) (message : String)
  | lost (e : HcmError)
  | delivered
  | replied (reply : PutReply)
  | validated (reply : Option ValidateReply)
  | broken
  deriving DecidableEq

def DbOp.nextId : DbOp → ℕ → ℕ
  | insertRequest _, n => n + 1
  | _, n => n

/-- An id is drawn by an insert alone. -/
theorem DbOp.le_nextId (o : DbOp) (n : ℕ) : n ≤ o.nextId n := by
  cases o with
  | insertRequest request => exact Nat.le_succ n
  | _ => exact le_refl n

/-- What a run of the worker loads. -/
def DbOp.loaded : (o : DbOp) → Except Err o.Resp → List TimeOffRequest
  | findPendingSync _, .ok rows => rows
  | _, _ => []

def World.db (w : World) (o : DbOp) : Except Err o.Resp × World :=
  let r := o.run w.clock w.nextId w.store
  (r.1, { w with store := r.2, nextId := o.nextId w.nextId })

def execDb (o : DbOp) (w : World) : Choice → Option (Except Err o.Resp × World)
  | .go => some (w.db o)
  | .fail code message => some (.error (.sqlite code message), w)
  | _ => none

def World.load (w : World) (i : ℕ) (rows : List TimeOffRequest) : World :=
  { w with history := { w.history with loaded := w.history.loaded ++ rows.map (i, ·) } }

def World.schedule (w : World) (task : Task) : World :=
  { w with immediates := w.immediates ++ [task] }

def World.acknowledge (w : World) (requestId : ℕ) : Except Err PutReply → World
  | .ok reply =>
    if approvalAcknowledged (some reply) then
      { w with history := { w.history with acknowledged := requestId :: w.history.acknowledged } }
    else w
  | .error _ => w

def execAwaitPut (w : World) (message : ℕ) : Choice → Option (Except Err PutReply)
  | .delivered => (w.hcm.answers.lookup message).map fun
    | .ok reply => .ok reply
    | .error e => .error (.hcm e)
  | .replied reply => some (.ok reply)
  | .lost e => some (.error (.hcm e))
  | _ => none

/-- One operation of process `i` outside a transaction. -/
def BaseOp.exec (i : ℕ) : (o : BaseOp) → Choice → World → Option (Except Err o.Resp × World)
  | .db o, x, w => (execDb o w x).map fun r => (r.1, r.2.load i (o.loaded r.1))
  | .now, _, w => some (.ok w.clock, w)
  | .setImmediate task, _, w => some (.ok (), w.schedule task)
  | .enterLock lane, _, w => some (.ok (), { w with locks := w.locks.enter i lane })
  -- `await previousLock`: only once the call in front has released the lane
  | .awaitPrevious, _, w =>
    (w.locks.awaitPrevious i).map fun locks => (.ok (), { w with locks := locks })
  | .releaseLock lane, _, w => some (.ok (), { w with locks := w.locks.release i lane })
  -- the clock is moved by the environment, so a sleep only ends
  | .sleep _, _, w => some (.ok (), w)
  | .validateRequest _ _, .validated reply, w => some (.ok reply, w)
  | .validateRequest _ _, .broken, w => some (.error .typeError, w)
  | .sendPut put, .go, w => some (.ok (w.hcm.send put).1, { w with hcm := (w.hcm.send put).2 })
  -- the call is lost on the way, before HCM has seen it
  | .sendPut _, .lost e, w => some (.error (.hcm e), w)
  | .awaitPut message put, x, w =>
    (execAwaitPut w message x).map fun r => (r, w.acknowledge put.referenceId r)
  | _, _, _ => none

end Exec

section Start

/-- A task leaves the queue when it starts. -/
def World.accept (i : ℕ) (c : Call) (w : World) : Option World :=
  match c with
  | .task t =>
    if t ∈ w.immediates then
      some { w with
        immediates := w.immediates.erase t
        history := { w.history with running := (i, t) :: w.history.running } }
    else none
  | _ => some w

def World.finish (i : ℕ) (c : Call) (r : Except Err (Option RequestBody)) (w : World) : World :=
  { w with history :=
    { w.history with
      returned := match r with
        | .ok (some body) => (c, body) :: w.history.returned
        | _ => w.history.returned
      running := w.history.running.filter (·.1 ≠ i) } }

inductive Env
  | tick (ms : ℕ)
  | settle (i : ℕ)
  | deliver (message : ℕ)
  | drop (message : ℕ)
  deriving DecidableEq

def Env.exec : Env → World → Option World
  | .tick ms, w => some { w with clock := w.clock + ms }
  | .settle i, w => (w.locks.settle i).map fun locks => { w with locks := locks }
  | .deliver message, w => (w.hcm.deliver message).map fun hcm => { w with hcm := hcm }
  | .drop message, w => some { w with hcm := w.hcm.remove message }

end Start

section Atomic

/-! Transactions that run in one step, all or nothing. -/

def TxOp.exec : (o : TxOp) → Choice → World → Option (Except Err o.Resp × World)
  | .db o, x, w => execDb o w x
  | .now, _, w => some (.ok w.clock, w)
  | .setImmediate task, _, w => some (.ok (), w.schedule task)

/-- How a step turns out; a transaction takes a choice for each call of its callback and one
for its commit. -/
inductive AtomicChoice
  | op (x : Choice)
  | transaction (xs : List Choice) (commit : Choice)

def steps (n : ℕ) : List AtomicChoice := List.replicate n (.op .go)

/-- A transaction of `n` calls in which nothing fails. -/
def committed (n : ℕ) : AtomicChoice := .transaction (List.replicate n .go) .go

def atomically {β : Type} (body : Tx β) (xs : List Choice) (commit : Choice) (w : World) :
    Option (Except Err β × World) :=
  (body.play TxOp.exec xs w).bind fun r =>
    match r.1, commit with
    | .ok v, .go => some (.ok v, r.2)
    | .ok _, .fail code message =>
      some (.error (.sqlite code message), { r.2 with store := w.store })
    | .error e, _ => some (.error e, { r.2 with store := w.store })
    | _, _ => none

def Op.exec (i : ℕ) : (o : Op) → AtomicChoice → World → Option (Except Err o.Resp × World)
  | .base o, .op x, w => o.exec i x w
  | .transaction _, .op (.fail code message), w => some (.error (.sqlite code message), w)
  | .transaction body, .transaction xs commit, w => atomically body xs commit w
  | _, _, _ => none

end Atomic

section Flat

/-! Transactions whose calls interleave with everything else: a write is visible at once, a
rollback undoes the transaction's own writes. -/

inductive FlatOp
  | base (o : BaseOp)
  | begin
  | tx (o : TxOp)
  | commit
  | rollback

@[reducible] def FlatOp.Resp : FlatOp → Type
  | base o => o.Resp
  | begin => Unit
  | tx o => o.Resp
  | commit => Unit
  | rollback => Unit

abbrev Flat := Prog FlatOp FlatOp.Resp Err

def txFlat {β : Type} (body : Tx β) : Flat β :=
  body.interp fun o => Prog.perform (FlatOp.tx o)

/-- `dataSource.transaction`: it commits when the callback has resolved, else, or when the
commit fails, it rolls back and rethrows. -/
def flattenTransaction {β : Type} (body : Tx β) : Flat β :=
  ((Prog.perform FlatOp.begin).bind fun _ =>
    (txFlat body).bind fun v =>
      (Prog.perform FlatOp.commit).bind fun _ => .ret v).handle fun e =>
        (Prog.perform FlatOp.rollback).bind fun _ => .throw e

def flatten : (o : Op) → Flat o.Resp
  | .base o => Prog.perform (FlatOp.base o)
  | .transaction body => flattenTransaction body

def undoAll (entries : List Entry) (s : Store) : Store :=
  entries.foldl (fun s e => e.undo.elim s (·.run s)) s

def entryOf (i : ℕ) (o : DbOp) (w : World) : Entry where
  pid := i
  op := o
  reads := o.reads w.store
  writes := o.writes w.nextId
  undo := match (w.db o).1 with
    | .ok _ => o.undo w.nextId w.store
    | .error _ => none

def World.journaled (w : World) (e : Entry) : World := { w with journal := e :: w.journal }

def Entry.approval (e : Entry) : Option ℕ :=
  match e.op with
  | .saveRequest id patch => if patch.status = some .approved then some id else none
  | _ => none

def World.entriesOf (w : World) (i : ℕ) : List Entry := w.journal.filter (·.pid = i)

def World.commit (w : World) (i : ℕ) : World :=
  { w with
    journal := w.journal.filter (·.pid ≠ i)
    history := { w.history with
      approvals := (w.entriesOf i).filterMap Entry.approval ++ w.history.approvals } }

/-- A transaction that fails undoes its own writes, and no others: the assumption on the database
under which interleaved transactions are studied. -/
def World.rollback (w : World) (i : ℕ) : World :=
  { w with
    store := undoAll (w.entriesOf i) w.store
    journal := w.journal.filter (·.pid ≠ i) }

def FlatOp.exec (i : ℕ) : (o : FlatOp) → Choice → World → Option (Except Err o.Resp × World)
  | .base o, x, w => o.exec i x w
  | .begin, .go, w => some (.ok (), w)
  | .begin, .fail code message, w => some (.error (.sqlite code message), w)
  | .tx (.db o), .go, w => some ((w.db o).1, (w.db o).2.journaled (entryOf i o w))
  | .tx o, x, w => o.exec x w
  | .commit, .go, w => some (.ok (), w.commit i)
  | .commit, .fail code message, w => some (.error (.sqlite code message), w)
  | .rollback, _, w => some (.ok (), w.rollback i)
  | _, _, _ => none

/-- The process dies: the open transactions are undone and the memory is gone. -/
def World.crash (w : World) : World :=
  { w with
    store := undoAll w.journal w.store
    journal := []
    locks := .init
    immediates := []
    history := { w.history with running := [] } }

end Flat

section Machines

/-- The services over atomic transactions. -/
def atomicMachine (cfg : Config) :
    Machine Call Op Op.Resp Err (Option RequestBody) AtomicChoice Env World where
  code := Call.svc cfg
  accept := World.accept
  exec := Op.exec
  finish := World.finish
  env := Env.exec
  halt := World.crash

/-- The services over transactions that nothing isolates. -/
def flatMachine (cfg : Config) :
    Machine Call FlatOp FlatOp.Resp Err (Option RequestBody) Choice Env World where
  code c := (c.svc cfg).interp flatten
  accept := World.accept
  exec := FlatOp.exec
  finish := World.finish
  env := Env.exec
  halt := World.crash

end Machines

section Frame

variable {w w' : World} {i : ℕ}

/-- A call starts at once, a task when it is in the queue. -/
theorem accept_cases {c : Call} (h : w.accept i c = some w') :
    w' = w ∨ ∃ t, c = .task t ∧ t ∈ w.immediates ∧ w' = { w with
      immediates := w.immediates.erase t
      history := { w.history with running := (i, t) :: w.history.running } } := by
  unfold World.accept at h
  split at h
  · obtain ⟨hmem, h⟩ := Option.ite_none_right_eq_some.mp h
    exact .inr ⟨_, rfl, hmem, (Option.some.inj h).symm⟩
  · exact .inl (Option.some.inj h).symm

theorem accept_frame {c : Call} (h : w.accept i c = some w') :
    w'.store = w.store ∧ w'.journal = w.journal ∧
      w'.history.returned = w.history.returned := by
  rcases accept_cases h with rfl | ⟨_, _, _, rfl⟩ <;> exact ⟨rfl, rfl, rfl⟩

/-- What has been returned after a call has ended. -/
theorem mem_returned_finish {c c' : Call} {r : Except Err (Option RequestBody)} {body : RequestBody}
    (h : (c', body) ∈ (World.finish i c r w).history.returned) :
    (c', body) ∈ w.history.returned ∨ c' = c ∧ r = .ok (some body) := by
  rcases r with e | (_ | b)
  · exact .inl h
  · exact .inl h
  · rcases List.mem_cons.mp h with heq | h
    · cases heq
      exact .inr ⟨rfl, rfl⟩
    · exact .inl h

theorem execDb_cases {o : DbOp} {x : Choice} {r : Except Err o.Resp}
    (h : execDb o w x = some (r, w')) :
    (∃ code message, r = .error (.sqlite code message) ∧ w' = w) ∨
      r = (w.db o).1 ∧ w' = (w.db o).2 := by
  cases x with
  | go =>
    cases h
    exact .inr ⟨rfl, rfl⟩
  | fail code message =>
    cases h
    exact .inl ⟨code, message, rfl, rfl⟩
  | _ => cases h

/-- A database call outside a transaction fails and does nothing, or runs. -/
theorem exec_db_cases {o : DbOp} {x : Choice} {r : Except Err o.Resp}
    (h : (BaseOp.db o).exec i x w = some (r, w')) :
    (∃ code message, r = .error (.sqlite code message) ∧ w'.store = w.store) ∨
      r = (w.db o).1 ∧ w'.store = (w.db o).2.store := by
  obtain ⟨⟨r', u⟩, hu, heq⟩ := Option.map_eq_some_iff.mp h
  cases heq
  rcases execDb_cases hu with ⟨code, message, rfl, rfl⟩ | ⟨rfl, rfl⟩
  · exact .inl ⟨code, message, rfl, rfl⟩
  · exact .inr ⟨rfl, rfl⟩

theorem World.acknowledge_tables (requestId : ℕ) (r : Except Err PutReply) :
    (w.acknowledge requestId r).store = w.store ∧
      (w.acknowledge requestId r).nextId = w.nextId := by
  cases r with
  | ok reply =>
    simp only [World.acknowledge]
    split <;> exact ⟨rfl, rfl⟩
  | error e => exact ⟨rfl, rfl⟩

/-- Only the database calls touch the tables. -/
theorem exec_store {o : BaseOp} {x : Choice} {r : Except Err o.Resp}
    (ho : ∀ d, o ≠ .db d) (h : o.exec i x w = some (r, w')) : w'.store = w.store := by
  cases o with
  | db d => exact absurd rfl (ho d)
  | awaitPrevious =>
    obtain ⟨l, _, heq⟩ := Option.map_eq_some_iff.mp h
    cases heq
    rfl
  | awaitPut message put =>
    obtain ⟨l, _, heq⟩ := Option.map_eq_some_iff.mp h
    cases heq
    exact (World.acknowledge_tables _ _).1
  | validateRequest key days => cases x <;> cases h <;> rfl
  | sendPut put => cases x <;> cases h <;> rfl
  -- the other calls touch the locks, the clock or the queue of tasks
  | _ =>
    cases h
    rfl

/-- What only starts, ends, commits and rollbacks change. -/
structure SameCalls (w w' : World) : Prop where
  journal : w'.journal = w.journal
  returned : w'.history.returned = w.history.returned
  approvals : w'.history.approvals = w.history.approvals
  running : w'.history.running = w.history.running

theorem SameCalls.refl (w : World) : SameCalls w w := ⟨rfl, rfl, rfl, rfl⟩

theorem SameCalls.trans {w₁ w₂ w₃ : World} (h : SameCalls w₁ w₂) (h' : SameCalls w₂ w₃) :
    SameCalls w₁ w₃ :=
  ⟨h'.journal.trans h.journal, h'.returned.trans h.returned, h'.approvals.trans h.approvals,
    h'.running.trans h.running⟩

theorem World.acknowledge_sameCalls (requestId : ℕ) (r : Except Err PutReply) :
    SameCalls w (w.acknowledge requestId r) := by
  cases r with
  | ok reply =>
    simp only [World.acknowledge]
    split <;> exact ⟨rfl, rfl, rfl, rfl⟩
  | error e => exact .refl w

theorem baseExec_sameCalls {o : BaseOp} {x : Choice} {r : Except Err o.Resp}
    (h : o.exec i x w = some (r, w')) : SameCalls w w' := by
  cases o with
  | db o =>
    obtain ⟨⟨r', u⟩, hu, heq⟩ := Option.map_eq_some_iff.mp h
    cases heq
    rcases execDb_cases hu with ⟨_, _, _, rfl⟩ | ⟨_, rfl⟩ <;> exact ⟨rfl, rfl, rfl, rfl⟩
  | awaitPrevious =>
    obtain ⟨l, _, heq⟩ := Option.map_eq_some_iff.mp h
    cases heq
    exact ⟨rfl, rfl, rfl, rfl⟩
  | awaitPut message put =>
    obtain ⟨l, _, heq⟩ := Option.map_eq_some_iff.mp h
    cases heq
    exact World.acknowledge_sameCalls _ _
  | validateRequest key days => cases x <;> cases h <;> exact .refl w
  | sendPut put => cases x <;> cases h <;> exact ⟨rfl, rfl, rfl, rfl⟩
  | _ =>
    cases h
    exact ⟨rfl, rfl, rfl, rfl⟩

theorem txExec_sameCalls {o : TxOp} {x : Choice} {r : Except Err o.Resp}
    (h : o.exec x w = some (r, w')) : SameCalls w w' := by
  cases o with
  | db o => rcases execDb_cases h with ⟨_, _, _, rfl⟩ | ⟨_, rfl⟩ <;> exact ⟨rfl, rfl, rfl, rfl⟩
  | _ =>
    cases h
    exact ⟨rfl, rfl, rfl, rfl⟩

/-- Between the calls only the clock, the locks and the HCM change. -/
theorem env_eq {e : Env} (h : e.exec w = some w') :
    ∃ clock locks hcm, w' = { w with clock, locks, hcm } := by
  cases e with
  | tick ms =>
    cases h
    exact ⟨_, _, _, rfl⟩
  | drop message =>
    cases h
    exact ⟨_, _, _, rfl⟩
  | settle i =>
    obtain ⟨l, _, rfl⟩ := Option.map_eq_some_iff.mp h
    exact ⟨_, _, _, rfl⟩
  | deliver message =>
    obtain ⟨l, _, rfl⟩ := Option.map_eq_some_iff.mp h
    exact ⟨_, _, _, rfl⟩

theorem env_sameCalls {e : Env} (h : e.exec w = some w') :
    w'.store = w.store ∧ SameCalls w w' := by
  obtain ⟨clock, locks, hcm, rfl⟩ := env_eq h
  exact ⟨rfl, rfl, rfl, rfl, rfl⟩

end Frame

end TimeOff
