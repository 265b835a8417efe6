import TimeOff.AsyncEval
import TimeOff.AtomicTx
import TimeOff.DaysCharged

/-! A `createRequest` that runs alone while no statement fails for reasons of its own: when it
succeeds, and what it leaves. -/
namespace TimeOff

open Async

section Quiet

variable {β γ : Type} {i : ℕ} {w w' : World}

def TxOp.quiet (o : TxOp) (w : World) : Option (Except Err o.Resp × World) := o.exec .go w

/-- The tables are as before when the callback has thrown. -/
def rolledBack (w : World) : Except Err β × World → Except Err β × World
  | (.ok v, w') => (.ok v, w')
  | (.error e, w') => (.error e, { w' with store := w.store })

def quietly (body : Tx β) (w : World) : Option (Except Err β × World) :=
  (body.eval TxOp.quiet w).map (rolledBack w)

/-- One operation of call `i` when nothing fails. -/
def Op.quiet (i : ℕ) : (o : Op) → World → Option (Except Err o.Resp × World)
  | .base o, w => o.exec i .go w
  | .transaction body, w => quietly body w

theorem quiet_exec {o : Op} {r : Except Err o.Resp × World} (h : o.quiet i w = some r) :
    ∃ x, o.exec i x w = some r := by
  cases o with
  | base o => exact ⟨.op .go, h⟩
  | transaction body =>
    obtain ⟨⟨r', u⟩, hr, heq⟩ := Option.map_eq_some_iff.mp h
    have hgo : ∀ (o : TxOp) (u : World) (x : Except Err o.Resp × World), o.quiet u = some x →
        ∃ c, o.exec c u = some x := fun o u x ho => ⟨.go, ho⟩
    obtain ⟨xs, hxs⟩ := Prog.play_of_eval hgo hr
    refine ⟨.transaction xs .go, ?_⟩
    change (body.play TxOp.exec xs w).bind _ = some r
    rw [hxs]
    cases r' with
    | ok v => exact congrArg some heq
    | error e => exact congrArg some heq

theorem tx_eval_db {o : DbOp} {f : o.Resp → Tx γ} {v : o.Resp} (h : w.db o = (.ok v, w')) :
    ((Tx.db o).bind f).eval TxOp.quiet w = (f v).eval TxOp.quiet w' :=
  Prog.eval_bind_ok (Prog.eval_perform (congrArg some h))

theorem tx_eval_now {f : ℕ → Tx γ} :
    (Tx.now.bind f).eval TxOp.quiet w = (f w.clock).eval TxOp.quiet w :=
  rfl

theorem svc_eval_base {o : BaseOp} {f : o.Resp → Svc γ} {v : o.Resp}
    (h : o.exec i .go w = some (.ok v, w')) :
    ((Svc.base o).bind f).eval (Op.quiet i) w = (f v).eval (Op.quiet i) w' :=
  Prog.eval_bind_ok (Prog.eval_perform h)

theorem svc_eval_db {o : DbOp} {f : o.Resp → Svc γ} {v : o.Resp}
    (ho : ∀ take, o ≠ .findPendingSync take) (h : w.db o = (.ok v, w')) :
    ((Svc.db o).bind f).eval (Op.quiet i) w = (f v).eval (Op.quiet i) w' :=
  svc_eval_base ((exec_db_go ho).trans (congrArg some h))

theorem svc_eval_transaction {body : Tx β} {r : Except Err β}
    (h : quietly body w = some (r, w')) :
    (Svc.transaction body).eval (Op.quiet i) w = some (r, w') :=
  have hquiet : (Op.transaction body).quiet i w = some (r, w') := h
  Prog.eval_perform hquiet

/-- A transaction callback comes to an end. -/
theorem tx_eval_total (body : Tx β) (w : World) : ∃ r, body.eval TxOp.quiet w = some r := by
  induction body generalizing w with
  | ret a => exact ⟨_, rfl⟩
  | throw e => exact ⟨_, rfl⟩
  | op o k ih =>
    have ho : ∃ r, o.quiet w = some r := by
      cases o with
      | db o => exact ⟨_, rfl⟩
      | now => exact ⟨_, rfl⟩
      | setImmediate task => exact ⟨_, rfl⟩
    obtain ⟨r, hr⟩ := ho
    obtain ⟨r', hr'⟩ := ih r.1 r.2
    exact ⟨r', Option.bind_eq_some_iff.mpr ⟨r, hr, hr'⟩⟩

end Quiet

section Transaction

variable {cfg : Config} {dto : CreateTimeOffRequestDto} {idempotencyKey requestHash : String}
  {days : ℚ} {w w' : World}

/-- What the transaction of a request for `days` needs of the tables. -/
structure Bookable (dto : CreateTimeOffRequestDto) (days : ℚ) (s : Store) : Prop where
  free : ∀ a ∈ s.activeRequests dto.employeeId dto.locationId,
    datesOverlap dto.startDate dto.endDate a.startDate a.endDate = false
  enough : ∃ b, s.balance? dto.balanceKey = some b ∧ days ≤ b.availableBalance

/-- Nothing in the tables is in the way of a new row. -/
structure Fresh (idempotencyKey : String) (w : World) : Prop where
  id : w.store.request? w.nextId = none
  key : w.store.requestByKey? idempotencyKey = none
  record : w.store.record? idempotencyKey = none

theorem throwIfOverlap_ret {startDate endDate : String} {l : List ActiveRequest}
    (h : ∀ a ∈ l, datesOverlap startDate endDate a.startDate a.endDate = false) :
    throwIfOverlap startDate endDate l = .ret () := by
  induction l with
  | nil => rfl
  | cons a l ih =>
    obtain ⟨ha, hl⟩ := List.forall_mem_cons.mp h
    unfold throwIfOverlap
    rw [ha]
    exact ih hl

theorem World.db_insertRequest_ok {request : NewRequest} {row : TimeOffRequest}
    (hrow : request.row w.clock w.nextId = some row) (hid : w.store.request? row.id = none)
    (hkey : w.store.requestByKey? row.idempotencyKey = none) :
    ∃ u, w.db (.insertRequest request) = (.ok row, u) ∧
      u.store.records = w.store.records := by
  rcases World.db_insertRequest w request with ⟨code, message, hdb⟩ | ⟨row', s', hrow', hs', hdb⟩
  · unfold World.db DbOp.run at hdb
    simp only [hrow] at hdb
    unfold Store.insertRequest at hdb
    rw [dif_pos ⟨hid, hkey⟩] at hdb
    cases hdb
  · obtain rfl : row' = row := Option.some.inj (hrow'.symm.trans hrow)
    exact ⟨_, hdb, (Store.insertRequest_eq hs').2.2.2.2⟩

theorem World.db_insertRecord_ok (record : IdempotencyRecord)
    (hnone : w.store.record? record.idempotencyKey = none) :
    ∃ u, w.db (.insertRecord record) = (.ok (), u) := by
  rcases World.db_insertRecord w record with ⟨message, hdb⟩ | ⟨s', hs', hdb⟩
  · unfold World.db DbOp.run Store.insertRecord at hdb
    simp only [dif_pos hnone] at hdb
    cases hdb
  · exact ⟨_, hdb⟩

theorem createTransaction_ok (cfg : Config) (requestHash : String)
    (hfresh : Fresh idempotencyKey w) (hbook : Bookable dto days w.store) :
    ∃ saved w', (createTransaction cfg dto idempotencyKey (some days) requestHash).eval
      TxOp.quiet w = some (.ok saved, w') := by
  obtain ⟨b, hb, henough⟩ := hbook.enough
  have hret := throwIfOverlap_ret hbook.free
  have hshort : availableShortfall dto.balanceKey (some days) b = none := by
    unfold availableShortfall
    rw [if_neg]
    simpa [Num.lt] using henough
  have hpatch : (deductPatch (some days) b).accepted = true :=
    deductPatch_accepted_iff.mpr ⟨days, rfl⟩
  -- the three steps before the inserts: read, no overlap, deduct
  have hlock : (lockEmployeeBalances dto.employeeId dto.locationId).eval TxOp.quiet w =
      some (.ok (), w) := tx_eval_db rfl
  have hoverlap : (assertNoOverlap dto.employeeId dto.locationId dto.startDate
      dto.endDate).eval TxOp.quiet w = some (.ok (), w) := by
    refine (tx_eval_db rfl).trans ?_
    rw [hret]
    rfl
  have hfind : w.db (.findBalance dto.balanceKey) = (.ok (some b), w) :=
    Prod.ext (congrArg Except.ok hb) rfl
  obtain ⟨w₁, hsave, hid, hkey, hrecord⟩ : ∃ w₁,
      w.db (.saveBalance dto.balanceKey (deductPatch (some days) b)) = (.ok (), w₁) ∧
        w₁.store.request? w₁.nextId = none ∧
        w₁.store.requestByKey? idempotencyKey = none ∧
        w₁.store.record? idempotencyKey = none :=
    ⟨_, World.db_saveBalance hpatch, hfresh.id, hfresh.key, hfresh.record⟩
  have hdeduct : (atomicDeduct dto.balanceKey (some days)).eval TxOp.quiet w =
      some (.ok (), w₁) := by
    refine (tx_eval_db hfind).trans ?_
    dsimp only
    rw [hshort]
    exact Prog.eval_perform (congrArg some hsave)
  -- the inserts meet no row of the same key
  obtain ⟨saved, hrow⟩ : ∃ saved,
      (newRequest dto idempotencyKey (some days)).row w₁.clock w₁.nextId = some saved := ⟨_, rfl⟩
  obtain ⟨hsavedId, hsavedKey⟩ := newRequest_row_eq hrow
  rw [← hsavedId] at hid
  obtain ⟨u, hu, hrecords⟩ := World.db_insertRequest_ok hrow hid (by rw [hsavedKey]; exact hkey)
  have hnone : u.store.record? idempotencyKey = none := by
    rw [Store.record?, hrecords]
    exact hrecord
  obtain ⟨u', hu'⟩ := World.db_insertRecord_ok
    (newRecord cfg dto idempotencyKey requestHash saved u.clock) hnone
  refine ⟨saved, u', ?_⟩
  exact (Prog.eval_bind_ok hlock).trans ((Prog.eval_bind_ok hoverlap).trans
    ((Prog.eval_bind_ok hdeduct).trans ((tx_eval_db hu).trans
      (tx_eval_now.trans (tx_eval_db hu')))))

theorem createTransaction_effect {saved : TimeOffRequest} (cfg : Config)
    (h : (createTransaction cfg dto idempotencyKey (some days) requestHash).eval TxOp.quiet w =
      some (.ok saved, w')) :
    ∃ b, CreateEffect cfg dto idempotencyKey days requestHash w.clock w.nextId w.store w'.store
      saved b := by
  have hgo : ∀ (o : TxOp) (u : World) (x : Except Err o.Resp × World), o.quiet u = some x →
      ∃ c, o.exec c u = some x := fun o u x ho => ⟨.go, ho⟩
  obtain ⟨xs, hxs⟩ := Prog.play_of_eval hgo h
  have hends : TxEnds _ (createTransaction cfg dto idempotencyKey (some days) requestHash) w :=
    create_ends
  have hplay := Prog.Holds.play (fun _ => rfl) (fun o c s r s' hs => ⟨c, hs⟩) hends hxs
  obtain ⟨days', b, hdays, heff⟩ := hplay saved rfl
  obtain rfl : days = days' := Option.some.inj hdays
  exact ⟨b, heff⟩

/-- The transaction of a fresh key commits when the request is bookable. -/
theorem createTransaction_commits (cfg : Config) (requestHash : String)
    (hfresh : Fresh idempotencyKey w) (hbook : Bookable dto days w.store) :
    ∃ saved w' b, quietly (createTransaction cfg dto idempotencyKey (some days) requestHash) w =
        some (.ok saved, w') ∧
      CreateEffect cfg dto idempotencyKey days requestHash w.clock w.nextId w.store w'.store
        saved b := by
  obtain ⟨saved, w', heval⟩ := createTransaction_ok cfg requestHash hfresh hbook
  obtain ⟨b, heff⟩ := createTransaction_effect cfg heval
  exact ⟨saved, w', b, by rw [quietly, heval]; rfl, heff⟩

/-- Otherwise it fails, and the tables stay as they are. -/
theorem createTransaction_fails (cfg : Config) (idempotencyKey requestHash : String)
    (hbook : ¬ Bookable dto days w.store) :
    ∃ e w', quietly (createTransaction cfg dto idempotencyKey (some days) requestHash) w =
      some (.error e, w') ∧ w'.store = w.store := by
  obtain ⟨⟨r, u⟩, heval⟩ := tx_eval_total
    (createTransaction cfg dto idempotencyKey (some days) requestHash) w
  cases r with
  | ok saved =>
    obtain ⟨b, heff⟩ := createTransaction_effect cfg heval
    exact absurd ⟨heff.free, b, heff.balance, heff.enough⟩ hbook
  | error e => exact ⟨e, { u with store := w.store }, by rw [quietly, heval]; rfl, rfl⟩

end Transaction

section Call

variable {cfg : Config} {dto : CreateTimeOffRequestDto} {idempotencyKey requestHash : String}
  {days : ℚ} {i : ℕ} {s : Store} {w : World}

theorem checkIdempotency_quiet (h : w.store.record? idempotencyKey = none) (employeeId : String) :
    (checkIdempotency idempotencyKey employeeId requestHash).eval (Op.quiet i) w =
      some (.ok none, w) := by
  have hfind : w.db (.findRecord idempotencyKey) = (.ok none, w) :=
    Prod.ext (congrArg Except.ok h) rfl
  refine svc_eval_db ?_ hfind
  intro take heq
  cases heq

theorem recoverAfterConstraint_quiet (hrecord : w.store.record? idempotencyKey = none)
    (hkey : w.store.requestByKey? idempotencyKey = none) (employeeId : String) :
    (recoverAfterConstraint idempotencyKey employeeId requestHash).eval (Op.quiet i) w =
      some (.ok none, w) := by
  have hfind : w.db (.findRequestByKey idempotencyKey) = (.ok none, w) :=
    Prod.ext (congrArg Except.ok hkey) rfl
  refine (Prog.eval_bind_ok (checkIdempotency_quiet hrecord employeeId)).trans
    (svc_eval_db ?_ hfind)
  intro take heq
  cases heq

/-- With no record and no row of the key there is nothing to recover. -/
theorem createFailed_quiet (dto : CreateTimeOffRequestDto) (requestHash : String)
    (hrecord : w.store.record? idempotencyKey = none)
    (hkey : w.store.requestByKey? idempotencyKey = none) (err : Err) :
    ∃ e, (createFailed dto idempotencyKey requestHash err).eval (Op.quiet i) w =
      some (.error e, w) := by
  -- there is nothing to recover, neither a record nor a row
  have hrecover : (recoverAfterConstraint idempotencyKey dto.employeeId requestHash).eval
      (Op.quiet i) w = some (.ok none, w) := recoverAfterConstraint_quiet hrecord hkey _
  have hfirst : (if isSqliteConstraintError err then
      recoverAfterConstraint idempotencyKey dto.employeeId requestHash
    else (pure none : Svc (Option RequestBody))).eval (Op.quiet i) w = some (.ok none, w) := by
    split
    · exact hrecover
    · rfl
  unfold createFailed
  -- a contention is reported as one; any other error is thrown on
  by_cases htransient : isSqliteTransientTxError err
  · refine ⟨.service .writeContention, (Prog.eval_bind_ok hfirst).trans ?_⟩
    dsimp only
    rw [if_pos htransient]
    exact Prog.eval_bind_ok hrecover
  · refine ⟨err, (Prog.eval_bind_ok hfirst).trans ?_⟩
    dsimp only
    rw [if_neg htransient]
    rfl

/-- Attempts that fail whenever the tables are `s`, and leave them so, fail together. -/
theorem runAttempts_quiet_error {β : Type} {runTx : Svc β}
    (h : ∀ w, w.store = s →
      ∃ e w', runTx.eval (Op.quiet i) w = some (.error e, w') ∧ w'.store = s) (left : ℕ) :
    ∀ attempt w, w.store = s →
      ∃ e w', (runAttempts runTx attempt left).eval (Op.quiet i) w = some (.error e, w') ∧
        w'.store = s := by
  -- the induction is on the attempts left; none of them finds another store
  induction left with
  | zero => exact fun _ => h
  | succ left ih =>
    intro attempt w hw
    obtain ⟨e, w', heval, hw'⟩ := h w hw
    by_cases htransient : isSqliteTransientTxError e
    · obtain ⟨e', w'', heval', hw''⟩ := ih (attempt + 1) w' hw'
      refine ⟨e', w'', (Prog.eval_handle_error heval).trans ?_, hw''⟩
      rw [if_pos htransient]
      exact (svc_eval_base rfl).trans heval'
    · refine ⟨e, w', (Prog.eval_handle_error heval).trans ?_, hw'⟩
      rw [if_neg htransient]
      rfl

theorem runAttempts_quiet_ok {β : Type} {runTx : Svc β} {v : β} {w' : World}
    (h : runTx.eval (Op.quiet i) w = some (.ok v, w')) (attempt left : ℕ) :
    (runAttempts runTx attempt left).eval (Op.quiet i) w = some (.ok v, w') := by
  cases left with
  | zero => exact h
  | succ left => exact Prog.eval_handle_ok h

theorem createLocked_commits (cfg : Config) (requestHash : String)
    (hfresh : Fresh idempotencyKey w) (hbook : Bookable dto days w.store) :
    ∃ body w' saved b, (createLocked cfg dto idempotencyKey (some days) requestHash).eval
        (Op.quiet i) w = some (.ok body, w') ∧
      CreateEffect cfg dto idempotencyKey days requestHash w.clock w.nextId w.store w'.store
        saved b := by
  obtain ⟨saved, w', b, htx, heff⟩ := createTransaction_commits cfg requestHash hfresh hbook
  -- the transaction succeeds at the first attempt
  have hattempts : (runCreateTransactionWithRetry (Svc.transaction (createTransaction cfg dto
      idempotencyKey (some days) requestHash))).eval (Op.quiet i) w = some (.ok saved, w') :=
    runAttempts_quiet_ok (svc_eval_transaction htx) 1 2
  have hcreate : (createFresh cfg dto idempotencyKey (some days) requestHash).eval (Op.quiet i) w =
      some (.ok (serializeRequest saved),
        w'.schedule (.notifyHcm saved.id dto.balanceKey (some days))) :=
    (Prog.eval_bind_ok hattempts).trans (svc_eval_base rfl)
  refine ⟨serializeRequest saved, w'.schedule (.notifyHcm saved.id dto.balanceKey (some days)),
    saved, b, ?_, heff⟩
  exact (Prog.eval_bind_ok (checkIdempotency_quiet hfresh.record dto.employeeId)).trans
    (Prog.eval_handle_ok hcreate)

theorem createLocked_fails (cfg : Config) (requestHash : String)
    (hrecord : w.store.record? idempotencyKey = none)
    (hkey : w.store.requestByKey? idempotencyKey = none)
    (hbook : ¬ Bookable dto days w.store) :
    ∃ e w', (createLocked cfg dto idempotencyKey (some days) requestHash).eval (Op.quiet i) w =
      some (.error e, w') ∧ w'.store = w.store := by
  -- whatever the attempt, the transaction fails and leaves the store
  have htx : ∀ u : World, u.store = w.store →
      ∃ e u', (Svc.transaction (createTransaction cfg dto idempotencyKey (some days)
        requestHash)).eval (Op.quiet i) u = some (.error e, u') ∧ u'.store = w.store := by
    intro u hu
    obtain ⟨e, u', htx, hstore⟩ := createTransaction_fails (w := u) cfg idempotencyKey
      requestHash (by rw [hu]; exact hbook)
    exact ⟨e, u', svc_eval_transaction htx, hstore.trans hu⟩
  obtain ⟨e, w', hattempts, hstore⟩ := runAttempts_quiet_error htx 2 1 w rfl
  have hcreate : (createFresh cfg dto idempotencyKey (some days) requestHash).eval (Op.quiet i) w =
      some (.error e, w') := Prog.eval_bind_error hattempts
  rw [← hstore] at hrecord hkey
  -- the `catch` finds the store as it was
  obtain ⟨e', hfailed⟩ := createFailed_quiet (i := i) dto requestHash hrecord hkey e
  rw [hstore] at hrecord
  refine ⟨e', w', ?_, hstore⟩
  exact (Prog.eval_bind_ok (checkIdempotency_quiet hrecord dto.employeeId)).trans
    ((Prog.eval_handle_error hcreate).trans hfailed)

/-- Nobody holds the lane of the call, or is ahead of it. -/
def LaneFree (i : ℕ) (dto : CreateTimeOffRequestDto) (w : World) : Prop :=
  (w.locks.enter i (lockKey dto)).ready i = true

/-- What a call alone does under the lock is what it does. -/
theorem withCreateLock_quiet {P : Except Err RequestBody → Store → Prop} {fn : Svc RequestBody}
    (hlane : LaneFree i dto w)
    (h : ∀ locks, ∃ r u, fn.eval (Op.quiet i) { w with locks := locks } = some (r, u) ∧
      P r u.store) :
    ∃ r u, (withCreateLock (lockKey dto) fn).eval (Op.quiet i) w = some (r, u) ∧
      P r u.store := by
  -- nobody is ahead in the lane
  have hawait : (w.locks.enter i (lockKey dto)).awaitPrevious i =
      some { w.locks.enter i (lockKey dto) with
        entered := Function.update (w.locks.enter i (lockKey dto)).entered i true } :=
    if_pos hlane
  obtain ⟨r, u, hu, hP⟩ := h { w.locks.enter i (lockKey dto) with
    entered := Function.update (w.locks.enter i (lockKey dto)).entered i true }
  refine ⟨r, { u with locks := u.locks.release i (lockKey dto) }, ?_, hP⟩
  have hwait : BaseOp.exec i .awaitPrevious .go { w with locks := w.locks.enter i (lockKey dto) } =
      some (.ok (), { w with locks := { w.locks.enter i (lockKey dto) with
        entered := Function.update (w.locks.enter i (lockKey dto)).entered i true } }) :=
    Option.map_eq_some_iff.mpr ⟨_, hawait, rfl⟩
  exact (svc_eval_base rfl).trans ((svc_eval_base hwait).trans
    (Prog.eval_ensuring hu (Prog.eval_perform rfl)))

end Call

end TimeOff
