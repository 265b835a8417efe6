import TimeOff.World

/-! The operations that each kind of call can perform. -/
namespace TimeOff

open Async

section Create

inductive CreateOp (cfg : Config) (dto : CreateTimeOffRequestDto) (idempotencyKey : String) :
    Op → Prop
  | findRecord : CreateOp cfg dto idempotencyKey (.base (.db (.findRecord idempotencyKey)))
  | findRequestByKey :
      CreateOp cfg dto idempotencyKey (.base (.db (.findRequestByKey idempotencyKey)))
  | now : CreateOp cfg dto idempotencyKey (.base .now)
  | setImmediate (requestId : ℕ) (key : BalanceKey) (daysRequested : Num) :
      CreateOp cfg dto idempotencyKey
        (.base (.setImmediate (.notifyHcm requestId key daysRequested)))
  | enterLock : CreateOp cfg dto idempotencyKey (.base (.enterLock (lockKey dto)))
  | awaitPrevious : CreateOp cfg dto idempotencyKey (.base .awaitPrevious)
  | releaseLock : CreateOp cfg dto idempotencyKey (.base (.releaseLock (lockKey dto)))
  | sleep (ms : ℕ) : CreateOp cfg dto idempotencyKey (.base (.sleep ms))
  | transaction : CreateOp cfg dto idempotencyKey
      (.transaction (createTransaction cfg dto idempotencyKey
        (calculateDaysRequested dto.startDate dto.endDate) (cfg.hashObject dto)))

variable {cfg : Config} {dto : CreateTimeOffRequestDto} {idempotencyKey : String}

theorem checkIdempotency_each (employeeId requestHash : String) :
    (checkIdempotency idempotencyKey employeeId requestHash).Each
      (CreateOp cfg dto idempotencyKey) := by
  refine Prog.Each.bind (Prog.Each.perform .findRecord) fun r => ?_
  cases r with
  | none => trivial
  | some existing =>
    refine Prog.Each.bind (Prog.Each.perform .now) fun now => ?_
    split
    · trivial
    · split <;> trivial

theorem recoverAfterConstraint_each (employeeId requestHash : String) :
    (recoverAfterConstraint idempotencyKey employeeId requestHash).Each
      (CreateOp cfg dto idempotencyKey) := by
  refine Prog.Each.bind (checkIdempotency_each employeeId requestHash) fun r => ?_
  cases r with
  | some cached => trivial
  | none =>
    refine Prog.Each.bind (Prog.Each.perform .findRequestByKey) fun r => ?_
    cases r <;> trivial

theorem runAttempts_each {β : Type} {φ : Op → Prop} {runTx : Svc β} (h : runTx.Each φ)
    (hsleep : ∀ ms, φ (.base (.sleep ms))) (attempt left : ℕ) :
    (runAttempts runTx attempt left).Each φ := by
  induction left generalizing attempt with
  | zero => exact h
  | succ left ih =>
    refine Prog.Each.handle h fun err => ?_
    split
    · exact Prog.Each.bind (Prog.Each.perform (hsleep _)) fun _ => ih _
    · trivial

theorem createFailed_each (requestHash : String) (err : Err) :
    (createFailed dto idempotencyKey requestHash err).Each
      (CreateOp cfg dto idempotencyKey) := by
  have hrec : (recoverAfterConstraint idempotencyKey dto.employeeId requestHash).Each
      (CreateOp cfg dto idempotencyKey) := recoverAfterConstraint_each _ _
  refine Prog.Each.bind ?_ fun r => ?_
  · split
    · exact hrec
    · trivial
  · cases r with
    | some body => trivial
    | none =>
      dsimp only
      split
      · refine Prog.Each.bind hrec fun r => ?_
        cases r <;> trivial
      · trivial

theorem createRequest_each :
    (createRequest cfg dto idempotencyKey).Each (CreateOp cfg dto idempotencyKey) := by
  unfold createRequest
  split
  · trivial
  refine Prog.Each.bind (Prog.Each.perform .now) fun now => ?_
  dsimp only
  split
  · trivial
  split
  · trivial
  refine Prog.Each.bind (checkIdempotency_each _ _) fun r => ?_
  cases r with
  | some body => trivial
  | none =>
    refine Prog.Each.bind (Prog.Each.perform .enterLock) fun _ =>
      Prog.Each.bind (Prog.Each.perform .awaitPrevious) fun _ =>
        Prog.Each.ensuring ?_ (Prog.Each.perform .releaseLock)
    refine Prog.Each.bind (checkIdempotency_each _ _) fun r => ?_
    cases r with
    | some body => trivial
    | none =>
      refine Prog.Each.handle (Prog.Each.bind ?_ fun saved => ?_) (createFailed_each _)
      · exact runAttempts_each (Prog.Each.perform .transaction) .sleep _ _
      · exact Prog.Each.bind (Prog.Each.perform (.setImmediate _ _ _)) fun _ => trivial

end Create

section Sync

/-- What the two tasks and the worker do, when they may send the PUTs in `puts`. -/
inductive SyncOp (puts : PutBalance → Prop) : Op → Prop
  | findPendingSync (take : ℕ) : SyncOp puts (.base (.db (.findPendingSync take)))
  | saveRequest (requestId : ℕ) (patch : RequestPatch) (status : patch.status = none) :
      SyncOp puts (.base (.db (.saveRequest requestId patch)))
  | now : SyncOp puts (.base .now)
  | sleep (ms : ℕ) : SyncOp puts (.base (.sleep ms))
  | validateRequest (key : BalanceKey) (daysRequested : Num) :
      SyncOp puts (.base (.validateRequest key daysRequested))
  | sendPut (put : PutBalance) (h : puts put) : SyncOp puts (.base (.sendPut put))
  | awaitPut (message : ℕ) (put : PutBalance) : SyncOp puts (.base (.awaitPut message put))

variable {puts : PutBalance → Prop}

theorem SyncOp.mono {puts' : PutBalance → Prop} {o : Op} (h : ∀ put, puts put → puts' put)
    (ho : SyncOp puts o) : SyncOp puts' o := by
  cases ho with
  | findPendingSync take => exact .findPendingSync take
  | saveRequest id patch hp => exact .saveRequest id patch hp
  | now => exact .now
  | sleep ms => exact .sleep ms
  | validateRequest key days => exact .validateRequest key days
  | sendPut put hput => exact .sendPut put (h put hput)
  | awaitPut message put => exact .awaitPut message put

theorem retryFrom_each {β : Type} {φ : Op → Prop} {cfg : Config} {fn : Svc β} (h : fn.Each φ)
    (hsleep : ∀ ms, φ (.base (.sleep ms))) (attempt left : ℕ) :
    (retryFrom cfg fn attempt left).Each φ := by
  induction left generalizing attempt with
  | zero => trivial
  | succ left ih =>
    refine Prog.Each.handle h fun err => ?_
    split
    · trivial
    · exact Prog.Each.bind (Prog.Each.perform (hsleep _)) fun _ => ih _

theorem notifyApproval_each (cfg : Config) {key : BalanceKey} {days : ℚ} {requestId : ℕ}
    (h : puts ⟨key, days, requestId⟩) :
    (notifyApproval cfg key days requestId).Each (SyncOp puts) := by
  refine Prog.Each.handle (Prog.Each.bind (retryFrom_each ?_ .sleep _ _) fun _ => trivial)
    fun err => ?_
  · exact Prog.Each.bind (Prog.Each.perform (.sendPut _ h)) fun _ =>
      Prog.Each.perform (.awaitPut _ _)
  · split <;> trivial

theorem updateRequest_each (requestId : ℕ) (patch : RequestPatch) (h : patch.status = none) :
    (updateRequest requestId patch).Each (SyncOp puts) :=
  Prog.Each.bind (Prog.Each.perform (.saveRequest requestId patch h)) fun _ => trivial

theorem now_each {β : Type} {φ : Op → Prop} {f : ℕ → Svc β} (hnow : φ (.base .now))
    (h : ∀ now, (f now).Each φ) : (Svc.now.bind f).Each φ :=
  Prog.Each.bind (Prog.Each.perform hnow) h

theorem notifyHcmAsync_each (requestId : ℕ) (key : BalanceKey) (daysRequested : Num) :
    (notifyHcmAsync requestId key daysRequested).Each (SyncOp puts) := by
  refine Prog.Each.handle ?_ fun _ => updateRequest_each _ _ rfl
  refine Prog.Each.bind (Prog.Each.perform (.validateRequest _ _)) fun r => ?_
  cases r with
  | none => exact now_each .now fun _ => updateRequest_each _ _ rfl
  | some result =>
    refine now_each .now fun _ => ?_
    split <;> exact updateRequest_each _ _ rfl

theorem validateApproval_each (request : TimeOffRequest) (requestId : ℕ) :
    (validateApproval request requestId).Each (SyncOp puts) := by
  unfold validateApproval
  split
  · trivial
  refine Prog.Each.bind (Prog.Each.perform (.validateRequest _ _)) fun r => ?_
  cases r with
  | none =>
    exact now_each .now fun _ => Prog.Each.bind (updateRequest_each _ _ rfl) fun _ => trivial
  | some validation =>
    dsimp only
    split
    · exact now_each .now fun _ => Prog.Each.bind (updateRequest_each _ _ rfl) fun _ => trivial
    · trivial

theorem notifyApprovalToHcmAsync_each (cfg : Config) {request : TimeOffRequest}
    {requestId : ℕ} (h : puts ⟨request.balanceKey, request.daysRequested, requestId⟩) :
    (notifyApprovalToHcmAsync cfg request requestId).Each (SyncOp puts) := by
  refine Prog.Each.handle (Prog.Each.bind (validateApproval_each _ _) fun r => ?_) fun _ =>
    now_each .now fun _ => updateRequest_each _ _ rfl
  split
  · refine Prog.Each.bind (notifyApproval_each _ h) fun res => ?_
    exact now_each .now fun _ => updateRequest_each _ _ rfl
  · trivial

theorem updateSyncAttempt_each (request : TimeOffRequest) (patch : RequestPatch)
    (h : patch.status = none) : (updateSyncAttempt request patch).Each (SyncOp puts) :=
  now_each .now fun _ => updateRequest_each _ _ h

theorem retryApproval_each (cfg : Config) {request : TimeOffRequest} (isValidated : Bool)
    (h : puts ⟨request.balanceKey, request.daysRequested, request.id⟩) :
    (retryApproval cfg request isValidated).Each (SyncOp puts) := by
  refine Prog.Each.bind (notifyApproval_each _ h) fun approval => ?_
  split <;> exact updateSyncAttempt_each _ _ rfl

/-- The worker sends a PUT for a request that it loaded as approved. -/
theorem retryByStatus_each (cfg : Config) {request : TimeOffRequest}
    (h : request.status = .approved →
      puts ⟨request.balanceKey, request.daysRequested, request.id⟩) :
    (retryByStatus cfg request).Each (SyncOp puts) := by
  unfold retryByStatus
  split
  · exact updateSyncAttempt_each _ _ rfl
  · exact updateSyncAttempt_each _ _ rfl
  · refine Prog.Each.bind ?_ fun validation => ?_
    · split
      · trivial
      · exact Prog.Each.perform (.validateRequest _ _)
    · cases validation with
      | none => exact updateSyncAttempt_each _ _ rfl
      | some validation =>
        dsimp only
        split <;> exact updateSyncAttempt_each _ _ rfl
  · rename_i hstatus
    unfold retryApprovalFlow
    split
    · exact retryApproval_each _ _ (h hstatus)
    · refine Prog.Each.bind (Prog.Each.perform (.validateRequest _ _)) fun validation => ?_
      cases validation with
      | none => exact updateSyncAttempt_each _ _ rfl
      | some validation =>
        dsimp only
        split
        · exact updateSyncAttempt_each _ _ rfl
        · exact retryApproval_each _ _ (h hstatus)

theorem retryRequest_each (cfg : Config) {request : TimeOffRequest}
    (h : request.status = .approved →
      puts ⟨request.balanceKey, request.daysRequested, request.id⟩) :
    (retryRequest cfg request).Each (SyncOp puts) := by
  unfold retryRequest
  split
  · exact now_each .now fun _ => updateRequest_each _ _ rfl
  · exact Prog.Each.handle (retryByStatus_each _ h) fun _ => updateSyncAttempt_each _ _ rfl

theorem retryEach_each (cfg : Config) {rows : List TimeOffRequest}
    (h : ∀ request ∈ rows, request.status = .approved →
      puts ⟨request.balanceKey, request.daysRequested, request.id⟩) :
    (retryEach cfg rows).Each (SyncOp puts) := by
  induction rows with
  | nil => trivial
  | cons request rest ih =>
    obtain ⟨hrequest, hrest⟩ := List.forall_mem_cons.mp h
    exact Prog.Each.bind (retryRequest_each _ hrequest) fun _ => ih hrest

theorem retryPendingHcmSyncs_each (cfg : Config) :
    (retryPendingHcmSyncs cfg).Each (SyncOp fun _ => True) :=
  Prog.Each.bind (Prog.Each.perform (.findPendingSync 50)) fun _ =>
    retryEach_each cfg fun _ _ _ => trivial

end Sync

section Calls

/-- The operations of a call. -/
inductive CallOp (cfg : Config) : Call → Op → Prop
  | create {dto : CreateTimeOffRequestDto} {idempotencyKey : String} {o : Op}
      (h : CreateOp cfg dto idempotencyKey o) : CallOp cfg (.create dto idempotencyKey) o
  | approve (requestId : ℕ) (approverId : String) : CallOp cfg (.approve requestId approverId)
      (.transaction (approveTransaction requestId approverId))
  | reject (requestId : ℕ) (approverId reason : String) :
      CallOp cfg (.reject requestId approverId reason)
        (.transaction (rejectTransaction requestId approverId reason))
  | cancel (requestId : ℕ) (reason : Option String) : CallOp cfg (.cancel requestId reason)
      (.transaction (cancelTransaction requestId reason))
  | upsertFind (key : BalanceKey) (total : Num) :
      CallOp cfg (.upsert key total) (.base (.db (.findBalance key)))
  | upsertNow (key : BalanceKey) (total : Num) : CallOp cfg (.upsert key total) (.base .now)
  | upsertInsert (key : BalanceKey) (total : Num) (balance : NewBalance) :
      CallOp cfg (.upsert key total) (.base (.db (.insertBalance balance)))
  | reconcileFind (hcmRecord : HcmRecord) :
      CallOp cfg (.reconcile hcmRecord) (.base (.db (.findBalance hcmRecord.key)))
  | reconcileNow (hcmRecord : HcmRecord) : CallOp cfg (.reconcile hcmRecord) (.base .now)
  | reconcileInsert (hcmRecord : HcmRecord) (balance : NewBalance) :
      CallOp cfg (.reconcile hcmRecord) (.base (.db (.insertBalance balance)))
  | reconcileSave (hcmRecord : HcmRecord) (patch : BalancePatch) :
      CallOp cfg (.reconcile hcmRecord) (.base (.db (.saveBalance hcmRecord.key patch)))
  | realTime (key : BalanceKey) (total : Num) (version : Option String) :
      CallOp cfg (.realTime key total version)
        (.transaction (applyHcmRealTimeUpdate key total version))
  | retrySyncs {o : Op} (h : SyncOp (fun _ => True) o) : CallOp cfg .retrySyncs o
  | task (t : Task) {o : Op} (h : SyncOp (fun _ => True) o) : CallOp cfg (.task t) o

theorem svc_each (cfg : Config) (c : Call) : (c.svc cfg).Each (CallOp cfg c) := by
  cases c with
  | create dto key =>
    exact Prog.Each.bind (Prog.Each.mono (fun _ => .create) createRequest_each) fun _ => trivial
  | approve id approver =>
    exact Prog.Each.bind (Prog.Each.perform (.approve id approver)) fun _ => trivial
  | reject id approver reason =>
    exact Prog.Each.bind (Prog.Each.perform (.reject id approver reason)) fun _ => trivial
  | cancel id reason =>
    exact Prog.Each.bind (Prog.Each.perform (.cancel id reason)) fun _ => trivial
  | upsert key total =>
    refine Prog.Each.bind (Prog.Each.bind (Prog.Each.perform (.upsertFind _ _)) fun r => ?_)
      fun _ => trivial
    cases r with
    | some existing => trivial
    | none => exact now_each (.upsertNow _ _) fun _ => Prog.Each.perform (.upsertInsert _ _ _)
  | reconcile hcmRecord =>
    refine Prog.Each.bind (Prog.Each.bind (Prog.Each.perform (.reconcileFind _)) fun r =>
      now_each (.reconcileNow _) fun _ => ?_) fun _ => trivial
    cases r with
    | none => exact Prog.Each.bind (Prog.Each.perform (.reconcileInsert _ _)) fun _ => trivial
    | some b => exact Prog.Each.bind (Prog.Each.perform (.reconcileSave _ _)) fun _ => trivial
  | realTime key total version =>
    exact Prog.Each.bind (Prog.Each.perform (.realTime _ _ _)) fun _ => trivial
  | retrySyncs =>
    exact Prog.Each.bind (Prog.Each.mono (fun _ => .retrySyncs) (retryPendingHcmSyncs_each cfg))
      fun _ => trivial
  | task t =>
    refine Prog.Each.bind (Prog.Each.mono (fun _ => .task t) ?_) fun _ => trivial
    cases t with
    | notifyHcm id key days => exact notifyHcmAsync_each _ _ _
    | notifyApprovalToHcm request id => exact notifyApprovalToHcmAsync_each _ trivial

end Calls

end TimeOff
