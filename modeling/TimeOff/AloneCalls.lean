import TimeOff.CreateOutcome

/-! Calls that run one after another: each starts when the one before it has ended, and no
statement fails for reasons of its own. -/
namespace TimeOff

open Async

section Alone

/-- Run alone on the tables `s`, the call succeeds and leaves `s'`. -/
def Alone (cfg : Config) (c : Call) (s s' : Store) : Prop :=
  ∃ clock nextId hcm w body, (c.svc cfg).eval (Op.quiet 0) (World.init s clock nextId hcm) =
    some (.ok (some body), w) ∧ w.store = s'

/-- The calls run alone in this order lead from the tables `start` to `s`. -/
inductive InTurn (cfg : Config) (start : Store) : List Call → Store → Prop
  | nil : InTurn cfg start [] start
  | next {calls : List Call} {s s' : Store} {c : Call} (h : InTurn cfg start calls s)
      (hc : Alone cfg c s s') : InTurn cfg start (calls ++ [c]) s'

end Alone

section Create

variable {cfg : Config} {dto : CreateTimeOffRequestDto} {idempotencyKey : String} {days : ℚ}
  {s : Store} {clock nextId : ℕ}

/-- A bookable request with a fresh key and dates that pass is created. -/
theorem create_alone (hne : idempotencyKey ≠ "")
    (hdates : validateDates cfg dto clock = .ok (some days)) (hid : s.request? nextId = none)
    (hkey : s.requestByKey? idempotencyKey = none) (hrecord : s.record? idempotencyKey = none)
    (hbook : Bookable dto days s) :
    ∃ s' saved b, Alone cfg (.create dto idempotencyKey) s s' ∧
      CreateEffect cfg dto idempotencyKey days (cfg.hashObject dto) clock nextId s s' saved b := by
  let w : World := World.init s clock nextId (.init [])
  have hlane : LaneFree 0 dto w := rfl
  have hlocked (locks : CreateLocks) : ∃ r u, (createLocked cfg dto idempotencyKey (some days)
      (cfg.hashObject dto)).eval (Op.quiet 0) { w with locks := locks } = some (r, u) ∧
        ∃ body, r = .ok body ∧ ∃ saved b, CreateEffect cfg dto idempotencyKey days
          (cfg.hashObject dto) clock nextId s u.store saved b := by
    obtain ⟨body, u, saved, b, heval, heff⟩ := createLocked_commits (i := 0)
      (w := { w with locks := locks }) cfg (cfg.hashObject dto) ⟨hid, hkey, hrecord⟩ hbook
    exact ⟨.ok body, u, heval, body, rfl, saved, b, heff⟩
  obtain ⟨r, u, heval, body, rfl, saved, b, heff⟩ := withCreateLock_quiet
    (P := fun r st => ∃ body, r = .ok body ∧ ∃ saved b,
      CreateEffect cfg dto idempotencyKey days (cfg.hashObject dto) clock nextId s st saved b)
    hlane hlocked
  -- the call reads the clock and finds no record before it takes the lock
  have hcheck : (checkIdempotency idempotencyKey dto.employeeId (cfg.hashObject dto)).eval
      (Op.quiet 0) w = some (.ok none, w) := checkIdempotency_quiet hrecord _
  have hcreate : (createRequest cfg dto idempotencyKey).eval (Op.quiet 0) w =
      some (.ok body, u) := by
    rw [createRequest_eq cfg dto hne]
    calc (Svc.now.bind fun now =>
            proceed cfg dto idempotencyKey (validateDates cfg dto now)).eval (Op.quiet 0) w
        = (proceed cfg dto idempotencyKey (validateDates cfg dto clock)).eval (Op.quiet 0) w :=
          svc_eval_base rfl
      _ = (withCreateLock (lockKey dto) (createLocked cfg dto idempotencyKey (some days)
            (cfg.hashObject dto))).eval (Op.quiet 0) w := by
          rw [hdates]
          exact Prog.eval_bind_ok hcheck
      _ = some (.ok body, u) := heval
  refine ⟨u.store, saved, b, ⟨clock, nextId, .init [], u, body, ?_, rfl⟩, heff⟩
  exact Prog.eval_bind_ok hcreate

end Create

section Transitions

variable {cfg : Config} {requestId : ℕ} {target : RequestStatus}
  {patch : Num → EmployeeBalance → BalancePatch}
  {w : World} {r : TimeOffRequest} {b : EmployeeBalance}

/-- What a transition needs of the tables. -/
structure Settleable (requestId : ℕ) (r : TimeOffRequest) (b : EmployeeBalance) (s : Store) :
    Prop where
  found : s.request? requestId = some r
  pending : r.status = .pending
  balance : s.balance? r.balanceKey = some b
  enough : r.daysRequested ≤ b.pendingBalance

theorem transition_quiet (target : RequestStatus) (move : BalanceMove)
    (stamp : TimeOffRequest → ℕ → RequestPatch) (h : Settleable requestId r b w.store)
    (htarget : target ∈ validTransitions .pending)
    (hpatch : ∀ d, (patch (some d) b).accepted = true) :
    ∃ v w', (transition requestId target stamp fun key days =>
        moveDays key (.balanceNotFound move key) (pendingShortfall move key days)
          (patch days)).eval TxOp.quiet w = some (.ok v, w') ∧
      TransitionEffect requestId target patch w.store w'.store r b := by
  have hrequest : w.db (.findRequest requestId) = (.ok (some r), w) :=
    Prod.ext (congrArg Except.ok h.found) rfl
  have hfind : (getRequestLockedOrThrow requestId).eval TxOp.quiet w = some (.ok r, w) :=
    tx_eval_db hrequest
  have hvalid : assertValidTransition r.status target = .ret () := by
    unfold assertValidTransition
    rw [h.pending, if_pos htarget]
    rfl
  have hshort : pendingShortfall move r.balanceKey (some r.daysRequested) b = none := by
    unfold pendingShortfall
    rw [if_neg]
    simpa [Num.lt] using h.enough
  -- the two saves: the status of the request, then the amounts of its balance
  let p : RequestPatch := { stamp r w.clock with status := some target }
  obtain ⟨w₁, hsave, hw₁⟩ : ∃ w₁, w.db (.saveRequest requestId p) = (.ok (), w₁) ∧
      w₁ = { w with store := w.store.saveRequest requestId fun x =>
        { p with version := some (x.version + 1), updatedAt := some w.clock } } := ⟨_, rfl, rfl⟩
  have hbalance : w₁.db (.findBalance r.balanceKey) = (.ok (some b), w₁) := by
    rw [hw₁]
    exact Prod.ext (congrArg Except.ok h.balance) rfl
  have hmove : (moveDays r.balanceKey (.balanceNotFound move r.balanceKey)
      (pendingShortfall move r.balanceKey (some r.daysRequested))
      (patch (some r.daysRequested))).eval TxOp.quiet w₁ =
        some (.ok (), { w₁ with store := w₁.store.saveBalance r.balanceKey fun x =>
          { patch (some r.daysRequested) b with version := some (x.version + 1) } }) := by
    refine (tx_eval_db hbalance).trans ?_
    dsimp only
    rw [hshort]
    exact Prog.eval_perform (congrArg some (World.db_saveBalance (hpatch _)))
  let w₂ : World := { w₁ with store := w₁.store.saveBalance r.balanceKey fun x =>
    { patch (some r.daysRequested) b with version := some (x.version + 1) } }
  have heffect : TransitionEffect requestId target patch w.store w₂.store r b :=
    ⟨h.found, h.pending, h.balance, h.enough, stamp r w.clock, w.clock, by
      change w₁.store.saveBalance _ _ = _
      rw [hw₁]⟩
  refine ⟨(p.saved r w.clock).apply r, w₂, ?_, heffect⟩
  refine (Prog.eval_bind_ok hfind).trans ?_
  rw [hvalid]
  exact tx_eval_now.trans ((tx_eval_db hsave).trans (Prog.eval_bind_ok hmove))

/-- The call takes the request to `target`, and its days out of pending as `patch` does. -/
inductive Decides : Call → ℕ → RequestStatus → (Num → EmployeeBalance → BalancePatch) → Prop
  | approve (requestId : ℕ) (approverId : String) :
      Decides (.approve requestId approverId) requestId .approved finalizePatch
  | reject (requestId : ℕ) (approverId reason : String) :
      Decides (.reject requestId approverId reason) requestId .rejected releasePatch
  | cancel (requestId : ℕ) (reason : Option String) :
      Decides (.cancel requestId reason) requestId .cancelled releasePatch

/-- A pending request that its balance covers is decided. -/
theorem decision_alone (cfg : Config) {c : Call} {s : Store} (hc : Decides c requestId target patch)
    (h : Settleable requestId r b s) :
    ∃ s', Alone cfg c s s' ∧ TransitionEffect requestId target patch s s' r b := by
  let w : World := World.init s 0 0 (.init [])
  have halone {body : Tx RequestBody} {v : RequestBody} {u : World} {c : Call}
      (hsvc : c.svc cfg = (Svc.transaction body).bind fun v => .ret (some v))
      (heval : body.eval TxOp.quiet w = some (.ok v, u)) : Alone cfg c s u.store := by
    have hquiet : quietly body w = some (.ok v, u) := by
      rw [quietly, heval]
      rfl
    refine ⟨0, 0, .init [], u, v, ?_, rfl⟩
    rw [hsvc]
    exact Prog.eval_bind_ok (svc_eval_transaction hquiet)
  -- days that are a number are saved
  have hfinalize (b : EmployeeBalance) (d : ℚ) : (finalizePatch (some d) b).accepted = true := rfl
  have hrelease (b : EmployeeBalance) (d : ℚ) : (releasePatch (some d) b).accepted = true := rfl
  cases hc with
  | approve _ approverId =>
    obtain ⟨v, u, heval, heffect⟩ := transition_quiet (w := w) .approved .finalize (fun _ now =>
      { approvedBy := some (some approverId)
        approvedAt := some (some now) }) h (by decide) (hfinalize b)
    have hbody : (approveTransaction requestId approverId).eval TxOp.quiet w =
        some (.ok (serializeRequest v), u.schedule (.notifyApprovalToHcm v requestId)) :=
      Prog.eval_bind_ok heval
    exact ⟨_, halone rfl hbody, heffect⟩
  | reject _ approverId reason =>
    obtain ⟨v, u, heval, heffect⟩ := transition_quiet (w := w) .rejected .release (fun _ now =>
      { approvedBy := some (some approverId)
        approvedAt := some (some now)
        rejectionReason := some (some reason) }) h (by decide) (hrelease b)
    have hbody : (rejectTransaction requestId approverId reason).eval TxOp.quiet w =
        some (.ok (serializeRequest v), u) := Prog.eval_bind_ok heval
    exact ⟨_, halone rfl hbody, heffect⟩
  | cancel _ reason =>
    obtain ⟨v, u, heval, heffect⟩ := transition_quiet (w := w) .cancelled .release
      (fun request _ =>
        { rejectionReason := if reason = request.rejectionReason then none else some reason })
      h (by decide) (hrelease b)
    have hbody : (cancelTransaction requestId reason).eval TxOp.quiet w =
        some (.ok (serializeRequest v), u) := Prog.eval_bind_ok heval
    exact ⟨_, halone rfl hbody, heffect⟩

end Transitions

end TimeOff
