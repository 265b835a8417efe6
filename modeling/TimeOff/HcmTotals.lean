import TimeOff.HcmCharges

/-! The totals of both sides over whole runs: the local total of a row stays what it was seeded
with, and the HCM has subtracted the days of the approvals it acknowledged. -/
namespace TimeOff

open Async

section Charged

/-- The rows are those both sides were seeded with, under their totals, and agree with the
requests. -/
structure Charged (seeds : List (BalanceKey × ℚ)) (s : Store) : Prop where
  books : Books s
  days : ∀ r ∈ s.requests, 1 ≤ r.daysRequested
  rows : s.balances.map (fun b => (b.key, b.totalBalance)) = seeds

variable {seeds : List (BalanceKey × ℚ)} {s s' : Store} {key : BalanceKey}

/-- A save that leaves the total of its row leaves all of them. -/
theorem totals_saveBalance {patch : EmployeeBalance → BalancePatch} {b : EmployeeBalance}
    (hb : s.balance? key = some b) (htotal : ((patch b).apply b).totalBalance = b.totalBalance) :
    (s.saveBalance key patch).balances.map (fun b => (b.key, b.totalBalance)) =
      s.balances.map fun b => (b.key, b.totalBalance) := by
  unfold Store.saveBalance
  dsimp only
  rw [List.map_map]
  refine List.map_congr_left fun b' hb' => ?_
  rw [Function.comp_apply]
  by_cases hkey : b'.key = key
  · -- the row of the key is the one the patch was made for
    obtain rfl : b' = b :=
      Option.some.inj ((Store.balance?_eq_some.mpr ⟨hb', hkey⟩).symm.trans hb)
    rw [if_pos hkey, htotal, balancePatch_key]
  · rw [if_neg hkey]

theorem days_saveRequest {id : ℕ} {patch : TimeOffRequest → RequestPatch}
    (h : ∀ r ∈ s.requests, 1 ≤ r.daysRequested) :
    ∀ r ∈ (s.saveRequest id patch).requests, 1 ≤ r.daysRequested := by
  intro r hr
  obtain ⟨old, hold, rfl⟩ := List.mem_map.mp hr
  have hdays := h old hold
  split <;> exact hdays

theorem charged_transition {requestId : ℕ} {target : RequestStatus}
    {move : Num → EmployeeBalance → BalancePatch} {r : TimeOffRequest} {b : EmployeeBalance}
    (h : Charged seeds s) (htarget : target ≠ .pending) (hmove : MovesPending target move)
    (he : TransitionEffect requestId target move s s' r b) : Charged seeds s' := by
  have hbooks := books_transition h.books htarget hmove he
  obtain ⟨_, _, hb, _, stamp, now, rfl⟩ := he
  refine ⟨hbooks, days_saveRequest h.days, ?_⟩
  refine (totals_saveBalance hb ?_).trans h.rows
  exact (hmove r.daysRequested b (b.version + 1)).1

theorem charged_create {cfg : Config} {dto : CreateTimeOffRequestDto}
    {idempotencyKey requestHash : String} {days : ℚ} {now id : ℕ} {saved : TimeOffRequest}
    {b : EmployeeBalance} (h : Charged seeds s) (hdays : 1 ≤ days)
    (he : CreateEffect cfg dto idempotencyKey days requestHash now id s s' saved b) :
    Charged seeds s' := by
  refine ⟨books_create h.books he, fun r hr => ?_, ?_⟩
  -- the rows from before, and the new one
  · rw [he.requests] at hr
    rcases List.mem_append.mp hr with hold | hnew
    · exact h.days r hold
    · have hrow := he.row
      cases hrow
      rw [List.mem_singleton.mp hnew]
      exact hdays
  · rw [he.balances]
    exact (totals_saveBalance he.balance rfl).trans h.rows

theorem charged_of_eq (h : Charged seeds s) (hs : s' = s) : Charged seeds s' := hs ▸ h

theorem charged_saveRequest_sync {id : ℕ} {patch : TimeOffRequest → RequestPatch}
    (h : Charged seeds s) (hp : ∀ r, (patch r).status = none) :
    Charged seeds (s.saveRequest id patch) :=
  ⟨books_saveRequest_sync h.books hp, days_saveRequest h.days, h.rows⟩

end Charged

section Operations

/-- The calls of an employee and an approver, and what runs behind them. -/
def Call.movesLeave : Call → Bool
  | .create .. => true
  | .approve .. => true
  | .reject .. => true
  | .cancel .. => true
  | .retrySyncs => true
  | .task _ => true
  | _ => false

variable {cfg : Config} {seeds : List (BalanceKey × ℚ)} {w w' : World} {i : ℕ}

theorem transaction_charged {β : Type} {body : Tx β} {x : AtomicChoice} {r : Except Err β}
    (hbody : TxEnds (fun r u => ∀ v, r = .ok v → Charged seeds u.store) body w)
    (h : (Op.transaction body).exec i x w = some (r, w')) (hw : Charged seeds w.store) :
    Charged seeds w'.store := by
  rcases exec_transaction h with ⟨_, _, _, rfl⟩ | ⟨xs, commit, hx⟩
  · exact hw
  rcases atomically_ends hbody hx with ⟨v, rfl, hv⟩ | ⟨e, _, hstore, _⟩
  · exact hv v rfl
  · exact charged_of_eq hw hstore

theorem transition_charged {requestId : ℕ} {target : RequestStatus} {move : BalanceMove}
    {patch : Num → EmployeeBalance → BalancePatch} {body : Tx RequestBody}
    (hw : Charged seeds w.store) (htarget : target ≠ .pending)
    (hmove : MovesPending target patch)
    (h : TxEnds (TransitionEnds requestId target move patch w) body w) :
    TxEnds (fun r u => ∀ v, r = .ok v → Charged seeds u.store) body w := by
  refine TxEnds.mono ?_ h
  rintro r u hr v rfl
  obtain ⟨r, b, he⟩ := hr
  exact charged_transition hw htarget hmove he

theorem db_charged {o : DbOp} {x : AtomicChoice} {r : Except Err o.Resp}
    (h : (Op.base (.db o)).exec i x w = some (r, w')) (hw : Charged seeds w.store)
    (hgo : Charged seeds (w.db o).2.store) : Charged seeds w'.store := by
  cases x with
  | op x =>
    rcases exec_db_cases h with ⟨_, _, _, hstore⟩ | ⟨_, hstore⟩
    · exact charged_of_eq hw hstore
    · exact charged_of_eq hgo hstore
  | transaction xs commit => cases h

theorem base_charged {o : BaseOp} {x : AtomicChoice} {r : Except Err o.Resp}
    (h : (Op.base o).exec i x w = some (r, w')) (ho : ∀ d, o ≠ .db d)
    (hw : Charged seeds w.store) : Charged seeds w'.store := by
  cases x with
  | op x => exact charged_of_eq hw (exec_store ho h)
  | transaction xs commit => cases h

/-- Every operation of these calls keeps the totals. -/
theorem exec_charged {c : Call} {o : Op} {x : AtomicChoice} {r : Except Err o.Resp}
    (hc : c.movesLeave = true) (ho : CallOp cfg c o) (h : o.exec i x w = some (r, w'))
    (hw : Charged seeds w.store) : Charged seeds w'.store := by
  -- the retries and the tasks save no status
  have hsync {puts : PutBalance → Prop} (ho : SyncOp puts o) : Charged seeds w'.store := by
    cases ho with
    | findPendingSync take => exact db_charged h hw hw
    | saveRequest id patch hp => exact db_charged h hw (charged_saveRequest_sync hw fun _ => hp)
    | _ => exact base_charged h (fun _ => by simp) hw
  cases ho with
  | create ho =>
    -- of a create only the transaction writes
    cases ho with
    | findRecord => exact db_charged h hw hw
    | findRequestByKey => exact db_charged h hw hw
    | transaction =>
      refine transaction_charged (TxEnds.mono ?_ create_ends) h hw
      intro r u hr v hv
      obtain ⟨days, b, hdays, he⟩ := hr v hv
      exact charged_create hw (one_le_calculateDaysRequested hdays) he
    | _ => exact base_charged h (fun _ => by simp) hw
  | approve =>
    exact transaction_charged (transition_charged hw (by decide) finalize_movesPending
      approve_ends) h hw
  | reject =>
    exact transaction_charged (transition_charged hw (by decide)
      (release_movesPending (by decide)) reject_ends) h hw
  | cancel =>
    exact transaction_charged (transition_charged hw (by decide)
      (release_movesPending (by decide)) cancel_ends) h hw
  | retrySyncs ho => exact hsync ho
  | task t ho => exact hsync ho
  | _ => cases hc

end Operations

section Simulation

/-- How the two sides stand to one another in a run that both were seeded for with `seeds`, the
HCM as `h₀`. -/
structure InStep (seeds : List (BalanceKey × ℚ)) (h₀ : MockHcm) (w : World) : Prop where
  charged : Charged seeds w.store
  drawn : IdsDrawn w
  journal : w.journal = []
  tasks : ∀ request requestId, .notifyApprovalToHcm request requestId ∈ w.immediates →
    PutKnown w ⟨request.balanceKey, request.daysRequested, requestId⟩
  inTransit : ∀ m ∈ w.hcm.inTransit, PutKnown w m.2
  subtracted : ∃ puts, (∀ put ∈ puts, PutKnown w put) ∧ Subtracted h₀ w.hcm puts

variable {cfg : Config} {seeds : List (BalanceKey × ℚ)} {h₀ : MockHcm} {w w' : World} {i : ℕ}
  {c : Call}

/-- A step that hands on and sends PUTs that are known. -/
theorem InStep.effects {task : Task → Prop} {sent : PutBalance → Prop} (h : InStep seeds h₀ w)
    (he : SideEffects task sent w w') (hcharged : Charged seeds w'.store)
    (htask : ∀ request requestId, task (.notifyApprovalToHcm request requestId) →
      PutKnown w ⟨request.balanceKey, request.daysRequested, requestId⟩)
    (hsent : ∀ put, sent put → PutKnown w put) : InStep seeds h₀ w' := by
  obtain ⟨puts, hknown, hsub⟩ := h.subtracted
  refine ⟨hcharged, h.drawn.mono he.puts, he.journal.trans h.journal,
    fun request requestId hmem => ?_,
    fun m hm => ?_, puts, fun put hput => (hknown put hput).mono he.puts, ?_⟩
  -- the tasks from before and those handed over in this step
  · apply KnownAs.mono he.puts
    rcases he.tasks _ hmem with hold | hnew
    · exact h.tasks request requestId hold
    · exact htask request requestId hnew
  · apply KnownAs.mono he.puts
    -- the messages from before and the one that was sent
    rcases he.hcm with hhcm | ⟨put, hput, hhcm⟩ <;> rw [hhcm] at hm
    · exact h.inTransit m hm
    · rcases List.mem_append.mp hm with hold | hnew
      · exact h.inTransit m hold
      · rw [List.mem_singleton.mp hnew]
        exact hsent put hput
  · rcases he.hcm with hhcm | ⟨put, _, hhcm⟩ <;> rw [hhcm]
    · exact hsub
    · exact hsub.congr rfl rfl

/-- What a step of a call relies on, and what it guarantees. -/
structure InStepBy (seeds : List (BalanceKey × ℚ)) (h₀ : MockHcm) (i : ℕ) (o : Op) (w : World)
    (r : Except Err o.Resp) (w' : World) : Prop where
  before : InStep seeds h₀ w
  exec : SvcStep i o w r w'

def InStepKept (seeds : List (BalanceKey × ℚ)) (h₀ : MockHcm) (w w' : World) : Prop :=
  PutsKept w w' ∧ (InStep seeds h₀ w → InStep seeds h₀ w')

/-- The operations that send nothing but the PUTs in `puts`. -/
theorem sync_inStep {puts : PutBalance → Prop} {o : Op} {r : Except Err o.Resp}
    (hc : c.movesLeave = true) (hcall : CallOp cfg c o) (ho : SyncOp puts o)
    (hputs : ∀ put, puts put → PutKnown w put) (h : InStepBy seeds h₀ i o w r w') :
    InStepKept seeds h₀ w w' := by
  obtain ⟨hw, x, hx⟩ := h
  have hcharged := exec_charged hc hcall hx hw.charged
  -- a transaction is no part of a retry
  have hbase {b : BaseOp} {r : Except Err b.Resp} (ho : SyncOp puts (.base b))
      (hx : (Op.base b).exec i x w = some (r, w')) : InStepKept seeds h₀ w w' := by
    cases x with
    | transaction xs commit => cases hx
    | op x =>
      have he := baseExec_effects hx
      refine ⟨he.puts, fun _ => hw.effects he hcharged ?_ ?_⟩
      · rintro request requestId rfl
        cases ho
      · rintro put rfl
        cases ho with
        | sendPut put hput => exact hputs put hput
  cases o with
  | base b => exact hbase ho hx
  | transaction body => cases ho

/-- A callback that hands on no task. -/
theorem quiet_effects {β : Type} {φ : TxOp → Prop} {body : Tx β} (hbody : body.Each φ)
    (hφ : ∀ t, ¬ φ (.setImmediate t)) :
    TxEnds (fun _ u => TxEffects (fun _ => False) w u) body w := by
  refine Prog.Holds.of_each_inv (TxEffects (fun _ => False) w) ?_ ?_ hbody (sideEffects_refl w)
  · rintro u _ rfl hu
    exact hu
  · rintro o u r u' ho hu ⟨x, hx⟩
    refine ⟨trivial, txExec_effects ?_ hu hx⟩
    rintro t rfl
    exact hφ t ho

/-- A transition answers with the row it found, as far as its charge goes. -/
theorem transition_put {requestId : ℕ} {target : RequestStatus}
    {stamp : TimeOffRequest → ℕ → RequestPatch} {settle : BalanceKey → Num → Tx Unit} :
    TxEnds (fun x _ => ∀ request, x = .ok request →
        ∃ row ∈ w.store.requests, row.put = ⟨request.balanceKey, request.daysRequested, requestId⟩)
      (transition requestId target stamp settle) w := by
  refine transition_ends (fun _ _ _ h => nomatch h) (fun _ h => nomatch h)
    (fun _ _ h => nomatch h) ?_
  intro r hr _
  obtain ⟨hmem, hid⟩ := Store.request?_eq_some.mp hr
  -- the answer has the columns of the row that was loaded
  have hanswer (x : Except Err Unit) (request : TimeOffRequest)
      (h : (x.map fun _ => (RequestPatch.saved { stamp r w.clock with status := some target } r
        w.clock).apply r) = .ok request) :
      ∃ row ∈ w.store.requests,
        row.put = ⟨request.balanceKey, request.daysRequested, requestId⟩ := by
    cases x with
    | error e => cases h
    | ok _ =>
      cases h
      exact ⟨r, hmem, hid ▸ rfl⟩
  -- the settlement does not change the answer, so it can be anything
  generalize settle r.balanceKey (some r.daysRequested) = p
  generalize ({ w with store := _ } : World) = u
  induction p generalizing u with
  | ret a => exact hanswer _
  | throw e => exact hanswer _
  | op o k ih => exact fun _ _ r t _ => ⟨trivial, ih r t⟩

/-- The task is to send the PUT of the row of this id. -/
def NotifiesOf (w : World) (requestId : ℕ) (t : Task) : Prop :=
  ∃ request, t = .notifyApprovalToHcm request requestId ∧
    ∃ row ∈ w.store.requests,
      row.put = ⟨request.balanceKey, request.daysRequested, requestId⟩

/-- An approval hands on the PUT of the row it approved. -/
theorem approve_effects {requestId : ℕ} {approverId : String} :
    TxEnds (fun _ u => TxEffects (NotifiesOf w requestId) w u)
      (approveTransaction requestId approverId) w := by
  have heach : (transition requestId .approved
      (fun _ now => { approvedBy := some (some approverId), approvedAt := some (some now) })
      finalizeUsed).Each (TransitionOp requestId .approved) :=
    transition_each (fun _ _ => rfl)
      fun key _ => moveDays_each (.findBalance key) (.saveBalance key)
  -- the task is handed over after the settlement, with the row as it was answered
  refine txEnds_bind (TxEnds.mono ?_ (Prog.Holds.frame_each
    (TxEffects (NotifiesOf w requestId) w) ?_ ?_ heach (sideEffects_refl w) transition_put))
  · rintro (e | request) u ⟨hput, hu⟩
    · exact hu
    · refine txEnds_bind (txEnds_setImmediate ?_)
      exact txExec_effects (x := .go) (r := .ok ())
        (fun t ht => ⟨request, (TxOp.setImmediate.inj ht).symm, hput request rfl⟩) hu rfl
  · rintro u _ rfl hu
    exact hu
  · rintro o u r u' ho hu ⟨x, hx⟩
    refine txExec_effects ?_ hu hx
    rintro t rfl
    cases ho

theorem transaction_inStep {β : Type} {body : Tx β} {task : Task → Prop} {r : Except Err β}
    (hc : c.movesLeave = true) (hcall : CallOp cfg c (.transaction body))
    (hbody : TxEnds (fun _ u => TxEffects task w u) body w)
    (htask : IdsDrawn w → ∀ request requestId, task (.notifyApprovalToHcm request requestId) →
      PutKnown w ⟨request.balanceKey, request.daysRequested, requestId⟩)
    (h : InStepBy seeds h₀ i (.transaction body) w r w') : InStepKept seeds h₀ w w' := by
  obtain ⟨hw, x, hx⟩ := h
  have he := transaction_effects hbody hx
  refine ⟨he.puts, fun _ => hw.effects he (exec_charged hc hcall hx hw.charged)
    (htask hw.drawn) ?_⟩
  exact fun put h => h.elim

/-- The operations of the four calls; the tasks and the worker depend on what they have read. -/
theorem call_inStep {o : Op} {r : Except Err o.Resp} (hc : c.movesLeave = true)
    (hfour : c ≠ .retrySyncs ∧ ∀ t, c ≠ .task t) (hcall : CallOp cfg c o)
    (h : InStepBy seeds h₀ i o w r w') : InStepKept seeds h₀ w w' := by
  have hquiet {β : Type} {body : Tx β} {r : Except Err β} (hcall : CallOp cfg c (.transaction body))
      (hnone : ∀ t, ¬ TxCallOp cfg c (.setImmediate t))
      (h : InStepBy seeds h₀ i (.transaction body) w r w') : InStepKept seeds h₀ w w' :=
    transaction_inStep hc hcall (quiet_effects (transaction_each hcall) hnone)
      (fun _ _ _ h => h.elim) h
  cases o with
  | base b =>
    obtain ⟨hw, x, hx⟩ := h
    cases x with
    | transaction xs commit => cases hx
    | op x =>
      have he := baseExec_effects hx
      refine ⟨he.puts, fun _ => hw.effects he (exec_charged hc hcall hx hw.charged) ?_ ?_⟩
      · rintro request requestId rfl
        cases hcall with
        | create h => cases h
        | retrySyncs h => exact absurd rfl hfour.1
        | task t h => exact absurd rfl (hfour.2 t)
      · rintro put rfl
        cases hcall with
        | create h => cases h
        | retrySyncs h => exact absurd rfl hfour.1
        | task t h => exact absurd rfl (hfour.2 t)
  | transaction body =>
    cases hcall with
    | create ho =>
      refine hquiet (.create ho) ?_ h
      intro t ht
      cases ht
    -- the only call that leaves a task which sends days to the HCM
    | approve id approver =>
      have hcall : CallOp cfg (.approve id approver)
          (.transaction (approveTransaction id approver)) :=
        .approve id approver
      refine transaction_inStep hc hcall approve_effects ?_ h
      rintro hdrawn request requestId ⟨_, heq, row, hrow, hput⟩
      cases heq
      exact hput ▸ hdrawn.known hrow
    | reject id approver reason =>
      refine hquiet (.reject id approver reason) ?_ h
      intro t ht
      cases ht with
      | reject _ _ _ ht => cases ht
    | cancel id reason =>
      refine hquiet (.cancel id reason) ?_ h
      intro t ht
      cases ht with
      | cancel _ _ ht => cases ht
    | realTime key total version => cases hc
    | retrySyncs h => cases h
    | task t h => cases h

/-- The rule of a task and of the worker: `A` is what the PUTs they may send are known by. -/
theorem syncCall_inStep {α : Type} (cfg : Config) (puts : PutBalance → Prop) {p : Svc α}
    (A : World → Prop)
    (hc : c.movesLeave = true) (hp : p.Each (SyncOp puts))
    (hcall : ∀ o, SyncOp puts o → CallOp cfg c o) (hA : ∀ w w', PutsKept w w' → A w → A w')
    (hputs : ∀ w put, A w → puts put → PutKnown w put) (hw : A w) :
    p.Holds (InStepBy seeds h₀ i) PutsKept (InStepKept seeds h₀) (fun _ _ => True) w := by
  refine Prog.Holds.mono (fun _ _ _ => trivial) (Prog.Holds.of_each_inv A hA ?_ hp hw)
  intro o w r w' ho hw hs
  have hkept := sync_inStep hc (hcall o ho) ho (hputs w · hw) hs
  exact ⟨hkept, hA w w' hkept.1 hw⟩

theorem inStep_code (hc : c.movesLeave = true)
    (htask : ∀ request requestId, c = .task (.notifyApprovalToHcm request requestId) →
      PutKnown w ⟨request.balanceKey, request.daysRequested, requestId⟩) :
    (c.svc cfg).Holds (InStepBy seeds h₀ i) PutsKept (InStepKept seeds h₀) (fun _ _ => True) w := by
  by_cases hfour : c ≠ .retrySyncs ∧ ∀ t, c ≠ .task t
  · exact Prog.Holds.of_each (fun o u r u' ho hs => call_inStep hc hfour ho hs) (svc_each cfg c) w
  · cases c with
    | retrySyncs =>
      refine Prog.Holds.bind (Prog.Holds.mono (Q := fun _ _ => True) ?_
        (Prog.Holds.bind (Prog.Holds.perform ?_)))
      · rintro (e | _) _ _ <;> trivial
      intro w₁ _ r w₂ hs
      have hload : SyncOp (fun _ => False) (.base (.db (.findPendingSync 50))) :=
        .findPendingSync 50
      have hcall : CallOp cfg .retrySyncs (.base (.db (.findPendingSync 50))) :=
        .retrySyncs (.findPendingSync 50)
      refine ⟨sync_inStep hc hcall hload (fun _ h => h.elim) hs, ?_⟩
      obtain ⟨hw, x, hx⟩ := hs
      cases r with
      | error e => trivial
      | ok rows =>
        -- the rows are those of the tables at this moment
        refine syncCall_inStep cfg (fun put => ∃ row ∈ rows, put = row.put)
          (fun u => ∀ row ∈ rows, PutKnown u row.put) hc
          (retryEach_each cfg fun row hrow _ => ⟨row, hrow, rfl⟩)
          (fun o ho => .retrySyncs (ho.mono fun _ _ => trivial)) ?_ ?_ ?_
        · exact fun u u' hk h row hrow => (h row hrow).mono hk
        · rintro u _ h ⟨row, hrow, rfl⟩
          exact h row hrow
        · intro row hrow
          cases x with
          | transaction xs commit => cases hx
          | op x =>
            have hx : (BaseOp.db (.findPendingSync 50)).exec i x w₁ = some (.ok rows, w₂) := hx
            have hkept := (baseExec_effects hx).puts
            rcases exec_db_cases hx with ⟨_, _, hr, _⟩ | ⟨hr, _⟩
            · cases hr
            · exact (hw.drawn.known (mem_of_pendingSync hr.symm hrow).1).mono hkept
    | task t =>
      refine Prog.Holds.bind (Prog.Holds.mono (Q := fun _ _ => True) ?_ ?_)
      · rintro (e | _) _ _ <;> trivial
      cases t with
      | notifyHcm requestId key days =>
        refine syncCall_inStep cfg (fun _ => False) (fun _ => True) hc
          (notifyHcmAsync_each requestId key days)
          (fun o ho => .task _ (ho.mono fun _ _ => trivial)) (fun _ _ _ => id) ?_ trivial
        exact fun _ _ _ h => h.elim
      | notifyApprovalToHcm request requestId =>
        refine syncCall_inStep cfg
          (fun put => put = ⟨request.balanceKey, request.daysRequested, requestId⟩)
          (fun u => PutKnown u ⟨request.balanceKey, request.daysRequested, requestId⟩) hc
          (notifyApprovalToHcmAsync_each cfg rfl)
          (fun o ho => .task _ (ho.mono fun _ _ => trivial)) (fun _ _ hk h => h.mono hk) ?_
          (htask request requestId rfl)
        rintro u _ h rfl
        exact h
    | _ => exact absurd ⟨by simp, by simp⟩ hfour

end Simulation

section Runs

variable {cfg : Config} {seeds : List (BalanceKey × ℚ)} {h₀ : MockHcm}

/-- The calls of a run; a step of what has been started is always allowed. -/
def startsLeave : Act Call AtomicChoice Env → Bool
  | .start c => c.movesLeave
  | _ => true

theorem accept_inStep {w w' : World} {i : ℕ} {c : Call} (h : w.accept i c = some w') :
    InStepKept seeds h₀ w w' ∧ ∀ t, c = .task t → t ∈ w.immediates := by
  rcases accept_cases h with rfl | ⟨t, rfl, ht, rfl⟩
  · refine ⟨⟨columnsKept_of_eq rfl (le_refl _), id⟩, ?_⟩
    rintro t rfl
    unfold World.accept at h
    exact (Option.ite_none_right_eq_some.mp h).1
  · refine ⟨⟨columnsKept_of_eq rfl (le_refl _), fun hw => ?_⟩, ?_⟩
    -- the task that starts is taken off the queue
    · have he : SideEffects (fun _ => False) (fun _ => False) w
          { w with
            immediates := w.immediates.erase t
            history := { w.history with running := (i, t) :: w.history.running } } :=
        ⟨columnsKept_of_eq rfl (le_refl _), rfl, fun _ h => .inl (List.mem_of_mem_erase h),
          .inl rfl⟩
      exact hw.effects he hw.charged (fun _ _ h => h.elim) fun _ h => h.elim
    · rintro _ ⟨⟩
      exact ht

theorem env_inStep {w w' : World} {e : Env} (h : e.exec w = some w') :
    InStepKept seeds h₀ w w' := by
  have hsame {u : World} (hputs : PutsKept w u) (hstore : u.store = w.store)
      (hjournal : u.journal = w.journal) (himmediates : u.immediates = w.immediates)
      (hhcm : u.hcm = w.hcm) : InStepKept seeds h₀ w u := by
    have he : SideEffects (fun _ => False) (fun _ => False) w u :=
      ⟨hputs, hjournal, fun t ht => .inl (himmediates ▸ ht), .inl hhcm⟩
    exact ⟨hputs, fun hw => hw.effects he (charged_of_eq hw.charged hstore)
      (fun _ _ h => h.elim) fun _ h => h.elim⟩
  cases e with
  | tick ms =>
    cases h
    exact hsame (columnsKept_of_eq rfl (le_refl _)) rfl rfl rfl rfl
  | settle i =>
    obtain ⟨l, _, rfl⟩ := Option.map_eq_some_iff.mp h
    exact hsame (columnsKept_of_eq rfl (le_refl _)) rfl rfl rfl rfl
  | drop message =>
    cases h
    -- a message that is lost takes nothing
    refine ⟨columnsKept_of_eq rfl (le_refl _), fun hw => ?_⟩
    obtain ⟨puts, hknown, hsub⟩ := hw.subtracted
    exact ⟨hw.charged, hw.drawn, hw.journal, hw.tasks,
      fun m hm => hw.inTransit m (List.mem_of_mem_filter hm), puts, hknown, hsub.congr rfl rfl⟩
  | deliver message =>
    obtain ⟨hcm, hd, rfl⟩ := Option.map_eq_some_iff.mp h
    refine ⟨columnsKept_of_eq rfl (le_refl _), fun hw => ?_⟩
    obtain ⟨puts, hknown, hsub⟩ := hw.subtracted
    have htransit := (deliver_cases hd).choose_spec.2.1
    have hold (m : ℕ × PutBalance) (hm : m ∈ hcm.inTransit) : m ∈ w.hcm.inTransit :=
      List.mem_of_mem_filter (htransit ▸ hm)
    -- what the HCM made of the message is one more put, or none
    obtain ⟨put, hput, hsub⟩ := hsub.deliver hd
    have hput : PutKnown w put := hw.inTransit _ hput
    refine ⟨hw.charged, hw.drawn, hw.journal, hw.tasks, fun m hm => hw.inTransit m (hold m hm), ?_⟩
    rcases hsub with hsub | hsub
    · exact ⟨puts, hknown, hsub⟩
    · exact ⟨put :: puts, List.forall_mem_cons.mpr ⟨hput, hknown⟩, hsub⟩

def sidesInStep (cfg : Config) (seeds : List (BalanceKey × ℚ)) (h₀ : MockHcm) :
    RelyGuarantee (atomicMachine cfg) fun _ a => startsLeave a = true where
  Inv _ w := InStep seeds h₀ w
  stepRel i _ := InStepBy seeds h₀ i
  rely _ _ := PutsKept
  guar _ _ := InStepKept seeds h₀
  post _ _ _ _ := True
  rely_refl := columnsKept_of_eq rfl (le_refl _)
  rely_trans := ColumnsKept.trans
  step_of hI _ _ hx := ⟨hI, _, hx⟩
  guar_inv _ hI h := h.2 hI
  guar_rely _ _ h := h.1
  finish_guar {n i c r w} _ _ := by
    have he : SideEffects (fun _ => False) (fun _ => False) w (World.finish i c r w) :=
      ⟨columnsKept_of_eq rfl (le_refl _), rfl, fun _ => .inl, .inl rfl⟩
    exact ⟨he.puts, fun hw => hw.effects he hw.charged (fun _ _ h => h.elim) fun _ h => h.elim⟩
  accept_inv hI _ hs := (accept_inStep hs).1.2 hI
  accept_rely _ _ _ hs := by
    have hkept : InStepKept seeds h₀ _ _ := (accept_inStep hs).1
    exact hkept.1
  accept_holds {P c w'} hI hC hs := by
    obtain ⟨hkept, htask⟩ :
        InStepKept seeds h₀ P.shared w' ∧ ∀ t, c = .task t → t ∈ P.shared.immediates :=
      accept_inStep hs
    refine inStep_code hC ?_
    rintro request requestId rfl
    exact (hI.tasks request requestId (htask _ rfl)).mono hkept.1
  env_inv hI _ hs := (env_inStep hs).2 hI
  env_rely _ _ hs := by
    have hkept : InStepKept seeds h₀ _ _ := env_inStep hs
    exact hkept.1
  -- every transaction of this machine is over, so the crash restores nothing
  halt_inv {P} hI _ := by
    have hstore : P.shared.crash.store = P.shared.store := by
      change undoAll P.shared.journal P.shared.store = P.shared.store
      rw [hI.journal]
      rfl
    have he : SideEffects (fun _ => False) (fun _ => False) P.shared P.shared.crash :=
      ⟨columnsKept_of_eq (congrArg _ hstore) (le_refl _), hI.journal.symm, fun _ h => (nomatch h),
        .inl rfl⟩
    exact hI.effects he (charged_of_eq hI.charged hstore) (fun _ _ h => h.elim) fun _ h => h.elim

end Runs

end TimeOff
