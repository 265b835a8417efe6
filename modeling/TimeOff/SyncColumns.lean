import TimeOff.DecidedOnce
import TimeOff.HcmTraffic

/-! The sync columns of the requests over whole runs. The worker saves what it made of rows that
it has loaded earlier, and the tasks what they made of a request that may have gone on since; the
columns still agree with each other and with the verdict. -/
namespace TimeOff

open Async

section Rows

/-- The sync columns agree with each other and with the verdict. -/
structure TimeOffRequest.Tracked (r : TimeOffRequest) : Prop where
  untried : r.hcmSyncAttempts = 0 → r.hcmSyncStatus = .pending ∧ r.hcmValidated = false
  success : r.hcmSyncStatus = .success → r.hcmValidated = true
  skipped : r.hcmSyncStatus = .skipped → r.status = .rejected ∨ r.status = .cancelled

/-- What has become of a row and of its attempts. -/
structure TimeOffRequest.GoesOn (r r' : TimeOffRequest) : Prop extends r.Evolves r' where
  tried : r.hcmSyncAttempts ≠ 0 → r'.hcmSyncAttempts ≠ 0

theorem TimeOffRequest.GoesOn.refl (r : TimeOffRequest) : r.GoesOn r :=
  ⟨.refl r, fun htried => htried⟩

theorem TimeOffRequest.GoesOn.trans {r₁ r₂ r₃ : TimeOffRequest} (h : r₁.GoesOn r₂)
    (h' : r₂.GoesOn r₃) : r₁.GoesOn r₃ :=
  ⟨h.toEvolves.trans h'.toEvolves, fun htried => h'.tried (h.tried htried)⟩

variable {p : RequestPatch} {r r' : TimeOffRequest}

/-- A patch that fits a row fits what has become of it. -/
theorem RequestPatch.Tracks.since (h : p.Tracks r) (hr : r.GoesOn r') : p.Tracks r' := by
  obtain ⟨status, hstatus, hsuccess, hskipped⟩ := h.status
  refine ⟨h.sync, ?_, status, hstatus, hsuccess, fun heq => ?_⟩
  · rcases h.attempts with hcounted | ⟨hnone, htried⟩
    · exact .inl hcounted
    · exact .inr ⟨hnone, hr.tried htried⟩
  · -- the row was decided when the patch was made
    have hdecided : r.status ≠ .pending := by
      rcases hskipped heq with hs | hs <;> rw [hs] <;> decide
    have hsame : r'.status = r.status := congrArg Verdict.status (hr.decided hdecided)
    rw [hsame]
    exact hskipped heq

theorem RequestPatch.Tracks.tried (h : p.Tracks r) : (p.apply r).hcmSyncAttempts ≠ 0 := by
  rcases h.attempts with ⟨n, hn⟩ | ⟨hnone, htried⟩
  · simp [RequestPatch.apply, hn]
  · simpa [RequestPatch.apply, hnone] using htried

theorem RequestPatch.Tracks.tracked (h : p.Tracks r) : (p.apply r).Tracked := by
  obtain ⟨status, hstatus, hsuccess, hskipped⟩ := h.status
  have hsync : (p.apply r).hcmSyncStatus = status := by simp [RequestPatch.apply, hstatus]
  have hkept : (p.apply r).status = r.status := by simp [RequestPatch.apply, h.sync.1]
  refine ⟨fun huntried => absurd huntried h.tried, fun heq => ?_, fun heq => ?_⟩
  · simp [RequestPatch.apply, hsuccess (hsync.symm.trans heq)]
  · rw [hkept]
    exact hskipped (hsync.symm.trans heq)

/-- The patch of a decision. -/
def RequestPatch.VerdictOnly (p : RequestPatch) : Prop :=
  p.hcmValidated = none ∧ p.hcmSyncStatus = none ∧ p.hcmSyncAttempts = none

theorem RequestPatch.VerdictOnly.attempts (h : p.VerdictOnly) :
    (p.apply r).hcmSyncAttempts = r.hcmSyncAttempts := by
  simp [RequestPatch.apply, h.2.2]

/-- A decision on a pending request finds no sync that was skipped. -/
theorem RequestPatch.VerdictOnly.tracked (h : p.VerdictOnly) (hpending : r.status = .pending)
    (hr : r.Tracked) : (p.apply r).Tracked := by
  have hstatus : (p.apply r).hcmSyncStatus = r.hcmSyncStatus := by
    simp [RequestPatch.apply, h.2.1]
  have hvalidated : (p.apply r).hcmValidated = r.hcmValidated := by
    simp [RequestPatch.apply, h.1]
  refine ⟨fun huntried => ?_, fun heq => ?_, fun heq => ?_⟩
  · rw [hstatus, hvalidated]
    exact hr.untried (h.attempts.symm.trans huntried)
  · rw [hvalidated]
    exact hr.success (hstatus.symm.trans heq)
  · have hskipped := hr.skipped (hstatus.symm.trans heq)
    rw [hpending] at hskipped
    rcases hskipped with hs | hs <;> cases hs

theorem newRequest_tracked {request : NewRequest} {now id : ℕ} {row : TimeOffRequest}
    (hrow : request.row now id = some row) (hsync : request.hcmSyncStatus = .pending) :
    row.Tracked := by
  obtain ⟨days, _, rfl⟩ := Option.map_eq_some_iff.mp hrow
  have hstatus : request.hcmSyncStatus ≠ .success ∧ request.hcmSyncStatus ≠ .skipped := by
    rw [hsync]
    decide
  exact ⟨fun _ => ⟨hsync, rfl⟩, fun heq => absurd heq hstatus.1, fun heq => absurd heq hstatus.2⟩

end Rows

section Tables

def Store.Tracked (s : Store) : Prop :=
  ∀ r ∈ s.requests, r.Tracked

/-- Every row goes on. -/
def Store.GoesOn (s s' : Store) : Prop :=
  ∀ r ∈ s.requests, ∃ r' ∈ s'.requests, r.GoesOn r'

variable {s s' s'' : Store}

theorem Store.GoesOn.refl (s : Store) : s.GoesOn s :=
  fun r hr => ⟨r, hr, .refl r⟩

theorem Store.GoesOn.trans (h : s.GoesOn s') (h' : s'.GoesOn s'') : s.GoesOn s'' := by
  intro r hr
  obtain ⟨r₁, hr₁, hgo⟩ := h r hr
  obtain ⟨r₂, hr₂, hgo'⟩ := h' r₁ hr₁
  exact ⟨r₂, hr₂, hgo.trans hgo'⟩

/-- What an operation does to the sync columns: each row has come from one of its id, or is new. -/
structure Store.Syncs (s s' : Store) : Prop where
  tracked : s.Tracked → s'.Tracked
  tried : ∀ r ∈ s.requests, r.hcmSyncAttempts ≠ 0 → ∀ r' ∈ s'.requests, r'.id = r.id →
    r'.hcmSyncAttempts ≠ 0

theorem Store.eq_of_id {r r' : TimeOffRequest} (hr : r ∈ s.requests) (hr' : r' ∈ s.requests)
    (hid : r'.id = r.id) : r' = r :=
  List.inj_on_of_nodup_map s.requestIds hr' hr hid

theorem Store.Syncs.of_requests (h : s'.requests = s.requests) : s.Syncs s' := by
  refine ⟨fun htracked r hr => htracked r (h ▸ hr), fun r hr htried r' hr' hid => ?_⟩
  rw [Store.eq_of_id hr (h ▸ hr') hid]
  exact htried

theorem Store.Syncs.goesOn (h : s.Syncs s') (he : s.Evolves s') : s.GoesOn s' := by
  intro r hr
  obtain ⟨r', hr', hevolves⟩ := he.requests r hr
  have hid : r'.id = r.id := congrArg Asked.id hevolves.asked
  exact ⟨r', hr', hevolves, fun htried => h.tried r hr htried r' hr' hid⟩

theorem syncs_saveRequest {id : ℕ} {patch : TimeOffRequest → RequestPatch}
    (h : ∀ r, s.request? id = some r → (r.Tracked → ((patch r).apply r).Tracked) ∧
      (r.hcmSyncAttempts ≠ 0 → ((patch r).apply r).hcmSyncAttempts ≠ 0)) :
    s.Syncs (s.saveRequest id patch) := by
  have hrow (r' : TimeOffRequest) (hr' : r' ∈ (s.saveRequest id patch).requests) :
      ∃ r ∈ s.requests, r'.id = r.id ∧ (r.Tracked → r'.Tracked) ∧
        (r.hcmSyncAttempts ≠ 0 → r'.hcmSyncAttempts ≠ 0) := by
    obtain ⟨r, hr, rfl⟩ := List.mem_map.mp hr'
    refine ⟨r, hr, ?_⟩
    by_cases hid : r.id = id
    · rw [if_pos hid]
      exact ⟨rfl, h r (Store.request?_eq_some.mpr ⟨hr, hid⟩)⟩
    · rw [if_neg hid]
      exact ⟨rfl, fun htracked => htracked, fun htried => htried⟩
  refine ⟨fun htracked r' hr' => ?_, fun r hr htried r' hr' hid => ?_⟩
  · obtain ⟨r, hr, _, hkept, _⟩ := hrow r' hr'
    exact hkept (htracked r hr)
  · obtain ⟨r₁, hr₁, hid₁, _, hkept⟩ := hrow r' hr'
    rw [Store.eq_of_id hr hr₁ (hid₁.symm.trans hid)] at hkept
    exact hkept htried

theorem syncs_append {row : TimeOffRequest} (h : s'.requests = s.requests ++ [row])
    (hnew : s.request? row.id = none) (hrow : row.Tracked) : s.Syncs s' := by
  refine ⟨fun htracked r' hr' => ?_, fun r hr htried r' hr' hid => ?_⟩
  · rw [h, List.mem_append, List.mem_singleton] at hr'
    rcases hr' with hold | rfl
    · exact htracked r' hold
    · exact hrow
  · rw [h, List.mem_append, List.mem_singleton] at hr'
    rcases hr' with hold | rfl
    · rw [Store.eq_of_id hr hold hid]
      exact htried
    -- the new row has an id of its own
    · rw [Store.request?_eq_some.mpr ⟨hr, hid.symm⟩] at hnew
      cases hnew

/-- A decision on a pending request, and the move of its days. -/
theorem syncs_decision {requestId : ℕ} {patch : TimeOffRequest → RequestPatch}
    {r : TimeOffRequest} {key : BalanceKey} {move : EmployeeBalance → BalancePatch}
    (hpatch : ∀ x, (patch x).VerdictOnly) (hr : s.request? requestId = some r)
    (hpending : r.status = .pending) :
    s.Syncs ((s.saveRequest requestId patch).saveBalance key move) := by
  have hsaved : s.Syncs (s.saveRequest requestId patch) := by
    refine syncs_saveRequest fun x hx => ?_
    obtain rfl : r = x := Option.some.inj (hr.symm.trans hx)
    refine ⟨(hpatch r).tracked hpending, fun htried => ?_⟩
    rw [(hpatch r).attempts]
    exact htried
  exact ⟨hsaved.tracked, hsaved.tried⟩

end Tables

section Operations

variable {w w' : World} {i : ℕ}

/-- A callback that, when it ends well, has let the sync columns be. -/
def SyncsOk (w : World) {β : Type} (r : Except Err β) (w' : World) : Prop :=
  ∀ v, r = .ok v → w.store.Syncs w'.store

theorem syncsOk_error {β : Type} {e : Err} : SyncsOk w (.error e : Except Err β) w' :=
  fun _ h => nomatch h

theorem transition_syncs {requestId : ℕ} {target : RequestStatus} {move : BalanceMove}
    {stamp : TimeOffRequest → ℕ → RequestPatch}
    {patch : Num → EmployeeBalance → BalancePatch} (hstamp : ∀ r now, (stamp r now).VerdictOnly) :
    TxEnds (SyncsOk w)
      (transition requestId target stamp fun key days =>
        moveDays key (.balanceNotFound move key) (pendingShortfall move key days) (patch days))
      w := by
  refine transition_ends (fun _ _ => syncsOk_error) syncsOk_error (fun _ => syncsOk_error) ?_
  intro r hr hpending
  refine moveDays_ends (fun _ _ => syncsOk_error) (fun _ => syncsOk_error)
    (fun _ _ _ _ => syncsOk_error) ?_
  intro b _ _ _ v _
  exact syncs_decision (fun _ => hstamp r w.clock) hr hpending

theorem approve_syncs {requestId : ℕ} {approverId : String} :
    TxEnds (SyncsOk w) (approveTransaction requestId approverId) w := by
  refine txEnds_bind (TxEnds.mono ?_ (transition_syncs fun _ _ => ⟨rfl, rfl, rfl⟩))
  intro x u hx
  cases x with
  | error e => exact syncsOk_error
  | ok r => exact txEnds_bind (txEnds_setImmediate fun _ _ => hx r rfl)

theorem reject_syncs {requestId : ℕ} {approverId reason : String} :
    TxEnds (SyncsOk w) (rejectTransaction requestId approverId reason) w := by
  refine txEnds_bind (TxEnds.mono ?_ (transition_syncs fun _ _ => ⟨rfl, rfl, rfl⟩))
  intro x u hx
  cases x with
  | error e => exact syncsOk_error
  | ok r => exact fun _ _ => hx r rfl

theorem cancel_syncs {requestId : ℕ} {reason : Option String} :
    TxEnds (SyncsOk w) (cancelTransaction requestId reason) w := by
  refine txEnds_bind (TxEnds.mono ?_ (transition_syncs fun _ _ => ⟨rfl, rfl, rfl⟩))
  intro x u hx
  cases x with
  | error e => exact syncsOk_error
  | ok r => exact fun _ _ => hx r rfl

theorem transaction_syncs {β : Type} {body : Tx β} {x : AtomicChoice} {r : Except Err β}
    (hbody : TxEnds (SyncsOk w) body w) (h : (Op.transaction body).exec i x w = some (r, w')) :
    w.store.Syncs w'.store := by
  rcases exec_transaction h with ⟨_, _, _, rfl⟩ | ⟨xs, commit, hx⟩
  · exact .of_requests rfl
  rcases atomically_ends hbody hx with ⟨v, rfl, hv⟩ | ⟨e, _, hstore, _⟩
  · exact hv v rfl
  · exact .of_requests (congrArg Store.requests hstore)

/-- The patches fit what is stored. -/
def Store.Fits (s : Store) (id : ℕ) (p : RequestPatch) : Prop :=
  ∀ r, s.request? id = some r → p.Tracks r

theorem exec_syncs {cfg : Config} {c : Call} {o : Op} {x : AtomicChoice} {r : Except Err o.Resp}
    (ho : CallOp cfg c o) (hfits : SavesAs w.store.Fits o) (h : o.exec i x w = some (r, w')) :
    w.store.Syncs w'.store := by
  cases o with
  | transaction body =>
    cases ho with
    | create ho =>
      cases ho with
      | transaction =>
        refine transaction_syncs (TxEnds.mono ?_ create_ends) h
        intro res u hres v hv
        obtain ⟨days, b, _, he⟩ := hres v hv
        refine syncs_append he.requests ?_ (newRequest_tracked he.row rfl)
        rw [(newRequest_row_eq he.row).1]
        exact he.newId
    | approve id approver => exact transaction_syncs approve_syncs h
    | reject id approver reason => exact transaction_syncs reject_syncs h
    | cancel id reason => exact transaction_syncs cancel_syncs h
    | realTime key total version =>
      refine transaction_syncs (TxEnds.mono ?_ realTime_saves) h
      intro res u hres v hv
      rcases hres v hv with hsame | ⟨_, hsaved, _⟩
      · exact .of_requests (congrArg Store.requests hsame)
      · rw [hsaved]
        exact .of_requests rfl
    | retrySyncs ho => cases ho
    | task t ho => cases ho
  | base o =>
    cases x with
    | transaction xs commit => cases h
    | op x =>
      by_cases hdb : ∃ d, o = .db d
      · obtain ⟨d, rfl⟩ := hdb
        rcases exec_db_cases h with ⟨_, _, _, hstore⟩ | ⟨_, hstore⟩
        · exact .of_requests (congrArg Store.requests hstore)
        rw [hstore]
        rcases d.run_requests w.clock w.nextId w.store with hrequests | ⟨id, patch, rfl, hrun⟩ |
          ⟨request, row, rfl, _, _⟩
        · exact .of_requests hrequests
        · rw [World.db, hrun]
          refine syncs_saveRequest fun row hrow => ?_
          have htracks : RequestPatch.Tracks { patch with
              version := some (row.version + 1), updatedAt := some w.clock } row := by
            obtain ⟨hsync, hattempts, hstatus⟩ := hfits id patch rfl row hrow
            exact ⟨hsync, hattempts, hstatus⟩
          exact ⟨fun _ => htracks.tracked, fun _ => htracks.tried⟩
        -- a request is inserted in a transaction only
        · cases ho with
          | create ho => cases ho
          | retrySyncs ho => cases ho
          | task t ho => cases ho
      · exact .of_requests (congrArg Store.requests (exec_store (fun d hd => hdb ⟨d, hd⟩) h))

end Operations

section Runs

/-- No transaction is open, and the sync columns agree. -/
structure World.Tracked (w : World) : Prop where
  idle : w.journal = []
  rows : w.store.Tracked

/-- What a step keeps. -/
structure SyncsKept (w w' : World) : Prop where
  tracked : w'.Tracked
  goesOn : w.store.GoesOn w'.store

def SyncsStep (i : ℕ) (o : Op) (w : World) (r : Except Err o.Resp) (w' : World) : Prop :=
  w.Tracked ∧ ∃ x, o.exec i x w = some (r, w')

variable {cfg : Config} {w w' : World} {i : ℕ}

theorem syncsKept_of {o : Op} {c : Call} {r : Except Err o.Resp} (ho : CallOp cfg c o)
    (hfits : SavesAs w.store.Fits o) (hsync : SavesSync o) (h : SyncsStep i o w r w') :
    SyncsKept w w' := by
  obtain ⟨hw, x, hx⟩ := h
  have hsyncs := exec_syncs ho hfits hx
  obtain ⟨hidle, hevolves⟩ := exec_lived ho hsync hx hw.idle
  exact ⟨⟨hidle, hsyncs.tracked hw.rows⟩, hsyncs.goesOn hevolves⟩

/-- Each loaded row has gone on. -/
def Store.Since (rows : List TimeOffRequest) (s : Store) : Prop :=
  ∀ row ∈ rows, ∃ r, s.request? row.id = some r ∧ row.GoesOn r

theorem Store.Since.goesOn {rows : List TimeOffRequest} {s s' : Store} (h : s.Since rows)
    (hgo : s.GoesOn s') : s'.Since rows := by
  intro row hrow
  obtain ⟨r, hr, hrowGo⟩ := h row hrow
  obtain ⟨hmem, hid⟩ := Store.request?_eq_some.mp hr
  obtain ⟨r', hr', hgo'⟩ := hgo r hmem
  have hid' : r'.id = row.id := (congrArg Asked.id hgo'.asked).trans hid
  exact ⟨r', Store.request?_eq_some.mpr ⟨hr', hid'⟩, hrowGo.trans hgo'⟩

abbrev SyncsHolds (i : ℕ) {α : Type} (p : Svc α) (w : World) : Prop :=
  p.Holds (SyncsStep i) (fun w w' => w.store.GoesOn w'.store) SyncsKept (fun _ _ => True) w

theorem SavesAs.mono {fits fits' : ℕ → RequestPatch → Prop} {o : Op}
    (h : ∀ id p, fits id p → fits' id p) (ho : SavesAs fits o) : SavesAs fits' o :=
  fun id p heq => h id p (ho id p heq)

theorem savesSync_of {fits : ℕ → RequestPatch → Prop} {o : Op}
    (h : ∀ id p, fits id p → p.SyncOnly) (ho : SavesAs fits o) : SavesSync o :=
  fun id p heq => h id p (ho id p heq)

/-- What a task saves fits any row. -/
theorem svc_syncs {c : Call} (hc : c ≠ .retrySyncs) (w : World) :
    SyncsHolds i (c.svc cfg) w := by
  refine Prog.Holds.of_each ?_ ((svc_each cfg c).and (svc_saves cfg hc)) w
  intro o w r w' ho hs
  refine syncsKept_of ho.1 (ho.2.mono ?_) (savesSync_of (fun _ _ hp => hp.sync) ho.2) hs
  exact fun _ p hp r _ => hp.tracks r

/-- What the worker saves fits what has become of the rows that it has loaded. -/
theorem retryEach_syncs {rows : List TimeOffRequest} (hrows : w.store.Since rows) :
    SyncsHolds i (retryEach cfg rows) w := by
  have heach : (retryEach cfg rows).Each fun o =>
      CallOp cfg .retrySyncs o ∧ SavesLoaded rows o :=
    (Prog.Each.mono (fun _ => .retrySyncs) (retryEach_each cfg fun _ _ _ => trivial)).and
      (retryEach_saves cfg (List.Subset.refl rows))
  refine Prog.Holds.mono (fun _ _ _ => trivial) (Prog.Holds.of_each_inv
    (fun w => w.store.Since rows) (fun _ _ hgo h => h.goesOn hgo) ?_ heach hrows)
  intro o w r w' ho hsince hs
  have hkept : SyncsKept w w' := by
    refine syncsKept_of ho.1 (ho.2.mono ?_) (savesSync_of ?_ ho.2) hs
    · rintro id p ⟨row, hrow, rfl, htracks⟩ r hr
      obtain ⟨r', hr', hgo⟩ := hsince row hrow
      obtain rfl : r' = r := Option.some.inj (hr'.symm.trans hr)
      exact htracks.since hgo
    · rintro id p ⟨_, _, _, htracks⟩
      exact htracks.sync
  exact ⟨hkept, hsince.goesOn hkept.goesOn⟩

theorem retrySyncs_syncs (w : World) : SyncsHolds i (Call.svc cfg .retrySyncs) w := by
  apply Prog.Holds.bind
  apply Prog.Holds.bind
  refine Prog.Holds.perform (o := Op.base (.db (.findPendingSync 50))) ?_
  intro w₁ _ r w₂ hs
  have hnone {fits : ℕ → RequestPatch → Prop} :
      SavesAs fits (.base (.db (.findPendingSync 50))) := savesAs_of_ne (by simp)
  have hop : CallOp cfg .retrySyncs (.base (.db (.findPendingSync 50))) :=
    .retrySyncs (.findPendingSync 50)
  refine ⟨syncsKept_of hop hnone hnone hs, ?_⟩
  cases r with
  | error e => trivial
  | ok rows =>
    refine Prog.Holds.mono ?_ (retryEach_syncs fun row hrow => ?_)
    · rintro (e | u) w₃ _ <;> trivial
    · obtain ⟨_, x, hx⟩ := hs
      cases x with
      | transaction xs commit => cases hx
      | op x =>
        rcases exec_db_cases hx with ⟨_, _, herror, _⟩ | ⟨hread, hstore⟩
        · cases herror
        · have hmem : row ∈ w₁.store.requests := (mem_of_pendingSync hread.symm hrow).1
          rw [hstore]
          exact ⟨row, Store.request?_eq_some.mpr ⟨hmem, rfl⟩, .refl row⟩

/-- What every call keeps of the sync columns. -/
def syncCalls (cfg : Config) : RelyGuarantee (atomicMachine cfg) fun _ _ => True where
  Inv _ w := w.Tracked
  stepRel i _ := SyncsStep i
  rely _ _ w w' := w.store.GoesOn w'.store
  guar _ _ := SyncsKept
  post _ _ _ _ := True
  rely_refl := .refl _
  rely_trans h h' := h.trans h'
  step_of hI _ _ hx := ⟨hI, _, hx⟩
  guar_inv _ _ h := h.tracked
  guar_rely _ _ h := h.goesOn
  finish_guar hI _ := ⟨⟨hI.idle, hI.rows⟩, .refl _⟩
  accept_inv hI _ hs := by
    obtain ⟨hstore, hjournal, _⟩ := accept_frame hs
    exact ⟨hjournal.trans hI.idle, hstore ▸ hI.rows⟩
  accept_rely _ _ _ hs := (accept_frame hs).1 ▸ .refl _
  accept_holds {P c s'} _ _ _ := by
    by_cases hc : c = .retrySyncs
    · subst hc
      exact retrySyncs_syncs s'
    · exact svc_syncs hc s'
  env_inv hI _ hs := by
    obtain ⟨hstore, hsame⟩ := env_sameCalls hs
    exact ⟨hsame.journal.trans hI.idle, hstore ▸ hI.rows⟩
  env_rely _ _ hs := (env_sameCalls hs).1 ▸ .refl _
  -- no transaction is open when the process dies, so nothing is undone
  halt_inv {P} hI _ := by
    refine ⟨rfl, ?_⟩
    change (undoAll P.shared.journal P.shared.store).Tracked
    rw [hI.idle]
    exact hI.rows

/-- Without open transactions the rows go on. -/
def SyncsMoved (w w' : World) : Prop :=
  w.Tracked → SyncsKept w w'

theorem SyncsMoved.trans {w'' : World} (h : SyncsMoved w w') (h' : SyncsMoved w' w'') :
    SyncsMoved w w'' := by
  intro hw
  have hkept := h hw
  have hkept' := h' hkept.tracked
  exact ⟨hkept'.tracked, hkept.goesOn.trans hkept'.goesOn⟩

theorem syncsMoved_of_store (hjournal : w'.journal = w.journal) (hstore : w'.store = w.store) :
    SyncsMoved w w' :=
  fun hw => ⟨⟨hjournal.trans hw.idle, hstore ▸ hw.rows⟩, hstore ▸ .refl _⟩

/-- From agreeing sync columns on they agree at every moment of every run: a request that was never
tried waits unvalidated, a synced one is validated, and only a rejected or cancelled one is
skipped. An attempt is never forgotten, and a request that is approved is not skipped from then
on, whatever rows the worker has loaded before. -/
theorem sync_columns_agree (cfg : Config) (start : Store) (clock nextId : ℕ) (hcm : MockHcm)
    (hstart : start.Tracked) {P P' : AtomicPool}
    (hP : (atomicMachine cfg).Reach (fun _ _ => True)
      (Pool.init (World.init start clock nextId hcm)) P)
    (hP' : (atomicMachine cfg).Reach (fun _ _ => True) P P') :
    P'.shared.store.Tracked ∧ P.shared.store.GoesOn P'.shared.store ∧
      ∀ r ∈ P.shared.store.requests, r.status = .approved →
        ∃ r' ∈ P'.shared.store.requests, r.GoesOn r' ∧ r'.hcmSyncStatus ≠ .skipped := by
  have hgood : (syncCalls cfg).Good P :=
    (syncCalls cfg).good_of_reach (s := World.init start clock nextId hcm) ⟨rfl, hstart⟩ hP
  have hmoved : SyncsMoved P.shared P'.shared := by
    refine (hgood.moves (fun _ => syncsMoved_of_store rfl rfl) .trans (fun hkept _ => hkept)
      (fun hs => ?_) (fun hs => ?_) (fun w hw => ?_) hP').1
    · obtain ⟨hstore, hjournal, _⟩ := accept_frame hs
      exact syncsMoved_of_store hjournal hstore
    · obtain ⟨hstore, hsame⟩ := env_sameCalls hs
      exact syncsMoved_of_store hsame.journal hstore
    -- a crash undoes nothing
    · have hsame : ((atomicMachine cfg).halt w).store = w.store := by
        change undoAll w.journal w.store = w.store
        rw [hw.idle]
        rfl
      exact ⟨⟨rfl, hsame ▸ hw.rows⟩, hsame ▸ .refl _⟩
  obtain ⟨htracked, hgo⟩ := hmoved hgood.inv
  refine ⟨htracked.rows, hgo, fun r hr hstatus => ?_⟩
  obtain ⟨r', hr', hrow⟩ := hgo r hr
  refine ⟨r', hr', hrow, fun hskipped => ?_⟩
  -- the row is still approved
  have hdecided : r.status ≠ .pending := by
    rw [hstatus]
    decide
  have hsame : r'.status = .approved :=
    (congrArg Verdict.status (hrow.decided hdecided)).trans hstatus
  have hnot := (htracked.rows r' hr').skipped hskipped
  rw [hsame] at hnot
  rcases hnot with h | h <;> cases h

/-- The worker loads two requests, one of them rejected. -/
def loadedFirst : List (Act Call AtomicChoice Env) :=
  .start (.upsert plainKey (some 10)) :: (steps 3).map (.step 0) ++
    .start (.create (plainDto "2030-01-07" "2030-01-08") "key-1") ::
      (steps 5 ++ [committed 7] ++ steps 2).map (.step 1) ++
    .start (.create (plainDto "2030-02-04" "2030-02-05") "key-2") ::
      (steps 5 ++ [committed 7] ++ steps 2).map (.step 2) ++
    [.start (.reject 1 "MGR1" "busy"), .step 3 (committed 5), .start .retrySyncs,
      .step 4 (.op .go)]

/-- The other one is approved before the worker comes to it. -/
def approvedSinceLoad : List (Act Call AtomicChoice Env) :=
  [.start (.approve 0 "MGR1"), .step 5 (committed 6),
    .step 4 (.op (.validated (some ⟨some true⟩)))] ++ (steps 4).map (.step 4)

theorem loadedFirst_runs : ((atomicMachine plainConfig).run (fun _ _ => True)
    (Pool.init (World.init .empty 1000 0 (.init []))) loadedFirst).isSome = true := by
  decide +kernel

theorem approvedSinceLoad_runs : ((atomicMachine plainConfig).run (fun _ _ => True)
    (((atomicMachine plainConfig).run (fun _ _ => True)
      (Pool.init (World.init .empty 1000 0 (.init []))) loadedFirst).get loadedFirst_runs)
    approvedSinceLoad).isSome = true := by
  decide +kernel

/-- The rejected request is skipped, the approved one is not. -/
theorem approvedSinceLoad_agrees : ∃ P P' : AtomicPool,
    (atomicMachine plainConfig).run (fun _ _ => True)
        (Pool.init (World.init .empty 1000 0 (.init []))) loadedFirst = some P ∧
      (atomicMachine plainConfig).run (fun _ _ => True) P approvedSinceLoad = some P' ∧
      P'.shared.store.requests.map (fun r => (r.status, r.hcmSyncStatus)) =
        [(.approved, .success), (.rejected, .skipped)] ∧
      P'.shared.store.Tracked ∧ P.shared.store.GoesOn P'.shared.store := by
  have hrun := (Option.some_get loadedFirst_runs).symm
  have hrun' := (Option.some_get approvedSinceLoad_runs).symm
  obtain ⟨htracked, hgo, _⟩ := sync_columns_agree plainConfig .empty 1000 0 (.init [])
    (fun _ hr => nomatch hr) (Machine.reach_of_run .refl hrun) (Machine.reach_of_run .refl hrun')
  exact ⟨_, _, hrun, hrun', by decide +kernel, htracked, hgo⟩

end Runs

end TimeOff
