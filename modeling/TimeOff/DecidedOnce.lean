import TimeOff.AtomicTx
import TimeOff.CallOps

/-! The life of a request over whole runs: a stored row stays, the columns it was created with
never change, and once it is decided neither does its verdict. So a request is decided once,
whatever calls and tasks interleave around the atomic transactions. -/
namespace TimeOff

open Async

section Evolves

/-- What a decision leaves on a request. -/
structure Verdict where
  status : RequestStatus
  approvedBy : Option String
  approvedAt : Option ℕ
  rejectionReason : Option String
  deriving DecidableEq

def TimeOffRequest.verdict (r : TimeOffRequest) : Verdict :=
  ⟨r.status, r.approvedBy, r.approvedAt, r.rejectionReason⟩

def RequestBody.verdict (b : RequestBody) : Verdict :=
  ⟨b.status, b.approvedBy, b.approvedAt, b.rejectionReason⟩

/-- The columns of a request that its creation writes for good. -/
structure Asked where
  id : ℕ
  idempotencyKey : String
  balanceKey : BalanceKey
  startDate : String
  endDate : String
  daysRequested : ℚ
  requestedBy : String
  notes : Option String
  createdAt : ℕ
  deriving DecidableEq

def TimeOffRequest.asked (r : TimeOffRequest) : Asked :=
  ⟨r.id, r.idempotencyKey, r.balanceKey, r.startDate, r.endDate, r.daysRequested, r.requestedBy,
    r.notes, r.createdAt⟩

def RequestBody.asked (b : RequestBody) : Asked :=
  ⟨b.id, b.idempotencyKey, ⟨b.employeeId, b.locationId, b.leaveType⟩, b.startDate, b.endDate,
    b.daysRequested, b.requestedBy, b.notes, b.createdAt⟩

/-- What may become of a row. -/
structure TimeOffRequest.Evolves (r r' : TimeOffRequest) : Prop where
  asked : r'.asked = r.asked
  version : r.version ≤ r'.version
  decided : r.status ≠ .pending → r'.verdict = r.verdict

/-- What may become of the tables. -/
structure Store.Evolves (s s' : Store) : Prop where
  requests : ∀ r ∈ s.requests, ∃ r' ∈ s'.requests, r.Evolves r'
  records : s.records ⊆ s'.records
  balances : ∀ b ∈ s.balances, ∃ b' ∈ s'.balances, b'.key = b.key ∧ b.version ≤ b'.version

theorem TimeOffRequest.Evolves.refl (r : TimeOffRequest) : r.Evolves r :=
  ⟨rfl, le_refl _, fun _ => rfl⟩

theorem TimeOffRequest.Evolves.trans {r₁ r₂ r₃ : TimeOffRequest} (h : r₁.Evolves r₂)
    (h' : r₂.Evolves r₃) : r₁.Evolves r₃ := by
  refine ⟨h'.asked.trans h.asked, h.version.trans h'.version, fun hdecided => ?_⟩
  have hverdict := h.decided hdecided
  -- the row in between is decided too
  have hstatus : r₂.status = r₁.status := congrArg Verdict.status hverdict
  exact (h'.decided (hstatus ▸ hdecided)).trans hverdict

variable {s s' s'' : Store}

theorem Store.Evolves.refl (s : Store) : s.Evolves s :=
  ⟨fun r hr => ⟨r, hr, .refl r⟩, List.Subset.refl _, fun b hb => ⟨b, hb, rfl, le_refl _⟩⟩

theorem Store.Evolves.trans (h : s.Evolves s') (h' : s'.Evolves s'') : s.Evolves s'' := by
  refine ⟨fun r hr => ?_, List.Subset.trans h.records h'.records, fun b hb => ?_⟩
  · obtain ⟨r₁, hr₁, he⟩ := h.requests r hr
    obtain ⟨r₂, hr₂, he'⟩ := h'.requests r₁ hr₁
    exact ⟨r₂, hr₂, he.trans he'⟩
  · obtain ⟨b₁, hb₁, hkey, hversion⟩ := h.balances b hb
    obtain ⟨b₂, hb₂, hkey', hversion'⟩ := h'.balances b₁ hb₁
    exact ⟨b₂, hb₂, hkey'.trans hkey, hversion.trans hversion'⟩

theorem evolves_saveBalance (key : BalanceKey) {patch : EmployeeBalance → BalancePatch}
    (hversion : ∀ b, (patch b).version = some (b.version + 1)) :
    s.Evolves (s.saveBalance key patch) := by
  refine ⟨fun r hr => ⟨r, hr, .refl r⟩, List.Subset.refl _, fun b hb => ?_⟩
  refine ⟨_, List.mem_map_of_mem hb, ?_⟩
  split
  · refine ⟨rfl, ?_⟩
    simp [BalancePatch.apply, hversion]
  · exact ⟨rfl, le_refl _⟩

/-- A save of a row that is still pending, or of none of its verdict. -/
theorem evolves_saveRequest (id : ℕ) {patch : TimeOffRequest → RequestPatch}
    (hversion : ∀ r, (patch r).version = some (r.version + 1))
    (hverdict : ∀ r, s.request? id = some r → r.status ≠ .pending →
      ((patch r).apply r).verdict = r.verdict) :
    s.Evolves (s.saveRequest id patch) := by
  refine ⟨fun r hr => ?_, List.Subset.refl _, fun b hb => ⟨b, hb, rfl, le_refl _⟩⟩
  refine ⟨_, List.mem_map_of_mem hr, ?_⟩
  split
  · rename_i hid
    refine ⟨rfl, ?_, hverdict r (Store.request?_eq_some.mpr ⟨hr, hid⟩)⟩
    simp [RequestPatch.apply, hversion]
  · exact .refl r

theorem evolves_append (hrequests : s.requests ⊆ s'.requests) (hrecords : s.records ⊆ s'.records)
    (hbalances : s.balances ⊆ s'.balances) : s.Evolves s' :=
  ⟨fun r hr => ⟨r, hrequests hr, .refl r⟩, hrecords, fun b hb => ⟨b, hbalances hb, rfl, le_refl _⟩⟩

end Evolves

section Columns

/-- The patch leaves the verdict alone. -/
def RequestPatch.SyncOnly (p : RequestPatch) : Prop :=
  p.status = none ∧ p.approvedBy = none ∧ p.approvedAt = none ∧ p.rejectionReason = none

/-- Outside a transaction no call saves a verdict. -/
def SavesSync (o : Op) : Prop :=
  ∀ requestId patch, o = .base (.db (.saveRequest requestId patch)) → patch.SyncOnly

/-- What the tasks and the worker save in a row `r`: the outcome of an attempt that they count, or
that there were enough of them. -/
structure RequestPatch.Tracks (p : RequestPatch) (r : TimeOffRequest) : Prop where
  sync : p.SyncOnly
  attempts : (∃ n, p.hcmSyncAttempts = some (n + 1)) ∨
    p.hcmSyncAttempts = none ∧ r.hcmSyncAttempts ≠ 0
  status : ∃ status, p.hcmSyncStatus = some status ∧
    (status = .success → p.hcmValidated = some true) ∧
    (status = .skipped → r.status = .rejected ∨ r.status = .cancelled)

/-- What a task saves: the outcome of an attempt that it counts. -/
structure RequestPatch.Attempted (p : RequestPatch) : Prop where
  sync : p.SyncOnly
  attempts : ∃ n, p.hcmSyncAttempts = some (n + 1)
  status : ∃ status, p.hcmSyncStatus = some status ∧
    (status = .success → p.hcmValidated = some true) ∧ status ≠ .skipped

theorem RequestPatch.Attempted.tracks {p : RequestPatch} (h : p.Attempted) (r : TimeOffRequest) :
    p.Tracks r := by
  obtain ⟨status, hstatus, hsuccess, hskipped⟩ := h.status
  exact ⟨h.sync, .inl h.attempts, status, hstatus, hsuccess, fun heq => absurd heq hskipped⟩

/-- Outside a transaction the patches that are saved fit their row. -/
def SavesAs (fits : ℕ → RequestPatch → Prop) (o : Op) : Prop :=
  ∀ requestId patch, o = .base (.db (.saveRequest requestId patch)) → fits requestId patch

variable {fits : ℕ → RequestPatch → Prop}

theorem savesAs_of_ne {o : Op} (h : ∀ id patch, o ≠ .base (.db (.saveRequest id patch))) :
    SavesAs fits o :=
  fun id patch ho => absurd ho (h id patch)

theorem updateRequest_savesAs {requestId : ℕ} {patch : RequestPatch} (h : fits requestId patch) :
    (updateRequest requestId patch).Each (SavesAs fits) := by
  refine Prog.Each.bind (Prog.Each.perform ?_) fun _ => trivial
  rintro id p ⟨⟩
  exact h

theorem now_savesAs {β : Type} {f : ℕ → Svc β} (h : ∀ now, (f now).Each (SavesAs fits)) :
    (Svc.now.bind f).Each (SavesAs fits) :=
  now_each (savesAs_of_ne (by simp)) h

theorem validateRequest_savesAs (key : BalanceKey) (days : Num) :
    (validateRequest key days).Each (SavesAs fits) :=
  Prog.Each.perform (savesAs_of_ne (by simp))

theorem notifyApproval_savesAs (cfg : Config) (key : BalanceKey) (days : ℚ) (requestId : ℕ) :
    (notifyApproval cfg key days requestId).Each (SavesAs fits) := by
  have hput : (putBalance ⟨key, days, requestId⟩).Each (SavesAs fits) :=
    Prog.Each.bind (Prog.Each.perform (savesAs_of_ne (by simp))) fun _ =>
      Prog.Each.perform (savesAs_of_ne (by simp))
  refine Prog.Each.handle (Prog.Each.bind (retryFrom_each hput ?_ _ _) fun _ => trivial)
    fun err => ?_
  · exact fun ms => savesAs_of_ne (by simp)
  · split <;> trivial

theorem attempted_of {p : RequestPatch} {n : ℕ} {status : HcmSyncStatus} (hsync : p.SyncOnly)
    (hattempts : p.hcmSyncAttempts = some (n + 1)) (hstatus : p.hcmSyncStatus = some status)
    (hsuccess : status = .success → p.hcmValidated = some true) (hskipped : status ≠ .skipped) :
    p.Attempted :=
  ⟨hsync, ⟨n, hattempts⟩, status, hstatus, hsuccess, hskipped⟩

theorem notifyHcmAsync_savesAs (requestId : ℕ) (key : BalanceKey) (days : Num) :
    (notifyHcmAsync requestId key days).Each (SavesAs fun _ p => p.Attempted) := by
  refine Prog.Each.handle (Prog.Each.bind (validateRequest_savesAs _ _) fun r => ?_) fun _ =>
    updateRequest_savesAs (attempted_of ⟨rfl, rfl, rfl, rfl⟩ rfl rfl nofun nofun)
  cases r with
  | none =>
    exact now_savesAs fun _ =>
      updateRequest_savesAs (attempted_of ⟨rfl, rfl, rfl, rfl⟩ rfl rfl nofun nofun)
  | some result =>
    refine now_savesAs fun _ => ?_
    split
    · exact updateRequest_savesAs (attempted_of ⟨rfl, rfl, rfl, rfl⟩ rfl rfl nofun nofun)
    · exact updateRequest_savesAs
        (attempted_of ⟨rfl, rfl, rfl, rfl⟩ rfl rfl (fun _ => rfl) nofun)

theorem validateApproval_savesAs (request : TimeOffRequest) (requestId : ℕ) :
    (validateApproval request requestId).Each (SavesAs fun _ p => p.Attempted) := by
  unfold validateApproval
  split
  · trivial
  refine Prog.Each.bind (validateRequest_savesAs _ _) fun r => ?_
  cases r with
  | none =>
    exact now_savesAs fun _ => Prog.Each.bind
      (updateRequest_savesAs (attempted_of ⟨rfl, rfl, rfl, rfl⟩ rfl rfl nofun nofun))
      fun _ => trivial
  | some validation =>
    dsimp only
    split
    · exact now_savesAs fun _ => Prog.Each.bind
        (updateRequest_savesAs (attempted_of ⟨rfl, rfl, rfl, rfl⟩ rfl rfl nofun nofun))
        fun _ => trivial
    · trivial

theorem notifyApprovalToHcmAsync_savesAs (cfg : Config) (request : TimeOffRequest)
    (requestId : ℕ) : (notifyApprovalToHcmAsync cfg request requestId).Each
      (SavesAs fun _ p => p.Attempted) := by
  refine Prog.Each.handle (Prog.Each.bind (validateApproval_savesAs _ _) fun isValidated => ?_)
    fun _ => now_savesAs fun _ =>
      updateRequest_savesAs (attempted_of ⟨rfl, rfl, rfl, rfl⟩ rfl rfl nofun nofun)
  split
  -- what is announced has been validated
  · rename_i hvalidated
    refine Prog.Each.bind (notifyApproval_savesAs _ _ _ _) fun res => ?_
    refine now_savesAs fun _ => updateRequest_savesAs
      (attempted_of ⟨rfl, rfl, rfl, rfl⟩ rfl rfl (fun _ => congrArg some hvalidated) ?_)
    split <;> decide
  · trivial

/-- What the worker saves for a request that it has loaded. -/
def SavesLoaded (rows : List TimeOffRequest) : Op → Prop :=
  SavesAs fun id p => ∃ row ∈ rows, id = row.id ∧ p.Tracks row

variable {rows : List TimeOffRequest} {request : TimeOffRequest}

theorem updateSyncAttempt_saves (hrow : request ∈ rows) {patch : RequestPatch}
    {status : HcmSyncStatus} (hsync : patch.SyncOnly) (hstatus : patch.hcmSyncStatus = some status)
    (hsuccess : status = .success → patch.hcmValidated = some true)
    (hskipped : status = .skipped → request.status = .rejected ∨ request.status = .cancelled) :
    (updateSyncAttempt request patch).Each (SavesLoaded rows) :=
  now_savesAs fun _ => updateRequest_savesAs
    ⟨request, hrow, rfl, hsync, .inl ⟨_, rfl⟩, status, hstatus, hsuccess, hskipped⟩

theorem retryApproval_saves (cfg : Config) (hrow : request ∈ rows) :
    (retryApproval cfg request true).Each (SavesLoaded rows) := by
  refine Prog.Each.bind (notifyApproval_savesAs _ _ _ _) fun approval => ?_
  split
  · exact updateSyncAttempt_saves hrow ⟨rfl, rfl, rfl, rfl⟩ rfl (fun _ => rfl) nofun
  · exact updateSyncAttempt_saves hrow ⟨rfl, rfl, rfl, rfl⟩ rfl nofun nofun

theorem retryByStatus_saves (cfg : Config) (hrow : request ∈ rows) :
    (retryByStatus cfg request).Each (SavesLoaded rows) := by
  unfold retryByStatus
  split
  · rename_i hstatus
    exact updateSyncAttempt_saves hrow ⟨rfl, rfl, rfl, rfl⟩ rfl nofun fun _ => .inl hstatus
  · rename_i hstatus
    exact updateSyncAttempt_saves hrow ⟨rfl, rfl, rfl, rfl⟩ rfl nofun fun _ => .inr hstatus
  -- a pending request is validated, an approved one also announced
  · refine Prog.Each.bind (?_ : Prog.Each _ _) fun validation => ?_
    · split
      · trivial
      · exact validateRequest_savesAs _ _
    · cases validation with
      | none => exact updateSyncAttempt_saves hrow ⟨rfl, rfl, rfl, rfl⟩ rfl nofun nofun
      | some validation =>
        dsimp only
        split
        · exact updateSyncAttempt_saves hrow ⟨rfl, rfl, rfl, rfl⟩ rfl nofun nofun
        · exact updateSyncAttempt_saves hrow ⟨rfl, rfl, rfl, rfl⟩ rfl (fun _ => rfl) nofun
  · unfold retryApprovalFlow
    split
    · exact retryApproval_saves _ hrow
    · refine Prog.Each.bind (validateRequest_savesAs _ _) fun validation => ?_
      cases validation with
      | none => exact updateSyncAttempt_saves hrow ⟨rfl, rfl, rfl, rfl⟩ rfl nofun nofun
      | some validation =>
        dsimp only
        split
        · exact updateSyncAttempt_saves hrow ⟨rfl, rfl, rfl, rfl⟩ rfl nofun nofun
        · exact retryApproval_saves _ hrow

theorem retryRequest_saves (cfg : Config) (hrow : request ∈ rows) :
    (retryRequest cfg request).Each (SavesLoaded rows) := by
  unfold retryRequest
  split
  -- the row was tried before, so it need not be counted again
  · rename_i hmax
    have htried : request.hcmSyncAttempts ≠ 0 := by
      have hpos : 0 < maxPendingSyncRetries := by decide
      omega
    exact now_savesAs fun _ => updateRequest_savesAs
      ⟨request, hrow, rfl, ⟨rfl, rfl, rfl, rfl⟩, .inr ⟨rfl, htried⟩, _, rfl, nofun, nofun⟩
  · exact Prog.Each.handle (retryByStatus_saves _ hrow) fun _ =>
      updateSyncAttempt_saves hrow ⟨rfl, rfl, rfl, rfl⟩ rfl nofun nofun

theorem retryEach_saves (cfg : Config) {loaded : List TimeOffRequest} (h : loaded ⊆ rows) :
    (retryEach cfg loaded).Each (SavesLoaded rows) := by
  induction loaded with
  | nil => trivial
  | cons request rest ih =>
    obtain ⟨hrow, hrest⟩ := List.cons_subset.mp h
    exact Prog.Each.bind (retryRequest_saves cfg hrow) fun _ => ih hrest

/-- A call other than the worker saves outside a transaction only what its attempt came to. -/
theorem svc_saves (cfg : Config) {c : Call} (hc : c ≠ .retrySyncs) :
    (c.svc cfg).Each (SavesAs fun _ p => p.Attempted) := by
  -- the calls that run no retry save no request outside a transaction
  have hother (h : ∀ o, CallOp cfg c o → SavesAs (fun _ p => p.Attempted) o) :
      (c.svc cfg).Each (SavesAs fun _ p => p.Attempted) :=
    Prog.Each.mono h (svc_each cfg c)
  cases c with
  | retrySyncs => exact absurd rfl hc
  | task t =>
    refine Prog.Each.bind ?_ fun _ => trivial
    cases t with
    | notifyHcm id key days => exact notifyHcmAsync_savesAs _ _ _
    | notifyApprovalToHcm request id => exact notifyApprovalToHcmAsync_savesAs _ _ _
  | create dto key =>
    refine hother ?_
    rintro _ ⟨h⟩ id patch rfl
    cases h
  | _ =>
    refine hother ?_
    rintro _ h id patch rfl
    cases h

theorem svc_savesSync (cfg : Config) (c : Call) : (c.svc cfg).Each SavesSync := by
  by_cases hc : c = .retrySyncs
  · subst hc
    refine Prog.Each.bind (Prog.Each.bind (Prog.Each.perform ?_) fun rows => ?_) fun _ => trivial
    · intro id patch ho
      cases ho
    · refine Prog.Each.mono ?_ (retryEach_saves cfg (List.Subset.refl rows))
      intro o ho id patch heq
      obtain ⟨_, _, _, htracks⟩ := ho id patch heq
      exact htracks.sync
  · refine Prog.Each.mono ?_ (svc_saves cfg hc)
    intro o ho id patch heq
    exact (ho id patch heq).sync

end Columns

section Steps

variable {s s' : Store} {w w' : World} {i : ℕ}

/-- A call of the database that saves no verdict. -/
theorem run_evolves (o : DbOp) (now fresh : ℕ) (s : Store)
    (h : ∀ id patch, o = .saveRequest id patch → patch.SyncOnly) :
    s.Evolves (o.run now fresh s).2 := by
  cases o with
  | saveBalance key patch =>
    simp only [DbOp.run]
    split
    · exact evolves_saveBalance key fun _ => rfl
    · exact .refl s
  | saveRequest id patch =>
    obtain ⟨hstatus, hby, hat, hreason⟩ := h id patch rfl
    refine evolves_saveRequest id (fun _ => rfl) fun r _ _ => ?_
    simp [RequestPatch.apply, TimeOffRequest.verdict, hstatus, hby, hat, hreason]
  | insertBalance balance =>
    simp only [DbOp.run]
    split
    · exact .refl s
    · split
      · exact .refl s
      · rename_i hs
        obtain ⟨_, hbalances, hrequests, hrecords⟩ := Store.insertBalance_eq hs
        exact evolves_append (by rw [hrequests]; exact List.Subset.refl _)
          (by rw [hrecords]; exact List.Subset.refl _) (by rw [hbalances]; simp)
  | insertRequest request =>
    simp only [DbOp.run]
    split
    · exact .refl s
    · split
      · exact .refl s
      · rename_i hs
        obtain ⟨_, _, hrequests, hbalances, hrecords⟩ := Store.insertRequest_eq hs
        exact evolves_append (by rw [hrequests]; simp) (by rw [hrecords]; exact List.Subset.refl _)
          (by rw [hbalances]; exact List.Subset.refl _)
  | insertRecord record =>
    simp only [DbOp.run]
    split
    · exact .refl s
    · rename_i hs
      obtain ⟨_, hrecords, hbalances, hrequests⟩ := Store.insertRecord_eq hs
      exact evolves_append (by rw [hrequests]; exact List.Subset.refl _) (by rw [hrecords]; simp)
        (by rw [hbalances]; exact List.Subset.refl _)
  | _ => exact .refl s

/-- A committed transition decides a request that was pending. -/
theorem evolves_transition {requestId : ℕ} {target : RequestStatus}
    {move : Num → EmployeeBalance → BalancePatch} {r : TimeOffRequest} {b : EmployeeBalance}
    (he : TransitionEffect requestId target move s s' r b) : s.Evolves s' := by
  obtain ⟨hfound, hpending, _, _, stamp, now, rfl⟩ := he
  refine .trans (evolves_saveRequest requestId (fun _ => rfl) fun r' hr' hdecided => ?_)
    (evolves_saveBalance _ fun _ => rfl)
  obtain rfl : r = r' := Option.some.inj (hfound.symm.trans hr')
  exact absurd hpending hdecided

theorem evolves_create {cfg : Config} {dto : CreateTimeOffRequestDto}
    {idempotencyKey requestHash : String} {days : ℚ} {now id : ℕ} {saved : TimeOffRequest}
    {b : EmployeeBalance}
    (he : CreateEffect cfg dto idempotencyKey days requestHash now id s s' saved b) :
    s.Evolves s' := by
  have hbalance : s.Evolves (s.saveBalance dto.balanceKey fun x =>
      { deductPatch (some days) b with version := some (x.version + 1) }) :=
    evolves_saveBalance _ fun _ => rfl
  refine ⟨fun r hr => ⟨r, ?_, .refl r⟩, ?_, fun b hb => ?_⟩
  · rw [he.requests]
    exact List.mem_append_left _ hr
  · rw [he.records]
    exact List.subset_append_left _ _
  · rw [he.balances]
    exact hbalance.balances b hb

/-- Without open transactions, the tables only evolve. -/
def Lived (w w' : World) : Prop :=
  w.journal = [] → w'.journal = [] ∧ w.store.Evolves w'.store

theorem lived_of_store (hjournal : w'.journal = w.journal) (hstore : w'.store = w.store) :
    Lived w w' :=
  fun h => ⟨hjournal.trans h, hstore ▸ .refl _⟩

/-- A transaction whose callback, when it ends well, has let the tables evolve. -/
theorem transaction_lived {β : Type} {body : Tx β} {x : AtomicChoice} {r : Except Err β}
    (hbody : TxEnds (fun r u => ∀ v, r = .ok v → w.store.Evolves u.store) body w)
    (h : (Op.transaction body).exec i x w = some (r, w')) : Lived w w' := by
  intro hidle
  refine ⟨(opExec_sameCalls h).journal.trans hidle, ?_⟩
  rcases exec_transaction h with ⟨_, _, _, rfl⟩ | ⟨xs, commit, hx⟩
  · exact .refl _
  rcases atomically_ends hbody hx with ⟨v, rfl, hv⟩ | ⟨e, _, hstore, _⟩
  · exact hv v rfl
  · exact hstore ▸ .refl _

theorem transition_lived {requestId : ℕ} {target : RequestStatus} {move : BalanceMove}
    {patch : Num → EmployeeBalance → BalancePatch} {body : Tx RequestBody} {x : AtomicChoice}
    {r : Except Err RequestBody}
    (hbody : TxEnds (TransitionEnds requestId target move patch w) body w)
    (h : (Op.transaction body).exec i x w = some (r, w')) : Lived w w' := by
  refine transaction_lived (TxEnds.mono ?_ hbody) h
  rintro r u hr v rfl
  obtain ⟨r, b, he⟩ := hr
  exact evolves_transition he

/-- A real-time update saves the row of its balance, or nothing. -/
theorem realTime_saves {key : BalanceKey} {total : Num} {version : Option String} :
    TxEnds (fun r u => ∀ v, r = .ok v → u.store = w.store ∨
        ∃ patch : EmployeeBalance → BalancePatch,
          u.store = w.store.saveBalance key patch ∧ ∀ b, (patch b).version = some (b.version + 1))
      (applyHcmRealTimeUpdate key total version) w := by
  refine txEnds_read rfl (fun _ _ _ h => nomatch h) ?_
  cases hb : w.store.balance? key with
  | none => exact fun _ _ => .inl rfl
  | some balance =>
    refine txEnds_bind (txEnds_now (txEnds_bind (txEnds_db (fun _ _ _ h => nomatch h) ?_)))
    -- a save that is refused throws
    cases ha : (realTimePatch balance total version w.clock).accepted with
    | true =>
      rw [World.db_saveBalance ha]
      exact fun _ _ => .inr ⟨_, rfl, fun _ => rfl⟩
    | false =>
      rw [World.db_saveBalance_rejected ha]
      exact fun _ h => nomatch h

theorem realTime_evolves {key : BalanceKey} {total : Num} {version : Option String} :
    TxEnds (fun r u => ∀ v, r = .ok v → w.store.Evolves u.store)
      (applyHcmRealTimeUpdate key total version) w := by
  refine TxEnds.mono ?_ realTime_saves
  intro r u hr v hv
  rcases hr v hv with hsame | ⟨patch, hsaved, hversion⟩
  · exact hsame ▸ .refl _
  · exact hsaved ▸ evolves_saveBalance key hversion

theorem exec_lived {cfg : Config} {c : Call} {o : Op} {x : AtomicChoice} {r : Except Err o.Resp}
    (ho : CallOp cfg c o) (hsync : SavesSync o) (h : o.exec i x w = some (r, w')) :
    Lived w w' := by
  cases o with
  | base o =>
    cases x with
    | transaction xs commit => cases h
    | op x =>
      have hjournal := (baseExec_sameCalls h).journal
      by_cases hdb : ∃ d, o = .db d
      · obtain ⟨d, rfl⟩ := hdb
        intro hidle
        refine ⟨hjournal.trans hidle, ?_⟩
        -- the call failed, or ran
        rcases exec_db_cases h with ⟨_, _, _, hstore⟩ | ⟨_, hstore⟩ <;> rw [hstore]
        · exact .refl _
        · exact run_evolves d _ _ _ fun id patch hd => hsync id patch (hd ▸ rfl)
      · exact lived_of_store hjournal (exec_store (fun d hd => hdb ⟨d, hd⟩) h)
  | transaction body =>
    cases ho with
    | create ho =>
      cases ho with
      | transaction =>
        refine transaction_lived (TxEnds.mono ?_ create_ends) h
        intro r u hr v hv
        obtain ⟨days, b, _, he⟩ := hr v hv
        exact evolves_create he
    | approve id approver => exact transition_lived approve_ends h
    | reject id approver reason => exact transition_lived reject_ends h
    | cancel id reason => exact transition_lived cancel_ends h
    | realTime key total version => exact transaction_lived realTime_evolves h
    | retrySyncs ho => cases ho
    | task t ho => cases ho

theorem lives (cfg : Config) (C : Pool Call Op Op.Resp Err (Option RequestBody) World →
      Act Call AtomicChoice Env → Prop) :
    (atomicMachine cfg).Moves C (fun c o => CallOp cfg c o ∧ SavesSync o) Lived where
  refl w := lived_of_store rfl rfl
  trans h h' hidle := by
    obtain ⟨hidle', he⟩ := h hidle
    obtain ⟨hidle'', he'⟩ := h' hidle'
    exact ⟨hidle'', he.trans he'⟩
  code _ := (svc_each cfg _).and (svc_savesSync cfg _)
  accept h := by
    obtain ⟨hstore, hjournal, _⟩ := accept_frame h
    exact lived_of_store hjournal hstore
  exec ho h := exec_lived ho.1 ho.2 h
  finish _ _ _ _ := lived_of_store rfl rfl
  env h := by
    obtain ⟨hstore, hsame⟩ := env_sameCalls h
    exact lived_of_store hsame.journal hstore
  -- every transaction of this machine is over when the process dies
  halt w hidle := by
    refine ⟨rfl, ?_⟩
    change w.store.Evolves (undoAll w.journal w.store)
    rw [hidle]
    exact .refl _

end Steps

section Decisions

/-- The request that a call decides on. -/
def Call.subject : Call → Option ℕ
  | .approve requestId _ => some requestId
  | .reject requestId _ _ => some requestId
  | .cancel requestId _ => some requestId
  | _ => none

/-- The verdict that a decision asks for. -/
def Call.Gives : Call → Verdict → Prop
  | .approve _ approverId, v => v.status = .approved ∧ v.approvedBy = some approverId
  | .reject _ approverId reason, v =>
    v.status = .rejected ∧ v.approvedBy = some approverId ∧ v.rejectionReason = some reason
  | .cancel _ reason, v => v.status = .cancelled ∧ v.rejectionReason = reason
  | _, _ => False

theorem Call.Gives.decided {c : Call} {v : Verdict} (h : c.Gives v) : v.status ≠ .pending := by
  cases c with
  | approve id by' => rw [h.1]; decide
  | reject id by' reason => rw [h.1]; decide
  | cancel id reason => rw [h.1]; decide
  | _ => exact h.elim

variable {w w' : World} {i : ℕ}

/-- What a transition answers with is the row it leaves. -/
def RowSettled (requestId : ℕ) (gives : Verdict → Prop) (w : World)
    (r : Except Err TimeOffRequest) (w' : World) : Prop :=
  ∀ request, r = .ok request → ∃ old, w.store.request? requestId = some old ∧
    old.status = .pending ∧ request.asked = old.asked ∧ gives request.verdict ∧
      w'.store.request? requestId = some request

theorem transition_settled {requestId : ℕ} {target : RequestStatus} {move : BalanceMove}
    {stamp : TimeOffRequest → ℕ → RequestPatch}
    {patch : Num → EmployeeBalance → BalancePatch} (gives : Verdict → Prop)
    (hgives : ∀ r now,
      gives (RequestPatch.apply { stamp r now with status := some target } r).verdict) :
    TxEnds (RowSettled requestId gives w)
      (transition requestId target stamp fun key days =>
        moveDays key (.balanceNotFound move key) (pendingShortfall move key days) (patch days))
      w := by
  -- an error answers with no row
  have herr {e : Err} {u : World} : RowSettled requestId gives w (.error e) u :=
    fun _ h => nomatch h
  refine transition_ends (fun _ _ => herr) herr (fun _ => herr) fun r hr hpending => ?_
  refine moveDays_ends (fun _ _ => herr) (fun _ => herr) (fun _ _ _ _ => herr) fun b _ _ _ => ?_
  rintro request ⟨⟩
  refine ⟨r, hr, hpending, rfl, hgives r w.clock, ?_⟩
  -- the balance is saved after the request, whose row stays
  refine (Store.request?_saveRequest requestId requestId _).trans ?_
  rw [hr, Option.map_some, if_pos (Store.request?_eq_some.mp hr).2]
  rfl

/-- What a decision answers with. -/
def Answers (c : Call) (requestId : ℕ) (w : World) (r : Except Err RequestBody) (w' : World) :
    Prop :=
  ∀ body, r = .ok body → ∃ old new, w.store.request? requestId = some old ∧
    old.status = .pending ∧ w'.store.request? requestId = some new ∧ new.asked = old.asked ∧
      c.Gives new.verdict ∧ body = serializeRequest new

theorem RowSettled.answers {c : Call} {requestId : ℕ} {w u : World} {r : Except Err TimeOffRequest}
    (h : RowSettled requestId c.Gives w r u) {u' : World} (hstore : u'.store = u.store) :
    Answers c requestId w (r.map serializeRequest) u' := by
  rintro body hbody
  cases r with
  | error e => cases hbody
  | ok request =>
    cases hbody
    obtain ⟨old, hold, hpending, hasked, hgives, hnew⟩ := h request rfl
    exact ⟨old, request, hold, hpending, hstore ▸ hnew, hasked, hgives, rfl⟩

theorem approve_answers (requestId : ℕ) (approverId : String) :
    TxEnds (Answers (.approve requestId approverId) requestId w)
      (approveTransaction requestId approverId) w := by
  refine txEnds_bind (TxEnds.mono ?_ (transition_settled
    (Call.Gives (.approve requestId approverId)) fun _ _ => ⟨rfl, rfl⟩))
  rintro (e | request) u hu
  · exact fun _ h => nomatch h
  · exact txEnds_bind (txEnds_setImmediate (hu.answers rfl))

theorem reject_answers (requestId : ℕ) (approverId reason : String) :
    TxEnds (Answers (.reject requestId approverId reason) requestId w)
      (rejectTransaction requestId approverId reason) w := by
  refine txEnds_bind (TxEnds.mono ?_ (transition_settled
    (Call.Gives (.reject requestId approverId reason)) fun _ _ => ⟨rfl, rfl, rfl⟩))
  rintro (e | request) u hu
  · exact fun _ h => nomatch h
  · exact hu.answers rfl

theorem cancel_answers (requestId : ℕ) (reason : Option String) :
    TxEnds (Answers (.cancel requestId reason) requestId w)
      (cancelTransaction requestId reason) w := by
  refine txEnds_bind (TxEnds.mono ?_ (transition_settled
    (Call.Gives (.cancel requestId reason)) fun _ _ => ⟨rfl, ?_⟩))
  · rintro (e | request) u hu
    · exact fun _ h => nomatch h
    · exact hu.answers rfl
  -- a reason that the row has already is not written again
  · simp only [RequestPatch.apply, TimeOffRequest.verdict]
    split
    · rename_i hsame
      exact hsame.symm
    · rfl

end Decisions

section Runs

abbrev AtomicPool := Pool Call Op Op.Resp Err (Option RequestBody) World

/-- A decision is one transaction, and answers with what that returns. -/
theorem decision_svc (cfg : Config) {c : Call} {requestId : ℕ} (h : c.subject = some requestId) :
    ∃ body : Tx RequestBody, (∀ w, TxEnds (Answers c requestId w) body w) ∧
      c.svc cfg = (Svc.transaction body).bind fun b => .ret (some b) := by
  cases c with
  | approve id approver =>
    cases h
    exact ⟨_, fun _ => approve_answers _ _, rfl⟩
  | reject id approver reason =>
    cases h
    exact ⟨_, fun _ => reject_answers _ _ _, rfl⟩
  | cancel id reason =>
    cases h
    exact ⟨_, fun _ => cancel_answers _ _, rfl⟩
  | _ => cases h

/-- The answers that decisions on a request were given. -/
def History.decisionsOf (h : History) (requestId : ℕ) : List (Call × RequestBody) :=
  h.returned.filter fun e => e.1.subject = some requestId

/-- The row has the verdict that the call was answered with. -/
def Store.Holds (s : Store) (c : Call) (body : RequestBody) : Prop :=
  ∃ row ∈ s.requests, c.subject = some row.id ∧ row.asked = body.asked ∧
    row.verdict = body.verdict ∧ c.Gives row.verdict

theorem Store.Evolves.holds {s s' : Store} {c : Call} {body : RequestBody} (he : s.Evolves s')
    (h : s.Holds c body) : s'.Holds c body := by
  obtain ⟨row, hrow, hsubject, hasked, hverdict, hgives⟩ := h
  obtain ⟨row', hrow', hrowe⟩ := he.requests row hrow
  have hid : row'.id = row.id := congrArg Asked.id hrowe.asked
  have hsame : row'.verdict = row.verdict := hrowe.decided hgives.decided
  exact ⟨row', hrow', hid ▸ hsubject, hrowe.asked.trans hasked, hsame.trans hverdict,
    hsame.symm ▸ hgives⟩

/-- Every decision that was answered holds, and no request was decided twice. -/
structure DecidedOnce (cfg : Config) (P : AtomicPool) : Prop where
  idle : P.shared.journal = []
  within : Machine.Within (fun c o => CallOp cfg c o ∧ SavesSync o) P
  code : ∀ i q requestId, P.procs i = some q → q.call.subject = some requestId →
    q.call.svc cfg = .op q.op q.next
  holds : ∀ c body, (c, body) ∈ P.shared.history.returned → c.subject.isSome = true →
    P.shared.store.Holds c body
  once : ∀ requestId, (P.shared.history.decisionsOf requestId).length ≤ 1

variable {cfg : Config} {P P' : AtomicPool}

/-- An action that answers no decision. -/
theorem DecidedOnce.quiet {C : AtomicPool → Act Call AtomicChoice Env → Prop}
    {a : Act Call AtomicChoice Env} (h : DecidedOnce cfg P) (hC : C P a)
    (ha : (atomicMachine cfg).step P a = some P')
    (hcode : ∀ i q requestId, P'.procs i = some q → q.call.subject = some requestId →
      q.call.svc cfg = .op q.op q.next)
    (hreturned : ∀ e ∈ P'.shared.history.returned,
      e ∈ P.shared.history.returned ∨ e.1.subject = none)
    (hdecisions : ∀ id, P'.shared.history.decisionsOf id = P.shared.history.decisionsOf id) :
    DecidedOnce cfg P' := by
  obtain ⟨hlived, hwithin⟩ := (lives cfg C).step hC h.within ha
  obtain ⟨hidle, hevolves⟩ := hlived h.idle
  refine ⟨hidle, hwithin, hcode, fun c body hmem hsome => ?_, fun id => hdecisions id ▸ h.once id⟩
  rcases hreturned _ hmem with hold | hnone
  · exact hevolves.holds (h.holds c body hold hsome)
  · rw [hnone] at hsome
    cases hsome

/-- A call that decides nothing goes on or ends. -/
theorem settle_undecided (cfg : Config) {i : ℕ} {c : Call} {s : World}
    {p : Prog Op Op.Resp Err (Option RequestBody)} (hc : c.subject = none) (P : AtomicPool) :
    (∀ e ∈ ((atomicMachine cfg).settle i c P s p).shared.history.returned,
        e ∈ s.history.returned ∨ e.1.subject = none) ∧
      ∀ id, ((atomicMachine cfg).settle i c P s p).shared.history.decisionsOf id =
        s.history.decisionsOf id := by
  have hfinish (r : Except Err (Option RequestBody)) :
      (∀ e ∈ (World.finish i c r s).history.returned,
        e ∈ s.history.returned ∨ e.1.subject = none) ∧
      ∀ id, (World.finish i c r s).history.decisionsOf id = s.history.decisionsOf id := by
    refine ⟨fun e he => ?_, fun id => ?_⟩
    · rcases mem_returned_finish he with hold | ⟨hcall, _⟩
      · exact .inl hold
      · exact .inr (hcall ▸ hc)
    · cases r with
      | error e => rfl
      | ok answer =>
        cases answer with
        | none => rfl
        | some body =>
          change List.filter _ ((c, body) :: s.history.returned) = _
          rw [List.filter_cons_of_neg (by simp [hc])]
          rfl
  cases p with
  | ret a => exact hfinish (.ok a)
  | throw e => exact hfinish (.error e)
  | op o k => exact ⟨fun e he => .inl he, fun id => rfl⟩

/-- The calls that wait after process `i` has gone on with the program of `c`. -/
theorem code_settle {i : ℕ} {c : Call} {s : World}
    {p : Prog Op Op.Resp Err (Option RequestBody)} {P : AtomicPool}
    (hcode : ∀ j q requestId, P.procs j = some q → q.call.subject = some requestId →
      q.call.svc cfg = .op q.op q.next)
    (hp : ∀ requestId o k, c.subject = some requestId → p = .op o k → c.svc cfg = p) :
    ∀ j q requestId, ((atomicMachine cfg).settle i c P s p).procs j = some q →
      q.call.subject = some requestId → q.call.svc cfg = .op q.op q.next := by
  intro j q requestId hq hsubject
  rcases eq_or_ne j i with rfl | hne
  · obtain ⟨hcall, hop⟩ := Machine.procs_settle_self hq
    rw [hcall] at hsubject ⊢
    rw [hp requestId q.op q.next hsubject hop, hop]
  · rw [Machine.procs_settle_of_ne hne] at hq
    exact hcode j q requestId hq hsubject

/-- A pending request has no decision. -/
theorem DecidedOnce.undecided {requestId : ℕ} {row : TimeOffRequest} (h : DecidedOnce cfg P)
    (hrow : P.shared.store.request? requestId = some row) (hpending : row.status = .pending) :
    P.shared.history.returned.filter (fun e => e.1.subject = some requestId) = [] := by
  refine List.filter_eq_nil_iff.mpr fun e he hsubject => ?_
  have hsubject : e.1.subject = some requestId := by simpa using hsubject
  obtain ⟨row', hrow', hid, _, _, hgives⟩ := h.holds e.1 e.2 he (by rw [hsubject]; rfl)
  have hrow'' : P.shared.store.request? requestId = some row' :=
    Store.request?_eq_some.mpr ⟨hrow', Option.some.inj (hid.symm.trans hsubject)⟩
  obtain rfl := Option.some.inj (hrow.symm.trans hrow'')
  exact hgives.decided hpending

/-- The transaction of a decision ends, and with it the call. -/
theorem DecidedOnce.decide {C : AtomicPool → Act Call AtomicChoice Env → Prop} {i : ℕ}
    {x : AtomicChoice} {q : Waiting Call Op Op.Resp Err (Option RequestBody)} {requestId : ℕ}
    (h : DecidedOnce cfg P) (hC : C P (.step i x)) (hq : P.procs i = some q)
    (hsubject : q.call.subject = some requestId)
    (ha : (atomicMachine cfg).step P (.step i x) = some P') : DecidedOnce cfg P' := by
  have hcode := h.code i q requestId hq hsubject
  obtain ⟨body, hbody, hsvc⟩ := decision_svc cfg hsubject
  obtain ⟨c, o, k⟩ := q
  dsimp only at hsubject hcode hsvc
  -- the transaction is all of the call
  have hop := hcode.symm.trans hsvc
  cases hop
  have hstep := ha
  obtain ⟨q, hq', ha⟩ := Option.bind_eq_some_iff.mp ha
  obtain rfl := Option.some.inj (hq.symm.trans hq')
  obtain ⟨⟨r, s'⟩, hr, rfl⟩ := Option.map_eq_some_iff.mp ha
  change Op.exec i (.transaction body) x P.shared = some (r, s') at hr
  have hsame := opExec_sameCalls hr
  have hends : (∃ v, r = .ok v ∧ Answers c requestId P.shared (.ok v) s') ∨
      ∃ e, r = .error e := by
    rcases exec_transaction hr with ⟨_, _, rfl, _⟩ | ⟨xs, commit, hx⟩
    · exact .inr ⟨_, rfl⟩
    rcases atomically_ends (hbody P.shared) hx with hok | ⟨e, he, _⟩
    · exact .inl hok
    · exact .inr ⟨e, he⟩
  obtain ⟨v, rfl, hanswers⟩ | ⟨e, rfl⟩ := hends
  · obtain ⟨old, new, hold, hpending, hnew, hasked, hgives, rfl⟩ := hanswers v rfl
    obtain ⟨hlived, hwithin⟩ := (lives cfg C).step hC h.within hstep
    obtain ⟨hidle, hevolves⟩ := hlived h.idle
    obtain ⟨hmem, hid⟩ := Store.request?_eq_some.mp hnew
    refine ⟨hidle, hwithin, code_settle h.code fun _ _ _ _ hp => (nomatch hp), ?_, fun id => ?_⟩
    · intro c' body' hreturned hsome
      rcases List.mem_cons.mp hreturned with heq | hreturned
      · cases heq
        exact ⟨new, hmem, hid ▸ hsubject, rfl, rfl, hgives⟩
      · rw [hsame.returned] at hreturned
        exact hevolves.holds (h.holds c' body' hreturned hsome)
    · change (List.filter _ ((c, serializeRequest new) :: s'.history.returned)).length ≤ 1
      rw [hsame.returned]
      by_cases heq : c.subject = some id
      -- a request that was pending had no decision yet
      · obtain rfl : requestId = id := Option.some.inj (hsubject.symm.trans heq)
        rw [List.filter_cons_of_pos (by simpa using heq), h.undecided hold hpending]
        rfl
      · rw [List.filter_cons_of_neg (by simpa using heq)]
        exact h.once id
  · refine h.quiet hC hstep (code_settle h.code fun _ _ _ _ hp => nomatch hp)
      (fun e' he' => .inl ?_) fun id => ?_
    · exact hsame.returned ▸ he'
    · exact congrArg (List.filter _) hsame.returned

theorem DecidedOnce.step {C : AtomicPool → Act Call AtomicChoice Env → Prop}
    {a : Act Call AtomicChoice Env} (h : DecidedOnce cfg P) (hC : C P a)
    (ha : (atomicMachine cfg).step P a = some P') : DecidedOnce cfg P' := by
  have hstep := ha
  -- the actions that end no decision leave its answers as they are
  have hquiet {i : ℕ} {c : Call} {s : World} {p : Prog Op Op.Resp Err (Option RequestBody)}
      {Q : AtomicPool} (hP' : (atomicMachine cfg).settle i c Q s p = P')
      (hprocs : Q.procs = P.procs) (hs : s.history.returned = P.shared.history.returned)
      (hc : c.subject = none) : DecidedOnce cfg P' := by
    obtain ⟨hreturned, hdecisions⟩ := settle_undecided cfg hc Q
    rw [hP'] at hreturned hdecisions
    refine h.quiet hC hstep ?_ (fun e he => hs ▸ hreturned e he) fun id =>
      (hdecisions id).trans (congrArg (List.filter _) hs)
    rw [← hP']
    refine code_settle (fun j q => ?_) fun _ _ _ hsubject => ?_
    · rw [hprocs]
      exact fun id => h.code j q id
    · rw [hc] at hsubject
      cases hsubject
  cases a with
  | start c =>
    obtain ⟨s', hs, hP'⟩ := Option.map_eq_some_iff.mp ha
    have hreturned := (accept_frame hs).2.2
    cases hsubject : c.subject with
    | none => exact hquiet hP' rfl hreturned hsubject
    | some requestId =>
      -- the call waits for its transaction, so nothing is answered yet
      obtain ⟨body, _, hsvc⟩ := decision_svc cfg hsubject
      have hcode := code_settle (i := P.next) (c := c) (s := s') (p := c.svc cfg)
        (P := { P with next := P.next + 1 }) h.code fun _ _ _ _ _ => rfl
      have hshared : P'.shared = s' := by
        rw [← hP']
        change ((atomicMachine cfg).settle _ _ _ _ (c.svc cfg)).shared = s'
        rw [hsvc]
        rfl
      refine h.quiet hC hstep (fun j q => ?_) (fun e he => .inl ?_) fun id => ?_
      · rw [← hP']
        exact fun id => hcode j q id
      · rw [hshared, hreturned] at he
        exact he
      · rw [hshared]
        exact congrArg (List.filter _) hreturned
  | step i x =>
    obtain ⟨q, hq, ha⟩ := Option.bind_eq_some_iff.mp ha
    cases hsubject : q.call.subject with
    | some requestId => exact h.decide hC hq hsubject hstep
    | none =>
      obtain ⟨⟨r, s'⟩, hr, hP'⟩ := Option.map_eq_some_iff.mp ha
      exact hquiet hP' rfl (opExec_sameCalls hr).returned hsubject
  | env e =>
    obtain ⟨s', hs, rfl⟩ := Option.map_eq_some_iff.mp ha
    have hreturned := (env_sameCalls hs).2.returned
    exact h.quiet hC hstep h.code (fun e he => .inl (hreturned ▸ he)) fun id =>
      congrArg (List.filter _) hreturned
  | halt =>
    cases ha
    exact h.quiet hC hstep (fun i q _ hq => nomatch hq) (fun e he => .inl he) fun id => rfl

/-- From any tables on, every request keeps its row, what was asked of it and, once it has one,
its verdict; of the decisions on a request at most one is answered, with the verdict that its row
has from then on. -/
theorem decided_once (cfg : Config) (start : Store) (clock nextId : ℕ) (hcm : MockHcm)
    {P P' : AtomicPool}
    (hP : (atomicMachine cfg).Reach (fun _ _ => True)
      (Pool.init (World.init start clock nextId hcm)) P)
    (hP' : (atomicMachine cfg).Reach (fun _ _ => True) P P') :
    P.shared.store.Evolves P'.shared.store ∧
      (∀ requestId, (P'.shared.history.decisionsOf requestId).length ≤ 1) ∧
      ∀ c body, (c, body) ∈ P.shared.history.returned → c.subject.isSome = true →
        P'.shared.store.Holds c body := by
  have hinit : DecidedOnce cfg (Pool.init (World.init start clock nextId hcm)) :=
    ⟨rfl, Machine.Moves.within_init _, fun _ _ _ h => (nomatch h), fun _ _ h => (nomatch h),
      fun _ => Nat.zero_le _⟩
  have hstep (Q : AtomicPool) (a : Act Call AtomicChoice Env) (Q' : AtomicPool)
      (h : DecidedOnce cfg Q) (hC : True) (ha : (atomicMachine cfg).step Q a = some Q') :
      DecidedOnce cfg Q' :=
    h.step (C := fun _ _ => True) hC ha
  have hbefore := Machine.Reach.inv (DecidedOnce cfg) hinit hstep hP
  have hafter := Machine.Reach.inv (DecidedOnce cfg) hbefore hstep hP'
  have hevolves := (((lives cfg fun _ _ => True).reach hbefore.within hP').1 hbefore.idle).2
  refine ⟨hevolves, hafter.once, fun c body hmem hsome => ?_⟩
  exact hevolves.holds (hbefore.holds c body hmem hsome)

/-- A request of two days is approved while its cancellation waits. -/
def approvedFirst : List (Act Call AtomicChoice Env) :=
  .start (.upsert plainKey (some 10)) :: (steps 3).map (.step 0) ++
    .start (.create (plainDto "2030-01-07" "2030-01-08") "key-1") ::
      (steps 5 ++ [committed 7] ++ steps 2).map (.step 1) ++
    [.start (.approve 0 "MGR1"), .start (.cancel 0 none), .step 2 (committed 6)]

def cancelledLate : List (Act Call AtomicChoice Env) := [.step 3 (.transaction [.go] .go)]

theorem approvedFirst_runs : ((atomicMachine plainConfig).run (fun _ _ => True)
    (Pool.init (World.init .empty 1000 0 (.init []))) approvedFirst).isSome = true := by
  decide +kernel

theorem cancelledLate_runs : ((atomicMachine plainConfig).run (fun _ _ => True)
    (((atomicMachine plainConfig).run (fun _ _ => True)
      (Pool.init (World.init .empty 1000 0 (.init []))) approvedFirst).get approvedFirst_runs)
    cancelledLate).isSome = true := by
  decide +kernel

/-- The approval is answered and the cancellation refused. -/
theorem approval_stands : ∃ P P' : AtomicPool,
    (atomicMachine plainConfig).run (fun _ _ => True)
        (Pool.init (World.init .empty 1000 0 (.init []))) approvedFirst = some P ∧
      (atomicMachine plainConfig).run (fun _ _ => True) P cancelledLate = some P' ∧
      (P'.shared.history.decisionsOf 0).length ≤ 1 ∧
      ∀ c body, (c, body) ∈ P.shared.history.returned → c.subject.isSome = true →
        P'.shared.store.Holds c body := by
  have hrun := (Option.some_get approvedFirst_runs).symm
  have hrun' := (Option.some_get cancelledLate_runs).symm
  obtain ⟨_, honce, hholds⟩ := decided_once plainConfig .empty 1000 0 (.init [])
    (Machine.reach_of_run .refl hrun) (Machine.reach_of_run .refl hrun')
  exact ⟨_, _, hrun, hrun', honce 0, hholds⟩

end Runs

end TimeOff
