import TimeOff.AsyncEval
import TimeOff.RetryQueue

/-! A pass of the retry worker while the database and the HCM answer: what becomes of a request
is read off its row and the balance that the HCM has when its turn comes. -/
namespace TimeOff

open Async

section Verdicts

/-- What the sync of a request comes to. -/
inductive SyncVerdict
  | givenUp
  | skipped
  | invalid
  | valid
  | deducted
  | refused
  deriving DecidableEq

/-- The verdict on a request whose days the HCM knows to be available, or not. -/
def validatedVerdict (h : MockHcm) (row : TimeOffRequest) : SyncVerdict :=
  match row.status with
  | .approved =>
    if (h.balance row.balanceKey).availableBalance < row.daysRequested then .refused
    else .deducted
  | _ => .valid

/-- The days are known to be available, from an earlier validation or from one now. -/
def MockHcm.knowsValid (h : MockHcm) (row : TimeOffRequest) : Bool :=
  row.hcmValidated || (h.validate row.balanceKey (some row.daysRequested)).valid = some true

def syncVerdict (h : MockHcm) (row : TimeOffRequest) : SyncVerdict :=
  if maxPendingSyncRetries ≤ row.hcmSyncAttempts then .givenUp
  else if row.status = .rejected ∨ row.status = .cancelled then .skipped
  else if h.knowsValid row then validatedVerdict h row
  else .invalid

/-- The columns that a verdict writes. -/
def SyncVerdict.patch (row : TimeOffRequest) (now : ℕ) : SyncVerdict → RequestPatch
  -- a request that is given up has no attempt counted
  | givenUp => { hcmSyncStatus := some .failed, hcmLastSyncAt := some (some now) }
  | skipped =>
    { hcmSyncStatus := some .skipped
      hcmSyncAttempts := some (row.hcmSyncAttempts + 1)
      hcmLastSyncAt := some (some now) }
  | invalid =>
    { hcmSyncStatus := some .failed
      hcmValidated := some false
      hcmSyncAttempts := some (row.hcmSyncAttempts + 1)
      hcmLastSyncAt := some (some now) }
  | refused =>
    { hcmSyncStatus := some .pending
      hcmValidated := some true
      hcmSyncAttempts := some (row.hcmSyncAttempts + 1)
      hcmLastSyncAt := some (some now) }
  | _ =>
    { hcmSyncStatus := some .success
      hcmValidated := some true
      hcmSyncAttempts := some (row.hcmSyncAttempts + 1)
      hcmLastSyncAt := some (some now) }

/-- What a verdict does at the HCM. -/
def SyncVerdict.books (row : TimeOffRequest) (h : MockHcm) : SyncVerdict → MockHcm
  | deducted => (h.putBalance ⟨row.balanceKey, row.daysRequested, row.id⟩).2
  | refused => (h.putBalance ⟨row.balanceKey, row.daysRequested, row.id⟩).2
  | _ => h

/-- The verdicts on requests that are served in turn, and the HCM after them. -/
def syncInTurn : List TimeOffRequest → MockHcm → List (TimeOffRequest × SyncVerdict) × MockHcm
  | [], h => ([], h)
  | row :: rest, h =>
    let v := syncVerdict h row
    let r := syncInTurn rest (v.books row h)
    ((row, v) :: r.1, r.2)

/-- The balances of the HCM and what was subtracted from them. -/
structure MockHcm.SameBooks (h h' : MockHcm) : Prop where
  balances : h'.hcmBalances = h.hcmBalances
  deducted : h'.deducted = h.deducted

/-- The requests under way have numbers that were given out. -/
def MockHcm.Numbered (h : MockHcm) : Prop := ∀ e ∈ h.inTransit, e.1 < h.nextMessage

end Verdicts

section Hcm

variable {h h' h'' : MockHcm} {put : PutBalance} {row : TimeOffRequest}

theorem MockHcm.SameBooks.refl (h : MockHcm) : h.SameBooks h := ⟨rfl, rfl⟩

theorem MockHcm.SameBooks.trans (h₁ : h.SameBooks h') (h₂ : h'.SameBooks h'') : h.SameBooks h'' :=
  ⟨h₂.balances.trans h₁.balances, h₂.deducted.trans h₁.deducted⟩

theorem MockHcm.SameBooks.balance (hs : h.SameBooks h') (key : BalanceKey) :
    h'.balance key = h.balance key := by
  unfold MockHcm.balance
  rw [hs.balances]

theorem MockHcm.SameBooks.validate (hs : h.SameBooks h') (key : BalanceKey) (days : Num) :
    h'.validate key days = h.validate key days := by
  unfold MockHcm.validate
  rw [hs.balances]

/-- The reply to a PUT and what it does to the books depend on the books only. -/
theorem MockHcm.SameBooks.putBalance (hs : h.SameBooks h') (put : PutBalance) :
    (h'.putBalance put).1 = (h.putBalance put).1 ∧
      (h.putBalance put).2.SameBooks (h'.putBalance put).2 := by
  unfold MockHcm.putBalance
  dsimp only
  rw [hs.balance put.key]
  split
  · refine ⟨rfl, ?_, hs.deducted⟩
    simp only [MockHcm.setBalance, hs.balances]
  · refine ⟨rfl, ?_, ?_⟩
    · simp only [MockHcm.setBalance, hs.balances]
    · simp only [hs.deducted]

theorem MockHcm.SameBooks.verdict (hs : h.SameBooks h') (row : TimeOffRequest) :
    syncVerdict h' row = syncVerdict h row := by
  unfold syncVerdict MockHcm.knowsValid validatedVerdict
  rw [hs.validate, hs.balance]

theorem MockHcm.SameBooks.books (hs : h.SameBooks h') (row : TimeOffRequest) (v : SyncVerdict) :
    (v.books row h).SameBooks (v.books row h') := by
  cases v with
  | deducted => exact (hs.putBalance _).2
  | refused => exact (hs.putBalance _).2
  | _ => exact hs

theorem MockHcm.SameBooks.inTurn (hs : h.SameBooks h') (rows : List TimeOffRequest) :
    (syncInTurn rows h').1 = (syncInTurn rows h).1 ∧
      (syncInTurn rows h).2.SameBooks (syncInTurn rows h').2 := by
  induction rows generalizing h h' with
  | nil => exact ⟨rfl, hs⟩
  | cons row rest ih =>
    have hrest := ih (hs.books row (syncVerdict h row))
    unfold syncInTurn
    dsimp only
    rw [hs.verdict row]
    exact ⟨congrArg _ hrest.1, hrest.2⟩

theorem MockHcm.numbered_putBalance (hn : h.Numbered) (put : PutBalance) :
    (h.putBalance put).2.Numbered := by
  unfold MockHcm.putBalance
  dsimp only
  split <;> exact hn

theorem MockHcm.Numbered.send (hn : h.Numbered) (put : PutBalance) :
    (h.send put).2.Numbered := by
  intro e he
  rcases List.mem_append.mp he with hold | hnew
  · exact Nat.lt_succ_of_lt (hn e hold)
  · rw [List.mem_singleton.mp hnew]
    exact Nat.lt_succ_self _

/-- A PUT that is sent and handled at once. -/
theorem MockHcm.deliver_send (hn : h.Numbered) (put : PutBalance) :
    ∃ h', (h.send put).2.deliver h.nextMessage = some h' ∧
      h'.answers.lookup h.nextMessage = some (h.putBalance put).1 ∧
        (h.putBalance put).2.SameBooks h' ∧ h'.Numbered := by
  have hlookup : (h.send put).2.inTransit.lookup h.nextMessage = some put := by
    have hnone : h.inTransit.lookup h.nextMessage = none := by
      rw [List.lookup_eq_none_iff]
      intro e he
      have hlt := hn e he
      exact bne_iff_ne.mpr hlt.ne'
    change (h.inTransit ++ [(h.nextMessage, put)]).lookup h.nextMessage = _
    rw [List.lookup_append, hnone]
    simp
  have hsame : h.SameBooks ((h.send put).2.remove h.nextMessage) := ⟨rfl, rfl⟩
  have hkept : ((h.send put).2.remove h.nextMessage).Numbered := by
    intro e he
    exact hn.send put e (List.mem_of_mem_filter he)
  obtain ⟨hreply, hbooks⟩ := hsame.putBalance put
  refine ⟨_, congrArg (Option.map _) hlookup, ?_, ⟨hbooks.balances, hbooks.deducted⟩, ?_⟩
  · rw [← hreply]
    exact List.lookup_cons_self
  · exact MockHcm.numbered_putBalance hkept put

end Hcm

section Answers

/-- One operation of the worker, process `i`, when the database and the HCM answer. -/
def Op.responsive (i : ℕ) : (o : Op) → World → Option (Except Err o.Resp × World)
  | .base (.validateRequest key days), w =>
    (BaseOp.validateRequest key days).exec i (.validated (some (w.hcm.validate key days))) w
  -- a PUT whose reply is awaited arrives
  | .base (.awaitPut message put), w =>
    ((Env.deliver message).exec w).bind ((BaseOp.awaitPut message put).exec i .delivered)
  | .base o, w => o.exec i .go w
  | .transaction _, _ => none

/-- The world of the worker, and how long each of its next operations takes. -/
structure AnsweredState where
  world : World
  waits : ℕ → ℕ

def AnsweredState.exec (i : ℕ) (o : Op) (s : AnsweredState) :
    Option (Except Err o.Resp × AnsweredState) :=
  (o.responsive i (s.world.later (s.waits 0))).map fun r => (r.1, ⟨r.2, fun n => s.waits (n + 1)⟩)

/-- A pass of the worker, as process `i`, from `w` to its end in `w'`. -/
def AnsweredPass (cfg : Config) (i : ℕ) (w w' : World) : Prop :=
  ∃ waits waits', (retryPendingHcmSyncs cfg).eval (AnsweredState.exec i) ⟨w, waits⟩ =
    some (.ok (), ⟨w', waits'⟩)

/-- Up to what the HCM does with messages, nothing has changed. -/
structure SameState (w w' : World) : Prop where
  store : w'.store = w.store
  books : w.hcm.SameBooks w'.hcm
  numbered : w'.hcm.Numbered

theorem SameState.refl {w : World} (hn : w.hcm.Numbered) : SameState w w := ⟨rfl, .refl _, hn⟩

theorem SameState.later {w w' : World} (h : SameState w w') (ms : ℕ) : SameState w (w'.later ms) :=
  ⟨h.store, h.books, h.numbered⟩

variable {i : ℕ} {β γ : Type} {s : AnsweredState} {w : World}

/-- The program ends with `r`, and leaves a world that satisfies `Q`. -/
def Comes (i : ℕ) (p : Svc β) (s : AnsweredState) (r : Except Err β) (Q : World → Prop) : Prop :=
  ∃ s', p.eval (AnsweredState.exec i) s = some (r, s') ∧ Q s'.world

theorem Comes.bind {p : Svc β} {f : β → Svc γ} {b : β} {r : Except Err γ} {Q Q' : World → Prop}
    (h : Comes i p s (.ok b) Q) (hf : ∀ s', Q s'.world → Comes i (f b) s' r Q') :
    Comes i (p.bind f) s r Q' := by
  obtain ⟨s', hp, hQ⟩ := h
  obtain ⟨s'', hk, hQ'⟩ := hf s' hQ
  exact ⟨s'', (Prog.eval_bind_ok hp).trans hk, hQ'⟩

theorem Comes.mono {p : Svc β} {r : Except Err β} {Q Q' : World → Prop} (h : Comes i p s r Q)
    (hQ : ∀ w, Q w → Q' w) : Comes i p s r Q' := by
  obtain ⟨s', hp, hs'⟩ := h
  exact ⟨s', hp, hQ _ hs'⟩

/-- An operation that can be answered is. -/
theorem comes_base {o : BaseOp} {r : Except Err o.Resp} {u : World}
    (h : Op.responsive i (.base o) (s.world.later (s.waits 0)) = some (r, u)) {Q : World → Prop}
    (hQ : Q u) : Comes i (Svc.base o) s r Q := by
  refine ⟨⟨u, fun n => s.waits (n + 1)⟩, Prog.eval_perform ?_, hQ⟩
  exact congrArg (Option.map _) h

/-- Reading the clock only takes time. -/
theorem comes_now {f : ℕ → Svc β} {r : Except Err β} {I Q : World → Prop}
    (hI : ∀ ms, I (s.world.later ms)) (hf : ∀ now s', I s'.world → Comes i (f now) s' r Q) :
    Comes i (Svc.now.bind f) s r Q := by
  have hnow : Comes i Svc.now s (.ok (s.world.later (s.waits 0)).clock) I := by
    refine comes_base ?_ (hI (s.waits 0))
    rfl
  exact hnow.bind fun s' hs' => hf _ s' hs'

/-- The HCM validates by its balances. -/
theorem comes_validate (hs : SameState w s.world) (key : BalanceKey) (days : Num) :
    Comes i (validateRequest key days) s (.ok (some (w.hcm.validate key days))) (SameState w) := by
  rw [← hs.books.validate]
  refine comes_base ?_ (hs.later (s.waits 0))
  rfl

/-- A PUT was handled. -/
structure PutHandled (put : PutBalance) (w w' : World) : Prop where
  store : w'.store = w.store
  books : (w.hcm.putBalance put).2.SameBooks w'.hcm
  numbered : w'.hcm.Numbered

/-- A PUT is subtracted or refused. -/
theorem comes_put (hs : SameState w s.world) (put : PutBalance) :
    Comes i (putBalance put) s ((w.hcm.putBalance put).1.mapError .hcm) (PutHandled put w) := by
  have hu : SameState w (s.world.later (s.waits 0)) := hs.later _
  generalize hw : s.world.later (s.waits 0) = u at hu
  obtain ⟨hcm, hdeliver, hlookup, hbooks, hnumbered⟩ := MockHcm.deliver_send hu.numbered put
  obtain ⟨hreply, hafter⟩ := hu.books.putBalance put
  have hsent : Comes i (Svc.base (.sendPut put)) s (.ok u.hcm.nextMessage) fun w' =>
      w'.store = w.store ∧ w'.hcm = (u.hcm.send put).2 := by
    refine comes_base (u := { u with hcm := (u.hcm.send put).2 }) ?_ ⟨hu.store, rfl⟩
    rw [hw]
    rfl
  refine hsent.bind fun s' hs' => ?_
  generalize hlate : s'.world.later (s'.waits 0) = v
  have hv : v.store = w.store ∧ v.hcm = (u.hcm.send put).2 := by
    rw [← hlate]
    exact hs'
  refine comes_base (u := { v with hcm }.acknowledge put.referenceId
    ((w.hcm.putBalance put).1.mapError .hcm)) ?_ ?_
  · rw [hlate]
    change (Option.map _ (v.hcm.deliver u.hcm.nextMessage)).bind _ = _
    rw [hv.2, hdeliver]
    change Option.map _ (Option.map _ (hcm.answers.lookup u.hcm.nextMessage)) = _
    rw [hlookup, hreply]
    cases (w.hcm.putBalance put).1 <;> rfl
  · have hsame : ({ v with hcm }.acknowledge put.referenceId
        ((w.hcm.putBalance put).1.mapError .hcm)).hcm = hcm := (World.acknowledge_hcm _ _).1
    refine ⟨(World.acknowledge_tables _ _).1.trans hv.1, ?_, ?_⟩
    · rw [hsame]
      exact hafter.trans hbooks
    · rw [hsame]
      exact hnumbered

section Resilience

variable {cfg : Config} {fn : Svc β} {Q : World → Prop}

theorem Comes.resilient (hcfg : 0 < cfg.retryMaxAttempts) {b : β} (h : Comes i fn s (.ok b) Q) :
    Comes i (callWithResilience cfg fn) s (.ok (some b)) Q := by
  obtain ⟨s', hfn, hQ⟩ := h
  obtain ⟨n, hn⟩ := Nat.exists_eq_succ_of_ne_zero hcfg.ne'
  have hretry : (withRetry cfg fn).eval (AnsweredState.exec i) s = some (.ok b, s') := by
    rw [withRetry, hn]
    exact Prog.eval_handle_ok hfn
  exact ⟨s', Prog.eval_handle_ok (Prog.eval_bind_ok hretry), hQ⟩

/-- An error that is not retried is final. -/
theorem Comes.resilient_final (hcfg : 0 < cfg.retryMaxAttempts) {e : Err}
    (h : Comes i fn s (.error e) Q) (he : isRetryable e = false) (hne : e ≠ .undefined) :
    Comes i (callWithResilience cfg fn) s (.ok none) Q := by
  obtain ⟨s', hfn, hQ⟩ := h
  obtain ⟨n, hn⟩ := Nat.exists_eq_succ_of_ne_zero hcfg.ne'
  have hretry : (withRetry cfg fn).eval (AnsweredState.exec i) s = some (.error e, s') := by
    rw [withRetry, hn, retryFrom, Prog.eval_handle_error hfn, he, Bool.not_false, Bool.or_true,
      if_pos rfl]
    rfl
  refine ⟨s', ?_, hQ⟩
  rw [callWithResilience, Prog.eval_handle_error (Prog.eval_bind_error hretry), if_neg hne]
  rfl

end Resilience

/-- A PUT that the HCM has the days for is acknowledged; another is refused and not tried
again. -/
theorem comes_notifyApproval {cfg : Config} (hcfg : 0 < cfg.retryMaxAttempts)
    (hs : SameState w s.world) (key : BalanceKey) (days : ℚ) (requestId : ℕ) :
    Comes i (notifyApproval cfg key days requestId) s
      (.ok (if (w.hcm.balance key).availableBalance < days then none else some ⟨some true⟩))
      (PutHandled ⟨key, days, requestId⟩ w) := by
  have hput := comes_put (i := i) hs ⟨key, days, requestId⟩
  by_cases hshort : (w.hcm.balance key).availableBalance < days
  · have hreply : (w.hcm.putBalance ⟨key, days, requestId⟩).1 = .error (.response 422) := by
      rw [MockHcm.putBalance, if_pos hshort]
    rw [if_pos hshort]
    rw [hreply] at hput
    exact hput.resilient_final hcfg rfl (by simp)
  · have hreply : (w.hcm.putBalance ⟨key, days, requestId⟩).1 = .ok ⟨some true⟩ := by
      rw [MockHcm.putBalance, if_neg hshort]
    rw [if_neg hshort]
    rw [hreply] at hput
    exact hput.resilient hcfg

end Answers

section Requests

variable {i : ℕ} {s : AnsweredState} {w w' : World} {row : TimeOffRequest}

/-- A request was served with verdict `v`. -/
structure RowServed (row : TimeOffRequest) (v : SyncVerdict) (w w' : World) : Prop where
  requests : ∃ now at', w'.store.requests =
    w.store.requests.map (writtenBy row.id (v.patch row now) at')
  books : (v.books row w.hcm).SameBooks w'.hcm
  numbered : w'.hcm.Numbered

/-- The HCM has done what the verdict says, and the row is not written yet. -/
structure Judged (row : TimeOffRequest) (v : SyncVerdict) (w w' : World) : Prop where
  store : w'.store = w.store
  books : (v.books row w.hcm).SameBooks w'.hcm
  numbered : w'.hcm.Numbered

theorem Judged.later {v : SyncVerdict} (h : Judged row v w w') (ms : ℕ) :
    Judged row v w (w'.later ms) := ⟨h.store, h.books, h.numbered⟩

/-- A verdict that leaves the HCM alone. -/
theorem SameState.judged {v : SyncVerdict} (h : SameState w w') (hv : v.books row w.hcm = w.hcm) :
    Judged row v w w' := by
  refine ⟨h.store, ?_, h.numbered⟩
  rw [hv]
  exact h.books

theorem comes_updateRequest {v : SyncVerdict} (hs : Judged row v w s.world) (now : ℕ) :
    Comes i (updateRequest row.id (v.patch row now)) s (.ok ()) (RowServed row v w) := by
  have hu := hs.later (s.waits 0)
  have hsaved : Comes i (Svc.db (.saveRequest row.id (v.patch row now))) s (.ok ())
      (RowServed row v w) := by
    refine comes_base (u := ((s.world.later (s.waits 0)).db
      (.saveRequest row.id (v.patch row now))).2.load i []) rfl
      ⟨⟨now, (s.world.later (s.waits 0)).clock, ?_⟩, hu.books, hu.numbered⟩
    rw [← hu.store]
    rfl
  exact hsaved.bind fun s' hs' => ⟨s', rfl, hs'⟩

theorem comes_updateSyncAttempt {v : SyncVerdict} {patch : RequestPatch}
    (hs : Judged row v w s.world)
    (hpatch : ∀ now, { patch with
      hcmSyncAttempts := some (row.hcmSyncAttempts + 1)
      hcmLastSyncAt := some (some now) } = v.patch row now) :
    Comes i (updateSyncAttempt row patch) s (.ok ()) (RowServed row v w) := by
  refine comes_now (I := Judged row v w) (fun ms => hs.later ms) fun now s' hs' => ?_
  rw [hpatch now]
  exact comes_updateRequest hs' now

/-- From `notifyApproval` on. -/
theorem comes_retryApproval {cfg : Config} (hcfg : 0 < cfg.retryMaxAttempts)
    (hs : SameState w s.world) (hstatus : row.status = .approved) :
    Comes i (retryApproval cfg row true) s (.ok ())
      (RowServed row (validatedVerdict w.hcm row) w) := by
  refine (comes_notifyApproval hcfg hs row.balanceKey row.daysRequested row.id).bind
    fun s' hs' => ?_
  unfold validatedVerdict
  rw [hstatus]
  dsimp only
  by_cases hshort : (w.hcm.balance row.balanceKey).availableBalance < row.daysRequested
  · rw [if_pos hshort, if_pos hshort]
    exact comes_updateSyncAttempt ⟨hs'.store, hs'.books, hs'.numbered⟩ fun _ => rfl
  · rw [if_neg hshort, if_neg hshort]
    exact comes_updateSyncAttempt ⟨hs'.store, hs'.books, hs'.numbered⟩ fun _ => rfl

/-- What the worker goes on with: an earlier validation stands, else the HCM is asked. -/
theorem comes_validation (hs : SameState w s.world) (row : TimeOffRequest) :
    ∃ reply, Comes i (if row.hcmValidated then pure (some ⟨some true⟩)
      else validateRequest row.balanceKey (some row.daysRequested) : Svc (Option ValidateReply)) s
        (.ok (some reply)) (SameState w) ∧
      (reply.valid = some true ↔ w.hcm.knowsValid row = true) := by
  unfold MockHcm.knowsValid
  by_cases hvalidated : row.hcmValidated
  · rw [if_pos hvalidated, hvalidated]
    exact ⟨⟨some true⟩, ⟨s, rfl, hs⟩, by simp⟩
  · rw [if_neg hvalidated, Bool.eq_false_iff.mpr hvalidated]
    exact ⟨_, comes_validate hs _ _, by simp⟩

theorem comes_retryValidationOnly (hs : SameState w s.world) (hstatus : row.status = .pending) :
    Comes i (retryValidationOnly row) s (.ok ()) (RowServed row
      (if w.hcm.knowsValid row then validatedVerdict w.hcm row else .invalid) w) := by
  have hverdict : validatedVerdict w.hcm row = .valid := by
    rw [validatedVerdict, hstatus]
  rw [hverdict]
  obtain ⟨reply, hreply, hyes⟩ := comes_validation hs row
  refine hreply.bind fun s' hs' => ?_
  dsimp only
  -- anything but an explicit yes ends the sync
  by_cases hvalid : reply.valid = some true
  · rw [if_neg (not_not.mpr hvalid), if_pos (hyes.mp hvalid)]
    exact comes_updateSyncAttempt (v := .valid) (hs'.judged rfl) fun _ => rfl
  · rw [if_pos hvalid, if_neg (mt hyes.mpr hvalid)]
    exact comes_updateSyncAttempt (v := .invalid) (hs'.judged rfl) fun _ => rfl

theorem comes_retryApprovalFlow {cfg : Config} (hcfg : 0 < cfg.retryMaxAttempts)
    (hs : SameState w s.world) (hstatus : row.status = .approved) :
    Comes i (retryApprovalFlow cfg row) s (.ok ()) (RowServed row
      (if w.hcm.knowsValid row then validatedVerdict w.hcm row else .invalid) w) := by
  unfold retryApprovalFlow
  by_cases hvalidated : row.hcmValidated
  · have hknown : w.hcm.knowsValid row = true := by
      rw [MockHcm.knowsValid, hvalidated, Bool.true_or]
    rw [if_pos hvalidated, if_pos hknown]
    exact comes_retryApproval hcfg hs hstatus
  have hknown : w.hcm.knowsValid row = true ↔
      (w.hcm.validate row.balanceKey (some row.daysRequested)).valid = some true := by
    rw [MockHcm.knowsValid, Bool.eq_false_iff.mpr hvalidated, Bool.false_or, decide_eq_true_eq]
  rw [if_neg hvalidated]
  refine (comes_validate hs row.balanceKey (some row.daysRequested)).bind fun s' hs' => ?_
  dsimp only
  by_cases hvalid : (w.hcm.validate row.balanceKey (some row.daysRequested)).valid = some true
  · rw [if_neg (not_not.mpr hvalid), if_pos (hknown.mpr hvalid)]
    exact comes_retryApproval hcfg hs' hstatus
  · rw [if_pos hvalid, if_neg (mt hknown.mp hvalid)]
    exact comes_updateSyncAttempt (v := .invalid) (hs'.judged rfl) fun _ => rfl

theorem comes_retryRequest {cfg : Config} (hcfg : 0 < cfg.retryMaxAttempts)
    (hs : SameState w s.world) :
    Comes i (retryRequest cfg row) s (.ok ()) (RowServed row (syncVerdict w.hcm row) w) := by
  unfold retryRequest syncVerdict
  by_cases hattempts : maxPendingSyncRetries ≤ row.hcmSyncAttempts
  · rw [if_pos hattempts, if_pos hattempts]
    have hjudged : Judged row .givenUp w s.world := hs.judged rfl
    exact comes_now (I := Judged row .givenUp w) (fun ms => hjudged.later ms) fun now s' hs' =>
      comes_updateRequest hs' now
  rw [if_neg hattempts, if_neg hattempts]
  have hbranch : Comes i (retryByStatus cfg row) s (.ok ()) (RowServed row
      (if row.status = .rejected ∨ row.status = .cancelled then .skipped
      else if w.hcm.knowsValid row then validatedVerdict w.hcm row
      else .invalid) w) := by
    unfold retryByStatus
    cases hstatus : row.status with
    | rejected =>
      rw [if_pos (.inl rfl)]
      exact comes_updateSyncAttempt (v := .skipped) (hs.judged rfl) fun _ => rfl
    | cancelled =>
      rw [if_pos (.inr rfl)]
      exact comes_updateSyncAttempt (v := .skipped) (hs.judged rfl) fun _ => rfl
    | pending =>
      rw [if_neg (by simp)]
      exact comes_retryValidationOnly hs hstatus
    | approved =>
      rw [if_neg (by simp)]
      exact comes_retryApprovalFlow hcfg hs hstatus
  -- nothing is thrown for the worker to catch
  obtain ⟨s', hp, hs'⟩ := hbranch
  exact ⟨s', Prog.eval_handle_ok hp, hs'⟩

end Requests

section Pass

variable {cfg : Config} {i : ℕ} {s : AnsweredState} {w w' : World} {rows : List TimeOffRequest}

/-- Requests were served in turn, each with the verdict of its turn. -/
structure RowsServed (rows : List TimeOffRequest) (w w' : World) : Prop where
  requests : ∃ f, w'.store.requests = w.store.requests.map f ∧
    (∀ p ∈ (syncInTurn rows w.hcm).1, ∃ now at',
      f p.1 = writtenBy p.1.id (p.2.patch p.1 now) at' p.1) ∧
    ∀ r, r.id ∉ rows.map (·.id) → f r = r
  books : (syncInTurn rows w.hcm).2.SameBooks w'.hcm
  numbered : w'.hcm.Numbered

theorem writtenBy_of_ne {id now : ℕ} {patch : RequestPatch} {r : TimeOffRequest} (h : r.id ≠ id) :
    writtenBy id patch now r = r := if_neg h

theorem writtenBy_id (id now : ℕ) (patch : RequestPatch) (r : TimeOffRequest) :
    (writtenBy id patch now r).id = r.id := by
  unfold writtenBy
  split <;> rfl

theorem map_fst_syncInTurn (rows : List TimeOffRequest) (h : MockHcm) :
    (syncInTurn rows h).1.map Prod.fst = rows := by
  induction rows generalizing h with
  | nil => rfl
  | cons row rest ih => exact congrArg (row :: ·) (ih _)

/-- The first request is served, then the others. -/
theorem RowsServed.cons {row : TimeOffRequest} {u : World} (hfresh : row.id ∉ rows.map (·.id))
    (hrow : RowServed row (syncVerdict w.hcm row) w u) (hrest : RowsServed rows u w') :
    RowsServed (row :: rows) w w' := by
  obtain ⟨now, at', hfirst⟩ := hrow.requests
  obtain ⟨f, hrequests, hserved, hothers⟩ := hrest.requests
  obtain ⟨hverdicts, hbooks⟩ := hrow.books.inTurn rows
  refine ⟨⟨f ∘ writtenBy row.id ((syncVerdict w.hcm row).patch row now) at', ?_, ?_, ?_⟩, ?_,
    hrest.numbered⟩
  · rw [hrequests, hfirst, List.map_map]
  · intro p hp
    rcases List.mem_cons.mp hp with rfl | hp
    · refine ⟨now, at', ?_⟩
      apply hothers
      rw [writtenBy_id]
      exact hfresh
    -- the write of the first request does not meet the others
    · have hmem : p.1 ∈ rows := by
        rw [← map_fst_syncInTurn rows ((syncVerdict w.hcm row).books row w.hcm)]
        exact List.mem_map_of_mem hp
      have hne : p.1.id ≠ row.id := by
        intro heq
        rw [← heq] at hfresh
        exact hfresh (List.mem_map_of_mem hmem)
      rw [Function.comp_apply, writtenBy_of_ne hne]
      apply hserved
      rw [hverdicts]
      exact hp
  · intro r hr
    rw [List.map_cons, List.mem_cons, not_or] at hr
    rw [Function.comp_apply, writtenBy_of_ne hr.1]
    exact hothers r hr.2
  · exact hbooks.trans hrest.books

theorem comes_retryEach (hcfg : 0 < cfg.retryMaxAttempts) (hs : SameState w s.world)
    (hnodup : (rows.map (·.id)).Nodup) :
    Comes i (retryEach cfg rows) s (.ok ()) (RowsServed rows w) := by
  induction rows generalizing s w with
  | nil =>
    refine ⟨s, rfl, ⟨id, ?_, fun p hp => ?_, fun _ _ => rfl⟩, hs.books, hs.numbered⟩
    · rw [hs.store, List.map_id]
    · cases hp
  | cons row rest ih =>
    obtain ⟨hfresh, hrest⟩ := List.nodup_cons.mp hnodup
    refine (comes_retryRequest hcfg hs).bind fun s₁ hrow => ?_
    exact (ih (.refl hrow.numbered) hrest).mono fun w' => RowsServed.cons hfresh hrow

/-- A pass while the HCM answers comes to its end, and serves the requests it finds in turn. -/
theorem comes_pass (hcfg : 0 < cfg.retryMaxAttempts) (hn : w.hcm.Numbered) (waits : ℕ → ℕ) :
    Comes i (retryPendingHcmSyncs cfg) ⟨w, waits⟩ (.ok ()) (RowsServed w.store.pendingSync w) := by
  have hs : SameState w w := .refl hn
  have hfound : Comes i (Svc.db (.findPendingSync 50)) ⟨w, waits⟩ (.ok w.store.pendingSync)
      (SameState w) := by
    refine comes_base (u := (w.later (waits 0)).load i w.store.pendingSync) rfl ?_
    exact ⟨hs.store, hs.books, hs.numbered⟩
  refine hfound.bind fun s' hs' => ?_
  exact comes_retryEach hcfg hs' (pendingSync_nodup w.store)

end Pass

end TimeOff
