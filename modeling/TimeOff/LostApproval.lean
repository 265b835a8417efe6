import TimeOff.ApprovalTrace
import TimeOff.LocalFirst

/-! No approval is silently lost: when every committed approval that the HCM has not
acknowledged is announced by a task, or can still be found by its sync status. -/
namespace TimeOff

open Async

section Calls

variable {w w' : World} {i : ℕ} {c : Call} {cfg : Config}

/-- Only the transitions, the tasks and the worker save requests. -/
theorem saver_of_each {o : FlatOp} {id : ℕ} {patch : RequestPatch} (h : FlatCallOp cfg c o)
    (ho : o = .base (.db (.saveRequest id patch)) ∨ o = .tx (.db (.saveRequest id patch))) :
    (∃ requestId approverId, c = .approve requestId approverId) ∨
      (∃ requestId approverId reason, c = .reject requestId approverId reason) ∨
        (∃ requestId reason, c = .cancel requestId reason) ∨ c = .retrySyncs ∨
          ∃ t, c = .task t := by
  -- a save of a request comes from a transition, from the worker or from a task
  rcases ho with rfl | rfl
  · cases h with
    | base h =>
      cases h with
      | create h => cases h
      | retrySyncs h => exact .inr (.inr (.inr (.inl rfl)))
      | task t h => exact .inr (.inr (.inr (.inr ⟨t, rfl⟩)))
  · cases h with
    | tx h =>
      cases h with
      | approve requestId approverId h => exact .inl ⟨requestId, approverId, rfl⟩
      | reject requestId approverId reason h =>
        exact .inr (.inl ⟨requestId, approverId, reason, rfl⟩)
      | cancel requestId reason h => exact .inr (.inr (.inl ⟨requestId, reason, rfl⟩))

/-- A process whose transaction has decided nothing. -/
def Undecided (i : ℕ) (w : World) : Prop := ∀ id, ¬ SavedBy w i id

/-- The transaction of the process has decided this request and no other, and hides it only if
it approves it. -/
structure Decided (i requestId : ℕ) (target : RequestStatus) (w : World) : Prop where
  saved : SavedBy w i requestId
  only : ∀ id, SavedBy w i id → id = requestId
  shown : target ≠ .approved → ¬ Hidden w requestId

theorem Undecided.rely (h : Undecided i w) (hR : TraceRely i w w') : Undecided i w' :=
  fun id hsaved => h id (hR.savedBy.mp hsaved)

theorem Decided.of_iff {requestId : ℕ} {target : RequestStatus} (h : Decided i requestId target w)
    (hsaved : ∀ id, SavedBy w' i id ↔ SavedBy w i id)
    (hhidden : Hidden w' requestId → Hidden w requestId) : Decided i requestId target w' where
  saved := (hsaved _).mpr h.saved
  only id h' := h.only id ((hsaved id).mp h')
  shown ht h' := h.shown ht (hhidden h')

theorem Decided.rely {requestId : ℕ} {target : RequestStatus} (h : Decided i requestId target w)
    (hR : TraceRely i w w') : Decided i requestId target w' :=
  h.of_iff (fun _ => hR.savedBy) (hR.hidden requestId h.saved)

/-- The calls that decide nothing and write no sync status. -/
theorem trace_plain (hc : ∀ o, FlatCallOp cfg c o → ∀ id patch,
      o ≠ .base (.db (.saveRequest id patch)) ∧ o ≠ .tx (.db (.saveRequest id patch)))
    (hw : Undecided i w) :
    ((c.svc cfg).interp flatten).Holds (TraceStep i c) (TraceRely i) (TraceKept i)
      (fun _ _ => True) w := by
  refine Prog.Holds.mono (fun _ _ _ => trivial) (Prog.Holds.of_each_inv (Undecided i)
    (fun _ _ hR hu => hu.rely hR) ?_ (flat_each cfg c) hw)
  intro o u r u' ho hu hs
  have hsaves := hc o ho
  -- a commit or a rollback ends the transaction, everything else adds no decision to it
  have hend (hclose : o = .commit ∨ o = .rollback) (hk : TraceKept i u u') :
      TraceKept i u u' ∧ Undecided i u' := by
    refine ⟨hk, fun id hsaved => ?_⟩
    obtain ⟨_, x, hx, _⟩ := hs
    obtain ⟨e, he, hpid, he'⟩ := savedBy_iff.mp hsaved
    cases flatExec_journal hx with
    | same hjournal => exact hu id (savedBy_iff.mpr ⟨e, hjournal ▸ he, hpid, he'⟩)
    | entry d ho _ => rcases hclose with rfl | rfl <;> cases ho
    | close _ hjournal =>
      rw [hjournal] at he
      simp [hpid] at he
  by_cases hcommit : o = .commit
  · subst hcommit
    exact hend (.inl rfl) (kept_commit (fun id hsaved => absurd hsaved (hu id)) hs)
  by_cases hrollback : o = .rollback
  · subst hrollback
    exact hend (.inr rfl) (kept_rollback hs)
  obtain ⟨hkept, hsaved, _⟩ := kept_plain ho hsaves hcommit hrollback hs
  exact ⟨hkept, fun id h => hu id ((hsaved id).mp h)⟩

/-- A transition ends with its decision saved; an approval is still to be announced. -/
theorem trace_transition (cfg : Config) {requestId : ℕ} {target : RequestStatus}
    {stamp : TimeOffRequest → ℕ → RequestPatch} {settle : BalanceKey → Num → Tx Unit}
    (htarget : target ≠ .pending) (hstamp : ∀ r now, (stamp r now).hcmSyncStatus = none)
    (hsettle : ∀ key days, (settle key days).Each fun o =>
      TransitionOp requestId target o ∧ ∀ id patch, o ≠ .db (.saveRequest id patch))
    (hc : ∀ o, TransitionOp requestId target o → TxCallOp cfg c o) (hw : Undecided i w) :
    (transition requestId target stamp settle).Holds (fun o => TraceStep i c (.tx o))
      (TraceRely i) (TraceKept i) (fun x w => ∀ request, x = .ok request →
        Decided i requestId target w) w := by
  have hplain {o : TxOp} {w w' : World} {r : Except Err o.Resp}
      (ho : TransitionOp requestId target o) (hno : ∀ id patch, o ≠ .db (.saveRequest id patch))
      (hs : TraceStep i c (.tx o) w r w') :=
    kept_plain (.tx (hc o ho)) (fun id patch => ⟨by simp, fun h => hno id patch (by simpa using h)⟩)
      (by simp) (by simp) hs
  refine Prog.Holds.mono ?_ (holds_transition (fun _ => Undecided i)
    (fun _ => Decided i requestId target) (fun _ => Decided i requestId target) hstamp
    ?_ ?_ ?_ ?_)
  -- the phases of a transition: loaded, at its time, saved, settled
  · intro x w h request hx
    obtain ⟨_, _, _, hsaved⟩ := h request hx
    exact hsaved
  · intro w₁ hR x w₂ hs
    obtain ⟨hkept, hsaved, _⟩ := hplain .findRequest (by simp) hs
    exact ⟨hkept, fun r _ _ id h => hw.rely hR id ((hsaved id).mp h)⟩
  · intro r w hu w₁ hR x w₂ hs
    obtain ⟨hkept, hsaved, _⟩ := hplain .now (by simp) hs
    exact ⟨hkept, fun id h => hu.rely hR id ((hsaved id).mp h)⟩
  · intro r w hu w₁ hR patch x w₂ hstatus _ hs
    obtain ⟨hkept, honly, hdone⟩ := kept_save htarget hstatus hs
    refine ⟨hkept, fun hok => ⟨(hdone hok).1, fun id h => ?_, (hdone hok).2⟩⟩
    exact (honly id h).resolve_left (hu.rely hR id)
  · intro r w hsaved
    refine Prog.Holds.mono (fun _ _ h _ => h) (Prog.Holds.of_each_inv (Decided i requestId target)
      (fun _ _ hR h => h.rely hR) ?_ (hsettle _ _) hsaved)
    rintro o u r u' ⟨ho, hno⟩ hu hs
    -- after the save nothing saves in this transaction
    obtain ⟨hkept, hiff, hhidden⟩ := hplain ho hno hs
    exact ⟨hkept, hu.of_iff hiff (hhidden requestId)⟩

/-- A transition as a whole: its commit hides nothing. -/
theorem trace_transaction (requestId : ℕ) {α β : Type} {body : Tx β} {k : β → Svc α}
    (hw : Undecided i w)
    (hk : ∀ v t, ((k v).interp flatten).Holds (TraceStep i c) (TraceRely i) (TraceKept i)
      (fun _ _ => True) t)
    (hbody : ∀ t, Undecided i t → body.Holds (fun o => TraceStep i c (.tx o)) (TraceRely i)
      (TraceKept i) (fun r u => ∀ v, r = .ok v → Decided i requestId .rejected u) t) :
    (((Svc.transaction body).bind k).interp flatten).Holds (TraceStep i c) (TraceRely i)
      (TraceKept i) (fun _ _ => True) w := by
  refine holds_transaction (holds_flattenTransaction (Undecided i)
    (fun _ => Decided i requestId .rejected) (fun _ => True) ?_ ?_ ?_ ?_)
  -- begin, the callback, its commit, and the rollback of a failure
  · intro w₁ hR r w₂ hs
    have hbegin : FlatCallOp plainConfig c .begin := .begin
    obtain ⟨hkept, hsaved, _⟩ := kept_plain hbegin (by simp) (by simp) (by simp) hs
    exact ⟨hkept, fun _ _ id h => hw.rely hR id ((hsaved id).mp h), fun _ _ => trivial⟩
  · exact fun t ht => Prog.Holds.mono (fun r u h => ⟨h, fun _ _ => trivial⟩) (hbody t ht)
  · intro v t ht w₁ hR r w₂ hs
    have hdecided := ht.rely hR
    refine ⟨kept_commit (fun id hsaved => ?_) hs, fun _ _ => hk v w₂, fun _ _ => trivial⟩
    -- what was decided is shown to the worker when it is committed
    rw [hdecided.only id hsaved]
    exact hdecided.shown (by decide)
  · intro t _ w₁ hR r w₂ hs
    exact ⟨kept_rollback hs, fun _ => trivial⟩

/-- The approval announces what it has decided before it commits. -/
theorem trace_approve {requestId : ℕ} {approverId : String} (hw : Undecided i w) :
    (((Call.approve requestId approverId).svc cfg).interp flatten).Holds
      (TraceStep i (.approve requestId approverId)) (TraceRely i) (TraceKept i)
      (fun _ _ => True) w := by
  refine trace_transaction requestId hw (fun _ _ => trivial) fun t ht => ?_
  refine Prog.Holds.bind (Prog.Holds.mono ?_ (trace_transition cfg (by decide)
    (fun _ _ => rfl) ?_ (fun o ho => .approve _ _ ho) ht))
  · rintro (e | request) u hdecided
    · exact fun _ h => nomatch h
    dsimp only [Prog.after]
    refine tx_setImmediate_bind ?_
    intro w₁ hR x w₂ hs
    have ho : FlatCallOp cfg (.approve requestId approverId)
        (.tx (.setImmediate (.notifyApprovalToHcm request requestId))) := .tx (.approveTask _ _ _)
    obtain ⟨hkept, hsaved, _⟩ := kept_plain ho (by simp) (by simp) (by simp) hs
    refine ⟨hkept, ?_⟩
    -- the task is on the queue from here on
    have hann : Announcing w₂ requestId := by
      obtain ⟨_, y, hy, _⟩ := hs
      cases hy
      exact .inl ⟨_, List.mem_append_right _ (List.mem_singleton.mpr rfl), by simp [Task.announces]⟩
    have hdecided' := (hdecided request rfl).rely hR
    rcases x with e | u'
    · exact fun _ h => nomatch h
    · rintro v ⟨⟩
      exact ⟨(hsaved _).mpr hdecided'.saved, fun id h => hdecided'.only id ((hsaved id).mp h),
        fun _ hhidden => hhidden.2 hann⟩
  · intro key days
    exact moveDays_each ⟨.findBalance key, by simp⟩ fun patch => ⟨.saveBalance key patch, by simp⟩

theorem trace_reject {requestId : ℕ} {approverId reason : String} (hw : Undecided i w) :
    (((Call.reject requestId approverId reason).svc cfg).interp flatten).Holds
      (TraceStep i (.reject requestId approverId reason)) (TraceRely i) (TraceKept i)
      (fun _ _ => True) w := by
  refine trace_transaction requestId hw (fun _ _ => trivial) fun t ht => ?_
  refine Prog.Holds.bind (Prog.Holds.mono ?_ (trace_transition cfg (by decide)
    (fun _ _ => rfl) ?_ (fun o ho => .reject _ _ _ ho) ht))
  · rintro (e | request) u hdecided
    · exact fun _ h => nomatch h
    · exact fun _ _ => hdecided request rfl
  · intro key days
    exact moveDays_each ⟨.findBalance key, by simp⟩ fun patch => ⟨.saveBalance key patch, by simp⟩

theorem trace_cancel {requestId : ℕ} {reason : Option String} (hw : Undecided i w) :
    (((Call.cancel requestId reason).svc cfg).interp flatten).Holds
      (TraceStep i (.cancel requestId reason)) (TraceRely i) (TraceKept i)
      (fun _ _ => True) w := by
  refine trace_transaction requestId hw (fun _ _ => trivial) fun t ht => ?_
  refine Prog.Holds.bind (Prog.Holds.mono ?_ (trace_transition cfg (by decide)
    (fun _ _ => rfl) ?_ (fun o ho => .cancel _ _ ho) ht))
  · rintro (e | request) u hdecided
    · exact fun _ h => nomatch h
    · rintro _ _
      obtain ⟨hsaved, honly, hshown⟩ := hdecided request rfl
      exact ⟨hsaved, honly, fun _ => hshown (by decide)⟩
  · intro key days
    exact moveDays_each ⟨.findBalance key, by simp⟩ fun patch => ⟨.saveBalance key patch, by simp⟩

end Calls

section Senders

variable {w w' : World} {i : ℕ} {c : Call} {cfg : Config}

theorem trace_sync {o : BaseOp} {r : Except Err o.Resp} (ho : SyncOp (fun _ => True) (.base o))
    (hno : ∀ id patch, o ≠ .db (.saveRequest id patch)) (hs : TraceStep i c (.base o) w r w') :
    TraceKept i w w' := by
  have hc : FlatCallOp plainConfig .retrySyncs (.base o) := .base (.retrySyncs ho)
  exact (kept_plain hc (fun id patch => ⟨fun h => hno id patch (by simpa using h), by simp⟩)
    (by simp) (by simp) hs).1

/-- An acknowledged PUT stays on record. -/
theorem trace_notifyApproval (key : BalanceKey) (days : ℚ) (requestId : ℕ) (w : World) :
    ((notifyApproval cfg key days requestId).interp flatten).Holds (TraceStep i c) (TraceRely i)
      (TraceKept i) (fun r w => ∀ reply, r = .ok (some reply) →
        approvalAcknowledged (some reply) = true → requestId ∈ w.history.acknowledged) w := by
  have hput (w : World) : ((putBalance ⟨key, days, requestId⟩).interp flatten).Holds (TraceStep i c)
      (TraceRely i) (TraceKept i) (fun r w => ∀ reply, r = .ok reply →
        approvalAcknowledged (some reply) = true → requestId ∈ w.history.acknowledged) w := by
    refine Prog.Holds.interp_bind (holds_base (.sendPut _) (Prog.Holds.perform ?_))
    intro w₁ _ r w₂ hs
    refine ⟨trace_sync (.sendPut _ trivial) (by simp) hs, ?_⟩
    cases r with
    | error e => exact fun _ h => nomatch h
    -- a message was sent; its reply is what acknowledges
    | ok message =>
      refine holds_base (.awaitPut _ _) (Prog.Holds.perform ?_)
      intro w₃ _ r w₄ hs
      refine ⟨trace_sync (.awaitPut _ _) (by simp) hs, ?_⟩
      rintro reply rfl hack
      obtain ⟨_, x, hx, _⟩ := hs
      obtain ⟨r', _, heq⟩ := Option.map_eq_some_iff.mp hx
      -- only a reply that confirms is noted
      cases heq
      rw [World.acknowledge, if_pos hack]
      exact List.mem_cons_self
  refine Prog.Holds.mono ?_ (holds_callWithResilience hput
    (fun ms w r w' hs => trace_sync (.sleep ms) (by simp) hs) (fun _ _ _ h => nomatch h) w)
  exact fun r w h reply hr => h reply hr reply rfl

/-- The write leaves a status that is found. -/
def Shows (requestId : ℕ) (patch : RequestPatch) (w : World) : Prop :=
  patch.hcmSyncStatus.any (findable w.history.acknowledged requestId) = true

theorem Shows.mono {requestId : ℕ} {patch : RequestPatch} (h : Shows requestId patch w)
    (hsub : w.history.acknowledged ⊆ w'.history.acknowledged) : Shows requestId patch w' := by
  obtain ⟨status, hpatch, hfound⟩ := (Option.any_eq_true _ _).mp h
  rw [Shows, hpatch]
  exact findable_mono hsub hfound

theorem not_lost_of_shows {requestId : ℕ} {patch : RequestPatch}
    (h : Shows requestId patch w)
    (hs : TraceStep i c (.base (.db (.saveRequest requestId patch))) w (.ok ()) w') :
    ¬ Lost w' requestId := by
  obtain ⟨_, x, hx, _⟩ := hs
  rintro ⟨row, hrow, hid, _, hlost⟩
  obtain ⟨status, hpatch, hfound⟩ := (Option.any_eq_true _ _).mp h
  have hack := (flatExec_grows hx).1
  have hgo : row ∈ (w.db (.saveRequest requestId patch)).2.store.requests := by
    cases x <;> cases hx
    exact hrow
  obtain ⟨old, _, hsame, hcols⟩ := saveRequest_row hgo
  rw [if_pos (hsame.trans hid), hpatch, Option.getD_some] at hcols
  rw [hcols.2, findable_mono hack hfound] at hlost
  cases hlost

/-- A write of the sync status that leaves it found, or that the condition allows. -/
theorem trace_update {requestId : ℕ} {patch : RequestPatch} (hstatus : patch.status = none)
    (hw : ∀ w₁, TraceRely i w w₁ → Shows requestId patch w₁ ∨ unaware i c requestId w₁ = true) :
    ((updateRequest requestId patch).interp flatten).Holds (TraceStep i c) (TraceRely i)
      (TraceKept i) (fun r w' => r = .ok () → Shows requestId patch w → ¬ Lost w' requestId) w := by
  refine holds_db_bind _ (Prog.Holds.perform ?_)
  intro w₁ hR r w₂ hs
  refine ⟨kept_sync hstatus (hw w₁ hR) hs, ?_⟩
  cases r with
  | error e => exact fun h => nomatch h
  | ok u => exact fun _ hshows => not_lost_of_shows (hshows.mono hR.acknowledged) hs

theorem trace_now {β : Type} {k : ℕ → Svc β} {Q : Except Err β → World → Prop}
    (hk : ∀ now w₁, w.history.acknowledged ⊆ w₁.history.acknowledged →
      w.history.loaded ⊆ w₁.history.loaded →
      ((k now).interp flatten).Holds (TraceStep i c) (TraceRely i) (TraceKept i) Q w₁) :
    ((Svc.now.bind k).interp flatten).Holds (TraceStep i c) (TraceRely i) (TraceKept i) Q w := by
  refine holds_now_bind (Prog.Holds.perform ?_)
  intro w₁ hR r w₂ hs
  have hkept := trace_sync .now (by simp) hs
  refine ⟨hkept, ?_⟩
  obtain ⟨_, x, hx, _⟩ := hs
  cases hx
  exact hk _ _ (List.Subset.trans hR.acknowledged hkept.acknowledged)
    (List.Subset.trans hR.loaded hkept.loaded)

theorem shows_reply {res : Option PutReply} {requestId : ℕ} {patch : RequestPatch}
    (hpatch : patch.hcmSyncStatus = some (if approvalAcknowledged res then .success else .pending))
    (h : ∀ reply, res = some reply → approvalAcknowledged (some reply) = true →
      requestId ∈ w.history.acknowledged) : Shows requestId patch w := by
  rw [Shows, hpatch]
  by_cases hack : approvalAcknowledged res = true
  · rw [if_pos hack]
    cases res with
    | none => cases hack
    | some reply => simpa [findable] using h reply rfl hack
  · rw [if_neg hack]
    rfl

/-- The notifier goes on, or leaves the request found. -/
theorem trace_validateApproval (request : TimeOffRequest) (requestId : ℕ) (w : World) :
    ((validateApproval request requestId).interp flatten).Holds (TraceStep i c) (TraceRely i)
      (TraceKept i) (fun r w => r = .ok false → ¬ Lost w requestId) w := by
  -- both of its writes leave a status that is found
  have hstop {patch : RequestPatch} {w : World} (hstatus : patch.status = none)
      (hshows : ∀ w, Shows requestId patch w) :
      (((updateRequest requestId patch).bind fun _ => .ret false).interp flatten).Holds
        (TraceStep i c) (TraceRely i) (TraceKept i)
        (fun r w => r = .ok false → ¬ Lost w requestId) w := by
    refine Prog.Holds.interp_bind (Prog.Holds.mono ?_
      (trace_update hstatus fun w₁ _ => .inl (hshows w₁)))
    rintro (e | u) w₁ h
    · exact fun h => nomatch h
    · exact fun _ => h rfl (hshows w)
  unfold validateApproval
  split
  · exact fun h => nomatch h
  refine Prog.Holds.interp_bind (holds_base (.validateRequest _ _) (Prog.Holds.perform ?_))
  intro w₁ _ r w₂ hs
  refine ⟨trace_sync (.validateRequest _ _) (by simp) hs, ?_⟩
  rcases r with e | (_ | validation)
  · exact fun h => nomatch h
  · exact trace_now fun now w₃ _ _ => hstop rfl fun _ => rfl
  · dsimp only [Prog.after]
    split
    · exact trace_now fun now w₃ _ _ => hstop rfl fun _ => rfl
    · exact fun h => nomatch h

/-- The notifier ends with the request found. -/
theorem trace_notifier {request : TimeOffRequest} {requestId : ℕ}
    (hc : c = .task (.notifyApprovalToHcm request requestId)) :
    ((notifyApprovalToHcmAsync cfg request requestId).interp flatten).Holds (TraceStep i c)
      (TraceRely i) (TraceKept i) (fun _ w => ¬ Lost w requestId) w := by
  have hbody : ((notifyApprovalToHcm cfg request requestId).interp flatten).Holds (TraceStep i c)
      (TraceRely i) (TraceKept i) (fun r w => r = .ok () → ¬ Lost w requestId) w := by
    refine Prog.Holds.interp_bind (Prog.Holds.mono ?_ (trace_validateApproval request requestId w))
    rintro (e | (_ | _)) w₁ h
    · exact fun h => nomatch h
    · exact fun _ => h rfl
    refine Prog.Holds.interp_bind (Prog.Holds.mono ?_ (trace_notifyApproval _ _ requestId w₁))
    rintro (e | res) w₂ hres
    · exact fun h => nomatch h
    refine trace_now fun now w₃ hack _ => ?_
    have hshows {w : World} (hsub : w₃.history.acknowledged ⊆ w.history.acknowledged)
        (patch : RequestPatch) (hpatch : patch.hcmSyncStatus =
          some (if approvalAcknowledged res then .success else .pending)) :
        Shows requestId patch w :=
      shows_reply hpatch fun reply hr hok => hsub (hack (hres reply (hr ▸ rfl) hok))
    refine Prog.Holds.mono ?_ (trace_update rfl fun w₄ hR =>
      .inl (hshows hR.acknowledged _ rfl))
    exact fun r w₄ h hok => h hok (hshows (List.Subset.refl _) _ rfl)
  refine Prog.Holds.interp_handle (Prog.Holds.mono ?_ hbody)
  -- the body ends with the request found, or throws
  rintro (e | u) w₁ h
  · -- the catch block: its own write fails only over a status by which the request is found
    refine trace_now fun now w₂ _ _ => holds_db_bind _ (Prog.Holds.perform ?_)
    intro w₃ hR r w₄ hs
    refine ⟨kept_sync rfl (.inl rfl) hs, ?_⟩
    cases r with
    | ok u =>
      refine not_lost_of_shows ?_ hs
      rfl
    | error e =>
      obtain ⟨_, x, hx, hcond⟩ := hs
      cases x with
      | fail code message =>
        cases hx
        have hnot : ¬ ValidatedOnly w₃ requestId := by
          rw [hc] at hcond
          simpa [approvalTraced] using hcond
        exact fun hlost => hnot hlost.validatedOnly
      | _ => cases hx
  · exact h rfl

theorem trace_attempt {row : TimeOffRequest} {patch : RequestPatch} (hstatus : patch.status = none)
    (h : ∀ w₁, w.history.acknowledged ⊆ w₁.history.acknowledged →
      w.history.loaded ⊆ w₁.history.loaded →
        Shows row.id patch w₁ ∨ unaware i c row.id w₁ = true) :
    ((updateSyncAttempt row patch).interp flatten).Holds (TraceStep i c) (TraceRely i)
      (TraceKept i) (fun _ _ => True) w := by
  refine trace_now fun now w₁ hack hload => ?_
  refine Prog.Holds.mono (fun _ _ _ => trivial) (trace_update hstatus fun w₂ hR => ?_)
  exact h w₂ (List.Subset.trans hack hR.acknowledged) (List.Subset.trans hload hR.loaded)

theorem trace_shown {row : TimeOffRequest} {patch : RequestPatch} (hstatus : patch.status = none)
    (hshows : ∀ w, Shows row.id patch w) :
    ((updateSyncAttempt row patch).interp flatten).Holds (TraceStep i c) (TraceRely i)
      (TraceKept i) (fun _ _ => True) w :=
  trace_attempt hstatus fun w₁ _ _ => .inl (hshows w₁)

theorem trace_validateRequest {β : Type} {k : Option ValidateReply → Svc β}
    {Q : Except Err β → World → Prop} {key : BalanceKey} {days : Num}
    (herror : ∀ e w, Q (.error e) w)
    (hk : ∀ v w₁, w.history.loaded ⊆ w₁.history.loaded →
      ((k v).interp flatten).Holds (TraceStep i c) (TraceRely i) (TraceKept i) Q w₁) :
    (((validateRequest key days).bind k).interp flatten).Holds (TraceStep i c) (TraceRely i)
      (TraceKept i) Q w := by
  refine Prog.Holds.interp_bind (holds_base (.validateRequest _ _) (Prog.Holds.perform ?_))
  intro w₁ hR r w₂ hs
  have hkept := trace_sync (.validateRequest key days) (by simp) hs
  refine ⟨hkept, ?_⟩
  cases r with
  | error e => exact herror e w₂
  | ok v => exact hk v w₂ (List.Subset.trans hR.loaded hkept.loaded)

/-- The worker on a row it loaded as approved. -/
theorem trace_retryApprovalFlow (row : TimeOffRequest) (w : World) :
    ((retryApprovalFlow cfg row).interp flatten).Holds (TraceStep i c) (TraceRely i)
      (TraceKept i) (fun _ _ => True) w := by
  have happroval (isValidated : Bool) (w : World) :
      ((retryApproval cfg row isValidated).interp flatten).Holds (TraceStep i c) (TraceRely i)
        (TraceKept i) (fun _ _ => True) w := by
    refine Prog.Holds.interp_bind (Prog.Holds.mono ?_ (trace_notifyApproval _ _ row.id w))
    -- without an answer the row keeps what the worker finds it by
    rintro (e | res) w₁ hres
    · trivial
    dsimp only [Prog.after]
    split
    -- the answer confirms
    · rename_i hok
      refine trace_attempt rfl fun w₂ hsub _ => .inl ?_
      cases res with
      | none => cases hok
      | some reply => simpa [Shows, findable] using hsub (hres reply rfl hok)
    · exact trace_shown rfl fun _ => rfl
  unfold retryApprovalFlow
  split
  · exact happroval true w
  refine trace_validateRequest (fun _ _ => trivial) fun v w₁ _ => ?_
  cases v with
  | none => exact trace_shown rfl fun _ => rfl
  | some validation =>
    dsimp only
    split
    · exact trace_shown rfl fun _ => rfl
    · exact happroval true w₁

theorem trace_retryValidationOnly {row : TimeOffRequest}
    (hattempt : ∀ {w : World}, (i, row) ∈ w.history.loaded → ∀ {patch : RequestPatch},
      patch.status = none → ((updateSyncAttempt row patch).interp flatten).Holds (TraceStep i c)
        (TraceRely i) (TraceKept i) (fun _ _ => True) w)
    (hrow : (i, row) ∈ w.history.loaded) :
    ((retryValidationOnly row).interp flatten).Holds (TraceStep i c) (TraceRely i)
      (TraceKept i) (fun _ _ => True) w := by
  unfold retryValidationOnly
  -- a row that was validated before succeeds at once
  split
  · have hvalid : ((updateSyncAttempt row
        { hcmSyncStatus := some .success, hcmValidated := some true }).interp flatten).Holds
          (TraceStep i c) (TraceRely i) (TraceKept i) (fun _ _ => True) w := hattempt hrow rfl
    exact hvalid
  · refine trace_validateRequest (fun _ _ => trivial) fun v w₁ hload => ?_
    cases v with
    | none => exact hattempt (hload hrow) rfl
    | some validation =>
      dsimp only
      split <;> exact hattempt (hload hrow) rfl

/-- The worker on one of its rows. -/
theorem trace_retryRequest {row : TimeOffRequest} (hc : c = .retrySyncs)
    (hrow : (i, row) ∈ w.history.loaded) :
    ((retryRequest cfg row).interp flatten).Holds (TraceStep i c) (TraceRely i) (TraceKept i)
      (fun _ _ => True) w := by
  -- of a row that was not approved, the condition speaks
  have hunaware (hstatus : row.status ≠ .approved) {w : World} (hmem : (i, row) ∈ w.history.loaded)
      {patch : RequestPatch} (hpatch : patch.status = none) :
      ((updateSyncAttempt row patch).interp flatten).Holds (TraceStep i c) (TraceRely i)
        (TraceKept i) (fun _ _ => True) w := by
    refine trace_attempt hpatch fun w₁ _ hload => .inr ?_
    rw [hc]
    exact List.any_eq_true.mpr ⟨(i, row), hload hmem, by simp [hstatus]⟩
  unfold retryRequest
  split
  · refine trace_now fun now w₁ _ _ => ?_
    exact Prog.Holds.mono (fun _ _ _ => trivial) (trace_update rfl fun w₂ _ => .inl rfl)
  have hbody : ((retryByStatus cfg row).interp flatten).Holds (TraceStep i c) (TraceRely i)
      (TraceKept i) (fun _ _ => True) w := by
    unfold retryByStatus
    split
    · rename_i hstatus
      exact hunaware (by simp [hstatus]) hrow rfl
    · rename_i hstatus
      exact hunaware (by simp [hstatus]) hrow rfl
    · rename_i hstatus
      exact trace_retryValidationOnly (fun hmem => hunaware (by simp [hstatus]) hmem) hrow
    · exact trace_retryApprovalFlow row w
  refine Prog.Holds.interp_handle (Prog.Holds.mono ?_ hbody)
  rintro (e | u) w₁ _
  · exact trace_shown rfl fun _ => rfl
  · trivial

theorem trace_retryEach {rows : List TimeOffRequest} (hc : c = .retrySyncs)
    (hrows : ∀ row ∈ rows, (i, row) ∈ w.history.loaded) :
    ((retryEach cfg rows).interp flatten).Holds (TraceStep i c) (TraceRely i) (TraceKept i)
      (fun _ _ => True) w := by
  induction rows generalizing w with
  | nil => trivial
  | cons row rest ih =>
    obtain ⟨hrow, hrest⟩ := List.forall_mem_cons.mp hrows
    -- what the worker has loaded stays on record while it retries the first row
    have hfirst : ((retryRequest cfg row).interp flatten).Holds (TraceStep i c) (TraceRely i)
        (TraceKept i) (fun _ _ => True) w := trace_retryRequest hc hrow
    have hframed := Prog.Holds.frame (fun w => ∀ row ∈ rest, (i, row) ∈ w.history.loaded)
      (fun _ _ hR h row hmem => hR.loaded (h row hmem)) (fun o w r w' h hs row hmem => by
        obtain ⟨_, x, hx, _⟩ := hs
        exact (flatExec_grows hx).2.1 (h row hmem)) hrest hfirst
    refine Prog.Holds.interp_bind (Prog.Holds.mono ?_ hframed)
    rintro (e | u) w₁ ⟨_, hloaded⟩
    · trivial
    · exact ih hloaded

theorem trace_worker (hc : c = .retrySyncs) :
    ((retryPendingHcmSyncs cfg).interp flatten).Holds (TraceStep i c) (TraceRely i) (TraceKept i)
      (fun _ _ => True) w := by
  refine holds_db_bind _ (Prog.Holds.perform ?_)
  intro w₁ _ r w₂ hs
  refine ⟨trace_sync (.findPendingSync 50) (by simp) hs, ?_⟩
  cases r with
  | error e => trivial
  | ok rows =>
    refine trace_retryEach hc fun row hrow => ?_
    obtain ⟨_, x, hx, _⟩ := hs
    cases x with
    | go =>
      cases hx
      exact List.mem_append_right _ (List.mem_map_of_mem hrow)
    | _ => cases hx

/-- What each call guarantees, and that a notifier ends with its request found. -/
theorem trace_code (hw : Undecided i w) :
    ((c.svc cfg).interp flatten).Holds (TraceStep i c) (TraceRely i) (TraceKept i)
      (fun _ w => ∀ request requestId, c = .task (.notifyApprovalToHcm request requestId) →
        ¬ Lost w requestId) w := by
  have hother (hc : ∀ request requestId, c ≠ .task (.notifyApprovalToHcm request requestId))
      (h : ((c.svc cfg).interp flatten).Holds (TraceStep i c) (TraceRely i) (TraceKept i)
        (fun _ _ => True) w) :
      ((c.svc cfg).interp flatten).Holds (TraceStep i c) (TraceRely i) (TraceKept i)
        (fun _ w => ∀ request requestId, c = .task (.notifyApprovalToHcm request requestId) →
          ¬ Lost w requestId) w :=
    Prog.Holds.mono (fun _ _ _ request requestId h => absurd h (hc request requestId)) h
  -- a call that is none of those that save a request
  have hplain (hc : ¬ ((∃ requestId approverId, c = .approve requestId approverId) ∨
      (∃ requestId approverId reason, c = .reject requestId approverId reason) ∨
        (∃ requestId reason, c = .cancel requestId reason) ∨ c = .retrySyncs ∨
          ∃ t, c = .task t)) :
      ((c.svc cfg).interp flatten).Holds (TraceStep i c) (TraceRely i) (TraceKept i)
        (fun _ _ => True) w := by
    refine trace_plain (fun o ho id patch => ⟨?_, ?_⟩) hw
    · exact fun heq => hc (saver_of_each ho (.inl heq))
    · exact fun heq => hc (saver_of_each ho (.inr heq))
  cases c with
  | create dto key => exact hother (by simp) (hplain (by simp))
  | upsert key total => exact hother (by simp) (hplain (by simp))
  | reconcile hcmRecord => exact hother (by simp) (hplain (by simp))
  | realTime key total version => exact hother (by simp) (hplain (by simp))
  | approve requestId approverId => exact hother (by simp) (trace_approve hw)
  | reject requestId approverId reason => exact hother (by simp) (trace_reject hw)
  | cancel requestId reason => exact hother (by simp) (trace_cancel hw)
  | retrySyncs =>
    refine hother (by simp) (Prog.Holds.interp_bind (Prog.Holds.mono ?_ (trace_worker rfl)))
    rintro (e | u) _ _ <;> trivial
  | task t =>
    cases t with
    | notifyHcm requestId key days =>
      refine hother (by simp) (holds_validator fun o w r w' ho hs => ?_)
      by_cases hsave : ∃ id patch, o = .db (.saveRequest id patch)
      · obtain ⟨id, patch, rfl⟩ := hsave
        cases ho with
        | saveRequest _ _ hstatus => exact kept_sync hstatus (.inr rfl) hs
      · exact trace_sync (ho.mono fun _ h => h.elim) (fun id patch h => hsave ⟨id, patch, h⟩) hs
    | notifyApprovalToHcm request requestId =>
      refine Prog.Holds.interp_bind (Prog.Holds.mono ?_ (trace_notifier rfl))
      rintro (e | u) w₁ hnot
      · rintro _ _ ⟨⟩
        exact hnot
      · rintro _ _ ⟨⟩
        exact hnot

end Senders

section Runs

variable {w w' : World} {i : ℕ} {cfg : Config}

/-- Every step traces the approvals, and a crash takes no notifier that has still to write over
the status of a validation. -/
def tracesApprovals (P : Pool Call FlatOp FlatOp.Resp Err (Option RequestBody) World) :
    Act Call Choice Env → Bool
  | .step i x => (P.procs i).all fun q => approvalTraced i q.call P.shared q.op x
  | .halt => P.shared.store.requests.all fun row => !decide (AwaitsNotifier P.shared row.id)
  | _ => true

theorem Traced.of_eq (h : Traced w) (hstore : w'.store = w.store) (hnext : w'.nextId = w.nextId)
    (hjournal : w'.journal = w.journal) (hhidden : ∀ id, Hidden w' id → Hidden w id) :
    -- all the clauses read the rows, the journal and what is hidden
    Traced w' where
  drawn := by
    rw [hstore, hnext]
    exact h.drawn
  savesDrawn := by
    rw [hjournal, hnext]
    exact h.savesDrawn
  decided := by
    rw [hjournal, hstore]
    exact h.decided
  sole := by
    rw [hjournal]
    exact h.sole
  restores := by
    rw [hjournal]
    exact h.restores
  restored := by
    rw [hjournal]
    exact h.restored
  hidden id hid := by
    rw [hjournal]
    exact h.hidden id (hhidden id hid)

/-- Of `n` calls that have started, each may have a transaction or a task. -/
structure TracedBy (n : ℕ) (w : World) : Prop where
  traced : Traced w
  entries : ∀ e ∈ w.journal, e.pid < n
  running : ∀ p ∈ w.history.running, p.1 < n

/-- A start moves a task from the queue to the process that runs it. -/
theorem accept_traced {c : Call} (h : w.accept i c = some w') :
    (∀ id, Hidden w' id → Hidden w id) ∧
      (∀ j t, j ≠ i → ((j, t) ∈ w'.history.running ↔ (j, t) ∈ w.history.running)) ∧
        (∀ p ∈ w'.history.running, p ∈ w.history.running ∨ ∃ t, p = (i, t) ∧ c = .task t) ∧
          w'.store = w.store ∧ w'.nextId = w.nextId ∧ w'.journal = w.journal ∧
            w'.history.acknowledged = w.history.acknowledged ∧
              w'.history.loaded = w.history.loaded := by
  rcases accept_cases h with rfl | ⟨t, rfl, ht, rfl⟩
  · exact ⟨fun _ => id, fun _ _ _ => Iff.rfl, fun _ hp => .inl hp, rfl, rfl, rfl, rfl, rfl⟩
  · refine ⟨fun id hhidden => ⟨hhidden.1, fun hann => hhidden.2 ?_⟩, fun j t' hj => ?_,
      fun p hp => ?_, rfl, rfl, rfl, rfl, rfl⟩
    -- the task that starts is announced by its process
    · rcases hann with ⟨t', ht', hannounces⟩ | ⟨p, hp, hannounces⟩
      · by_cases heq : t' = t
        · exact .inr ⟨(i, t), List.mem_cons_self, heq ▸ hannounces⟩
        · exact .inl ⟨t', (List.mem_erase_of_ne heq).mpr ht', hannounces⟩
      · exact .inr ⟨p, List.mem_cons_of_mem _ hp, hannounces⟩
    · simp [hj]
    · rcases List.mem_cons.mp hp with rfl | hp
      · exact .inr ⟨t, rfl, rfl⟩
      · exact .inl hp

theorem env_traced {e : Env} (h : e.exec w = some w') :
    w'.store = w.store ∧ w'.nextId = w.nextId ∧ w'.journal = w.journal ∧
      w'.immediates = w.immediates ∧ w'.history = w.history := by
  obtain ⟨clock, locks, hcm, rfl⟩ := env_eq h
  exact ⟨rfl, rfl, rfl, rfl, rfl⟩

/-- What the end of a call means for the approvals. -/
structure TraceEnd (i : ℕ) (c : Call) (w : World) : Prop where
  running : ∀ t, (i, t) ∈ w.history.running → c = .task t
  found : ∀ request requestId, c = .task (.notifyApprovalToHcm request requestId) →
    ¬ Lost w requestId

theorem finish_traced {c : Call} {r : Except Err (Option RequestBody)} (hw : Traced w)
    (h : TraceEnd i c w) : TraceKept i w (World.finish i c r w) := by
  have hhidden (id : ℕ) (hid : Hidden (World.finish i c r w) id) : Hidden w id := by
    refine ⟨hid.1, fun hann => hid.2 ?_⟩
    rcases hann with himm | ⟨p, hp, hannounces⟩
    · exact .inl himm
    · by_cases hpid : p.1 = i
      · -- the notifier that ends here has left its request found
        have hc := h.running p.2 (by rw [← hpid]; exact hp)
        cases ht : p.2 with
        | notifyHcm =>
          rw [ht] at hannounces
          cases hannounces
        | notifyApprovalToHcm request requestId =>
          rw [ht] at hannounces hc
          have hlost : Lost w id := hid.1
          have heq : requestId = id := decide_eq_true_eq.mp hannounces
          exact absurd (heq ▸ hlost) (h.found request requestId hc)
      · exact .inr ⟨p, List.mem_filter.mpr ⟨hp, by simpa using hpid⟩, hannounces⟩
  refine ⟨fun _ _ => rfl, fun j t hj => ?_, List.Subset.refl _, List.Subset.refl _,
    hw.of_eq rfl rfl rfl hhidden, fun id hid => .inl (hhidden id hid)⟩
  simp [World.finish, hj]

def approvalTraces (cfg : Config) :
    RelyGuarantee (flatMachine cfg) fun P a => tracesApprovals P a = true where
  Inv := TracedBy
  stepRel := TraceStep
  rely i _ := TraceRely i
  guar i _ := TraceKept i
  post i c _ w := TraceEnd i c w
  rely_refl := TraceRely.refl
  rely_trans := TraceRely.trans
  step_of {P i x q r w'} hI hC hq hx := by
    simp only [tracesApprovals, hq, Option.all_some] at hC
    exact ⟨hI.traced, x, hx, hC⟩
  guar_inv {n i c w w'} hi hI h := by
    refine ⟨h.traced, fun e he => ?_, fun p hp => ?_⟩
    · by_cases hpid : e.pid = i
      · exact hpid ▸ hi
      · have hmem : e ∈ w'.entriesOf e.pid := List.mem_filter.mpr ⟨he, by simp⟩
        rw [h.entries e.pid hpid] at hmem
        exact hI.entries e (List.mem_of_mem_filter hmem)
    · by_cases hpid : p.1 = i
      · exact hpid ▸ hi
      · exact hI.running p ((h.running p.1 p.2 hpid).mp hp)
  guar_rely hij _ h := h.rely hij
  finish_guar hI h := finish_traced hI.traced h
  accept_inv {P c w'} hI _ hs := by
    obtain ⟨hhidden, _, hrunning, hstore, hnext, hjournal, _, _⟩ := accept_traced hs
    refine ⟨hI.traced.of_eq hstore hnext hjournal hhidden, fun e he => ?_, fun p hp => ?_⟩
    · exact Nat.lt_succ_of_lt (hI.entries e (hjournal ▸ he))
    · rcases hrunning p hp with hp | ⟨t, rfl, _⟩
      · exact Nat.lt_succ_of_lt (hI.running p hp)
      · exact Nat.lt_succ_self _
  accept_rely {P c w' j d} hj _ _ hs := by
    obtain ⟨hhidden, hrunning, _, _, _, hjournal, hack, hload⟩ := accept_traced hs
    refine ⟨by rw [World.entriesOf, hjournal, World.entriesOf],
      fun t => hrunning j t (Nat.ne_of_lt hj), ?_, ?_, fun id _ => hhidden id⟩
    · rw [hack]
      exact List.Subset.refl _
    · rw [hload]
      exact List.Subset.refl _
  accept_holds {P c w'} hI _ hs := by
    obtain ⟨_, _, hrunning, _, _, hjournal, _, _⟩ := accept_traced hs
    -- the process is new: it has no transaction, and no task but the one it runs
    have hundecided : Undecided P.next w' := by
      rintro id hsaved
      obtain ⟨e, he, hpid, _⟩ := savedBy_iff.mp hsaved
      exact absurd hpid (Nat.ne_of_lt (hI.entries e (hjournal ▸ he)))
    have hown : ∀ t, (P.next, t) ∈ w'.history.running → c = .task t := by
      intro t ht
      rcases hrunning _ ht with ht | ⟨t', heq, hc⟩
      · exact absurd (hI.running _ ht) (lt_irrefl _)
      · cases heq
        exact hc
    refine Prog.Holds.mono (fun r w h => ⟨h.2, h.1⟩) (Prog.Holds.frame
      (fun w => ∀ t, (P.next, t) ∈ w.history.running → c = .task t) (fun w w₁ hR h t ht => ?_)
      (fun o w r w₁ h hs t ht => ?_) hown (trace_code hundecided))
    · exact h t ((hR.running t).mp ht)
    · obtain ⟨_, x, hx, _⟩ := hs
      rw [(flatExec_history hx).2] at ht
      exact h t ht
  env_inv {P e w'} hI _ hs := by
    obtain ⟨hstore, hnext, hjournal, himm, hhistory⟩ := env_traced hs
    refine ⟨hI.traced.of_eq hstore hnext hjournal fun id h => ?_, ?_, ?_⟩
    · rw [Hidden, Lost, Announcing, hstore, himm, hhistory] at h
      exact h
    · rw [hjournal]
      exact hI.entries
    · rw [hhistory]
      exact hI.running
  env_rely {P e w' j d} _ _ hs := by
    obtain ⟨hstore, _, hjournal, himm, hhistory⟩ := env_traced hs
    refine ⟨by rw [World.entriesOf, hjournal, World.entriesOf], fun t => by rw [hhistory],
      by rw [hhistory]; exact List.Subset.refl _, by rw [hhistory]; exact List.Subset.refl _,
      fun id _ h => ?_⟩
    rw [Hidden, Lost, Announcing, hstore, himm, hhistory] at h
    exact h
  halt_inv {P} hI hC := by
    simp only [tracesApprovals, List.all_eq_true, Bool.not_eq_true', decide_eq_false_iff_not] at hC
    have hlost (id : ℕ) : ¬ Lost P.shared.crash id := by
      rintro ⟨row, hrow, rfl, happroved, hfind⟩
      -- what the open transactions have decided is pending again
      rcases undo_rows hI.traced.restores hI.traced.restored row hrow with
        ⟨_, hpending, _⟩ | ⟨hmem, hclosed⟩
      · rw [hpending] at happroved
        cases happroved
      have hbefore : Lost P.shared row.id := ⟨row, hmem, rfl, happroved, hfind⟩
      by_cases hann : Announcing P.shared row.id
      · exact hC row hmem ⟨hbefore.validatedOnly, hann, hclosed⟩
      · obtain ⟨e, he, hsaves⟩ := hI.traced.hidden row.id ⟨hbefore, hann⟩
        rw [hclosed e he] at hsaves
        cases hsaves
    have htraced : Traced P.shared.crash := by
      refine ⟨fun row hrow => ?_, fun _ h => (nomatch h), fun _ h => (nomatch h),
        fun _ h => (nomatch h), fun _ h => (nomatch h), fun _ h => (nomatch h),
        fun id h => absurd h.1 (hlost id)⟩
      rcases undo_rows hI.traced.restores hI.traced.restored row hrow with
        ⟨⟨old, hold, hid⟩, _⟩ | ⟨hmem, _⟩
      · exact hid ▸ hI.traced.drawn old hold
      · exact hI.traced.drawn row hmem
    exact ⟨htraced, fun _ h => (nomatch h), fun _ h => (nomatch h)⟩

/-- The worker or an operator finds the request, or the HCM has acknowledged its approval. -/
def Recoverable (w : World) (row : TimeOffRequest) : Prop :=
  row.hcmSyncStatus = .pending ∨ row.hcmSyncStatus = .failed ∨
    row.hcmSyncStatus = .success ∧ row.id ∈ w.history.acknowledged

instance (w : World) (row : TimeOffRequest) : Decidable (Recoverable w row) :=
  inferInstanceAs (Decidable (_ ∨ _))

theorem recoverable_of_not_lost {row : TimeOffRequest} (hrow : row ∈ w.store.requests)
    (hstatus : row.status = .approved) (h : ¬ Lost w row.id) : Recoverable w row := by
  have hfind : findable w.history.acknowledged row.id row.hcmSyncStatus = true := by
    refine Bool.eq_true_of_not_eq_false fun hfind => ?_
    exact h ⟨row, hrow, rfl, hstatus, hfind⟩
  unfold Recoverable
  cases hsync : row.hcmSyncStatus with
  | pending => exact .inl rfl
  | failed => exact .inr (.inl rfl)
  | success =>
    rw [hsync] at hfind
    exact .inr (.inr ⟨rfl, decide_eq_true_eq.mp hfind⟩)
  | skipped =>
    rw [hsync] at hfind
    cases hfind

/-- The worker validates the request, then its approval is committed. -/
def validatedThenApproved : List (Act Call Choice Env) :=
  [.start .retrySyncs, .step 0 .go, .step 0 (.validated (some ⟨some true⟩)), .step 0 .go,
    .step 0 .go, .start (.approve 0 "MGR1")] ++ List.replicate 8 (.step 1 .go)

theorem validatedThenApproved_runs : ((flatMachine plainConfig).run (fun _ _ => True)
    (Pool.init waitingWorld) validatedThenApproved).isSome = true := by
  decide +kernel

theorem oneWaiting_traced : ∀ row ∈ oneWaiting.requests, row.id < 1 ∧
    (row.status = .approved → row.hcmSyncStatus = .pending ∨ row.hcmSyncStatus = .failed) := by
  decide

/-- The entity that the approval of the validated request hands to the notifier. -/
def approvedValidated : TimeOffRequest :=
  { approved with
    hcmSyncStatus := .success
    hcmValidated := true
    hcmSyncAttempts := 1
    hcmLastSyncAt := some 1000
    version := 3 }

/-- The notifier has written before the crash. -/
def acknowledgedApproval : List (Act Call Choice Env) :=
  validatedThenApproved ++
    [.start (.task (.notifyApprovalToHcm approvedValidated 0)), .step 2 .go, .env (.deliver 0),
      .step 2 .delivered, .step 2 .go, .step 2 .go, .halt]

theorem acknowledgedApproval_runs : ((flatMachine plainConfig).run
    (fun P a => tracesApprovals P a = true) (Pool.init waitingWorld) acknowledgedApproval).isSome =
      true := by
  decide +kernel

theorem acknowledgedApproval_idle :
    let P := ((flatMachine plainConfig).run (fun P a => tracesApprovals P a = true)
      (Pool.init waitingWorld) acknowledgedApproval).get acknowledgedApproval_runs
    P.shared.journal.isEmpty = true ∧ P.shared.immediates.isEmpty = true ∧
      P.shared.history.running.isEmpty = true := by
  decide +kernel

end Runs

end TimeOff
