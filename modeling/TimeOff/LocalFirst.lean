import TimeOff.HcmTraffic

/-! Local-first commit: when an approval is announced to the HCM only after it has been
committed. -/
namespace TimeOff

open Async

section Announced

/-- An approval of the request has been committed, before the run or in it. -/
def CommittedApproved (start : Store) (w : World) (requestId : ℕ) : Prop :=
  requestId ∈ w.history.approvals ∨
    ∃ row ∈ start.requests, row.id = requestId ∧ row.status = .approved

instance (start : Store) (w : World) (requestId : ℕ) :
    Decidable (CommittedApproved start w requestId) :=
  inferInstanceAs (Decidable (_ ∨ _))

/-- Each PUT that is under way, and each amount the HCM has deducted, is for a committed
approval. A PUT is under way as soon as it is sent. -/
structure Announced (start : Store) (w : World) : Prop where
  inTransit : ∀ m ∈ w.hcm.inTransit, CommittedApproved start w m.2.referenceId
  deducted : ∀ d ∈ w.hcm.deducted, CommittedApproved start w d.1

variable {start : Store} {w w' : World} {i : ℕ} {c : Call} {cfg : Config}

def ApprovalsKept (w w' : World) : Prop := w.history.approvals ⊆ w'.history.approvals

theorem approvalsKept_of_eq (h : w'.history.approvals = w.history.approvals) :
    ApprovalsKept w w' := by
  rw [ApprovalsKept, h]
  exact List.Subset.refl _

theorem CommittedApproved.mono {requestId : ℕ} (hsub : ApprovalsKept w w')
    (h : CommittedApproved start w requestId) : CommittedApproved start w' requestId := by
  rcases h with h | h
  · exact .inl (hsub h)
  · exact .inr h

theorem Announced.mono (hsub : ApprovalsKept w w')
    (hinTransit : w'.hcm.inTransit ⊆ w.hcm.inTransit)
    (hdeducted : w'.hcm.deducted ⊆ w.hcm.deducted) (h : Announced start w) :
    Announced start w' :=
  ⟨fun m hm => (h.inTransit m (hinTransit hm)).mono hsub,
    fun d hd => (h.deducted d (hdeducted hd)).mono hsub⟩

theorem Announced.of_eq (h : Announced start w)
    (happrovals : w'.history.approvals = w.history.approvals) (hhcm : w'.hcm = w.hcm) :
    Announced start w' :=
  h.mono (approvalsKept_of_eq happrovals) (by rw [hhcm]; exact List.Subset.refl _)
    (by rw [hhcm]; exact List.Subset.refl _)

/-- A call that starts commits and sends nothing. -/
theorem accept_announced (h : w.accept i c = some w') :
    w'.history.approvals = w.history.approvals ∧ w'.hcm = w.hcm := by
  rcases accept_cases h with rfl | ⟨t, _, _, rfl⟩ <;> exact ⟨rfl, rfl⟩

/-- A step of a call, when what the worker loads as approved is committed. -/
structure AnnounceStep (start : Store) (i : ℕ) (o : FlatOp) (w : World) (r : Except Err o.Resp)
    (w' : World) : Prop where
  loads : ∀ d, o = .base (.db d) → ∀ row ∈ d.loaded (w.db d).1, row.status = .approved →
    CommittedApproved start w row.id
  exec : ∃ x, o.exec i x w = some (r, w')

def AnnounceKept (start : Store) (w w' : World) : Prop :=
  ApprovalsKept w w' ∧ (Announced start w → Announced start w')

/-- A step that sends nothing, or sends a PUT for a committed approval. -/
theorem announceStep_kept {o : FlatOp} {r : Except Err o.Resp}
    (hsend : ∀ put, o = .base (.sendPut put) → CommittedApproved start w put.referenceId)
    (h : AnnounceStep start i o w r w') : AnnounceKept start w w' := by
  obtain ⟨_, x, hx⟩ := h
  -- approvals are only added, so a message once announced stays so
  have hsub := flatExec_approvals hx
  refine ⟨hsub, fun hw => ?_⟩
  rcases flatExec_hcm hx with hhcm | ⟨put, rfl, _, hhcm⟩
  · exact hw.mono hsub (by rw [hhcm]; exact List.Subset.refl _)
      (by rw [hhcm]; exact List.Subset.refl _)
  · refine ⟨fun m hm => ?_, fun d hd => ?_⟩
    · rw [hhcm] at hm
      rcases List.mem_append.mp hm with hm | hm
      · exact (hw.inTransit m hm).mono hsub
      · rw [List.mem_singleton.mp hm]
        exact (hsend put rfl).mono hsub
    · rw [hhcm] at hd
      exact (hw.deducted d hd).mono hsub

theorem announced_env {e : Env} (h : e.exec w = some w') (hw : Announced start w) :
    Announced start w' := by
  have hsub : ApprovalsKept w w' := approvalsKept_of_eq (env_sameCalls h).2.approvals
  rcases env_hcm h with hhcm | ⟨message, hhcm⟩ | ⟨message, hhcm⟩
  · exact hw.of_eq (env_sameCalls h).2.approvals hhcm
  -- what is delivered was in transit
  · obtain ⟨put, hput, htransit, _, hded⟩ := deliver_cases hhcm
    refine ⟨fun m hm => ?_, fun d hd => ?_⟩
    · rw [htransit] at hm
      exact (hw.inTransit m (List.mem_of_mem_filter hm)).mono hsub
    · rcases hded with hded | hded
      · rw [hded] at hd
        exact (hw.deducted d hd).mono hsub
      · rw [hded] at hd
        rcases List.mem_cons.mp hd with rfl | hd
        · exact (hw.inTransit _ hput).mono hsub
        · exact (hw.deducted d hd).mono hsub
  · exact hw.mono hsub (by rw [hhcm]; exact fun m hm => List.mem_of_mem_filter hm)
      (by rw [hhcm]; exact List.Subset.refl _)

/-- The notifiers that start are those of committed approvals, and what the worker loads as
approved is committed. -/
def announcesCommitted (start : Store)
    (P : Pool Call FlatOp FlatOp.Resp Err (Option RequestBody) World) :
    Act Call Choice Env → Bool
  | .start (.task (.notifyApprovalToHcm _ requestId)) =>
    CommittedApproved start P.shared requestId
  | .step i _ => (P.procs i).all fun q =>
    match q.op with
    | .base (.db o) => (o.loaded (P.shared.db o).1).all fun row =>
        row.status ≠ .approved ∨ CommittedApproved start P.shared row.id
    | _ => true
  | _ => true

theorem announce_code
    (hc : ∀ request requestId, c = .task (.notifyApprovalToHcm request requestId) →
    CommittedApproved start w requestId) :
    ((c.svc cfg).interp flatten).Holds (AnnounceStep start i) ApprovalsKept (AnnounceKept start)
      (fun _ _ => True) w := by
  -- the worker and the tasks are the only calls that send
  by_cases hsync : c = .retrySyncs ∨ ∃ t, c = .task t
  · rcases hsync with rfl | ⟨t, rfl⟩
    · refine holds_worker (fun rows w => ∀ row ∈ rows, row.status = .approved →
        CommittedApproved start w row.id) ?_ ?_ ?_
      · exact fun rows w w' hsub h row hrow hstatus => (h row hrow hstatus).mono hsub
      · intro w r w' hstep
        refine ⟨announceStep_kept (by simp) hstep, ?_⟩
        rintro rows rfl row hrow hstatus
        -- the condition: the rows that are loaded as approved were committed so
        obtain ⟨hloads, x, hx⟩ := hstep
        have hsub := flatExec_approvals hx
        refine CommittedApproved.mono hsub (hloads _ rfl row ?_ hstatus)
        rcases exec_db_cases hx with ⟨_, _, hr, _⟩ | ⟨hr, _⟩
        · cases hr
        · rw [← hr]
          exact hrow
      · intro rows o w r w' ho hA hstep
        have hkept : AnnounceKept start w w' := by
          refine announceStep_kept ?_ hstep
          rintro put ⟨⟩
          cases ho with
          | sendPut put hput =>
            obtain ⟨row, hrow, hstatus, rfl⟩ := hput
            exact hA row hrow hstatus
        exact ⟨hkept, fun row hrow hstatus => (hA row hrow hstatus).mono hkept.1⟩
    · cases t with
      | notifyHcm requestId key days =>
        refine holds_validator fun o w r w' ho hstep => announceStep_kept ?_ hstep
        rintro put ⟨⟩
        cases ho with
        | sendPut put hput => exact hput.elim
      | notifyApprovalToHcm request requestId =>
        refine holds_notifier (fun w => CommittedApproved start w requestId)
          (fun w w' hsub h => h.mono hsub) ?_ (hc request requestId rfl)
        intro o w r w' ho hA hstep
        have hkept : AnnounceKept start w w' := by
          refine announceStep_kept ?_ hstep
          rintro put ⟨⟩
          cases ho with
          | sendPut put hput =>
            rw [hput]
            exact hA
        exact ⟨hkept, hA.mono hkept.1⟩
  -- no other call sends
  · refine Prog.Holds.of_each (fun o u r u' ho hs => announceStep_kept ?_ hs) (flat_each cfg c) w
    rintro put rfl
    exact absurd (sender_of_each ho) hsync

end Announced

section Runs

variable {cfg : Config}

def announcements (start : Store) (cfg : Config) :
    RelyGuarantee (flatMachine cfg) fun P a => announcesCommitted start P a = true where
  Inv _ w := Announced start w
  stepRel i _ := AnnounceStep start i
  rely _ _ := ApprovalsKept
  guar _ _ := AnnounceKept start
  post _ _ _ _ := True
  rely_refl h := h
  rely_trans h h' _ hid := h' (h hid)
  step_of {P i x q r w'} _ hC hq hx := by
    refine ⟨?_, x, hx⟩
    intro d hd row hrow hstatus
    -- the condition on the read speaks of its rows
    simp only [announcesCommitted, hq, Option.all_some, hd, List.all_eq_true,
      decide_eq_true_eq] at hC
    exact (hC row hrow).resolve_left (not_not.mpr hstatus)
  guar_inv _ hI h := h.2 hI
  guar_rely _ _ h := h.1
  finish_guar _ _ := ⟨approvalsKept_of_eq rfl, fun h => h.of_eq rfl rfl⟩
  accept_inv hI _ hs := hI.of_eq (accept_announced hs).1 (accept_announced hs).2
  accept_rely _ _ _ hs := approvalsKept_of_eq (accept_announced hs).1
  accept_holds {P c w'} _ hC hs := by
    have hsub : ApprovalsKept P.shared w' := approvalsKept_of_eq (accept_announced hs).1
    refine announce_code ?_
    rintro request requestId rfl
    simp only [announcesCommitted, decide_eq_true_eq] at hC
    exact hC.mono hsub
  env_inv hI _ hs := announced_env hs hI
  env_rely _ _ hs := approvalsKept_of_eq (env_sameCalls hs).2.approvals
  halt_inv {P} hI _ := by
    have h : Announced start P.shared.crash := hI.of_eq rfl rfl
    exact h

/-- If no notifier starts, and no worker loads the row, before the approval is committed, then
nothing is sent to the HCM or deducted there for an approval that is not committed. -/
theorem announced_if_committed (cfg : Config) (start : Store) (clock nextId : ℕ)
    (hcmBalances : List (String × HcmBalance))
    {P : Pool Call FlatOp FlatOp.Resp Err (Option RequestBody) World}
    (hP : (flatMachine cfg).Reach (fun P a => announcesCommitted start P a = true)
      (Pool.init (World.init start clock nextId (.init hcmBalances))) P) :
    (∀ m ∈ P.shared.hcm.inTransit, CommittedApproved start P.shared m.2.referenceId) ∧
      ∀ d ∈ P.shared.hcm.deducted, CommittedApproved start P.shared d.1 := by
  have hinv : Announced start (World.init start clock nextId (.init hcmBalances)) :=
    ⟨fun _ h => (nomatch h), fun _ h => (nomatch h)⟩
  have h : Announced start P.shared := ((announcements start cfg).good_of_reach hinv hP).inv
  exact ⟨h.inTransit, h.deducted⟩

/-- A request of two days that waits for its approval. -/
def waiting : TimeOffRequest :=
  ⟨0, "key-1", "EMP123", "LOC1", "VACATION", "2030-01-07", "2030-01-08", 2, .pending, "EMP123",
    none, none, none, none, false, .pending, 0, none, 1, 1000, 1000⟩

def oneWaiting : Store :=
  { Store.ofBalance ⟨plainKey, 10, 8, 2, 0, 10, none, none, false, none, 1⟩ with
    requests := [waiting]
    requestIds := List.nodup_singleton _
    requestKeys := List.nodup_singleton _ }

def waitingWorld : World :=
  World.init oneWaiting 1000 1 (.init [(getBalanceKey plainKey, ⟨10, 10⟩)])

/-- The entity that the approval of `waiting` hands to the notifier. -/
def approved : TimeOffRequest :=
  { waiting with
    status := .approved
    approvedBy := some "MGR1"
    approvedAt := some 1000
    version := 2 }

/-- The notifier of an approval runs until the HCM has deducted. -/
def notify : List (Act Call Choice Env) :=
  [.start (.task (.notifyApprovalToHcm approved 0)), .step 1 (.validated (some ⟨some true⟩)),
    .step 1 .go, .env (.deliver 0)]

/-- The notifier runs before the commit of the approval, which fails. -/
def notifiedTooEarly : List (Act Call Choice Env) :=
  .start (.approve 0 "MGR1") :: List.replicate 7 (.step 0 .go) ++ notify ++
    [.step 0 (.fail .busy "SQLITE_BUSY: database is locked"), .step 0 .go]

theorem notifiedTooEarly_runs : ((flatMachine plainConfig).run (fun _ _ => True)
    (Pool.init waitingWorld) notifiedTooEarly).isSome = true := by
  decide +kernel

/-- The HCM deducts two days for an approval that is rolled back. -/
theorem rolled_back_approval_deducted :
    ¬ ∀ (cfg : Config) (start : Store) (clock nextId : ℕ)
      (hcmBalances : List (String × HcmBalance))
      (P : Pool Call FlatOp FlatOp.Resp Err (Option RequestBody) World),
      (flatMachine cfg).Reach (fun _ _ => True)
          (Pool.init (World.init start clock nextId (.init hcmBalances))) P →
        (∀ m ∈ P.shared.hcm.inTransit, CommittedApproved start P.shared m.2.referenceId) ∧
          ∀ d ∈ P.shared.hcm.deducted, CommittedApproved start P.shared d.1 := by
  intro h
  have hdeducted := (h plainConfig oneWaiting 1000 1 _ _
    (Machine.reach_of_run .refl (Option.some_get notifiedTooEarly_runs).symm)).2 (0, 2)
  revert hdeducted
  decide +kernel

def notifiedAfterCommit : List (Act Call Choice Env) :=
  .start (.approve 0 "MGR1") :: List.replicate 8 (.step 0 .go) ++ notify

theorem notifiedAfterCommit_runs : ((flatMachine plainConfig).run
    (fun P a => announcesCommitted oneWaiting P a = true) (Pool.init waitingWorld)
    notifiedAfterCommit).isSome = true := by
  decide +kernel

theorem committed_approval_deducted :
    ∃ P, (flatMachine plainConfig).run (fun P a => announcesCommitted oneWaiting P a = true)
        (Pool.init waitingWorld) notifiedAfterCommit = some P ∧
      ∀ d ∈ P.shared.hcm.deducted, CommittedApproved oneWaiting P.shared d.1 := by
  have hrun := (Option.some_get notifiedAfterCommit_runs).symm
  refine ⟨_, hrun, ?_⟩
  exact (announced_if_committed plainConfig oneWaiting 1000 1 _
    (Machine.reach_of_run .refl hrun)).2

end Runs

end TimeOff
