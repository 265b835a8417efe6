import TimeOff.CreateAlone
import TimeOff.HcmSyncService

/-! The first attempt of an HCM sync and the worker's retry of it, on the same snapshot of a
request and the same answers of the HCM. For an approved request they are one program. For a
pending one they read a reply without a boolean `valid` in opposite ways. -/
namespace TimeOff

open Async

/-- What the worker does with a request whose attempts are not used up. -/
def workerTry (cfg : Config) (request : TimeOffRequest) : Svc Unit :=
  (retryByStatus cfg request).handle fun _ =>
    updateSyncAttempt request { hcmSyncStatus := some .pending }

section Approved

variable (request : TimeOffRequest) {g : Bool → Svc Unit}

/-- From `notifyApproval` on, the two flows are the same. -/
theorem retryApproval_eq (cfg : Config) :
    retryApproval cfg request true =
      (notifyApproval cfg request.balanceKey request.daysRequested request.id).bind fun res =>
        Svc.now.bind fun now => updateRequest request.id
          { hcmSyncStatus := some (if approvalAcknowledged res then .success else .pending)
            hcmValidated := some true
            hcmSyncAttempts := some (request.hcmSyncAttempts + 1)
            hcmLastSyncAt := some (some now) } := by
  unfold retryApproval
  rw [Prog.bind_def]
  congr 1
  funext res
  cases approvalAcknowledged res with
  | true => rfl
  | false => rfl

/-- A write after which the first attempt stops is one of the worker's. -/
theorem writes_and_stops (patch : RequestPatch) :
    (Svc.now.bind fun now =>
      ((updateRequest request.id
        { patch with
          hcmSyncAttempts := some (request.hcmSyncAttempts + 1)
          hcmLastSyncAt := some (some now) }).bind fun _ => Prog.ret false).bind
            fun isValidated : Bool => if isValidated then g isValidated else Prog.ret ()) =
      updateSyncAttempt request patch := by
  simp only [Prog.bind_assoc]
  unfold updateSyncAttempt
  rw [Prog.bind_def]
  congr 1
  funext now
  exact Prog.bind_ret _

theorem notifyApprovalToHcm_eq (cfg : Config) :
    notifyApprovalToHcm cfg request request.id = retryApprovalFlow cfg request := by
  unfold notifyApprovalToHcm retryApprovalFlow validateApproval
  rw [retryApproval_eq]
  by_cases hvalidated : request.hcmValidated
  · rw [if_pos hvalidated, if_pos hvalidated]
    rfl
  · rw [if_neg hvalidated, if_neg hvalidated]
    simp only [Prog.bind_def, Prog.bind_assoc]
    -- the two go on with the same answer
    congr 1
    funext validation
    cases validation with
    | none =>
      exact (Prog.bind_assoc _ _ _).trans
        (writes_and_stops request { hcmSyncStatus := some .pending })
    | some reply =>
      by_cases hvalid : reply.valid ≠ some true
      · dsimp only
        rw [if_pos hvalid, if_pos hvalid]
        exact (Prog.bind_assoc _ _ _).trans (writes_and_stops request
          { hcmSyncStatus := some .failed, hcmValidated := some false })
      · dsimp only
        rw [if_neg hvalid, if_neg hvalid]
        rfl

end Approved

/-- How the one call of `validateRequest` ends. -/
inductive HcmOutcome
  | null
  | thrown
  | reply (validation : ValidateReply)

def HcmOutcome.choice : HcmOutcome → Choice
  | null => .validated none
  | thrown => .broken
  | reply validation => .validated (some validation)

/-- One operation when nothing fails but the HCM, which ends validations as given. -/
def Op.answered (x : HcmOutcome) : (o : Op) → World → Option (Except Err o.Resp × World)
  | .base (.validateRequest key days), w => (BaseOp.validateRequest key days).exec 0 x.choice w
  | .base (.db o), w => (Op.base (.db o)).quiet 0 w
  | .base o, w => (Op.base o).quiet 0 w
  | .transaction body, w => (Op.transaction body).quiet 0 w

/-- The sync status of a request and whether it is validated, after the program has run
alone. -/
def syncAfter (x : HcmOutcome) (p : Svc Unit) (w : World) (id : ℕ) :
    Option (HcmSyncStatus × Bool) :=
  (p.eval (Op.answered x) w).bind fun r =>
    (r.2.store.request? id).map fun row => (row.hcmSyncStatus, row.hcmValidated)

section Pending

variable {w : World} {row : TimeOffRequest} {id : ℕ} {x : HcmOutcome}

theorem syncAfter_updateRequest (x : HcmOutcome) (hrow : w.store.request? id = some row)
    (patch : RequestPatch) :
    syncAfter x (updateRequest id patch) w id =
      some (patch.hcmSyncStatus.getD row.hcmSyncStatus,
        patch.hcmValidated.getD row.hcmValidated) := by
  show ((w.store.saveRequest id _).request? id).map _ = _
  rw [Store.request?_saveRequest, hrow, Option.map_some, Option.map_some,
    if_pos (Store.request?_eq_some.mp hrow).2]
  rfl

/-- What becomes of a request when its creation is announced to the HCM. -/
def firstClass (x : HcmOutcome) (row : TimeOffRequest) : HcmSyncStatus × Bool :=
  match x with
  | .reply ⟨some false⟩ => (.failed, false)
  | .reply _ => (.success, true)
  | .null => (.pending, row.hcmValidated)
  | .thrown => (.pending, row.hcmValidated)

/-- What becomes of it when the worker retries. -/
def retryClass (x : HcmOutcome) (row : TimeOffRequest) : HcmSyncStatus × Bool :=
  match x with
  | .reply ⟨some true⟩ => (.success, true)
  | .reply _ => (.failed, false)
  | .null => (.pending, row.hcmValidated)
  | .thrown => (.pending, row.hcmValidated)

theorem classes_eq_iff : firstClass x row = retryClass x row ↔ x ≠ .reply ⟨none⟩ := by
  cases x with
  | null => simp [firstClass, retryClass]
  | thrown => simp [firstClass, retryClass]
  | reply validation =>
    obtain ⟨valid⟩ := validation
    rcases valid with _ | _ | _
    · simp [firstClass, retryClass]
    · simp [firstClass, retryClass]
    · simp [firstClass, retryClass]

theorem syncAfter_notifyHcmAsync (hrow : w.store.request? id = some row) (key : BalanceKey)
    (days : Num) :
    syncAfter x (notifyHcmAsync id key days) w id = some (firstClass x row) := by
  cases x with
  | null => exact syncAfter_updateRequest .null hrow _
  | thrown => exact syncAfter_updateRequest .thrown hrow _
  | reply validation =>
    obtain ⟨valid⟩ := validation
    rcases valid with _ | _ | _
    · exact syncAfter_updateRequest (.reply ⟨none⟩) hrow _
    · exact syncAfter_updateRequest (.reply ⟨some false⟩) hrow _
    · exact syncAfter_updateRequest (.reply ⟨some true⟩) hrow _

theorem syncAfter_workerTry (cfg : Config) {request : TimeOffRequest}
    (hrow : w.store.request? request.id = some row) (hpending : request.status = .pending)
    (hnot : request.hcmValidated = false) :
    syncAfter x (workerTry cfg request) w request.id = some (retryClass x row) := by
  have hvalidation : (if request.hcmValidated then pure (some ⟨some true⟩)
      else validateRequest request.balanceKey (some request.daysRequested) :
        Svc (Option ValidateReply)) =
      validateRequest request.balanceKey (some request.daysRequested) := by
    rw [hnot]
    rfl
  unfold workerTry retryByStatus
  rw [hpending]
  -- the row is not validated, so the worker asks HCM as the first try did
  dsimp only
  unfold retryValidationOnly
  rw [hvalidation]
  cases x with
  | null => exact syncAfter_updateRequest .null hrow _
  | thrown => exact syncAfter_updateRequest .thrown hrow _
  | reply validation =>
    obtain ⟨valid⟩ := validation
    rcases valid with _ | _ | _
    · exact syncAfter_updateRequest (.reply ⟨none⟩) hrow _
    · exact syncAfter_updateRequest (.reply ⟨some false⟩) hrow _
    · exact syncAfter_updateRequest (.reply ⟨some true⟩) hrow _

end Pending

/-- For an approved request the first attempt and the worker's perform the same operations,
whatever each of them answers. For a pending one that is not validated they leave the same
sync status and flag exactly if the reply, if there is one, has a boolean `valid`. -/
theorem replies_classed_alike_iff (cfg : Config) (request : TimeOffRequest) :
    (request.status = .approved →
      notifyApprovalToHcmAsync cfg request request.id = workerTry cfg request) ∧
    (request.status = .pending → request.hcmValidated = false →
      ∀ (w : World) (row : TimeOffRequest) (x : HcmOutcome),
        w.store.request? request.id = some row →
        ∃ first retried,
          syncAfter x (notifyHcmAsync request.id request.balanceKey (some request.daysRequested))
            w request.id = some first ∧
          syncAfter x (workerTry cfg request) w request.id = some retried ∧
          (first = retried ↔ x ≠ .reply ⟨none⟩)) := by
  constructor
  · intro happroved
    unfold notifyApprovalToHcmAsync workerTry retryByStatus
    rw [notifyApprovalToHcm_eq, happroved]
    rfl
  · intro hpending hnot w row x hrow
    exact ⟨_, _, syncAfter_notifyHcmAsync hrow _ _, syncAfter_workerTry cfg hrow hpending hnot,
      classes_eq_iff⟩

/-- A request of one day in the given status, and a process that holds nothing else. -/
def announced (status : RequestStatus) : TimeOffRequest where
  id := 0
  idempotencyKey := "k0"
  employeeId := "EMP123"
  locationId := "LOC1"
  leaveType := "VACATION"
  startDate := "2026-06-01"
  endDate := "2026-06-01"
  daysRequested := 1
  status := status
  requestedBy := "EMP123"
  approvedBy := none
  approvedAt := none
  rejectionReason := none
  notes := none
  hcmValidated := false
  hcmSyncStatus := .pending
  hcmSyncAttempts := 0
  hcmLastSyncAt := none
  version := 1
  createdAt := 0
  updatedAt := 0

def announcedWorld : World :=
  World.init ⟨[], [announced .pending], [], List.nodup_nil, List.nodup_singleton _,
    List.nodup_singleton _, List.nodup_nil⟩ 0 1 (.init [])

/-- An approved request, and a pending one whose validation is answered with `true`. -/
theorem clear_replies_classed_alike :
    notifyApprovalToHcmAsync plainConfig (announced .approved) 0 =
        workerTry plainConfig (announced .approved) ∧
      ∃ first retried,
        syncAfter (.reply ⟨some true⟩) (notifyHcmAsync 0 plainKey (some 1)) announcedWorld 0 =
          some first ∧
        syncAfter (.reply ⟨some true⟩) (workerTry plainConfig (announced .pending))
          announcedWorld 0 = some retried ∧
        (first = retried ↔ HcmOutcome.reply ⟨some true⟩ ≠ .reply ⟨none⟩) :=
  ⟨(replies_classed_alike_iff plainConfig (announced .approved)).1 rfl,
    (replies_classed_alike_iff plainConfig (announced .pending)).2 rfl rfl announcedWorld
      (announced .pending) (.reply ⟨some true⟩) rfl⟩

/-- A reply without `valid` is a success to the first attempt and a failure to the retry. -/
theorem silent_reply_parts_them :
    (announced .pending).status = .pending ∧ (announced .pending).hcmValidated = false ∧
      announcedWorld.store.request? 0 = some (announced .pending) ∧
      syncAfter (.reply ⟨none⟩) (notifyHcmAsync 0 plainKey (some 1)) announcedWorld 0 ≠
        syncAfter (.reply ⟨none⟩) (workerTry plainConfig (announced .pending))
          announcedWorld 0 := by
  refine ⟨rfl, rfl, rfl, ?_⟩
  have hfirst : syncAfter (.reply ⟨none⟩) (notifyHcmAsync 0 plainKey (some 1)) announcedWorld 0 =
      some (.success, true) :=
    syncAfter_notifyHcmAsync rfl plainKey (some 1)
  have hretried : syncAfter (.reply ⟨none⟩) (workerTry plainConfig (announced .pending))
      announcedWorld 0 = some (.failed, false) :=
    syncAfter_workerTry (w := announcedWorld) plainConfig rfl rfl rfl
  rw [hfirst, hretried]
  decide

end TimeOff
