import TimeOff.CreateRule
import TimeOff.FlatOps

/-! What reaches the HCM: the steps that send or deliver a PUT, and the proof rules of the two
callers that send one, the approval notifier and the worker. -/
namespace TimeOff

open Async

section Traffic

variable {w w' : World} {i : ℕ} {c : Call} {cfg : Config}

/-- Only the tasks and the worker send. -/
theorem sender_of_each {put : PutBalance} (h : FlatCallOp cfg c (.base (.sendPut put))) :
    c = .retrySyncs ∨ ∃ t, c = .task t := by
  cases h with
  | base h =>
    cases h with
    | create h => cases h
    | retrySyncs h => exact .inl rfl
    | task t h => exact .inr ⟨t, rfl⟩

/-- Only an approval hands its request to the notifier. -/
theorem approval_of_each {request : TimeOffRequest} {requestId : ℕ}
    (h : FlatCallOp cfg c (.tx (.setImmediate (.notifyApprovalToHcm request requestId)))) :
    ∃ approverId, c = .approve requestId approverId := by
  cases h with
  | tx h =>
    cases h with
    | approve _ _ h => cases h
    | approveTask _ approverId _ => exact ⟨approverId, rfl⟩
    | reject _ _ _ h => cases h
    | cancel _ _ h => cases h

theorem World.acknowledge_hcm (requestId : ℕ) (r : Except Err PutReply) :
    (w.acknowledge requestId r).hcm = w.hcm ∧
      (w.acknowledge requestId r).immediates = w.immediates := by
  cases r with
  | ok reply =>
    simp only [World.acknowledge]
    split <;> exact ⟨rfl, rfl⟩
  | error e => exact ⟨rfl, rfl⟩

/-- A step leaves the HCM and its messages alone, or sends one PUT. -/
theorem flatExec_hcm {o : FlatOp} {x : Choice} {r : Except Err o.Resp}
    (h : o.exec i x w = some (r, w')) :
    w'.hcm = w.hcm ∨
      ∃ put, o = .base (.sendPut put) ∧ x = .go ∧ w'.hcm = (w.hcm.send put).2 := by
  -- one operation sends, and only when it is not lost before
  cases o with
  | base o =>
    cases o with
    | db o =>
      obtain ⟨⟨r', u⟩, hu, heq⟩ := Option.map_eq_some_iff.mp h
      cases heq
      rcases execDb_cases hu with ⟨_, _, _, rfl⟩ | ⟨_, rfl⟩ <;> exact .inl rfl
    | awaitPrevious =>
      obtain ⟨l, _, heq⟩ := Option.map_eq_some_iff.mp h
      cases heq
      exact .inl rfl
    | awaitPut message put =>
      obtain ⟨l, _, heq⟩ := Option.map_eq_some_iff.mp h
      cases heq
      exact .inl (World.acknowledge_hcm _ _).1
    | validateRequest key days => cases x <;> cases h <;> exact .inl rfl
    | sendPut put =>
      cases x with
      | go =>
        cases h
        exact .inr ⟨put, rfl, rfl, rfl⟩
      | lost e =>
        cases h
        exact .inl rfl
      | _ => cases h
    | _ =>
      cases h
      exact .inl rfl
  | begin =>
    rw [begin_cases h]
    exact .inl rfl
  | tx o =>
    cases o with
    | db o => rcases txDb_cases h with ⟨_, _, _, rfl⟩ | ⟨_, rfl⟩ <;> exact .inl rfl
    | now =>
      cases h
      exact .inl rfl
    | setImmediate task =>
      cases h
      exact .inl rfl
  | commit => rcases commit_cases h with ⟨_, _, _, rfl⟩ | ⟨_, rfl⟩ <;> exact .inl rfl
  | rollback =>
    rw [(rollback_cases h).2]
    exact .inl rfl

/-- A step leaves the queue of tasks alone, or adds one task. -/
theorem flatExec_immediates {o : FlatOp} {x : Choice} {r : Except Err o.Resp}
    (h : o.exec i x w = some (r, w')) :
    w'.immediates = w.immediates ∨ ∃ task,
      (o = .base (.setImmediate task) ∨ o = .tx (.setImmediate task)) ∧
        w' = w.schedule task := by
  -- a task is scheduled from a service or from a transaction callback
  cases o with
  | base o =>
    cases o with
    | db o =>
      obtain ⟨⟨r', u⟩, hu, heq⟩ := Option.map_eq_some_iff.mp h
      cases heq
      rcases execDb_cases hu with ⟨_, _, _, rfl⟩ | ⟨_, rfl⟩ <;> exact .inl rfl
    | awaitPrevious =>
      obtain ⟨l, _, heq⟩ := Option.map_eq_some_iff.mp h
      cases heq
      exact .inl rfl
    | awaitPut message put =>
      obtain ⟨l, _, heq⟩ := Option.map_eq_some_iff.mp h
      cases heq
      exact .inl (World.acknowledge_hcm _ _).2
    | setImmediate task =>
      cases h
      exact .inr ⟨task, .inl rfl, rfl⟩
    | validateRequest key days => cases x <;> cases h <;> exact .inl rfl
    | sendPut put => cases x <;> cases h <;> exact .inl rfl
    | _ =>
      cases h
      exact .inl rfl
  | begin =>
    rw [begin_cases h]
    exact .inl rfl
  | tx o =>
    cases o with
    | db o => rcases txDb_cases h with ⟨_, _, _, rfl⟩ | ⟨_, rfl⟩ <;> exact .inl rfl
    | now =>
      cases h
      exact .inl rfl
    | setImmediate task =>
      cases h
      exact .inr ⟨task, .inr rfl, rfl⟩
  | commit => rcases commit_cases h with ⟨_, _, _, rfl⟩ | ⟨_, rfl⟩ <;> exact .inl rfl
  | rollback =>
    rw [(rollback_cases h).2]
    exact .inl rfl

/-- Approvals stay committed. -/
theorem flatExec_approvals {o : FlatOp} {x : Choice} {r : Except Err o.Resp}
    (h : o.exec i x w = some (r, w')) : w.history.approvals ⊆ w'.history.approvals := by
  cases o with
  | base o =>
    rw [(baseExec_sameCalls h).approvals]
    exact List.Subset.refl _
  | begin =>
    rw [begin_cases h]
    exact List.Subset.refl _
  | tx o =>
    cases o with
    | db o =>
      rcases txDb_cases h with ⟨_, _, _, rfl⟩ | ⟨_, rfl⟩ <;> exact List.Subset.refl _
    | now =>
      cases h
      exact List.Subset.refl _
    | setImmediate task =>
      cases h
      exact List.Subset.refl _
  -- the commit notes the approval, if it was one
  | commit =>
    rcases commit_cases h with ⟨_, _, _, rfl⟩ | ⟨_, rfl⟩
    · exact List.Subset.refl _
    · exact List.subset_append_right _ _
  | rollback =>
    rw [(rollback_cases h).2]
    exact List.Subset.refl _

/-- A PUT that arrives leaves the messages, and is deducted at most once. -/
theorem deliver_cases {h h' : MockHcm} {message : ℕ} (hd : h.deliver message = some h') :
    ∃ put, (message, put) ∈ h.inTransit ∧ h'.inTransit = h.inTransit.filter (·.1 ≠ message) ∧
      h'.nextMessage = h.nextMessage ∧
        (h'.deducted = h.deducted ∨
          h'.deducted = (put.referenceId, put.daysRequested) :: h.deducted) := by
  obtain ⟨put, hput, rfl⟩ := Option.map_eq_some_iff.mp hd
  refine ⟨put, ?_, ?_⟩
  · obtain ⟨l₁, l₂, hl, _⟩ := List.lookup_eq_some_iff.mp hput
    rw [hl]
    simp
  · dsimp only [MockHcm.putBalance]
    split
    · exact ⟨rfl, rfl, .inl rfl⟩
    · exact ⟨rfl, rfl, .inr rfl⟩

/-- What the environment does to the HCM: a message arrives, or is dropped. -/
theorem env_hcm {e : Env} (h : e.exec w = some w') :
    w'.hcm = w.hcm ∨ (∃ message, w.hcm.deliver message = some w'.hcm) ∨
      ∃ message, w'.hcm = w.hcm.remove message := by
  cases e with
  | tick ms =>
    cases h
    exact .inl rfl
  | drop message =>
    cases h
    exact .inr (.inr ⟨message, rfl⟩)
  | settle i =>
    obtain ⟨l, _, rfl⟩ := Option.map_eq_some_iff.mp h
    exact .inl rfl
  | deliver message =>
    obtain ⟨l, hl, rfl⟩ := Option.map_eq_some_iff.mp h
    exact .inr (.inl ⟨message, hl⟩)

end Traffic

section Callers

theorem mem_of_pendingSync {w : World} {take : ℕ} {rows : List TimeOffRequest}
    {row : TimeOffRequest} (h : (w.db (.findPendingSync take)).1 = .ok rows) (hrow : row ∈ rows) :
    row ∈ w.store.requests ∧ row.hcmSyncStatus = .pending := by
  cases h
  have hmem := List.mem_filter.mp ((List.mem_insertionSort _).mp (List.mem_of_mem_take hrow))
  exact ⟨hmem.1, by simpa using hmem.2⟩

variable {cfg : Config} {step : (o : FlatOp) → World → Except Err o.Resp → World → Prop}
  {R G : World → World → Prop} {w : World}

/-- The operations of a program without transactions, each on its own. -/
theorem holds_sync {α : Type} {puts : PutBalance → Prop} {p : Svc α} (A : World → Prop)
    (hp : p.Each (SyncOp puts)) (hR : ∀ w w', R w w' → A w → A w')
    (hop : ∀ o w r w', SyncOp puts (.base o) → A w → step (.base o) w r w' → G w w' ∧ A w')
    (hw : A w) : (p.interp flatten).Holds step R G (fun _ w => A w) w := by
  have heach : (p.interp flatten).Each fun o => ∃ b, o = .base b ∧ SyncOp puts (.base b) := by
    refine Prog.Each.interp hp fun o ho => ?_
    cases o with
    | base b => exact Prog.Each.perform ⟨b, rfl, ho⟩
    | transaction body => cases ho
  refine Prog.Holds.of_each_inv A hR ?_ heach hw
  rintro _ w r w' ⟨b, rfl, hb⟩ hA hs
  exact hop b w r w' hb hA hs

/-- The rule of a retried call: each attempt ends as `Q` says. -/
theorem holds_callWithResilience {β : Type} {fn : Svc β} {Q : Except Err β → World → Prop}
    (hfn : ∀ w, (fn.interp flatten).Holds step R G Q w)
    (hsleep : ∀ ms w r w', step (.base (.sleep ms)) w r w' → G w w')
    (herror : ∀ e w, Q (.error e) w) (w : World) :
    ((callWithResilience cfg fn).interp flatten).Holds step R G
      (fun r w => ∀ v, r = .ok (some v) → Q (.ok v) w) w := by
  -- the induction is on the attempts that are left
  have hretry (left attempt : ℕ) (w : World) :
      ((retryFrom cfg fn attempt left).interp flatten).Holds step R G Q w := by
    induction left generalizing attempt w with
    | zero => exact herror _ _
    | succ left ih =>
      refine Prog.Holds.interp_handle (Prog.Holds.mono ?_ (hfn w))
      rintro (e | v) w₁ hQ
      · dsimp only [Prog.caught]
        split
        · exact herror _ _
        · refine Prog.Holds.interp_bind (holds_base (.sleep _) (Prog.Holds.perform ?_))
          intro w₂ _ r w₃ hs
          refine ⟨hsleep _ w₂ r w₃ hs, ?_⟩
          cases r with
          | error e => exact herror _ _
          | ok _ => exact ih _ _
      · exact hQ
  refine Prog.Holds.interp_handle (Prog.Holds.interp_bind (Prog.Holds.mono ?_ (hretry _ _ w)))
  -- either error ends without an answer
  rintro (e | v) w₁ hQ
  · dsimp only [Prog.after, Prog.caught]
    split <;> exact fun _ h => nomatch h
  · rintro _ ⟨⟩
    exact hQ

/-- The PUTs of a worker that has loaded `rows`. -/
def PutOf (rows : List TimeOffRequest) (put : PutBalance) : Prop :=
  ∃ row ∈ rows, row.status = .approved ∧ put = ⟨row.balanceKey, row.daysRequested, row.id⟩

/-- The rule of the approval notifier. -/
theorem holds_notifier {request : TimeOffRequest} {requestId : ℕ} (A : World → Prop)
    (hR : ∀ w w', R w w' → A w → A w')
    (hop : ∀ o w r w', SyncOp (· = ⟨request.balanceKey, request.daysRequested, requestId⟩)
      (.base o) → A w → step (.base o) w r w' → G w w' ∧ A w') (hw : A w) :
    (((Call.task (.notifyApprovalToHcm request requestId)).svc cfg).interp flatten).Holds step R G
      (fun _ _ => True) w := by
  have heach : (notifyApprovalToHcmAsync cfg request requestId).Each
      (SyncOp (· = ⟨request.balanceKey, request.daysRequested, requestId⟩)) :=
    notifyApprovalToHcmAsync_each cfg rfl
  refine Prog.Holds.interp_bind (Prog.Holds.mono ?_ (holds_sync A heach hR hop hw))
  rintro (e | _) _ _ <;> trivial

/-- The rule of the validator, which sends nothing. -/
theorem holds_validator {requestId : ℕ} {key : BalanceKey} {days : Num}
    (hop : ∀ o w r w', SyncOp (fun _ => False) (.base o) → step (.base o) w r w' → G w w') :
    (((Call.task (.notifyHcm requestId key days)).svc cfg).interp flatten).Holds step R G
      (fun _ _ => True) w := by
  refine Prog.Holds.interp_bind (Prog.Holds.mono ?_
    (holds_sync (fun _ => True) (notifyHcmAsync_each requestId key days)
      (fun _ _ _ => id) (fun o w r w' ho _ hs => ⟨hop o w r w' ho hs, trivial⟩) trivial))
  rintro (e | _) _ _ <;> trivial

/-- The rule of the worker: `A rows` holds from the moment it has loaded `rows`. -/
theorem holds_worker (A : List TimeOffRequest → World → Prop)
    (hR : ∀ rows w w', R w w' → A rows w → A rows w')
    (hload : ∀ w r w', step (.base (.db (.findPendingSync 50))) w r w' →
      G w w' ∧ ∀ rows, r = .ok rows → A rows w')
    (hop : ∀ rows o w r w', SyncOp (PutOf rows) (.base o) → A rows w → step (.base o) w r w' →
      G w w' ∧ A rows w') :
    ((Call.retrySyncs.svc cfg).interp flatten).Holds step R G (fun _ _ => True) w := by
  refine Prog.Holds.interp_bind (holds_db_bind _ (Prog.Holds.perform ?_))
  intro w₁ _ r w₂ hs
  obtain ⟨hG, hA⟩ := hload w₁ r w₂ hs
  refine ⟨hG, ?_⟩
  rcases r with e | rows
  · trivial
  -- every put of the worker is for a row that it loaded
  have heach : (retryEach cfg rows).Each (SyncOp (PutOf rows)) :=
    retryEach_each cfg fun row hrow hstatus => ⟨row, hrow, hstatus, rfl⟩
  refine Prog.Holds.mono ?_ (holds_sync (A rows) heach (hR rows) (hop rows) (hA rows rfl))
  rintro (e | _) _ _ <;> trivial

end Callers

end TimeOff
