import TimeOff.KeptColumns
import TimeOff.LocalFirst

/-! At most one deduction: what the HCM subtracts on behalf of a request, when no PUT is sent
again after one that was applied or may still be. -/
namespace TimeOff

open Async

section Rows

/-- The request of this id is for so many days. -/
abbrev Known (w : World) (requestId : ℕ) (days : ℚ) : Prop :=
  KnownAs TimeOffRequest.daysRequested w requestId days

/-- Rows keep their days, and new rows have days that are not negative. -/
abbrev RowsKept (w w' : World) : Prop :=
  ColumnsKept TimeOffRequest.daysRequested (0 ≤ ·) w w'

variable {w w' : World} {i : ℕ} {c : Call} {cfg : Config}

theorem rowsKept_undo (entries : List Entry)
    (hstore : w'.store = undoAll entries w.store) (hnext : w'.nextId = w.nextId) :
    RowsKept w w' := by
  refine ⟨hnext.ge, fun row hrow => .inl ?_⟩
  rw [hstore] at hrow
  revert row
  -- the induction is over the journal; a restored request keeps its id and its days
  refine undoAll_inv (fun s => ∀ row ∈ s.requests, ∃ old ∈ w.store.requests,
    old.id = row.id ∧ old.daysRequested = row.daysRequested) ?_ ?_
  · exact fun row hrow => ⟨row, hrow, rfl, rfl⟩
  · intro e _ u _ s hs row hrow
    cases u with
    | request id patch =>
      obtain ⟨r, hr, rfl⟩ := List.mem_map.mp hrow
      obtain ⟨old, hold, hid, hdays⟩ := hs r hr
      refine ⟨old, hold, ?_, ?_⟩ <;> split <;> assumption
    -- a rollback only takes rows away
    | newRequest id => exact hs row (List.mem_of_mem_filter hrow)
    | _ => exact hs row hrow

/-- Every step of every call keeps the rows. -/
theorem flatExec_rows {o : FlatOp} {x : Choice} {r : Except Err o.Resp}
    (hc : FlatCallOp cfg c o) (h : o.exec i x w = some (r, w')) : RowsKept w w' := by
  cases flatExec_tables h with
  | same hstore hnext => exact columnsKept_of_eq (by rw [hstore]) hnext.ge
  | undo _ hstore hnext => exact rowsKept_undo _ hstore hnext
  | db d hd hstore hnext =>
    refine columnsKept_db hstore hnext (fun _ _ => rfl) ?_
    rintro request row rfl hrow
    -- the new row's days are positive by the rule of `createRequest`
    obtain ⟨dto, key, _, _, rfl⟩ := insertRequest_of_each hc hd
    obtain ⟨days, hdays, rfl⟩ := Option.map_eq_some_iff.mp hrow
    exact zero_le_one.trans (one_le_calculateDaysRequested hdays)

end Rows

section Once

/-- No request has two PUTs that were deducted or are under way, and each is for the days of its
request. -/
structure OnceDeducted (w : World) : Prop where
  drawn : IdsDrawn w
  nonneg : ∀ row ∈ w.store.requests, 0 ≤ row.daysRequested
  tasks : ∀ request requestId, .notifyApprovalToHcm request requestId ∈ w.immediates →
    Known w requestId request.daysRequested
  inTransit : ∀ m ∈ w.hcm.inTransit, Known w m.2.referenceId m.2.daysRequested
  deducted : ∀ d ∈ w.hcm.deducted, Known w d.1 d.2
  sentOnce : (w.hcm.inTransit.map (·.2.referenceId)).Nodup
  deductedOnce : (w.hcm.deducted.map (·.1)).Nodup
  apart : ∀ m ∈ w.hcm.inTransit, ∀ d ∈ w.hcm.deducted, m.2.referenceId ≠ d.1

/-- No PUT of this request was deducted or is under way. -/
def unsent (h : MockHcm) (requestId : ℕ) : Bool :=
  h.inTransit.all (·.2.referenceId ≠ requestId) && h.deducted.all (·.1 ≠ requestId)

variable {w w' : World} {i : ℕ} {c : Call} {cfg : Config}

theorem OnceDeducted.of_eq (h : OnceDeducted w) (hk : RowsKept w w') (hhcm : w'.hcm = w.hcm)
    (htasks : ∀ request requestId, .notifyApprovalToHcm request requestId ∈ w'.immediates →
      .notifyApprovalToHcm request requestId ∈ w.immediates ∨
        Known w' requestId request.daysRequested) : OnceDeducted w' where
  drawn := h.drawn.mono hk
  nonneg row hrow := by
    rcases hk.rows row hrow with ⟨old, hold, _, hdays⟩ | ⟨_, _, hnonneg⟩
    · exact hdays ▸ h.nonneg old hold
    · exact hnonneg
  tasks request requestId hmem := by
    rcases htasks request requestId hmem with hold | hknown
    · exact (h.tasks request requestId hold).mono hk
    · exact hknown
  inTransit m hm := (h.inTransit m (hhcm ▸ hm)).mono hk
  deducted d hd := (h.deducted d (hhcm ▸ hd)).mono hk
  sentOnce := hhcm ▸ h.sentOnce
  deductedOnce := hhcm ▸ h.deductedOnce
  apart m hm d hd := h.apart m (hhcm ▸ hm) d (hhcm ▸ hd)

/-- The rows of the tables are known. -/
theorem OnceDeducted.known (h : OnceDeducted w) {row : TimeOffRequest}
    (hrow : row ∈ w.store.requests) : Known w row.id row.daysRequested :=
  IdsDrawn.known h.drawn hrow

theorem OnceDeducted.send {put : PutBalance} (h : OnceDeducted w)
    (hput : Known w put.referenceId put.daysRequested)
    (hfirst : unsent w.hcm put.referenceId = true) :
    OnceDeducted { w with hcm := (w.hcm.send put).2 } := by
  simp only [unsent, Bool.and_eq_true, List.all_eq_true, decide_eq_true_eq] at hfirst
  -- only the new message joins those in transit
  have hmem (m : ℕ × PutBalance) (hm : m ∈ (w.hcm.send put).2.inTransit) :
      m ∈ w.hcm.inTransit ∨ m.2 = put := by
    rcases List.mem_append.mp hm with hm | hm
    · exact .inl hm
    · rw [List.mem_singleton.mp hm]
      exact .inr rfl
  refine ⟨h.drawn, h.nonneg, h.tasks, fun m hm => ?_, h.deducted, ?_, h.deductedOnce,
    fun m hm d hd => ?_⟩
  · rcases hmem m hm with hm | rfl
    · exact h.inTransit m hm
    · exact hput
  · change ((w.hcm.inTransit ++ [(w.hcm.nextMessage, put)]).map (·.2.referenceId)).Nodup
    rw [List.map_append, List.map_singleton, List.nodup_append]
    refine ⟨h.sentOnce, List.nodup_singleton _, fun a ha b hb => ?_⟩
    obtain ⟨m, hm, rfl⟩ := List.mem_map.mp ha
    rw [List.mem_singleton.mp hb]
    -- the new message is the first one for its request
    exact hfirst.1 m hm
  -- no deduction was made for that request either
  · rcases hmem m hm with hm | rfl
    · exact h.apart m hm d hd
    · exact (hfirst.2 d hd).symm

theorem OnceDeducted.deliver {message : ℕ} {hcm : MockHcm} (h : OnceDeducted w)
    (hd : w.hcm.deliver message = some hcm) : OnceDeducted { w with hcm := hcm } := by
  obtain ⟨put, hput, htransit, _, hded⟩ := deliver_cases hd
  -- its message leaves, and no other message is for the same request
  have hsub (m : ℕ × PutBalance) (hm : m ∈ hcm.inTransit) :
      m ∈ w.hcm.inTransit ∧ m.2.referenceId ≠ put.referenceId := by
    rw [htransit] at hm
    obtain ⟨hm, hne⟩ := List.mem_filter.mp hm
    refine ⟨hm, fun href => ?_⟩
    rw [List.inj_on_of_nodup_map h.sentOnce hm hput href] at hne
    simp at hne
  -- the HCM may refuse, and then deducts nothing
  have hcases (d : ℕ × ℚ) (hd : d ∈ hcm.deducted) :
      d ∈ w.hcm.deducted ∨ d = (put.referenceId, put.daysRequested) := by
    rcases hded with hded | hded <;> rw [hded] at hd
    · exact .inl hd
    · exact (List.mem_cons.mp hd).symm
  refine ⟨h.drawn, h.nonneg, h.tasks, fun m hm => h.inTransit m (hsub m hm).1,
    fun d hd => ?_, ?_, ?_, fun m hm d hd => ?_⟩
  · rcases hcases d hd with hd | rfl
    · exact h.deducted d hd
    · exact h.inTransit _ hput
  · rw [htransit]
    exact h.sentOnce.sublist (List.filter_sublist.map _)
  · rcases hded with hded | hded <;> rw [hded]
    · exact h.deductedOnce
    -- a deduction for the request would have been apart from the message
    · refine List.nodup_cons.mpr ⟨fun hmem => ?_, h.deductedOnce⟩
      obtain ⟨d, hd, href⟩ := List.mem_map.mp hmem
      exact h.apart _ hput d hd href.symm
  · rcases hcases d hd with hd | rfl
    · exact h.apart m (hsub m hm).1 d hd
    · exact (hsub m hm).2

theorem OnceDeducted.remove (h : OnceDeducted w) (message : ℕ) :
    OnceDeducted { w with hcm := w.hcm.remove message } :=
  ⟨h.drawn, h.nonneg, h.tasks, fun m hm => h.inTransit m (List.mem_of_mem_filter hm), h.deducted,
    h.sentOnce.sublist (List.filter_sublist.map _), h.deductedOnce,
    fun m hm => h.apart m (List.mem_of_mem_filter hm)⟩

theorem sum_filter_key {α β : Type} [DecidableEq β] {key : α → β} {l : List α} {a : α}
    (hl : (l.map key).Nodup) (ha : a ∈ l) (f : α → ℚ) :
    ((l.filter fun b => key b = key a).map f).sum = f a := by
  -- the key is unique, so that the filter leaves one element
  have hfilter : (l.filter fun b => key b = key a) = [a] := by
    induction l with
    | nil => cases ha
    | cons b l ih =>
      rw [List.map_cons, List.nodup_cons] at hl
      rcases List.mem_cons.mp ha with rfl | ha
      · rw [List.filter_cons_of_pos (by simp), List.filter_eq_nil_iff.mpr]
        intro b hb hkey
        exact hl.1 ((decide_eq_true_eq.mp hkey) ▸ List.mem_map_of_mem hb)
      · have hne : key b ≠ key a := fun h => hl.1 (h ▸ List.mem_map_of_mem ha)
        rw [List.filter_cons_of_neg (by simpa using hne)]
        exact ih hl.2 ha
  rw [hfilter, List.map_singleton, List.sum_singleton]

/-- Then no more than the days of a request is deducted for it. -/
theorem OnceDeducted.deductedFor_le (h : OnceDeducted w) {row : TimeOffRequest}
    (hrow : row ∈ w.store.requests) : w.hcm.deductedFor row.id ≤ row.daysRequested := by
  by_cases hmem : ∃ d ∈ w.hcm.deducted, d.1 = row.id
  · obtain ⟨d, hd, hid⟩ := hmem
    rw [MockHcm.deductedFor, ← hid, sum_filter_key h.deductedOnce hd,
      (h.deducted d hd).2 row hrow hid.symm]
  · have hnone : (w.hcm.deducted.filter (·.1 = row.id)) = [] := by
      refine List.filter_eq_nil_iff.mpr fun d hd => ?_
      simpa using fun hid => hmem ⟨d, hd, hid⟩
    rw [MockHcm.deductedFor, hnone]
    exact h.nonneg row hrow

end Once

section Steps

variable {w w' : World} {i : ℕ} {c : Call} {cfg : Config}

/-- A step of a call, when a PUT is sent only for a request that has none yet. -/
structure OnceStep (i : ℕ) (o : FlatOp) (w : World) (r : Except Err o.Resp) (w' : World) :
    Prop where
  before : OnceDeducted w
  exec : ∃ x, o.exec i x w = some (r, w') ∧
    (x = .go → ∀ put, o = .base (.sendPut put) → unsent w.hcm put.referenceId = true)

def OnceKept (w w' : World) : Prop :=
  RowsKept w w' ∧ (OnceDeducted w → OnceDeducted w')

/-- A step that hands on and sends the days of the request. -/
theorem onceStep_kept {o : FlatOp} {r : Except Err o.Resp} (hc : FlatCallOp cfg c o)
    (htask : ∀ request requestId, o = .tx (.setImmediate (.notifyApprovalToHcm request requestId)) →
      Known w requestId request.daysRequested)
    (hput : ∀ put, o = .base (.sendPut put) → Known w put.referenceId put.daysRequested)
    (h : OnceStep i o w r w') : OnceKept w w' := by
  obtain ⟨hw, x, hx, hfirst⟩ := h
  have hrows := flatExec_rows hc hx
  -- a task is handed over with a request that is known by then
  have htasks (request : TimeOffRequest) (requestId : ℕ)
      (hmem : .notifyApprovalToHcm request requestId ∈ w'.immediates) :
      .notifyApprovalToHcm request requestId ∈ w.immediates ∨
        Known w' requestId request.daysRequested := by
    rcases flatExec_immediates hx with himm | ⟨task, ho, rfl⟩
    · exact .inl (himm ▸ hmem)
    · rcases List.mem_append.mp hmem with hmem | hmem
      · exact .inl hmem
      -- a base operation of a call hands over no approval
      · rw [← List.mem_singleton.mp hmem] at ho
        rcases ho with rfl | rfl
        · cases hc with
          | base h => cases h with
            | create h => cases h
            | retrySyncs h => cases h
            | task t h => cases h
        · exact .inr ((htask request requestId rfl).mono hrows)
  refine ⟨hrows, fun _ => ?_⟩
  rcases flatExec_hcm hx with hhcm | ⟨put, rfl, rfl, hhcm⟩
  · exact hw.of_eq hrows hhcm htasks
  · exact (hw.send (hput put rfl) (hfirst rfl put rfl)).of_eq ⟨hrows.nextId, hrows.rows⟩ hhcm
      htasks

theorem onceDeducted_env {e : Env} (h : e.exec w = some w') (hw : OnceDeducted w) :
    RowsKept w w' ∧ OnceDeducted w' := by
  cases e with
  | tick ms =>
    cases h
    have hrows : RowsKept w { w with clock := w.clock + ms } := columnsKept_of_eq rfl (le_refl _)
    exact ⟨hrows, hw.of_eq hrows rfl fun _ _ => .inl⟩
  | drop message =>
    cases h
    exact ⟨columnsKept_of_eq rfl (le_refl _), hw.remove message⟩
  | settle i =>
    obtain ⟨l, _, rfl⟩ := Option.map_eq_some_iff.mp h
    have hrows : RowsKept w { w with locks := l } := columnsKept_of_eq rfl (le_refl _)
    exact ⟨hrows, hw.of_eq hrows rfl fun _ _ => .inl⟩
  | deliver message =>
    obtain ⟨hcm, hd, rfl⟩ := Option.map_eq_some_iff.mp h
    exact ⟨columnsKept_of_eq rfl (le_refl _), hw.deliver hd⟩

/-- The approval hands the notifier the days of the row it has loaded. -/
theorem once_approve (cfg : Config) {requestId : ℕ} {approverId : String} (w : World) :
    (approveTransaction requestId approverId).Holds (fun o => OnceStep i (.tx o)) RowsKept OnceKept
      (fun _ _ => True) w := by
  have hop {o : TxOp} {w w' : World} {r : Except Err o.Resp}
      (ho : TransitionOp requestId .approved o) (hs : OnceStep i (.tx o) w r w') :
      OnceKept w w' := by
    have hc : FlatCallOp cfg (.approve requestId approverId) (.tx o) := .tx (.approve _ _ ho)
    refine onceStep_kept hc ?_ (by simp) hs
    rintro request id ⟨⟩
    cases ho
  refine Prog.Holds.bind (Prog.Holds.mono ?_ (holds_transition
    (fun r w => Known w requestId r.daysRequested) (fun r w => Known w requestId r.daysRequested)
    (fun r w => Known w requestId r.daysRequested) (fun _ _ => rfl) ?_ ?_ ?_ ?_))
  -- the task that the approval leaves carries the days of its row
  · rintro (e | request) w₁ hknown
    · trivial
    obtain ⟨r, patch, rfl, hr⟩ := hknown request rfl
    dsimp only [Prog.after]
    refine tx_setImmediate_bind ?_
    intro w₂ hR x w₃ hs
    have hc : FlatCallOp cfg (.approve requestId approverId)
        (.tx (.setImmediate (.notifyApprovalToHcm (patch.apply r) requestId))) :=
      .tx (.approveTask _ _ _)
    refine ⟨onceStep_kept hc ?_ (by simp) hs, ?_⟩
    · rintro request id ⟨⟩
      exact hr.mono hR
    · cases x <;> trivial
  · intro w₁ _ x w₂ hs
    have hkept := hop .findRequest hs
    refine ⟨hkept, fun r hr _ => KnownAs.mono hkept.1 ?_⟩
    obtain ⟨hw, y, hy, _⟩ := hs
    rcases txDb_cases hy with ⟨_, _, hx, _⟩ | ⟨hx, _⟩
    · rw [hr] at hx
      cases hx
    · rw [hr] at hx
      obtain ⟨hmem, hid⟩ := Store.request?_eq_some.mp (Except.ok.inj hx).symm
      exact hid ▸ hw.known hmem
  · intro r w hr w₁ hR x w₂ hs
    have hkept := hop .now hs
    exact ⟨hkept, (hr.mono hR).mono hkept.1⟩
  · intro r w hr w₁ hR patch x w₂ hstatus hsync hs
    have hkept := hop (.saveRequest patch hstatus hsync) hs
    exact ⟨hkept, fun _ => (hr.mono hR).mono hkept.1⟩
  · intro r w hr
    have heach : (finalizeUsed r.balanceKey (some r.daysRequested)).Each
        (TransitionOp requestId .approved) := moveDays_each (.findBalance _) (.saveBalance _)
    refine Prog.Holds.mono (fun _ _ h _ => h) (Prog.Holds.of_each_inv
      (fun w => Known w requestId r.daysRequested) (fun _ _ hR h => h.mono hR) ?_ heach hr)
    intro o w x w' ho hknown hs
    have hkept := hop ho hs
    exact ⟨hkept, hknown.mono hkept.1⟩

theorem onceStep_sync {puts : PutBalance → Prop} {o : BaseOp} {r : Except Err o.Resp}
    (ho : SyncOp puts (.base o))
    (hput : ∀ put, puts put → Known w put.referenceId put.daysRequested)
    (h : OnceStep i (.base o) w r w') : OnceKept w w' := by
  have hc : FlatCallOp plainConfig .retrySyncs (.base o) :=
    .base (.retrySyncs (ho.mono fun _ _ => trivial))
  refine onceStep_kept hc (by simp) ?_ h
  rintro put ⟨⟩
  cases ho with
  | sendPut put h => exact hput put h

/-- Each call sends the days of its request. -/
theorem once_code (hc : ∀ request requestId, c = .task (.notifyApprovalToHcm request requestId) →
    Known w requestId request.daysRequested) :
    ((c.svc cfg).interp flatten).Holds (OnceStep i) RowsKept OnceKept (fun _ _ => True) w := by
  by_cases hsync : c = .retrySyncs ∨ ∃ t, c = .task t
  · rcases hsync with rfl | ⟨t, rfl⟩
    · refine holds_worker (fun rows w => ∀ row ∈ rows, Known w row.id row.daysRequested) ?_ ?_ ?_
      · exact fun rows w w' hR h row hrow => (h row hrow).mono hR
      · intro w r w' hs
        have hkept := onceStep_sync (.findPendingSync 50) (fun _ h => False.elim h) hs
        refine ⟨hkept, ?_⟩
        rintro rows rfl row hrow
        obtain ⟨hw, x, hx, _⟩ := hs
        rcases exec_db_cases hx with ⟨_, _, hr, _⟩ | ⟨hr, _⟩
        · cases hr
        · exact (hw.known (mem_of_pendingSync hr.symm hrow).1).mono hkept.1
      · intro rows o w r w' ho hA hs
        have hkept : OnceKept w w' := by
          refine onceStep_sync ho ?_ hs
          rintro put ⟨row, hrow, _, rfl⟩
          exact hA row hrow
        exact ⟨hkept, fun row hrow => (hA row hrow).mono hkept.1⟩
    · cases t with
      | notifyHcm requestId key days =>
        exact holds_validator fun o w r w' ho hs => onceStep_sync ho (fun _ h => h.elim) hs
      | notifyApprovalToHcm request requestId =>
        refine holds_notifier (fun w => Known w requestId request.daysRequested)
          (fun w w' hR h => h.mono hR) ?_ (hc request requestId rfl)
        intro o w r w' ho hA hs
        have hkept : OnceKept w w' := by
          refine onceStep_sync ho ?_ hs
          rintro put rfl
          exact hA
        exact ⟨hkept, hA.mono hkept.1⟩
  -- of the other calls only an approval puts such a task into the queue
  by_cases happrove : ∃ requestId approverId, c = .approve requestId approverId
  · obtain ⟨requestId, approverId, rfl⟩ := happrove
    have hend {o : FlatOp} {w w' : World} {r : Except Err o.Resp}
        (ho : FlatCallOp cfg (.approve requestId approverId) o)
        (hplain : o = .begin ∨ o = .commit ∨ o = .rollback) (hs : OnceStep i o w r w') :
        OnceKept w w' := by
      rcases hplain with rfl | rfl | rfl <;> exact onceStep_kept ho (by simp) (by simp) hs
    refine holds_transaction (holds_flattenTransaction (fun _ => True) (fun _ _ => True)
      (fun _ => True) ?_ ?_ ?_ ?_)
    · intro w₁ _ r w₂ hs
      exact ⟨hend .begin (.inl rfl) hs, fun _ _ => trivial, fun _ _ => trivial⟩
    · exact fun t _ => Prog.Holds.mono (fun _ _ _ => ⟨fun _ _ => trivial, fun _ _ => trivial⟩)
        (once_approve cfg t)
    · intro v t _ w₁ _ r w₂ hs
      exact ⟨hend .commit (.inr (.inl rfl)) hs, fun _ _ => trivial, fun _ _ => trivial⟩
    · intro t _ w₁ _ r w₂ hs
      exact ⟨hend .rollback (.inr (.inr rfl)) hs, fun _ => trivial⟩
  · refine Prog.Holds.of_each (fun o u r u' ho hs => onceStep_kept ho ?_ ?_ hs) (flat_each cfg c) w
    · rintro request requestId rfl
      exact absurd ⟨requestId, approval_of_each ho⟩ happrove
    · rintro put rfl
      exact absurd (sender_of_each ho) hsync

end Steps

section Runs

variable {cfg : Config}

/-- A PUT is sent only for a request that has none that was deducted or is under way. -/
def sendsOnce (P : Pool Call FlatOp FlatOp.Resp Err (Option RequestBody) World) :
    Act Call Choice Env → Bool
  | .step i .go => (P.procs i).all fun q =>
    match q.op with
    | .base (.sendPut put) => unsent P.shared.hcm put.referenceId
    | _ => true
  | _ => true

/-- What a start does to the queue of tasks. -/
theorem accept_once {w w' : World} {i : ℕ} {c : Call} (h : w.accept i c = some w') :
    RowsKept w w' ∧ (OnceDeducted w → OnceDeducted w') ∧
      ∀ t, c = .task t → t ∈ w.immediates := by
  rcases accept_cases h with rfl | ⟨t, rfl, ht, rfl⟩
  · refine ⟨columnsKept_of_eq rfl (le_refl _), id, ?_⟩
    rintro t rfl
    unfold World.accept at h
    exact (Option.ite_none_right_eq_some.mp h).1
  · have hrows : RowsKept w { w with
        immediates := w.immediates.erase t
        history := { w.history with running := (i, t) :: w.history.running } } :=
      columnsKept_of_eq rfl (le_refl _)
    refine ⟨hrows, fun hw => hw.of_eq hrows rfl fun _ _ hmem => .inl (List.mem_of_mem_erase hmem),
      ?_⟩
    rintro t ⟨⟩
    exact ht

def deductions (cfg : Config) :
    RelyGuarantee (flatMachine cfg) fun P a => sendsOnce P a = true where
  Inv _ w := OnceDeducted w
  stepRel i _ := OnceStep i
  rely _ _ := RowsKept
  guar _ _ := OnceKept
  post _ _ _ _ := True
  rely_refl := columnsKept_of_eq rfl (le_refl _)
  rely_trans := ColumnsKept.trans
  step_of {P i x q r w'} hI hC hq hx := by
    -- the condition on the action is what makes the send a first one
    refine ⟨hI, x, hx, ?_⟩
    rintro rfl put hput
    simpa only [sendsOnce, hq, Option.all_some, hput] using hC
  guar_inv _ hI h := h.2 hI
  guar_rely _ _ h := h.1
  finish_guar {n i c r w} _ _ := by
    have hrows : RowsKept w (World.finish i c r w) := columnsKept_of_eq rfl (le_refl _)
    exact ⟨hrows, fun h => h.of_eq hrows rfl fun _ _ => .inl⟩
  accept_inv hI _ hs := (accept_once hs).2.1 hI
  accept_rely _ _ _ hs := (accept_once hs).1
  accept_holds {P c w'} hI _ hs := by
    obtain ⟨hrows, _, htask⟩ := accept_once hs
    refine once_code ?_
    rintro request requestId rfl
    exact (hI.tasks request requestId (htask _ rfl)).mono hrows
  env_inv hI _ hs := (onceDeducted_env hs hI).2
  env_rely hI _ hs := (onceDeducted_env hs hI).1
  -- a crash drops the tasks and restores rows
  halt_inv {P} hI _ := by
    have hrows : RowsKept P.shared P.shared.crash := rowsKept_undo _ rfl rfl
    have h : OnceDeducted P.shared.crash := hI.of_eq hrows rfl fun _ _ h => nomatch h
    exact h

/-- If no PUT is sent again for a request that has one deducted or under way, the HCM deducts no
more than the days of the request on its behalf. -/
theorem deducted_at_most_once (cfg : Config) (start : Store) (clock nextId : ℕ)
    (hcmBalances : List (String × HcmBalance))
    (hstart : ∀ row ∈ start.requests, row.id < nextId ∧ 0 ≤ row.daysRequested)
    {P : Pool Call FlatOp FlatOp.Resp Err (Option RequestBody) World}
    (hP : (flatMachine cfg).Reach (fun P a => sendsOnce P a = true)
      (Pool.init (World.init start clock nextId (.init hcmBalances))) P) :
    ∀ row ∈ P.shared.store.requests,
      P.shared.hcm.deductedFor row.id ≤ row.daysRequested := by
  -- nothing has been sent when the run starts
  have hinv : OnceDeducted (World.init start clock nextId (.init hcmBalances)) :=
    ⟨fun row hrow => (hstart row hrow).1, fun row hrow => (hstart row hrow).2,
      fun _ _ h => (nomatch h), fun _ h => (nomatch h), fun _ h => (nomatch h), .nil, .nil,
      fun _ h => (nomatch h)⟩
  have h : OnceDeducted P.shared := ((deductions cfg).good_of_reach hinv hP).inv
  exact fun row => h.deductedFor_le

/-- The HCM applies the PUT of an approval, its reply is lost, and the PUT is sent again. -/
def sentAgain : List (Act Call Choice Env) :=
  notifiedAfterCommit ++
    [.step 1 (.lost .noResponse), .step 1 .go, .step 1 .go, .env (.deliver 1)]

theorem sentAgain_runs : ((flatMachine plainConfig).run (fun _ _ => True)
    (Pool.init waitingWorld) sentAgain).isSome = true := by
  decide +kernel

theorem rows_of_oneWaiting : ∀ row ∈ oneWaiting.requests, row.id < 1 ∧ 0 ≤ row.daysRequested := by
  decide

/-- The HCM deducts four days for a request of two. -/
theorem deducted_twice_after_timeout :
    ¬ ∀ (cfg : Config) (start : Store) (clock nextId : ℕ)
      (hcmBalances : List (String × HcmBalance)),
      (∀ row ∈ start.requests, row.id < nextId ∧ 0 ≤ row.daysRequested) →
      ∀ P : Pool Call FlatOp FlatOp.Resp Err (Option RequestBody) World,
        (flatMachine cfg).Reach (fun _ _ => True)
          (Pool.init (World.init start clock nextId (.init hcmBalances))) P →
        ∀ row ∈ P.shared.store.requests,
          P.shared.hcm.deductedFor row.id ≤ row.daysRequested := by
  intro h
  have hdeducted := h plainConfig oneWaiting 1000 1 _ rows_of_oneWaiting _
    (Machine.reach_of_run .refl (Option.some_get sentAgain_runs).symm)
  revert hdeducted
  decide +kernel

theorem notifiedAfterCommit_once : ((flatMachine plainConfig).run
    (fun P a => sendsOnce P a = true) (Pool.init waitingWorld) notifiedAfterCommit).isSome =
      true := by
  decide +kernel

theorem deducted_once_when_sent_once :
    ∃ P, (flatMachine plainConfig).run (fun P a => sendsOnce P a = true) (Pool.init waitingWorld)
        notifiedAfterCommit = some P ∧
      ∀ row ∈ P.shared.store.requests,
        P.shared.hcm.deductedFor row.id ≤ row.daysRequested := by
  have hrun := (Option.some_get notifiedAfterCommit_once).symm
  refine ⟨_, hrun, ?_⟩
  exact deducted_at_most_once plainConfig oneWaiting 1000 1 _ rows_of_oneWaiting
    (Machine.reach_of_run .refl hrun)

end Runs

end TimeOff
