import TimeOff.HcmTraffic

/-! The trace of an approval: a task that announces it to the HCM, or a sync status by which it
is found. What each operation of a call does to the approvals that have neither. -/
namespace TimeOff

open Async

section Hidden

/-- A sync status under which the worker or an operator finds an approved request, or under
which nobody needs to. -/
def findable (acknowledged : List ℕ) (requestId : ℕ) : HcmSyncStatus → Bool
  | .pending => true
  | .failed => true
  | .success => requestId ∈ acknowledged
  | .skipped => false

def Task.announces (requestId : ℕ) : Task → Bool
  | .notifyApprovalToHcm _ id => id = requestId
  | .notifyHcm .. => false

/-- The notifier of the request waits or runs. -/
def Announcing (w : World) (requestId : ℕ) : Prop :=
  (∃ t ∈ w.immediates, t.announces requestId = true) ∨
    ∃ p ∈ w.history.running, p.2.announces requestId = true

instance (w : World) (requestId : ℕ) : Decidable (Announcing w requestId) :=
  inferInstanceAs (Decidable (_ ∨ _))

/-- Nobody finds the approved request by its sync status. -/
def Lost (w : World) (requestId : ℕ) : Prop :=
  ∃ row ∈ w.store.requests, row.id = requestId ∧ row.status = .approved ∧
    findable w.history.acknowledged requestId row.hcmSyncStatus = false

instance (w : World) (requestId : ℕ) : Decidable (Lost w requestId) :=
  inferInstanceAs (Decidable (∃ row ∈ _, _))

def Hidden (w : World) (requestId : ℕ) : Prop := Lost w requestId ∧ ¬ Announcing w requestId

/-- The open call saved columns of the request. -/
def Entry.saves (requestId : ℕ) (e : Entry) : Bool :=
  match e.op with
  | .saveRequest id _ => id = requestId
  | _ => false

def SavedBy (w : World) (i requestId : ℕ) : Prop :=
  ∃ e ∈ w.entriesOf i, e.saves requestId = true

/-- A hidden approval is not committed yet: its transaction is open, is the only one that has
decided the request, and would make it pending again. -/
structure Traced (w : World) : Prop where
  drawn : ∀ row ∈ w.store.requests, row.id < w.nextId
  savesDrawn : ∀ e ∈ w.journal, ∀ id, e.saves id = true → id < w.nextId
  decided : ∀ e ∈ w.journal, ∀ row ∈ w.store.requests, e.saves row.id = true →
    row.status ≠ .pending
  sole : ∀ e ∈ w.journal, ∀ e' ∈ w.journal, ∀ id, e.saves id = true → e'.saves id = true →
    e.pid = e'.pid
  restores : ∀ e ∈ w.journal, ∀ id patch, e.undo = some (.request id patch) →
    e.saves id = true ∧ patch.status = some .pending
  restored : ∀ e ∈ w.journal, ∀ id, e.saves id = true →
    ∃ patch, e.undo = some (.request id patch)
  hidden : ∀ id, Hidden w id → ∃ e ∈ w.journal, e.saves id = true

variable {w w' : World} {i : ℕ}

theorem savedBy_iff {requestId : ℕ} :
    SavedBy w i requestId ↔ ∃ e ∈ w.journal, e.pid = i ∧ e.saves requestId = true := by
  simp [SavedBy, World.entriesOf, and_assoc]

/-- Where the rows of a rollback come from. -/
theorem undo_rows {entries : List Entry} {s : Store}
    (hrestores : ∀ e ∈ entries, ∀ id patch, e.undo = some (.request id patch) →
      e.saves id = true ∧ patch.status = some .pending)
    (hrestored : ∀ e ∈ entries, ∀ id, e.saves id = true →
      ∃ patch, e.undo = some (.request id patch)) :
    ∀ row ∈ (undoAll entries s).requests,
      ((∃ old ∈ s.requests, old.id = row.id) ∧ row.status = .pending ∧
        ∃ e ∈ entries, e.saves row.id = true) ∨
        row ∈ s.requests ∧ ∀ e ∈ entries, e.saves row.id = false := by
  induction entries generalizing s with
  | nil => exact fun row hrow => .inr ⟨hrow, fun e he => (nomatch he)⟩
  | cons e entries ih =>
    intro row hrow
    obtain ⟨hrestore, hrestores⟩ := List.forall_mem_cons.mp hrestores
    obtain ⟨hrestoredOne, hrestored⟩ := List.forall_mem_cons.mp hrestored
    -- what the newest entry does to one row
    have hnewest (r : TimeOffRequest) (hr : r ∈ (e.undo.elim s (·.run s)).requests) :
        ((∃ old ∈ s.requests, old.id = r.id) ∧ r.status = .pending ∧ e.saves r.id = true) ∨
          r ∈ s.requests ∧ e.saves r.id = false := by
      have hother (hr : r ∈ s.requests) (hno : ∀ patch, e.undo ≠ some (.request r.id patch)) :
          r ∈ s.requests ∧ e.saves r.id = false := by
        refine ⟨hr, Bool.eq_false_iff.mpr fun hsaves => ?_⟩
        obtain ⟨patch, hpatch⟩ := hrestoredOne r.id hsaves
        exact hno patch hpatch
      cases hu : e.undo with
      | none =>
        rw [hu] at hr
        exact .inr (hother hr fun patch => by simp [hu])
      | some u =>
        rw [hu] at hr
        cases u with
        | request id patch =>
          obtain ⟨old, hold, rfl⟩ := List.mem_map.mp hr
          by_cases hid : old.id = id
          · rw [if_pos hid]
            refine .inl ⟨⟨old, hold, rfl⟩, ?_, hid ▸ (hrestore id patch hu).1⟩
            change patch.status.getD old.status = _
            rw [(hrestore id patch hu).2]
            rfl
          · rw [if_neg hid]
            rw [if_neg hid] at hother
            refine .inr (hother hold fun patch' => ?_)
            rw [hu]
            rintro ⟨⟩
            exact hid rfl
        | newRequest id =>
          exact .inr (hother (List.mem_of_mem_filter hr) fun patch => by simp [hu])
        | _ => exact .inr (hother hr fun patch => by simp [hu])
    rcases ih hrestores hrestored row hrow with
      ⟨⟨old, hold, hid⟩, hstatus, e', he', hsaves⟩ | ⟨hmem, hrest⟩
    · refine .inl ⟨?_, hstatus, e', List.mem_cons_of_mem _ he', hsaves⟩
      rcases hnewest old hold with ⟨⟨older, holder, hid'⟩, _⟩ | ⟨hold, _⟩
      · exact ⟨older, holder, hid'.trans hid⟩
      · exact ⟨old, hold, hid⟩
    · rcases hnewest row hmem with ⟨hold, hpending, hsaves⟩ | ⟨hmem, hfirst⟩
      · exact .inl ⟨hold, hpending, e, List.mem_cons_self, hsaves⟩
      · exact .inr ⟨hmem, List.forall_mem_cons.mpr ⟨hfirst, hrest⟩⟩

end Hidden

section Kept

variable {w w' w₁ w₂ w₃ : World} {i : ℕ}

/-- What a process may rely on: nobody touches its transaction or ends it, and nobody hides a
request that the transaction has decided. -/
structure TraceRely (i : ℕ) (w w' : World) : Prop where
  entries : w'.entriesOf i = w.entriesOf i
  running : ∀ t, (i, t) ∈ w'.history.running ↔ (i, t) ∈ w.history.running
  acknowledged : w.history.acknowledged ⊆ w'.history.acknowledged
  loaded : w.history.loaded ⊆ w'.history.loaded
  hidden : ∀ id, SavedBy w i id → Hidden w' id → Hidden w id

theorem TraceRely.refl : TraceRely i w w :=
  ⟨rfl, fun _ => Iff.rfl, List.Subset.refl _, List.Subset.refl _, fun _ _ h => h⟩

theorem TraceRely.savedBy {id : ℕ} (h : TraceRely i w w') :
    SavedBy w' i id ↔ SavedBy w i id := by
  rw [SavedBy, SavedBy, h.entries]

theorem TraceRely.trans (h : TraceRely i w₁ w₂) (h' : TraceRely i w₂ w₃) :
    TraceRely i w₁ w₃ where
  entries := h'.entries.trans h.entries
  running t := (h'.running t).trans (h.running t)
  acknowledged := List.Subset.trans h.acknowledged h'.acknowledged
  loaded := List.Subset.trans h.loaded h'.loaded
  hidden id hsaved hhidden :=
    h.hidden id hsaved (h'.hidden id (h.savedBy.mpr hsaved) hhidden)

/-- What a process guarantees: it hides only what its open transaction has decided. -/
structure TraceKept (i : ℕ) (w w' : World) : Prop where
  entries : ∀ j, j ≠ i → w'.entriesOf j = w.entriesOf j
  running : ∀ j t, j ≠ i → ((j, t) ∈ w'.history.running ↔ (j, t) ∈ w.history.running)
  acknowledged : w.history.acknowledged ⊆ w'.history.acknowledged
  loaded : w.history.loaded ⊆ w'.history.loaded
  traced : Traced w'
  hidden : ∀ id, Hidden w' id → Hidden w id ∨ SavedBy w' i id

theorem TraceKept.rely {j : ℕ} (hij : i ≠ j) (h : TraceKept i w w') : TraceRely j w w' := by
  have hentries : w'.entriesOf j = w.entriesOf j := h.entries j hij.symm
  refine ⟨hentries, fun t => h.running j t hij.symm, h.acknowledged, h.loaded, ?_⟩
  intro id hsaved hhidden
  rcases h.hidden id hhidden with hold | hnew
  · exact hold
  · -- the two transactions would both have decided the request
    have hsaved' : SavedBy w' j id := by rwa [SavedBy, hentries]
    obtain ⟨e, he, hpid, hsaves⟩ := savedBy_iff.mp hnew
    obtain ⟨e', he', hpid', hsaves'⟩ := savedBy_iff.mp hsaved'
    have hsole := h.traced.sole e he e' he' id hsaves hsaves'
    rw [hpid, hpid'] at hsole
    exact absurd hsole hij

theorem announcing_mono {requestId : ℕ} (himmediates : w.immediates ⊆ w'.immediates)
    (hrunning : w'.history.running = w.history.running) (h : Announcing w requestId) :
    Announcing w' requestId := by
  rcases h with ⟨t, ht, hann⟩ | h
  · exact .inl ⟨t, himmediates ht, hann⟩
  · exact .inr (hrunning ▸ h)

theorem findable_mono {acknowledged acknowledged' : List ℕ} {requestId : ℕ}
    {status : HcmSyncStatus} (hsub : acknowledged ⊆ acknowledged')
    (h : findable acknowledged requestId status = true) :
    findable acknowledged' requestId status = true := by
  cases status with
  | success =>
    simp only [findable, decide_eq_true_eq] at h ⊢
    exact hsub h
  | _ => exact h

/-- An old row with more acknowledgements is lost only if it was lost before. -/
theorem Lost.of_row {row : TimeOffRequest} (hrow : row ∈ w.store.requests)
    (hstatus : row.status = .approved) (hsub : w.history.acknowledged ⊆ w'.history.acknowledged)
    (h : findable w'.history.acknowledged row.id row.hcmSyncStatus = false) :
    Lost w row.id := by
  refine ⟨row, hrow, rfl, hstatus, Bool.eq_false_iff.mpr fun hfind => ?_⟩
  rw [findable_mono hsub hfind] at h
  cases h

end Kept

section Steps

variable {w w' : World} {i : ℕ} {c : Call} {cfg : Config}

/-- The caller does not know of an approval: it is the validator, or a worker that loaded the
request before. -/
def unaware (i : ℕ) (c : Call) (requestId : ℕ) (w : World) : Bool :=
  match c with
  | .task (.notifyHcm ..) => true
  | .retrySyncs => w.history.loaded.any fun p =>
    p.1 = i && p.2.id = requestId && p.2.status ≠ .approved
  | _ => false

/-- A sync status that the worker passes over and no operator is called for. -/
def passedOver : HcmSyncStatus → Bool
  | .success | .skipped => true
  | .pending | .failed => false

/-- The approved request is under the status that its validation has left: `approveRequest` found
it so, or a validator has written it since. -/
def ValidatedOnly (w : World) (requestId : ℕ) : Prop :=
  ∃ row ∈ w.store.requests, row.id = requestId ∧ row.status = .approved ∧
    passedOver row.hcmSyncStatus = true

instance (w : World) (requestId : ℕ) : Decidable (ValidatedOnly w requestId) :=
  inferInstanceAs (Decidable (∃ row ∈ _, _))

/-- The notifier of a committed approval has not written over the status of the validation yet. -/
def AwaitsNotifier (w : World) (requestId : ℕ) : Prop :=
  ValidatedOnly w requestId ∧ Announcing w requestId ∧
    ∀ e ∈ w.journal, e.saves requestId = false

instance (w : World) (requestId : ℕ) : Decidable (AwaitsNotifier w requestId) :=
  inferInstanceAs (Decidable (_ ∧ _))

/-- A caller that does not know of the approval writes the status of a validation over the one
that the notifier has written. -/
def lateWrite (i : ℕ) (c : Call) (w : World) (requestId : ℕ) (patch : RequestPatch) : Bool :=
  unaware i c requestId w && patch.hcmSyncStatus.any passedOver &&
    !decide (Announcing w requestId) &&
      w.store.requests.any fun row => row.id = requestId && row.status = .approved

/-- A transition is saved on a pending request, no validation is written late, and a notifier
that gives up over the status of a validation does not fail to write. -/
def approvalTraced (i : ℕ) (c : Call) (w : World) : FlatOp → Choice → Bool
  | .tx (.db (.saveRequest id _)), .go => (w.store.request? id).any (·.status = .pending)
  | .base (.db (.saveRequest id patch)), .go => !lateWrite i c w id patch
  | .base (.db (.saveRequest id patch)), .fail _ _ =>
    match c with
    | .task (.notifyApprovalToHcm ..) => patch.hcmValidated.isSome || !decide (ValidatedOnly w id)
    | _ => true
  | _, _ => true

theorem Lost.validatedOnly {requestId : ℕ} (h : Lost w requestId) :
    ValidatedOnly w requestId := by
  obtain ⟨row, hrow, hid, happroved, hfind⟩ := h
  refine ⟨row, hrow, hid, happroved, ?_⟩
  cases hsync : row.hcmSyncStatus with
  | pending =>
    rw [hsync] at hfind
    cases hfind
  | failed =>
    rw [hsync] at hfind
    cases hfind
  | success => rfl
  | skipped => rfl

structure TraceStep (i : ℕ) (c : Call) (o : FlatOp) (w : World) (r : Except Err o.Resp)
    (w' : World) : Prop where
  before : Traced w
  exec : ∃ x, o.exec i x w = some (r, w') ∧ approvalTraced i c w o x = true

theorem TraceKept.of_exec {o : FlatOp} {x : Choice} {r : Except Err o.Resp}
    (hx : o.exec i x w = some (r, w')) (htraced : Traced w')
    (hhidden : ∀ id, Hidden w' id → Hidden w id ∨ SavedBy w' i id) : TraceKept i w w' where
  entries j hj := flatExec_entriesOf hj hx
  running j t _ := by rw [(flatExec_history hx).2]
  acknowledged := (flatExec_grows hx).1
  loaded := (flatExec_grows hx).2.1
  traced := htraced
  hidden := hhidden

/-- A step that saves no request, and ends no transaction, keeps the rows or inserts a pending
one. -/
theorem rows_of_exec {o : FlatOp} {x : Choice} {r : Except Err o.Resp} (hc : FlatCallOp cfg c o)
    (hx : o.exec i x w = some (r, w'))
    (hsave : ∀ id patch, o ≠ .base (.db (.saveRequest id patch)) ∧
      o ≠ .tx (.db (.saveRequest id patch))) (hrollback : o ≠ .rollback) :
    w.nextId ≤ w'.nextId ∧ ∀ row ∈ w'.store.requests, row ∈ w.store.requests ∨
      row.status = .pending ∧ row.id = w.nextId ∧ row.id < w'.nextId := by
  cases flatExec_tables hx with
  | same hstore hnext =>
    rw [hstore, hnext]
    exact ⟨le_refl _, fun row hrow => .inl hrow⟩
  | undo ho => exact absurd ho hrollback
  | db d hd hstore hnext =>
    have hle : w.nextId ≤ w'.nextId := by
      rw [hnext]
      exact d.le_nextId w.nextId
    refine ⟨hle, fun row hrow => ?_⟩
    rw [hstore] at hrow
    rcases d.run_requests w.clock w.nextId w.store with hreq | ⟨id, patch, rfl, hreq⟩ |
      ⟨request, new, rfl, hnew, hreq⟩
    · exact .inl (hreq ▸ hrow)
    -- a save is excluded by `hsave`, in and out of a transaction
    · rcases hd with rfl | rfl
      · exact absurd rfl (hsave id patch).1
      · exact absurd rfl (hsave id patch).2
    · obtain ⟨dto, key, _, _, rfl⟩ := insertRequest_of_each hc hd
      obtain ⟨days, _, rfl⟩ := Option.map_eq_some_iff.mp hnew
      rcases List.mem_append.mp ((Store.insertRequest_eq hreq).2.2.1 ▸ hrow) with hrow | hrow
      · exact .inl hrow
      -- the new row is pending under the id just drawn
      · rw [List.mem_singleton.mp hrow, hnext]
        exact .inr ⟨rfl, rfl, Nat.lt_succ_self _⟩

/-- Such a step hides nothing. -/
theorem kept_plain {c' : Call} {o : FlatOp} {r : Except Err o.Resp} (hc : FlatCallOp cfg c' o)
    (hsave : ∀ id patch, o ≠ .base (.db (.saveRequest id patch)) ∧
      o ≠ .tx (.db (.saveRequest id patch))) (hcommit : o ≠ .commit) (hrollback : o ≠ .rollback)
    (h : TraceStep i c o w r w') :
    TraceKept i w w' ∧ (∀ id, SavedBy w' i id ↔ SavedBy w i id) ∧
      ∀ id, Hidden w' id → Hidden w id := by
  obtain ⟨hw, x, hx, _⟩ := h
  obtain ⟨hle, hrows⟩ := rows_of_exec hc hx hsave hrollback
  obtain ⟨hack, _, himm⟩ := flatExec_grows hx
  have hrunning := (flatExec_history hx).2
  -- a new entry saves no request and restores none
  have hjournal : w.journal ⊆ w'.journal ∧ ∀ e ∈ w'.journal, e ∈ w.journal ∨
      (∀ id, e.saves id = false) ∧ ∀ id patch, e.undo ≠ some (.request id patch) := by
    cases flatExec_journal hx with
    | same hjournal =>
      rw [hjournal]
      exact ⟨List.Subset.refl _, fun e he => .inl he⟩
    | close ho => exact absurd ho (not_or.mpr ⟨hcommit, hrollback⟩)
    | entry d ho hjournal =>
      subst ho
      rw [hjournal]
      refine ⟨List.subset_cons_self _ _, fun e he => ?_⟩
      rcases List.mem_cons.mp he with rfl | he
      · refine .inr ⟨fun id => ?_, fun id patch => ?_⟩
        · cases d with
          | saveRequest id' patch => exact absurd rfl (hsave id' patch).2
          | _ => rfl
        · dsimp only [entryOf]
          split
          · cases d with
            | saveRequest id' patch => exact absurd rfl (hsave id' patch).2
            | saveBalance key patch => simp [DbOp.undo]
            | _ => simp [DbOp.undo]
          · simp
      · exact .inl he
  have hold {e : Entry} {id : ℕ} (he : e ∈ w'.journal) (hsaves : e.saves id = true) :
      e ∈ w.journal := by
    rcases hjournal.2 e he with he | ⟨hno, _⟩
    · exact he
    · rw [hno] at hsaves
      cases hsaves
  have hhidden (id : ℕ) (h : Hidden w' id) : Hidden w id := by
    obtain ⟨⟨row, hrow, rfl, hstatus, hfind⟩, hann⟩ := h
    refine ⟨?_, fun h => hann (announcing_mono himm hrunning h)⟩
    rcases hrows row hrow with hrow | ⟨hpending, _⟩
    · exact Lost.of_row hrow hstatus hack hfind
    · rw [hpending] at hstatus
      cases hstatus
  refine ⟨.of_exec hx ?_ fun id h => .inl (hhidden id h), fun id => ?_, hhidden⟩
  · refine ⟨?_, ?_, ?_, ?_, ?_, ?_, ?_⟩
    · intro row hrow
      rcases hrows row hrow with hrow | ⟨_, _, hlt⟩
      · exact (hw.drawn row hrow).trans_le hle
      · exact hlt
    · intro e he id hsaves
      exact (hw.savesDrawn e (hold he hsaves) id hsaves).trans_le hle
    · intro e he row hrow hsaves
      have he := hold he hsaves
      rcases hrows row hrow with hrow | ⟨_, hid, _⟩
      · exact hw.decided e he row hrow hsaves
      · exact absurd (hw.savesDrawn e he row.id hsaves) (not_lt.mpr hid.ge)
    · intro e he e' he' id hsaves hsaves'
      exact hw.sole e (hold he hsaves) e' (hold he' hsaves') id hsaves hsaves'
    · intro e he id patch hundo
      rcases hjournal.2 e he with he | ⟨_, hno⟩
      · exact hw.restores e he id patch hundo
      · exact absurd hundo (hno id patch)
    · intro e he id hsaves
      exact hw.restored e (hold he hsaves) id hsaves
    · intro id h
      obtain ⟨e, he, hsaves⟩ := hw.hidden id (hhidden id h)
      exact ⟨e, hjournal.1 he, hsaves⟩
  · rw [savedBy_iff, savedBy_iff]
    constructor
    · rintro ⟨e, he, hpid, hsaves⟩
      exact ⟨e, hold he hsaves, hpid, hsaves⟩
    · rintro ⟨e, he, hpid, hsaves⟩
      exact ⟨e, hjournal.1 he, hpid, hsaves⟩

/-- The rows after a save are the rows before with the columns of the patch. -/
theorem saveRequest_row {id : ℕ} {patch : RequestPatch} {row : TimeOffRequest}
    (hrow : row ∈ (w.db (.saveRequest id patch)).2.store.requests) :
    ∃ old ∈ w.store.requests, old.id = row.id ∧
      (if old.id = id then
        row.status = patch.status.getD old.status ∧
          row.hcmSyncStatus = patch.hcmSyncStatus.getD old.hcmSyncStatus
      else row = old) := by
  obtain ⟨old, hold, rfl⟩ := List.mem_map.mp hrow
  refine ⟨old, hold, ?_, ?_⟩
  · split <;> rfl
  · split
    · exact ⟨rfl, rfl⟩
    · rfl

/-- A transition saves its decision. -/
theorem kept_save {requestId : ℕ} {target : RequestStatus} {patch : RequestPatch}
    {r : Except Err Unit} (htarget : target ≠ .pending) (hstatus : patch.status = some target)
    (h : TraceStep i c (.tx (.db (.saveRequest requestId patch))) w r w') :
    TraceKept i w w' ∧ (∀ id, SavedBy w' i id → SavedBy w i id ∨ id = requestId) ∧
      (r = .ok () → SavedBy w' i requestId ∧ (target ≠ .approved → ¬ Hidden w' requestId)) := by
  obtain ⟨hw, x, hx, hcond⟩ := h
  rcases txDb_cases hx with ⟨_, _, rfl, rfl⟩ | ⟨rfl, rfl⟩
  · exact ⟨.of_exec hx hw fun id h => .inl h, fun id h => .inl h, fun h => nomatch h⟩
  -- the request was pending, and the new entry would make it so again
  obtain ⟨row, hrow, hpending⟩ :
      ∃ row, w.store.request? requestId = some row ∧ row.status = .pending := by
    cases x with
    | go => simpa using Option.any_eq_true _ _ |>.mp hcond
    | _ => cases hx
  obtain ⟨hmem, hid⟩ := Store.request?_eq_some.mp hrow
  let new := entryOf i (.saveRequest requestId patch) w
  have hnew (id : ℕ) : new.saves id = true ↔ requestId = id := by
    simp [new, entryOf, Entry.saves]
  have hundo : ∃ before, new.undo = some (.request requestId before) ∧
      before.status = some .pending := by
    refine ⟨_, by simp only [new, entryOf, World.db, DbOp.run, DbOp.undo, hrow]; rfl, ?_⟩
    change patch.status.map (fun _ => row.status) = _
    rw [hstatus, hpending]
    rfl
  have hnone (e : Entry) (he : e ∈ w.journal) : e.saves requestId = false := by
    refine Bool.eq_false_iff.mpr fun hsaves => ?_
    exact hw.decided e he row hmem (hid ▸ hsaves) hpending
  have hother (id : ℕ) (hne : id ≠ requestId)
      (h : Hidden ((w.db (.saveRequest requestId patch)).2.journaled new) id) : Hidden w id := by
    obtain ⟨⟨row', hrow', hid', hstatus', hfind⟩, hann⟩ := h
    obtain ⟨old, hold, hsame, hcols⟩ := saveRequest_row hrow'
    rw [if_neg (by rw [hsame, hid']; exact hne)] at hcols
    subst hcols
    exact ⟨⟨row', hold, hid', hstatus', hfind⟩, hann⟩
  have hsaved : SavedBy ((w.db (.saveRequest requestId patch)).2.journaled new) i requestId :=
    savedBy_iff.mpr ⟨new, List.mem_cons_self, rfl, (hnew _).mpr rfl⟩
  refine ⟨.of_exec hx ⟨?_, ?_, ?_, ?_, ?_, ?_, ?_⟩ fun id h => ?_, fun id h => ?_,
    fun _ => ⟨hsaved, fun hnot h => ?_⟩⟩
  · intro row' hrow'
    obtain ⟨old, hold, hsame, _⟩ := saveRequest_row hrow'
    exact hsame ▸ hw.drawn old hold
  · intro e he id hsaves
    rcases List.mem_cons.mp he with rfl | he
    · rw [← (hnew id).mp hsaves, ← hid]
      exact hw.drawn row hmem
    · exact hw.savesDrawn e he id hsaves
  · intro e he row' hrow' hsaves
    obtain ⟨old, hold, hsame, hcols⟩ := saveRequest_row hrow'
    by_cases hcase : old.id = requestId
    · rw [if_pos hcase, hstatus] at hcols
      rw [hcols.1]
      exact htarget
    · rw [if_neg hcase] at hcols
      subst hcols
      rcases List.mem_cons.mp he with rfl | he
      · exact absurd ((hnew _).mp hsaves).symm hcase
      · exact hw.decided e he row' hold hsaves
  · intro e he e' he' id hsaves hsaves'
    rcases List.mem_cons.mp he with rfl | he <;> rcases List.mem_cons.mp he' with rfl | he'
    · rfl
    · rw [← (hnew id).mp hsaves, hnone e' he'] at hsaves'
      cases hsaves'
    · rw [← (hnew id).mp hsaves', hnone e he] at hsaves
      cases hsaves
    · exact hw.sole e he e' he' id hsaves hsaves'
  · intro e he id before hbefore
    rcases List.mem_cons.mp he with rfl | he
    · obtain ⟨before', hundo, hpend⟩ := hundo
      cases hundo.symm.trans hbefore
      exact ⟨(hnew _).mpr rfl, hpend⟩
    · exact hw.restores e he id before hbefore
  · intro e he id hsaves
    rcases List.mem_cons.mp he with rfl | he
    · obtain ⟨before, hundo, _⟩ := hundo
      exact ⟨before, (hnew id).mp hsaves ▸ hundo⟩
    · exact hw.restored e he id hsaves
  · intro id h
    by_cases hne : id = requestId
    · exact ⟨new, List.mem_cons_self, (hnew id).mpr hne.symm⟩
    · obtain ⟨e, he, hsaves⟩ := hw.hidden id (hother id hne h)
      exact ⟨e, List.mem_cons_of_mem _ he, hsaves⟩
  · by_cases hne : id = requestId
    · rw [hne]
      exact .inr hsaved
    · exact .inl (hother id hne h)
  · obtain ⟨e, he, hpid, hsaves⟩ := savedBy_iff.mp h
    rcases List.mem_cons.mp he with rfl | he
    · exact .inr ((hnew id).mp hsaves).symm
    · exact .inl (savedBy_iff.mpr ⟨e, he, hpid, hsaves⟩)
  · obtain ⟨⟨row', hrow', hid', hstatus', _⟩, _⟩ := h
    obtain ⟨old, hold, hsame, hcols⟩ := saveRequest_row hrow'
    rw [if_pos (hsame.trans hid'), hstatus] at hcols
    exact hnot (hcols.1.symm.trans hstatus')

/-- A write of the sync status hides nothing, by what it writes or by the condition. -/
theorem kept_sync {requestId : ℕ} {patch : RequestPatch} {r : Except Err Unit}
    (hstatus : patch.status = none)
    (hfind : patch.hcmSyncStatus.any (findable w.history.acknowledged requestId) = true ∨
      unaware i c requestId w = true)
    (h : TraceStep i c (.base (.db (.saveRequest requestId patch))) w r w') :
    TraceKept i w w' := by
  obtain ⟨hw, x, hx, hcond⟩ := h
  have hsame : SameCalls w w' := baseExec_sameCalls (o := .db (.saveRequest requestId patch)) hx
  obtain ⟨hack, _, himm⟩ := flatExec_grows hx
  have hnext : w'.nextId = w.nextId := by
    cases x <;> cases hx <;> rfl
  have hrows : ∀ row ∈ w'.store.requests, ∃ old ∈ w.store.requests, old.id = row.id ∧
      old.status = row.status ∧ (row = old ∨ x = .go ∧ row.id = requestId ∧
        row.hcmSyncStatus = patch.hcmSyncStatus.getD old.hcmSyncStatus) := by
    intro row hrow
    cases x with
    | go =>
      cases hx
      obtain ⟨old, hold, hid, hcols⟩ := saveRequest_row hrow
      by_cases hcase : old.id = requestId
      · rw [if_pos hcase, hstatus] at hcols
        exact ⟨old, hold, hid, hcols.1.symm, .inr ⟨rfl, hid.symm.trans hcase, hcols.2⟩⟩
      · rw [if_neg hcase] at hcols
        exact ⟨old, hold, hid, by rw [hcols], .inl hcols⟩
    | fail code message =>
      cases hx
      exact ⟨row, hrow, rfl, rfl, .inl rfl⟩
    | _ => cases hx
  have hhidden (id : ℕ) (h : Hidden w' id) : Hidden w id := by
    obtain ⟨⟨row, hrow, rfl, happroved, hlost⟩, hann⟩ := h
    refine ⟨?_, fun h => hann (announcing_mono himm hsame.running h)⟩
    obtain ⟨old, hold, hid, hst, rfl | ⟨rfl, rfl, hsync⟩⟩ := hrows row hrow
    · exact Lost.of_row hold happroved hack hlost
    -- the row was written: the new status is found, or it is one that the worker passes over
    have hnot (hany : patch.hcmSyncStatus.any (findable w.history.acknowledged row.id) = true) :
        False := by
      obtain ⟨status, hpatch, hfound⟩ := (Option.any_eq_true _ _).mp hany
      rw [hpatch, Option.getD_some] at hsync
      rw [hsync, findable_mono hack hfound] at hlost
      cases hlost
    rcases hfind with hany | hunaware
    · exact absurd hany hnot
    cases hpatch : patch.hcmSyncStatus with
    | none =>
      rw [hpatch, Option.getD_none] at hsync
      rw [hsync] at hlost
      have hold' := Lost.of_row hold (hst.trans happroved) hack (by rw [hid]; exact hlost)
      rwa [hid] at hold'
    | some status =>
      rw [hpatch, Option.any_some] at hnot
      have hpassed : passedOver status = true := by
        cases status with
        | pending => exact absurd rfl hnot
        | failed => exact absurd rfl hnot
        | success => rfl
        | skipped => rfl
      -- so the caller came late, which the condition excludes
      have hnotifier : ¬ Announcing w row.id := fun hann' =>
        hann (announcing_mono himm hsame.running hann')
      have happrovedRow : (w.store.requests.any fun r => r.id = row.id && r.status = .approved) =
          true := List.any_eq_true.mpr ⟨old, hold, by simp [hid, hst, happroved]⟩
      simp only [approvalTraced, lateWrite, hunaware, hpatch, Option.any_some, hpassed,
        hnotifier, happrovedRow] at hcond
      cases hcond
  have hjournal := hsame.journal
  refine .of_exec hx ⟨?_, ?_, ?_, ?_, ?_, ?_, ?_⟩ fun id h => .inl (hhidden id h)
  · intro row hrow
    obtain ⟨old, hold, hid, _, _⟩ := hrows row hrow
    rw [hnext, ← hid]
    exact hw.drawn old hold
  · rw [hjournal, hnext]
    exact hw.savesDrawn
  · intro e he row hrow hsaves
    obtain ⟨old, hold, hid, hst, _⟩ := hrows row hrow
    rw [← hst]
    exact hw.decided e (hjournal ▸ he) old hold (hid ▸ hsaves)
  · rw [hjournal]
    exact hw.sole
  · rw [hjournal]
    exact hw.restores
  · rw [hjournal]
    exact hw.restored
  · intro id h
    rw [hjournal]
    exact hw.hidden id (hhidden id h)

/-- A commit makes its decisions final: it must hide none of them. -/
theorem kept_commit {r : Except Err Unit} (hready : ∀ id, SavedBy w i id → ¬ Hidden w id)
    (h : TraceStep i c .commit w r w') : TraceKept i w w' := by
  obtain ⟨hw, x, hx, _⟩ := h
  rcases commit_cases hx with ⟨_, _, _, rfl⟩ | ⟨_, rfl⟩
  · exact .of_exec hx hw fun id h => .inl h
  have hsub (e : Entry) (he : e ∈ (w.commit i).journal) : e ∈ w.journal :=
    List.mem_of_mem_filter he
  refine .of_exec hx ⟨hw.drawn, fun e he => hw.savesDrawn e (hsub e he),
    fun e he => hw.decided e (hsub e he), fun e he e' he' => hw.sole e (hsub e he) e' (hsub e' he'),
    fun e he => hw.restores e (hsub e he), fun e he => hw.restored e (hsub e he), fun id h => ?_⟩
    fun id h => .inl h
  have hhidden : Hidden w id := h
  obtain ⟨e, he, hsaves⟩ := hw.hidden id hhidden
  refine ⟨e, List.mem_filter.mpr ⟨he, ?_⟩, hsaves⟩
  simpa using fun hpid => hready id (savedBy_iff.mpr ⟨e, he, hpid, hsaves⟩) hhidden

/-- A rollback makes what it had decided pending again. -/
theorem kept_rollback {r : Except Err Unit} (h : TraceStep i c .rollback w r w') :
    TraceKept i w w' := by
  obtain ⟨hw, x, hx, _⟩ := h
  obtain ⟨_, rfl⟩ := rollback_cases hx
  have hmine (e : Entry) (he : e ∈ w.entriesOf i) : e ∈ w.journal := List.mem_of_mem_filter he
  have hrows := undo_rows (s := w.store) (fun e he => hw.restores e (hmine e he))
    fun e he => hw.restored e (hmine e he)
  have hsub (e : Entry) (he : e ∈ (w.rollback i).journal) : e ∈ w.journal ∧ e.pid ≠ i := by
    obtain ⟨he, hpid⟩ := List.mem_filter.mp he
    exact ⟨he, by simpa using hpid⟩
  have hhidden (id : ℕ) (h : Hidden (w.rollback i) id) : Hidden w id ∧ ¬ SavedBy w i id := by
    obtain ⟨⟨row, hrow, rfl, happroved, hlost⟩, hann⟩ := h
    rcases hrows row hrow with ⟨_, hpending, _⟩ | ⟨hmem, hno⟩
    · rw [hpending] at happroved
      cases happroved
    · refine ⟨⟨⟨row, hmem, rfl, happroved, hlost⟩, hann⟩, fun ⟨e, he, hsaves⟩ => ?_⟩
      rw [hno e he] at hsaves
      cases hsaves
  refine .of_exec hx ⟨?_, fun e he => hw.savesDrawn e (hsub e he).1, ?_,
    fun e he e' he' => hw.sole e (hsub e he).1 e' (hsub e' he').1,
    fun e he => hw.restores e (hsub e he).1, fun e he => hw.restored e (hsub e he).1, ?_⟩
    fun id h => .inl (hhidden id h).1
  · intro row hrow
    rcases hrows row hrow with ⟨⟨old, hold, hid⟩, _⟩ | ⟨hmem, _⟩
    · exact hid ▸ hw.drawn old hold
    · exact hw.drawn row hmem
  · intro e he row hrow hsaves
    obtain ⟨he, hpid⟩ := hsub e he
    rcases hrows row hrow with ⟨_, _, e', he', hsaves'⟩ | ⟨hmem, _⟩
    · -- the row that becomes pending was decided by this transaction, so by no other
      obtain ⟨he', hpid'⟩ := List.mem_filter.mp he'
      have hsole := hw.sole e he e' he' row.id hsaves hsaves'
      rw [decide_eq_true_eq.mp hpid'] at hsole
      exact absurd hsole hpid
    · exact hw.decided e he row hmem hsaves
  · intro id h
    obtain ⟨hold, hnot⟩ := hhidden id h
    obtain ⟨e, he, hsaves⟩ := hw.hidden id hold
    refine ⟨e, List.mem_filter.mpr ⟨he, ?_⟩, hsaves⟩
    simpa using fun hpid => hnot (savedBy_iff.mpr ⟨e, he, hpid, hsaves⟩)

end Steps

end TimeOff
