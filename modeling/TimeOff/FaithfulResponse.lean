import TimeOff.CreateRule
import TimeOff.FlatOps

/-! Faithful responses: when a create call is answered with a request of its own payload. -/
namespace TimeOff

open Async

section Faithful

/-- The request is for the five fields of the payload. -/
def Matches (dto : CreateTimeOffRequestDto) (body : RequestBody) : Prop :=
  body.employeeId = dto.employeeId ∧ body.locationId = dto.locationId ∧
    body.leaveType = dto.leaveType ∧ body.startDate = dto.startDate ∧ body.endDate = dto.endDate

instance (dto : CreateTimeOffRequestDto) (body : RequestBody) : Decidable (Matches dto body) :=
  inferInstanceAs (Decidable (_ ∧ _))

/-- Each record holds a body of the payload it was hashed from, and so far each call was given
a body of its own payload. -/
structure Faithful (cfg : Config) (w : World) : Prop where
  records : ∀ record ∈ w.store.records, ∃ dto,
    record.requestHash = cfg.hashObject dto ∧ Matches dto record.responseBody
  returned : ∀ dto idempotencyKey body,
    (Call.create dto idempotencyKey, body) ∈ w.history.returned → Matches dto body

variable {cfg : Config} {w w' : World}

theorem Faithful.sub (h : Faithful cfg w) (hrecords : w'.store.records ⊆ w.store.records)
    (hreturned : w'.history.returned = w.history.returned) : Faithful cfg w' :=
  ⟨fun record hrecord => h.records record (hrecords hrecord), hreturned ▸ h.returned⟩

/-- Only `insertRecord` adds a record. -/
theorem run_records (o : DbOp) (now fresh : ℕ) (s : Store) {record : IdempotencyRecord}
    (h : record ∈ (o.run now fresh s).2.records) :
    record ∈ s.records ∨ o = .insertRecord record := by
  -- only the insert of a record adds to the table
  cases o with
  | saveBalance key patch =>
    simp only [DbOp.run] at h
    split at h <;> exact .inl h
  | insertBalance balance =>
    simp only [DbOp.run] at h
    split at h
    · exact .inl h
    · split at h
      · exact .inl h
      · rename_i hs
        exact .inl ((Store.insertBalance_eq hs).2.2.2 ▸ h)
  | insertRequest request =>
    simp only [DbOp.run] at h
    split at h
    · exact .inl h
    · split at h
      · exact .inl h
      · rename_i hs
        exact .inl ((Store.insertRequest_eq hs).2.2.2.2 ▸ h)
  | insertRecord row =>
    simp only [DbOp.run] at h
    split at h
    · exact .inl h
    · rename_i hs
      rw [(Store.insertRecord_eq hs).2.1] at h
      rcases List.mem_append.mp h with h | h
      · exact .inl h
      · rw [List.mem_singleton.mp h]
        exact .inr rfl
  | _ => exact .inl h

theorem undoAll_records (entries : List Entry) (s : Store) :
    (undoAll entries s).records ⊆ s.records := by
  refine undoAll_inv (fun s' => s'.records ⊆ s.records) (List.Subset.refl _) ?_
  intro e _ u _ s' hs'
  cases u with
  | newRecord key => exact fun record hmem => hs' (List.mem_of_mem_filter hmem)
  | _ => exact hs'

/-- A step of a call, when it answers with the row of its key only if that row is its own. -/
structure FaithfulStep (cfg : Config) (i : ℕ) (c : Call) (o : FlatOp) (w : World)
    (r : Except Err o.Resp) (w' : World) : Prop where
  before : Faithful cfg w
  own : ∀ dto idempotencyKey row, c = .create dto idempotencyKey →
    o = .base (.db (.findRequestByKey idempotencyKey)) →
      w.store.requestByKey? idempotencyKey = some row → Matches dto (serializeRequest row)
  exec : ∃ x, o.exec i x w = some (r, w')

def FaithfulKept (cfg : Config) (w w' : World) : Prop := Faithful cfg w → Faithful cfg w'

variable {i : ℕ} {c : Call}

/-- No step but the insertion of a record can break faith. -/
theorem faithfulStep_kept {o : FlatOp} {r : Except Err o.Resp}
    (ho : ∀ record, o ≠ .tx (.db (.insertRecord record)))
    (h : FaithfulStep cfg i c o w r w') (hc : FlatCallOp cfg c o) : FaithfulKept cfg w w' := by
  obtain ⟨_, _, x, hx⟩ := h
  -- the records are only added to; the operation decides by what
  refine fun hw => hw.sub ?_ (flatExec_history hx).1
  cases flatExec_tables hx with
  | same hstore => rw [hstore]; exact List.Subset.refl _
  | undo _ hstore => rw [hstore]; exact undoAll_records _ _
  | db d hd hstore =>
    intro record hrecord
    rw [hstore] at hrecord
    refine (run_records d _ _ _ hrecord).resolve_right ?_
    rintro rfl
    -- a create inserts its record inside its transaction
    rcases hd with rfl | rfl
    · cases hc with
      | base h => cases h with
        | create h => cases h
        | retrySyncs h => cases h
        | task t h => cases h
    · exact ho record rfl

/-- The insertion of a record of its payload keeps faith. -/
theorem faithfulStep_record {record : IdempotencyRecord} {r : Except Err Unit}
    (hrecord : ∃ dto, record.requestHash = cfg.hashObject dto ∧ Matches dto record.responseBody)
    (h : FaithfulStep cfg i c (.tx (.db (.insertRecord record))) w r w') :
    FaithfulKept cfg w w' := by
  obtain ⟨_, _, x, hx⟩ := h
  rcases txDb_cases hx with ⟨_, _, _, rfl⟩ | ⟨_, rfl⟩
  · exact id
  · refine fun hw => ⟨fun row hrow => ?_, hw.returned⟩
    rcases run_records (.insertRecord record) _ _ _ hrow with hrow | heq
    · exact hw.records row hrow
    · cases heq
      exact hrecord

theorem inserted_matches {dto : CreateTimeOffRequestDto} {idempotencyKey : String} {days : Num}
    {saved : TimeOffRequest}
    (h : (w.db (.insertRequest (newRequest dto idempotencyKey days))).1 = .ok saved) :
    Matches dto (serializeRequest saved) := by
  -- days that are `NaN` are refused before the row is made
  simp only [World.db, DbOp.run] at h
  cases days with
  | none => cases h
  | some d =>
    split at h
    · cases h
    · rename_i row hrow
      cases hrow
      split at h
      · cases h
      · cases h
        exact ⟨rfl, rfl, rfl, rfl, rfl⟩

end Faithful

section Create

variable {cfg : Config} {dto : CreateTimeOffRequestDto} {idempotencyKey : String} {i : ℕ}

/-- Any state, and any interference. -/
abbrev Anything (_ _ : World) : Prop := True

theorem faithful_base {o : BaseOp} {B : World → Except Err o.Resp → World → Prop}
    (ho : CreateOp cfg dto idempotencyKey (.base o))
    (h : ∀ w r w', FaithfulStep cfg i (.create dto idempotencyKey) (.base o) w r w' →
      ∀ w₀, B w₀ r w') :
    Triple (FaithfulStep cfg i (.create dto idempotencyKey)) Anything (FaithfulKept cfg)
      (fun _ => True) (flatten (.base o)) B := by
  intro w₀ _
  refine Prog.Holds.perform ?_
  intro w _ r w' hstep
  exact ⟨faithfulStep_kept (by simp) hstep (.base (.create ho)), h w r w' hstep w₀⟩

theorem faithful_record (hhash : Function.Injective cfg.hashObject) :
    Triple (FaithfulStep cfg i (.create dto idempotencyKey)) Anything (FaithfulKept cfg)
      (fun _ => True) (flatten (.base (.db (.findRecord idempotencyKey)))) fun _ r _ =>
        True ∧ ∀ record, r = .ok (some record) → record.requestHash = cfg.hashObject dto →
          Matches dto record.responseBody := by
  refine faithful_base .findRecord fun w r w' hstep _ => ⟨trivial, ?_⟩
  rintro record hr hrecord
  obtain ⟨x, hx⟩ := hstep.exec
  -- an injective hash: the record is of this very payload
  rcases exec_db_cases hx with ⟨_, _, hr', _⟩ | ⟨hr', _⟩
  · rw [hr] at hr'
    cases hr'
  · rw [hr] at hr'
    obtain ⟨hmem, _⟩ := Store.record?_eq_some.mp (Except.ok.inj hr').symm
    obtain ⟨dto', hhash', hmatches⟩ := hstep.before.records record hmem
    obtain rfl : dto' = dto := hhash (hhash'.symm.trans hrecord)
    exact hmatches

theorem faithful_row :
    Triple (FaithfulStep cfg i (.create dto idempotencyKey)) Anything (FaithfulKept cfg)
      (fun _ => True) (flatten (.base (.db (.findRequestByKey idempotencyKey)))) fun _ r _ =>
        True ∧ ∀ row, r = .ok (some row) → Matches dto (serializeRequest row) := by
  refine faithful_base .findRequestByKey fun w r w' hstep _ => ⟨trivial, ?_⟩
  rintro row hr
  obtain ⟨x, hx⟩ := hstep.exec
  rcases exec_db_cases hx with ⟨_, _, hr', _⟩ | ⟨hr', _⟩
  · rw [hr] at hr'
    cases hr'
  · rw [hr] at hr'
    exact hstep.own dto idempotencyKey row rfl rfl (Except.ok.inj hr').symm

/-- The callback returns a request of its payload. -/
theorem faithful_body (w : World) :
    (createTransaction cfg dto idempotencyKey (calculateDaysRequested dto.startDate dto.endDate)
      (cfg.hashObject dto)).Holds
        (fun o => FaithfulStep cfg i (.create dto idempotencyKey) (.tx o)) Anything
        (FaithfulKept cfg) (fun r _ => (∀ saved, r = .ok saved →
          Matches dto (serializeRequest saved)) ∧ ∀ e, r = .error e → True) w := by
  -- all operations but the insert of the record keep faith by themselves
  have hquiet {β : Type} {p : Tx β} (hp : p.Each fun o =>
      TxCallOp cfg (.create dto idempotencyKey) o ∧ ∀ record, o ≠ .db (.insertRecord record))
      (w : World) : p.Holds (fun o => FaithfulStep cfg i (.create dto idempotencyKey) (.tx o))
        Anything (FaithfulKept cfg) (fun _ _ => True) w := by
    refine Prog.Holds.of_each (fun o u r u' ho hs => ?_) hp w
    exact faithfulStep_kept (fun record h => ho.2 record (FlatOp.tx.inj h)) hs (.tx ho.1)
  -- an error answers nothing
  have herr {e : Err} : (∀ saved, (Except.error e : Except Err TimeOffRequest) = .ok saved →
      Matches dto (serializeRequest saved)) ∧
        ∀ e', (Except.error e : Except Err TimeOffRequest) = .error e' → True :=
    ⟨fun _ h => (nomatch h), fun _ _ => trivial⟩
  refine Prog.Holds.bind (Prog.Holds.mono ?_
    (hquiet (lockEmployeeBalances_each ⟨.createBalances _ _, by simp⟩) w))
  rintro (e | _) w₁ _
  · exact herr
  refine Prog.Holds.bind (Prog.Holds.mono ?_
    (hquiet (assertNoOverlap_each ⟨.createActive _ _, by simp⟩) w₁))
  rintro (e | _) w₂ _
  · exact herr
  refine Prog.Holds.bind (Prog.Holds.mono ?_ (hquiet (moveDays_each ⟨.createBalance _ _, by simp⟩
    fun _ => ⟨.createDeduct _ _ _, by simp⟩) w₂))
  rintro (e | _) w₃ _
  · exact herr
  dsimp only [Prog.after]
  refine tx_db_bind ?_
  intro w₄ _ r w₅ hstep
  refine ⟨faithfulStep_kept (by simp) hstep (.tx (.createRequest _ _)), ?_⟩
  rcases r with e | saved
  · exact herr
  -- the row that is saved has the columns of the dto
  have hmatches : Matches dto (serializeRequest saved) := by
    obtain ⟨x, hx⟩ := hstep.exec
    rcases txDb_cases hx with ⟨_, _, hr, _⟩ | ⟨hr, _⟩
    · cases hr
    · exact inserted_matches hr.symm
  dsimp only [Prog.after]
  refine tx_now_bind ?_
  intro w₆ _ r w₇ hstep
  refine ⟨faithfulStep_kept (by simp) hstep (.tx (.createNow _ _)), ?_⟩
  rcases r with e | now
  · exact herr
  dsimp only [Prog.after]
  refine tx_db_bind ?_
  intro w₈ _ r w₉ hstep
  refine ⟨?_, ?_⟩
  · exact faithfulStep_record ⟨dto, rfl, hmatches⟩ hstep
  · rcases r with e | _
    · exact herr
    · refine ⟨fun saved' h => ?_, fun _ _ => trivial⟩
      cases h
      exact hmatches

theorem faithful_transaction :
    Triple (FaithfulStep cfg i (.create dto idempotencyKey)) Anything (FaithfulKept cfg)
      (fun _ => True) (flatten (.transaction (createTransaction cfg dto idempotencyKey
        (calculateDaysRequested dto.startDate dto.endDate) (cfg.hashObject dto)))) fun _ r _ =>
        (∀ saved, r = .ok saved → True ∧ Matches dto (serializeRequest saved)) ∧
          ∀ e, r = .error e → True := by
  intro w _
  refine holds_flattenTransaction (fun _ => True)
    (fun saved _ => Matches dto (serializeRequest saved)) (fun _ => True)
    ?_ (fun t _ => faithful_body t) ?_ ?_
  · intro w₁ _ r w₂ hstep
    exact ⟨faithfulStep_kept (by simp) hstep .begin, fun _ _ => trivial, fun _ _ => trivial⟩
  · intro saved t hmatches w₁ _ r w₂ hstep
    refine ⟨faithfulStep_kept (by simp) hstep .commit, fun _ _ => ⟨fun saved' h => ?_,
      fun _ _ => trivial⟩, fun _ _ => trivial⟩
    cases h
    exact ⟨trivial, hmatches⟩
  · intro t _ w₁ _ r w₂ hstep
    exact ⟨faithfulStep_kept (by simp) hstep .rollback,
      fun _ => ⟨fun _ h => (nomatch h), fun _ _ => trivial⟩⟩

theorem faithful_triples (hhash : Function.Injective cfg.hashObject) (i : ℕ)
    (dto : CreateTimeOffRequestDto) (idempotencyKey : String) :
    CreateTriples flatten (FaithfulStep cfg i (.create dto idempotencyKey)) Anything
      (FaithfulKept cfg) cfg dto idempotencyKey (fun _ => True) (fun _ => True) (fun _ => True)
      (fun _ => True) (fun _ => True) fun body _ => Matches dto body := by
  -- most operations have nothing to answer with
  have hkeep {o : BaseOp} (ho : CreateOp cfg dto idempotencyKey (.base o)) :
      Triple (FaithfulStep cfg i (.create dto idempotencyKey)) Anything (FaithfulKept cfg)
        (fun _ => True) (flatten (.base o)) fun _ _ _ =>
          True ∧ ∀ b, Matches dto b → Matches dto b :=
    faithful_base ho fun _ _ _ _ _ => ⟨trivial, fun _ => id⟩
  have hok {o : BaseOp} (ho : CreateOp cfg dto idempotencyKey (.base o))
      (h : ∀ w x r w', o.exec i x w = some (r, w') → ∃ u, r = .ok u) :
      Triple (FaithfulStep cfg i (.create dto idempotencyKey)) Anything (FaithfulKept cfg)
        (fun _ => True) (flatten (.base o)) fun _ r _ => (∃ u, r = .ok u) ∧ True := by
    refine faithful_base ho fun w r w' hstep _ => ⟨?_, trivial⟩
    obtain ⟨x, hx⟩ := hstep.exec
    exact h w x r w' hx
  exact
    { out_end := fun _ _ => trivial
      now_out := hkeep .now
      find_out := faithful_record hhash
      enter := hok .enterLock fun w x r w' hx => by cases hx; exact ⟨_, rfl⟩
      await := hok .awaitPrevious fun w x r w' hx => by
        obtain ⟨l, _, heq⟩ := Option.map_eq_some_iff.mp hx
        cases heq
        exact ⟨_, rfl⟩
      now_in := hkeep .now
      sleep_in := fun ms => faithful_base (.sleep ms) fun _ _ _ _ _ => trivial
      find_in := faithful_record hhash
      row_in := faithful_row
      transaction := faithful_transaction
      schedule := fun task w _ => by
        refine Prog.Holds.perform ?_
        intro w₁ _ r w₂ hstep
        obtain ⟨x, hx⟩ := hstep.exec
        cases hx
        exact ⟨fun h => h.sub (List.Subset.refl _) rfl, ⟨_, rfl⟩, trivial, fun _ => id⟩
      release_in := hkeep .releaseLock
      release_done := hkeep .releaseLock }

end Create

section Runs

variable {cfg : Config} {w w' : World}

/-- When a create call falls back on the request of its key, that is one of its own payload. -/
def recoversOwn (P : Pool Call FlatOp FlatOp.Resp Err (Option RequestBody) World) :
    Act Call Choice Env → Bool
  | .step i _ => (P.procs i).all fun q =>
    match q.call, q.op with
    | .create dto idempotencyKey, .base (.db (.findRequestByKey _)) =>
      (P.shared.store.requestByKey? idempotencyKey).all fun row =>
        Matches dto (serializeRequest row)
    | _, _ => true
  | _ => true

def FaithfulPost (c : Call) (r : Except Err (Option RequestBody)) (_ : World) : Prop :=
  ∀ dto idempotencyKey body, c = .create dto idempotencyKey → r = .ok (some body) →
    Matches dto body

theorem faithful_code (hhash : Function.Injective cfg.hashObject) (i : ℕ) (c : Call) (w : World) :
    ((c.svc cfg).interp flatten).Holds (FaithfulStep cfg i c) Anything (FaithfulKept cfg)
      (FaithfulPost c) w := by
  -- other calls insert no record, so they answer for nothing
  by_cases hc : ∃ dto idempotencyKey, c = .create dto idempotencyKey
  · obtain ⟨dto, idempotencyKey, rfl⟩ := hc
    have hends := (faithful_triples hhash i dto idempotencyKey).createRequest w trivial
    refine Prog.Holds.interp_bind (Prog.Holds.mono ?_ hends)
    rintro (e | body) u ⟨_, hgood⟩
    · exact fun _ _ _ _ h => nomatch h
    · rintro dto' key' body' ⟨rfl, rfl⟩ ⟨rfl⟩
      exact hgood body rfl
  · have hends : ((c.svc cfg).interp flatten).Holds (FaithfulStep cfg i c) Anything
        (FaithfulKept cfg) (fun _ _ => True) w := by
      refine Prog.Holds.of_each (fun o u r u' ho hs => ?_) (flat_each cfg c) w
      refine faithfulStep_kept ?_ hs ho
      rintro record rfl
      cases ho with
      | tx h => cases h with
        | createRecord dto key => exact hc ⟨dto, key, rfl⟩
        | approve _ _ h => cases h
        | reject _ _ _ h => cases h
        | cancel _ _ h => cases h
    exact Prog.Holds.mono (fun r u _ dto key body h => absurd ⟨dto, key, h⟩ hc) hends

theorem faithful_finish {i : ℕ} {c : Call} {r : Except Err (Option RequestBody)}
    (h : FaithfulPost c r w) : FaithfulKept cfg w (World.finish i c r w) := by
  refine fun hw => ⟨hw.records, fun dto key body hmem => ?_⟩
  rcases mem_returned_finish hmem with hmem | ⟨hc, hr⟩
  · exact hw.returned dto key body hmem
  · exact h dto key body hc.symm hr

def faithfulResponses (cfg : Config) (hhash : Function.Injective cfg.hashObject) :
    RelyGuarantee (flatMachine cfg) fun P a => recoversOwn P a = true where
  Inv _ w := Faithful cfg w
  stepRel := FaithfulStep cfg
  rely _ _ := Anything
  guar _ _ := FaithfulKept cfg
  post _ := FaithfulPost
  rely_refl := trivial
  rely_trans _ _ := trivial
  step_of {P i x q r w'} hI hC hq hx := by
    refine ⟨hI, ?_, x, hx⟩
    intro dto idempotencyKey row hc ho hrow
    -- the condition on the action speaks of the row that the recovery finds
    simp only [recoversOwn, hq, Option.all_some, hc, ho, hrow, decide_eq_true_eq] at hC
    exact hC
  guar_inv _ hI h := h hI
  guar_rely _ _ _ := trivial
  finish_guar _ h := faithful_finish h
  accept_inv hI _ hs := by
    obtain ⟨hstore, _, hreturned⟩ := accept_frame hs
    exact hI.sub (by rw [hstore]; exact List.Subset.refl _) hreturned
  accept_rely _ _ _ _ := trivial
  accept_holds {P c w'} _ _ _ := faithful_code hhash P.next c w'
  env_inv hI _ hs := by
    obtain ⟨hstore, hsame⟩ := env_sameCalls hs
    exact hI.sub (by rw [hstore]; exact List.Subset.refl _) hsame.returned
  env_rely _ _ _ := trivial
  halt_inv hI _ := hI.sub (undoAll_records _ _) rfl

/-- As long as no create call falls back on a row of another payload, each is given a request of
its own payload. -/
theorem faithful_if_recoversOwn (cfg : Config) (hhash : Function.Injective cfg.hashObject)
    (start : Store) (clock nextId : ℕ) (hcm : MockHcm)
    (hstart : ∀ record ∈ start.records, ∃ dto,
      record.requestHash = cfg.hashObject dto ∧ Matches dto record.responseBody)
    {P : Pool Call FlatOp FlatOp.Resp Err (Option RequestBody) World}
    (hP : (flatMachine cfg).Reach (fun P a => recoversOwn P a = true)
      (Pool.init (World.init start clock nextId hcm)) P) :
    ∀ dto idempotencyKey body, (.create dto idempotencyKey, body) ∈ P.shared.history.returned →
      Matches dto body := by
  have hinv : Faithful cfg (World.init start clock nextId hcm) :=
    ⟨hstart, fun _ _ _ h => nomatch h⟩
  exact ((faithfulResponses cfg hhash).good_of_reach hinv hP).inv.returned

def ten : Store :=
  .ofBalance ⟨plainKey, 10, 10, 0, 0, 10, none, none, false, none, 1⟩

/-- A call for a first payload commits as process 0; after `ms` milliseconds its key comes with
the payload `dto`, in a call of `n` steps. -/
def keyReused (ms : ℕ) (dto : CreateTimeOffRequestDto) (n : ℕ) : List (Act Call Choice Env) :=
  .start (.create (plainDto "2030-01-07" "2030-01-08") "key-1") ::
    List.replicate 16 (.step 0 .go) ++ [.env (.tick ms), .start (.create dto "key-1")] ++
      List.replicate n (.step 1 .go)

def march : CreateTimeOffRequestDto := plainDto "2030-03-04" "2030-03-04"

theorem keyReused_after_expiry_runs :
    ((flatMachine plainConfig).run (fun _ _ => True)
      (Pool.init (World.init ten 1000 0 (.init []))) (keyReused 86400001 march 18)).isSome =
      true := by
  decide +kernel

/-- Once the record has expired, the unique key of the old row makes the new transaction fail,
and the caller is given the old request. -/
theorem response_of_other_payload :
    ¬ ∀ (cfg : Config) (_ : Function.Injective cfg.hashObject) (start : Store)
      (clock nextId : ℕ) (hcm : MockHcm)
      (_ : ∀ record ∈ start.records, ∃ dto,
        record.requestHash = cfg.hashObject dto ∧ Matches dto record.responseBody)
      (P : Pool Call FlatOp FlatOp.Resp Err (Option RequestBody) World),
      (flatMachine cfg).Reach (fun _ _ => True) (Pool.init (World.init start clock nextId hcm)) P →
        ∀ dto idempotencyKey body,
          (.create dto idempotencyKey, body) ∈ P.shared.history.returned → Matches dto body := by
  intro h
  have hreturned := h plainConfig plainHash_injective ten 1000 0 (.init []) (fun _ h => nomatch h)
    _ (Machine.reach_of_run .refl (Option.some_get keyReused_after_expiry_runs).symm)
  have hbad : ((((flatMachine plainConfig).run (fun _ _ => True)
      (Pool.init (World.init ten 1000 0 (.init []))) (keyReused 86400001 march 18)).get
        keyReused_after_expiry_runs).shared.history.returned.any fun e =>
          e.1 = .create march "key-1" && !decide (Matches march e.2)) = true := by
    decide +kernel
  obtain ⟨⟨c, body⟩, hmem, hc⟩ := List.any_eq_true.mp hbad
  simp only [Bool.and_eq_true, decide_eq_true_eq, Bool.not_eq_true', decide_eq_false_iff_not] at hc
  obtain ⟨rfl, hno⟩ := hc
  exact hno (hreturned march "key-1" body hmem)

/-- A request is created and cancelled; after the record has expired its key comes again with the
same payload. -/
def cancelledAndRepeated : List (Act Call Choice Env) :=
  .start (.create (plainDto "2030-01-07" "2030-01-08") "key-1") ::
    List.replicate 16 (.step 0 .go) ++ .start (.cancel 0 none) :: List.replicate 7 (.step 1 .go) ++
      [.env (.tick 86400001), .start (.create (plainDto "2030-01-07" "2030-01-08") "key-1")] ++
        List.replicate 18 (.step 2 .go)

theorem cancelledAndRepeated_runs :
    ((flatMachine plainConfig).run (fun P a => recoversOwn P a = true)
      (Pool.init (World.init ten 1000 0 (.init []))) cancelledAndRepeated).isSome = true := by
  decide +kernel

/-- The second call falls back on the request of the first, which is of its own payload. -/
theorem response_of_own_payload :
    ∃ P, (flatMachine plainConfig).run (fun P a => recoversOwn P a = true)
        (Pool.init (World.init ten 1000 0 (.init []))) cancelledAndRepeated = some P ∧
      ∀ body, (.create (plainDto "2030-01-07" "2030-01-08") "key-1", body) ∈
        P.shared.history.returned → Matches (plainDto "2030-01-07" "2030-01-08") body := by
  have hrun := (Option.some_get cancelledAndRepeated_runs).symm
  refine ⟨_, hrun, ?_⟩
  exact faithful_if_recoversOwn plainConfig plainHash_injective ten 1000 0 (.init [])
    (fun _ h => nomatch h) (Machine.reach_of_run .refl hrun) _ _

end Runs

end TimeOff
