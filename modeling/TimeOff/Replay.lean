import TimeOff.AtomicTx
import TimeOff.CreateRule

/-! The replay of a create call: what its idempotency record keeps through any later run, and
when the second call returns it. -/
namespace TimeOff

open Async

section Records

variable {w w' : World} {key : String} {record : IdempotencyRecord}

/-- No transaction is open, and the key has its record. -/
structure Remembers (key : String) (record : IdempotencyRecord) (w : World) : Prop where
  idle : w.journal = []
  stored : w.store.record? key = some record

theorem run_record {now fresh : ℕ} {o : DbOp} {s : Store} (h : s.record? key = some record) :
    (o.run now fresh s).2.record? key = some record := by
  cases o with
  | saveBalance k patch =>
    simp only [DbOp.run]
    split <;> exact h
  | insertBalance balance =>
    simp only [DbOp.run]
    split
    · exact h
    · split
      · exact h
      · rename_i hs
        rw [Store.record?, (Store.insertBalance_eq hs).2.2.2]
        exact h
  | insertRequest request =>
    simp only [DbOp.run]
    split
    · exact h
    · split
      · exact h
      · rename_i hs
        rw [Store.record?, (Store.insertRequest_eq hs).2.2.2.2]
        exact h
  | insertRecord row =>
    simp only [DbOp.run]
    split
    · exact h
    · rename_i hs
      -- the inserted row goes behind the rows there are, so the lookup still finds `record`
      rw [Store.record?, (Store.insertRecord_eq hs).2.1, List.find?_append]
      exact Option.or_eq_some_iff.mpr (.inl h)
  | _ => exact h

theorem txExec_record {o : TxOp} {x : Choice} {r : Except Err o.Resp}
    (hx : o.exec x w = some (r, w')) (h : w.store.record? key = some record) :
    w'.store.record? key = some record := by
  cases o with
  | db o =>
    rcases execDb_cases hx with ⟨_, _, _, rfl⟩ | ⟨_, rfl⟩
    · exact h
    · exact run_record h
  | _ =>
    cases hx
    exact h

theorem baseExec_record {i : ℕ} {o : BaseOp} {x : Choice} {r : Except Err o.Resp}
    (hx : o.exec i x w = some (r, w')) (h : w.store.record? key = some record) :
    w'.store.record? key = some record := by
  by_cases hdb : ∃ d, o = .db d
  · obtain ⟨d, rfl⟩ := hdb
    rcases exec_db_cases hx with ⟨_, _, _, hstore⟩ | ⟨_, hstore⟩
    · rw [hstore]
      exact h
    · rw [hstore]
      exact run_record h
  · rw [exec_store (fun d hd => hdb ⟨d, hd⟩) hx]
    exact h

theorem atomically_record {β : Type} {p : Tx β} {xs : List Choice} {commit : Choice}
    {r : Except Err β} (hx : atomically p xs commit w = some (r, w'))
    (h : w.store.record? key = some record) : w'.store.record? key = some record := by
  obtain ⟨⟨y, u⟩, hplay, hr⟩ := Option.bind_eq_some_iff.mp hx
  have hu : u.store.record? key = some record := by
    refine Prog.play_inv (fun u => u.store.record? key = some record) ?_ h hplay
    exact fun o c s r s' => txExec_record
  dsimp only at hr
  split at hr <;> cases hr
  · exact hu
  · exact h
  · exact h

theorem opExec_record {i : ℕ} {o : Op} {x : AtomicChoice} {r : Except Err o.Resp}
    (hx : o.exec i x w = some (r, w')) (h : w.store.record? key = some record) :
    w'.store.record? key = some record := by
  cases o with
  | base o =>
    cases x with
    | op x => exact baseExec_record hx h
    | transaction xs commit => cases hx
  | transaction body =>
    rcases exec_transaction hx with ⟨_, _, _, rfl⟩ | ⟨xs, commit, hx⟩
    · exact h
    · exact atomically_record hx h

/-- A stored record outlives any run. -/
theorem reach_remembers {cfg : Config}
    {P : Pool Call Op Op.Resp Err (Option RequestBody) World} (hw : Remembers key record w)
    (hP : (atomicMachine cfg).Reach (fun _ _ => True) (Pool.init w) P) :
    Remembers key record P.shared := by
  refine Machine.Reach.inv (fun P => Remembers key record P.shared) hw ?_ hP
  intro P a P' h _ ha
  -- what a call returns at once touches neither the record nor the journal
  have hsettle {i : ℕ} {c : Call} {s : World} {Q : Pool Call Op Op.Resp Err _ World}
      {p : Prog Op Op.Resp Err (Option RequestBody)} (hs : Remembers key record s) :
      Remembers key record ((atomicMachine cfg).settle i c Q s p).shared := by
    cases p <;> exact ⟨hs.idle, hs.stored⟩
  cases a with
  | start c =>
    obtain ⟨s, hs, rfl⟩ := Option.map_eq_some_iff.mp ha
    obtain ⟨hstore, hjournal, _⟩ := accept_frame hs
    exact hsettle ⟨hjournal.trans h.idle, by rw [hstore]; exact h.stored⟩
  | step i x =>
    obtain ⟨v, _, ha⟩ := Option.bind_eq_some_iff.mp ha
    obtain ⟨⟨r, s⟩, hs, rfl⟩ := Option.map_eq_some_iff.mp ha
    exact hsettle ⟨(opExec_sameCalls hs).journal.trans h.idle, opExec_record hs h.stored⟩
  | env e =>
    obtain ⟨s, hs, rfl⟩ := Option.map_eq_some_iff.mp ha
    obtain ⟨hstore, hsame⟩ := env_sameCalls hs
    exact ⟨hsame.journal.trans h.idle, by rw [hstore]; exact h.stored⟩
  | halt =>
    cases ha
    refine ⟨rfl, ?_⟩
    change (undoAll P.shared.journal P.shared.store).record? key = some record
    -- no transaction is open, so the crash has nothing to undo
    rw [h.idle]
    exact h.stored

end Records

section FirstCall

variable {cfg : Config} {dto : CreateTimeOffRequestDto} {idempotencyKey : String} {i : ℕ}
  {w w₀ w₁ : World} {body : RequestBody} {record : IdempotencyRecord}

/-- A create call that committed: it ran from `w₀` to `w₁`, returned `body` and stored the
record of its key. -/
structure Committed (cfg : Config) (dto : CreateTimeOffRequestDto) (idempotencyKey : String)
    (w₀ w₁ : World) (body : RequestBody) (record : IdempotencyRecord) : Prop where
  idle : w₀.journal = []
  fresh : w₀.store.record? idempotencyKey = none
  call : ∃ i xs, (createRequest cfg dto idempotencyKey).play (Op.exec i) xs w₀ =
    some (.ok body, w₁)
  stored : w₁.store.record? idempotencyKey = some record

/-- Nothing is stored under the key, or the record holds this payload and this body. -/
def AnswersWith (cfg : Config) (dto : CreateTimeOffRequestDto) (idempotencyKey : String)
    (body : RequestBody) (w : World) : Prop :=
  ∀ record, w.store.record? idempotencyKey = some record →
    record.requestHash = cfg.hashObject dto ∧ record.responseBody = body

theorem base_triple {o : BaseOp} {A : World → Prop} {B : World → Except Err o.Resp → World → Prop}
    (h : ∀ w x r w', A w → o.exec i x w = some (r, w') → B w r w') :
    Triple (SvcStep i) Eq (fun _ _ => True) A (Prog.perform (Op.base o)) B := by
  intro w hw
  refine Prog.Holds.perform ?_
  rintro _ rfl r w' ⟨x, hx⟩
  cases x with
  | op x => exact ⟨trivial, h w x r w' hw hx⟩
  | transaction xs commit => cases hx

theorem find_triple : Triple (SvcStep i) Eq (fun _ _ => True)
    (fun w => w.store.record? idempotencyKey = none)
    (Prog.perform (Op.base (.db (.findRecord idempotencyKey)))) fun _ r w =>
      w.store.record? idempotencyKey = none ∧ ∀ record, r = .ok (some record) →
        record.requestHash = cfg.hashObject dto →
        AnswersWith cfg dto idempotencyKey record.responseBody w := by
  refine base_triple fun w x r w' hw hx => ?_
  rcases exec_db_cases hx with ⟨_, _, rfl, hstore⟩ | ⟨rfl, hstore⟩
  · exact ⟨by rw [hstore]; exact hw, fun _ h => nomatch h⟩
  · refine ⟨by rw [hstore]; exact hw, fun record hr => ?_⟩
    have hnone : w.store.record? idempotencyKey = some record := Except.ok.inj hr
    rw [hw] at hnone
    cases hnone

theorem row_triple : Triple (SvcStep i) Eq (fun _ _ => True)
    (fun w => w.store.record? idempotencyKey = none)
    (Prog.perform (Op.base (.db (.findRequestByKey idempotencyKey)))) fun _ r w =>
      w.store.record? idempotencyKey = none ∧ ∀ row, r = .ok (some row) →
        AnswersWith cfg dto idempotencyKey (serializeRequest row) w := by
  refine base_triple fun w x r w' hw hx => ?_
  have hw' : w'.store.record? idempotencyKey = none := by
    rcases exec_db_cases hx with ⟨_, _, _, hstore⟩ | ⟨_, hstore⟩ <;> rw [hstore] <;> exact hw
  refine ⟨hw', fun row _ record hrecord => ?_⟩
  rw [hw'] at hrecord
  cases hrecord

/-- A committed transaction stores the record of its response. -/
theorem createEffect_record {days : ℚ} {now id : ℕ} {s s' : Store} {saved : TimeOffRequest}
    {b : EmployeeBalance} (hs : s.record? idempotencyKey = none)
    (he : CreateEffect cfg dto idempotencyKey days (cfg.hashObject dto) now id s s' saved b) :
    s'.record? idempotencyKey =
      some (newRecord cfg dto idempotencyKey (cfg.hashObject dto) saved now) := by
  rw [Store.record?, he.records, List.find?_append]
  rw [Store.record?] at hs
  rw [hs]
  simp [newRecord]

theorem transaction_triple : Triple (SvcStep i) Eq (fun _ _ => True)
    (fun w => w.store.record? idempotencyKey = none)
    (Prog.perform (Op.transaction (createTransaction cfg dto idempotencyKey
      (calculateDaysRequested dto.startDate dto.endDate) (cfg.hashObject dto)))) fun _ r w =>
      (∀ saved, r = .ok saved → True ∧
        AnswersWith cfg dto idempotencyKey (serializeRequest saved) w) ∧
      ∀ e, r = .error e → w.store.record? idempotencyKey = none := by
  intro w hw
  refine Prog.Holds.perform ?_
  rintro _ rfl r w' ⟨x, hx⟩
  refine ⟨trivial, ?_⟩
  -- the transaction never began, or it ran whole
  rcases exec_transaction hx with ⟨_, _, rfl, rfl⟩ | ⟨xs, commit, hx⟩
  · exact ⟨fun _ h => (nomatch h), fun _ _ => hw⟩
  rcases atomically_ends create_ends hx with ⟨v, rfl, hv⟩ | ⟨e, rfl, hstore, _⟩
  · refine ⟨fun saved hsaved => ⟨trivial, fun record hrecord => ?_⟩, fun _ h => nomatch h⟩
    cases hsaved
    obtain ⟨days, b, _, he⟩ := hv v rfl
    rw [createEffect_record hw he] at hrecord
    cases hrecord
    exact ⟨rfl, rfl⟩
  · exact ⟨fun _ h => (nomatch h), fun _ _ => by rw [hstore]; exact hw⟩

theorem create_triples (i : ℕ) (cfg : Config) (dto : CreateTimeOffRequestDto)
    (idempotencyKey : String) :
    CreateTriples Prog.perform (SvcStep i) Eq (fun _ _ => True) cfg dto idempotencyKey
      (fun w => w.store.record? idempotencyKey = none)
      (fun w => w.store.record? idempotencyKey = none)
      (fun w => w.store.record? idempotencyKey = none) (fun _ => True) (fun _ => True)
      (AnswersWith cfg dto idempotencyKey) where
  out_end _ _ := trivial
  now_out := base_triple fun w x r w' hw hx => by
    cases hx
    exact ⟨hw, fun _ => id⟩
  find_out := find_triple
  enter := base_triple fun w x r w' hw hx => by
    cases hx
    exact ⟨⟨_, rfl⟩, hw⟩
  await := base_triple fun w x r w' hw hx => by
    obtain ⟨l, _, heq⟩ := Option.map_eq_some_iff.mp hx
    cases heq
    exact ⟨⟨_, rfl⟩, hw⟩
  now_in := base_triple fun w x r w' hw hx => by
    cases hx
    exact ⟨hw, fun _ => id⟩
  sleep_in _ := base_triple fun w x r w' hw hx => by
    cases hx
    exact hw
  find_in := find_triple
  row_in := row_triple
  transaction := transaction_triple
  schedule _ := base_triple fun w x r w' hw hx => by
    cases hx
    exact ⟨⟨_, rfl⟩, trivial, fun _ => id⟩
  release_in := base_triple fun w x r w' hw hx => by
    cases hx
    exact ⟨trivial, fun _ => id⟩
  release_done := base_triple fun w x r w' hw hx => by
    cases hx
    exact ⟨trivial, fun _ => id⟩

/-- The checks that do not depend on the clock. -/
def wellFormed (cfg : Config) (dto : CreateTimeOffRequestDto) (idempotencyKey : String) : Bool :=
  idempotencyKey ≠ "" && !ltTime (parseMidnight cfg dto.endDate) (parseMidnight cfg dto.startDate)

theorem not_ok_of_not_wellFormed (h : wellFormed cfg dto idempotencyKey = false) :
    SvcEnds i (fun _ _ => True) (fun r _ => ∀ b, r ≠ .ok b)
      (createRequest cfg dto idempotencyKey) w := by
  unfold createRequest
  split
  · exact fun _ => nofun
  · rename_i hkey
    refine Prog.Holds.bind (svcEnds_now ⟨trivial, ?_⟩)
    dsimp only [Prog.after]
    split
    · exact fun _ => nofun
    -- a payload that is not well formed is refused before the first read
    · rw [if_pos]
      · exact fun _ => nofun
      · simpa [wellFormed, hkey] using h

theorem Committed.wellFormed (h : Committed cfg dto idempotencyKey w₀ w₁ body record) :
    wellFormed cfg dto idempotencyKey = true := by
  obtain ⟨i, xs, hplay⟩ := h.call
  by_contra hbad
  exact Prog.Holds.play (fun _ => rfl) (fun o c s r s' hs => ⟨c, hs⟩)
    (not_ok_of_not_wellFormed (by simpa using hbad)) hplay body rfl

theorem Committed.record_eq (h : Committed cfg dto idempotencyKey w₀ w₁ body record) :
    record.requestHash = cfg.hashObject dto ∧ record.responseBody = body := by
  obtain ⟨i, xs, hplay⟩ := h.call
  have hends := (create_triples i cfg dto idempotencyKey).createRequest w₀ h.fresh
  rw [Prog.interp_id] at hends
  have hpost := Prog.Holds.play (fun _ => rfl) (fun o c s r s' hs => ⟨c, hs⟩) hends hplay
  exact hpost.2 body rfl record h.stored

theorem Committed.remembers (h : Committed cfg dto idempotencyKey w₀ w₁ body record) :
    Remembers idempotencyKey record w₁ := by
  obtain ⟨i, xs, hplay⟩ := h.call
  refine ⟨?_, h.stored⟩
  refine Prog.play_inv (fun w => w.journal = []) ?_ h.idle hplay
  exact fun o x s r s' hs hidle => (opExec_sameCalls hs).journal.trans hidle

end FirstCall

section SecondCall

variable {cfg : Config} {dto : CreateTimeOffRequestDto} {idempotencyKey : String} {i : ℕ}
  {w w₀ w₁ : World} {body : RequestBody} {record : IdempotencyRecord}

/-- The call, run alone from `w` without a failure of the driver, returns `body` and changes no
table. -/
def Replays (cfg : Config) (dto : CreateTimeOffRequestDto) (idempotencyKey : String)
    (body : RequestBody) (w : World) : Prop :=
  ∃ i n w', (createRequest cfg dto idempotencyKey).play (Op.exec i)
    (steps n) w = some (.ok body, w') ∧ w'.store = w.store

theorem check_hit_play {β : Type} {employeeId : String} {k : Option RequestBody → Svc β}
    {xs : List AtomicChoice} (hrecord : w.store.record? idempotencyKey = some record)
    (hclock : w.clock < record.expiresAt) (hhash : record.requestHash = cfg.hashObject dto) :
    ((checkIdempotency idempotencyKey employeeId (cfg.hashObject dto)).bind k).play (Op.exec i)
      (.op .go :: .op .go :: xs) w = (k (some record.responseBody)).play (Op.exec i) xs w := by
  have hdb : w.db (.findRecord idempotencyKey) = (.ok (some record), w) := by
    rw [← hrecord]
    rfl
  unfold checkIdempotency
  rw [Prog.bind_def, Prog.bind_assoc]
  refine (play_db_bind fun _ => by simp).trans ?_
  rw [hdb]
  change Prog.play _ ((Svc.now.bind _).bind k) _ w = _
  rw [Prog.bind_assoc]
  refine play_now_bind.trans ?_
  rw [if_neg (by omega), if_neg (by simpa using hhash)]
  rfl

theorem replays_of_notInPast (hform : wellFormed cfg dto idempotencyKey = true)
    (hrecord : w.store.record? idempotencyKey = some record)
    (hclock : w.clock < record.expiresAt) (hhash : record.requestHash = cfg.hashObject dto)
    (hpast : isNotInPast dto.startDate w.clock = true) :
    Replays cfg dto idempotencyKey record.responseBody w := by
  refine ⟨0, 3, w, ?_, rfl⟩
  simp only [wellFormed, Bool.and_eq_true, decide_eq_true_eq, Bool.not_eq_true'] at hform
  unfold createRequest
  rw [if_neg hform.1]
  refine play_now_bind.trans ?_
  rw [if_neg (by simp [hpast]), if_neg (by simp [hform.2])]
  exact check_hit_play hrecord hclock hhash

theorem not_replays_of_past (hpast : isNotInPast dto.startDate w.clock = false) :
    ¬ Replays cfg dto idempotencyKey body w := by
  rintro ⟨i, n, w', hplay, _⟩
  have hends : SvcEnds i (fun _ _ => True) (fun r _ => ∀ b, r ≠ .ok b)
      (createRequest cfg dto idempotencyKey) w := by
    unfold createRequest
    split
    · exact fun _ => nofun
    · refine Prog.Holds.bind (svcEnds_now ⟨trivial, ?_⟩)
      dsimp only [Prog.after]
      rw [if_pos (by simp [hpast])]
      exact fun _ => nofun
  exact Prog.Holds.play (fun _ => rfl) (fun o c s r s' hs => ⟨c, hs⟩) hends hplay body rfl

/-- While the record of a committed call lasts, the same call replays its response exactly as
long as the start date is not in the past. -/
theorem replay_iff_notInPast (h : Committed cfg dto idempotencyKey w₀ w₁ body record)
    {P : Pool Call Op Op.Resp Err (Option RequestBody) World}
    (hP : (atomicMachine cfg).Reach (fun _ _ => True) (Pool.init w₁) P)
    (hclock : P.shared.clock < record.expiresAt) :
    Replays cfg dto idempotencyKey body P.shared ↔
      isNotInPast dto.startDate P.shared.clock = true := by
  obtain ⟨hhash, rfl⟩ := h.record_eq
  have hkept := reach_remembers h.remembers hP
  constructor
  · intro hreplays
    by_contra hpast
    exact not_replays_of_past (by simpa using hpast) hreplays
  · exact replays_of_notInPast h.wellFormed hkept.stored hclock hhash

/-- What a create call that runs alone returns and leaves. -/
def createAlone (cfg : Config) (dto : CreateTimeOffRequestDto) (idempotencyKey : String)
    (xs : List AtomicChoice) (w₀ : World) : Option (RequestBody × IdempotencyRecord × World) :=
  match (createRequest cfg dto idempotencyKey).play (Op.exec 0) xs w₀ with
  | some (.ok body, w₁) =>
    (w₁.store.record? idempotencyKey).map fun record => (body, record, w₁)
  | _ => none

theorem committed_of_createAlone {xs : List AtomicChoice} (hidle : w₀.journal = [])
    (hfresh : w₀.store.record? idempotencyKey = none)
    (h : createAlone cfg dto idempotencyKey xs w₀ = some (body, record, w₁)) :
    Committed cfg dto idempotencyKey w₀ w₁ body record := by
  unfold createAlone at h
  split at h
  · rename_i hplay
    obtain ⟨r, hr, heq⟩ := Option.map_eq_some_iff.mp h
    cases heq
    exact ⟨hidle, hfresh, ⟨0, xs, hplay⟩, hr⟩
  · cases h

/-- An hour before midnight, on the first day of the request. -/
def lateOnFirstDay : World :=
  World.init (.ofBalance ⟨plainKey, 10, 10, 0, 0, 10, none, none, false, none, 1⟩)
    1893970800000 0 (.init [])

def firstDayDto : CreateTimeOffRequestDto := plainDto "2030-01-06" "2030-01-07"

theorem createAlone_lateOnFirstDay :
    (createAlone plainConfig firstDayDto "key-1" (steps 5 ++ [committed 7] ++ steps 2)
      lateOnFirstDay).isSome = true := by
  decide +kernel

def firstAnswer : RequestBody × IdempotencyRecord × World :=
  (createAlone plainConfig firstDayDto "key-1" (steps 5 ++ [committed 7] ++ steps 2)
    lateOnFirstDay).get createAlone_lateOnFirstDay

theorem firstAnswer_committed : Committed plainConfig firstDayDto "key-1" lateOnFirstDay
    firstAnswer.2.2 firstAnswer.1 firstAnswer.2.1 :=
  committed_of_createAlone rfl rfl (Option.some_get createAlone_lateOnFirstDay).symm

/-- The first answer, `ms` later. -/
theorem reach_tick (w : World) (ms : ℕ) : (atomicMachine plainConfig).Reach (fun _ _ => True)
    (Pool.init w) { Pool.init w with shared := { w with clock := w.clock + ms } } :=
  have hstep : (atomicMachine plainConfig).step (Pool.init w) (.env (.tick ms)) =
      some { Pool.init w with shared := { w with clock := w.clock + ms } } := rfl
  .step .refl trivial hstep

/-- Two hours after the first call its start date is in the past, and the retry is refused. -/
theorem replay_refused_past_midnight :
    ¬ ∀ (cfg : Config) (dto : CreateTimeOffRequestDto) (idempotencyKey : String) (w₀ w₁ : World)
      (body : RequestBody) (record : IdempotencyRecord)
      (P : Pool Call Op Op.Resp Err (Option RequestBody) World),
      Committed cfg dto idempotencyKey w₀ w₁ body record →
        (atomicMachine cfg).Reach (fun _ _ => True) (Pool.init w₁) P →
        P.shared.clock < record.expiresAt → Replays cfg dto idempotencyKey body P.shared := by
  intro h
  refine not_replays_of_past ?_ (h _ _ _ _ _ _ _ _ firstAnswer_committed
    (reach_tick firstAnswer.2.2 7200000) ?_)
  · decide +kernel
  · decide +kernel

theorem replay_before_midnight : Replays plainConfig firstDayDto "key-1" firstAnswer.1
    { firstAnswer.2.2 with clock := firstAnswer.2.2.clock + 600000 } :=
  (replay_iff_notInPast firstAnswer_committed (reach_tick firstAnswer.2.2 600000)
    (by decide +kernel)).mpr (by decide +kernel)

end SecondCall

end TimeOff
