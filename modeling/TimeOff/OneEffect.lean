import TimeOff.AtomicTx
import TimeOff.CallOps
import TimeOff.CreateRule
import Mathlib.Tactic.Ring

/-! One effect per idempotency key: what any interleaving of create calls leaves, with atomic
transactions. -/
namespace TimeOff

open Async

section Effect

/-- The days that the stored requests took from a balance. -/
def Store.charged (s : Store) (key : BalanceKey) : ℚ :=
  ((s.requests.filter fun r => r.balanceKey = key).map (·.daysRequested)).sum

/-- The amounts of a row as they were before its requests were deducted. -/
def Store.undeducted (s : Store) (key : BalanceKey) : Option (ℚ × ℚ × ℚ × ℚ) :=
  (s.balance? key).map fun b =>
    (b.availableBalance + s.charged key, b.pendingBalance - s.charged key, b.usedBalance,
      b.totalBalance)

/-- The key has a row, under this id. -/
def Store.Names (s : Store) (idempotencyKey : String) (id : ℕ) : Prop :=
  ∃ row ∈ s.requests, row.idempotencyKey = idempotencyKey ∧ row.id = id

variable {s s' : Store}

theorem charged_append {key : BalanceKey} {row : TimeOffRequest}
    (h : s'.requests = s.requests ++ [row]) :
    s'.charged key = s.charged key + if row.balanceKey = key then row.daysRequested else 0 := by
  rw [Store.charged, Store.charged, h, List.filter_append, List.map_append, List.sum_append]
  congr 1
  by_cases hkey : row.balanceKey = key <;> simp [hkey]

theorem charged_saveRequest (id : ℕ) (patch : TimeOffRequest → RequestPatch) (key : BalanceKey) :
    (s.saveRequest id patch).charged key = s.charged key := by
  have hkeep (r : TimeOffRequest) : (if r.id = id then (patch r).apply r else r).balanceKey =
      r.balanceKey ∧ (if r.id = id then (patch r).apply r else r).daysRequested =
        r.daysRequested := by
    split <;> exact ⟨rfl, rfl⟩
  unfold Store.charged
  change (((s.requests.map fun r => if r.id = id then (patch r).apply r else r).filter _).map
    _).sum = _
  induction s.requests with
  | nil => rfl
  | cons r l ih =>
    obtain ⟨hkey, hdays⟩ := hkeep r
    by_cases hr : r.balanceKey = key <;> simp [hkey, hdays, hr, ih]

theorem names_saveRequest {idempotencyKey : String} {id i : ℕ}
    {patch : TimeOffRequest → RequestPatch} (h : s.Names idempotencyKey id) :
    (s.saveRequest i patch).Names idempotencyKey id := by
  obtain ⟨row, hrow, hkey, hid⟩ := h
  refine ⟨_, List.mem_map_of_mem hrow, ?_, ?_⟩ <;> split <;> assumption

theorem names_append {idempotencyKey : String} {id : ℕ} {row : TimeOffRequest}
    (hs : s'.requests = s.requests ++ [row]) (h : s.Names idempotencyKey id) :
    s'.Names idempotencyKey id := by
  obtain ⟨r, hr, hkey, hid⟩ := h
  exact ⟨r, hs ▸ List.mem_append_left _ hr, hkey, hid⟩

/-- A key names one request. -/
theorem Store.Names.unique {idempotencyKey : String} {id id' : ℕ}
    (h : s.Names idempotencyKey id) (h' : s.Names idempotencyKey id') : id = id' := by
  obtain ⟨r, hr, hkey, rfl⟩ := h
  obtain ⟨r', hr', hkey', rfl⟩ := h'
  rw [List.inj_on_of_nodup_map s.requestKeys hr hr' (hkey.trans hkey'.symm)]

/-- Each row was deducted once, and the stored and returned bodies are those of the row of
their key. -/
structure OneEffect (start : Store) (w : World) : Prop where
  idle : w.journal = []
  deducted : ∀ key, w.store.undeducted key = start.undeducted key
  recorded : ∀ record ∈ w.store.records,
    w.store.Names record.idempotencyKey record.responseBody.id
  returned : ∀ dto idempotencyKey body,
    (Call.create dto idempotencyKey, body) ∈ w.history.returned →
      w.store.Names idempotencyKey body.id

/-- A named row stays. -/
def NamesKept (w w' : World) : Prop :=
  ∀ idempotencyKey id, w.store.Names idempotencyKey id → w'.store.Names idempotencyKey id

def EffectKept (start : Store) (w w' : World) : Prop :=
  NamesKept w w' ∧ (OneEffect start w → OneEffect start w')

end Effect

section Steps

variable {start : Store} {w w' : World}

theorem effectKept_of_store (hstore : w'.store = w.store) (hjournal : w'.journal = w.journal)
    (hreturned : w'.history.returned = w.history.returned) : EffectKept start w w' := by
  refine ⟨fun key id h => by rwa [hstore], fun h => ?_⟩
  obtain ⟨hidle, hdeducted, hrecorded, hret⟩ := h
  exact ⟨hjournal.trans hidle, by rwa [hstore], by rwa [hstore], by rwa [hreturned, hstore]⟩

theorem effectKept_saveRequest {id : ℕ} {patch : TimeOffRequest → RequestPatch}
    (hstore : w'.store = w.store.saveRequest id patch) (hsame : SameCalls w w') :
    EffectKept start w w' := by
  refine ⟨fun key i h => hstore ▸ names_saveRequest h,
    fun h => ⟨hsame.journal.trans h.idle, fun key => ?_, ?_, ?_⟩⟩
  · rw [hstore, ← h.deducted key, Store.undeducted, charged_saveRequest]
    rfl
  · intro record hrecord
    rw [hstore] at hrecord ⊢
    exact names_saveRequest (h.recorded record hrecord)
  · intro dto key body hmem
    rw [hsame.returned] at hmem
    exact hstore ▸ names_saveRequest (h.returned dto key body hmem)

/-- A committed creation deducts its row once and names it in its record. -/
theorem effectKept_create {cfg : Config} {dto : CreateTimeOffRequestDto}
    {idempotencyKey requestHash : String} {days : ℚ} {now id : ℕ} {saved : TimeOffRequest}
    {b : EmployeeBalance} (hsame : SameCalls w w')
    (he : CreateEffect cfg dto idempotencyKey days requestHash now id w.store w'.store saved b) :
    EffectKept start w w' ∧ w'.store.Names idempotencyKey saved.id := by
  have hkept (key : String) (i : ℕ) (h : w.store.Names key i) : w'.store.Names key i :=
    names_append he.requests h
  have hsaved : w'.store.Names idempotencyKey saved.id :=
    ⟨saved, by rw [he.requests]; simp, (newRequest_row_eq he.row).2, rfl⟩
  refine ⟨⟨hkept, fun h => ⟨hsame.journal.trans h.idle, fun key => ?_, ?_, ?_⟩⟩, hsaved⟩
  -- the balance without the deductions is that of the start
  · have hrow : saved.balanceKey = dto.balanceKey ∧ saved.daysRequested = days := by
      have hrow := he.row
      cases hrow
      exact ⟨rfl, rfl⟩
    have hbalance : w'.store.balance? key = (w.store.saveBalance dto.balanceKey fun x =>
        { deductPatch (some days) b with version := some (x.version + 1) }).balance? key := by
      rw [Store.balance?, Store.balance?, he.balances]
    rw [← h.deducted key, Store.undeducted, Store.undeducted, hbalance,
      Store.balance?_saveBalance, charged_append he.requests, hrow.1, hrow.2, Option.map_map]
    refine Option.map_congr fun x hx => ?_
    obtain ⟨_, rfl⟩ := Store.balance?_eq_some.mp hx
    by_cases hkey : x.key = dto.balanceKey
    -- the row that was charged: the deduction is what the sum counts
    · obtain rfl : x = b := Option.some.inj (hx.symm.trans (hkey ▸ he.balance))
      simp only [Function.comp_apply, hkey, if_true, deductPatch, BalancePatch.apply, amountOr,
        Num.sub, Num.add, Option.getD_some, Option.getD_none, Prod.mk.injEq, and_true]
      constructor <;> ring
    · simp only [Function.comp_apply, hkey, Ne.symm hkey, if_false, add_zero]
  -- the new record names the new request
  · intro record hrecord
    rw [he.records] at hrecord
    rcases List.mem_append.mp hrecord with hrecord | hrecord
    · exact hkept _ _ (h.recorded record hrecord)
    · rw [List.mem_singleton.mp hrecord]
      exact hsaved
  · intro dto' key body hmem
    rw [hsame.returned] at hmem
    exact hkept _ _ (h.returned dto' key body hmem)

/-- A step of a call: it starts from a state in which the effects are as they should be. -/
def EffectStep (start : Store) (i : ℕ) (o : Op) (w : World) (r : Except Err o.Resp)
    (w' : World) : Prop :=
  OneEffect start w ∧ SvcStep i o w r w'

variable {i : ℕ}

theorem effectStep_base {o : BaseOp} {r : Except Err o.Resp}
    (h : EffectStep start i (.base o) w r w') : ∃ x, o.exec i x w = some (r, w') := by
  obtain ⟨_, x, hx⟩ := h
  cases x with
  | op x => exact ⟨x, hx⟩
  | transaction xs commit => cases hx

/-- An operation of a create call outside its transaction changes no table. -/
theorem effectStep_quiet {cfg : Config} {dto : CreateTimeOffRequestDto} {idempotencyKey : String}
    {o : BaseOp} {r : Except Err o.Resp} (ho : CreateOp cfg dto idempotencyKey (.base o))
    (h : EffectStep start i (.base o) w r w') : w'.store = w.store ∧ EffectKept start w w' := by
  obtain ⟨x, hx⟩ := effectStep_base h
  have hstore : w'.store = w.store := by
    cases ho with
    | findRecord => rcases exec_db_cases hx with ⟨_, _, _, hs⟩ | ⟨_, hs⟩ <;> exact hs
    | findRequestByKey => rcases exec_db_cases hx with ⟨_, _, _, hs⟩ | ⟨_, hs⟩ <;> exact hs
    | _ => exact exec_store (by simp) hx
  have hsame := baseExec_sameCalls hx
  exact ⟨hstore, effectKept_of_store hstore hsame.journal hsame.returned⟩

/-- A step of a validator task changes no column that the effects are about. -/
theorem effectStep_sync {puts : PutBalance → Prop} {o : Op} {r : Except Err o.Resp}
    (ho : SyncOp puts o) (h : EffectStep start i o w r w') : EffectKept start w w' := by
  -- what writes no table keeps everything
  have hquiet (hstore : w'.store = w.store) (hsame : SameCalls w w') : EffectKept start w w' :=
    effectKept_of_store hstore hsame.journal hsame.returned
  cases ho with
  | saveRequest id patch =>
    obtain ⟨x, hx⟩ := effectStep_base h
    rcases exec_db_cases hx with ⟨_, _, _, hs⟩ | ⟨_, hs⟩
    · exact hquiet hs (baseExec_sameCalls hx)
    · exact effectKept_saveRequest hs (baseExec_sameCalls hx)
  | findPendingSync take =>
    obtain ⟨x, hx⟩ := effectStep_base h
    refine hquiet ?_ (baseExec_sameCalls hx)
    rcases exec_db_cases hx with ⟨_, _, _, hs⟩ | ⟨_, hs⟩ <;> exact hs
  | _ =>
    obtain ⟨x, hx⟩ := effectStep_base h
    exact hquiet (exec_store (by simp) hx) (baseExec_sameCalls hx)

end Steps

section Create

variable {start : Store} {cfg : Config} {dto : CreateTimeOffRequestDto} {idempotencyKey : String}
  {i : ℕ} {w : World}

/-- The rule of the operations of a create call that change no table. -/
theorem effect_quiet (cfg : Config) (dto : CreateTimeOffRequestDto) {o : BaseOp}
    {Q : Except Err o.Resp → World → Prop}
    (ho : CreateOp cfg dto idempotencyKey (.base o))
    (h : ∀ w x r w', OneEffect start w → o.exec i x w = some (r, w') → w'.store = w.store →
      Q r w') :
    Triple (EffectStep start i) NamesKept (EffectKept start) (fun _ => True)
      (Prog.perform (Op.base o)) fun w r w' => Q r w' ∧ NamesKept w w' := by
  intro w _
  refine Prog.Holds.perform ?_
  intro u hu r w' hstep
  obtain ⟨hstore, hkept⟩ := effectStep_quiet ho hstep
  obtain ⟨x, hx⟩ := effectStep_base hstep
  refine ⟨hkept, h u x r w' hstep.1 hx hstore, fun key id hnames => ?_⟩
  exact hkept.1 key id (hu key id hnames)

theorem effect_record (cfg : Config) (dto : CreateTimeOffRequestDto) :
    Triple (EffectStep start i) NamesKept (EffectKept start) (fun _ => True)
      (Prog.perform (Op.base (.db (.findRecord idempotencyKey)))) fun _ r w' =>
        True ∧ ∀ record, r = .ok (some record) → record.requestHash = cfg.hashObject dto →
          w'.store.Names idempotencyKey record.responseBody.id := by
  intro w hw
  refine Prog.Holds.mono (fun r w' h => ⟨trivial, h.1⟩)
    (effect_quiet cfg dto .findRecord ?_ w hw)
  intro w x r w' heffect hx hstore record hr _
  rcases exec_db_cases hx with ⟨_, _, rfl, _⟩ | ⟨rfl, _⟩
  · cases hr
  · obtain ⟨hmem, hkey⟩ := Store.record?_eq_some.mp (Except.ok.inj hr)
    rw [hstore]
    exact hkey ▸ heffect.recorded record hmem

theorem effect_row (cfg : Config) (dto : CreateTimeOffRequestDto) :
    Triple (EffectStep start i) NamesKept (EffectKept start) (fun _ => True)
      (Prog.perform (Op.base (.db (.findRequestByKey idempotencyKey)))) fun _ r w' =>
        True ∧ ∀ row, r = .ok (some row) → w'.store.Names idempotencyKey row.id := by
  intro w hw
  refine Prog.Holds.mono (fun r w' h => ⟨trivial, h.1⟩)
    (effect_quiet cfg dto .findRequestByKey ?_ w hw)
  intro w x r w' _ hx hstore row hr
  rcases exec_db_cases hx with ⟨_, _, rfl, _⟩ | ⟨rfl, _⟩
  · cases hr
  · obtain ⟨hmem, hkey⟩ := Store.requestByKey?_eq_some.mp (Except.ok.inj hr)
    rw [hstore]
    exact ⟨row, hmem, hkey, rfl⟩

theorem effect_transaction :
    Triple (EffectStep start i) NamesKept (EffectKept start) (fun _ => True)
      (Prog.perform (Op.transaction (createTransaction cfg dto idempotencyKey
        (calculateDaysRequested dto.startDate dto.endDate) (cfg.hashObject dto)))) fun _ r w' =>
        (∀ saved, r = .ok saved → True ∧ w'.store.Names idempotencyKey saved.id) ∧
          ∀ e, r = .error e → True := by
  intro w _
  refine Prog.Holds.perform ?_
  rintro u _ r w' ⟨heffect, x, hx⟩
  have hsame := opExec_sameCalls hx
  -- not begun, or run whole: committed with all its effects, or without any
  rcases exec_transaction hx with ⟨_, _, rfl, rfl⟩ | ⟨xs, commit, hx⟩
  · exact ⟨effectKept_of_store rfl rfl rfl, fun _ h => (nomatch h), fun _ _ => trivial⟩
  rcases atomically_ends create_ends hx with ⟨saved, rfl, hv⟩ | ⟨e, rfl, hstore, _⟩
  · obtain ⟨days, b, _, he⟩ := hv saved rfl
    obtain ⟨hkept, hnames⟩ := effectKept_create hsame he
    refine ⟨hkept, fun saved' h => ⟨trivial, ?_⟩, fun _ _ => trivial⟩
    cases h
    exact hnames
  · exact ⟨effectKept_of_store hstore hsame.journal hsame.returned, fun _ h => (nomatch h),
      fun _ _ => trivial⟩

theorem effect_triples (start : Store) (i : ℕ) (cfg : Config) (dto : CreateTimeOffRequestDto)
    (idempotencyKey : String) :
    CreateTriples Prog.perform (EffectStep start i) NamesKept (EffectKept start) cfg dto
      idempotencyKey (fun _ => True) (fun _ => True) (fun _ => True) (fun _ => True)
      (fun _ => True) fun body w => w.store.Names idempotencyKey body.id := by
  have hkeep {o : BaseOp} (ho : CreateOp cfg dto idempotencyKey (.base o))
      (hok : ∀ w x r w', o.exec i x w = some (r, w') → ∃ u, r = .ok u) :
      Triple (EffectStep start i) NamesKept (EffectKept start) (fun _ => True)
        (Prog.perform (Op.base o)) fun w r w' => (∃ u, r = .ok u) ∧ True ∧
          ∀ b : RequestBody, w.store.Names idempotencyKey b.id →
            w'.store.Names idempotencyKey b.id := by
    intro w hw
    -- every base operation of the lock keeps the names
    refine Prog.Holds.mono (fun r w' h => ⟨h.1, trivial, fun b => h.2 _ _⟩)
      (effect_quiet cfg dto ho ?_ w hw)
    exact fun w x r w' _ hx _ => hok w x r w' hx
  have hnow := hkeep .now (fun w x r w' hx => by cases hx; exact ⟨_, rfl⟩)
  have hrelease := hkeep .releaseLock (fun w x r w' hx => by cases hx; exact ⟨_, rfl⟩)
  exact
    { out_end := fun _ _ => trivial
      now_out := fun w hw => Prog.Holds.mono (fun _ _ h => h.2) (hnow w hw)
      find_out := effect_record cfg dto
      enter := fun w hw => Prog.Holds.mono (fun _ _ h => ⟨h.1, trivial⟩)
        (hkeep .enterLock (fun w x r w' hx => by cases hx; exact ⟨_, rfl⟩) w hw)
      await := fun w hw => Prog.Holds.mono (fun _ _ h => ⟨h.1, trivial⟩)
        (hkeep .awaitPrevious (fun w x r w' hx => by
          obtain ⟨l, _, heq⟩ := Option.map_eq_some_iff.mp hx
          cases heq
          exact ⟨_, rfl⟩) w hw)
      now_in := fun w hw => Prog.Holds.mono (fun _ _ h => h.2) (hnow w hw)
      sleep_in := fun ms w hw => Prog.Holds.mono (fun _ _ _ => trivial)
        (hkeep (.sleep ms) (fun w x r w' hx => by cases hx; exact ⟨_, rfl⟩) w hw)
      find_in := effect_record cfg dto
      row_in := effect_row cfg dto
      transaction := effect_transaction
      schedule := fun task w hw => by
        refine Prog.Holds.perform ?_
        rintro u hu r w' ⟨heffect, x, hx⟩
        cases x with
        | op x =>
          cases hx
          exact ⟨effectKept_of_store rfl rfl rfl, ⟨_, rfl⟩, trivial, fun b => hu _ _⟩
        | transaction xs commit => cases hx
      release_in := fun w hw => Prog.Holds.mono (fun _ _ h => h.2) (hrelease w hw)
      release_done := fun w hw => Prog.Holds.mono (fun _ _ h => h.2) (hrelease w hw) }

end Create

section Runs

/-- Create calls, and the validator tasks they leave. -/
def Call.creates : Call → Bool
  | .create _ _ => true
  | .task (.notifyHcm _ _ _) => true
  | _ => false

/-- Nothing but create calls and their validators is started. -/
def CreatesOnly {χ σ : Type} {Op' : Type*} {Resp' : Op' → Type}
    (_ : Pool Call Op' Resp' Err (Option RequestBody) σ) : Act Call χ Env → Prop
  | .start c => c.creates = true
  | _ => True

instance {χ σ : Type} {Op' : Type*} {Resp' : Op' → Type}
    (P : Pool Call Op' Resp' Err (Option RequestBody) σ) (a : Act Call χ Env) :
    Decidable (CreatesOnly P a) :=
  match a with
  | .start c => inferInstanceAs (Decidable (c.creates = true))
  | .step _ _ => inferInstanceAs (Decidable True)
  | .env _ => inferInstanceAs (Decidable True)
  | .halt => inferInstanceAs (Decidable True)

variable {start : Store} {cfg : Config} {w w' : World}

def EffectPost (c : Call) (r : Except Err (Option RequestBody)) (w : World) : Prop :=
  ∀ dto idempotencyKey body, c = .create dto idempotencyKey → r = .ok (some body) →
    w.store.Names idempotencyKey body.id

theorem effect_code {c : Call} {i : ℕ} (hc : c.creates = true) (w : World) :
    (c.svc cfg).Holds (EffectStep start i) NamesKept (EffectKept start) (EffectPost c) w := by
  cases c with
  | create dto idempotencyKey =>
    have hends := (effect_triples start i cfg dto idempotencyKey).createRequest w trivial
    -- the answer names the request; an error answers nothing
    rw [Prog.interp_id] at hends
    refine Prog.Holds.bind (Prog.Holds.mono ?_ hends)
    rintro (e | body) u ⟨_, hgood⟩
    · exact fun _ _ _ _ h => nomatch h
    · rintro dto' key' body' ⟨rfl, rfl⟩ ⟨rfl⟩
      exact hgood body rfl
  | task t =>
    cases t with
    | notifyHcm id key days =>
      have heach : (notifyHcmAsync id key days).Each (SyncOp fun _ => False) :=
        notifyHcmAsync_each id key days
      have hends : (notifyHcmAsync id key days).Holds (EffectStep start i) NamesKept
          (EffectKept start) (fun _ _ => True) w := by
        refine Prog.Holds.of_each ?_ heach w
        exact fun o u r u' => effectStep_sync
      refine Prog.Holds.bind (Prog.Holds.mono ?_ hends)
      rintro (e | _) u _ <;> exact fun _ _ _ h => nomatch h
    -- no other task and no other call is started here
    | notifyApprovalToHcm request id => cases hc
  | _ => cases hc

theorem effect_finish {i : ℕ} {c : Call} {r : Except Err (Option RequestBody)}
    (h : EffectPost c r w) : EffectKept start w (World.finish i c r w) := by
  refine ⟨fun _ _ => id, fun heffect => ⟨heffect.idle, heffect.deducted, heffect.recorded, ?_⟩⟩
  intro dto key body hmem
  rcases mem_returned_finish hmem with hmem | ⟨hc, hr⟩
  · exact heffect.returned dto key body hmem
  · exact h dto key body hc.symm hr

def oneEffect (start : Store) (cfg : Config) : RelyGuarantee (atomicMachine cfg) CreatesOnly where
  Inv _ w := OneEffect start w
  stepRel i _ := EffectStep start i
  rely _ _ := NamesKept
  guar _ _ := EffectKept start
  post _ := EffectPost
  rely_refl _ _ := id
  rely_trans h h' key id hnames := h' key id (h key id hnames)
  step_of hI _ _ hx := ⟨hI, _, hx⟩
  guar_inv _ hI h := h.2 hI
  guar_rely _ _ h := h.1
  finish_guar _ h := effect_finish h
  accept_inv hI _ hs := by
    obtain ⟨hstore, hjournal, hreturned⟩ := accept_frame hs
    exact (effectKept_of_store hstore hjournal hreturned).2 hI
  accept_rely _ _ _ hs key id hnames := by
    rw [(accept_frame hs).1]
    exact hnames
  accept_holds _ hC _ := effect_code hC _
  env_inv hI _ hs := by
    obtain ⟨hstore, hsame⟩ := env_sameCalls hs
    exact (effectKept_of_store hstore hsame.journal hsame.returned).2 hI
  env_rely _ _ hs key id hnames := by
    rw [(env_sameCalls hs).1]
    exact hnames
  halt_inv {P} hI _ := by
    -- no transaction is open on this machine
    have hstore : undoAll P.shared.journal P.shared.store = P.shared.store := by
      rw [hI.idle]
      rfl
    have hkept : EffectKept start P.shared P.shared.crash :=
      effectKept_of_store hstore hI.idle.symm rfl
    exact hkept.2 hI

/-- In any interleaving of create calls, each key has at most one row, each row was deducted
once and nothing else was, and the responses of a key carry the id of its row. -/
theorem one_effect_per_key (cfg : Config) (start : Store) (clock nextId : ℕ) (hcm : MockHcm)
    (hstart : ∀ record ∈ start.records,
      start.Names record.idempotencyKey record.responseBody.id)
    {P : Pool Call Op Op.Resp Err (Option RequestBody) World}
    (hP : (atomicMachine cfg).Reach CreatesOnly (Pool.init (World.init start clock nextId hcm))
      P) :
    (∀ r ∈ P.shared.store.requests, ∀ r' ∈ P.shared.store.requests,
        r.idempotencyKey = r'.idempotencyKey → r = r') ∧
      (∀ key, P.shared.store.undeducted key = start.undeducted key) ∧
      ∀ dto dto' idempotencyKey body body',
        (.create dto idempotencyKey, body) ∈ P.shared.history.returned →
        (.create dto' idempotencyKey, body') ∈ P.shared.history.returned →
        body.id = body'.id ∧ P.shared.store.Names idempotencyKey body.id := by
  have hinv : OneEffect start (World.init start clock nextId hcm) :=
    ⟨rfl, fun _ => rfl, hstart, fun _ _ _ h => nomatch h⟩
  have heffect : OneEffect start P.shared :=
    ((oneEffect start cfg).good_of_reach hinv hP).inv
  refine ⟨fun r hr r' hr' hkey => ?_, heffect.deducted, fun dto dto' key body body' h h' => ?_⟩
  · exact List.inj_on_of_nodup_map P.shared.store.requestKeys hr hr' hkey
  -- the key names one request, whichever payload came with it
  · have hnames := heffect.returned dto key body h
    exact ⟨hnames.unique (heffect.returned dto' key body' h'), hnames⟩

/-- Two rows of ten days. -/
def twoRows : Store :=
  { Store.empty with
    balances := [⟨plainKey, 10, 10, 0, 0, 10, none, none, false, none, 1⟩,
      ⟨⟨"EMP456", "LOC1", "VACATION"⟩, 10, 10, 0, 0, 10, none, none, false, none, 1⟩]
    balanceKeys := List.nodup_cons.mpr ⟨by decide, List.nodup_singleton _⟩ }

def sameKeyOtherLane : CreateTimeOffRequestDto :=
  ⟨"EMP456", "LOC1", "VACATION", "2030-03-04", "2030-03-04", none⟩

/-- Two calls with one key, in different lanes: both pass their checks, and the transaction of
the second meets the unique key of the first. -/
def sameKeyTwice : List (Act Call AtomicChoice Env) :=
  [.start (.create (plainDto "2030-01-07" "2030-01-08") "key-1"),
    .start (.create sameKeyOtherLane "key-1")] ++
    (steps 5).map (.step 0) ++ (steps 5).map (.step 1) ++
    [.step 0 (committed 7)] ++ (steps 2).map (.step 0) ++
    [.step 1 (committed 5)] ++ (steps 3).map (.step 1)

theorem sameKeyTwice_runs :
    ((atomicMachine plainConfig).run CreatesOnly
      (Pool.init (World.init twoRows 1000 0 (.init []))) sameKeyTwice).isSome = true := by
  decide +kernel

theorem one_effect_of_sameKeyTwice :
    (((atomicMachine plainConfig).run CreatesOnly
      (Pool.init (World.init twoRows 1000 0 (.init []))) sameKeyTwice).get
        sameKeyTwice_runs).shared.store.undeducted plainKey = some (10, 0, 0, 10) := by
  refine ((one_effect_per_key plainConfig twoRows 1000 0 (.init []) (fun _ h => nomatch h)
    (Machine.reach_of_run .refl (Option.some_get sameKeyTwice_runs).symm)).2.1 plainKey).trans ?_
  decide +kernel

end Runs

end TimeOff
