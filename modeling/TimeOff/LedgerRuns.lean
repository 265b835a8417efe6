import TimeOff.AloneCalls
import TimeOff.DecidedOnce
import TimeOff.Ledger

/-! The ledger while calls interleave. Transactions, tasks and inserts keep it in any order; a
reconciliation keeps it as long as the row that it has read stays as it is until it has written
it. -/
namespace TimeOff

open Async

section Reads

variable {w w' : World} {i : ℕ}

/-- What a call counts on while others move: rows stay, and the row that is being reconciled
is not changed. -/
def Relies (c : Call) (w w' : World) : Prop :=
  (∀ key, (w.store.balance? key).isSome = true → (w'.store.balance? key).isSome = true) ∧
    ∀ hcmRecord, c = .reconcile hcmRecord →
      w'.store.balance? hcmRecord.key = w.store.balance? hcmRecord.key

theorem Relies.refl (c : Call) (w : World) : Relies c w w := ⟨fun _ => id, fun _ _ => rfl⟩

theorem Relies.trans {c : Call} {w₁ w₂ w₃ : World} (h : Relies c w₁ w₂) (h' : Relies c w₂ w₃) :
    Relies c w₁ w₃ :=
  ⟨fun key hkey => h'.1 key (h.1 key hkey),
    fun hcmRecord hc => (h'.2 hcmRecord hc).trans (h.2 hcmRecord hc)⟩

theorem Store.Evolves.rows {s s' : Store} (h : s.Evolves s') (key : BalanceKey)
    (hkey : (s.balance? key).isSome = true) : (s'.balance? key).isSome = true := by
  obtain ⟨b, hb⟩ := Option.isSome_iff_exists.mp hkey
  obtain ⟨hmem, hk⟩ := Store.balance?_eq_some.mp hb
  obtain ⟨b', hb', hkey', _⟩ := h.balances b hmem
  rw [Store.balance?_eq_some.mpr ⟨hb', hkey'.trans hk⟩]
  rfl

/-- The program moves the ledger to a ledger while the others do what the call relies on. -/
abbrev KeepsRunning {β : Type} (i : ℕ) (c : Call) (p : Svc β) (w : World) : Prop :=
  p.Holds (SvcStep i) (Relies c) LedgerKept (fun _ _ => True) w

/-- A call of the database: what it does when it runs, on tables that the others have moved. -/
theorem running_db {c : Call} {o : DbOp} {Q : Except Err o.Resp → World → Prop}
    (herr : ∀ e u, Q (.error e) u)
    (h : ∀ u, Relies c w u → ∀ v : World, v.store = (u.db o).2.store →
      LedgerKept u v ∧ ∀ r, (u.db o).1 = .ok r → Q (.ok r) v) :
    (Svc.db o).Holds (SvcStep i) (Relies c) LedgerKept Q w := by
  refine Prog.Holds.perform ?_
  rintro u hu r v ⟨x, hx⟩
  cases x with
  | transaction xs commit => cases hx
  | op x =>
    rcases exec_db_cases hx with ⟨code, message, rfl, hv⟩ | ⟨rfl, hv⟩
    · exact ⟨ledgerKept_of_store hv, herr _ _⟩
    · obtain ⟨hkept, hok⟩ := h u hu v hv
      refine ⟨hkept, ?_⟩
      cases hr : (u.db o).1 with
      | ok r => exact hok r hr
      | error e => exact herr e v

theorem running_now {β : Type} {c : Call} {f : ℕ → Svc β}
    (h : ∀ u, Relies c w u → ∀ now, KeepsRunning i c (f now) u) :
    KeepsRunning i c (Svc.now.bind f) w := by
  refine Prog.Holds.bind (Prog.Holds.perform ?_)
  rintro u hu r v ⟨x, hx⟩
  cases x with
  | transaction xs commit => cases hx
  | op x =>
    cases hx
    exact ⟨id, h u hu _⟩

/-- The end of a call that answers with no request. -/
theorem running_end {β : Type} {c : Call} {p : Svc β} {f : β → Svc (Option RequestBody)}
    (hp : KeepsRunning i c p w) (hf : ∀ a, f a = .ret none) : KeepsRunning i c (p.bind f) w := by
  refine Prog.Holds.bind (Prog.Holds.mono (fun r u _ => ?_) hp)
  cases r with
  | ok a =>
    change KeepsRunning i c (f a) u
    rw [hf]
    trivial
  | error e => trivial

/-- A row that was there is found, so what is inserted has a total that may be its first. -/
theorem upsert_running {key : BalanceKey} {total : Num}
    (h : createsNonneg w (.upsert key total) = true) :
    KeepsRunning i (.upsert key total) (upsertBalance key total) w := by
  refine Prog.Holds.bind (running_db (fun _ _ => trivial) fun u hu v hv =>
    ⟨ledgerKept_of_store hv, ?_⟩)
  rintro found hfound
  cases found with
  | some existing => trivial
  | none =>
    have hfound : u.store.balance? key = none := Except.ok.inj hfound
    have htotal (t : ℚ) (ht : total = some t) : 0 ≤ t := by
      cases hrow : w.store.balance? key with
      | some b =>
        have := hu.1 key (by rw [hrow]; rfl)
        rw [hfound] at this
        cases this
      | none => simpa [createsNonneg, hrow, ht] using h
    refine running_now fun u₁ _ now => running_db (fun _ _ => trivial) fun u₂ _ v₂ hv₂ => ?_
    exact ⟨ledgerKept_insertBalance htotal ⟨rfl, rfl, rfl, rfl⟩ hv₂, fun _ _ => trivial⟩

/-- The row that is written is the one that was read. -/
theorem reconcile_running {hcmRecord : HcmRecord}
    (h : createsNonneg w (.reconcile hcmRecord) = true) :
    KeepsRunning i (.reconcile hcmRecord) (reconcileRecord hcmRecord) w := by
  refine Prog.Holds.bind (running_db (fun _ _ => trivial) fun u hu v hv =>
    ⟨ledgerKept_of_store hv, ?_⟩)
  rintro found hfound
  have hfound : u.store.balance? hcmRecord.key = found := Except.ok.inj hfound
  have hrow (u' : World) (hu' : Relies (.reconcile hcmRecord) v u') :
      u'.store.balance? hcmRecord.key = found := by
    rw [hu'.2 hcmRecord rfl, hv]
    exact hfound
  refine running_now fun u₁ hu₁ now => ?_
  cases found with
  | none =>
    have htotal (t : ℚ) (ht : hcmRecord.totalBalance = some t) : 0 ≤ t := by
      have hnone : w.store.balance? hcmRecord.key = none := (hu.2 hcmRecord rfl) ▸ hfound
      simpa [createsNonneg, hnone, ht] using h
    refine Prog.Holds.bind (running_db (fun _ _ => trivial) fun u₂ _ v₂ hv₂ => ?_)
    exact ⟨ledgerKept_insertBalance htotal ⟨rfl, rfl, rfl, rfl⟩ hv₂, fun _ _ => trivial⟩
  | some b =>
    refine Prog.Holds.bind (running_db (fun _ _ => trivial) fun u₂ hu₂ v₂ hv₂ =>
      ⟨fun hl => ?_, fun _ _ => trivial⟩)
    have hb : u₂.store.balance? hcmRecord.key = some b := hrow u₂ (hu₁.trans hu₂)
    have hpatch := reconcilePatch_credit b hcmRecord.totalBalance hcmRecord.version now
    rw [hv₂]
    -- a patch that the columns refuse changes nothing
    cases ha : (reconcilePatch b hcmRecord.totalBalance hcmRecord.version now).1.accepted with
    | true =>
      rw [World.db_saveBalance ha]
      exact Credit.ledger hl hb hpatch
    | false =>
      rw [World.db_saveBalance_rejected ha]
      exact hl

end Reads

section Calls

variable {cfg : Config} {w : World} {i : ℕ}

/-- The operations of every other call keep the ledger whatever was done before them. -/
theorem callOp_keepsLedger {c : Call} {o : Op} (hupsert : ∀ key total, c ≠ .upsert key total)
    (hreconcile : ∀ hcmRecord, c ≠ .reconcile hcmRecord) (h : CallOp cfg c o) : KeepsLedger o := by
  have htransition {requestId : ℕ} {target : RequestStatus} {move : BalanceMove}
      {patch : Num → EmployeeBalance → BalancePatch} {body : Tx RequestBody}
      (htarget : target ≠ .pending) (hmove : MovesPending target patch)
      (hbody : ∀ w, TxEnds (TransitionEnds requestId target move patch w) body w) :
      KeepsLedger (.transaction body) :=
    fun _ w _ _ => transaction_keeps (transition_keeps htarget hmove (hbody w))
  cases h with
  | create h => exact createOp_keepsLedger h
  | approve => exact htransition (by decide) finalize_movesPending fun _ => approve_ends
  | reject => exact htransition (by decide) (release_movesPending (by decide)) fun _ => reject_ends
  | cancel => exact htransition (by decide) (release_movesPending (by decide)) fun _ => cancel_ends
  | realTime => exact fun _ _ _ _ => transaction_keeps realTime_keeps
  | retrySyncs h => exact syncOp_keepsLedger h
  | task t h => exact syncOp_keepsLedger h
  | upsertFind key total => exact absurd rfl (hupsert key total)
  | upsertNow key total => exact absurd rfl (hupsert key total)
  | upsertInsert key total => exact absurd rfl (hupsert key total)
  | reconcileFind hcmRecord => exact absurd rfl (hreconcile hcmRecord)
  | reconcileNow hcmRecord => exact absurd rfl (hreconcile hcmRecord)
  | reconcileInsert hcmRecord => exact absurd rfl (hreconcile hcmRecord)
  | reconcileSave hcmRecord => exact absurd rfl (hreconcile hcmRecord)

theorem call_running {c : Call} (h : createsNonneg w c = true) :
    KeepsRunning i c (c.svc cfg) w := by
  by_cases hupsert : ∃ key total, c = .upsert key total
  · obtain ⟨key, total, rfl⟩ := hupsert
    exact running_end (upsert_running h) fun _ => rfl
  by_cases hreconcile : ∃ hcmRecord, c = .reconcile hcmRecord
  · obtain ⟨hcmRecord, rfl⟩ := hreconcile
    exact running_end (reconcile_running h) fun _ => rfl
  refine Prog.Holds.of_each (φ := CallOp cfg c) (fun o s r s' ho hs => ?_) (svc_each cfg c) w
  have hkeeps : KeepsLedger o := callOp_keepsLedger (fun key total hc => hupsert ⟨key, total, hc⟩)
    (fun hcmRecord hc => hreconcile ⟨hcmRecord, hc⟩) ho
  exact hkeeps i s r s' hs

end Calls

section Progress

variable {s s' : Store} {requestId : ℕ} {target : RequestStatus}
  {patch : Num → EmployeeBalance → BalancePatch} {c : Call}

theorem Decides.moves (h : Decides c requestId target patch) :
    target ≠ .pending ∧ MovesPending target patch := by
  cases h with
  | approve => exact ⟨by decide, finalize_movesPending⟩
  | reject => exact ⟨by decide, release_movesPending (by decide)⟩
  | cancel => exact ⟨by decide, release_movesPending (by decide)⟩

/-- The row of a request after its transition. -/
theorem TransitionEffect.decided {r : TimeOffRequest} {b : EmployeeBalance}
    (h : TransitionEffect requestId target patch s s' r b) :
    ∃ row ∈ s'.requests, row.asked = r.asked ∧ row.status = target := by
  obtain ⟨hfound, _, _, _, stamp, now, rfl⟩ := h
  obtain ⟨hmem, hid⟩ := Store.request?_eq_some.mp hfound
  refine ⟨_, List.mem_map_of_mem hmem, ?_⟩
  rw [if_pos hid]
  exact ⟨rfl, rfl⟩

/-- Whatever a pending request waits for, it gets it: its row covers its days. -/
theorem Ledger.decides (cfg : Config) (h : Ledger s) {r : TimeOffRequest} (hr : r ∈ s.requests)
    (hpending : r.status = .pending) (hc : Decides c r.id target patch) :
    ∃ s', Alone cfg c s s' ∧ Ledger s' ∧
      ∃ row ∈ s'.requests, row.asked = r.asked ∧ row.status = target := by
  obtain ⟨b, hb⟩ := Option.ne_none_iff_exists'.mp (h.balance_exists hr)
  have hfound : s.request? r.id = some r := Store.request?_eq_some.mpr ⟨hr, rfl⟩
  obtain ⟨s', halone, heffect⟩ := decision_alone cfg hc
    ⟨hfound, hpending, hb, h.pending_covers hr hpending hb⟩
  obtain ⟨htarget, hmoves⟩ := hc.moves
  exact ⟨s', halone, ledger_transition h htarget hmoves heffect, heffect.decided⟩

end Progress

section Runs

/-- A call that starts without its row has a non-negative total for it, and no other call changes
a row that is being reconciled. -/
def undisturbed (cfg : Config) (P : AtomicPool) : Act Call AtomicChoice Env → Bool
  | .start c => createsNonneg P.shared c
  | .step i x =>
    ((atomicMachine cfg).step P (.step i x)).all fun P' =>
      (List.range P.next).all fun j => j = i ||
        match P.procs j with
        | some ⟨.reconcile hcmRecord, _, _⟩ =>
          P'.shared.store.balance? hcmRecord.key = P.shared.store.balance? hcmRecord.key
        | _ => true
  | _ => true

variable {cfg : Config} {P P' : AtomicPool}

theorem createsNonneg_of_store {w w' : World} {c : Call} (h : w'.store = w.store) :
    createsNonneg w' c = createsNonneg w c := by
  cases c <;> simp [createsNonneg, h]

theorem settle_store (cfg : Config) (i : ℕ) (c : Call) (P : AtomicPool) (w : World)
    (p : Prog Op Op.Resp Err (Option RequestBody)) :
    ((atomicMachine cfg).settle i c P w p).shared.store = w.store := by
  cases p <;> rfl

/-- The row that call `j` reconciles is spared by every action that is not its own. -/
theorem undisturbed_row {a : Act Call AtomicChoice Env} {j : ℕ}
    {q : Waiting Call Op Op.Resp Err (Option RequestBody)} {hcmRecord : HcmRecord}
    (hold : Machine.Numbered P) (hidle : P.shared.journal = []) (hC : undisturbed cfg P a = true)
    (ha : (atomicMachine cfg).step P a = some P') (hq : P.procs j = some q)
    (hcall : q.call = .reconcile hcmRecord) (hj : ∀ x, a ≠ .step j x) :
    P'.shared.store.balance? hcmRecord.key = P.shared.store.balance? hcmRecord.key := by
  cases a with
  | start c =>
    obtain ⟨s', hs, rfl⟩ := Option.map_eq_some_iff.mp ha
    rw [settle_store, (accept_frame hs).1]
  | step i x =>
    have hne : j ≠ i := fun h => hj x (h ▸ rfl)
    simp only [undisturbed, ha, Option.all_some, List.all_eq_true, List.mem_range] at hC
    have hrow := hC j (hold j q hq)
    obtain ⟨c, o, k⟩ := q
    dsimp only at hcall
    subst hcall
    rw [hq] at hrow
    simpa [hne] using hrow
  | env e =>
    obtain ⟨s', hs, rfl⟩ := Option.map_eq_some_iff.mp ha
    rw [(env_sameCalls hs).1]
  | halt =>
    cases ha
    change (undoAll P.shared.journal P.shared.store).balance? _ = _
    rw [hidle]
    rfl

theorem numbered_of_reach {C : AtomicPool → Act Call AtomicChoice Env → Prop} {w : World}
    (hP : (atomicMachine cfg).Reach C (Pool.init w) P) : Machine.Numbered P := by
  refine Machine.Reach.inv Machine.Numbered ?_ (fun _ _ _ h _ => Machine.numbered_step h) hP
  intro i q hq
  cases hq

/-- No transaction of this machine is open between two of its actions. -/
theorem lived_of_reach {C : AtomicPool → Act Call AtomicChoice Env → Prop} {start : Store}
    {clock nextId : ℕ} {hcm : MockHcm}
    (hP : (atomicMachine cfg).Reach C (Pool.init (World.init start clock nextId hcm)) P) :
    P.shared.journal = [] ∧ Machine.Within (fun c o => CallOp cfg c o ∧ SavesSync o) P := by
  obtain ⟨hlived, hwithin⟩ := (lives cfg C).reach (Machine.Moves.within_init _) hP
  exact ⟨(hlived rfl).1, hwithin⟩

/-- What the run spares, and what every call makes of it. -/
def ledgerCalls (cfg : Config) (start : Store) (clock nextId : ℕ) (hcm : MockHcm)
    (hstart : Ledger start) :
    Spares (atomicMachine cfg) (fun P a => undisturbed cfg P a = true)
      (World.init start clock nextId hcm) where
  Inv w := Ledger w.store
  rely := Relies
  init := hstart
  rely_refl := .refl _ _
  rely_trans := .trans
  accept h hs := (accept_frame hs).1 ▸ h
  code {P c w} hC hs := by
    have hstore : w.store = P.shared.store := (accept_frame hs).1
    refine call_running ?_
    rw [createsNonneg_of_store hstore]
    exact hC
  finish h := h
  env h hs := (env_sameCalls hs).1 ▸ h
  halt {P} hP h := by
    change Ledger (undoAll P.shared.journal P.shared.store)
    rw [(lived_of_reach hP).1]
    exact h
  spared {P a P' j q} hP hC ha hq hj := by
    obtain ⟨hidle, hwithin⟩ := lived_of_reach hP
    obtain ⟨_, hevolves⟩ :=
      ((lives cfg fun P a => undisturbed cfg P a = true).step hC hwithin ha).1 hidle
    refine ⟨hevolves.rows, fun hcmRecord hcall => ?_⟩
    exact undisturbed_row (numbered_of_reach hP) hidle hC ha hq hcall hj

/-- From balanced tables on, in any order in which no other call changes a row that is being
reconciled, and if a call that starts without its row has a non-negative total for it, the ledger
holds, and every pending request can be approved, rejected and cancelled. -/
theorem ledger_of_undisturbed (cfg : Config) (start : Store) (clock nextId : ℕ) (hcm : MockHcm)
    (hstart : Ledger start)
    (hP : (atomicMachine cfg).Reach (fun P a => undisturbed cfg P a = true)
      (Pool.init (World.init start clock nextId hcm)) P) :
    Ledger P.shared.store ∧ ∀ r ∈ P.shared.store.requests, r.status = .pending →
      ∀ c target patch, Decides c r.id target patch →
        ∃ s', Alone cfg c P.shared.store s' ∧ Ledger s' ∧
          ∃ row ∈ s'.requests, row.asked = r.asked ∧ row.status = target := by
  have hledger : Ledger P.shared.store :=
    ((ledgerCalls cfg start clock nextId hcm hstart).good_of_reach hP).inv
  exact ⟨hledger, fun r hr hpending c target patch hc => hledger.decides cfg hr hpending hc⟩

/-- While the row of a pending request is reconciled with a higher total, another row is made. -/
def reconciledMeanwhile : List (Act Call AtomicChoice Env) :=
  .start (.upsert plainKey (some 10)) :: (steps 3).map (.step 0) ++
    .start (.create (plainDto "2030-01-07" "2030-01-08") "key-1") ::
      (steps 5 ++ [committed 7] ++ steps 2).map (.step 1) ++
    .start (.reconcile ⟨plainKey, some 12, none⟩) :: (steps 1).map (.step 2) ++
    .start (.upsert ⟨"EMP456", "LOC1", "VACATION"⟩ (some 5)) :: (steps 3).map (.step 3) ++
    (steps 2).map (.step 2)

theorem reconciledMeanwhile_runs : ((atomicMachine plainConfig).run
    (fun P a => undisturbed plainConfig P a = true)
    (Pool.init (World.init .empty 1000 0 (.init []))) reconciledMeanwhile).isSome = true := by
  decide +kernel

/-- The days that the HCM has more are available, and the request can be approved. -/
theorem reconciledMeanwhile_ledger : ∃ P : AtomicPool,
    (atomicMachine plainConfig).run (fun P a => undisturbed plainConfig P a = true)
        (Pool.init (World.init .empty 1000 0 (.init []))) reconciledMeanwhile = some P ∧
      P.shared.store.balances.map (·.availableBalance) = [10, 5] ∧ Ledger P.shared.store ∧
        ∃ s', Alone plainConfig (.approve 0 "MGR1") P.shared.store s' ∧ Ledger s' := by
  have hrun := (Option.some_get reconciledMeanwhile_runs).symm
  refine ⟨_, hrun, by decide +kernel, ?_⟩
  obtain ⟨hledger, hdecides⟩ := ledger_of_undisturbed plainConfig .empty 1000 0 (.init [])
    ledger_empty (Machine.reach_of_run .refl hrun)
  obtain ⟨r, hr, hid, hpending⟩ : ∃ r ∈ (((atomicMachine plainConfig).run
      (fun P a => undisturbed plainConfig P a = true)
      (Pool.init (World.init .empty 1000 0 (.init []))) reconciledMeanwhile).get
        reconciledMeanwhile_runs).shared.store.requests, r.id = 0 ∧ r.status = .pending := by
    decide +kernel
  obtain ⟨s', halone, hkept, _⟩ := hdecides r hr hpending (.approve 0 "MGR1") .approved
    finalizePatch (hid ▸ .approve r.id "MGR1")
  exact ⟨hledger, s', halone, hkept⟩

end Runs

end TimeOff
