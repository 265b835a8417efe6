import TimeOff.Ledger

/-! The race of `_reconcileRecord`: between its read and its write of a row, transactions of
the request calls commit. -/
namespace TimeOff

open Async

section Race

/-- The transaction of a request call. -/
def Call.body (cfg : Config) : Call → Option (Tx Unit)
  | .create dto key =>
    some ((createTransaction cfg dto key (calculateDaysRequested dto.startDate dto.endDate)
      (cfg.hashObject dto)).bind fun _ => .ret ())
  | .approve id approver => some ((approveTransaction id approver).bind fun _ => .ret ())
  | .reject id approver reason =>
    some ((rejectTransaction id approver reason).bind fun _ => .ret ())
  | .cancel id reason => some ((cancelTransaction id reason).bind fun _ => .ret ())
  | _ => none

/-- One atomic transaction of a call, with how its calls and its commit turn out. -/
structure TxRun where
  call : Call
  xs : List Choice
  commit : Choice

def runTx (cfg : Config) (w : World) (t : TxRun) : Option World :=
  (t.call.body cfg).bind fun body => (atomically body t.xs t.commit w).map (·.2)

def runTxs (cfg : Config) : World → List TxRun → Option World
  | w, [] => some w
  | w, t :: ts => (runTx cfg w t).bind fun w' => runTxs cfg w' ts

/-- `_reconcileRecord` reads `row` at `w₀`, the transactions lead to `w₁`, and its write leads
to `w₂`. -/
structure Race (cfg : Config) (hcmRecord : HcmRecord) (row : EmployeeBalance) (txs : List TxRun)
    (w₀ w₁ w₂ : World) : Prop where
  read : w₀.store.balance? hcmRecord.key = some row
  total : row.availableBalance + row.pendingBalance + row.usedBalance = row.totalBalance
  between : runTxs cfg w₀ txs = some w₁
  write : ∃ answer, (reconcileWrite hcmRecord (some row)).play (Op.exec 0)
    [.op .go, .op .go] w₁ = some (.ok answer, w₂)

/-- The amounts of a row. -/
def amounts (w : World) (key : BalanceKey) : Option (ℚ × ℚ × ℚ × ℚ) :=
  (w.store.balance? key).map fun b =>
    (b.availableBalance, b.pendingBalance, b.usedBalance, b.totalBalance)

/-- The reconciliation, run alone somewhere among the transactions, leaves these amounts. -/
def SomeSerialOrder (cfg : Config) (hcmRecord : HcmRecord) (txs : List TxRun) (w₀ : World)
    (result : Option (ℚ × ℚ × ℚ × ℚ)) : Prop :=
  ∃ before after w₁ w₂ w₃ answer, txs = before ++ after ∧ runTxs cfg w₀ before = some w₁ ∧
    (reconcileRecord hcmRecord).play (Op.exec 0) [.op .go, .op .go, .op .go] w₁ =
      some (.ok answer, w₂) ∧
    runTxs cfg w₂ after = some w₃ ∧ amounts w₃ hcmRecord.key = result

/-- The row still adds up, and holds what some serial order would have left in it. -/
structure NoMovementLost (cfg : Config) (hcmRecord : HcmRecord) (txs : List TxRun)
    (w₀ w₂ : World) : Prop where
  total : ∀ b, w₂.store.balance? hcmRecord.key = some b →
    b.availableBalance + b.pendingBalance + b.usedBalance = b.totalBalance
  serial : SomeSerialOrder cfg hcmRecord txs w₀ (amounts w₂ hcmRecord.key)

end Race

section Movements

variable {cfg : Config} {w w' : World} {key : BalanceKey}

/-- A row keeps its total and the sum of its amounts. -/
def Moved (b b' : EmployeeBalance) : Prop :=
  b'.totalBalance = b.totalBalance ∧
    b'.availableBalance + b'.pendingBalance + b'.usedBalance =
      b.availableBalance + b.pendingBalance + b.usedBalance

def RowMoved (key : BalanceKey) (s s' : Store) : Prop :=
  ∀ b, s.balance? key = some b → ∃ b', s'.balance? key = some b' ∧ Moved b b'

theorem rowMoved_saveBalance {s s' : Store} {k : BalanceKey} {b : EmployeeBalance}
    {patch : EmployeeBalance → BalancePatch} (hb : s.balance? k = some b)
    (hs : s'.balances = (s.saveBalance k patch).balances)
    (hp : Moved b ((patch b).apply b)) : RowMoved key s s' := by
  intro x hx
  have hkey : s'.balance? key = (s.saveBalance k patch).balance? key := by
    rw [Store.balance?, Store.balance?, hs]
  rw [hkey, Store.balance?_saveBalance, hx]
  refine ⟨_, rfl, ?_⟩
  dsimp only
  obtain ⟨_, hxkey⟩ := Store.balance?_eq_some.mp hx
  by_cases hk : x.key = k
  · obtain rfl : x = b := by
      rw [← hxkey, hk, hb] at hx
      exact (Option.some.inj hx).symm
    rw [if_pos hk]
    exact hp
  · rw [if_neg hk]
    exact ⟨rfl, rfl⟩

theorem rowMoved_transition {requestId : ℕ} {target : RequestStatus}
    {move : Num → EmployeeBalance → BalancePatch} {s s' : Store} {r : TimeOffRequest}
    {b : EmployeeBalance} (hmove : MovesPending target move)
    (he : TransitionEffect requestId target move s s' r b) : RowMoved key s s' := by
  obtain ⟨_, _, hb, _, stamp, now, rfl⟩ := he
  refine rowMoved_saveBalance hb rfl ?_
  obtain ⟨htot, hpend, hused, havail⟩ := hmove r.daysRequested b (b.version + 1)
  refine ⟨htot, ?_⟩
  rw [hpend, hused, havail]
  split <;> ring

theorem rowMoved_create {dto : CreateTimeOffRequestDto} {idempotencyKey requestHash : String}
    {days : ℚ} {now id : ℕ} {s s' : Store} {saved : TimeOffRequest} {b : EmployeeBalance}
    (he : CreateEffect cfg dto idempotencyKey days requestHash now id s s' saved b) :
    RowMoved key s s' := by
  refine rowMoved_saveBalance he.balance he.balances ⟨rfl, ?_⟩
  simp only [deductPatch, BalancePatch.apply, amountOr, Num.sub, Num.add, Option.getD_some,
    Option.getD_none]
  ring

theorem body_moves {c : Call} {body : Tx Unit} (hc : c.body cfg = some body) :
    TxEnds (fun r w' => ∀ v, r = .ok v → RowMoved key w.store w'.store) body w := by
  have hdone {β : Type} {p : Tx β}
      (h : TxEnds (fun r w' => ∀ v, r = .ok v → RowMoved key w.store w'.store) p w) :
      TxEnds (fun r w' => ∀ v, r = .ok v → RowMoved key w.store w'.store)
        (p.bind fun _ => .ret ()) w := by
    refine txEnds_bind (TxEnds.mono ?_ h)
    intro r u hr
    cases r with
    | ok v => exact fun _ _ => hr v rfl
    | error e => exact fun _ h => nomatch h
  have htransition {requestId : ℕ} {target : RequestStatus} {move : BalanceMove}
      {patch : Num → EmployeeBalance → BalancePatch} {p : Tx RequestBody}
      (hmove : MovesPending target patch)
      (h : TxEnds (TransitionEnds requestId target move patch w) p w) :
      TxEnds (fun r w' => ∀ v, r = .ok v → RowMoved key w.store w'.store) p w := by
    refine TxEnds.mono ?_ h
    rintro r u hr v rfl
    obtain ⟨r, b, he⟩ := hr
    exact rowMoved_transition hmove he
  cases c with
  | create dto idempotencyKey =>
    cases hc
    refine hdone (TxEnds.mono ?_ create_ends)
    intro r u hr v hv
    obtain ⟨days, b, _, he⟩ := hr v hv
    exact rowMoved_create he
  | approve id approver =>
    cases hc
    exact hdone (htransition finalize_movesPending approve_ends)
  | reject id approver reason =>
    cases hc
    exact hdone (htransition (release_movesPending (by decide)) reject_ends)
  | cancel id reason =>
    cases hc
    exact hdone (htransition (release_movesPending (by decide)) cancel_ends)
  | _ => cases hc

theorem rowMoved_refl (s : Store) : RowMoved key s s := fun b hb => ⟨b, hb, rfl, rfl⟩

theorem RowMoved.trans {s₁ s₂ s₃ : Store} (h₁ : RowMoved key s₁ s₂) (h₂ : RowMoved key s₂ s₃) :
    RowMoved key s₁ s₃ := by
  intro b hb
  obtain ⟨b', hb', ht, hs⟩ := h₁ b hb
  obtain ⟨b'', hb'', ht', hs'⟩ := h₂ b' hb'
  exact ⟨b'', hb'', ht'.trans ht, hs'.trans hs⟩

theorem runTx_moves {t : TxRun} (h : runTx cfg w t = some w') :
    RowMoved key w.store w'.store := by
  obtain ⟨body, hbody, h⟩ := Option.bind_eq_some_iff.mp h
  obtain ⟨⟨r, u⟩, hr, rfl⟩ := Option.map_eq_some_iff.mp h
  rcases atomically_ends (body_moves hbody) hr with ⟨v, rfl, hv⟩ | ⟨e, _, hstore, _⟩
  · exact hv v rfl
  · rw [show u.store = w.store from hstore]
    exact rowMoved_refl _

theorem runTxs_moves {txs : List TxRun} (h : runTxs cfg w txs = some w') :
    RowMoved key w.store w'.store := by
  induction txs generalizing w with
  | nil =>
    cases h
    exact rowMoved_refl _
  | cons t ts ih =>
    obtain ⟨u, hu, h⟩ := Option.bind_eq_some_iff.mp h
    exact (runTx_moves hu).trans (ih h)

end Movements

section Write

variable {w w₀ w₁ w₂ : World} {hcmRecord : HcmRecord} {row b : EmployeeBalance}

/-- The HCM total is above the local total by more than the tolerance. -/
def Increases (row : EmployeeBalance) (hcmTotal : Num) : Prop :=
  Num.lt (some driftTolerance) (drift row hcmTotal) = true

instance (row : EmployeeBalance) (hcmTotal : Num) : Decidable (Increases row hcmTotal) :=
  inferInstanceAs (Decidable (_ = true))

theorem reconcilePatch_increases {b : EmployeeBalance} {t : ℚ} (version : Option String)
    (now : ℕ) (h : Increases b (some t)) :
    (reconcilePatch b (some t) version now).1.availableBalance =
        some (some (b.availableBalance +
          (t - (b.usedBalance + b.pendingBalance + b.availableBalance)))) ∧
      (reconcilePatch b (some t) version now).1.totalBalance = some (some t) := by
  have hle : ¬ (Num.le (Num.abs (drift b (some t))) (some driftTolerance)) = true := by
    rw [Increases, drift_some] at h
    rw [drift_some]
    simp only [Num.lt, Num.abs, Num.le, decide_eq_true_eq] at h ⊢
    exact not_le.mpr (lt_of_lt_of_le h (le_abs_self _))
  have h' : Num.lt (some driftTolerance) (drift b (some t)) = true := h
  have hpatch : reconcilePatch b (some t) version now = _ := (if_neg hle).trans (if_pos h')
  rw [hpatch]
  exact ⟨rfl, rfl⟩

theorem reconcilePatch_keeps {b : EmployeeBalance} {total : Num} (version : Option String)
    (now : ℕ) (h : ¬ Increases b total) :
    (reconcilePatch b total version now).1.availableBalance = none ∧
      (reconcilePatch b total version now).1.totalBalance = none := by
  have h' : ¬ Num.lt (some driftTolerance) (drift b total) = true := h
  unfold reconcilePatch reconcilePatchIn
  dsimp only
  split
  · exact ⟨rfl, rfl⟩
  · rw [if_neg (show ¬ Num.lt (some (id driftTolerance)) (driftIn id b total) = true from h')]
    exact ⟨rfl, rfl⟩

def reconciled (hcmRecord : HcmRecord) (b : EmployeeBalance) (w : World) : World :=
  { w with store := w.store.saveBalance hcmRecord.key fun x =>
    { (reconcilePatch b hcmRecord.totalBalance hcmRecord.version w.clock).1 with
      version := some (x.version + 1) } }

theorem reconcileWrite_play :
    (reconcileWrite hcmRecord (some b)).play (Op.exec 0) [.op .go, .op .go] w =
      if hcmRecord.totalBalance.isSome then
        some (.ok (reconcilePatch b hcmRecord.totalBalance hcmRecord.version w.clock).2,
          reconciled hcmRecord b w)
      else
        some (.error nanError, w) := by
  have hacc := reconcilePatch_accepted b hcmRecord.totalBalance hcmRecord.version w.clock
  refine play_now_bind.trans ((play_db_bind fun _ => by simp).trans ?_)
  cases hsome : hcmRecord.totalBalance.isSome with
  | true =>
    rw [World.db_saveBalance (hacc.trans hsome)]
    rfl
  | false =>
    rw [World.db_saveBalance_rejected (hacc.trans hsome)]
    rfl

theorem reconcileRecord_play (hb : w.store.balance? hcmRecord.key = some b) :
    (reconcileRecord hcmRecord).play (Op.exec 0) [.op .go, .op .go, .op .go] w =
      (reconcileWrite hcmRecord (some b)).play (Op.exec 0) [.op .go, .op .go] w := by
  refine (play_db_bind fun _ => by simp).trans ?_
  change (reconcileWrite hcmRecord (w.store.balance? hcmRecord.key)).play _ _ _ = _
  rw [hb]
  rfl

/-- The amounts of the row after a reconciliation that read it as `b` and finds it as `x`. -/
theorem reconciled_amounts (b : EmployeeBalance) {x : EmployeeBalance} {t : ℚ}
    (hx : w.store.balance? hcmRecord.key = some x) (ht : hcmRecord.totalBalance = some t) :
    amounts (reconciled hcmRecord b w) hcmRecord.key =
      if Increases b (some t) then
        some (b.availableBalance + (t - (b.usedBalance + b.pendingBalance + b.availableBalance)),
          x.pendingBalance, x.usedBalance, t)
      else some (x.availableBalance, x.pendingBalance, x.usedBalance, x.totalBalance) := by
  have hkey := (Store.balance?_eq_some.mp hx).2
  obtain ⟨hpending, hused, _⟩ := reconcilePatch_credit b (some t) hcmRecord.version w.clock
  simp only [amounts, reconciled, Store.balance?_saveBalance, hx, Option.map_some, hkey, if_true,
    ht]
  simp only [BalancePatch.apply, amountOr, hpending, hused, Option.getD_none, Option.getD_some]
  split
  · rename_i hinc
    obtain ⟨havail, htot⟩ := reconcilePatch_increases hcmRecord.version w.clock hinc
    simp [havail, htot]
  · rename_i hinc
    obtain ⟨havail, htot⟩ := reconcilePatch_keeps hcmRecord.version w.clock hinc
    simp [havail, htot]

theorem Race.result {cfg : Config} {txs : List TxRun} (h : Race cfg hcmRecord row txs w₀ w₁ w₂) :
    ∃ x t, w₁.store.balance? hcmRecord.key = some x ∧ Moved row x ∧
      hcmRecord.totalBalance = some t ∧ w₂ = reconciled hcmRecord row w₁ := by
  obtain ⟨x, hx, hmoved⟩ := runTxs_moves h.between row h.read
  obtain ⟨answer, hplay⟩ := h.write
  rw [reconcileWrite_play] at hplay
  cases ht : hcmRecord.totalBalance with
  | none =>
    rw [ht] at hplay
    cases hplay
  | some t =>
    rw [ht] at hplay
    cases hplay
    exact ⟨x, t, hx, hmoved, rfl, rfl⟩

theorem moved_drift {x : EmployeeBalance} (h : Moved row x) (total : Num) :
    drift x total = drift row total := by
  cases total with
  | none => rfl
  | some t =>
    rw [drift_some, drift_some, Option.some.injEq]
    linarith [h.2]

theorem moved_increases {x : EmployeeBalance} (h : Moved row x) (total : Num) :
    Increases x total ↔ Increases row total := by
  rw [Increases, Increases, moved_drift h]

/-- The row adds up after the write exactly when a raise found the amount it had read. -/
theorem reconciled_total_iff {x : EmployeeBalance} {t : ℚ}
    (hx : w.store.balance? hcmRecord.key = some x) (ht : hcmRecord.totalBalance = some t)
    (hrow : row.availableBalance + row.pendingBalance + row.usedBalance = row.totalBalance)
    (hmoved : Moved row x) :
    (∀ b, (reconciled hcmRecord row w).store.balance? hcmRecord.key = some b →
      b.availableBalance + b.pendingBalance + b.usedBalance = b.totalBalance) ↔
      ¬ Increases row (some t) ∨ x.availableBalance = row.availableBalance := by
  obtain ⟨hxtotal, hxsum⟩ := hmoved
  have hafter := reconciled_amounts row hx ht
  obtain ⟨b, hb⟩ : ∃ b, (reconciled hcmRecord row w).store.balance? hcmRecord.key = some b := by
    rw [← Option.isSome_iff_exists]
    cases hnone : (reconciled hcmRecord row w).store.balance? hcmRecord.key with
    | some b => rfl
    | none =>
      rw [amounts, hnone] at hafter
      split at hafter <;> cases hafter
  rw [amounts, hb, Option.map_some] at hafter
  simp only [hb, Option.some.injEq, forall_eq']
  by_cases hinc : Increases row (some t)
  · rw [if_pos hinc, Option.some.injEq] at hafter
    simp only [Prod.mk.injEq] at hafter
    obtain ⟨h1, h2, h3, h4⟩ := hafter
    rw [h1, h2, h3, h4]
    constructor
    · intro hsum
      exact .inr (by linarith)
    · rintro (hno | havail)
      · exact absurd hinc hno
      · linarith
  · rw [if_neg hinc, Option.some.injEq] at hafter
    simp only [Prod.mk.injEq] at hafter
    obtain ⟨h1, h2, h3, h4⟩ := hafter
    rw [h1, h2, h3, h4]
    exact ⟨fun _ => .inl hinc, fun _ => by linarith⟩

/-- Then the write leaves what a reconciliation after the transactions leaves. -/
theorem reconciled_serial {x : EmployeeBalance} {t : ℚ}
    (hx : w.store.balance? hcmRecord.key = some x) (ht : hcmRecord.totalBalance = some t)
    (hmoved : Moved row x)
    (hcond : ¬ Increases row (some t) ∨ x.availableBalance = row.availableBalance) :
    amounts (reconciled hcmRecord x w) hcmRecord.key =
      amounts (reconciled hcmRecord row w) hcmRecord.key := by
  rw [reconciled_amounts row hx ht, reconciled_amounts x hx ht]
  by_cases hinc : Increases row (some t)
  · have havail : x.availableBalance = row.availableBalance :=
      hcond.resolve_left (not_not.mpr hinc)
    rw [if_pos hinc, if_pos ((moved_increases hmoved _).mpr hinc), Option.some.injEq,
      Prod.mk.injEq]
    refine ⟨?_, rfl⟩
    linarith [hmoved.2]
  · rw [if_neg hinc, if_neg (fun hx => hinc ((moved_increases hmoved _).mp hx))]

/-- The worlds of a race, when its write succeeds. -/
def race (cfg : Config) (hcmRecord : HcmRecord) (row : EmployeeBalance) (txs : List TxRun)
    (w₀ : World) : Option (World × World) :=
  (runTxs cfg w₀ txs).bind fun w₁ =>
    match (reconcileWrite hcmRecord (some row)).play (Op.exec 0) [.op .go, .op .go] w₁ with
    | some (.ok _, w₂) => some (w₁, w₂)
    | _ => none

theorem race_of_eq {cfg : Config} {txs : List TxRun}
    (hread : w₀.store.balance? hcmRecord.key = some row)
    (htotal : row.availableBalance + row.pendingBalance + row.usedBalance = row.totalBalance)
    (h : race cfg hcmRecord row txs w₀ = some (w₁, w₂)) :
    Race cfg hcmRecord row txs w₀ w₁ w₂ := by
  obtain ⟨u, hu, h⟩ := Option.bind_eq_some_iff.mp h
  split at h
  · rename_i answer v hplay
    cases h
    exact ⟨hread, htotal, hu, answer, hplay⟩
  · cases h

/-- A row of 10 days, all available, that the HCM has raised to 12. -/
def tenDays : EmployeeBalance := ⟨plainKey, 10, 10, 0, 0, 10, none, none, false, none, 1⟩

def tenDaysWorld : World :=
  World.init (.ofBalance tenDays) 1000 0 (.init [])

def twelveDays : HcmRecord := ⟨plainKey, some 12, none⟩

def createTwoDays : TxRun :=
  ⟨.create (plainDto "2030-01-07" "2030-01-08") "key-1", List.replicate 7 .go, .go⟩

def cancelTwoDays : TxRun := ⟨.cancel 0 none, List.replicate 5 .go, .go⟩

theorem race_with_creation_runs :
    (race plainConfig twelveDays tenDays [createTwoDays] tenDaysWorld).isSome = true := by
  decide +kernel

theorem race_with_cancellation_runs :
    (race plainConfig twelveDays tenDays [createTwoDays, cancelTwoDays] tenDaysWorld).isSome =
      true := by
  decide +kernel

end Write

end TimeOff
