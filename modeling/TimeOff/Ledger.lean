import TimeOff.AtomicTx
import TimeOff.CallOps
import Mathlib.Algebra.Order.BigOperators.Group.List
import Mathlib.Tactic.Linarith
import Mathlib.Tactic.Ring

/-! The ledger: every balance row agrees with its own amounts and with the requests charged to
it, after any sequence of calls with atomic transactions. -/
namespace TimeOff

open Async

section Days

/-- The days of the requests of a balance that have a given status. -/
def Store.daysIn (s : Store) (status : RequestStatus) (key : BalanceKey) : ℚ :=
  ((s.requests.filter fun r => r.balanceKey = key && r.status = status).map
    (·.daysRequested)).sum

/-- What one request adds to `daysIn`. -/
def TimeOffRequest.daysIn (r : TimeOffRequest) (status : RequestStatus) (key : BalanceKey) : ℚ :=
  if r.balanceKey = key ∧ r.status = status then r.daysRequested else 0

variable {s s' : Store} {status : RequestStatus} {key : BalanceKey}

theorem daysIn_eq_sum : s.daysIn status key = (s.requests.map (·.daysIn status key)).sum := by
  unfold Store.daysIn
  induction s.requests with
  | nil => rfl
  | cons r l ih =>
    rw [List.map_cons, List.sum_cons, ← ih]
    by_cases h : r.balanceKey = key ∧ r.status = status <;> simp [TimeOffRequest.daysIn, h]

theorem daysIn_append {row : TimeOffRequest} (h : s'.requests = s.requests ++ [row]) :
    s'.daysIn status key = s.daysIn status key + row.daysIn status key := by
  simp [daysIn_eq_sum, h]

theorem sum_map_update {α β : Type} [DecidableEq β] {key : α → β} {l : List α} {a : α}
    (hl : (l.map key).Nodup) (ha : a ∈ l) (f : α → α) (g : α → ℚ) :
    ((l.map fun b => if key b = key a then f b else b).map g).sum + g a =
      (l.map g).sum + g (f a) := by
  induction l with
  | nil => cases ha
  | cons b l ih =>
    rw [List.map_cons, List.nodup_cons] at hl
    rcases List.mem_cons.mp ha with rfl | ha
    -- the key is unique, so the rest of the list stays
    · have hrest : (l.map fun b => if key b = key a then f b else b) = l := by
        refine (List.map_congr_left fun b hb => ?_).trans (List.map_id l)
        rw [if_neg]
        · rfl
        · exact fun h => hl.1 (h ▸ List.mem_map_of_mem hb)
      simp only [List.map_cons, List.sum_cons, if_pos, hrest]
      ring
    · have hne : key b ≠ key a := fun h => hl.1 (h ▸ List.mem_map_of_mem ha)
      simp only [List.map_cons, List.sum_cons, if_neg hne]
      linarith [ih hl.2 ha]

/-- A change of one request moves its days from one status to another. -/
theorem daysIn_saveRequest {id : ℕ} {r : TimeOffRequest}
    {patch : TimeOffRequest → RequestPatch} (hr : s.request? id = some r) :
    (s.saveRequest id patch).daysIn status key + r.daysIn status key =
      s.daysIn status key + ((patch r).apply r).daysIn status key := by
  obtain ⟨hmem, rfl⟩ := Store.request?_eq_some.mp hr
  rw [daysIn_eq_sum, daysIn_eq_sum]
  exact sum_map_update s.requestIds hmem (fun r => (patch r).apply r) _

theorem daysIn_saveRequest_sync {id : ℕ} {patch : TimeOffRequest → RequestPatch}
    (h : ∀ r, (patch r).status = none) :
    (s.saveRequest id patch).daysIn status key = s.daysIn status key := by
  rw [daysIn_eq_sum, daysIn_eq_sum]
  simp only [Store.saveRequest, List.map_map]
  congr 1
  refine List.map_congr_left fun r _ => ?_
  simp only [Function.comp_apply]
  split
  · have hstatus : ((patch r).apply r).status = r.status := by simp [RequestPatch.apply, h]
    rw [TimeOffRequest.daysIn, hstatus]
    rfl
  · rfl

end Days

section Invariant

structure Balanced (s : Store) (b : EmployeeBalance) : Prop where
  total : b.availableBalance + b.pendingBalance + b.usedBalance = b.totalBalance
  pending : b.pendingBalance = s.daysIn .pending b.key
  used : b.usedBalance = s.daysIn .approved b.key
  available : 0 ≤ b.availableBalance

/-- The rows balance, no request has negative days and each has its row. -/
structure Ledger (s : Store) : Prop where
  balanced : ∀ b ∈ s.balances, Balanced s b
  days : ∀ r ∈ s.requests, 0 ≤ r.daysRequested
  owned : ∀ r ∈ s.requests, ∃ b ∈ s.balances, b.key = r.balanceKey

/-- What a row owes to its own amounts and to the requests charged to it. -/
structure Accounted (s : Store) (b : EmployeeBalance) : Prop where
  total : b.availableBalance + b.pendingBalance + b.usedBalance = b.totalBalance
  pending : b.pendingBalance = s.daysIn .pending b.key
  used : b.usedBalance = s.daysIn .approved b.key

/-- The ledger without its signs: what holds of any amounts. -/
structure Books (s : Store) : Prop where
  accounted : ∀ b ∈ s.balances, Accounted s b
  owned : ∀ r ∈ s.requests, ∃ b ∈ s.balances, b.key = r.balanceKey

theorem Ledger.books {s : Store} (h : Ledger s) : Books s :=
  ⟨fun b hb => ⟨(h.balanced b hb).total, (h.balanced b hb).pending, (h.balanced b hb).used⟩,
    h.owned⟩

/-- The ledger is the books with no negative days and nothing overdrawn. -/
theorem Books.ledger {s : Store} (h : Books s) (hdays : ∀ r ∈ s.requests, 0 ≤ r.daysRequested)
    (havailable : ∀ b ∈ s.balances, 0 ≤ b.availableBalance) : Ledger s :=
  ⟨fun b hb => ⟨(h.accounted b hb).total, (h.accounted b hb).pending, (h.accounted b hb).used,
    havailable b hb⟩, hdays, h.owned⟩

theorem ledger_empty : Ledger .empty :=
  ⟨fun _ h => (nomatch h), fun _ h => (nomatch h), fun _ h => (nomatch h)⟩

end Invariant

section Preservation

variable {s s' : Store}

/-- What a transition to `target` must do to the amounts of the row it is charged to. -/
def MovesPending (target : RequestStatus) (move : Num → EmployeeBalance → BalancePatch) : Prop :=
  ∀ (days : ℚ) (b : EmployeeBalance) (version : ℕ),
    let b' := { move (some days) b with version := some version }.apply b
    b'.totalBalance = b.totalBalance ∧ b'.pendingBalance = b.pendingBalance - days ∧
      b'.usedBalance = b.usedBalance + (if target = .approved then days else 0) ∧
      b'.availableBalance = b.availableBalance + (if target = .approved then 0 else days)

theorem finalize_movesPending : MovesPending .approved finalizePatch := by
  intro days b version
  simp [finalizePatch, BalancePatch.apply, amountOr, Num.add, Num.sub]

theorem release_movesPending {target : RequestStatus} (h : target ≠ .approved) :
    MovesPending target releasePatch := by
  intro days b version
  simp [releasePatch, BalancePatch.apply, amountOr, Num.add, Num.sub, h]

theorem mem_saveBalance {key : BalanceKey} {patch : EmployeeBalance → BalancePatch}
    {b' : EmployeeBalance} (h : b' ∈ (s.saveBalance key patch).balances) :
    ∃ b ∈ s.balances, b' = if b.key = key then (patch b).apply b else b := by
  obtain ⟨b, hb, rfl⟩ := List.mem_map.mp h
  exact ⟨b, hb, rfl⟩

/-- The row of a key survives a save. -/
theorem saveBalance_owned {key k : BalanceKey} {patch : EmployeeBalance → BalancePatch}
    (h : ∃ b ∈ s.balances, b.key = k) : ∃ b ∈ (s.saveBalance key patch).balances, b.key = k := by
  obtain ⟨b, hb, rfl⟩ := h
  refine ⟨_, List.mem_map_of_mem hb, ?_⟩
  split <;> rfl

theorem books_transition {requestId : ℕ} {target : RequestStatus}
    {move : Num → EmployeeBalance → BalancePatch} {r : TimeOffRequest} {b : EmployeeBalance}
    (h : Books s) (htarget : target ≠ .pending) (hmove : MovesPending target move)
    (he : TransitionEffect requestId target move s s' r b) : Books s' := by
  obtain ⟨hr, hpending, hb, _, stamp, now, rfl⟩ := he
  set patch : TimeOffRequest → RequestPatch := fun x =>
    { stamp with
      status := some target
      version := some (x.version + 1)
      updatedAt := some now } with hpatch
  have hdays (status : RequestStatus) (key : BalanceKey) :
      (s.saveRequest requestId patch).daysIn status key + r.daysIn status key =
        s.daysIn status key + ((patch r).apply r).daysIn status key :=
    daysIn_saveRequest hr
  have hnew (status : RequestStatus) (key : BalanceKey) :
      ((patch r).apply r).daysIn status key =
        if r.balanceKey = key ∧ target = status then r.daysRequested else 0 := rfl
  have hold (status : RequestStatus) (key : BalanceKey) :
      r.daysIn status key =
        if r.balanceKey = key ∧ .pending = status then r.daysRequested else 0 := by
    rw [TimeOffRequest.daysIn, hpending]
  refine ⟨fun b' hb' => ?_, fun r' hr' => ?_⟩
  · obtain ⟨b₀, hb₀, rfl⟩ := mem_saveBalance hb'
    obtain ⟨htotal, hpend, huse⟩ := h.accounted b₀ hb₀
    by_cases hkey : b₀.key = r.balanceKey
    · -- the row that is charged: both sides move by the days of `r`
      obtain rfl : b₀ = b := Option.some.inj
        ((Store.balance?_eq_some.mpr ⟨hb₀, hkey⟩).symm.trans hb)
      rw [if_pos hkey]
      obtain ⟨htot, hp', hu', havail⟩ := hmove r.daysRequested b₀ (b₀.version + 1)
      have hp := hdays .pending b₀.key
      have hu := hdays .approved b₀.key
      rw [hnew, hold] at hp hu
      simp only [hkey, htarget, true_and, if_true, if_false, reduceCtorEq] at hp hu
      rw [hkey] at hpend huse
      refine ⟨?_, ?_, ?_⟩
      · rw [htot, hp', hu', havail]
        split <;> linarith
      · rw [hp']
        change _ = (s.saveRequest requestId patch).daysIn .pending b₀.key
        rw [hkey]
        linarith
      · rw [hu']
        change _ = (s.saveRequest requestId patch).daysIn .approved b₀.key
        rw [hkey]
        linarith
    -- a row that is not charged: neither its amounts nor the days on it change
    · rw [if_neg hkey]
      have hother (status : RequestStatus) :
          (s.saveRequest requestId patch).daysIn status b₀.key = s.daysIn status b₀.key := by
        have := hdays status b₀.key
        rw [hnew, hold] at this
        simpa [Ne.symm hkey] using this
      exact ⟨htotal, hpend.trans (hother _).symm, huse.trans (hother _).symm⟩
  · obtain ⟨r₀, hr₀, rfl⟩ := List.mem_map.mp hr'
    refine saveBalance_owned ?_
    have := h.owned r₀ hr₀
    split
    · exact this
    · exact this

theorem ledger_transition {requestId : ℕ} {target : RequestStatus}
    {move : Num → EmployeeBalance → BalancePatch} {r : TimeOffRequest} {b : EmployeeBalance}
    (h : Ledger s) (htarget : target ≠ .pending) (hmove : MovesPending target move)
    (he : TransitionEffect requestId target move s s' r b) : Ledger s' := by
  refine (books_transition h.books htarget hmove he).ledger ?_ ?_
  -- a transition changes no days
  · obtain ⟨_, _, _, _, stamp, now, rfl⟩ := he
    intro r' hr'
    obtain ⟨r₀, hr₀, rfl⟩ := List.mem_map.mp hr'
    have := h.days r₀ hr₀
    split
    · exact this
    · exact this
  · obtain ⟨hr, _, hb, _, stamp, now, rfl⟩ := he
    intro b' hb'
    obtain ⟨b₀, hb₀, rfl⟩ := mem_saveBalance hb'
    have hfree := (h.balanced b₀ hb₀).available
    -- the row of the key is the one that the transition loaded
    by_cases hkey : b₀.key = r.balanceKey
    · obtain rfl : b₀ = b := Option.some.inj
        ((Store.balance?_eq_some.mpr ⟨hb₀, hkey⟩).symm.trans hb)
      have hdays := h.days r (Store.request?_eq_some.mp hr).1
      rw [if_pos hkey, (hmove r.daysRequested b₀ (b₀.version + 1)).2.2.2]
      split <;> linarith
    · rw [if_neg hkey]
      exact hfree

theorem books_create {cfg : Config} {dto : CreateTimeOffRequestDto}
    {idempotencyKey requestHash : String} {days : ℚ} {now id : ℕ} {saved : TimeOffRequest}
    {b : EmployeeBalance} (h : Books s)
    (he : CreateEffect cfg dto idempotencyKey days requestHash now id s s' saved b) : Books s' := by
  obtain ⟨hb, _, _, hrow, _, _, hbals, hreqs, _⟩ := he
  obtain ⟨hbmem, hbkey⟩ := Store.balance?_eq_some.mp hb
  cases hrow
  have hnew (status : RequestStatus) (key : BalanceKey) :
      s'.daysIn status key = s.daysIn status key +
        if dto.balanceKey = key ∧ .pending = status then days else 0 :=
    daysIn_append hreqs
  refine ⟨fun b' hb' => ?_, fun r hr => ?_⟩
  · rw [hbals] at hb'
    obtain ⟨b₀, hb₀, rfl⟩ := mem_saveBalance hb'
    obtain ⟨htotal, hpending, hused⟩ := h.accounted b₀ hb₀
    by_cases hkey : b₀.key = dto.balanceKey
    -- the row of the request: its pending amount and the pending days grow alike
    · obtain rfl : b₀ = b := Option.some.inj
        ((Store.balance?_eq_some.mpr ⟨hb₀, hkey⟩).symm.trans hb)
      rw [if_pos hkey]
      have hp := hnew .pending b₀.key
      have hu := hnew .approved b₀.key
      simp only [hkey, true_and, if_true, if_false, reduceCtorEq] at hp hu hpending hused
      refine ⟨?_, ?_, ?_⟩ <;>
        simp only [deductPatch, BalancePatch.apply, amountOr, Num.sub, Num.add, Option.getD_some,
          Option.getD_none, hkey, hp, hu] <;> linarith
    · rw [if_neg hkey]
      have hother (status : RequestStatus) :
          s'.daysIn status b₀.key = s.daysIn status b₀.key := by
        rw [hnew, if_neg (fun h => hkey h.1.symm), add_zero]
      exact ⟨htotal, hpending.trans (hother _).symm, hused.trans (hother _).symm⟩
  · rw [hbals]
    refine saveBalance_owned ?_
    rw [hreqs] at hr
    rcases List.mem_append.mp hr with hr | hr
    · exact h.owned r hr
    · rw [List.mem_singleton.mp hr]
      exact ⟨b, hbmem, hbkey⟩

theorem ledger_create {cfg : Config} {dto : CreateTimeOffRequestDto}
    {idempotencyKey requestHash : String} {days : ℚ} {now id : ℕ} {saved : TimeOffRequest}
    {b : EmployeeBalance} (h : Ledger s) (hdays : 0 ≤ days)
    (he : CreateEffect cfg dto idempotencyKey days requestHash now id s s' saved b) :
    Ledger s' := by
  refine (books_create h.books he).ledger ?_ ?_
  -- the new row asks for a nonnegative number of days
  · obtain ⟨_, _, _, hrow, _, _, _, hreqs, _⟩ := he
    cases hrow
    intro r hr
    rw [hreqs] at hr
    rcases List.mem_append.mp hr with hr | hr
    · exact h.days r hr
    · rw [List.mem_singleton.mp hr]
      exact hdays
  · obtain ⟨hb, henough, _, _, _, _, hbals, _, _⟩ := he
    intro b' hb'
    rw [hbals] at hb'
    obtain ⟨b₀, hb₀, rfl⟩ := mem_saveBalance hb'
    -- the row that was charged had the days
    by_cases hkey : b₀.key = dto.balanceKey
    · obtain rfl : b₀ = b := Option.some.inj
        ((Store.balance?_eq_some.mpr ⟨hb₀, hkey⟩).symm.trans hb)
      rw [if_pos hkey]
      change 0 ≤ b₀.availableBalance - days
      linarith
    · rw [if_neg hkey]
      exact (h.balanced b₀ hb₀).available

/-- A save that credits the row of `key` with a non-negative amount, or changes no amount. -/
theorem ledger_credit {key : BalanceKey} {patch : EmployeeBalance → BalancePatch}
    {b : EmployeeBalance} (h : Ledger s) (hb : s.balance? key = some b)
    (hpending : ((patch b).apply b).pendingBalance = b.pendingBalance)
    (hused : ((patch b).apply b).usedBalance = b.usedBalance)
    (hcredit : ∃ x, 0 ≤ x ∧ ((patch b).apply b).availableBalance = b.availableBalance + x ∧
      ((patch b).apply b).totalBalance = b.totalBalance + x) :
    Ledger (s.saveBalance key patch) := by
  refine ⟨fun b' hb' => ?_, h.days, fun r hr => saveBalance_owned (h.owned r hr)⟩
  obtain ⟨b₀, hb₀, rfl⟩ := mem_saveBalance hb'
  obtain ⟨htotal, hpend, huse, havailable⟩ := h.balanced b₀ hb₀
  -- the credit is on both sides of the sum
  by_cases hkey : b₀.key = key
  · obtain rfl : b₀ = b := Option.some.inj
      ((Store.balance?_eq_some.mpr ⟨hb₀, hkey⟩).symm.trans hb)
    rw [if_pos hkey]
    obtain ⟨x, hx, havail, htot⟩ := hcredit
    exact ⟨by rw [havail, hpending, hused, htot]; linarith, hpending.trans hpend,
      hused.trans huse, by rw [havail]; linarith⟩
  · rw [if_neg hkey]
    exact ⟨htotal, hpend, huse, havailable⟩

/-- A patch that changes no amount, or credits the row with a drift above the tolerance. -/
structure Credit (b : EmployeeBalance) (patch : BalancePatch) : Prop where
  pending : patch.pendingBalance = none
  used : patch.usedBalance = none
  credit : patch.availableBalance = none ∧ patch.totalBalance = none ∨
    ∃ total, 0 ≤ total - (b.usedBalance + b.pendingBalance + b.availableBalance) ∧
      patch.availableBalance = some (some (b.availableBalance +
        (total - (b.usedBalance + b.pendingBalance + b.availableBalance)))) ∧
      patch.totalBalance = some (some total)

theorem Credit.ledger {key : BalanceKey} {patch : BalancePatch} {b : EmployeeBalance}
    (h : Ledger s) (hb : s.balance? key = some b) (hc : Credit b patch) :
    Ledger (s.saveBalance key fun x => { patch with version := some (x.version + 1) }) := by
  obtain ⟨hpending, hused, hcredit⟩ := hc
  have htotal := (h.balanced b (Store.balance?_eq_some.mp hb).1).total
  refine ledger_credit h hb (by simp [BalancePatch.apply, amountOr, hpending])
    (by simp [BalancePatch.apply, amountOr, hused]) ?_
  rcases hcredit with ⟨havail, htot⟩ | ⟨total, hnonneg, havail, htot⟩
  · exact ⟨0, le_refl 0, by simp [BalancePatch.apply, amountOr, havail],
      by simp [BalancePatch.apply, amountOr, htot]⟩
  · refine ⟨_, hnonneg, by simp [BalancePatch.apply, amountOr, havail], ?_⟩
    simp only [BalancePatch.apply, amountOr, htot, Option.getD_some]
    linarith

theorem lt_drift {tolerance : ℚ} {b : EmployeeBalance} {total : Num} (ht : 0 ≤ tolerance)
    (h : Num.lt (some tolerance) (drift b total) = true) :
    ∃ t, total = some t ∧
      0 ≤ t - (b.usedBalance + b.pendingBalance + b.availableBalance) := by
  cases total with
  | none =>
    rw [drift_none] at h
    cases h
  | some t =>
    rw [drift_some] at h
    simp only [Num.lt, decide_eq_true_eq] at h
    exact ⟨t, rfl, by linarith⟩

theorem realTimePatch_credit (b : EmployeeBalance) (total : Num) (version : Option String)
    (now : ℕ) : Credit b (realTimePatch b total version now) := by
  unfold realTimePatch realTimePatchIn
  dsimp only
  split
  · rename_i hlt
    obtain ⟨t, rfl, hnonneg⟩ := lt_drift (by norm_num [realTimeTolerance]) hlt
    exact ⟨rfl, rfl, .inr ⟨t, hnonneg, rfl, rfl⟩⟩
  · split <;> exact ⟨rfl, rfl, .inl ⟨rfl, rfl⟩⟩

theorem reconcilePatch_credit (b : EmployeeBalance) (total : Num) (version : Option String)
    (now : ℕ) : Credit b (reconcilePatch b total version now).1 := by
  unfold reconcilePatch reconcilePatchIn
  dsimp only
  split
  · exact ⟨rfl, rfl, .inl ⟨rfl, rfl⟩⟩
  · split
    · rename_i hlt
      obtain ⟨t, rfl, hnonneg⟩ := lt_drift (by norm_num [driftTolerance]) hlt
      exact ⟨rfl, rfl, .inr ⟨t, hnonneg, rfl, rfl⟩⟩
    · exact ⟨rfl, rfl, .inl ⟨rfl, rfl⟩⟩

theorem ledger_insertBalance {total : ℚ} {row : EmployeeBalance} (h : Ledger s)
    (htotal : 0 ≤ total) (hrow : row.totalBalance = total ∧ row.availableBalance = total ∧
      row.pendingBalance = 0 ∧ row.usedBalance = 0)
    (hs : s.insertBalance row = some s') : Ledger s' := by
  obtain ⟨hnone, hbals, hreqs, _⟩ := Store.insertBalance_eq hs
  obtain ⟨ht, ha, hp, hu⟩ := hrow
  -- no request can be charged to a key without a row
  have hzero (status : RequestStatus) : s'.daysIn status row.key = 0 := by
    rw [daysIn_eq_sum, hreqs]
    refine List.sum_eq_zero fun x hx => ?_
    obtain ⟨r, hr, rfl⟩ := List.mem_map.mp hx
    rw [TimeOffRequest.daysIn, if_neg]
    rintro ⟨hkey, _⟩
    obtain ⟨b, hb, hbkey⟩ := h.owned r hr
    rw [Store.balance?_eq_some.mpr ⟨hb, hbkey.trans hkey⟩] at hnone
    cases hnone
  have hdays (status : RequestStatus) (key : BalanceKey) :
      s'.daysIn status key = s.daysIn status key := by
    rw [Store.daysIn, Store.daysIn, hreqs]
  refine ⟨fun b hb => ?_, by rw [hreqs]; exact h.days, fun r hr => ?_⟩
  · rw [hbals] at hb
    rcases List.mem_append.mp hb with hb | hb
    · obtain ⟨htotal, hpend, huse, havailable⟩ := h.balanced b hb
      exact ⟨htotal, hpend.trans (hdays _ _).symm, huse.trans (hdays _ _).symm, havailable⟩
    · obtain rfl := List.mem_singleton.mp hb
      exact ⟨by rw [ht, ha, hp, hu]; ring, hp.trans (hzero _).symm, hu.trans (hzero _).symm,
        by rw [ha]; exact htotal⟩
  · rw [hreqs] at hr
    obtain ⟨b, hb, hkey⟩ := h.owned r hr
    exact ⟨b, by rw [hbals]; exact List.mem_append_left _ hb, hkey⟩

theorem books_saveRequest_sync {id : ℕ} {patch : TimeOffRequest → RequestPatch}
    (h : Books s) (hp : ∀ r, (patch r).status = none) : Books (s.saveRequest id patch) := by
  have hdays (status : RequestStatus) (key : BalanceKey) :
      (s.saveRequest id patch).daysIn status key = s.daysIn status key :=
    daysIn_saveRequest_sync hp
  refine ⟨fun b hb => ?_, fun r hr => ?_⟩
  · obtain ⟨htotal, hpend, huse⟩ := h.accounted b hb
    exact ⟨htotal, hpend.trans (hdays _ _).symm, huse.trans (hdays _ _).symm⟩
  · obtain ⟨r₀, hr₀, rfl⟩ := List.mem_map.mp hr
    have := h.owned r₀ hr₀
    split <;> exact this

theorem ledger_saveRequest_sync {id : ℕ} {patch : TimeOffRequest → RequestPatch}
    (h : Ledger s) (hp : ∀ r, (patch r).status = none) : Ledger (s.saveRequest id patch) := by
  refine (books_saveRequest_sync h.books hp).ledger (fun r hr => ?_) fun b hb =>
    (h.balanced b hb).available
  obtain ⟨r₀, hr₀, rfl⟩ := List.mem_map.mp hr
  have := h.days r₀ hr₀
  split <;> exact this

end Preservation

section Calls

variable {w w' : World}

def LedgerKept (w w' : World) : Prop := Ledger w.store → Ledger w'.store

theorem ledgerKept_of_store (h : w'.store = w.store) : LedgerKept w w' := by
  intro hl
  rw [h]
  exact hl

theorem realTime_keeps {key : BalanceKey} {hcmTotal : Num} {version : Option String} :
    TxEnds (fun r w' => ∀ v, r = .ok v → LedgerKept w w')
      (applyHcmRealTimeUpdate key hcmTotal version) w := by
  have hfail {e : Err} {P : Prop} (v : Bool)
      (h : (Except.error e : Except Err Bool) = .ok v) : P := nomatch h
  refine txEnds_read rfl (fun _ _ => hfail) ?_
  -- a missing row is no error here
  cases hb : w.store.balance? key with
  | none => exact fun _ _ => id
  | some b =>
    refine txEnds_bind (txEnds_now (txEnds_bind (txEnds_db (fun _ _ => hfail) ?_)))
    cases ha : (realTimePatch b hcmTotal version w.clock).accepted with
    | true =>
      rw [World.db_saveBalance ha]
      exact fun _ _ h => Credit.ledger h hb (realTimePatch_credit b hcmTotal version w.clock)
    | false =>
      rw [World.db_saveBalance_rejected ha]
      exact hfail

/-- A transaction whose callback keeps the ledger when it ends well keeps it. -/
theorem transaction_keeps {β : Type} {body : Tx β} {i : ℕ} {r : Except Err β}
    (h : TxEnds (fun r w' => ∀ v, r = .ok v → LedgerKept w w') body w)
    (hs : SvcStep i (.transaction body) w r w') : LedgerKept w w' := by
  obtain ⟨x, hx⟩ := hs
  rcases exec_transaction hx with ⟨_, _, _, rfl⟩ | ⟨xs, commit, hx⟩
  · exact id
  · rcases atomically_ends h hx with ⟨v, rfl, hv⟩ | ⟨e, _, hstore, _⟩
    · exact hv v rfl
    · exact ledgerKept_of_store hstore

theorem transition_keeps {requestId : ℕ} {target : RequestStatus} {move : BalanceMove}
    {patch : Num → EmployeeBalance → BalancePatch} {body : Tx RequestBody}
    (htarget : target ≠ .pending) (hmove : MovesPending target patch)
    (h : TxEnds (TransitionEnds requestId target move patch w) body w) :
    TxEnds (fun r w' => ∀ v, r = .ok v → LedgerKept w w') body w := by
  refine TxEnds.mono ?_ h
  rintro r u hr v rfl hl
  obtain ⟨r, b, he⟩ := hr
  exact ledger_transition hl htarget hmove he

theorem create_keeps {cfg : Config} {dto : CreateTimeOffRequestDto}
    {idempotencyKey requestHash : String} :
    TxEnds (fun r w' => ∀ v, r = .ok v → LedgerKept w w')
      (createTransaction cfg dto idempotencyKey
        (calculateDaysRequested dto.startDate dto.endDate) requestHash) w := by
  refine TxEnds.mono ?_ create_ends
  intro r u hr v hv hl
  obtain ⟨days, b, hdays, he⟩ := hr v hv
  have := one_le_calculateDaysRequested hdays
  exact ledger_create hl (by linarith) he

/-- The operations that keep the ledger whatever was done before them. -/
def KeepsLedger (o : Op) : Prop :=
  ∀ i w r w', SvcStep i o w r w' → LedgerKept w w'

theorem keepsLedger_base {o : BaseOp} (h : ∀ d, o ≠ .db d) : KeepsLedger (.base o) := by
  rintro i w r w' ⟨x, hx⟩
  cases x with
  | op x => exact ledgerKept_of_store (exec_store h hx)
  | transaction xs commit => cases hx

theorem keepsLedger_db {o : DbOp}
    (h : ∀ w : World, Ledger w.store → Ledger (w.db o).2.store) : KeepsLedger (.base (.db o)) := by
  rintro i w r w' ⟨x, hx⟩ hl
  cases x with
  | op x =>
    rcases exec_db_cases hx with ⟨_, _, _, hstore⟩ | ⟨_, hstore⟩
    · exact ledgerKept_of_store hstore hl
    · rw [hstore]
      exact h w hl
  | transaction xs commit => cases hx

theorem createOp_keepsLedger {cfg : Config} {dto : CreateTimeOffRequestDto}
    {idempotencyKey : String} {o : Op} (h : CreateOp cfg dto idempotencyKey o) :
    KeepsLedger o := by
  cases h with
  | findRecord => exact keepsLedger_db fun _ => id
  | findRequestByKey => exact keepsLedger_db fun _ => id
  | transaction => exact fun _ _ _ _ => transaction_keeps create_keeps
  | _ => exact keepsLedger_base fun _ => by simp

theorem syncOp_keepsLedger {puts : PutBalance → Prop} {o : Op} (h : SyncOp puts o) :
    KeepsLedger o := by
  cases h with
  | findPendingSync take => exact keepsLedger_db fun _ => id
  | saveRequest id patch hp =>
    exact keepsLedger_db fun w hl => ledger_saveRequest_sync hl fun _ => hp
  | _ => exact keepsLedger_base fun _ => by simp

/-- A row that starts with all of its total available. -/
theorem ledgerKept_insertBalance {u : World} {balance : NewBalance} {total : Num}
    (htotal : ∀ t, total = some t → 0 ≤ t)
    (hb : balance.totalBalance = total ∧ balance.availableBalance = total ∧
      balance.pendingBalance = some 0 ∧ balance.usedBalance = some 0)
    (hu : u.store = (w.db (.insertBalance balance)).2.store) : LedgerKept w u := by
  intro hl
  rw [hu]
  rcases World.db_insertBalance w balance with ⟨_, _, hdb⟩ | ⟨row, s', hrow, hs, hdb⟩
  · rw [hdb]
    exact hl
  · rw [hdb]
    obtain ⟨h1, h2, h3, h4⟩ := hb
    simp only [NewBalance.row, h1, h2, h3, h4] at hrow
    -- amounts that are `NaN` are refused by the table
    cases total with
    | none => cases hrow
    | some t =>
      cases hhcm : balance.hcmTotalBalance with
      | none =>
        rw [hhcm] at hrow
        cases hrow
      | some hcmTotal =>
        rw [hhcm] at hrow
        cases hrow
        exact ledger_insertBalance hl (htotal t rfl) ⟨rfl, rfl, rfl, rfl⟩ hs

variable {i : ℕ} {cfg : Config}

theorem upsertBalance_keeps {key : BalanceKey} {total : Num}
    (htotal : w.store.balance? key = none → ∀ t, total = some t → 0 ≤ t) :
    SvcEnds i LedgerKept (fun _ _ => True) (upsertBalance key total) w := by
  refine svcEnds_read rfl (fun _ _ u hu => ⟨ledgerKept_of_store hu, trivial⟩) fun u hu => ?_
  refine ⟨ledgerKept_of_store hu, ?_⟩
  cases hb : w.store.balance? key with
  | some b => trivial
  | none =>
    refine Prog.Holds.bind (svcEnds_now ⟨id, svcEnds_db ?_ ?_⟩)
    · exact fun _ _ v hv => ⟨ledgerKept_of_store hv, trivial⟩
    · exact fun v hv => ⟨ledgerKept_insertBalance (htotal hb) ⟨rfl, rfl, rfl, rfl⟩ hv, trivial⟩

theorem reconcileRecord_keeps {hcmRecord : HcmRecord}
    (htotal : w.store.balance? hcmRecord.key = none →
      ∀ t, hcmRecord.totalBalance = some t → 0 ≤ t) :
    SvcEnds i LedgerKept (fun _ _ => True) (reconcileRecord hcmRecord) w := by
  refine svcEnds_read rfl (fun _ _ u hu => ⟨ledgerKept_of_store hu, trivial⟩) fun u hu => ?_
  refine ⟨ledgerKept_of_store hu, Prog.Holds.bind (svcEnds_now ⟨id, ?_⟩)⟩
  -- the row was read before, so the branch is that of the read
  cases hb : w.store.balance? hcmRecord.key with
  | none =>
    refine Prog.Holds.bind (svcEnds_db ?_ ?_)
    · exact fun _ _ v hv => ⟨ledgerKept_of_store hv, trivial⟩
    · intro v hv
      refine ⟨ledgerKept_insertBalance (htotal hb) ⟨rfl, rfl, rfl, rfl⟩ hv, ?_⟩
      generalize (u.db _).1 = r
      cases r <;> trivial
  | some b =>
    refine Prog.Holds.bind (svcEnds_db ?_ ?_)
    · exact fun _ _ v hv => ⟨ledgerKept_of_store hv, trivial⟩
    · intro v hv
      constructor
      -- a patch that the columns refuse changes nothing
      · intro hl
        rw [hv]
        have hpatch :=
          reconcilePatch_credit b hcmRecord.totalBalance hcmRecord.version u.clock
        cases ha : (reconcilePatch b hcmRecord.totalBalance hcmRecord.version u.clock).1.accepted
          with
        | true =>
          rw [World.db_saveBalance ha]
          exact Credit.ledger hl (by rw [hu]; exact hb) hpatch
        | false =>
          rw [World.db_saveBalance_rejected ha]
          exact hl
      · generalize (u.db _).1 = r
        cases r <;> trivial

end Calls

section DeadBranches

/-- The answers of `releaseFromPending` and `finalizeUsed` that say the ledger is broken. -/
def Err.brokenLedger : Err → Bool
  | .service (.balanceNotFound .release _) => true
  | .service (.balanceNotFound .finalize _) => true
  | .service (.pendingUnderflow ..) => true
  | _ => false

/-- No run of the callback alone from `w` ends in one of these answers. -/
def KeepsFaith {β : Type} (p : Tx β) (w : World) : Prop :=
  ∀ xs e w', p.play TxOp.exec xs w = some (.error e, w') → e.brokenLedger = false

variable {w : World}

theorem keepsFaith_of_ends {β : Type} {p : Tx β} {Q : Except Err β → World → Prop}
    (h : TxEnds Q p w) (hQ : ∀ e u, Q (.error e) u → e.brokenLedger = false) :
    KeepsFaith p w := by
  intro xs e w' hplay
  exact hQ e w' (Prog.Holds.play (fun _ => rfl) (fun o c s r s' hs => ⟨c, hs⟩) h hplay)

/-- A pending request is part of the pending amount of its row. -/
theorem Ledger.pending_covers {s : Store} (h : Ledger s) {r : TimeOffRequest}
    {b : EmployeeBalance} (hr : r ∈ s.requests) (hp : r.status = .pending)
    (hb : s.balance? r.balanceKey = some b) : r.daysRequested ≤ b.pendingBalance := by
  obtain ⟨hbmem, hbkey⟩ := Store.balance?_eq_some.mp hb
  rw [(h.balanced b hbmem).pending, hbkey, daysIn_eq_sum]
  have hterm : r.daysIn .pending r.balanceKey = r.daysRequested := by
    rw [TimeOffRequest.daysIn, if_pos ⟨rfl, hp⟩]
  rw [← hterm]
  refine List.single_le_sum (fun x hx => ?_) _ (List.mem_map_of_mem hr)
  obtain ⟨r', hr', rfl⟩ := List.mem_map.mp hx
  unfold TimeOffRequest.daysIn
  split
  · exact h.days r' hr'
  · exact le_refl 0

theorem Ledger.balance_exists {s : Store} (h : Ledger s) {r : TimeOffRequest}
    (hr : r ∈ s.requests) : s.balance? r.balanceKey ≠ none := by
  obtain ⟨b, hb, hkey⟩ := h.owned r hr
  rw [Store.balance?_eq_some.mpr ⟨hb, hkey⟩]
  exact Option.some_ne_none b

theorem moveDays_keepsFaith {move : BalanceMove}
    {patch : EmployeeBalance → BalancePatch} {r : TimeOffRequest} (h : Ledger w.store)
    (hr : r ∈ w.store.requests) (hp : r.status = .pending) :
    KeepsFaith (moveDays r.balanceKey (.balanceNotFound move r.balanceKey)
      (pendingShortfall move r.balanceKey (some r.daysRequested)) patch) w := by
  have hends : TxEnds (fun x _ => ∀ e, x = .error e → e.brokenLedger = false)
      (moveDays r.balanceKey (.balanceNotFound move r.balanceKey)
        (pendingShortfall move r.balanceKey (some r.daysRequested)) patch) w := by
    refine moveDays_ends ?_ ?_ ?_ ?_
    -- the last case first: a save answers with no error
    rotate_left 3
    · rintro b _ _ _ e ⟨⟩
    · rintro code message _ ⟨rfl⟩
      rfl
    · exact fun hb => absurd hb (h.balance_exists hr)
    -- what is pending on the row covers the days of its pending requests
    · intro b e hb he
      have hcover := h.pending_covers hr hp hb
      unfold pendingShortfall at he
      split at he
      · rename_i hlt
        simp only [Num.lt, decide_eq_true_eq] at hlt
        exact absurd hlt (not_lt.mpr hcover)
      · cases he
  exact keepsFaith_of_ends hends fun e u hu => hu e rfl

theorem transition_keepsFaith {requestId : ℕ} {target : RequestStatus} {move : BalanceMove}
    {patch : Num → EmployeeBalance → BalancePatch} {p : Tx RequestBody} (h : Ledger w.store)
    (hp : TxEnds (TransitionEnds requestId target move patch w) p w) : KeepsFaith p w := by
  refine keepsFaith_of_ends hp fun e u hu => ?_
  cases hu with
  | driver => rfl
  | notFound => rfl
  | invalid => rfl
  | noBalance found _ balance =>
    exact absurd balance (h.balance_exists (Store.request?_eq_some.mp found).1)
  | underflow found pending balance short =>
    have := h.pending_covers (Store.request?_eq_some.mp found).1 pending balance
    exact absurd short (not_lt.mpr this)

end DeadBranches

section Runs

/-- A call that runs to its end before the next begins, or something the environment does. -/
inductive Event
  | call (c : Call) (xs : List AtomicChoice)
  | env (e : Env)

/-- A row that the call creates starts with a non-negative total. -/
def createsNonneg (w : World) : Call → Bool
  | .upsert key total => (w.store.balance? key).isSome || total.all (0 ≤ ·)
  | .reconcile hcmRecord =>
    (w.store.balance? hcmRecord.key).isSome || hcmRecord.totalBalance.all (0 ≤ ·)
  | _ => true

def runEvent (cfg : Config) (w : World) : Event → Option World
  | .call c xs =>
    if createsNonneg w c then ((c.svc cfg).play (Op.exec 0) xs w).map (·.2) else none
  | .env e => e.exec w

def runEvents (cfg : Config) : World → List Event → Option World
  | w, [] => some w
  | w, e :: es => (runEvent cfg w e).bind fun w' => runEvents cfg w' es

theorem each_keeps {cfg : Config} {c : Call} {w : World} (h : ∀ o, CallOp cfg c o → KeepsLedger o) :
    SvcEnds 0 LedgerKept (fun _ _ => True) (c.svc cfg) w :=
  Prog.Holds.of_each (fun o _ _ _ ho hs => h o ho 0 _ _ _ hs) (svc_each cfg c) w

theorem call_keeps {cfg : Config} {c : Call} {w : World} (h : createsNonneg w c = true) :
    SvcEnds 0 LedgerKept (fun _ _ => True) (c.svc cfg) w := by
  -- the calls answer with nothing after their own end
  have htrue {α : Type} (r : Except Err α) (u : World) (f : α → Svc (Option RequestBody))
      (hf : ∀ a, f a = .ret none) :
      Prog.after (fun a t => SvcEnds 0 LedgerKept (fun _ _ => True) (f a) t)
        (fun (_ : Except Err (Option RequestBody)) _ => True) r u := by
    cases r with
    | ok a =>
      change SvcEnds 0 LedgerKept _ (f a) u
      rw [hf]
      trivial
    | error e => trivial
  cases c with
  | create dto key =>
    refine each_keeps fun o ho => ?_
    cases ho with
    | create ho => exact createOp_keepsLedger ho
  | approve id approver =>
    refine each_keeps fun o ho => ?_
    cases ho with
    | approve =>
      exact fun _ _ _ _ => transaction_keeps
        (transition_keeps (by decide) finalize_movesPending approve_ends)
  | reject id approver reason =>
    refine each_keeps fun o ho => ?_
    cases ho with
    | reject =>
      exact fun _ _ _ _ => transaction_keeps
        (transition_keeps (by decide) (release_movesPending (by decide)) reject_ends)
  | cancel id reason =>
    refine each_keeps fun o ho => ?_
    cases ho with
    | cancel =>
      exact fun _ _ _ _ => transaction_keeps
        (transition_keeps (by decide) (release_movesPending (by decide)) cancel_ends)
  | realTime key total version =>
    refine each_keeps fun o ho => ?_
    cases ho with
    | realTime => exact fun _ _ _ _ => transaction_keeps realTime_keeps
  | retrySyncs =>
    refine each_keeps fun o ho => ?_
    cases ho with
    | retrySyncs ho => exact syncOp_keepsLedger ho
  | task t =>
    refine each_keeps fun o ho => ?_
    cases ho with
    | task t ho => exact syncOp_keepsLedger ho
  | upsert key total =>
    refine Prog.Holds.bind (Prog.Holds.mono (fun r u _ => htrue r u _ fun _ => rfl)
      (upsertBalance_keeps fun hnone t ht => ?_))
    simpa [createsNonneg, hnone, ht] using h
  | reconcile hcmRecord =>
    refine Prog.Holds.bind (Prog.Holds.mono (fun r u _ => htrue r u _ fun _ => rfl)
      (reconcileRecord_keeps fun hnone t ht => ?_))
    simpa [createsNonneg, hnone, ht] using h

theorem runEvents_ledger {cfg : Config} {es : List Event} {w w' : World} (hw : Ledger w.store)
    (h : runEvents cfg w es = some w') : Ledger w'.store := by
  induction es generalizing w with
  -- the induction is on the events; a call is played alone
  | nil =>
    cases h
    exact hw
  | cons e es ih =>
    obtain ⟨u, hu, h⟩ := Option.bind_eq_some_iff.mp h
    refine ih ?_ h
    cases e with
    | call c xs =>
      simp only [runEvent, Option.ite_none_right_eq_some, Option.map_eq_some_iff] at hu
      obtain ⟨hnonneg, ⟨r, u⟩, hplay, rfl⟩ := hu
      exact Prog.Holds.play_inv (fun w => Ledger w.store) (fun _ => rfl)
        (fun o c s r s' hs => ⟨c, hs⟩) (call_keeps hnonneg) hw hplay
    | env e =>
      rw [(env_sameCalls hu).1]
      exact hw

/-- The ledger invariant: from an empty database, whatever calls run and however they end. -/
theorem ledger_after_any_calls (cfg : Config) (clock nextId : ℕ) (hcm : MockHcm)
    (es : List Event) {w : World}
    (h : runEvents cfg (World.init .empty clock nextId hcm) es = some w) :
    (∀ b ∈ w.store.balances,
      b.availableBalance + b.pendingBalance + b.usedBalance = b.totalBalance ∧
        b.pendingBalance = w.store.daysIn .pending b.key ∧
        b.usedBalance = w.store.daysIn .approved b.key ∧ 0 ≤ b.availableBalance) ∧
      ∀ r ∈ w.store.requests, r.status = .pending →
        KeepsFaith (finalizeUsed r.balanceKey (some r.daysRequested)) w ∧
          KeepsFaith (releaseFromPending r.balanceKey (some r.daysRequested)) w ∧
          ∀ approverId reason cancelReason,
            KeepsFaith (approveTransaction r.id approverId) w ∧
              KeepsFaith (rejectTransaction r.id approverId reason) w ∧
              KeepsFaith (cancelTransaction r.id cancelReason) w := by
  have hl : Ledger w.store := runEvents_ledger ledger_empty h
  refine ⟨fun b hb => ?_, fun r hr hp => ?_⟩
  · obtain ⟨htotal, hpending, hused, havailable⟩ := hl.balanced b hb
    exact ⟨htotal, hpending, hused, havailable⟩
  · exact ⟨moveDays_keepsFaith hl hr hp, moveDays_keepsFaith hl hr hp, fun _ _ _ =>
      ⟨transition_keepsFaith hl approve_ends, transition_keepsFaith hl reject_ends,
        transition_keepsFaith hl cancel_ends⟩⟩

/-- A balance of 10 days, a request of two days, its approval, and a request of one day. -/
def approvedAndPending : List Event :=
  [.call (.upsert plainKey (some 10)) (steps 3),
    .call (.create (plainDto "2030-01-07" "2030-01-08") "key-1")
      (steps 5 ++ [committed 7] ++ steps 2),
    .call (.approve 0 "MGR1") [committed 6],
    .call (.create (plainDto "2030-02-04" "2030-02-04") "key-2")
      (steps 5 ++ [committed 7] ++ steps 2)]

theorem approvedAndPending_runs :
    (runEvents plainConfig (World.init .empty 1000 0 (.init [])) approvedAndPending).isSome =
      true := by
  decide +kernel

theorem ledger_after_approvedAndPending :
    ∃ w, runEvents plainConfig (World.init .empty 1000 0 (.init [])) approvedAndPending = some w ∧
      ∀ b ∈ w.store.balances,
        b.availableBalance + b.pendingBalance + b.usedBalance = b.totalBalance := by
  have hrun := (Option.some_get approvedAndPending_runs).symm
  refine ⟨_, hrun, fun b hb => ?_⟩
  exact ((ledger_after_any_calls plainConfig 1000 0 (.init []) approvedAndPending hrun).1 b hb).1

end Runs

end TimeOff
