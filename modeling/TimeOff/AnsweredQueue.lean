import TimeOff.AnsweredPass
import TimeOff.DecidedOnce
import TimeOff.HcmCharges

/-! While the HCM answers and has the days, passes enough for the queue of the worker empty it:
no request is left pending, and each approved one is deducted once. -/
namespace TimeOff

open Async

section Covered

/-- The days of the approved requests among `rows` that count against one record of the HCM. -/
def owedAt (key : String) (rows : List TimeOffRequest) : ℚ :=
  ((rows.filter fun r => r.status = .approved ∧ getBalanceKey r.balanceKey = key).map
    (·.daysRequested)).sum

/-- The days are positive, and the HCM has those of all the approved requests together. -/
structure MockHcm.Covers (h : MockHcm) (rows : List TimeOffRequest) : Prop where
  days : ∀ r ∈ rows, 0 < r.daysRequested
  enough : ∀ r ∈ rows, r.status = .approved →
    owedAt (getBalanceKey r.balanceKey) rows ≤ (h.balance r.balanceKey).availableBalance

/-- An approved request that is not given up. -/
def dueAtHcm (r : TimeOffRequest) : Bool :=
  r.status = .approved && r.hcmSyncAttempts < maxPendingSyncRetries

/-- The verdicts when the HCM has the days. -/
structure SyncVerdict.Settles (v : SyncVerdict) (row : TimeOffRequest) : Prop where
  givenUp : maxPendingSyncRetries ≤ row.hcmSyncAttempts → v = .givenUp
  closed : row.hcmSyncAttempts < maxPendingSyncRetries →
    row.status = .rejected ∨ row.status = .cancelled → v = .skipped
  pending : row.hcmSyncAttempts < maxPendingSyncRetries → row.status = .pending →
    v = .valid ∨ v = .invalid
  approved : row.hcmSyncAttempts < maxPendingSyncRetries → row.status = .approved → v = .deducted

variable {h : MockHcm} {row : TimeOffRequest} {rows rest : List TimeOffRequest} {key : String}

theorem owedAt_cons : owedAt key (row :: rows) =
    (if row.status = .approved ∧ getBalanceKey row.balanceKey = key then row.daysRequested else 0) +
      owedAt key rows := by
  unfold owedAt
  rw [List.filter_cons]
  split
  · next hin =>
    rw [if_pos (of_decide_eq_true hin)]
    rfl
  · next hout =>
    rw [if_neg fun hin => hout (decide_eq_true hin), zero_add]

theorem owedAt_nonneg (key : String) (hdays : ∀ r ∈ rows, 0 < r.daysRequested) :
    0 ≤ owedAt key rows := by
  apply List.sum_nonneg
  intro x hx
  obtain ⟨r, hr, rfl⟩ := List.mem_map.mp hx
  exact (hdays r (List.mem_of_mem_filter hr)).le

theorem owedAt_perm {rows' : List TimeOffRequest} (hp : rows.Perm rows') :
    owedAt key rows = owedAt key rows' := ((hp.filter _).map _).sum_eq

theorem MockHcm.Covers.perm {rows' : List TimeOffRequest} (hc : h.Covers rows)
    (hp : rows.Perm rows') : h.Covers rows' := by
  refine ⟨fun r hr => hc.days r (hp.mem_iff.mpr hr), fun r hr happroved => ?_⟩
  rw [← owedAt_perm hp]
  exact hc.enough r (hp.mem_iff.mpr hr) happroved

theorem MockHcm.Covers.same {h' : MockHcm} (hc : h.Covers rows) (hs : h.SameBooks h') :
    h'.Covers rows := by
  refine ⟨hc.days, fun r hr happroved => ?_⟩
  rw [hs.balance]
  exact hc.enough r hr happroved

/-- The days of an approved request are there when its turn comes. -/
theorem MockHcm.Covers.available (hc : h.Covers (row :: rest))
    (happroved : row.status = .approved) :
    row.daysRequested ≤ (h.balance row.balanceKey).availableBalance := by
  have henough := hc.enough row List.mem_cons_self happroved
  rw [owedAt_cons, if_pos ⟨happroved, rfl⟩] at henough
  have hrest := owedAt_nonneg (getBalanceKey row.balanceKey)
    fun r hr => hc.days r (List.mem_cons_of_mem _ hr)
  linarith

/-- A validation finds the days that are there. -/
theorem knowsValid_of_available (hdays : 0 < row.daysRequested)
    (havailable : row.daysRequested ≤ (h.balance row.balanceKey).availableBalance) :
    h.knowsValid row = true := by
  have hvalid : (h.validate row.balanceKey (some row.daysRequested)).valid = some true := by
    unfold MockHcm.balance at havailable
    unfold MockHcm.validate
    cases hrecord : h.hcmBalances.lookup (getBalanceKey row.balanceKey) with
    | none =>
      rw [hrecord] at havailable
      exact absurd hdays (not_lt.mpr havailable)
    | some record =>
      rw [hrecord] at havailable
      exact congrArg some (decide_eq_true (not_lt.mpr havailable))
  rw [MockHcm.knowsValid, hvalid]
  simp

theorem syncVerdict_settles (hc : h.Covers (row :: rest)) : (syncVerdict h row).Settles row := by
  unfold syncVerdict
  refine ⟨fun hover => if_pos hover, fun hunder hclosed => ?_, fun hunder hpending => ?_,
    fun hunder happroved => ?_⟩
  · rw [if_neg (not_le.mpr hunder), if_pos hclosed]
  · rw [if_neg (not_le.mpr hunder), hpending, if_neg (by simp)]
    split
    · left
      rw [validatedVerdict, hpending]
    · exact .inr rfl
  · have havailable := hc.available happroved
    have hknown := knowsValid_of_available (hc.days row List.mem_cons_self) havailable
    rw [if_neg (not_le.mpr hunder), happroved, if_neg (by simp), if_pos hknown, validatedVerdict,
      happroved]
    exact if_neg (not_lt.mpr havailable)

/-- What a PUT leaves the HCM with when it has the days. -/
theorem putBalance_of_available (put : PutBalance)
    (havailable : put.daysRequested ≤ (h.balance put.key).availableBalance) (k : BalanceKey) :
    ((h.putBalance put).2.balance k).availableBalance = (h.balance k).availableBalance -
        (if getBalanceKey put.key = getBalanceKey k then put.daysRequested else 0) ∧
      (h.putBalance put).2.deducted = (put.referenceId, put.daysRequested) :: h.deducted := by
  rw [MockHcm.putBalance, if_neg (not_lt.mpr havailable)]
  refine ⟨?_, rfl⟩
  change ((h.setBalance put.key _).balance k).availableBalance = _
  rw [balance_setBalance]
  by_cases hk : getBalanceKey k = getBalanceKey put.key
  · rw [if_pos hk, if_pos hk.symm, balance_congr hk]
  · rw [if_neg hk, if_neg (Ne.symm hk), sub_zero]

theorem MockHcm.Covers.tail (hc : h.Covers (row :: rest)) : h.Covers rest := by
  refine ⟨fun r hr => hc.days r (List.mem_cons_of_mem _ hr), fun r hr happroved => ?_⟩
  have henough := hc.enough r (List.mem_cons_of_mem _ hr) happroved
  have hrow := hc.days row List.mem_cons_self
  rw [owedAt_cons] at henough
  split at henough <;> linarith

/-- After a request has had its turn, the HCM still has the days of the others. -/
theorem MockHcm.Covers.next (hc : h.Covers (row :: rest)) :
    ((syncVerdict h row).books row h).Covers rest ∧
      ((syncVerdict h row).books row h).deducted =
        (if dueAtHcm row then [(row.id, row.daysRequested)] else []) ++ h.deducted := by
  have hsettles := syncVerdict_settles hc
  by_cases hdue : dueAtHcm row
  · obtain ⟨happroved, hunder⟩ : row.status = .approved ∧
        row.hcmSyncAttempts < maxPendingSyncRetries := by
      rw [dueAtHcm, Bool.and_eq_true, decide_eq_true_eq, decide_eq_true_eq] at hdue
      exact hdue
    rw [hsettles.approved hunder happroved, if_pos hdue]
    have hput := putBalance_of_available ⟨row.balanceKey, row.daysRequested, row.id⟩
      (hc.available happroved)
    refine ⟨⟨hc.tail.days, fun r hr hrapproved => ?_⟩, (hput row.balanceKey).2⟩
    have henough := hc.enough r (List.mem_cons_of_mem _ hr) hrapproved
    rw [owedAt_cons] at henough
    refine le_of_le_of_eq ?_ (hput r.balanceKey).1.symm
    -- the days of the row are counted on both sides, or on neither
    by_cases hk : getBalanceKey row.balanceKey = getBalanceKey r.balanceKey
    · rw [if_pos ⟨happroved, hk⟩] at henough
      rw [if_pos hk]
      linarith
    · rw [if_neg fun hin => hk hin.2] at henough
      rw [if_neg hk]
      linarith
  · have hbooks : (syncVerdict h row).books row h = h := by
      by_cases hover : maxPendingSyncRetries ≤ row.hcmSyncAttempts
      · rw [hsettles.givenUp hover]
        rfl
      have hunder := not_le.mp hover
      cases hstatus : row.status with
      | pending =>
        rcases hsettles.pending hunder hstatus with hv | hv <;> rw [hv] <;> rfl
      | rejected =>
        rw [hsettles.closed hunder (.inl hstatus)]
        rfl
      | cancelled =>
        rw [hsettles.closed hunder (.inr hstatus)]
        rfl
      | approved =>
        rw [dueAtHcm, hstatus, decide_eq_true hunder] at hdue
        exact absurd rfl hdue
    rw [hbooks, if_neg hdue]
    exact ⟨hc.tail, rfl⟩

/-- What the worker subtracts for a request. -/
def chargeOf (r : TimeOffRequest) : ℕ × ℚ := (r.id, r.daysRequested)

/-- Requests that have their turn before others. -/
theorem MockHcm.Covers.inTurn (hc : h.Covers (rows ++ rest)) :
    (∀ p ∈ (syncInTurn rows h).1, p.2.Settles p.1) ∧ (syncInTurn rows h).2.Covers rest ∧
      (syncInTurn rows h).2.deducted =
        ((rows.filter dueAtHcm).map chargeOf).reverse ++ h.deducted := by
  induction rows generalizing h with
  | nil => exact ⟨fun p hp => (List.not_mem_nil hp).elim, hc, rfl⟩
  | cons row rows ih =>
    obtain ⟨hcovers, hdeducted⟩ := hc.next
    obtain ⟨hsettled, hrest, hcharged⟩ := ih hcovers
    refine ⟨fun p hp => ?_, hrest, ?_⟩
    · rcases List.mem_cons.mp hp with rfl | hp
      · exact syncVerdict_settles hc
      · exact hsettled p hp
    · change (syncInTurn rows ((syncVerdict h row).books row h)).2.deducted = _
      rw [hcharged, hdeducted, List.filter_cons]
      split
      · rw [List.map_cons, List.reverse_cons, List.append_assoc]
        rfl
      · rfl

end Covered

section Passes

/-- The requests that the worker has still to sync. -/
def Store.waiting (s : Store) : List TimeOffRequest :=
  s.requests.filter (·.hcmSyncStatus = .pending)

/-- A request that the worker is done with, and what became of it. -/
structure SyncDone (row row' : TimeOffRequest) : Prop where
  id : row'.id = row.id
  status : row'.status = row.status
  done : row'.hcmSyncStatus ≠ .pending
  givenUp : maxPendingSyncRetries ≤ row.hcmSyncAttempts →
    row'.hcmSyncStatus = .failed ∧ row'.hcmSyncAttempts = row.hcmSyncAttempts
  counted : row.hcmSyncAttempts < maxPendingSyncRetries →
    row'.hcmSyncAttempts = row.hcmSyncAttempts + 1
  closed : row.hcmSyncAttempts < maxPendingSyncRetries →
    row.status = .rejected ∨ row.status = .cancelled → row'.hcmSyncStatus = .skipped
  approved : row.hcmSyncAttempts < maxPendingSyncRetries → row.status = .approved →
    row'.hcmSyncStatus = .success ∧ row'.hcmValidated = true

/-- What passes did that took the requests `taken` and no others. -/
structure QueueServed (taken : List TimeOffRequest) (w w' : World) : Prop where
  requests : ∃ f, w'.store.requests = w.store.requests.map f ∧
    (∀ r ∈ taken, SyncDone r (f r)) ∧ ∀ r ∈ w.store.requests, r ∉ taken → f r = r
  waiting : (taken ++ w'.store.waiting).Perm w.store.waiting
  deducted : ∃ sent, sent.Perm ((taken.filter dueAtHcm).map chargeOf) ∧
    w'.hcm.deducted = sent ++ w.hcm.deducted
  covers : w'.hcm.Covers w'.store.waiting

/-- Answered passes one after the other; in between, the requests stay as they are and the HCM
keeps its books. -/
def AnsweredPasses (cfg : Config) : ℕ → World → World → Prop
  | 0, w, w' => w'.store.requests = w.store.requests ∧ w.hcm.SameBooks w'.hcm
  | k + 1, w, w' => ∃ i w₁ w₂,
    (w₁.store.requests = w.store.requests ∧ w.hcm.SameBooks w₁.hcm ∧ w₁.hcm.Numbered) ∧
      AnsweredPass cfg i w₁ w₂ ∧ AnsweredPasses cfg k w₂ w'

variable {cfg : Config} {w w' w'' : World} {row : TimeOffRequest}
  {taken taken' : List TimeOffRequest}

theorem mem_waiting {s : Store} :
    row ∈ s.waiting ↔ row ∈ s.requests ∧ row.hcmSyncStatus = .pending := by
  rw [Store.waiting, List.mem_filter, decide_eq_true_eq]

/-- The columns that a verdict which settles the request leaves behind. -/
theorem SyncVerdict.Settles.done {v : SyncVerdict} (hv : v.Settles row) (now at' : ℕ) :
    SyncDone row (writtenBy row.id (v.patch row now) at' row) := by
  rw [writtenBy, if_pos rfl]
  by_cases hover : maxPendingSyncRetries ≤ row.hcmSyncAttempts
  · have hnot := not_lt.mpr hover
    rw [hv.givenUp hover]
    refine ⟨rfl, rfl, ?_, fun _ => ⟨rfl, rfl⟩, fun h => absurd h hnot, fun h => absurd h hnot,
      fun h => absurd h hnot⟩
    change HcmSyncStatus.failed ≠ .pending
    decide
  have hunder := not_le.mp hover
  -- the statuses of the request decide which verdict it was
  cases hstatus : row.status with
  | rejected =>
    rw [hv.closed hunder (.inl hstatus)]
    refine ⟨rfl, rfl, ?_, fun h => absurd h hover, fun _ => rfl, fun _ _ => rfl, fun _ h => ?_⟩
    · change HcmSyncStatus.skipped ≠ .pending
      decide
    · rw [hstatus] at h
      cases h
  | cancelled =>
    rw [hv.closed hunder (.inr hstatus)]
    refine ⟨rfl, rfl, ?_, fun h => absurd h hover, fun _ => rfl, fun _ _ => rfl, fun _ h => ?_⟩
    · change HcmSyncStatus.skipped ≠ .pending
      decide
    · rw [hstatus] at h
      cases h
  | approved =>
    rw [hv.approved hunder hstatus]
    refine ⟨rfl, rfl, ?_, fun h => absurd h hover, fun _ => rfl, fun _ h => ?_,
      fun _ _ => ⟨rfl, rfl⟩⟩
    · change HcmSyncStatus.success ≠ .pending
      decide
    · rw [hstatus] at h
      rcases h with h | h <;> cases h
  | pending =>
    have hopen : ¬ (row.status = .rejected ∨ row.status = .cancelled) := by
      rw [hstatus]
      simp
    have hunapproved : row.status ≠ .approved := by
      rw [hstatus]
      simp
    rcases hv.pending hunder hstatus with h | h <;> rw [h]
    · refine ⟨rfl, rfl, ?_, fun h => absurd h hover, fun _ => rfl, fun _ h => absurd h hopen,
        fun _ h => absurd h hunapproved⟩
      change HcmSyncStatus.success ≠ .pending
      decide
    · refine ⟨rfl, rfl, ?_, fun h => absurd h hover, fun _ => rfl, fun _ h => absurd h hopen,
        fun _ h => absurd h hunapproved⟩
      change HcmSyncStatus.failed ≠ .pending
      decide

theorem QueueServed.idle (hrequests : w'.store.requests = w.store.requests)
    (hbooks : w.hcm.SameBooks w'.hcm) (hc : w.hcm.Covers w.store.waiting) :
    QueueServed [] w w' := by
  have hwaiting : w'.store.waiting = w.store.waiting := by
    rw [Store.waiting, hrequests, Store.waiting]
  refine ⟨⟨id, ?_, fun r hr => (List.not_mem_nil hr).elim, fun _ _ _ => rfl⟩, ?_,
    ⟨[], .nil, ?_⟩, ?_⟩
  · rw [hrequests, List.map_id]
  · rw [hwaiting]
    exact List.Perm.refl _
  · exact hbooks.deducted
  · rw [hwaiting]
    exact hc.same hbooks

theorem QueueServed.trans (h : QueueServed taken w w') (h' : QueueServed taken' w' w'') :
    QueueServed (taken ++ taken') w w'' := by
  obtain ⟨f, hf, hdone, hothers⟩ := h.requests
  obtain ⟨g, hg, hdone', hothers'⟩ := h'.requests
  obtain ⟨sent, hsent, hdeducted⟩ := h.deducted
  obtain ⟨sent', hsent', hdeducted'⟩ := h'.deducted
  have hmem {r : TimeOffRequest} (hr : r ∈ w.store.requests) : f r ∈ w'.store.requests := by
    rw [hf]
    exact List.mem_map_of_mem hr
  have hpending {r : TimeOffRequest} (hr : r ∈ taken') : r.hcmSyncStatus = .pending :=
    (mem_waiting.mp (h'.waiting.mem_iff.mp (List.mem_append_left _ hr))).2
  have htaken {r : TimeOffRequest} (hr : r ∈ taken) : r ∈ w.store.requests :=
    (mem_waiting.mp (h.waiting.mem_iff.mp (List.mem_append_left _ hr))).1
  refine ⟨⟨g ∘ f, ?_, fun r hr => ?_, fun r hr hnot => ?_⟩, ?_, ⟨sent' ++ sent, ?_, ?_⟩, h'.covers⟩
  · rw [hg, hf, List.map_map]
  · rw [Function.comp_apply]
    by_cases hin : r ∈ taken
    -- a request that is done with is not taken again
    · rw [hothers' _ (hmem (htaken hin)) fun hagain => (hdone r hin).done (hpending hagain)]
      exact hdone r hin
    · have hr' : r ∈ taken' := (List.mem_append.mp hr).resolve_left hin
      have hleft : r ∈ w.store.requests :=
        (mem_waiting.mp (h.waiting.mem_iff.mp (List.mem_append_right _
          (h'.waiting.mem_iff.mp (List.mem_append_left _ hr'))))).1
      rw [hothers r hleft hin]
      exact hdone' r hr'
  · rw [List.mem_append, not_or] at hnot
    have hsame := hothers r hr hnot.1
    rw [Function.comp_apply, hsame]
    apply hothers' r _ hnot.2
    rw [← hsame]
    exact hmem hr
  · rw [List.append_assoc]
    exact (h'.waiting.append_left taken).trans h.waiting
  · rw [List.filter_append, List.map_append]
    exact (hsent'.append hsent).trans List.perm_append_comm
  · rw [hdeducted', hdeducted, List.append_assoc]

/-- A pass takes fifty of the requests, or all that there are. -/
theorem pendingSync_length (s : Store) : s.pendingSync.length = min 50 s.waiting.length := by
  rw [Store.pendingSync, List.length_take, List.length_insertionSort]
  rfl

theorem waiting_nodup (s : Store) : s.waiting.Nodup :=
  (s.requestIds.of_map _).filter _

/-- What a pass takes and the rest make up the queue. -/
theorem pendingSync_perm (s : Store) :
    (s.pendingSync ++ s.waiting.filter (· ∉ s.pendingSync)).Perm s.waiting := by
  have htaken : (s.waiting.filter (· ∈ s.pendingSync)).Perm s.pendingSync := by
    apply (List.perm_ext_iff_of_nodup ((waiting_nodup s).filter _)
      ((pendingSync_nodup s).of_map _)).mpr
    intro r
    rw [List.mem_filter, decide_eq_true_eq, mem_waiting]
    exact ⟨fun h => h.2, fun h => ⟨mem_pendingSync h, h⟩⟩
  refine (htaken.symm.append_right _).trans ?_
  simpa only [decide_not] using
    List.filter_append_perm (fun r => decide (r ∈ s.pendingSync)) s.waiting

/-- A pass settles what it takes. -/
theorem RowsServed.queue (h : RowsServed w.store.pendingSync w w')
    (hc : w.hcm.Covers w.store.waiting) : QueueServed w.store.pendingSync w w' := by
  obtain ⟨f, hf, hserved, hothers⟩ := h.requests
  have hperm := pendingSync_perm w.store
  obtain ⟨hsettled, hcovers, hdeducted⟩ := (hc.perm hperm.symm).inTurn
  have hdone : ∀ r ∈ w.store.pendingSync, SyncDone r (f r) := by
    intro r hr
    rw [← map_fst_syncInTurn w.store.pendingSync w.hcm] at hr
    obtain ⟨p, hp, rfl⟩ := List.mem_map.mp hr
    obtain ⟨now, at', hwritten⟩ := hserved p hp
    rw [hwritten]
    exact (hsettled p hp).done now at'
  have hsame : ∀ r ∈ w.store.requests, r ∉ w.store.pendingSync → f r = r := by
    intro r hr hnot
    apply hothers
    intro hid
    obtain ⟨r', hr', heq⟩ := List.mem_map.mp hid
    have hrow : r' = r :=
      List.inj_on_of_nodup_map w.store.requestIds (mem_pendingSync hr').1 hr heq
    rw [hrow] at hr'
    exact hnot hr'
  -- what waits after the pass is what the pass did not take
  have hleft : w'.store.waiting = w.store.waiting.filter (· ∉ w.store.pendingSync) := by
    have hsplit : ∀ r ∈ w.store.requests, decide ((f r).hcmSyncStatus = .pending) =
        (decide (r ∉ w.store.pendingSync) && decide (r.hcmSyncStatus = .pending)) := by
      intro r hr
      by_cases hin : r ∈ w.store.pendingSync
      · rw [decide_eq_false (hdone r hin).done, decide_eq_false (not_not.mpr hin),
          Bool.false_and]
      · rw [hsame r hr hin, decide_eq_true hin, Bool.true_and]
    rw [Store.waiting, hf, List.filter_map, Store.waiting, List.filter_filter]
    have hkept : w.store.requests.filter ((fun r => decide (r.hcmSyncStatus = .pending)) ∘ f) =
        w.store.requests.filter fun r =>
          decide (r ∉ w.store.pendingSync) && decide (r.hcmSyncStatus = .pending) :=
      List.filter_congr hsplit
    rw [hkept]
    calc List.map f _ = List.map id _ := by
          apply List.map_congr_left
          intro r hr
          obtain ⟨hmem, hcond⟩ := List.mem_filter.mp hr
          rw [Bool.and_eq_true, decide_eq_true_eq] at hcond
          exact hsame r hmem hcond.1
      _ = _ := List.map_id _
  refine ⟨⟨f, hf, hdone, hsame⟩, ?_, ⟨_, List.reverse_perm _, ?_⟩, ?_⟩
  · rw [hleft]
    exact hperm
  · rw [h.books.deducted, hdeducted]
  · rw [hleft]
    exact hcovers.same h.books

/-- Each pass takes fifty off the queue. -/
theorem AnsweredPasses.served (hcfg : 0 < cfg.retryMaxAttempts) {k : ℕ}
    (h : AnsweredPasses cfg k w w') (hc : w.hcm.Covers w.store.waiting) :
    ∃ taken, QueueServed taken w w' ∧
      w'.store.waiting.length = w.store.waiting.length - 50 * k := by
  induction k generalizing w with
  | zero =>
    refine ⟨[], .idle h.1 h.2 hc, ?_⟩
    rw [Store.waiting, h.1]
    rfl
  | succ k ih =>
    obtain ⟨i, w₁, w₂, ⟨hrequests, hbooks, hnumbered⟩, ⟨waits, waits', hpass⟩, hrest⟩ := h
    have hidle : QueueServed [] w w₁ := .idle hrequests hbooks hc
    obtain ⟨s', heval, hrows⟩ := comes_pass (i := i) hcfg hnumbered waits
    rw [hpass] at heval
    cases heval
    have hone : QueueServed w₁.store.pendingSync w₁ w₂ := hrows.queue hidle.covers
    obtain ⟨taken, hserved, hlength⟩ := ih hrest hone.covers
    refine ⟨_, (hidle.trans hone).trans hserved, ?_⟩
    have hwaiting : w₁.store.waiting = w.store.waiting := by
      rw [Store.waiting, hrequests, Store.waiting]
    have htook := hone.waiting.length_eq
    rw [List.length_append, pendingSync_length, hwaiting] at htook
    omega

end Passes

section Runs

variable {cfg : Config} {w w' : World} {i : ℕ}

/-- What no step of the service breaks. -/
def KeepsNumbered (w w' : World) : Prop := w.hcm.Numbered → w'.hcm.Numbered

theorem keepsNumbered_of_hcm (h : w'.hcm = w.hcm) : KeepsNumbered w w' := by
  intro hn
  rw [h]
  exact hn

theorem exec_keepsNumbered {o : Op} {x : AtomicChoice} {r : Except Err o.Resp}
    (h : o.exec i x w = some (r, w')) : KeepsNumbered w w' := by
  cases o with
  | base o =>
    cases x with
    | transaction xs commit => cases h
    | op x =>
      rcases flatExec_hcm (o := .base o) h with hsame | ⟨put, _, _, hsent⟩
      · exact keepsNumbered_of_hcm hsame
      · intro hn
        rw [hsent]
        exact hn.send put
  -- a transaction does not speak to the HCM
  | transaction body =>
    rcases exec_transaction h with ⟨_, _, _, rfl⟩ | ⟨xs, commit, h⟩
    · exact id
    obtain ⟨⟨y, u⟩, hplay, hr⟩ := Option.bind_eq_some_iff.mp h
    have hu : u.hcm = w.hcm := by
      refine Prog.play_inv (fun u => u.hcm = w.hcm) ?_ rfl hplay
      intro o c s r s' hs hsame
      cases o with
      | db o => rcases execDb_cases hs with ⟨_, _, _, rfl⟩ | ⟨_, rfl⟩ <;> exact hsame
      | now =>
        cases hs
        exact hsame
      | setImmediate task =>
        cases hs
        exact hsame
    dsimp only at hr
    split at hr <;> cases hr <;> exact keepsNumbered_of_hcm hu

theorem env_keepsNumbered {e : Env} (h : e.exec w = some w') : KeepsNumbered w w' := by
  intro hn
  rcases env_hcm h with hsame | ⟨message, hd⟩ | ⟨message, hdrop⟩
  · rw [hsame]
    exact hn
  · obtain ⟨put, _, htransit, hnext, _⟩ := deliver_cases hd
    intro m hm
    rw [htransit] at hm
    rw [hnext]
    exact hn m (List.mem_of_mem_filter hm)
  · rw [hdrop]
    intro m hm
    exact hn m (List.mem_of_mem_filter hm)

theorem moves_numbered (cfg : Config) : (atomicMachine cfg).Moves (fun _ _ => True)
    (CallOp cfg) KeepsNumbered where
  refl _ := id
  trans h h' hn := h' (h hn)
  code _ := svc_each cfg _
  accept h := by
    rcases accept_cases h with rfl | ⟨_, _, _, rfl⟩ <;> exact id
  exec _ h := exec_keepsNumbered h
  finish _ _ _ _ := id
  env h := env_keepsNumbered h
  halt _ := id

/-- The operations of an answered pass are steps of the machine, after the environment has let
time pass and delivered the PUT. -/
theorem exec_answered (cfg : Config) {o : Op} {t t' : AnsweredState} {r : Except Err o.Resp}
    (h : AnsweredState.exec i o t = some (r, t')) :
    ∃ es w x, (atomicMachine cfg).envs es t.world = some w ∧
      (atomicMachine cfg).exec i o x w = some (r, t'.world) := by
  obtain ⟨⟨r', u⟩, hu, heq⟩ := Option.map_eq_some_iff.mp h
  cases heq
  have hgo : ∀ x, o.exec i (.op x) (t.world.later (t.waits 0)) = some (r', u) →
      ∃ es w y, (atomicMachine cfg).envs es t.world = some w ∧
        (atomicMachine cfg).exec i o y w = some (r', u) := fun x hx =>
    ⟨[.tick (t.waits 0)], t.world.later (t.waits 0), .op x, rfl, hx⟩
  cases o with
  | transaction body => cases hu
  | base b =>
    cases b with
    | validateRequest key days => exact hgo _ hu
    | awaitPut message put =>
      obtain ⟨v, hv, hawait⟩ := Option.bind_eq_some_iff.mp hu
      refine ⟨[.tick (t.waits 0), .deliver message], v, .op .delivered, ?_, hawait⟩
      exact Option.bind_eq_some_iff.mpr ⟨_, rfl, Option.bind_eq_some_iff.mpr ⟨v, hv, rfl⟩⟩
    | _ => exact hgo .go hu

/-- An answered pass is a run of the service. -/
theorem AnsweredPass.reach {P : AtomicPool} (h : AnsweredPass cfg P.next P.shared w) :
    ∃ P', (atomicMachine cfg).Reach (fun _ _ => True) P P' ∧
      P'.shared = World.finish P.next .retrySyncs (.ok none) w := by
  obtain ⟨waits, waits', heval⟩ := h
  have hcode : (Call.retrySyncs.svc cfg).eval (AnsweredState.exec P.next) ⟨P.shared, waits⟩ =
      some (.ok none, ⟨w, waits'⟩) := Prog.eval_bind_ok heval
  have hrun := Machine.reach_of_eval (P := { P with next := P.next + 1 }) (c := Call.retrySyncs)
    AnsweredState.world (fun _ _ _ _ => exec_answered cfg) hcode
  have hstart : (atomicMachine cfg).Reach (fun _ _ => True) P
      ((atomicMachine cfg).settle P.next .retrySyncs { P with next := P.next + 1 } P.shared
        (Call.retrySyncs.svc cfg)) := .step (a := .start .retrySyncs) .refl trivial rfl
  exact ⟨_, hstart.trans hrun, rfl⟩

theorem answeredPasses_exist (hcfg : 0 < cfg.retryMaxAttempts) (hn : w.hcm.Numbered) (k : ℕ) :
    ∃ w', AnsweredPasses cfg k w w' := by
  induction k generalizing w with
  | zero => exact ⟨w, rfl, .refl _⟩
  | succ k ih =>
    have hpass : Comes 0 (retryPendingHcmSyncs cfg) ⟨w, fun _ => 0⟩ (.ok ())
        (RowsServed w.store.pendingSync w) := comes_pass hcfg hn _
    obtain ⟨s, heval, hrows⟩ := hpass
    obtain ⟨w', hrest⟩ := ih hrows.numbered
    exact ⟨w', 0, w, s.world, ⟨rfl, .refl _, hn⟩, ⟨_, s.waits, heval⟩, hrest⟩

end Runs

/-- While the HCM answers, the worker empties its queue. From any state of the service, any
number of passes come to their end, and a pass is a run of the service in which each request is
served by its row and the balance of its turn. If the days of the waiting requests are positive
and the HCM has those of the approved ones together, passes for fifty requests each leave none
pending, and each request that was due is deducted once. -/
theorem answered_worker_settles (cfg : Config) (hcfg : 0 < cfg.retryMaxAttempts) (store : Store)
    (clock nextId : ℕ) (hcmBalances : List (String × HcmBalance)) (P : AtomicPool)
    (hP : (atomicMachine cfg).Reach (fun _ _ => True)
      (Pool.init (World.init store clock nextId (.init hcmBalances))) P) :
    (∀ k, ∃ w, AnsweredPasses cfg k P.shared w) ∧
    (∀ w, AnsweredPass cfg P.next P.shared w →
      RowsServed P.shared.store.pendingSync P.shared w ∧
      ∃ P', (atomicMachine cfg).Reach (fun _ _ => True) P P' ∧
        P'.shared = World.finish P.next .retrySyncs (.ok none) w) ∧
    ∀ k w, AnsweredPasses cfg k P.shared w → P.shared.hcm.Covers P.shared.store.waiting →
      P.shared.store.waiting.length ≤ 50 * k →
        w.store.waiting = [] ∧
        (∃ f, w.store.requests = P.shared.store.requests.map f ∧
          ∀ r ∈ P.shared.store.requests,
            (r.hcmSyncStatus = .pending → SyncDone r (f r)) ∧
            (r.hcmSyncStatus ≠ .pending → f r = r)) ∧
        ∃ sent, sent.Perm ((P.shared.store.waiting.filter dueAtHcm).map chargeOf) ∧
          w.hcm.deducted = sent ++ P.shared.hcm.deducted := by
  have hn : P.shared.hcm.Numbered :=
    ((moves_numbered cfg).reach (Machine.Moves.within_init _) hP).1 fun _ he => nomatch he
  refine ⟨answeredPasses_exist hcfg hn, fun w hpass => ?_, fun k w hpasses hc hlength => ?_⟩
  · obtain ⟨waits, waits', heval⟩ := hpass
    obtain ⟨s, hs, hrows⟩ := comes_pass hcfg hn waits
    rw [heval] at hs
    cases hs
    exact ⟨hrows, AnsweredPass.reach ⟨waits, waits', heval⟩⟩
  obtain ⟨taken, hserved, hleft⟩ := hpasses.served hcfg hc
  have hempty : w.store.waiting = [] := by
    apply List.length_eq_zero_iff.mp
    omega
  have htaken : taken.Perm P.shared.store.waiting := by
    have hperm := hserved.waiting
    rw [hempty, List.append_nil] at hperm
    exact hperm
  obtain ⟨f, hf, hdone, hothers⟩ := hserved.requests
  obtain ⟨sent, hsent, hdeducted⟩ := hserved.deducted
  refine ⟨hempty, ⟨f, hf, fun r hr => ⟨fun hpending => ?_, fun hnot => ?_⟩⟩, sent, ?_, hdeducted⟩
  · exact hdone r (htaken.mem_iff.mpr (mem_waiting.mpr ⟨hr, hpending⟩))
  · exact hothers r hr fun hin => hnot (mem_waiting.mp (htaken.mem_iff.mp hin)).2
  · exact hsent.trans ((htaken.filter _).map _)

/-- An approved request of one day, and an HCM that has fifteen. -/
def approvedWorld : World :=
  World.init ⟨[], [announced .approved], [], List.nodup_nil, List.nodup_singleton _,
    List.nodup_singleton _, List.nodup_nil⟩ 0 1 (.init [("EMP123_LOC1_VACATION", ⟨15, 15⟩)])

/-- One answered pass syncs the request and deducts its day. -/
theorem approved_day_deducted :
    ∃ w, AnsweredPasses plainConfig 1 approvedWorld w ∧ w.store.waiting = [] ∧
      (w.store.requests.map (·.hcmSyncStatus)) = [.success] ∧ w.hcm.deducted = [(0, 1)] := by
  have hsettles := answered_worker_settles plainConfig (by decide) approvedWorld.store 0 1
    [("EMP123_LOC1_VACATION", ⟨15, 15⟩)] (Pool.init approvedWorld) .refl
  obtain ⟨hexist, _, hdrains⟩ := hsettles
  obtain ⟨w, hpasses⟩ := hexist 1
  have hcovers : approvedWorld.hcm.Covers approvedWorld.store.waiting := by
    refine ⟨?_, ?_⟩
    · decide +kernel
    · decide +kernel
  obtain ⟨hnone, ⟨f, hf, hdone⟩, sent, hsent, hdeducted⟩ :=
    hdrains 1 w hpasses hcovers (by decide +kernel)
  have hrow := (hdone (announced .approved) List.mem_cons_self).1 rfl
  have hsynced := (hrow.approved (by decide) rfl).1
  refine ⟨w, hpasses, hnone, ?_, ?_⟩
  · rw [hf]
    exact congrArg (fun status => [status]) hsynced
  · have hdue : (approvedWorld.store.waiting.filter dueAtHcm).map chargeOf = [(0, 1)] := by
      decide +kernel
    have hsent' : sent.Perm [(0, 1)] := hsent.trans (List.Perm.of_eq hdue)
    rw [hdeducted, List.perm_singleton.mp hsent']
    rfl

end TimeOff
