import TimeOff.CommitOrder

/-! Approvals, rejections and cancellations among open transactions that do not clash: each step
keeps the order of the commits, and each commit moves the days of the request that it decides. -/
namespace TimeOff

open Async

section Quiet

variable {cfg : Config} {start : Store} {i : ℕ} {c : Call} {L L' : Logged Call World}

/-- An operation that changes no cell, lane or open transaction. -/
theorem order_quiet {o : FlatOp} {r : Except Err o.Resp} (h : OrderStep cfg start i o L r L')
    (hmark : ∀ x, commits o x = false)
    (hsame : ∀ x w, o.exec i x L.state = some (r, w) → w.journal = L.state.journal ∧
      (∀ y, w.store.cell y = L.state.store.cell y) ∧ Within w.store L.state.store) :
    OrderKept cfg start i L L' ∧ Relied i L L' := by
  obtain ⟨hin, _, x, w, hx, rfl⟩ := h
  obtain ⟨hjournal, hcells, hrows⟩ := hsame x w hx
  rw [hmark x]
  exact orderKept_of_same hin hjournal hcells hrows i

theorem order_now {r : Except Err ℕ} (h : OrderStep cfg start i (.tx .now) L r L') :
    OrderKept cfg start i L L' ∧ Relied i L L' := by
  refine order_quiet h (fun _ => rfl) fun x w hx => ?_
  cases hx
  exact ⟨rfl, fun _ => rfl, .refl _⟩

theorem order_setImmediate {task : Task} {r : Except Err Unit}
    (h : OrderStep cfg start i (.tx (.setImmediate task)) L r L') :
    OrderKept cfg start i L L' ∧ Relied i L L' := by
  refine order_quiet h (fun _ => rfl) fun x w hx => ?_
  cases hx
  exact ⟨rfl, fun _ => rfl, .refl _⟩

theorem within_saveRequest (s : Store) (id : ℕ) (patch : TimeOffRequest → RequestPatch) :
    Within (s.saveRequest id patch) s := by
  intro r hr
  obtain ⟨row, hrow, rfl⟩ := List.mem_map.mp hr
  refine ⟨row, hrow, ?_⟩
  split <;> exact ⟨rfl, rfl, rfl, rfl⟩

/-- Outside their transactions the calls read, and their tasks save no status. -/
theorem order_base {o : BaseOp} {r : Except Err o.Resp}
    (ho : (∃ dto key, CreateOp cfg dto key (.base o)) ∨ SyncOp (fun _ => True) (.base o))
    (h : OrderStep cfg start i (.base o) L r L') :
    OrderKept cfg start i L L' ∧ Relied i L L' := by
  refine order_quiet h (fun _ => rfl) fun x w hx => ?_
  have hx : o.exec i x L.state = some (r, w) := hx
  have hread (hstore : w.store = L.state.store) : w.journal = L.state.journal ∧
      (∀ y, w.store.cell y = L.state.store.cell y) ∧ Within w.store L.state.store :=
    ⟨(baseExec_sameCalls hx).journal, fun y => by rw [hstore], by rw [hstore]; exact .refl _⟩
  rcases ho with ⟨dto, key, ho⟩ | ho
  · cases ho with
    -- the two lookups read, and the commit log does not move
    | findRecord =>
      exact hread (by rcases exec_db_cases hx with ⟨_, _, _, hs⟩ | ⟨_, hs⟩ <;> exact hs)
    | findRequestByKey =>
      exact hread (by rcases exec_db_cases hx with ⟨_, _, _, hs⟩ | ⟨_, hs⟩ <;> exact hs)
    | _ => exact hread (exec_store (by simp) hx)
  · cases ho with
    | findPendingSync take =>
      exact hread (by rcases exec_db_cases hx with ⟨_, _, _, hs⟩ | ⟨_, hs⟩ <;> exact hs)
    | saveRequest id patch hstatus =>
      -- the patch has no status, so the facts of the row are the same
      rcases exec_db_cases hx with ⟨_, _, _, hs⟩ | ⟨_, hs⟩
      · exact hread hs
      · refine ⟨(baseExec_sameCalls hx).journal, fun y => ?_, ?_⟩
        · rw [hs]
          apply cell_saveRequest_sync
          exact fun _ => hstatus
        · rw [hs]
          exact within_saveRequest _ _ _
    | _ => exact hread (exec_store (by simp) hx)

end Quiet

section Days

variable {cfg : Config} {start : Store} {i : ℕ} {c : Call} {L : Logged Call World}
  {xs : List Item} {hs : List (Item × Option Cell × Option Cell)} {key : BalanceKey}

/-- A balance once the columns of `patch` are saved. -/
def savedBalance (patch : BalancePatch) (b : EmployeeBalance) : EmployeeBalance :=
  BalancePatch.apply { patch with version := some (b.version + 1) } b

theorem cell_db_saveBalance {w : World} {patch : BalancePatch} {b : EmployeeBalance}
    (haccepted : patch.accepted = true) (hb : w.store.cell (.balance key) = some (.balance b)) :
    (w.db (.saveBalance key patch)).2.store.cell (.balance key) =
      some (.balance (savedBalance patch b)) := by
  rw [World.db_saveBalance haccepted]
  exact cell_balance.mpr (balance?_saveBalance_self (cell_balance.mp hb) _)

/-- Loading a balance, checking it and saving it: the transaction then holds the balance, with
the row that it found and the one that it made of it. -/
theorem moveDays_order {A : World → Prop} {notFound : ServiceError}
    {shortfall : EmployeeBalance → Option ServiceError} {patch : EmployeeBalance → BalancePatch}
    (hrely : ∀ w w', A w → Undisturbed i w w' → A w')
    (hcall : ∀ w d, A w → (d = .findBalance key ∨ ∃ p, d = .saveBalance key p) → A (w.called i d))
    (hp : Progress i c xs hs L) (hL : A L.state) (hkey : .balance key ∉ xs)
    (hfree : ∀ t ∈ hs, t.1 ≠ .balance key)
    (hsound : ∀ b t, shortfall b = none → (patch b).accepted = true → Progress i c xs hs t →
      Solvent t.state.store → 0 ≤ b.availableBalance →
        0 ≤ (savedBalance (patch b) b).availableBalance) :
    (moveDays key notFound shortfall patch).Holds (fun o => OrderStep cfg start i (.tx o))
      (Relied i) (OrderKept cfg start i) (fun x t => x = .ok () → A t.state ∧
        ∃ b, shortfall b = none ∧ (patch b).accepted = true ∧ Progress i c (.balance key :: xs)
          ((.balance key, some (.balance b), some (.balance (savedBalance (patch b) b))) :: hs) t)
      L := by
  refine tx_db_bind ?_
  intro L₁ hR x L₂ hs₁
  have hp₁ := hp.relied hR
  have hL₁ := hrely _ _ hL hR.1
  obtain ⟨hkept, _, hok⟩ := order_call hs₁ id
  refine ⟨hkept, ?_⟩
  rcases x with e | (_ | b)
  · exact fun h => nomatch h
  · exact fun h => nomatch h
  dsimp only [Prog.after]
  cases hshort : shortfall b with
  | some e => exact fun h => nomatch h
  | none =>
    obtain ⟨hres, rfl⟩ := hok _ rfl
    -- the balance is as it was before the transaction
    have hcell : L₁.state.store.cell (.balance key) = some (.balance b) :=
      cell_balance.mpr (Except.ok.inj hres)
    have hheld := held_of_read hs₁.1.separate (hs₁.2.1 _ rfl) hp₁.writes hkey
      (List.mem_singleton_self _) rfl
    rw [hcell] at hheld
    have hp₂ : Progress i c xs hs { L₁ with state := L₁.state.called i (.findBalance key) } :=
      hp₁.read rfl
    dsimp only
    refine Prog.Holds.perform (o := TxOp.db (.saveBalance key _)) ?_
    intro L₃ hR₃ x L₄ hs₃
    have hp₃ := hp₂.relied hR₃
    have hbalance := hheld.undisturbed hR₃.1
    have hL₃ := hrely _ _ (hcall _ _ hL₁ (.inl rfl)) hR₃.1
    cases haccepted : (patch b).accepted with
    | false =>
      -- `NaN` is refused, and nothing is saved
      have hrejected : L₃.state.db (.saveBalance key (patch b)) = _ :=
        World.db_saveBalance_rejected haccepted
      obtain ⟨hkept, _, hok⟩ := order_call hs₃ fun hsolvent => by
        rw [hrejected]
        exact hsolvent
      refine ⟨hkept, fun hx => ?_⟩
      obtain ⟨hres, _⟩ := hok _ hx
      rw [hrejected] at hres
      cases hres
    | true =>
      have hnow := cell_db_saveBalance haccepted hbalance.now
      obtain ⟨hkept, _, hok⟩ := order_call hs₃ fun hsolvent => by
        refine hsolvent.of_change
          (fun y hy => cell_db L₃.state (by simpa [DbOp.writes] using hy)) fun cell hcell => ?_
        cases hnow.symm.trans hcell
        exact hsound b L₃ hshort haccepted hp₃ hsolvent (hsolvent _ _ hbalance.now)
      refine ⟨hkept, fun hx => ?_⟩
      obtain ⟨_, rfl⟩ := hok _ hx
      refine ⟨hcall _ _ hL₃ (.inr ⟨_, rfl⟩), b, hshort, haccepted, ?_⟩
      refine (hp₃.called (fun t ht => ?_) (fun y hy => ?_) (List.subset_cons_self _ _)).add
        (hbalance.written hnow)
      · simpa [DbOp.writes] using hfree t ht
      · rw [List.mem_singleton.mp hy]
        exact List.mem_cons_self

end Days

section Transition

variable {cfg : Config} {start : Store} {i requestId : ℕ} {c : Call} {target : RequestStatus}
  {patch : Num → EmployeeBalance → BalancePatch} {L L' : Logged Call World} {r : TimeOffRequest}

/-- The pending request is loaded. -/
def Found (i requestId : ℕ) (c : Call) (r : TimeOffRequest) (L : Logged Call World) : Prop :=
  r.status = .pending ∧ Progress i c []
    [(.request requestId, some (.request r.facts), some (.request r.facts))] L

/-- Its new status is saved. -/
def Saved (i requestId : ℕ) (c : Call) (target : RequestStatus) (r : TimeOffRequest)
    (L : Logged Call World) : Prop :=
  r.status = .pending ∧ Progress i c [.request requestId]
    [(.request requestId, some (.request r.facts),
      some (.request { r.facts with status := target }))] L

/-- Its days have left the pending ones of its balance. -/
def DaysMoved (i requestId : ℕ) (c : Call) (target : RequestStatus)
    (patch : Num → EmployeeBalance → BalancePatch) (r : TimeOffRequest) (L : Logged Call World) :
    Prop :=
  r.status = .pending ∧ ∃ b, r.daysRequested ≤ b.pendingBalance ∧
    Progress i c [.balance r.balanceKey, .request requestId]
      [(.balance r.balanceKey, some (.balance b),
          some (.balance (savedBalance (patch (some r.daysRequested) b) b))),
        (.request requestId, some (.request r.facts),
          some (.request { r.facts with status := target }))] L

theorem found_step {x : Except Err (Option TimeOffRequest)} (hp : Progress i c [] [] L)
    (h : OrderStep cfg start i (.tx (.db (.findRequest requestId))) L x L') :
    OrderKept cfg start i L L' ∧
      ∀ r, x = .ok (some r) → r.status = .pending → Found i requestId c r L' := by
  obtain ⟨hkept, _, hok⟩ := order_call h id
  refine ⟨hkept, fun r hx hpending => ⟨hpending, ?_⟩⟩
  obtain ⟨hres, rfl⟩ := hok _ hx
  have hcell : L.state.store.cell (.request requestId) = some (.request r.facts) :=
    cell_request.mpr ⟨r, Except.ok.inj hres, rfl⟩
  have hheld := held_of_read (x := .request requestId) h.1.separate (h.2.1 _ rfl) hp.writes
    List.not_mem_nil (List.mem_singleton_self _) rfl
  rw [hcell] at hheld
  exact (hp.read rfl).add hheld

theorem saved_step {x : Except Err Unit} {p : RequestPatch} (hstatus : p.status = some target)
    (hf : Found i requestId c r L)
    (h : OrderStep cfg start i (.tx (.db (.saveRequest requestId p))) L x L') :
    OrderKept cfg start i L L' ∧ (x = .ok () → Saved i requestId c target r L') := by
  have hheld := hf.2.held _ (List.mem_singleton_self _)
  obtain ⟨row, hrow, hfacts⟩ := cell_request.mp hheld.now
  -- the row is saved with the new status, and with no other fact
  have hnow : (L.state.db (.saveRequest requestId p)).2.store.cell (.request requestId) =
      some (.request { r.facts with status := target }) := by
    rw [← hfacts]
    refine cell_request.mpr ⟨_, request?_saveRequest_self hrow _, ?_⟩
    simp only [TimeOffRequest.facts, TimeOffRequest.core, RequestPatch.apply, hstatus,
      Option.getD_some]
  -- the days of the request are as they were, and no other cell has changed
  obtain ⟨hkept, _, hok⟩ := order_call h fun hs => by
    refine hs.of_change (fun y hy => cell_db L.state (by simpa [DbOp.writes] using hy))
      fun cell hcell => ?_
    cases hnow.symm.trans hcell
    have hsound : Cell.Sound (.request r.facts) := hs _ _ hheld.now
    exact hsound
  refine ⟨hkept, fun hx => ⟨hf.1, ?_⟩⟩
  obtain ⟨_, rfl⟩ := hok _ hx
  have hwritten := hheld.written hnow
  exact ((hf.2.drop (List.nil_subset _)).called (List.forall_mem_nil _) (fun _ hy => hy)
    (List.nil_subset _)).add hwritten

/-- Once the status is saved, the days are moved. -/
theorem moved_balance {move : BalanceMove} (hc : Decides c requestId target patch)
    (hsaved : Saved i requestId c target r L) :
    (moveDays r.balanceKey (.balanceNotFound move r.balanceKey)
      (pendingShortfall move r.balanceKey (some r.daysRequested))
      (patch (some r.daysRequested))).Holds (fun o => OrderStep cfg start i (.tx o)) (Relied i)
        (OrderKept cfg start i)
        (fun x t => x = .ok () → DaysMoved i requestId c target patch r t) L := by
  refine Prog.Holds.mono ?_ (moveDays_order (A := fun _ => True) (fun _ _ _ _ => trivial)
    (fun _ _ _ _ => trivial) hsaved.2 trivial (by simp) (fun t ht => ?_)
    fun b t _ _ hp hsolvent h => ?_)
  · intro x t h hx
    obtain ⟨_, b, hshort, _, hp⟩ := h hx
    refine ⟨hsaved.1, b, ?_, hp⟩
    unfold pendingShortfall at hshort
    split at hshort
    · cases hshort
    -- the guard of `moveDays` let it through, so enough days were pending
    · next hlt => simpa [Num.lt] using hlt
  · rw [List.mem_singleton.mp ht]
    simp
  · have hheld := hp.held _ (List.mem_singleton_self _)
    have hdays : Cell.Sound (.request { r.facts with status := target }) :=
      hsolvent _ _ hheld.now
    exact decides_available hc hdays h

theorem moved_relied (h : DaysMoved i requestId c target patch r L) (hR : Relied i L L') :
    DaysMoved i requestId c target patch r L' := by
  obtain ⟨hpending, b, henough, hp⟩ := h
  exact ⟨hpending, b, henough, hp.relied hR⟩

/-- The common course of the three transitions. -/
theorem transition_order {stamp : TimeOffRequest → ℕ → RequestPatch} {move : BalanceMove}
    (hc : Decides c requestId target patch) (hstamp : ∀ r now, (stamp r now).hcmSyncStatus = none)
    (hp : Progress i c [] [] L) :
    (transition requestId target stamp fun key days => moveDays key (.balanceNotFound move key)
      (pendingShortfall move key days) (patch days)).Holds
        (fun o => OrderStep cfg start i (.tx o)) (Relied i) (OrderKept cfg start i)
        (fun x t => ∀ request, x = .ok request →
          ∃ r, DaysMoved i requestId c target patch r t) L := by
  refine Prog.Holds.mono ?_ (holds_transition (Found i requestId c) (Saved i requestId c target)
    (DaysMoved i requestId c target patch) hstamp ?_ ?_ ?_ ?_)
  · intro x t h request hx
    obtain ⟨r, _, _, hmoved⟩ := h request hx
    exact ⟨r, hmoved⟩
  · intro L₁ hR x L₂ hs
    exact found_step (hp.relied hR) hs
  · intro r t hf L₁ hR x L₂ hs
    obtain ⟨hkept, hR'⟩ := order_now hs
    exact ⟨hkept, hf.1, (hf.2.relied hR).relied hR'⟩
  · intro r t hf L₁ hR p x L₂ hstatus _ hs
    exact saved_step hstatus ⟨hf.1, hf.2.relied hR⟩ hs
  · exact fun r t hsaved => moved_balance hc hsaved

/-- What a transition must find for its commit to be in order. -/
theorem moved_advance (hc : Decides c requestId target patch) (hL : InOrder cfg start L)
    (h : DaysMoved i requestId c target patch r L) :
    Advance cfg L.state.settled (L.state.commit i).settled c := by
  obtain ⟨hpending, b, henough, hp⟩ := h
  -- what it holds it found settled, and its commit settles what it has made of it
  obtain ⟨hbalance, hmoved⟩ := (hp.held _ List.mem_cons_self).commit hL.separate
  obtain ⟨hfound, hrequest⟩ :=
    (hp.held _ (List.mem_cons_of_mem _ List.mem_cons_self)).commit hL.separate
  refine .decide hc ⟨hfound, hpending, hbalance, henough, hrequest, hmoved, fun x hx hx' => ?_⟩
  exact hp.writes.commit hL.separate (by simpa using ⟨hx', hx⟩)

end Transition

section Transaction

variable {cfg : Config} {start : Store} {i requestId : ℕ} {c : Call} {target : RequestStatus}
  {patch : Num → EmployeeBalance → BalancePatch} {L L' : Logged Call World}

/-- Process `i` runs the call `c` and has no transaction open. -/
def Idle (i : ℕ) (c : Call) (L : Logged Call World) : Prop :=
  L.calls i = some c ∧ L.state.entriesOf i = []

theorem Idle.relied (h : Idle i c L) (hR : Relied i L L') : Idle i c L' :=
  ⟨hR.2.trans h.1, hR.1.entries.trans h.2⟩

theorem Idle.progress (h : Idle i c L) : Progress i c [] [] L := by
  refine ⟨h.1, fun e he => ?_, fun _ ht => (nomatch ht)⟩
  rw [h.2] at he
  cases he

/-- The rule of a transaction whose callback ends ready to commit in order. -/
theorem order_transaction {β : Type} {body : Tx β} (Ready : β → Logged Call World → Prop)
    (hbody : ∀ t, Idle i c t → body.Holds (fun o => OrderStep cfg start i (.tx o)) (Relied i)
      (OrderKept cfg start i) (fun x u => ∀ v, x = .ok v → Ready v u) t)
    (hrelied : ∀ v t t', Ready v t → Relied i t t' → Ready v t')
    (hadvance : ∀ v t, Ready v t → InOrder cfg start t →
      Advance cfg t.state.settled (t.state.commit i).settled c)
    (hL : Idle i c L) :
    (flattenTransaction body).Holds (OrderStep cfg start i) (Relied i) (OrderKept cfg start i)
      (fun _ t => Idle i c t) L := by
  -- a process runs the same call to its end
  have hcalls (o : FlatOp) (t : Logged Call World) (x : Except Err o.Resp)
      (t' : Logged Call World) (ht : t.calls i = some c) (hs : OrderStep cfg start i o t x t') :
      t'.calls i = some c := by
    obtain ⟨_, _, _, _, _, rfl⟩ := hs
    exact ht
  refine holds_flattenTransaction (Idle i c) (fun v t => Ready v t ∧ t.calls i = some c)
    (fun t => t.calls i = some c) ?_ (fun t ht => ?_) ?_ ?_
  · rintro t hR x t' ⟨hin, _, y, w, hy, rfl⟩
    have ht := hL.relied hR
    rw [begin_cases hy]
    have hquiet : commits .begin y = false := rfl
    rw [hquiet]
    exact ⟨(orderKept_aside hin rfl rfl i).1, fun _ _ => ht, fun _ _ => ht.1⟩
  · refine Prog.Holds.mono ?_ (Prog.Holds.frame (fun t => t.calls i = some c)
      (fun _ _ hR h => hR.2.trans h) (fun o t x t' h hs => hcalls (.tx o) t x t' h hs) ht.1
      (hbody t ht))
    intro x u hu
    exact ⟨fun v hv => ⟨hu.1 v hv, hu.2⟩, fun _ _ => hu.2⟩
  · rintro v t ht u hR x u' ⟨hin, _, y, w, hy, rfl⟩
    have hcall : u.calls i = some c := hR.2.trans ht.2
    rcases commit_cases hy with ⟨_, _, rfl, rfl⟩ | ⟨rfl, rfl⟩
    · -- the commit has failed, so that it is not in the log
      have hquiet : commits .commit y = false := by
        cases y with
        | go => cases hy
        | _ => rfl
      rw [hquiet]
      exact ⟨(orderKept_aside hin rfl rfl i).1, fun _ h => (nomatch h), fun _ _ => hcall⟩
    · have hmark : commits .commit y = true := by
        cases y with
        | go => rfl
        | fail code message => cases hy
        | _ => cases hy
      rw [hmark]
      refine ⟨order_commit hin hcall (hadvance v u (hrelied v t u ht.1 hR) hin),
        fun _ _ => ⟨hcall, entriesOf_closed rfl⟩, fun _ h => nomatch h⟩
  · rintro t ht u hR x u' ⟨hin, _, y, w, hy, rfl⟩
    obtain ⟨_, rfl⟩ := rollback_cases hy
    have hquiet : commits .rollback y = false := rfl
    rw [hquiet]
    exact ⟨order_rollback hin i, fun _ => ⟨hR.2.trans ht, entriesOf_closed rfl⟩⟩

/-- A call that is one transaction and decides a request. -/
theorem order_decides {body : Tx RequestBody} (hc : Decides c requestId target patch)
    (hbody : ∀ t, Progress i c [] [] t → body.Holds (fun o => OrderStep cfg start i (.tx o))
      (Relied i) (OrderKept cfg start i)
      (fun x u => ∀ v, x = .ok v → ∃ r, DaysMoved i requestId c target patch r u) t)
    (hL : Idle i c L) :
    (((Svc.transaction body).bind fun v => .ret (some v)).interp flatten).Holds
      (OrderStep cfg start i) (Relied i) (OrderKept cfg start i) (fun _ _ => True) L := by
  refine holds_transaction (Prog.Holds.mono ?_ (order_transaction
    (fun _ u => ∃ r, DaysMoved i requestId c target patch r u)
    (fun t ht => hbody t ht.progress) ?_ ?_ hL))
  · rintro (e | v) t _ <;> trivial
  · intro _ t t' h hR
    obtain ⟨r, hmoved⟩ := h
    exact ⟨r, moved_relied hmoved hR⟩
  · intro _ t h hin
    obtain ⟨r, hmoved⟩ := h
    exact moved_advance hc hin hmoved

theorem order_approve (cfg : Config) (start : Store) {approverId : String}
    (hL : Idle i (.approve requestId approverId) L) :
    (((Call.approve requestId approverId).svc cfg).interp flatten).Holds (OrderStep cfg start i)
      (Relied i) (OrderKept cfg start i) (fun _ _ => True) L := by
  refine order_decides (.approve requestId approverId) (fun t ht => ?_) hL
  refine Prog.Holds.bind (Prog.Holds.mono ?_
    (transition_order (.approve requestId approverId) (fun _ _ => rfl) ht))
  rintro (e | request) u hu
  · exact fun _ h => nomatch h
  obtain ⟨r, hmoved⟩ := hu request rfl
  dsimp only [Prog.after]
  refine tx_setImmediate_bind ?_
  intro u₁ hR x u₂ hs
  obtain ⟨hkept, hR'⟩ := order_setImmediate hs
  refine ⟨hkept, ?_⟩
  cases x with
  | error e => exact fun _ h => nomatch h
  | ok _ => exact fun _ _ => ⟨r, moved_relied (moved_relied hmoved hR) hR'⟩

theorem order_reject (cfg : Config) (start : Store) {approverId reason : String}
    (hL : Idle i (.reject requestId approverId reason) L) :
    (((Call.reject requestId approverId reason).svc cfg).interp flatten).Holds
      (OrderStep cfg start i) (Relied i) (OrderKept cfg start i) (fun _ _ => True) L := by
  refine order_decides (.reject requestId approverId reason) (fun t ht => ?_) hL
  refine Prog.Holds.bind (Prog.Holds.mono ?_
    (transition_order (.reject requestId approverId reason) (fun _ _ => rfl) ht))
  rintro (e | request) u hu
  · exact fun _ h => nomatch h
  · exact fun _ _ => hu request rfl

theorem order_cancel (cfg : Config) (start : Store) {reason : Option String}
    (hL : Idle i (.cancel requestId reason) L) :
    (((Call.cancel requestId reason).svc cfg).interp flatten).Holds (OrderStep cfg start i)
      (Relied i) (OrderKept cfg start i) (fun _ _ => True) L := by
  refine order_decides (.cancel requestId reason) (fun t ht => ?_) hL
  refine Prog.Holds.bind (Prog.Holds.mono ?_
    (transition_order (.cancel requestId reason) (fun _ _ => rfl) ht))
  rintro (e | request) u hu
  · exact fun _ h => nomatch h
  · exact fun _ _ => hu request rfl

end Transaction

end TimeOff
