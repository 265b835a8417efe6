import TimeOff.Ledger
import TimeOff.LocalFirst
import TimeOff.SerialCreates

/-! Creates, approvals, rejections and cancellations over transactions that nothing isolates: as
long as no two open ones clash, they do what the committed calls do one after another. -/
namespace TimeOff

open Async

section Runs

/-- The calls of `TimeOffService`, its tasks and the worker. -/
def Call.ofTimeOff : Call → Bool
  | .upsert _ _ => false
  | .reconcile _ => false
  | .realTime _ _ _ => false
  | _ => true

/-- Only such calls start, and no call of the database in a transaction clashes with one that
another open transaction has made. -/
def isolated (P : Pool Call FlatOp FlatOp.Resp Err (Option RequestBody) World) :
    Act Call Choice Env → Bool
  | .start c => c.ofTimeOff
  | .step i _ =>
    match P.procs i with
    | some ⟨_, .tx (.db d), _⟩ => decide (P.shared.Isolated i d)
    | _ => true
  | _ => true

variable {cfg : Config} {start : Store} {i : ℕ} {c : Call} {L : Logged Call World}
  {P : Pool Call FlatOp FlatOp.Resp Err (Option RequestBody) (Logged Call World)}

theorem isolated_step {x : Choice} {w : Waiting Call FlatOp FlatOp.Resp Err (Option RequestBody)}
    (h : isolated P.erased (.step i x) = true) (hw : P.procs i = some w) (d : DbOp)
    (hd : w.op = .tx (.db d)) : P.shared.state.Isolated i d := by
  obtain ⟨c, o, k⟩ := w
  subst hd
  dsimp only [isolated, Pool.erased] at h
  rw [hw] at h
  exact of_decide_eq_true h

theorem order_code (cfg : Config) (start : Store) (hc : c.ofTimeOff = true) (hL : Idle i c L) :
    ((c.svc cfg).interp flatten).Holds (OrderStep cfg start i) (Relied i) (OrderKept cfg start i)
      (fun _ _ => True) L := by
  cases c with
  | create dto idempotencyKey => exact order_create cfg start hL
  | approve requestId approverId => exact order_approve cfg start hL
  | reject requestId approverId reason => exact order_reject cfg start hL
  | cancel requestId reason => exact order_cancel cfg start hL
  | retrySyncs =>
    refine order_background cfg start i (fun o ho => ?_) L
    cases ho with
    | retrySyncs h => exact h
  | task t =>
    refine order_background cfg start i (fun o ho => ?_) L
    cases ho with
    | task _ h => exact h
  | _ => cases hc

/-- The processes that have not started have no transaction open. -/
def serialCalls (cfg : Config) (start : Store) :
    RelyGuarantee ((flatMachine cfg).logged commits) fun P a => isolated P.erased a = true where
  Inv n L := InOrder cfg start L ∧ ∀ j, n ≤ j → L.state.entriesOf j = []
  stepRel i _ := OrderStep cfg start i
  rely i _ := Relied i
  guar i _ := OrderKept cfg start i
  post _ _ _ _ := True
  rely_refl := .refl _ _
  rely_trans := .trans
  -- only the choices that kept isolation count, so the step is one of `isolated_step`
  step_of hI hC hw hx := by
    obtain ⟨⟨r, w⟩, hexec, heq⟩ := Option.map_eq_some_iff.mp hx
    cases heq
    exact ⟨hI.1, isolated_step hC hw, _, w, hexec, rfl⟩
  guar_inv hi hI h := by
    refine ⟨h.1, fun j hj => ?_⟩
    have hne := (lt_of_lt_of_le hi hj).ne'
    exact (h.2 j hne).1.entries.trans (hI.2 j hj)
  guar_rely hne _ h := h.2 _ hne.symm
  -- the answer of a call is written down in no table
  finish_guar {_ i c r L} hI _ :=
    (orderKept_aside (w := World.finish i c r L.state) hI.1 rfl rfl i).1
  accept_inv {P c L'} hI _ hs := by
    obtain ⟨w, hw, rfl⟩ := Option.map_eq_some_iff.mp hs
    obtain ⟨hstore, hjournal, _⟩ := accept_frame hw
    have hin := (orderKept_aside hI.1 hjournal hstore P.next).1.1
    refine ⟨⟨hin.separate, hin.serial, hin.once, hin.closed, hin.solvent⟩, fun j hj => ?_⟩
    rw [World.entriesOf, hjournal]
    exact hI.2 j (Nat.le_of_succ_le hj)
  accept_rely {P c L' j d} hj hI _ hs := by
    obtain ⟨w, hw, rfl⟩ := Option.map_eq_some_iff.mp hs
    obtain ⟨hstore, hjournal, _⟩ := accept_frame hw
    refine ⟨((orderKept_aside hI.1 hjournal hstore P.next).1.2 j hj.ne).1, ?_⟩
    exact Function.update_of_ne hj.ne _ _
  accept_holds {P c L'} hI hC hs := by
    obtain ⟨w, hw, rfl⟩ := Option.map_eq_some_iff.mp hs
    refine order_code cfg start hC ⟨Function.update_self _ _ _, ?_⟩
    rw [World.entriesOf, (accept_frame hw).2.1]
    exact hI.2 P.next (le_refl _)
  env_inv {P e L'} hI _ hs := by
    obtain ⟨w, hw, rfl⟩ := Option.map_eq_some_iff.mp hs
    obtain ⟨hstore, hsame⟩ := env_sameCalls hw
    refine ⟨(orderKept_aside hI.1 hsame.journal hstore P.next).1.1, fun j hj => ?_⟩
    rw [World.entriesOf, hsame.journal]
    exact hI.2 j hj
  env_rely {P e L' j d} hI _ hs := by
    obtain ⟨w, hw, rfl⟩ := Option.map_eq_some_iff.mp hs
    obtain ⟨hstore, hsame⟩ := env_sameCalls hw
    exact (orderKept_aside hI.1 hsame.journal hstore j).2
  -- a crash undoes what is open, and what is left is the committed order
  halt_inv hI _ := ⟨order_crash hI.1, fun _ _ => rfl⟩

theorem inOrder_init (cfg : Config) (start : Store) (clock nextId : ℕ) (hcm : MockHcm) :
    InOrder cfg start (.init (World.init start clock nextId hcm)) :=
  ⟨⟨fun _ he => (nomatch he), fun _ he => nomatch he⟩, ⟨start, .nil, fun _ => rfl⟩,
    List.nodup_nil, fun _ hid => (nomatch hid), fun h => ⟨h, h⟩⟩

theorem inOrder_of_isolated {clock nextId : ℕ} {hcm : MockHcm}
    (hP : ((flatMachine cfg).logged commits).Reach (fun P a => isolated P.erased a = true)
      (Pool.init (.init (World.init start clock nextId hcm))) P) : InOrder cfg start P.shared := by
  have hinv : InOrder cfg start (.init (World.init start clock nextId hcm)) ∧
      ∀ j, 0 ≤ j → (World.init start clock nextId hcm).entriesOf j = [] :=
    ⟨inOrder_init cfg start clock nextId hcm, fun _ _ => rfl⟩
  exact ((serialCalls cfg start).good_of_reach hinv hP).inv.1

/-- Two tables have the same balances and the same requests in the same states. -/
def SameRows (s s' : Store) : Prop :=
  (∀ key, s.balance? key = s'.balance? key) ∧
    ∀ id, (s.request? id).map TimeOffRequest.status = (s'.request? id).map TimeOffRequest.status

theorem sameRows_of_cells {s s' : Store} (h : SameCells s s') : SameRows s s' := by
  refine ⟨fun key => balance?_of_cell (h _), fun id => ?_⟩
  rw [status_of_cell, status_of_cell, h]

/-- Without the log too: what no open transaction wrote is the work of calls in turn. -/
theorem isolated_in_turn (cfg : Config) (start : Store) (clock nextId : ℕ) (hcm : MockHcm)
    {P : Pool Call FlatOp FlatOp.Resp Err (Option RequestBody) World}
    (hP : (flatMachine cfg).Reach (fun P a => isolated P a = true)
      (Pool.init (World.init start clock nextId hcm)) P) :
    ∃ calls s, InTurn cfg start calls s ∧ SameRows s P.shared.settled := by
  obtain ⟨Q, rfl, hQ⟩ := Machine.reach_logged commits hP
  obtain ⟨s, hturn, hs⟩ := (inOrder_of_isolated hQ).serial
  exact ⟨Q.shared.log, s, hturn, sameRows_of_cells hs⟩

/-- The tables, less what the open transactions wrote, are those that the committed calls leave
when they run one after another in some order; no two of these took the same request out of
PENDING; each decision that has answered is one of them; and unless a balance is overdrawn at the
start, none is. -/
structure Serialised (cfg : Config) (start : Store) (L : Logged Call World) : Prop where
  order : ∃ calls s, calls.Perm L.log ∧ InTurn cfg start calls s ∧ SameRows s L.state.settled
  once : (L.log.filterMap Call.decides).Nodup
  answered : Answered L
  enough : (∀ b ∈ start.balances, 0 ≤ b.availableBalance) →
    (∀ r ∈ start.requests, 0 ≤ r.daysRequested) →
      ∀ b ∈ L.state.store.balances, 0 ≤ b.availableBalance

/-- In any interleaving in which no two open transactions clash, the calls are serialised. -/
theorem serialised_if_isolated (cfg : Config) (start : Store) (clock nextId : ℕ) (hcm : MockHcm)
    (hP : ((flatMachine cfg).logged commits).Reach (fun P a => isolated P.erased a = true)
      (Pool.init (.init (World.init start clock nextId hcm))) P) :
    Serialised cfg start P.shared := by
  have hin := inOrder_of_isolated hP
  have hanswered : Answered (Logged.init (World.init start clock nextId hcm)) :=
    fun _ _ h => nomatch h
  obtain ⟨s, hturn, hs⟩ := hin.serial
  refine ⟨⟨P.shared.log, s, .refl _, hturn, sameRows_of_cells hs⟩, hin.once,
    ((answeredCalls cfg _).good_of_reach hanswered hP).inv, fun hbalances hrequests => ?_⟩
  exact (solvent_iff.mp (hin.solvent (solvent_iff.mpr ⟨hbalances, hrequests⟩)).1).1

/-- Days of one employee wait for their approval, and another has ten. -/
def oneWaitingOfTwo : Store :=
  { oneWaiting with
    balances := oneWaiting.balances ++
      [⟨⟨"EMP456", "LOC1", "VACATION"⟩, 10, 10, 0, 0, 10, none, none, false, none, 1⟩]
    balanceKeys := by decide }

/-- While a creation for the other one has read and not yet booked, the days are approved. -/
def approvedMeanwhile : List (Act Call Choice Env) :=
  .start (.create ⟨"EMP456", "LOC1", "VACATION", "2030-03-04", "2030-03-04", none⟩ "key-2") ::
    List.replicate 9 (.step 0 .go) ++ .start (.approve 0 "MGR1") ::
      List.replicate 8 (.step 1 .go) ++ List.replicate 7 (.step 0 .go)

theorem approvedMeanwhile_runs :
    (((flatMachine plainConfig).logged commits).run (fun P a => isolated P.erased a = true)
      (Pool.init (.init (World.init oneWaitingOfTwo 1000 1 (.init [])))) approvedMeanwhile).isSome =
        true := by
  decide +kernel

theorem approvedMeanwhile_serialised :
    ∃ P, ((flatMachine plainConfig).logged commits).run (fun P a => isolated P.erased a = true)
        (Pool.init (.init (World.init oneWaitingOfTwo 1000 1 (.init [])))) approvedMeanwhile =
          some P ∧
      P.shared.log.map Call.decides = [some 0, none] ∧
        Serialised plainConfig oneWaitingOfTwo P.shared := by
  have hrun := (Option.some_get approvedMeanwhile_runs).symm
  refine ⟨_, hrun, by decide +kernel, ?_⟩
  exact serialised_if_isolated plainConfig oneWaitingOfTwo 1000 1 (.init [])
    (Machine.reach_of_run .refl hrun)

theorem alone_ledger {s s' : Store} (hc : c.ofTimeOff = true) (h : Alone cfg c s s')
    (hs : Ledger s) : Ledger s' := by
  obtain ⟨clock, nextId, hcm, w, body, heval, rfl⟩ := h
  have hnonneg : createsNonneg (World.init s clock nextId hcm) c = true := by
    cases c with
    | upsert key total => cases hc
    | reconcile hcmRecord => cases hc
    | _ => rfl
  have hexec (o : Op) (u : World) (x : Except Err o.Resp × World) (ho : Op.quiet 0 o u = some x) :
      ∃ y, Op.exec 0 o y u = some x := quiet_exec ho
  obtain ⟨cs, hplay⟩ := Prog.play_of_eval hexec heval
  exact Prog.Holds.play_inv (fun w => Ledger w.store) (fun _ => rfl) (fun o c s r s' hs => ⟨c, hs⟩)
    (call_keeps hnonneg) hs hplay

/-- Calls that run one after another keep the ledger. -/
theorem inTurn_ledger {calls : List Call} {s : Store} (h : InTurn cfg start calls s)
    (hcalls : ∀ c ∈ calls, c.ofTimeOff = true) (hstart : Ledger start) : Ledger s := by
  induction h with
  | nil => exact hstart
  | @next calls s s' c h hc ih =>
    have hs : Ledger s := ih fun c' hc' => hcalls c' (List.mem_append_left _ hc')
    exact alone_ledger (hcalls c (List.mem_append_right _ (List.mem_singleton_self c))) hc hs

/-- Nothing but the calls of the service is started. -/
def served (_ : Pool Call FlatOp FlatOp.Resp Err (Option RequestBody) World) :
    Act Call Choice Env → Bool
  | .start c => c.ofTimeOff
  | _ => true

theorem oneWaiting_ledger : Ledger oneWaiting := by
  refine ⟨fun b hb => ?_, fun r hr => ?_, fun r hr => ?_⟩
  · obtain rfl := List.mem_singleton.mp hb
    exact ⟨by decide +kernel, by decide +kernel, by decide +kernel, by decide +kernel⟩
  · obtain rfl := List.mem_singleton.mp hr
    decide +kernel
  · obtain rfl := List.mem_singleton.mp hr
    exact ⟨_, List.mem_singleton_self _, rfl⟩

/-- A creation loads a balance, on which a request is approved before the creation saves it. -/
def approvalOverwritten : List (Act Call Choice Env) :=
  .start (.create (plainDto "2030-01-14" "2030-01-14") "key-2") ::
    List.replicate 9 (.step 0 .go) ++ .start (.approve 0 "MGR1") ::
      List.replicate 8 (.step 1 .go) ++ List.replicate 7 (.step 0 .go)

theorem approvalOverwritten_runs :
    (((flatMachine plainConfig).logged commits).run (fun P a => served P.erased a = true)
      (Pool.init (.init (World.init oneWaiting 1000 1 (.init [])))) approvalOverwritten).isSome =
        true := by
  decide +kernel

/-- The days that the approval takes out of pending are back, and used as well. -/
theorem approval_overwritten :
    ¬ ∀ (cfg : Config) (start : Store) (clock nextId : ℕ) (hcm : MockHcm)
      (P : Pool Call FlatOp FlatOp.Resp Err (Option RequestBody) (Logged Call World)),
      ((flatMachine cfg).logged commits).Reach (fun P a => served P.erased a = true)
        (Pool.init (.init (World.init start clock nextId hcm))) P →
          Serialised cfg start P.shared := by
  intro h
  obtain ⟨calls, s, hperm, hturn, hbalances, _⟩ := (h plainConfig oneWaiting 1000 1 (.init []) _
    (Machine.reach_of_run .refl (Option.some_get approvalOverwritten_runs).symm)).order
  have hcalls : ∀ c ∈ calls, c.ofTimeOff = true := by
    intro c hc
    have hall : ((((flatMachine plainConfig).logged commits).run
        (fun P a => served P.erased a = true)
        (Pool.init (.init (World.init oneWaiting 1000 1 (.init [])))) approvalOverwritten).get
          approvalOverwritten_runs).shared.log.all Call.ofTimeOff = true := by
      decide +kernel
    exact List.all_eq_true.mp hall c (hperm.mem_iff.mp hc)
  -- in turn the calls keep available + pending + used = total, which the run has broken
  have hledger : Ledger s := inTurn_ledger hturn hcalls oneWaiting_ledger
  have hrow : ((((flatMachine plainConfig).logged commits).run (fun P a => served P.erased a = true)
      (Pool.init (.init (World.init oneWaiting 1000 1 (.init [])))) approvalOverwritten).get
        approvalOverwritten_runs).shared.state.settled.balance? plainKey =
          some ⟨plainKey, 10, 7, 3, 2, 10, none, none, false, none, 3⟩ := by
    decide +kernel
  have htotal := (hledger.balanced _ (Store.balance?_eq_some.mp
    ((hbalances plainKey).trans hrow)).1).total
  norm_num at htotal

end Runs

end TimeOff
