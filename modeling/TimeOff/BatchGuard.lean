import TimeOff.AsyncPool
import TimeOff.BatchSync
import TimeOff.Transitions

/-! The guard of the batch: runs and triggers interleave at every await, and any awaited
operation may fail. -/
namespace TimeOff

open Async

section Machine

/-- The nightly job, a run that left the `setImmediate` queue, or the admin's trigger. -/
inductive BatchCall
  | run
  | immediate
  | trigger
  deriving DecidableEq

def BatchCall.code (rt : Runtime) : BatchCall → Batch (Option TriggerReply)
  | .run => (runBatchSync rt).bind fun _ => .ret none
  | .immediate => (runBatchSync rt).bind fun _ => .ret none
  | .trigger => triggerManualBatchSync.bind fun reply => .ret (some reply)

/-- What happens besides: time passes, and other code writes the tables. -/
inductive BatchEnv
  | tick (ms : ℕ)
  | write (store : Store)

def batchMachine (rt : Runtime) : Machine BatchCall BatchOp BatchOp.Resp BatchErr
    (Option TriggerReply) BatchChoice BatchEnv BatchState where
  code := BatchCall.code rt
  accept _ c s :=
    match c with
    -- a run comes from the timer, or from an immediate that a trigger has queued
    | .immediate =>
      if s.immediates = 0 then none else some { s with immediates := s.immediates - 1 }
    | _ => some s
  exec _ o x s := o.exec rt x s
  finish _ _ _ s := s
  env e s :=
    match e with
    -- a restart of the process clears the flag
    | .tick ms => some { s with clock := s.clock + ms }
    | .write store => some { s with store := store }
  halt s := { s with batchRunning := false, immediates := 0 }

abbrev BatchPool := Pool BatchCall BatchOp BatchOp.Resp BatchErr (Option TriggerReply) BatchState

abbrev BatchAct := Act BatchCall BatchChoice BatchEnv

/-- The run has passed the test of the flag and has not ended. -/
def InProgress (P : BatchPool) (i : ℕ) : Prop :=
  ∃ w, P.procs i = some w ∧ w.call ≠ .trigger ∧ w.op ≠ .enter

structure GuardKept (P : BatchPool) : Prop where
  one : ∀ i j, InProgress P i → InProgress P j → i = j
  free : (∀ i, ¬ InProgress P i) → P.shared.batchRunning = false

def BatchOp.isSaveSyncLog : BatchOp → Bool
  | saveSyncLog _ => true
  | _ => false

/-- The step is not the failure of a run to save its `STARTED` log. -/
def LogSaved (P : BatchPool) : BatchAct → Prop
  | .step i (.fail _) => ∀ w ∈ P.procs i, w.op.isSaveSyncLog = false
  | _ => True

end Machine

section Shapes

variable {rt : Runtime}

/-- The operations between the log's insertion and the `finally` block. -/
def BatchOp.inner : BatchOp → Bool
  | enter | leave | saveSyncLog _ => false
  | _ => true

theorem each_ofExcept {β : Type} {φ : BatchOp → Prop} (r : Except BatchErr β) :
    (Prog.ofExcept r : Batch β).Each φ := by
  cases r <;> trivial

theorem each_call {o : BatchOp} (h : o.inner = true) : (Batch.call o).Each (·.inner = true) :=
  Prog.Each.perform h

theorem reconcileElement_inner (hcmRecord : Json) :
    (reconcileElement rt hcmRecord).Each (·.inner = true) := by
  refine (each_ofExcept _).bind fun r => (each_ofExcept _).bind fun hcmTotal => ?_
  refine (each_ofExcept _).bind fun columns => (each_call rfl).bind fun localBalance => ?_
  refine (each_ofExcept _).bind fun version => (each_call rfl).bind fun now => ?_
  cases localBalance with
  | none => exact (each_call rfl).bind fun _ => trivial
  | some localBalance => exact (each_call rfl).bind fun _ => trivial

theorem batchFailed_inner (syncLog : ℕ) (t : Tally) (err : BatchErr) :
    (batchFailed syncLog t err).Each (·.inner = true) :=
  (each_call rfl).bind fun _ => each_call rfl

theorem tryStep_inner {β : Type} {syncLog : ℕ} {t : Tally} {p : Batch β} {next : β → Batch Unit}
    (hp : p.Each (·.inner = true)) (hnext : ∀ v, (next v).Each (·.inner = true)) :
    (tryStep syncLog t p next).Each (·.inner = true) := by
  refine hp.attempt.bind fun r => ?_
  cases r with
  | ok v => exact hnext v
  | error err => exact batchFailed_inner syncLog t err

theorem reconcileEach_inner {syncLog : ℕ} {next : Tally → Batch Unit}
    (hnext : ∀ t, (next t).Each (·.inner = true)) (records : List Json) (t : Tally) :
    (reconcileEach rt syncLog next records t).Each (·.inner = true) := by
  induction records generalizing t with
  | nil => exact hnext t
  | cons hcmRecord rest ih =>
    refine (reconcileElement_inner hcmRecord).attempt.bind fun updated => ?_
    cases ht : t.record hcmRecord updated with
    | ok t' =>
      exact ih t'
    | error err =>
      exact batchFailed_inner _ _ _

theorem omitEach_inner {hcmKeySet : List String} {syncLog : ℕ} {next : Tally → Batch Unit}
    (hnext : ∀ t, (next t).Each (·.inner = true)) (rows : List EmployeeBalance) (t : Tally) :
    (omitEach hcmKeySet syncLog next rows t).Each (·.inner = true) := by
  induction rows generalizing t with
  | nil => exact hnext t
  | cons localBalance rest ih =>
    unfold omitEach
    split
    · exact ih t
    · exact tryStep_inner ((each_call rfl).bind fun _ => each_call rfl) fun _ => ih _

theorem syncBalances_inner (syncLog : ℕ) :
    (syncBalances rt syncLog).Each (·.inner = true) := by
  have hcompleted (t : Tally) : (batchCompleted syncLog t).Each (·.inner = true) :=
    tryStep_inner ((each_call rfl).bind fun _ => each_call rfl) fun _ => trivial
  have hload : (do
      let hcmBalances ← Batch.call .getBatchBalances
      let records ← .ofExcept (payloadRecords hcmBalances)
      let hcmKeySet ← .ofExcept (hcmKeySetOf rt records)
      return (records, hcmKeySet) : Batch (List Json × List String)).Each (·.inner = true) :=
    (each_call rfl).bind fun _ => (each_ofExcept _).bind fun _ => (each_ofExcept _).bind
      fun _ => trivial
  refine tryStep_inner hload fun v => reconcileEach_inner (fun t => ?_) v.1 .zero
  exact tryStep_inner (each_call rfl) fun rows => omitEach_inner hcompleted rows t

/-- What an operation can end with. -/
def BatchOp.may (o : BatchOp) (r : Except BatchErr o.Resp) : Prop :=
  o.awaited = false → ∃ v, r = .ok v

/-- The outcome after which a run ends without coming to its `finally` block. -/
def BatchOp.lost (o : BatchOp) (r : Except BatchErr o.Resp) : Prop :=
  o.isSaveSyncLog = true ∧ ∃ e, r = .error e

/-- The rest of a run that is in progress. -/
structure Holding {α : Type} (p : Batch α) : Prop where
  leaves : p.Until (· = .leave) BatchOp.may BatchOp.lost
  inside : p.Each (· ≠ .enter)

/-- A run that waits: at the flag, or in progress. -/
def RunShape {α : Type} : Batch α → Prop
  | .op .enter k => Holding (k (.ok true)) ∧ (k (.ok false)).Done
  | p => Holding p

theorem inner_keeps (o : BatchOp) (h : o.inner = true) :
    ¬ o = .leave ∧ ∀ r, ¬ o.lost r := by
  cases o <;> first | (cases h; done) | exact ⟨nofun, fun r hr => nomatch hr.1⟩

theorem inner_ne_enter (o : BatchOp) (h : o.inner = true) : o ≠ .enter := by
  rintro rfl
  cases h

theorem runBatchSync_shape {α : Type} (a : α) :
    RunShape ((runBatchSync rt).bind fun _ => (.ret a : Batch α)) := by
  have hleave : (Batch.call .leave).Until (· = .leave) BatchOp.may BatchOp.lost :=
    -- the last operation of a run
    .inl ⟨rfl, fun r => by cases r <;> trivial⟩
  have hbody (syncLog : ℕ) : ((syncBalances rt syncLog).ensuring (Batch.call .leave)).Until
      (· = .leave) BatchOp.may BatchOp.lost :=
    Prog.Until.ensuring ((syncBalances_inner syncLog).mono inner_keeps) hleave
  have hnow : ∀ r, ¬ BatchOp.now.lost r := fun r h => Bool.noConfusion h.1
  have hsaved (log : SyncLog) (id : ℕ) : ¬ (BatchOp.saveSyncLog log).lost (.ok id) := by
    rintro ⟨_, e, he⟩
    cases he
  refine ⟨⟨Prog.Until.bind ?_ fun _ => trivial, Prog.Each.bind ?_ fun _ => trivial⟩, trivial⟩
  -- the clock first, which cannot fail; then the save of the log
  · refine .inr ⟨nofun, fun r hr => .inr ⟨hnow r, ?_⟩⟩
    obtain ⟨startedAt, rfl⟩ := hr rfl
    refine .inr ⟨nofun, fun r _ => ?_⟩
    cases r with
    -- a failed save ends the run with the flag up: the lost outcome
    | error e => exact .inl ⟨⟨rfl, e, rfl⟩, trivial⟩
    | ok syncLog => exact .inr ⟨hsaved _ syncLog, hbody syncLog⟩
  · have hlog (log : SyncLog) : (Batch.call (.saveSyncLog log)).Each (· ≠ .enter) :=
      Prog.Each.perform nofun
    have htime : (Batch.call .now).Each (· ≠ .enter) := Prog.Each.perform nofun
    refine htime.bind fun startedAt => (hlog _).bind fun syncLog => ?_
    exact ((syncBalances_inner syncLog).mono inner_ne_enter).ensuring (Prog.Each.perform nofun)

/-- What a waiting process goes on with. -/
def ProcShape (w : Waiting BatchCall BatchOp BatchOp.Resp BatchErr (Option TriggerReply)) : Prop :=
  if w.call = .trigger then
    (Prog.op w.op w.next).Each fun o => o = .isRunning ∨ o = .setImmediate
  else RunShape (.op w.op w.next)

theorem code_shape (rt : Runtime) (c : BatchCall) :
    (c = .trigger ∧ (c.code rt).Each fun o => o = .isRunning ∨ o = .setImmediate) ∨
      (c ≠ .trigger ∧ ∃ k, c.code rt = .op .enter k ∧ RunShape (c.code rt)) := by
  cases c with
  | run => exact .inr ⟨nofun, _, rfl, runBatchSync_shape none⟩
  | immediate => exact .inr ⟨nofun, _, rfl, runBatchSync_shape none⟩
  | trigger =>
    refine .inl ⟨rfl, Prog.Each.bind (Prog.Each.bind (Prog.Each.perform (.inl rfl)) ?_)
      fun _ => trivial⟩
    intro running
    cases running with
    | true => trivial
    | false => exact Prog.Each.bind (Prog.Each.perform (.inr rfl)) fun _ => trivial

end Shapes

section Exec

variable {rt : Runtime} {o : BatchOp} {x : BatchChoice} {s s' : BatchState}
  {r : Except BatchErr o.Resp}

theorem exec_may (h : o.exec rt x s = some (r, s')) : o.may r := by
  intro ho
  cases o <;> cases x <;> simp [BatchOp.exec, BatchOp.awaited] at h ho <;> exact ⟨_, h.1.symm⟩

theorem insertBalance_running {columns : Columns} {hcmTotal : Num} {now : ℕ}
    {version : Option String} :
    (s.insertBalance rt columns hcmTotal now version).2.batchRunning = s.batchRunning := by
  unfold BatchState.insertBalance
  split
  · rfl
  · split <;> rfl

/-- Only the guard touches the flag. -/
theorem exec_running (henter : o ≠ .enter) (hleave : o ≠ .leave)
    (h : o.exec rt x s = some (r, s')) : s'.batchRunning = s.batchRunning := by
  have hs' : some s' = (o.exec rt x s).map Prod.snd := by rw [h]; rfl
  -- the insert runs on the tables, the others read their state back
  cases o with
  | enter => exact absurd rfl henter
  | leave => exact absurd rfl hleave
  | insertBalance columns hcmTotal now version =>
    cases x with
    | go =>
      cases hs'
      exact insertBalance_running
    | fail e =>
      cases hs'
      rfl
    | reply data => cases hs'
  | _ =>
    cases x <;> cases hs' <;> rfl

end Exec

section Invariant

variable {rt : Runtime} {P P' : BatchPool} {i : ℕ} {c : BatchCall} {s : BatchState}
  {p : Batch (Option TriggerReply)}

/-- A call of this kind that goes on with `p` is a run in progress. -/
def Progressing (c : BatchCall) (p : Batch (Option TriggerReply)) : Prop :=
  c ≠ .trigger ∧ ∃ o k, p = .op o k ∧ o ≠ .enter

structure Guarded (P : BatchPool) : Prop where
  old : Machine.Numbered P
  shape : ∀ i w, P.procs i = some w → ProcShape w
  flag : P.shared.batchRunning = true ↔ ∃ i, InProgress P i
  one : ∀ i j, InProgress P i → InProgress P j → i = j

theorem Guarded.guardKept (h : Guarded P) : GuardKept P where
  one := h.one
  free hnone := Bool.eq_false_iff.mpr fun hflag => by
    obtain ⟨i, hi⟩ := h.flag.mp hflag
    exact hnone i hi

theorem shared_settle : ((batchMachine rt).settle i c P s p).shared = s := by
  cases p <;> rfl

theorem inProgress_settle_of_ne {j : ℕ} (hne : j ≠ i) :
    InProgress ((batchMachine rt).settle i c P s p) j ↔ InProgress P j := by
  unfold InProgress
  rw [Machine.procs_settle_of_ne hne]

theorem inProgress_settle_self :
    InProgress ((batchMachine rt).settle i c P s p) i ↔ Progressing c p := by
  constructor
  · rintro ⟨w, hw, hcall, hop⟩
    obtain ⟨rfl, rfl⟩ := Machine.procs_settle_self hw
    exact ⟨hcall, _, _, rfl, hop⟩
  · rintro ⟨hcall, o, k, rfl, hop⟩
    exact ⟨⟨c, o, k⟩, Function.update_self _ _ _, hcall, hop⟩

/-- Process `i` goes on with `p`, and the flag says whether any run is in progress. -/
theorem Guarded.settle (h : Guarded P) (hi : i < P.next)
    (hshape : ∀ o k, p = .op o k → ProcShape ⟨c, o, k⟩)
    (hflag : s.batchRunning = true ↔ Progressing c p ∨ ∃ j, j ≠ i ∧ InProgress P j)
    (hone : Progressing c p → ∀ j, j ≠ i → ¬ InProgress P j) :
    Guarded ((batchMachine rt).settle i c P s p) := by
  -- what the pool says of `i` is what its program says; of the others nothing changes
  have hsome : (∃ j, InProgress ((batchMachine rt).settle i c P s p) j) ↔
      Progressing c p ∨ ∃ j, j ≠ i ∧ InProgress P j := by
    constructor
    · rintro ⟨j, hj⟩
      rcases eq_or_ne j i with rfl | hne
      · exact .inl (inProgress_settle_self.mp hj)
      · exact .inr ⟨j, hne, (inProgress_settle_of_ne hne).mp hj⟩
    · rintro (hp | ⟨j, hne, hj⟩)
      · exact ⟨i, inProgress_settle_self.mpr hp⟩
      · exact ⟨j, (inProgress_settle_of_ne hne).mpr hj⟩
  constructor
  · exact Machine.numbered_settle hi h.old
  · intro j w hj
    rcases eq_or_ne j i with rfl | hne
    · obtain ⟨rfl, hp⟩ := Machine.procs_settle_self hj
      exact hshape w.op w.next hp
    · rw [Machine.procs_settle_of_ne hne] at hj
      exact h.shape j w hj
  · rw [shared_settle, hsome]
    exact hflag
  -- two runs in progress would be `i` and another, or two others
  · intro j l hj hl
    rcases eq_or_ne j i with rfl | hne
    · rcases eq_or_ne l j with rfl | hne'
      · rfl
      · exact absurd ((inProgress_settle_of_ne hne').mp hl)
          (hone (inProgress_settle_self.mp hj) l hne')
    · rw [inProgress_settle_of_ne hne] at hj
      rcases eq_or_ne l i with rfl | hne'
      · exact absurd hj (hone (inProgress_settle_self.mp hl) j hne)
      · exact h.one j l hj ((inProgress_settle_of_ne hne').mp hl)

theorem runShape_of_holding {o : BatchOp}
    {k : Except BatchErr o.Resp → Batch (Option TriggerReply)} (h : Holding (.op o k)) :
    RunShape (.op o k) := by
  cases o with
  | enter => exact absurd rfl h.inside.1
  | _ => exact h

theorem progressing_of_holding (hc : c ≠ .trigger) (h : Holding p) : Progressing c p := by
  cases p with
  | ret a => exact h.leaves.elim
  | throw e => exact h.leaves.elim
  | op o k => exact ⟨hc, o, k, rfl, h.inside.1⟩

theorem not_progressing_of_done (h : p.Done) : ¬ Progressing c p := by
  rintro ⟨_, o, k, rfl, _⟩
  exact h

theorem Guarded.others (h : Guarded P) (hi : InProgress P i) : ∀ j, j ≠ i → ¬ InProgress P j :=
  fun j hne hj => hne (h.one j i hj hi)

/-- A process that is not a run in progress leaves the guard to the others. -/
theorem Guarded.flag_others (h : Guarded P) (hi : ¬ InProgress P i) :
    P.shared.batchRunning = true ↔ ∃ j, j ≠ i ∧ InProgress P j := by
  rw [h.flag]
  constructor
  · rintro ⟨j, hj⟩
    refine ⟨j, ?_, hj⟩
    rintro rfl
    exact hi hj
  · rintro ⟨j, _, hj⟩
    exact ⟨j, hj⟩

variable {w : Waiting BatchCall BatchOp BatchOp.Resp BatchErr (Option TriggerReply)}
  {x : BatchChoice} {s' : BatchState} {r : Except BatchErr w.op.Resp}

theorem guarded_trigger (h : Guarded P) (hw : P.procs i = some w) (hc : w.call = .trigger)
    (hexec : w.op.exec rt x P.shared = some (r, s')) :
    Guarded ((batchMachine rt).settle i w.call P s' (w.next r)) := by
  have hs := h.shape i w hw
  rw [ProcShape, if_pos hc] at hs
  have hrunning : s'.batchRunning = P.shared.batchRunning := by
    refine exec_running ?_ ?_ hexec
    -- a trigger reads the flag and queues a run; it neither raises nor lowers the flag
    · intro ho
      rcases hs.1 with h1 | h1 <;> rw [ho] at h1 <;> cases h1
    · intro ho
      rcases hs.1 with h1 | h1 <;> rw [ho] at h1 <;> cases h1
  have hidle : ¬ InProgress P i := by
    rintro ⟨v, hv, hcall, _⟩
    rw [hw] at hv
    cases hv
    exact hcall hc
  have hnext : ¬ Progressing w.call (w.next r) := fun hp => hp.1 hc
  refine h.settle (h.old i w hw) (fun o k hk => ?_) ?_ fun hp => absurd hp hnext
  · rw [ProcShape, if_pos hc, ← hk]
    exact hs.2 r
  · rw [hrunning, h.flag_others hidle]
    simp only [hnext, false_or]

/-- The step at the flag: the run begins, or ends at once. -/
theorem guarded_enter (h : Guarded P) {k : Except BatchErr Bool → Batch (Option TriggerReply)}
    (hw : P.procs i = some ⟨c, .enter, k⟩) (hc : c ≠ .trigger) {r : Except BatchErr Bool}
    (hexec : BatchOp.exec rt .enter x P.shared = some (r, s')) :
    Guarded ((batchMachine rt).settle i c P s' (k r)) := by
  have hs := h.shape i _ hw
  rw [ProcShape, if_neg hc] at hs
  obtain ⟨hhold, hdone⟩ : Holding (k (.ok true)) ∧ (k (.ok false)).Done := hs
  obtain ⟨rfl, rfl⟩ : r = .ok (!P.shared.batchRunning) ∧
      s' = { P.shared with batchRunning := true } := by
    cases x with
    | go =>
      cases hexec
      exact ⟨rfl, rfl⟩
    | fail e => cases hexec
    | reply data => cases hexec
  -- a call that is about to enter is not in progress
  have hidle : ¬ InProgress P i := by
    rintro ⟨v, hv, _, hop⟩
    rw [hw] at hv
    cases hv
    exact hop rfl
  have hothers := h.flag_others hidle
  cases hflag : P.shared.batchRunning with
  -- the flag is up: the call ends without a run
  | true =>
    have hnext : ¬ Progressing c (k (.ok false)) := not_progressing_of_done hdone
    refine h.settle (h.old i _ hw) (fun o k' hk => ?_) ?_ fun hp => absurd hp hnext
    · have hop : (k (.ok false)).Done := hdone
      change k (.ok false) = _ at hk
      rw [hk] at hop
      exact hop.elim
    · exact ⟨fun _ => .inr (hothers.mp hflag), fun _ => rfl⟩
  -- the flag is down: this run raises it and is the only one
  | false =>
    have hnext : Progressing c (k (.ok true)) := progressing_of_holding hc hhold
    have hnone : ∀ j, j ≠ i → ¬ InProgress P j := fun j hne hj => by
      rw [hothers.mpr ⟨j, hne, hj⟩] at hflag
      cases hflag
    refine h.settle (h.old i _ hw) (fun o k' hk => ?_) ?_ fun _ => hnone
    · rw [ProcShape, if_neg hc]
      change k (.ok true) = _ at hk
      rw [hk] at hhold
      exact runShape_of_holding hhold
    · exact ⟨fun _ => .inl hnext, fun _ => rfl⟩

theorem Guarded.holding (h : Guarded P) (hw : P.procs i = some w) (hc : w.call ≠ .trigger)
    (ho : w.op ≠ .enter) : Holding (.op w.op w.next) ∧ InProgress P i := by
  have hs := h.shape i w hw
  rw [ProcShape, if_neg hc] at hs
  refine ⟨?_, w, hw, hc, ho⟩
  obtain ⟨c, o, k⟩ := w
  cases o with
  | enter => exact absurd rfl ho
  | _ => exact hs

theorem guarded_inside (h : Guarded P) (hw : P.procs i = some w) (hc : w.call ≠ .trigger)
    (ho : w.op ≠ .enter) (hexec : w.op.exec rt x P.shared = some (r, s'))
    (hlost : ¬ w.op.lost r) : Guarded ((batchMachine rt).settle i w.call P s' (w.next r)) := by
  obtain ⟨hhold, hi⟩ := h.holding hw hc ho
  have hnone : ∀ j, j ≠ i → ¬ InProgress P j := h.others hi
  have hflag : P.shared.batchRunning = true := h.flag.mpr ⟨i, hi⟩
  rcases hhold.leaves with ⟨hleave, hdone⟩ | ⟨hleave, hk⟩
  · -- the `finally` block
    have hend := hdone r
    have hnext : ¬ Progressing w.call (w.next r) := not_progressing_of_done hend
    have hfree : s'.batchRunning = false := by
      obtain ⟨c, o, k⟩ := w
      cases hleave
      cases x <;> cases hexec
      rfl
    refine h.settle (h.old i w hw) (fun o k hk => ?_) ?_ fun hp => absurd hp hnext
    · rw [hk] at hend
      exact hend.elim
    · rw [hfree]
      constructor
      · exact nofun
      · rintro (hp | ⟨j, hne, hj⟩)
        · exact absurd hp hnext
        · exact absurd hj (hnone j hne)
  -- the outcome is not the lost one, so the run goes on to its end
  · rcases hk r (exec_may hexec) with ⟨h1, _⟩ | ⟨_, huntil⟩
    · exact absurd h1 hlost
    · have hhold' : Holding (w.next r) := ⟨huntil, hhold.inside.2 r⟩
      have hnext : Progressing w.call (w.next r) := progressing_of_holding hc hhold'
      refine h.settle (h.old i w hw) (fun o k hk => ?_) ?_ fun _ => hnone
      · rw [ProcShape, if_neg hc]
        rw [hk] at hhold'
        exact runShape_of_holding hhold'
      · rw [exec_running ho hleave hexec]
        exact ⟨fun _ => .inl hnext, fun _ => hflag⟩

/-- A run that could not save its log is over, and the flag stays. -/
theorem lost_breaks (h : Guarded P) (hw : P.procs i = some w)
    (hexec : w.op.exec rt x P.shared = some (r, s')) (hlost : w.op.lost r) :
    ¬ GuardKept ((batchMachine rt).settle i w.call P s' (w.next r)) := by
  -- only the save of the log can lose: no other operation of a run, and no trigger
  have henter : w.op ≠ .enter := fun ho => by
    have h1 := hlost.1
    rw [ho] at h1
    cases h1
  have hleave : w.op ≠ .leave := fun ho => by
    have h1 := hlost.1
    rw [ho] at h1
    cases h1
  have hc : w.call ≠ .trigger := by
    intro hc
    have hs := h.shape i w hw
    rw [ProcShape, if_pos hc] at hs
    have h1 := hlost.1
    rcases hs.1 with ho | ho <;> rw [ho] at h1 <;> cases h1
  obtain ⟨hhold, hi⟩ := h.holding hw hc henter
  -- after the lost outcome the run is over
  have hend : (w.next r).Done := by
    rcases hhold.leaves with ⟨ho, _⟩ | ⟨_, hk⟩
    · exact absurd ho hleave
    · rcases hk r (exec_may hexec) with ⟨_, hdone⟩ | ⟨hkept, _⟩
      · exact hdone
      · exact absurd hlost hkept
  intro hkept
  -- with no run left in progress the flag should be down
  have hfree := hkept.free fun j hj => by
    rcases eq_or_ne j i with rfl | hne
    · exact not_progressing_of_done hend (inProgress_settle_self.mp hj)
    · exact h.others hi j hne ((inProgress_settle_of_ne hne).mp hj)
  rw [shared_settle, exec_running henter hleave hexec, h.flag.mpr ⟨i, hi⟩] at hfree
  cases hfree

theorem lost_iff (hexec : w.op.exec rt x P.shared = some (r, s')) :
    w.op.lost r ↔ (∃ e, x = .fail e) ∧ w.op.isSaveSyncLog = true := by
  obtain ⟨c, o, k⟩ := w
  -- the save is lost when it fails; the other operations have the `finally` before their end
  unfold BatchOp.lost
  cases o with
  | saveSyncLog log =>
    cases x with
    | go =>
      cases hexec
      constructor
      · rintro ⟨_, e, he⟩
        cases he
      · rintro ⟨⟨e, he⟩, _⟩
        cases he
    | fail e =>
      cases hexec
      exact ⟨fun _ => ⟨⟨e, rfl⟩, rfl⟩, fun _ => ⟨rfl, _, rfl⟩⟩
    | reply data => cases hexec
  | _ => exact ⟨fun h => (nomatch h.1), fun h => (nomatch h.2)⟩

/-- One process moves. -/
theorem guarded_proc (h : Guarded P) (hw : P.procs i = some w)
    (hexec : w.op.exec rt x P.shared = some (r, s')) (hlost : ¬ w.op.lost r) :
    Guarded ((batchMachine rt).settle i w.call P s' (w.next r)) := by
  by_cases hc : w.call = .trigger
  · exact guarded_trigger h hw hc hexec
  by_cases ho : w.op = .enter
  · obtain ⟨c, o, k⟩ := w
    cases ho
    exact guarded_enter h hw hc hexec
  · exact guarded_inside h hw hc ho hexec hlost

theorem guarded_start (h : Guarded P) (hs : s.batchRunning = P.shared.batchRunning) :
    Guarded ((batchMachine rt).settle P.next c { P with next := P.next + 1 } s (c.code rt)) := by
  -- the new process has not entered yet, so that it changes nothing
  have hidle : ¬ InProgress P P.next := by
    rintro ⟨w, hw, _⟩
    exact absurd (h.old P.next w hw) (lt_irrefl _)
  have h' : Guarded { P with next := P.next + 1 } :=
    ⟨fun j w hj => Nat.lt_succ_of_lt (h.old j w hj), h.shape, h.flag, h.one⟩
  have hnext : ¬ Progressing c (c.code rt) := by
    rintro ⟨hc, o, k, hcode, ho⟩
    rcases code_shape rt c with ⟨hc', _⟩ | ⟨_, k', hcode', _⟩
    · exact hc hc'
    · rw [hcode] at hcode'
      cases hcode'
      exact ho rfl
  refine h'.settle (Nat.lt_succ_self _) (fun o k hcode => ?_) ?_ fun hp => absurd hp hnext
  · unfold ProcShape
    rcases code_shape rt c with ⟨hc, heach⟩ | ⟨hc, _, _, hshape⟩
    · rw [if_pos hc, ← hcode]
      exact heach
    · rw [if_neg hc, ← hcode]
      exact hshape
  · rw [hs, h.flag_others hidle]
    simp only [hnext, false_or]
    rfl

/-- What one step does to the guard, by whether it is the failure of a `STARTED` log. -/
theorem guarded_step (h : Guarded P) {a : BatchAct} (ha : (batchMachine rt).step P a = some P') :
    (LogSaved P a → Guarded P') ∧ (GuardKept P' → LogSaved P a) := by
  cases a with
  | start c =>
    refine ⟨fun _ => ?_, fun _ => trivial⟩
    obtain ⟨s', hs', rfl⟩ := Option.map_eq_some_iff.mp ha
    refine guarded_start h ?_
    cases c with
    | immediate =>
      obtain ⟨_, hs'⟩ := Option.ite_none_left_eq_some.mp hs'
      cases hs'
      rfl
    | run =>
      cases hs'
      rfl
    | trigger =>
      cases hs'
      rfl
  | step i x =>
    obtain ⟨w, hw, ha⟩ := Option.bind_eq_some_iff.mp ha
    obtain ⟨⟨r, s'⟩, hexec, rfl⟩ := Option.map_eq_some_iff.mp ha
    -- the flag is lost exactly when the save of the `STARTED` log fails
    have hiff : LogSaved P (.step i x) ↔ ¬ w.op.lost r := by
      rw [lost_iff hexec]
      cases x with
      | fail e =>
        constructor
        · rintro hsaved ⟨_, hop⟩
          rw [hsaved w hw] at hop
          cases hop
        · intro hn v hv
          rw [Option.mem_def, hw] at hv
          cases hv
          exact Bool.eq_false_iff.mpr fun hop => hn ⟨⟨e, rfl⟩, hop⟩
      | go =>
        refine ⟨?_, fun _ => trivial⟩
        rintro _ ⟨⟨e, he⟩, _⟩
        cases he
      | reply data =>
        refine ⟨?_, fun _ => trivial⟩
        rintro _ ⟨⟨e, he⟩, _⟩
        cases he
    rw [hiff]
    exact ⟨guarded_proc h hw hexec, fun hkept hlost => lost_breaks h hw hexec hlost hkept⟩
  | env e =>
    refine ⟨fun _ => ?_, fun _ => trivial⟩
    obtain ⟨s', hs', rfl⟩ := Option.map_eq_some_iff.mp ha
    have hrunning : s'.batchRunning = P.shared.batchRunning := by
      cases e <;> cases hs' <;> rfl
    refine ⟨h.old, h.shape, ?_, h.one⟩
    rw [hrunning]
    exact h.flag
  | halt =>
    refine ⟨fun _ => ?_, fun _ => trivial⟩
    cases ha
    have hnone (i : ℕ) : ¬ InProgress { P with
        shared := (batchMachine rt).halt P.shared, procs := fun _ => none } i := by
      rintro ⟨w, hw, _⟩
      cases hw
    exact ⟨fun j w hj => (nomatch hj), fun j w hj => (nomatch hj),
      ⟨nofun, fun ⟨i, hi⟩ => absurd hi (hnone i)⟩, fun i j hi => absurd hi (hnone i)⟩

theorem guarded_init (hs : s.batchRunning = false) : Guarded (Pool.init s) := by
  have hnone (i : ℕ) : ¬ InProgress (Pool.init s) i := by
    rintro ⟨w, hw, _⟩
    cases hw
  refine ⟨fun j w hj => (nomatch hj), fun j w hj => (nomatch hj), ?_,
    fun i j hi => absurd hi (hnone i)⟩
  change s.batchRunning = true ↔ _
  rw [hs]
  exact ⟨nofun, fun ⟨i, hi⟩ => absurd hi (hnone i)⟩

end Invariant

section Runs

open Transitions

/-- Along every run the guard is kept in each state it comes to exactly when no step of it is the
failure of a run to save its `STARTED` log. -/
theorem guard_kept_iff (rt : Runtime) (s : BatchState) (hs : s.batchRunning = false)
    (acts : List BatchAct) :
    Along (batchMachine rt).step (fun _ _ P' => GuardKept P') (Pool.init s) acts ↔
      Along (batchMachine rt).step (fun P a _ => LogSaved P a) (Pool.init s) acts := by
  constructor
  · refine Along.mono Guarded ?_ (guarded_init hs)
    intro P a P' h ha hkept
    have hsaved : LogSaved P a := (guarded_step h ha).2 hkept
    exact ⟨hsaved, (guarded_step h ha).1 hsaved⟩
  · refine Along.mono Guarded ?_ (guarded_init hs)
    intro P a P' h ha hsaved
    have hguarded : Guarded P' := (guarded_step h ha).1 hsaved
    exact ⟨hguarded.guardKept, hguarded⟩

/-- A process that has just started, with no rows yet. -/
def idleBatch : BatchState := ⟨.empty, 0, false, [], 0⟩

/-- A run whose snapshot is refused, and one that begins after it. -/
def refusedThenRun : List BatchAct :=
  [.start .run, .step 0 .go, .step 0 .go, .step 0 .go, .step 0 (.reply none), .step 0 .go,
    .step 0 .go, .step 0 .go, .start .run, .step 1 .go]

theorem guard_kept_refusedThenRun :
    (run (batchMachine plainRuntime).step (Pool.init idleBatch) refusedThenRun).isSome = true ∧
      Along (batchMachine plainRuntime).step (fun _ _ P' => GuardKept P') (Pool.init idleBatch)
        refusedThenRun := by
  refine ⟨by decide +kernel, (guard_kept_iff plainRuntime idleBatch rfl refusedThenRun).mpr ?_⟩
  unfold refusedThenRun
  repeat first | exact trivial | (intro P _; refine ⟨trivial, ?_⟩)

/-- A nightly run that cannot save its `STARTED` log. -/
def unsavedLog : List BatchAct :=
  [.start .run, .step 0 .go, .step 0 .go, .step 0 (.fail (.sqlite .busy "database is locked"))]

/-- Then no run is in progress and the flag stays up, which turns away every later run. -/
theorem unsavedLog_blocks :
    ∃ P, run (batchMachine plainRuntime).step (Pool.init idleBatch) unsavedLog = some P ∧
      (∀ i, ¬ InProgress P i) ∧ P.shared.batchRunning = true := by
  have hrun : (run (batchMachine plainRuntime).step (Pool.init idleBatch) unsavedLog).map
      (fun P => (P.next, (P.procs 0).isNone, P.shared.batchRunning)) = some (1, true, true) := by
    decide +kernel
  obtain ⟨P, hP, heq⟩ := Option.map_eq_some_iff.mp hrun
  have hinit : Machine.Numbered (Pool.init idleBatch : BatchPool) := by
    intro i w hi
    cases hi
  have hnumbered : Machine.Numbered P :=
    run_inv (I := Machine.Numbered) (fun _ _ _ h ha => Machine.numbered_step h ha) hinit hP
  simp only [Prod.mk.injEq] at heq
  refine ⟨P, hP, ?_, heq.2.2⟩
  rintro i ⟨w, hw, _⟩
  -- the one process of this run has ended
  have hi := hnumbered i w hw
  obtain rfl : i = 0 := by
    rw [heq.1] at hi
    exact Nat.lt_one_iff.mp hi
  rw [hw] at heq
  cases heq.2.1

end Runs

end TimeOff
