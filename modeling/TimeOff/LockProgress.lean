import TimeOff.AsyncEnds
import TimeOff.CreateLanes

/-! Nothing waits forever on the create locks: the calls that run can all end, whatever else they
do, and the map of the locks is empty when they have. -/
namespace TimeOff

open Async Relation

section Chain

/-- The awaited promises in the order in which they were put at the tails. -/
structure CreateLocks.Chained (l : CreateLocks) (rank : ℕ → ℕ) : Prop where
  fresh : ∀ i, l.lane i = none → l.released i = false
  tail_in : ∀ lane t, l.tail lane = some t → l.lane t = some lane ∧ l.released t = false
  joined : ∀ i j, l.previous i = some j → l.lane j ≠ none
  ordered : ∀ i j, l.previous i = some j → rank j < rank i

namespace CreateLocks

variable {l : CreateLocks} {rank : ℕ → ℕ} {i j : ℕ} {lane : String}

theorem chained_init : init.Chained fun _ => 0 := by
  refine ⟨fun _ _ => rfl, fun lane t ht => ?_, fun i j hij => ?_, fun i j hij => ?_⟩
  · cases ht
  · cases hij
  · cases hij

/-- A call enters behind the call at the tail. -/
theorem Chained.enter (h : l.Chained rank) (hi : l.lane i = none) :
    ∃ rank', (l.enter i lane).Chained rank' := by
  -- nobody waits for a call that has not entered
  have hnew {j k : ℕ} (hjk : l.previous j = some k) : k ≠ i := by
    rintro rfl
    exact h.joined j k hjk hi
  refine ⟨Function.update rank i ((l.tail lane).elim 0 fun t => rank t + 1), ?_, ?_, ?_, ?_⟩
  · intro j hj
    have hne : j ≠ i := by
      rintro rfl
      simp [CreateLocks.enter] at hj
    apply h.fresh
    simpa only [CreateLocks.enter, Function.update_of_ne hne] using hj
  · intro lane' t ht
    dsimp only [CreateLocks.enter] at ht ⊢
    by_cases hlane : lane' = lane
    · rw [hlane, Function.update_self, Option.some.injEq] at ht
      rw [← ht, Function.update_self, hlane]
      exact ⟨rfl, h.fresh i hi⟩
    · rw [Function.update_of_ne hlane] at ht
      have hne : t ≠ i := by
        rintro rfl
        have htail := (h.tail_in lane' t ht).1
        rw [hi] at htail
        cases htail
      rw [Function.update_of_ne hne]
      exact h.tail_in lane' t ht
  · intro j k hjk
    dsimp only [CreateLocks.enter] at hjk ⊢
    by_cases hk : k = i
    · rw [hk, Function.update_self]
      simp
    rw [Function.update_of_ne hk]
    by_cases hj : j = i
    · rw [hj, Function.update_self] at hjk
      rw [(h.tail_in lane k hjk).1]
      simp
    · rw [Function.update_of_ne hj] at hjk
      exact h.joined j k hjk
  · intro j k hjk
    dsimp only [CreateLocks.enter] at hjk
    by_cases hj : j = i
    · rw [hj, Function.update_self] at hjk
      have hne : k ≠ i := by
        rintro rfl
        have htail := (h.tail_in lane k hjk).1
        rw [hi] at htail
        cases htail
      rw [hj, Function.update_self, Function.update_of_ne hne, hjk]
      exact Nat.lt_succ_self _
    · rw [Function.update_of_ne hj] at hjk
      rw [Function.update_of_ne hj, Function.update_of_ne (hnew hjk)]
      exact h.ordered j k hjk

/-- A release takes the call from the tail, if it is there. -/
theorem Chained.release (h : l.Chained rank) (hi : l.lane i = some lane) :
    (l.release i lane).Chained rank := by
  refine ⟨fun j hj => ?_, fun lane' t ht => ?_, h.joined, h.ordered⟩
  · have hne : j ≠ i := by
      rintro rfl
      rw [show l.lane j = none from hj] at hi
      cases hi
    dsimp only [CreateLocks.release]
    rw [Function.update_of_ne hne]
    exact h.fresh j hj
  · dsimp only [CreateLocks.release] at ht ⊢
    have htail : l.tail lane' = some t ∧ t ≠ i := by
      split at ht
      · by_cases hlane : lane' = lane
        · rw [hlane, Function.update_self] at ht
          cases ht
        · rw [Function.update_of_ne hlane] at ht
          refine ⟨ht, ?_⟩
          -- the call is in the other lane
          rintro rfl
          apply hlane
          apply Option.some.inj
          rw [← (h.tail_in lane' t ht).1, hi]
      · next hnot =>
        refine ⟨ht, ?_⟩
        rintro rfl
        have hlane : lane' = lane := by
          apply Option.some.inj
          rw [← (h.tail_in lane' t ht).1, hi]
        rw [hlane] at ht
        exact hnot ht
    rw [Function.update_of_ne htail.2]
    exact h.tail_in lane' t htail.1

/-- Everyone on the chain from `j` has entered a lane, no later than `j`. -/
theorem Chained.behind (h : l.Chained rank) {k : ℕ} (hj : l.lane j ≠ none)
    (hjk : l.Behind j k) : l.lane k ≠ none ∧ rank k ≤ rank j := by
  induction hjk with
  | refl => exact ⟨hj, le_refl _⟩
  | tail _ hstep ih => exact ⟨h.joined _ _ hstep, (h.ordered _ _ hstep).le.trans ih.2⟩

end CreateLocks

end Chain

section Stages

def FlatOp.queues : FlatOp → Bool
  | .base o => o.queues
  | _ => false

variable {α β : Type}

/-- The call holds the lane and comes to its release, after which it is over. -/
structure InQueue (lane : String) (p : Flat α) : Prop where
  releases : p.Until (· = .base (.releaseLock lane)) (fun _ _ => True) fun _ _ => False
  quiet : p.Each fun o => o = .base (.releaseLock lane) ∨ o.queues = false

/-- The call has not queued: it may enter one lane, and then waits for its turn. -/
def Unqueued : Flat α → Prop
  | .op (.base (.enterLock lane)) k =>
    ∃ k', k (.ok ()) = .op (.base .awaitPrevious) k' ∧ InQueue lane (k' (.ok ()))
  | .op o k => o.queues = false ∧ ∀ r, Unqueued (k r)
  | _ => True

/-- How far a call is with its lane. -/
inductive Stage (l : CreateLocks) (i : ℕ) : Flat α → Prop
  | before {p : Flat α} (hlane : l.lane i = none) (hp : Unqueued p) : Stage l i p
  | waiting {lane : String} {k : Except Err Unit → Flat α} (hlane : l.lane i = some lane)
      (hheld : l.released i = false) (hk : InQueue lane (k (.ok ()))) :
      Stage l i (.op (.base .awaitPrevious) k)
  | inside {lane : String} {p : Flat α} (hlane : l.lane i = some lane)
      (hheld : l.released i = false) (hp : InQueue lane p) : Stage l i p
  | after {p : Flat α} (hreleased : l.released i = true) (hp : p.Done) : Stage l i p

theorem unqueued_op {o : FlatOp} {k : Except Err o.Resp → Flat α} (ho : o.queues = false)
    (hk : ∀ r, Unqueued (k r)) : Unqueued (.op o k) := by
  cases o with
  | base b =>
    cases b with
    | enterLock lane => cases ho
    | _ => exact ⟨ho, hk⟩
  | _ => exact ⟨ho, hk⟩

/-- What a call that has not queued does next. -/
theorem unqueued_cases {o : FlatOp} {k : Except Err o.Resp → Flat α} (h : Unqueued (.op o k)) :
    (∃ lane, o = .base (.enterLock lane)) ∨ o.queues = false ∧ ∀ r, Unqueued (k r) := by
  cases o with
  | base b =>
    cases b with
    | enterLock lane => exact .inl ⟨lane, rfl⟩
    | _ => exact .inr h
  | _ => exact .inr h

theorem unqueued_of_each {p : Flat α} (hp : p.Each (·.queues = false)) : Unqueued p := by
  induction p with
  | ret a => trivial
  | throw e => trivial
  | op o k ih => exact unqueued_op hp.1 fun r => ih r (hp.2 r)

theorem unqueued_bind {p : Flat β} {f : β → Flat α} (hp : p.Each (·.queues = false))
    (hf : ∀ b, Unqueued (f b)) : Unqueued (p.bind f) := by
  induction p with
  | ret b => exact hf b
  | throw e => trivial
  | op o k ih => exact unqueued_op hp.1 fun r => ih r (hp.2 r)

theorem InQueue.bind {lane : String} {p : Flat β} {f : β → Flat α} (hp : InQueue lane p)
    (hf : ∀ b, (f b).Done) : InQueue lane (p.bind f) := by
  refine ⟨hp.releases.bind hf, hp.quiet.bind fun b => ?_⟩
  have hdone := hf b
  cases hb : f b with
  | op o k =>
    rw [hb] at hdone
    exact hdone.elim
  | _ => trivial

theorem Unqueued.bind {p : Flat β} {f : β → Flat α} (hp : Unqueued p) (hf : ∀ b, (f b).Done) :
    Unqueued (p.bind f) := by
  induction p with
  | ret b =>
    have hdone := hf b
    change Unqueued (f b)
    cases hb : f b with
    | op o k =>
      rw [hb] at hdone
      exact hdone.elim
    | _ => trivial
  | throw e => trivial
  | op o k ih =>
    rcases unqueued_cases hp with ⟨lane, rfl⟩ | ⟨ho, hk⟩
    · obtain ⟨k', hk, hin⟩ := hp
      refine ⟨fun r => (k' r).bind f, ?_, hin.bind hf⟩
      change (k (.ok ())).bind f = _
      rw [hk]
      rfl
    · exact unqueued_op ho fun r => ih r (hk r)

end Stages

section Shapes

variable {cfg : Config} {dto : CreateTimeOffRequestDto} {idempotencyKey requestHash : String}
  {employeeId : String}

def Op.queues : Op → Bool
  | .base o => o.queues
  | .transaction _ => false

theorem checkIdempotency_lockless :
    (checkIdempotency idempotencyKey employeeId requestHash).Each (·.queues = false) := by
  refine Prog.Each.bind (Prog.Each.perform rfl) fun r => ?_
  cases r with
  | none => trivial
  | some existing =>
    refine Prog.Each.bind (Prog.Each.perform rfl) fun now => ?_
    split
    · trivial
    · split <;> trivial

theorem recoverAfterConstraint_lockless :
    (recoverAfterConstraint idempotencyKey employeeId requestHash).Each (·.queues = false) := by
  refine Prog.Each.bind checkIdempotency_lockless fun r => ?_
  cases r with
  | some cached => trivial
  | none =>
    refine Prog.Each.bind (Prog.Each.perform rfl) fun r => ?_
    cases r <;> trivial

theorem createFailed_lockless (err : Err) :
    (createFailed dto idempotencyKey requestHash err).Each (·.queues = false) := by
  refine Prog.Each.bind ?_ fun r => ?_
  · split
    · exact recoverAfterConstraint_lockless
    · trivial
  cases r with
  | some body => trivial
  | none =>
    dsimp only
    split
    · refine Prog.Each.bind recoverAfterConstraint_lockless fun r => ?_
      cases r <;> trivial
    · trivial

/-- What a create does inside its lane leaves the lanes alone. -/
theorem createLocked_lockless (days : Num) :
    (createLocked cfg dto idempotencyKey days requestHash).Each (·.queues = false) := by
  refine Prog.Each.bind checkIdempotency_lockless fun r => ?_
  cases r with
  | some body => trivial
  | none =>
    refine Prog.Each.handle (Prog.Each.bind ?_ fun saved => ?_) createFailed_lockless
    · exact runAttempts_each (φ := (·.queues = false)) (Prog.Each.perform rfl) (fun _ => rfl) _ _
    · exact Prog.Each.bind (Prog.Each.perform rfl) fun _ => trivial

theorem flatten_lockless {o : Op} (ho : o.queues = false) :
    (flatten o).Each (·.queues = false) := by
  cases o with
  | base o => exact Prog.Each.perform ho
  | transaction body =>
    have hbody : body.Each fun o => (FlatOp.tx o).queues = false := by
      clear ho
      induction body with
      | op o k ih => exact ⟨rfl, ih⟩
      | _ => trivial
    exact flattenTransaction_each (ψ := (·.queues = false)) rfl hbody rfl rfl

theorem interp_lockless {β : Type} {p : Svc β} (hp : p.Each (·.queues = false)) :
    (p.interp flatten).Each (·.queues = false) := hp.interp fun _ => flatten_lockless

/-- A body that leaves the lanes alone, under the lock of its lane. -/
theorem withCreateLock_unqueued {β : Type} {lane : String} {fn : Svc β}
    (hfn : fn.Each (·.queues = false)) : Unqueued ((withCreateLock lane fn).interp flatten) := by
  have hin : InQueue lane ((fn.ensuring (Svc.base (.releaseLock lane))).interp flatten) := by
    have hrelease : (Svc.base (.releaseLock lane)).interp flatten =
        Prog.perform (FlatOp.base (.releaseLock lane)) := Prog.interp_perform _ _
    rw [Prog.interp_ensuring, hrelease]
    have hquiet := interp_lockless hfn
    constructor
    · refine Prog.Until.ensuring (hquiet.mono fun o ho => ⟨?_, fun _ => id⟩) (.inl ⟨rfl, ?_⟩)
      · intro r
        cases r <;> trivial
      · rintro rfl
        cases ho
    · exact (hquiet.mono fun _ => .inr).ensuring (Prog.Each.perform (.inl rfl))
  exact ⟨_, rfl, hin⟩

theorem createRequest_unqueued :
    Unqueued ((createRequest cfg dto idempotencyKey).interp flatten) := by
  unfold createRequest
  split
  · trivial
  rw [Prog.bind_def, Prog.interp_bind]
  refine unqueued_bind (interp_lockless (Prog.Each.perform rfl)) fun now => ?_
  split
  · trivial
  split
  · trivial
  rw [Prog.bind_def, Prog.interp_bind]
  refine unqueued_bind (interp_lockless checkIdempotency_lockless) fun r => ?_
  cases r with
  | some body => trivial
  | none => exact withCreateLock_unqueued (createLocked_lockless _)

theorem code_unqueued (cfg : Config) (c : Call) : Unqueued ((c.svc cfg).interp flatten) := by
  by_cases hc : ∃ dto idempotencyKey, c = .create dto idempotencyKey
  · obtain ⟨dto, idempotencyKey, rfl⟩ := hc
    rw [Call.svc, Prog.interp_bind]
    exact createRequest_unqueued.bind fun _ => trivial
  · apply unqueued_of_each
    refine Prog.Each.mono (fun o ho => ?_) (flat_each cfg c)
    cases ho with
    | base h =>
      cases h with
      | create h => exact absurd ⟨_, _, rfl⟩ hc
      | retrySyncs h => cases h <;> rfl
      | task t h => cases h <;> rfl
      | _ => rfl
    | _ => rfl

end Shapes

section Steps

variable {α : Type} {w w' : World} {i j : ℕ} {x : Choice} {o : FlatOp}

theorem exec_locks {r : Except Err o.Resp} (ho : o.queues = false)
    (h : o.exec i x w = some (r, w')) : w'.locks = w.locks := by
  cases o with
  | base b => exact (baseExec_locks ho h).1
  | begin => rw [begin_cases h]
  | tx o =>
    cases o with
    | db d => rcases txDb_cases h with ⟨_, _, _, rfl⟩ | ⟨_, rfl⟩ <;> rfl
    | _ =>
      cases h
      rfl
  | commit => rcases commit_cases h with ⟨_, _, _, rfl⟩ | ⟨_, rfl⟩ <;> rfl
  | rollback =>
    obtain ⟨_, rfl⟩ := rollback_cases h
    rfl

theorem Stage.congr {l l' : CreateLocks} {p : Flat α} (hlane : l'.lane i = l.lane i)
    (hreleased : l'.released i = l.released i) (h : Stage l i p) : Stage l' i p := by
  cases h with
  | before hl hp => exact .before (hlane.trans hl) hp
  | waiting hl hheld hk => exact .waiting (hlane.trans hl) (hreleased.trans hheld) hk
  | inside hl hheld hp => exact .inside (hlane.trans hl) (hreleased.trans hheld) hp
  | after hr hp => exact .after (hreleased.trans hr) hp

/-- What a step of call `i` makes of the locks. -/
structure LocksMoved (i : ℕ) (l l' : CreateLocks) : Prop where
  chained : ∃ rank, l'.Chained rank
  others : ∀ j, j ≠ i → l'.lane j = l.lane j ∧ l'.released j = l.released j

theorem LocksMoved.of_eq {l l' : CreateLocks} (hl : ∃ rank, l.Chained rank) (h : l' = l) :
    LocksMoved i l l' := by
  rw [h]
  exact ⟨hl, fun _ _ => ⟨rfl, rfl⟩⟩

/-- One step of a call with its lane. -/
theorem stage_step {k : Except Err o.Resp → Flat α} {r : Except Err o.Resp}
    (hl : ∃ rank, w.locks.Chained rank) (hs : Stage w.locks i (.op o k))
    (h : o.exec i x w = some (r, w')) : Stage w'.locks i (k r) ∧ LocksMoved i w.locks w'.locks := by
  obtain ⟨rank, hchained⟩ := hl
  cases hs with
  | before hlane hp =>
    rcases unqueued_cases hp with ⟨lane, rfl⟩ | ⟨ho, hk⟩
    · obtain ⟨k', hk, hin⟩ := hp
      cases h
      rw [hk]
      refine ⟨.waiting (Function.update_self _ _ _) (hchained.fresh i hlane) hin,
        hchained.enter hlane, fun j hj => ⟨Function.update_of_ne hj _ _, rfl⟩⟩
    · have hlocks := exec_locks ho h
      exact ⟨(Stage.before hlane (hk r)).congr (by rw [hlocks]) (by rw [hlocks]),
        .of_eq ⟨rank, hchained⟩ hlocks⟩
  | waiting hlane hheld hk =>
    obtain ⟨l, hl, heq⟩ := Option.map_eq_some_iff.mp h
    obtain ⟨_, hl⟩ := Option.ite_none_right_eq_some.mp hl
    cases hl
    cases heq
    exact ⟨.inside hlane hheld hk, ⟨rank, ⟨hchained.fresh, hchained.tail_in, hchained.joined,
      hchained.ordered⟩⟩, fun _ _ => ⟨rfl, rfl⟩⟩
  | inside hlane hheld hp =>
    rcases hp.releases with ⟨rfl, hdone⟩ | ⟨hne, hrest⟩
    · cases h
      exact ⟨.after (Function.update_self _ _ _) (hdone _), ⟨rank, hchained.release hlane⟩,
        fun j hj => ⟨rfl, Function.update_of_ne hj _ _⟩⟩
    · have hlocks := exec_locks (hp.quiet.1.resolve_left hne) h
      have hin : InQueue _ (k r) :=
        ⟨(hrest r trivial).elim (fun hlost => hlost.1.elim) fun hkept => hkept.2, hp.quiet.2 r⟩
      exact ⟨(Stage.inside hlane hheld hin).congr (by rw [hlocks]) (by rw [hlocks]),
        .of_eq ⟨rank, hchained⟩ hlocks⟩
  | after _ hp => exact hp.elim

/-- An operation that is no wait for a lane can always be answered. -/
theorem exec_enabled (ho : o ≠ .base .awaitPrevious) (i : ℕ) (w : World) :
    ∃ x r, o.exec i x w = some r := by
  cases o with
  | base b =>
    cases b with
    | awaitPrevious => exact absurd rfl ho
    | validateRequest key days => exact ⟨.validated none, _, rfl⟩
    | awaitPut message put => exact ⟨.lost .noResponse, _, rfl⟩
    | _ => exact ⟨.go, _, rfl⟩
  | tx o => cases o <;> exact ⟨.go, _, rfl⟩
  | _ => exact ⟨.go, _, rfl⟩

end Steps

section Runs

abbrev FlatPool := Pool Call FlatOp FlatOp.Resp Err (Option RequestBody) World

/-- Every call is somewhere with its lane, and those that have ended hold none. -/
structure Queued (P : FlatPool) : Prop where
  chained : ∃ rank, P.shared.locks.Chained rank
  numbered : Machine.Numbered P
  unborn : ∀ i, P.next ≤ i → P.shared.locks.lane i = none
  running : ∀ i w, P.procs i = some w → Stage P.shared.locks i w.left
  ended : ∀ i, P.procs i = none → P.shared.locks.lane i ≠ none →
    P.shared.locks.released i = true

variable {cfg : Config} {P P' : FlatPool} {i : ℕ}

theorem Stage.ended {l : CreateLocks} {p : Flat (Option RequestBody)} (h : Stage l i p)
    (hp : p.Done) (hlane : l.lane i ≠ none) : l.released i = true := by
  cases h with
  | before hl _ => exact absurd hl hlane
  | waiting _ _ _ => exact hp.elim
  | inside _ _ hin =>
    cases p with
    | op o k => exact hp.elim
    | _ => exact hin.releases.elim
  | after hr _ => exact hr

theorem queued_settle {c : Call} {w : World} {p : Flat (Option RequestBody)} (hP : Queued P)
    (hi : i < P.next) (hl : LocksMoved i P.shared.locks w.locks) (hs : Stage w.locks i p) :
    Queued ((flatMachine cfg).settle i c P w p) := by
  have hlocks : ((flatMachine cfg).settle i c P w p).shared.locks = w.locks := by
    cases p <;> rfl
  refine ⟨?_, Machine.numbered_settle hi hP.numbered, fun j hj => ?_, fun j v hj => ?_,
    fun j hj hlane => ?_⟩
  · rw [hlocks]
    exact hl.chained
  · rw [Machine.next_settle] at hj
    rw [hlocks, (hl.others j (lt_of_lt_of_le hi hj).ne').1]
    exact hP.unborn j hj
  · rw [hlocks]
    by_cases hji : j = i
    · rw [hji] at hj ⊢
      rw [Waiting.left, ← (Machine.procs_settle_self hj).2]
      exact hs
    · rw [Machine.procs_settle_of_ne hji] at hj
      exact (hP.running j v hj).congr (hl.others j hji).1 (hl.others j hji).2
  · rw [hlocks] at hlane ⊢
    by_cases hji : j = i
    · rw [hji] at hj hlane ⊢
      apply hs.ended _ hlane
      cases p with
      | op o k =>
        change Function.update P.procs i _ i = none at hj
        rw [Function.update_self] at hj
        cases hj
      | _ => trivial
    · rw [Machine.procs_settle_of_ne hji] at hj
      rw [(hl.others j hji).1] at hlane
      rw [(hl.others j hji).2]
      exact hP.ended j hj hlane

theorem queued_step {a : Act Call Choice Env} (hP : Queued P)
    (ha : (flatMachine cfg).step P a = some P') : Queued P' := by
  cases a with
  | start c =>
    obtain ⟨w, hw, rfl⟩ := Option.map_eq_some_iff.mp ha
    have hlocks : w.locks = P.shared.locks := by
      rcases accept_cases hw with rfl | ⟨_, _, _, rfl⟩ <;> rfl
    have hlane : w.locks.lane P.next = none := by
      rw [hlocks]
      exact hP.unborn P.next (le_refl _)
    have hnew : Queued { P with next := P.next + 1 } :=
      ⟨hP.chained, fun j v hj => Nat.lt_succ_of_lt (hP.numbered j v hj),
        fun j hj => hP.unborn j (Nat.le_of_succ_le hj), hP.running, hP.ended⟩
    exact queued_settle hnew (Nat.lt_succ_self _) (.of_eq hP.chained hlocks)
      (.before hlane (code_unqueued cfg c))
  | step i x =>
    obtain ⟨v, hv, ha⟩ := Option.bind_eq_some_iff.mp ha
    obtain ⟨⟨r, w⟩, hx, rfl⟩ := Option.map_eq_some_iff.mp ha
    obtain ⟨hs, hl⟩ := stage_step hP.chained (hP.running i v hv) hx
    exact queued_settle hP (hP.numbered i v hv) hl hs
  | env e =>
    obtain ⟨w, hw, rfl⟩ := Option.map_eq_some_iff.mp ha
    have hlocks : ∃ settled, w.locks = { P.shared.locks with settled } := by
      cases e with
      | settle j =>
        obtain ⟨l, hl, rfl⟩ := Option.map_eq_some_iff.mp hw
        obtain ⟨_, hl⟩ := Option.ite_none_right_eq_some.mp hl
        cases hl
        exact ⟨_, rfl⟩
      | deliver message =>
        obtain ⟨hcm, _, rfl⟩ := Option.map_eq_some_iff.mp hw
        exact ⟨_, rfl⟩
      | _ =>
        cases hw
        exact ⟨_, rfl⟩
    obtain ⟨settled, hlocks⟩ := hlocks
    obtain ⟨rank, hchained⟩ := hP.chained
    refine ⟨⟨rank, ?_⟩, hP.numbered, fun j hj => ?_, fun j v hj => ?_, fun j hj hlane => ?_⟩
    · rw [hlocks]
      exact ⟨hchained.fresh, hchained.tail_in, hchained.joined, hchained.ordered⟩
    · rw [hlocks]
      exact hP.unborn j hj
    · exact (hP.running j v hj).congr (by rw [hlocks]) (by rw [hlocks])
    · rw [hlocks] at hlane ⊢
      exact hP.ended j hj hlane
  | halt =>
    cases ha
    exact ⟨⟨_, CreateLocks.chained_init⟩, fun _ _ hj => (nomatch hj), fun _ _ => rfl,
      fun _ _ hj => (nomatch hj), fun _ _ hlane => absurd rfl hlane⟩

theorem queued_reach {C : FlatPool → Act Call Choice Env → Prop} (hP : Queued P)
    (h : (flatMachine cfg).Reach C P P') : Queued P' :=
  Machine.Reach.inv Queued hP (fun _ _ _ hQ _ => queued_step hQ) h

/-- Where everyone on the chain from `j` has released, the promises of the chain resolve. -/
theorem waits_settled {rank : ℕ → ℕ} {j : ℕ} (hP : P.shared.locks.Chained rank)
    (hreleased : ∀ k, P.shared.locks.Behind j k → P.shared.locks.released k = true) :
    ∃ P', (flatMachine cfg).Waits P P' ∧ P'.shared.locks.settled j = true ∧
      ∃ settled, P'.shared.locks = { P.shared.locks with settled } := by
  -- the promise that `j` awaits first
  induction hn : rank j using Nat.strong_induction_on generalizing j with
  | _ n ih =>
    have hfront : ∃ P₁, (flatMachine cfg).Waits P P₁ ∧ P₁.shared.locks.ready j = true ∧
        ∃ settled, P₁.shared.locks = { P.shared.locks with settled } := by
      cases hprevious : P.shared.locks.previous j with
      | none =>
        refine ⟨P, .refl, ?_, _, rfl⟩
        rw [CreateLocks.ready, hprevious]
      | some k =>
        have hless : rank k < n := hn ▸ hP.ordered j k hprevious
        obtain ⟨P₁, hwaits, hsettled, settled, hlocks⟩ :=
          ih (rank k) hless (fun m hm => hreleased m (.head hprevious hm)) rfl
        refine ⟨P₁, hwaits, ?_, settled, hlocks⟩
        have hstill : P₁.shared.locks.previous j = some k := by rw [hlocks, hprevious]
        rw [CreateLocks.ready, hstill]
        exact hsettled
    obtain ⟨P₁, hwaits, hready, settled, hlocks⟩ := hfront
    have hgate : P₁.shared.locks.released j = true := by
      rw [hlocks]
      exact hreleased j .refl
    have hstep : (flatMachine cfg).step P₁ (.env (.settle j)) = some { P₁ with
        shared := { P₁.shared with locks := { P₁.shared.locks with
          settled := Function.update P₁.shared.locks.settled j true } } } := by
      change Option.map _ (Option.map _ (P₁.shared.locks.settle j)) = _
      rw [CreateLocks.settle, hready, hgate]
      rfl
    refine ⟨_, .step hwaits ⟨_, rfl⟩ hstep, Function.update_self _ _ _, ?_⟩
    exact ⟨Function.update P₁.shared.locks.settled j true, by rw [hlocks]⟩

/-- A call whose turn it is goes on. -/
theorem works_of_ready {P₁ : FlatPool}
    {w : Waiting Call FlatOp FlatOp.Resp Err (Option RequestBody)} (hw : P.procs i = some w)
    (ho : w.op = .base .awaitPrevious) (hwaits : (flatMachine cfg).Waits P P₁)
    (hready : P₁.shared.locks.ready i = true) : ∃ P', (flatMachine cfg).Works P' P := by
  obtain ⟨c, o, k⟩ := w
  obtain rfl : o = .base .awaitPrevious := ho
  have hturn : ∃ r, (flatMachine cfg).exec i (.base .awaitPrevious) .go P₁.shared = some r := by
    refine ⟨(.ok (), { P₁.shared with locks := { P₁.shared.locks with
      entered := Function.update P₁.shared.locks.entered i true } }), ?_⟩
    change Option.map _ (P₁.shared.locks.awaitPrevious i) = _
    rw [CreateLocks.awaitPrevious, if_pos hready]
    rfl
  obtain ⟨r, hr⟩ := hturn
  exact Machine.works_of_exec hwaits hw hr

/-- A call that runs can go on, or one that is before it in its lane can. -/
theorem queued_works (hP : Queued P) (hi : P.procs i ≠ none) :
    ∃ P', (flatMachine cfg).Works P' P := by
  obtain ⟨rank, hchained⟩ := hP.chained
  induction hn : rank i using Nat.strong_induction_on generalizing i with
  | _ n ih =>
    obtain ⟨w, hw⟩ := Option.ne_none_iff_exists'.mp hi
    by_cases ho : w.op = .base .awaitPrevious
    swap
    · obtain ⟨x, r, hx⟩ := exec_enabled ho i P.shared
      exact Machine.works_of_exec .refl hw hx
    cases hprevious : P.shared.locks.previous i with
    | none =>
      apply works_of_ready hw ho .refl
      rw [CreateLocks.ready, hprevious]
    | some j =>
      by_cases hall : ∀ k, P.shared.locks.Behind j k → P.shared.locks.released k = true
      · obtain ⟨P₁, hwaits, hsettled, settled, hlocks⟩ := waits_settled hchained hall
        apply works_of_ready hw ho hwaits
        have hstill : P₁.shared.locks.previous i = some j := by rw [hlocks, hprevious]
        rw [CreateLocks.ready, hstill]
        exact hsettled
      -- someone before it has not released, and therefore runs
      · push Not at hall
        obtain ⟨k, hjk, hheld⟩ := hall
        obtain ⟨hlane, hrank⟩ := hchained.behind (hchained.joined i j hprevious) hjk
        have hless : rank k < n := lt_of_le_of_lt hrank (hn ▸ hchained.ordered i j hprevious)
        refine ih (rank k) hless (fun hended => ?_) rfl
        exact hheld (hP.ended k hended hlane)

/-- When no call runs, no lane has a tail. -/
theorem Queued.tails_empty (hP : Queued P) (hended : ∀ i, P.procs i = none) (lane : String) :
    P.shared.locks.tail lane = none := by
  obtain ⟨rank, hchained⟩ := hP.chained
  cases htail : P.shared.locks.tail lane with
  | none => rfl
  | some t =>
    obtain ⟨hlane, hheld⟩ := hchained.tail_in lane t htail
    have hreleased := hP.ended t (hended t) (by rw [hlane]; simp)
    rw [hheld] at hreleased
    cases hreleased

/-- The locks of the creates stop nothing: once no call is added, every schedule ends all the
calls that run, and leaves the map of the locks empty. -/
theorem calls_all_end (cfg : Config) {C : FlatPool → Act Call Choice Env → Prop} {store : Store}
    {clock nextId : ℕ} {hcm : MockHcm}
    (hP : (flatMachine cfg).Reach C (Pool.init (World.init store clock nextId hcm)) P) :
    (flatMachine cfg).Completes (fun P => ∀ lane, P.shared.locks.tail lane = none) P := by
  have hinit : Queued (Pool.init (World.init store clock nextId hcm)) :=
    ⟨⟨_, CreateLocks.chained_init⟩, fun _ _ hj => (nomatch hj), fun _ _ => rfl,
      fun _ _ hj => (nomatch hj), fun _ _ hlane => absurd rfl hlane⟩
  refine Machine.completes_of (I := Queued) (fun _ hQ => hQ.numbered) (fun Q Q' hQ hworks => ?_)
    (fun _ _ hQ hi => queued_works hQ hi) (fun _ hQ hended => hQ.tails_empty hended)
    (queued_reach hinit hP)
  obtain ⟨Q₁, i, x, hwaits, hstep⟩ := hworks
  exact queued_step (queued_reach hQ hwaits) hstep

/-- Two creates for the same employee and location: the second waits for the first. -/
def oneBehindAnother : List (Act Call Choice Env) :=
  [.start (.create (plainDto "2030-01-07" "2030-01-08") "key-1"),
    .start (.create (plainDto "2030-01-09" "2030-01-09") "key-2")] ++
    List.replicate 4 (.step 0 .go) ++ List.replicate 3 (.step 1 .go)

theorem oneBehindAnother_runs :
    ((flatMachine plainConfig).run (fun _ _ => True) (Pool.init (tenDaysAt 1893456000000))
      oneBehindAnother).isSome = true := by
  decide +kernel

theorem oneBehindAnother_all_end :
    ∃ P, (flatMachine plainConfig).run (fun _ _ => True) (Pool.init (tenDaysAt 1893456000000))
        oneBehindAnother = some P ∧ P.shared.locks.ready 1 = false ∧
      (flatMachine plainConfig).Completes
        (fun P => ∀ lane, P.shared.locks.tail lane = none) P := by
  have hrun := (Option.some_get oneBehindAnother_runs).symm
  refine ⟨_, hrun, by decide +kernel, ?_⟩
  exact calls_all_end plainConfig (Machine.reach_of_run .refl hrun)

end Runs

end TimeOff
