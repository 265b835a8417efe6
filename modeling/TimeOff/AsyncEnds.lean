import TimeOff.AsyncPool
import Mathlib.Algebra.BigOperators.Group.Finset.Basic
import Mathlib.Algebra.Order.Group.Multiset
import Mathlib.Logic.Hydra

/-! Pools to which no call is added. A call only gets through its program, so no schedule goes on
forever; where some call can always go on, every schedule ends all of them. -/
namespace Async

open Relation

universe u

variable {Call : Type} {Op : Type u} {Resp : Op → Type} {ε α χ Env σ : Type}

/-- `q` is what is left of `p` after its next operation. -/
def Prog.Rest (q p : Prog Op Resp ε α) : Prop := ∃ o k r, p = .op o k ∧ q = k r

theorem Prog.rest_wf : WellFounded (Prog.Rest : Prog Op Resp ε α → Prog Op Resp ε α → Prop) := by
  constructor
  intro p
  induction p with
  | op o k ih =>
    constructor
    rintro q ⟨o', k', r, h, rfl⟩
    cases h
    exact ih r
  -- a program that has ended has nothing left
  | _ =>
    constructor
    rintro q ⟨o, k, r, h, rfl⟩
    cases h

/-- What a process that waits goes on with. -/
def Waiting.left (w : Waiting Call Op Resp ε α) : Prog Op Resp ε α := .op w.op w.next

/-- The programs that are left of the calls that run. -/
def Pool.left (P : Pool Call Op Resp ε α σ) : Multiset (Prog Op Resp ε α) :=
  ∑ i ∈ Finset.range P.next, (P.procs i).elim 0 fun w => {w.left}

namespace Machine

variable (M : Machine Call Op Resp ε α χ Env σ)

/-- Only the environment acts. -/
def Waits (P P' : Pool Call Op Resp ε α σ) : Prop :=
  M.Reach (fun _ a => ∃ e, a = .env e) P P'

/-- A call takes its next step, after whatever the environment does. -/
def Works (P' P : Pool Call Op Resp ε α σ) : Prop :=
  ∃ P₁ i x, M.Waits P P₁ ∧ M.step P₁ (.step i x) = some P'

/-- However the calls that run and the environment are scheduled, the calls all end, and in a
pool that satisfies `Q`; until then one of them can go on. -/
inductive Completes (Q : Pool Call Op Resp ε α σ → Prop) : Pool Call Op Resp ε α σ → Prop
  | ended {P : Pool Call Op Resp ε α σ} (hended : ∀ i, P.procs i = none) (hQ : Q P) :
      Completes Q P
  | goes {P : Pool Call Op Resp ε α σ} (hgo : ∃ P', M.Works P' P)
      (hnext : ∀ P', M.Works P' P → Completes Q P') : Completes Q P

variable {M} {P P' : Pool Call Op Resp ε α σ}

theorem Waits.procs (h : M.Waits P P') : P'.procs = P.procs ∧ P'.next = P.next := by
  induction h with
  | refl => exact ⟨rfl, rfl⟩
  | step _ hC ha ih =>
    obtain ⟨e, rfl⟩ := hC
    obtain ⟨s, _, rfl⟩ := Option.map_eq_some_iff.mp ha
    exact ih

theorem Waits.left (h : M.Waits P P') : P'.left = P.left := by
  unfold Pool.left
  rw [h.procs.1, h.procs.2]

theorem Waits.numbered (h : M.Waits P P') (hP : Numbered P) : Numbered P' := by
  unfold Numbered
  rw [h.procs.1, h.procs.2]
  exact hP

/-- A call goes on when its operation can be answered. -/
theorem works_of_exec {P₁ : Pool Call Op Resp ε α σ} {i : ℕ} {x : χ}
    {w : Waiting Call Op Resp ε α} {r : Except ε (Resp w.op) × σ} (hwaits : M.Waits P P₁)
    (hw : P.procs i = some w) (hx : M.exec i w.op x P₁.shared = some r) :
    ∃ P', M.Works P' P := by
  refine ⟨M.settle i w.call P₁ r.2 (w.next r.1), P₁, i, x, hwaits, ?_⟩
  have hw₁ : P₁.procs i = some w := by
    rw [hwaits.procs.1]
    exact hw
  rw [step, hw₁, Option.bind_some, hx, Option.map_some]

/-- The process that goes on has less left; the others have what they had. -/
theorem left_settle {i : ℕ} {w : Waiting Call Op Resp ε α} {s : σ} {p : Prog Op Resp ε α}
    (hw : P.procs i = some w) (hi : i < P.next) (hp : p.Rest w.left) :
    CutExpand Prog.Rest (M.settle i w.call P s p).left P.left := by
  have hmem : i ∈ Finset.range P.next := Finset.mem_range.mpr hi
  have hothers : ∀ j ∈ (Finset.range P.next).erase i,
      ((M.settle i w.call P s p).procs j).elim 0 (fun v => {v.left}) =
        (P.procs j).elim (0 : Multiset (Prog Op Resp ε α)) fun v => {v.left} := by
    intro j hj
    rw [procs_settle_of_ne (Finset.ne_of_mem_erase hj)]
  refine ⟨((M.settle i w.call P s p).procs i).elim 0 fun v => {v.left}, w.left, ?_, ?_⟩
  · intro q hq
    cases hv : (M.settle i w.call P s p).procs i with
    | none =>
      rw [hv] at hq
      exact absurd hq (Multiset.notMem_zero q)
    | some v =>
      rw [hv] at hq
      rw [Multiset.mem_singleton.mp hq, Waiting.left, ← (procs_settle_self hv).2]
      exact hp
  · have hself : (P.procs i).elim (0 : Multiset (Prog Op Resp ε α)) (fun v => {v.left}) =
        {w.left} := by
      rw [hw]
      rfl
    unfold Pool.left
    rw [next_settle, ← Finset.add_sum_erase _ _ hmem, Finset.sum_congr rfl hothers,
      ← Finset.add_sum_erase _ (fun j => (P.procs j).elim _ _) hmem, hself, add_assoc,
      add_comm, add_comm (Finset.sum _ _)]

theorem left_step {i : ℕ} {x : χ} (hP : Numbered P) (h : M.step P (.step i x) = some P') :
    CutExpand Prog.Rest P'.left P.left := by
  obtain ⟨w, hw, h⟩ := Option.bind_eq_some_iff.mp h
  obtain ⟨r, _, rfl⟩ := Option.map_eq_some_iff.mp h
  exact left_settle hw (hP i w hw) ⟨w.op, w.next, r.1, rfl, rfl⟩

/-- No schedule of the calls that run goes on forever. -/
theorem acc_works (hP : Numbered P) : Acc M.Works P := by
  -- by what is left of the calls
  have hrest : WellFounded (Prog.Rest : Prog Op Resp ε α → Prog Op Resp ε α → Prop) :=
    Prog.rest_wf
  have hwf := hrest.cutExpand
  generalize hs : P.left = s
  induction hwf.apply s generalizing P with
  | intro s _ ih =>
    constructor
    rintro P' ⟨P₁, i, x, hwaits, hstep⟩
    have hnumbered : Numbered P₁ := hwaits.numbered hP
    have hless : CutExpand Prog.Rest P'.left s := by
      rw [← hs, ← hwaits.left]
      exact left_step hnumbered hstep
    exact ih _ hless (numbered_step hnumbered hstep) rfl

/-- Where some call can always go on, the calls all end. -/
theorem completes_of {I Q : Pool Call Op Resp ε α σ → Prop}
    (hnumbered : ∀ P, I P → Numbered P) (hkeep : ∀ P P', I P → M.Works P' P → I P')
    (hgo : ∀ P i, I P → P.procs i ≠ none → ∃ P', M.Works P' P)
    (hend : ∀ P, I P → (∀ i, P.procs i = none) → Q P) (hP : I P) : M.Completes Q P := by
  induction acc_works (M := M) (hnumbered P hP) with
  | intro P _ ih =>
    by_cases hended : ∀ i, P.procs i = none
    · exact .ended hended (hend P hP hended)
    · obtain ⟨i, hi⟩ := not_forall.mp hended
      exact .goes (hgo P i hP hi) fun P' hworks => ih P' hworks (hkeep P P' hP hworks)

end Machine

end Async
