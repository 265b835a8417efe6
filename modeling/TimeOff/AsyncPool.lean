import TimeOff.AsyncProg
import Mathlib.Logic.Function.Basic

/-! A pool of asynchronous calls over one shared state: any waiting call may take its next
step, so calls interleave at every operation. The rely/guarantee rule derives what holds in
every reachable pool from what each call promises alone. -/
namespace Async

universe u

/-- What a pool runs: the program of a call, what starting and ending it does to the shared
state, one operation of a call, and what the environment may do. -/
structure Machine (Call : Type) (Op : Type u) (Resp : Op → Type) (ε α χ Env σ : Type) where
  code : Call → Prog Op Resp ε α
  accept : ℕ → Call → σ → Option σ
  exec : ℕ → (o : Op) → χ → σ → Option (Except ε (Resp o) × σ)
  finish : ℕ → Call → Except ε α → σ → σ
  env : Env → σ → Option σ
  halt : σ → σ

/-- A call that waits for an operation. -/
structure Waiting (Call : Type) (Op : Type u) (Resp : Op → Type) (ε α : Type) where
  call : Call
  op : Op
  next : Except ε (Resp op) → Prog Op Resp ε α

structure Pool (Call : Type) (Op : Type u) (Resp : Op → Type) (ε α σ : Type) where
  shared : σ
  procs : ℕ → Option (Waiting Call Op Resp ε α)
  next : ℕ

inductive Act (Call χ Env : Type)
  | start (c : Call)
  | step (i : ℕ) (x : χ)
  | env (e : Env)
  | halt

variable {Call : Type} {Op : Type u} {Resp : Op → Type} {ε α χ Env σ : Type}

def Pool.init (s : σ) : Pool Call Op Resp ε α σ := ⟨s, fun _ => none, 0⟩

namespace Machine

variable (M : Machine Call Op Resp ε α χ Env σ)

/-- Process `i` goes on with `p`: it waits for the next operation or ends. -/
def settle (i : ℕ) (c : Call) (P : Pool Call Op Resp ε α σ) (s : σ) :
    Prog Op Resp ε α → Pool Call Op Resp ε α σ
  | .ret a => { P with shared := M.finish i c (.ok a) s, procs := Function.update P.procs i none }
  | .throw e =>
    { P with shared := M.finish i c (.error e) s, procs := Function.update P.procs i none }
  | .op o k => { P with shared := s, procs := Function.update P.procs i (some ⟨c, o, k⟩) }

def step (P : Pool Call Op Resp ε α σ) : Act Call χ Env → Option (Pool Call Op Resp ε α σ)
  | .start c =>
    (M.accept P.next c P.shared).map fun s =>
      -- the first part of a call runs at once, in the action that starts it
      M.settle P.next c { P with next := P.next + 1 } s (M.code c)
  | .step i x =>
    (P.procs i).bind fun w =>
      (M.exec i w.op x P.shared).map fun r => M.settle i w.call P r.2 (w.next r.1)
  | .env e => (M.env e P.shared).map fun s => { P with shared := s }
  -- a crash loses the calls, and of the state what `halt` forgets
  | .halt => some { P with shared := M.halt P.shared, procs := fun _ => none }

/-- A run whose actions satisfy `C` on the pools they act on. -/
def run (C : Pool Call Op Resp ε α σ → Act Call χ Env → Prop) [∀ P a, Decidable (C P a)] :
    Pool Call Op Resp ε α σ → List (Act Call χ Env) → Option (Pool Call Op Resp ε α σ)
  | P, [] => some P
  | P, a :: as => if C P a then (M.step P a).bind fun P' => run C P' as else none

/-- The pools that actions which satisfy `C` lead to. -/
inductive Reach (C : Pool Call Op Resp ε α σ → Act Call χ Env → Prop)
    (P₀ : Pool Call Op Resp ε α σ) : Pool Call Op Resp ε α σ → Prop
  | refl : Reach C P₀ P₀
  | step {P P' : Pool Call Op Resp ε α σ} {a : Act Call χ Env} (hP : Reach C P₀ P) (hC : C P a)
      (ha : M.step P a = some P') : Reach C P₀ P'

variable {M}

theorem reach_of_run {C : Pool Call Op Resp ε α σ → Act Call χ Env → Prop}
    [∀ P a, Decidable (C P a)] {P₀ P P' : Pool Call Op Resp ε α σ} {as : List (Act Call χ Env)}
    (hP : M.Reach C P₀ P) (h : M.run C P as = some P') : M.Reach C P₀ P' := by
  induction as generalizing P with
  | nil =>
    cases h
    exact hP
  | cons a as ih =>
    obtain ⟨hC, h⟩ := Option.ite_none_right_eq_some.mp h
    obtain ⟨P₁, ha, h⟩ := Option.bind_eq_some_iff.mp h
    exact ih (.step hP hC ha) h

theorem Reach.trans {C : Pool Call Op Resp ε α σ → Act Call χ Env → Prop}
    {P₀ P P' : Pool Call Op Resp ε α σ} (h : M.Reach C P₀ P) (h' : M.Reach C P P') :
    M.Reach C P₀ P' := by
  induction h' with
  | refl => exact h
  | step _ hC ha ih => exact ih.step hC ha

/-- A crash leaves no call running. -/
theorem Reach.halt {C : Pool Call Op Resp ε α σ → Act Call χ Env → Prop}
    {P₀ P : Pool Call Op Resp ε α σ} (hP : M.Reach C P₀ P) (hC : C P .halt) :
    M.Reach C P₀ { P with shared := M.halt P.shared, procs := fun _ => none } :=
  .step hP hC rfl

/-- An invariant of the shared state that every kind of action keeps. -/
theorem Reach.inv {C : Pool Call Op Resp ε α σ → Act Call χ Env → Prop}
    (I : Pool Call Op Resp ε α σ → Prop) {P₀ P : Pool Call Op Resp ε α σ} (h0 : I P₀)
    (hstep : ∀ P a P', I P → C P a → M.step P a = some P' → I P') (hP : M.Reach C P₀ P) : I P := by
  induction hP with
  | refl => exact h0
  | step _ hC ha ih => exact hstep _ _ _ ih hC ha

section Settle

variable {i j : ℕ} {c : Call} {P : Pool Call Op Resp ε α σ} {s : σ} {p : Prog Op Resp ε α}

theorem next_settle : (M.settle i c P s p).next = P.next := by
  cases p <;> rfl

theorem procs_settle_of_ne (hne : j ≠ i) : (M.settle i c P s p).procs j = P.procs j := by
  cases p <;> exact Function.update_of_ne hne _ _

theorem procs_settle_self {w : Waiting Call Op Resp ε α}
    (h : (M.settle i c P s p).procs i = some w) : w.call = c ∧ p = .op w.op w.next := by
  cases p with
  | ret a =>
    change Function.update P.procs i none i = some w at h
    rw [Function.update_self] at h
    cases h
  | throw e =>
    change Function.update P.procs i none i = some w at h
    rw [Function.update_self] at h
    cases h
  | op o k =>
    change Function.update P.procs i (some ⟨c, o, k⟩) i = some w at h
    rw [Function.update_self] at h
    cases h
    exact ⟨rfl, rfl⟩

end Settle

/-- The processes were all started. -/
def Numbered (P : Pool Call Op Resp ε α σ) : Prop := ∀ i w, P.procs i = some w → i < P.next

theorem numbered_settle {P : Pool Call Op Resp ε α σ} {i : ℕ} {c : Call} {s : σ}
    {p : Prog Op Resp ε α} (hi : i < P.next) (h : Numbered P) : Numbered (M.settle i c P s p) := by
  intro j w hj
  rw [next_settle]
  rcases eq_or_ne j i with rfl | hne
  · exact hi
  · rw [procs_settle_of_ne hne] at hj
    exact h j w hj

theorem numbered_step {P P' : Pool Call Op Resp ε α σ} {a : Act Call χ Env} (h : Numbered P)
    (ha : M.step P a = some P') : Numbered P' := by
  cases a with
  | start c =>
    obtain ⟨s', _, rfl⟩ := Option.map_eq_some_iff.mp ha
    -- the new process has the number that was free
    exact numbered_settle (Nat.lt_succ_self _) fun j w hj => Nat.lt_succ_of_lt (h j w hj)
  | step i x =>
    obtain ⟨w, hw, ha⟩ := Option.bind_eq_some_iff.mp ha
    obtain ⟨r, _, rfl⟩ := Option.map_eq_some_iff.mp ha
    exact numbered_settle (h i w hw) h
  | env e =>
    obtain ⟨s', _, rfl⟩ := Option.map_eq_some_iff.mp ha
    exact h
  | halt =>
    cases ha
    exact fun j w hj => nomatch hj

/-- What every waiting call can still perform is among the operations of its call. -/
def Within (φ : Call → Op → Prop) (P : Pool Call Op Resp ε α σ) : Prop :=
  ∀ i w, P.procs i = some w → (Prog.op w.op w.next).Each (φ w.call)

/-- A relation by which every action of a run moves the shared state, given the operations that
the calls of the run can perform. -/
structure Moves (M : Machine Call Op Resp ε α χ Env σ)
    (C : Pool Call Op Resp ε α σ → Act Call χ Env → Prop) (φ : Call → Op → Prop)
    (R : σ → σ → Prop) : Prop where
  refl : ∀ s, R s s
  trans : ∀ {s₁ s₂ s₃}, R s₁ s₂ → R s₂ s₃ → R s₁ s₃
  code : ∀ {P c}, C P (.start c) → (M.code c).Each (φ c)
  accept : ∀ {i c s s'}, M.accept i c s = some s' → R s s'
  exec : ∀ {i c o x s r s'}, φ c o → M.exec i o x s = some (r, s') → R s s'
  finish : ∀ i c r s, R s (M.finish i c r s)
  env : ∀ {e s s'}, M.env e s = some s' → R s s'
  halt : ∀ s, R s (M.halt s)

namespace Moves

variable {C : Pool Call Op Resp ε α σ → Act Call χ Env → Prop} {φ : Call → Op → Prop}
  {R : σ → σ → Prop}

/-- Process `i` has moved from `s` to `s'` and goes on with `p`. -/
theorem settle (hM : M.Moves C φ R) {P : Pool Call Op Resp ε α σ} {i : ℕ} {c : Call} {s s' : σ}
    {p : Prog Op Resp ε α} (hs : R s s') (hp : p.Each (φ c)) (h : Within φ P) :
    R s (M.settle i c P s' p).shared ∧ Within φ (M.settle i c P s' p) := by
  -- the other processes stay as they are
  have hwithin : Within φ (M.settle i c P s' p) := by
    intro j w hj
    rcases eq_or_ne j i with rfl | hne
    · obtain ⟨hcall, hop⟩ := procs_settle_self hj
      rw [hcall, ← hop]
      exact hp
    · rw [procs_settle_of_ne hne] at hj
      exact h j w hj
  refine ⟨?_, hwithin⟩
  cases p with
  | ret a => exact hM.trans hs (hM.finish _ _ _ _)
  | throw e => exact hM.trans hs (hM.finish _ _ _ _)
  | op o k => exact hs

theorem step (hM : M.Moves C φ R) {P P' : Pool Call Op Resp ε α σ} {a : Act Call χ Env}
    (hC : C P a) (h : Within φ P) (ha : M.step P a = some P') :
    R P.shared P'.shared ∧ Within φ P' := by
  cases a with
  | start c =>
    obtain ⟨s', hs, rfl⟩ := Option.map_eq_some_iff.mp ha
    exact hM.settle (hM.accept hs) (hM.code hC) h
  | step i x =>
    obtain ⟨w, hw, ha⟩ := Option.bind_eq_some_iff.mp ha
    obtain ⟨⟨r, s'⟩, hr, rfl⟩ := Option.map_eq_some_iff.mp ha
    obtain ⟨ho, hk⟩ := h i w hw
    exact hM.settle (hM.exec ho hr) (hk r) h
  | env e =>
    obtain ⟨s', hs, rfl⟩ := Option.map_eq_some_iff.mp ha
    exact ⟨hM.env hs, h⟩
  | halt =>
    cases ha
    exact ⟨hM.halt _, fun _ _ hw => nomatch hw⟩

/-- What every action moves the state by, every run moves it by. -/
theorem reach (hM : M.Moves C φ R) {P P' : Pool Call Op Resp ε α σ} (h : Within φ P)
    (hP : M.Reach C P P') : R P.shared P'.shared ∧ Within φ P' := by
  induction hP with
  | refl => exact ⟨hM.refl _, h⟩
  | step _ hC ha ih =>
    obtain ⟨hs, hwithin⟩ := hM.step hC ih.2 ha
    exact ⟨hM.trans ih.1 hs, hwithin⟩

theorem within_init (s : σ) : Within φ (Pool.init s : Pool Call Op Resp ε α σ) :=
  fun _ _ hw => nomatch hw

end Moves

end Machine

/-- What each call relies on, guarantees and ends with. `Inv n s` may use that `n` calls have
been started. -/
structure RelyGuarantee (M : Machine Call Op Resp ε α χ Env σ)
    (C : Pool Call Op Resp ε α σ → Act Call χ Env → Prop) where
  Inv : ℕ → σ → Prop
  stepRel : ℕ → Call → (o : Op) → σ → Except ε (Resp o) → σ → Prop
  rely : ℕ → Call → σ → σ → Prop
  guar : ℕ → Call → σ → σ → Prop
  post : ℕ → Call → Except ε α → σ → Prop
  rely_refl : ∀ {i c s}, rely i c s s
  rely_trans : ∀ {i c s₁ s₂ s₃}, rely i c s₁ s₂ → rely i c s₂ s₃ → rely i c s₁ s₃
  step_of : ∀ {P i x w r s'}, Inv P.next P.shared → C P (.step i x) → P.procs i = some w →
    M.exec i w.op x P.shared = some (r, s') → stepRel i w.call w.op P.shared r s'
  guar_inv : ∀ {n i c s s'}, i < n → Inv n s → guar i c s s' → Inv n s'
  guar_rely : ∀ {n i j c d s s'}, i ≠ j → Inv n s → guar i c s s' → rely j d s s'
  finish_guar : ∀ {n i c r s}, Inv n s → post i c r s → guar i c s (M.finish i c r s)
  accept_inv : ∀ {P c s'}, Inv P.next P.shared → C P (.start c) →
    M.accept P.next c P.shared = some s' → Inv (P.next + 1) s'
  accept_rely : ∀ {P c s' j d}, j < P.next → Inv P.next P.shared → C P (.start c) →
    M.accept P.next c P.shared = some s' → rely j d P.shared s'
  accept_holds : ∀ {P c s'}, Inv P.next P.shared → C P (.start c) →
    M.accept P.next c P.shared = some s' →
    (M.code c).Holds (stepRel P.next c) (rely P.next c) (guar P.next c) (post P.next c) s'
  env_inv : ∀ {P e s'}, Inv P.next P.shared → C P (.env e) → M.env e P.shared = some s' →
    Inv P.next s'
  env_rely : ∀ {P e s' j d}, Inv P.next P.shared → C P (.env e) →
    M.env e P.shared = some s' → rely j d P.shared s'
  halt_inv : ∀ {P}, Inv P.next P.shared → C P .halt → Inv P.next (M.halt P.shared)

namespace RelyGuarantee

variable {M : Machine Call Op Resp ε α χ Env σ}
  {C : Pool Call Op Resp ε α σ → Act Call χ Env → Prop} (rg : RelyGuarantee M C)

/-- The promise of a waiting call, in state `s`. -/
def Promise (i : ℕ) (w : Waiting Call Op Resp ε α) (s : σ) : Prop :=
  (Prog.op w.op w.next).Holds (rg.stepRel i w.call) (rg.rely i w.call) (rg.guar i w.call)
    (rg.post i w.call) s

structure Good (P : Pool Call Op Resp ε α σ) : Prop where
  inv : rg.Inv P.next P.shared
  old : ∀ i w, P.procs i = some w → i < P.next
  promise : ∀ i w, P.procs i = some w → rg.Promise i w P.shared

variable {rg}

theorem Promise.stable {i : ℕ} {w : Waiting Call Op Resp ε α} {s s' : σ}
    (h : rg.Promise i w s) (hR : rg.rely i w.call s s') : rg.Promise i w s' := by
  refine Prog.Holds.stable_op ?_ hR h
  intro a b c hab hbc
  exact rg.rely_trans hab hbc

/-- Process `i` has moved from `s` to `s'` by its guarantee and goes on with `p`. -/
theorem Good.settle {P : Pool Call Op Resp ε α σ} {i : ℕ} {c : Call} {s' : σ}
    {p : Prog Op Resp ε α} (hi : i < P.next) (hinv : rg.Inv P.next s')
    (old : ∀ j w, P.procs j = some w → j < P.next)
    (others : ∀ j w, j ≠ i → P.procs j = some w → rg.Promise j w s')
    (hp : p.Holds (rg.stepRel i c) (rg.rely i c) (rg.guar i c) (rg.post i c) s') :
    rg.Good (M.settle i c P s' p) := by
  -- the other processes stay, and process `i` is one of those started
  have hold (w' : Option (Waiting Call Op Resp ε α)) (j : ℕ) (w : Waiting Call Op Resp ε α)
      (hj : Function.update P.procs i w' j = some w) : j < P.next := by
    rcases eq_or_ne j i with rfl | hne
    · exact hi
    · rw [Function.update_of_ne hne] at hj
      exact old j w hj
  -- at the end of the call its guarantee covers what `finish` does
  have hend (r : Except ε α) (hr : rg.post i c r s') :
      rg.Good { P with
        shared := M.finish i c r s', procs := Function.update P.procs i none } := by
    have hg := rg.finish_guar hinv hr
    refine ⟨rg.guar_inv hi hinv hg, hold none, fun j w hj => ?_⟩
    change Function.update P.procs i none j = some w at hj
    rcases eq_or_ne j i with rfl | hne
    · simp at hj
    · rw [Function.update_of_ne hne] at hj
      exact (others j w hne hj).stable (rg.guar_rely hne.symm hinv hg)
  cases p with
  | ret a => exact hend _ hp
  | throw e => exact hend _ hp
  | op o k =>
    refine ⟨hinv, hold _, fun j w hj => ?_⟩
    change Function.update P.procs i (some ⟨c, o, k⟩) j = some w at hj
    -- of the others nothing is known but that they rely on what `i` guarantees
    rcases eq_or_ne j i with rfl | hne
    · simp only [Function.update_self, Option.some.injEq] at hj
      subst hj
      exact hp
    · rw [Function.update_of_ne hne] at hj
      exact others j w hne hj

theorem Good.step {P P' : Pool Call Op Resp ε α σ} {a : Act Call χ Env} (h : rg.Good P)
    (hC : C P a) (ha : M.step P a = some P') : rg.Good P' := by
  cases a with
  | start c =>
    obtain ⟨s', hs', rfl⟩ := Option.map_eq_some_iff.mp ha
    refine Good.settle (Nat.lt_succ_self _) (rg.accept_inv h.inv hC hs')
      (fun j w hj => Nat.lt_succ_of_lt (h.old j w hj)) (fun j w _ hj => ?_)
      (rg.accept_holds h.inv hC hs')
    exact (h.promise j w hj).stable (rg.accept_rely (h.old j w hj) h.inv hC hs')
  | step i x =>
    obtain ⟨w, hw, ha⟩ := Option.bind_eq_some_iff.mp ha
    obtain ⟨⟨r, s'⟩, hr, rfl⟩ := Option.map_eq_some_iff.mp ha
    -- a call promises its guarantee from any state that it may find
    obtain ⟨hg, hk⟩ := h.promise i w hw P.shared rg.rely_refl r s' (rg.step_of h.inv hC hw hr)
    have hi := h.old i w hw
    refine Good.settle hi (rg.guar_inv hi h.inv hg) h.old (fun j v hne hj => ?_) hk
    exact (h.promise j v hj).stable (rg.guar_rely hne.symm h.inv hg)
  | env e =>
    obtain ⟨s', hs', rfl⟩ := Option.map_eq_some_iff.mp ha
    have hinv := rg.env_inv h.inv hC hs'
    exact ⟨hinv, h.old, fun j w hj => (h.promise j w hj).stable (rg.env_rely h.inv hC hs')⟩
  | halt =>
    cases ha
    have hinv := rg.halt_inv h.inv hC
    exact ⟨hinv, fun j w hj => (nomatch hj), fun j w hj => (nomatch hj)⟩

/-- A relation that every guarantee implies, and the other actions, holds along every run. -/
theorem Good.moves {R : σ → σ → Prop} (hrefl : ∀ s, R s s)
    (htrans : ∀ {s₁ s₂ s₃}, R s₁ s₂ → R s₂ s₃ → R s₁ s₃)
    (hguar : ∀ {i c s s'}, rg.guar i c s s' → R s s')
    (haccept : ∀ {i c s s'}, M.accept i c s = some s' → R s s')
    (henv : ∀ {e s s'}, M.env e s = some s' → R s s') (hhalt : ∀ s, R s (M.halt s))
    {P P' : Pool Call Op Resp ε α σ} (h : rg.Good P) (hP : M.Reach C P P') :
    R P.shared P'.shared ∧ rg.Good P' := by
  -- at the end of a call `finish` is under the guarantee as well
  have hsettle {P : Pool Call Op Resp ε α σ} {n i : ℕ} {c : Call} {s₀ s : σ} {p : Prog Op Resp ε α}
      (hinv : rg.Inv n s) (hs : R s₀ s)
      (hp : p.Holds (rg.stepRel i c) (rg.rely i c) (rg.guar i c) (rg.post i c) s) :
      R s₀ (M.settle i c P s p).shared := by
    cases p with
    | ret a => exact htrans hs (hguar (rg.finish_guar hinv hp))
    | throw e => exact htrans hs (hguar (rg.finish_guar hinv hp))
    | op o k => exact hs
  induction hP with
  | refl => exact ⟨hrefl _, h⟩
  | @step P₁ P₂ a _ hC ha ih =>
    obtain ⟨hmoved, hgood⟩ := ih
    refine ⟨htrans hmoved ?_, hgood.step hC ha⟩
    cases a with
    | start c =>
      obtain ⟨s', hs', rfl⟩ := Option.map_eq_some_iff.mp ha
      exact hsettle (rg.accept_inv hgood.inv hC hs') (haccept hs')
        (rg.accept_holds hgood.inv hC hs')
    | step i x =>
      obtain ⟨w, hw, ha⟩ := Option.bind_eq_some_iff.mp ha
      obtain ⟨⟨r, s'⟩, hr, rfl⟩ := Option.map_eq_some_iff.mp ha
      obtain ⟨hg, hk⟩ := hgood.promise i w hw _ rg.rely_refl r s' (rg.step_of hgood.inv hC hw hr)
      exact hsettle (rg.guar_inv (hgood.old i w hw) hgood.inv hg) (hguar hg) hk
    | env e =>
      obtain ⟨s', hs', rfl⟩ := Option.map_eq_some_iff.mp ha
      exact henv hs'
    | halt =>
      cases ha
      exact hhalt _

/-- The rely/guarantee rule. -/
theorem good_of_reach (rg : RelyGuarantee M C) {s : σ} (h : rg.Inv 0 s)
    {P : Pool Call Op Resp ε α σ} (hP : M.Reach C (Pool.init s) P) : rg.Good P := by
  induction hP with
  | refl => exact ⟨h, fun i w hi => (nomatch hi), fun i w hi => (nomatch hi)⟩
  | step _ hC ha ih => exact ih.step hC ha

end RelyGuarantee

/-- The rule for runs that spare the waiting calls: what a call relies on is not what the others
guarantee but what the condition `C` of the run grants it. -/
structure Spares (M : Machine Call Op Resp ε α χ Env σ)
    (C : Pool Call Op Resp ε α σ → Act Call χ Env → Prop) (start : σ) where
  Inv : σ → Prop
  rely : Call → σ → σ → Prop
  init : Inv start
  rely_refl : ∀ {c s}, rely c s s
  rely_trans : ∀ {c s₁ s₂ s₃}, rely c s₁ s₂ → rely c s₂ s₃ → rely c s₁ s₃
  accept : ∀ {i c s s'}, Inv s → M.accept i c s = some s' → Inv s'
  code : ∀ {P c s'}, C P (.start c) → M.accept P.next c P.shared = some s' →
    (M.code c).Holds (fun o s r s' => ∃ x, M.exec P.next o x s = some (r, s')) (rely c)
      (fun s s' => Inv s → Inv s') (fun _ _ => True) s'
  finish : ∀ {i c r s}, Inv s → Inv (M.finish i c r s)
  env : ∀ {e s s'}, Inv s → M.env e s = some s' → Inv s'
  halt : ∀ {P}, M.Reach C (Pool.init start) P → Inv P.shared → Inv (M.halt P.shared)
  spared : ∀ {P a P' j w}, M.Reach C (Pool.init start) P → C P a → M.step P a = some P' →
    P.procs j = some w → (∀ x, a ≠ .step j x) → rely w.call P.shared P'.shared

namespace Spares

variable {M : Machine Call Op Resp ε α χ Env σ}
  {C : Pool Call Op Resp ε α σ → Act Call χ Env → Prop} {start : σ}

/-- The promise of process `i` when it is left with `p` of the call `c`. -/
def Promise (sp : Spares M C start) (i : ℕ) (c : Call) (p : Prog Op Resp ε α) : σ → Prop :=
  p.Holds (fun o s r s' => ∃ x, M.exec i o x s = some (r, s')) (sp.rely c)
    (fun s s' => sp.Inv s → sp.Inv s') fun _ _ => True

structure Good (sp : Spares M C start) (P : Pool Call Op Resp ε α σ) : Prop where
  inv : sp.Inv P.shared
  old : Machine.Numbered P
  promise : ∀ i w, P.procs i = some w → sp.Promise i w.call (.op w.op w.next) P.shared

variable {sp : Spares M C start} {P P' : Pool Call Op Resp ε α σ}

theorem inv_settle {i : ℕ} {c : Call} {s : σ} {p : Prog Op Resp ε α} (hs : sp.Inv s) :
    sp.Inv (M.settle i c P s p).shared := by
  cases p with
  | ret a => exact sp.finish hs
  | throw e => exact sp.finish hs
  | op o k => exact hs

theorem Good.step {a : Act Call χ Env} (h : sp.Good P) (hP : M.Reach C (Pool.init start) P)
    (hC : C P a) (ha : M.step P a = some P') : sp.Good P' := by
  have hold := Machine.numbered_step h.old ha
  -- a call that does not move is spared
  have hothers {j : ℕ} {w : Waiting Call Op Resp ε α} (hw : P.procs j = some w)
      (hj : ∀ x, a ≠ .step j x) : sp.Promise j w.call (.op w.op w.next) P'.shared := by
    have hrely : sp.rely w.call P.shared P'.shared := sp.spared hP hC ha hw hj
    refine Prog.Holds.stable_op ?_ hrely (h.promise j w hw)
    intro s₁ s₂ s₃ h₁ h₂
    exact sp.rely_trans h₁ h₂
  have hmoves {i : ℕ} {c : Call} {s : σ} {p : Prog Op Resp ε α} {Q : Pool Call Op Resp ε α σ}
      (hP' : M.settle i c Q s p = P') (hprocs : Q.procs = P.procs) (hs : sp.Inv s)
      (hp : sp.Promise i c p s) (hi : ∀ j, j ≠ i → ∀ w, P.procs j = some w → ∀ x, a ≠ .step j x) :
      sp.Good P' := by
    refine ⟨hP' ▸ inv_settle hs, hold, fun j w hw => ?_⟩
    rw [← hP'] at hw
    rcases eq_or_ne j i with rfl | hne
    · obtain ⟨hcall, rfl⟩ := Machine.procs_settle_self hw
      rw [← hP', hcall]
      exact hp
    · rw [Machine.procs_settle_of_ne hne, hprocs] at hw
      exact hothers hw (hi j hne w hw)
  cases a with
  | start c =>
    obtain ⟨s', hs, hP'⟩ := Option.map_eq_some_iff.mp ha
    exact hmoves hP' rfl (sp.accept h.inv hs) (sp.code hC hs) fun _ _ _ _ _ => nofun
  | step i x =>
    obtain ⟨w, hw, ha⟩ := Option.bind_eq_some_iff.mp ha
    obtain ⟨⟨r, s'⟩, hr, hP'⟩ := Option.map_eq_some_iff.mp ha
    obtain ⟨hinv, hk⟩ := h.promise i w hw P.shared sp.rely_refl r s' ⟨x, hr⟩
    refine hmoves hP' rfl (hinv h.inv) hk fun j hne _ _ y hy => ?_
    cases hy
    exact hne rfl
  | env e =>
    obtain ⟨s', hs, rfl⟩ := Option.map_eq_some_iff.mp ha
    exact ⟨sp.env h.inv hs, hold, fun j w hw => hothers hw nofun⟩
  | halt =>
    cases ha
    exact ⟨sp.halt hP h.inv, hold, fun j w hw => nomatch hw⟩

theorem good_of_reach (sp : Spares M C start) (hP : M.Reach C (Pool.init start) P) : sp.Good P := by
  induction hP with
  | refl => exact ⟨sp.init, fun _ _ h => (nomatch h), fun _ _ h => nomatch h⟩
  | step hP hC ha ih => exact ih.step hP hC ha

end Spares

end Async
