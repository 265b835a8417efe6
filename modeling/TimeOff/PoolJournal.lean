import TimeOff.AsyncPool
import TimeOff.Transitions

/-! Pools whose processes keep a journal of what their operations were answered. Nothing reads the
journals, so that every run of a pool is a run of the pool that keeps them. -/
namespace Async

variable {Call : Type} {Op : Type} {Resp : Op → Type} {ε α χ Env σ σ' γ : Type}

section Projects

/-- The state seen through `π`. -/
def Pool.seen (π : σ' → σ) (P : Pool Call Op Resp ε α σ') : Pool Call Op Resp ε α σ :=
  ⟨π P.shared, P.procs, P.next⟩

/-- Seen through `π`, the actions of `M'` are those of `M`. -/
structure Machine.Projects (M' : Machine Call Op Resp ε α χ Env σ')
    (M : Machine Call Op Resp ε α χ Env σ) (π : σ' → σ) : Prop where
  code : ∀ c, M'.code c = M.code c
  accept : ∀ i c s, (M'.accept i c s).map π = M.accept i c (π s)
  exec : ∀ i o x s, (M'.exec i o x s).map (fun r => (r.1, π r.2)) = M.exec i o x (π s)
  finish : ∀ i c r s, π (M'.finish i c r s) = M.finish i c r (π s)
  env : ∀ e s, (M'.env e s).map π = M.env e (π s)
  halt : ∀ s, π (M'.halt s) = M.halt (π s)

namespace Machine.Projects

variable {M' : Machine Call Op Resp ε α χ Env σ'} {M : Machine Call Op Resp ε α χ Env σ}
  {π : σ' → σ}

theorem settle (h : M'.Projects M π) (i : ℕ) (c : Call) (P : Pool Call Op Resp ε α σ') (s : σ')
    (p : Prog Op Resp ε α) : (M'.settle i c P s p).seen π = M.settle i c (P.seen π) (π s) p := by
  cases p with
  | ret a => simp only [Machine.settle, Pool.seen, h.finish]
  | throw e => simp only [Machine.settle, Pool.seen, h.finish]
  | op o k => rfl

theorem step (h : M'.Projects M π) (P : Pool Call Op Resp ε α σ') (a : Act Call χ Env) :
    (M'.step P a).map (Pool.seen π) = M.step (P.seen π) a := by
  cases a with
  | start c =>
    simp only [Machine.step, Option.map_map]
    rw [show (P.seen π).shared = π P.shared from rfl, ← h.accept, Option.map_map]
    congr 1
    funext s
    exact (h.settle _ _ _ _ _).trans (by rw [h.code]; rfl)
  | step i x =>
    simp only [Machine.step, Option.map_bind]
    refine Option.bind_congr fun w _ => ?_
    rw [show (P.seen π).shared = π P.shared from rfl, ← h.exec, Function.comp_apply,
      Option.map_map, Option.map_map]
    congr 1
    funext r
    exact h.settle _ _ _ _ _
  | env e =>
    simp only [Machine.step, Option.map_map]
    rw [show (P.seen π).shared = π P.shared from rfl, ← h.env, Option.map_map]
    rfl
  | halt =>
    simp only [Machine.step, Option.map_some, Pool.seen, h.halt]

/-- Every run of the one machine is a run of the other. -/
theorem run (h : M'.Projects M π) {P : Pool Call Op Resp ε α σ'} {P₁ : Pool Call Op Resp ε α σ}
    {as : List (Act Call χ Env)} (hrun : Transitions.run M.step (P.seen π) as = some P₁) :
    ∃ Q, Transitions.run M'.step P as = some Q ∧ Q.seen π = P₁ := by
  induction as generalizing P with
  | nil => exact ⟨P, rfl, Option.some.inj hrun⟩
  | cons a as ih =>
    obtain ⟨P₂, ha, hrest⟩ := Option.bind_eq_some_iff.mp hrun
    obtain ⟨Q₂, ha', rfl⟩ := Option.map_eq_some_iff.mp ((h.step P a).trans ha)
    obtain ⟨Q, hQ, hmap⟩ := ih hrest
    exact ⟨Q, Option.bind_eq_some_iff.mpr ⟨Q₂, ha', hQ⟩, hmap⟩

end Machine.Projects

end Projects

section Journaled

/-- How a process keeps its journal: what it writes down of an operation, and at its end. -/
structure Scribe (Op : Type) (Resp : Op → Type) (ε α γ : Type) where
  blank : γ
  note : (o : Op) → Except ε (Resp o) → γ → γ
  close : Except ε α → γ → γ

structure Journaled (γ σ : Type) where
  state : σ
  journal : ℕ → γ

variable (M : Machine Call Op Resp ε α χ Env σ) (sc : Scribe Op Resp ε α γ)

def Machine.journaled : Machine Call Op Resp ε α χ Env (Journaled γ σ) where
  code := M.code
  accept i c s := (M.accept i c s.state).map fun s' => { s with state := s' }
  exec i o x s := (M.exec i o x s.state).map fun r =>
    (r.1, ⟨r.2, Function.update s.journal i (sc.note o r.1 (s.journal i))⟩)
  finish i c r s :=
    ⟨M.finish i c r s.state, Function.update s.journal i (sc.close r (s.journal i))⟩
  env e s := (M.env e s.state).map fun s' => { s with state := s' }
  -- a crash leaves the journals as they are, unclosed
  halt s := { s with state := M.halt s.state }

def Scribe.start (s : σ) : Journaled γ σ := ⟨s, fun _ => sc.blank⟩

theorem Machine.journaled_projects : (M.journaled sc).Projects M Journaled.state where
  code _ := rfl
  accept i c s := by
    simp only [Machine.journaled, Option.map_map]
    exact Option.map_id'
  exec i o x s := by
    simp only [Machine.journaled, Option.map_map]
    exact Option.map_id'
  finish _ _ _ _ := rfl
  env e s := by
    simp only [Machine.journaled, Option.map_map]
    exact Option.map_id'
  halt _ := rfl

variable {M sc}

theorem Machine.reach_of_steps {P P' : Pool Call Op Resp ε α σ} {as : List (Act Call χ Env)}
    (h : Transitions.run M.step P as = some P') : M.Reach (fun _ _ => True) P P' :=
  Transitions.run_inv (I := M.Reach (fun _ _ => True) P)
    (fun _ _ _ hP ha => hP.step trivial ha) .refl h

end Journaled

end Async
