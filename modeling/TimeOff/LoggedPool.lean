import TimeOff.AsyncPool

/-! A pool that writes down the calls whose marked operation was taken. The log follows the run
and nothing reads it. -/
namespace Async

universe u

structure Logged (Call σ : Type) where
  state : σ
  /-- The call of each process that has started. -/
  calls : ℕ → Option Call
  /-- The calls that took a marked operation, the latest one last. -/
  log : List Call

variable {Call : Type} {Op : Type u} {Resp : Op → Type} {ε α χ Env σ : Type}

def Logged.init (s : σ) : Logged Call σ := ⟨s, fun _ => none, []⟩

def Machine.logged (M : Machine Call Op Resp ε α χ Env σ) (mark : Op → χ → Bool) :
    Machine Call Op Resp ε α χ Env (Logged Call σ) where
  code := M.code
  accept i c L := (M.accept i c L.state).map fun s =>
    { L with state := s, calls := Function.update L.calls i (some c) }
  exec i o x L := (M.exec i o x L.state).map fun r => (r.1,
    -- the log is written in the step of the marked operation, before the call goes on
    { L with
      state := r.2
      log := if mark o x then L.log ++ (L.calls i).toList else L.log })
  finish i c r L := { L with state := M.finish i c r L.state }
  env e L := (M.env e L.state).map fun s => { L with state := s }
  halt L := { L with state := M.halt L.state }

/-- The pool without its log. -/
def Pool.erased (P : Pool Call Op Resp ε α (Logged Call σ)) : Pool Call Op Resp ε α σ :=
  ⟨P.shared.state, P.procs, P.next⟩

namespace Machine

variable {M : Machine Call Op Resp ε α χ Env σ}

theorem erased_settle (mark : Op → χ → Bool) (i : ℕ) (c : Call)
    (P : Pool Call Op Resp ε α (Logged Call σ)) (L : Logged Call σ) (p : Prog Op Resp ε α) :
    ((M.logged mark).settle i c P L p).erased = M.settle i c P.erased L.state p := by
  cases p <;> rfl

/-- The log neither stops a step nor changes it. -/
theorem erased_step (mark : Op → χ → Bool) (P : Pool Call Op Resp ε α (Logged Call σ))
    (a : Act Call χ Env) :
    ((M.logged mark).step P a).map Pool.erased = M.step P.erased a := by
  -- each action does the same to the state, under the projections of the log
  cases a with
  | start c =>
    change (Option.map _ (Option.map _ (M.accept P.next c P.shared.state))).map _ =
      Option.map _ (M.accept P.next c P.shared.state)
    cases M.accept P.next c P.shared.state with
    | none => rfl
    | some s => exact congrArg some (erased_settle mark P.next c { P with next := P.next + 1 } _ _)
  | step i x =>
    change ((P.procs i).bind _).map _ = (P.procs i).bind _
    cases P.procs i with
    | none => rfl
    | some w =>
      change (Option.map _ (Option.map _ (M.exec i w.op x P.shared.state))).map _ =
        Option.map _ (M.exec i w.op x P.shared.state)
      cases M.exec i w.op x P.shared.state with
      | none => rfl
      | some r => exact congrArg some (erased_settle mark i w.call P _ _)
  | env e =>
    change (Option.map _ (Option.map _ (M.env e P.shared.state))).map _ =
      Option.map _ (M.env e P.shared.state)
    cases M.env e P.shared.state <;> rfl
  | halt => rfl

/-- Every run of the machine has its log. -/
theorem reach_logged (mark : Op → χ → Bool)
    {C : Pool Call Op Resp ε α σ → Act Call χ Env → Prop} {s : σ}
    {P : Pool Call Op Resp ε α σ} (hP : M.Reach C (Pool.init s) P) :
    ∃ Q : Pool Call Op Resp ε α (Logged Call σ), Q.erased = P ∧
      (M.logged mark).Reach (fun Q a => C Q.erased a) (Pool.init (.init s)) Q := by
  induction hP with
  | refl => exact ⟨Pool.init (.init s), rfl, .refl⟩
  | step _ hC ha ih =>
    obtain ⟨Q, rfl, hQ⟩ := ih
    -- the logged pool takes the same step
    have hlogged := (erased_step mark Q _).trans ha
    obtain ⟨Q', hstep, hQ'⟩ := Option.map_eq_some_iff.mp hlogged
    exact ⟨Q', hQ', .step hQ hC hstep⟩

end Machine

end Async
