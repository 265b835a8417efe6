import TimeOff.AsyncPool

/-! A program run alone when every operation has one outcome: the result is computed, part by
part. -/
namespace Async.Prog

universe u

variable {Op : Type u} {Resp : Op → Type} {ε α β σ χ : Type}

def eval (exec : (o : Op) → σ → Option (Except ε (Resp o) × σ)) :
    Prog Op Resp ε α → σ → Option (Except ε α × σ)
  | ret a, s => some (.ok a, s)
  | throw e, s => some (.error e, s)
  | op o k, s => (exec o s).bind fun r => (k r.1).eval exec r.2

variable {exec : (o : Op) → σ → Option (Except ε (Resp o) × σ)} {s s' s'' : σ}

theorem eval_perform {o : Op} {r : Except ε (Resp o)} (h : exec o s = some (r, s')) :
    (perform o : Prog Op Resp ε (Resp o)).eval exec s = some (r, s') := by
  change (exec o s).bind (fun r => (ofExcept r.1).eval exec r.2) = some (r, s')
  rw [h]
  cases r with
  | ok a => rfl
  | error e => rfl

section Sequence

variable {p : Prog Op Resp ε α} {f : α → Prog Op Resp ε β} {a : α} {e : ε}

theorem eval_bind_ok (h : p.eval exec s = some (.ok a, s')) :
    (p.bind f).eval exec s = (f a).eval exec s' := by
  induction p generalizing s with
  | ret a' =>
    cases h
    rfl
  | throw e => cases h
  | op o k ih =>
    obtain ⟨⟨r, s₁⟩, hr, hk⟩ := Option.bind_eq_some_iff.mp h
    have hrest : ((k r).bind f).eval exec s₁ = (f a).eval exec s' := ih r hk
    change (exec o s).bind (fun r => ((k r.1).bind f).eval exec r.2) = _
    rw [hr]
    exact hrest

theorem eval_bind_error (h : p.eval exec s = some (.error e, s')) :
    (p.bind f).eval exec s = some (.error e, s') := by
  induction p generalizing s with
  | ret a => cases h
  | throw e' =>
    cases h
    rfl
  | op o k ih =>
    obtain ⟨⟨r, s₁⟩, hr, hk⟩ := Option.bind_eq_some_iff.mp h
    have hrest : ((k r).bind f).eval exec s₁ = some (.error e, s') := ih r hk
    change (exec o s).bind (fun r => ((k r.1).bind f).eval exec r.2) = _
    rw [hr]
    exact hrest

theorem eval_handle_ok {c : ε → Prog Op Resp ε α} (h : p.eval exec s = some (.ok a, s')) :
    (p.handle c).eval exec s = some (.ok a, s') := by
  induction p generalizing s with
  | ret a' => exact h
  | throw e => cases h
  | op o k ih =>
    obtain ⟨⟨r, s₁⟩, hr, hk⟩ := Option.bind_eq_some_iff.mp h
    have hrest : ((k r).handle c).eval exec s₁ = some (.ok a, s') := ih r hk
    change (exec o s).bind (fun r => ((k r.1).handle c).eval exec r.2) = _
    rw [hr]
    exact hrest

theorem eval_handle_error {c : ε → Prog Op Resp ε α}
    (h : p.eval exec s = some (.error e, s')) :
    (p.handle c).eval exec s = (c e).eval exec s' := by
  induction p generalizing s with
  | ret a => cases h
  | throw e' =>
    cases h
    rfl
  | op o k ih =>
    obtain ⟨⟨r, s₁⟩, hr, hk⟩ := Option.bind_eq_some_iff.mp h
    -- what follows the first operation is a program of its own
    have hrest : ((k r).handle c).eval exec s₁ = (c e).eval exec s' := ih r hk
    change (exec o s).bind (fun r => ((k r.1).handle c).eval exec r.2) = _
    rw [hr]
    exact hrest

theorem eval_attempt {r : Except ε α} (h : p.eval exec s = some (r, s')) :
    p.attempt.eval exec s = some (.ok r, s') := by
  induction p generalizing s with
  | ret a =>
    cases h
    rfl
  | throw e =>
    cases h
    rfl
  | op o k ih =>
    obtain ⟨⟨x, s₁⟩, hx, hk⟩ := Option.bind_eq_some_iff.mp h
    -- the attempt of the rest, from the state the operation leaves
    have hrest : (k x).attempt.eval exec s₁ = some (.ok r, s') := ih x hk
    change (exec o s).bind (fun x => (k x.1).attempt.eval exec x.2) = _
    rw [hx]
    exact hrest

/-- The `finally` block runs after either end of the body. -/
theorem eval_ensuring {f : Prog Op Resp ε Unit} {r : Except ε α}
    (h : p.eval exec s = some (r, s')) (hf : f.eval exec s' = some (.ok (), s'')) :
    (p.ensuring f).eval exec s = some (r, s'') := by
  have hp := eval_attempt h
  cases r with
  | ok a => exact (eval_bind_ok hp).trans (eval_bind_ok hf)
  | error e => exact (eval_bind_ok hp).trans (eval_bind_ok hf)

end Sequence

/-- Where each of its operations has an outcome, a program comes to its end. -/
theorem eval_isSome {φ : Op → Prop} (h : ∀ o s, φ o → (exec o s).isSome = true)
    {p : Prog Op Resp ε α} (hp : p.Each φ) (s : σ) : (p.eval exec s).isSome = true := by
  induction p generalizing s with
  | ret a => rfl
  | throw e => rfl
  | op o k ih =>
    obtain ⟨ho, hrest⟩ := hp
    obtain ⟨⟨r, s₁⟩, hr⟩ := Option.isSome_iff_exists.mp (h o s ho)
    change ((exec o s).bind fun r => (k r.1).eval exec r.2).isSome = true
    rw [hr]
    exact ih r (hrest r) s₁

/-- An evaluation is one of the runs of the program alone. -/
theorem play_of_eval {exec' : (o : Op) → χ → σ → Option (Except ε (Resp o) × σ)}
    (hexec : ∀ o s r, exec o s = some r → ∃ c, exec' o c s = some r) {p : Prog Op Resp ε α}
    {r : Except ε α × σ} (h : p.eval exec s = some r) : ∃ cs, p.play exec' cs s = some r := by
  induction p generalizing s with
  | ret a => exact ⟨[], h⟩
  | throw e => exact ⟨[], h⟩
  | op o k ih =>
    obtain ⟨x, hx, hk⟩ := Option.bind_eq_some_iff.mp h
    obtain ⟨c, hc⟩ := hexec o s x hx
    obtain ⟨cs, hcs⟩ := ih x.1 hk
    exact ⟨c :: cs, Option.bind_eq_some_iff.mpr ⟨x, hc, hcs⟩⟩

end Async.Prog

namespace Async.Machine

universe u

variable {Call : Type} {Op : Type u} {Resp : Op → Type} {ε α χ Env σ τ : Type}
  {M : Machine Call Op Resp ε α χ Env σ} {P : Pool Call Op Resp ε α σ} {i : ℕ} {c : Call}

/-- What the environment does, action by action. -/
def envs (M : Machine Call Op Resp ε α χ Env σ) : List Env → σ → Option σ
  | [], s => some s
  | e :: es, s => (M.env e s).bind (M.envs es)

theorem reach_envs {es : List Env} {s : σ} (h : M.envs es P.shared = some s) :
    M.Reach (fun _ _ => True) P { P with shared := s } := by
  induction es generalizing P with
  | nil =>
    cases h
    exact .refl
  | cons e es ih =>
    obtain ⟨s₁, he, hes⟩ := Option.bind_eq_some_iff.mp h
    have hstep : M.step P (.env e) = some { P with shared := s₁ } := congrArg (Option.map _) he
    have hrest := ih (P := { P with shared := s₁ }) hes
    have hfirst : M.Reach (fun _ _ => True) P { P with shared := s₁ } :=
      .step .refl trivial hstep
    exact hfirst.trans hrest

/-- A program evaluated alone is a run of the pool, if before each operation the environment
does what its outcome needs. -/
theorem reach_of_eval {exec : (o : Op) → τ → Option (Except ε (Resp o) × τ)} (view : τ → σ)
    (hexec : ∀ o t r t', exec o t = some (r, t') →
      ∃ es s x, M.envs es (view t) = some s ∧ M.exec i o x s = some (r, view t'))
    {p : Prog Op Resp ε α} {t t' : τ} {r : Except ε α} (h : p.eval exec t = some (r, t')) :
    M.Reach (fun _ _ => True) (M.settle i c P (view t) p)
      (M.settle i c P (view t') (Prog.ofExcept r)) := by
  induction p generalizing t with
  | ret a =>
    cases h
    exact .refl
  | throw e =>
    cases h
    exact .refl
  | op o k ih =>
    obtain ⟨⟨x, t₁⟩, ho, hk⟩ := Option.bind_eq_some_iff.mp h
    obtain ⟨es, s, choice, henv, hstep⟩ := hexec o t x t₁ ho
    -- the call waits for the operation while the environment acts
    have hwaits : M.Reach (fun _ _ => True) (M.settle i c P (view t) (.op o k))
        (M.settle i c P s (.op o k)) := reach_envs henv
    have hturn : M.step (M.settle i c P s (.op o k)) (.step i choice) =
        some (M.settle i c (M.settle i c P s (.op o k)) (view t₁) (k x)) := by
      change (Function.update P.procs i (some ⟨c, o, k⟩) i).bind _ = _
      rw [Function.update_self]
      exact congrArg (Option.map _) hstep
    have hsame : M.settle i c (M.settle i c P s (.op o k)) (view t₁) (k x) =
        M.settle i c P (view t₁) (k x) := by
      cases k x <;> simp only [settle, Function.update_idem]
    rw [hsame] at hturn
    exact (hwaits.step trivial hturn).trans (ih x hk)

end Async.Machine
