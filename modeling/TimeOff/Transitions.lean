import Mathlib.Logic.Basic
import Mathlib.Data.Option.Basic
import Mathlib.Tactic.Common

/-! Runs of a deterministic transition system over a list of events, and the rule that
carries a property of every step along a run; runs whose steps put something out, and when two
systems put out the same. -/
namespace Transitions

variable {σ ι : Type} (step : σ → ι → Option σ)

def run : σ → List ι → Option σ
  | s, [] => some s
  | s, e :: es => (step s e).bind fun s' => run s' es

/-- Every step that the events take from `s` satisfies `φ`. -/
def Along (φ : σ → ι → σ → Prop) : σ → List ι → Prop
  | _, [] => True
  | s, e :: es => ∀ s', step s e = some s' → φ s e s' ∧ Along φ s' es

variable {step}

theorem run_singleton {s s' : σ} {e : ι} (h : step s e = some s') :
    run step s [e] = some s' :=
  Option.bind_eq_some_iff.mpr ⟨s', h, rfl⟩

theorem run_append {s : σ} {es es' : List ι} :
    run step s (es ++ es') = (run step s es).bind fun s' => run step s' es' := by
  induction es generalizing s with
  | nil => rfl
  | cons e es ih =>
    rw [List.cons_append, run, run, Option.bind_assoc]
    exact Option.bind_congr fun s' _ => ih

/-- What every step keeps, every run keeps. -/
theorem run_inv {I : σ → Prop} (hstep : ∀ s e s', I s → step s e = some s' → I s') {s s' : σ}
    {es : List ι} (h0 : I s) (h : run step s es = some s') : I s' := by
  induction es generalizing s with
  | nil =>
    obtain rfl : s = s' := Option.some.inj h
    exact h0
  | cons e es ih =>
    obtain ⟨s₁, he, hrun⟩ := Option.bind_eq_some_iff.mp h
    have h1 : I s₁ := hstep s e s₁ h0 he
    exact ih h1 hrun

/-- What holds along a run holds of a step after any part of it. -/
theorem Along.at_step {φ : σ → ι → σ → Prop} {s s₁ s₂ : σ} {es : List ι} {e : ι}
    (hrun : run step s es = some s₁) (he : step s₁ e = some s₂) (es' : List ι)
    (h : Along step φ s (es ++ e :: es')) : φ s₁ e s₂ := by
  induction es generalizing s with
  | nil =>
    obtain rfl : s = s₁ := Option.some.inj hrun
    exact (h s₂ he).1
  | cons e' es ih =>
    obtain ⟨s', he', htail⟩ := Option.bind_eq_some_iff.mp hrun
    exact ih htail (h s' he').2

/-- Under an invariant that the steps with `φ` keep, `ψ` follows along every run. -/
theorem Along.mono (I : σ → Prop) {φ ψ : σ → ι → σ → Prop}
    (hstep : ∀ s e s', I s → step s e = some s' → φ s e s' → ψ s e s' ∧ I s') {s : σ}
    {es : List ι} (h0 : I s) (h : Along step φ s es) : Along step ψ s es := by
  induction es generalizing s with
  | nil => exact trivial
  | cons e es ih =>
    intro s' he
    obtain ⟨hφ, htail⟩ := h s' he
    obtain ⟨hψ, h1⟩ := hstep s e s' h0 he hφ
    exact ⟨hψ, ih h1 htail⟩

theorem Along.cons {φ : σ → ι → σ → Prop} {s s' : σ} {e : ι} {es : List ι}
    (he : step s e = some s') (hφ : φ s e s') (h : Along step φ s' es) :
    Along step φ s (e :: es) := by
  intro s'' he'
  obtain rfl : s' = s'' := Option.some.inj (he.symm.trans he')
  exact ⟨hφ, h⟩

theorem along_of_forall {p : ι → Prop} {s : σ} {es : List ι} (hp : ∀ e ∈ es, p e) :
    Along step (fun _ e _ => p e) s es := by
  induction es generalizing s with
  | nil => exact trivial
  | cons e es ih =>
    intro s' _
    exact ⟨hp e List.mem_cons_self, ih fun e' he' => hp e' (List.mem_cons_of_mem e he')⟩

theorem Along.and {φ ψ : σ → ι → σ → Prop} {s : σ} {es : List ι} (h : Along step φ s es)
    (h' : Along step ψ s es) : Along step (fun s e s' => φ s e s' ∧ ψ s e s') s es := by
  induction es generalizing s with
  | nil => exact trivial
  | cons e es ih =>
    intro s' he
    have hs := h s' he
    have hs' := h' s' he
    exact ⟨⟨hs.1, hs'.1⟩, ih hs.2 hs'.2⟩

/-- What the steps with `φ` keep, a run of such steps keeps. -/
theorem Along.inv {I : σ → Prop} {φ : σ → ι → σ → Prop}
    (hstep : ∀ s e s', I s → step s e = some s' → φ s e s' → I s') {s s' : σ} {es : List ι}
    (h0 : I s) (h : Along step φ s es) (hrun : run step s es = some s') : I s' := by
  induction es generalizing s with
  | nil =>
    obtain rfl : s = s' := Option.some.inj hrun
    exact h0
  | cons e es ih =>
    obtain ⟨s₁, he, hrest⟩ := Option.bind_eq_some_iff.mp hrun
    obtain ⟨hφ, htail⟩ := h s₁ he
    exact ih (hstep s e s₁ h0 he hφ) htail hrest

section Outputs

variable {τ ω : Type}

/-- What the steps of a run put out, one output for each event. -/
def outputs (step : σ → ι → Option (ω × σ)) : σ → List ι → Option (List ω)
  | _, [] => some []
  | s, e :: es => (step s e).bind fun p => (outputs step p.2 es).map (p.1 :: ·)

/-- Systems whose related states answer every event alike and stay related put out the same
over every run. -/
theorem outputs_eq {step : σ → ι → Option (ω × σ)} {step' : τ → ι → Option (ω × τ)}
    {R : σ → τ → Prop}
    (hstep : ∀ s t e, R s t →
      Option.Rel (fun p q => p.1 = q.1 ∧ R p.2 q.2) (step s e) (step' t e))
    {s : σ} {t : τ} (h : R s t) (es : List ι) : outputs step s es = outputs step' t es := by
  induction es generalizing s t with
  | nil => rfl
  | cons e es ih =>
    -- both machines refuse the event, or both answer alike and stay related
    have he := hstep s t e h
    simp only [outputs]
    generalize step s e = x at he ⊢
    generalize step' t e = y at he ⊢
    cases he with
    | none => rfl
    | some hpq =>
      obtain ⟨hout, hR⟩ := hpq
      show Option.map _ _ = Option.map _ _
      rw [ih hR, hout]

end Outputs

end Transitions
