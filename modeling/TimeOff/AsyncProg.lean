import Mathlib.Logic.Basic
import Mathlib.Tactic.Common

/-! Asynchronous programs as trees of awaited operations, and a Hoare rule for them
under interference. An operation either answers or rejects; the program goes on
with either outcome. -/
namespace Async

universe u v

inductive Prog (Op : Type u) (Resp : Op → Type) (ε α : Type) : Type u
  | ret (a : α)
  | throw (e : ε)
  | op (o : Op) (k : Except ε (Resp o) → Prog Op Resp ε α)

namespace Prog

variable {Op : Type u} {Op' : Type v} {Resp : Op → Type} {Resp' : Op' → Type}
  {ε α β σ χ : Type}

def bind : Prog Op Resp ε α → (α → Prog Op Resp ε β) → Prog Op Resp ε β
  | ret a, f => f a
  | throw e, _ => throw e
  | op o k, f => op o fun r => (k r).bind f

def handle : Prog Op Resp ε α → (ε → Prog Op Resp ε α) → Prog Op Resp ε α
  | ret a, _ => ret a
  | throw e, h => h e
  | op o k, h => op o fun r => (k r).handle h

/-- The outcome of a program as a value: it never throws. -/
def attempt : Prog Op Resp ε α → Prog Op Resp ε (Except ε α)
  | ret a => ret (.ok a)
  | throw e => ret (.error e)
  | op o k => op o fun r => (k r).attempt

/-- `try { p } finally { f }`. -/
def ensuring (p : Prog Op Resp ε α) (f : Prog Op Resp ε Unit) : Prog Op Resp ε α :=
  p.attempt.bind fun
    | .ok a => f.bind fun _ => ret a
    | .error e => f.bind fun _ => throw e

def ofExcept : Except ε α → Prog Op Resp ε α
  | .ok a => ret a
  | .error e => throw e

def perform (o : Op) : Prog Op Resp ε (Resp o) := op o ofExcept

instance : Monad (Prog Op Resp ε) where
  pure := ret
  bind := bind

instance : MonadExceptOf ε (Prog Op Resp ε) where
  throw := throw
  tryCatch := handle

/-- Every operation of a program replaced by a program over other operations. -/
def interp (f : (o : Op) → Prog Op' Resp' ε (Resp o)) : Prog Op Resp ε α → Prog Op' Resp' ε α
  | ret a => ret a
  | throw e => throw e
  | op o k => (f o).attempt.bind fun r => (k r).interp f

section Laws

@[simp] theorem pure_def (a : α) : (pure a : Prog Op Resp ε α) = ret a := rfl
@[simp] theorem bind_def (p : Prog Op Resp ε α) (f : α → Prog Op Resp ε β) :
    (p >>= f) = p.bind f := rfl
@[simp] theorem throw_def (e : ε) :
    (MonadExcept.throw e : Prog Op Resp ε α) = throw e := rfl
@[simp] theorem tryCatch_def (p : Prog Op Resp ε α) (h : ε → Prog Op Resp ε α) :
    (tryCatch p h : Prog Op Resp ε α) = p.handle h := rfl

theorem bind_assoc {γ : Type} (p : Prog Op Resp ε α) (f : α → Prog Op Resp ε β)
    (g : β → Prog Op Resp ε γ) : (p.bind f).bind g = p.bind fun a => (f a).bind g := by
  induction p with
  | ret a => rfl
  | throw e => rfl
  | op o k ih => simp only [bind, ih]

theorem bind_ret (p : Prog Op Resp ε α) : p.bind ret = p := by
  induction p with
  | ret a => rfl
  | throw e => rfl
  | op o k ih => simp only [bind, ih]

variable (f : (o : Op) → Prog Op' Resp' ε (Resp o))

theorem interp_bind (p : Prog Op Resp ε α) (g : α → Prog Op Resp ε β) :
    (p.bind g).interp f = (p.interp f).bind fun a => (g a).interp f := by
  induction p with
  | ret a => rfl
  | throw e => rfl
  | op o k ih => simp only [bind, interp, ih, bind_assoc]

theorem interp_attempt (p : Prog Op Resp ε α) : p.attempt.interp f = (p.interp f).attempt := by
  induction p with
  | ret a => rfl
  | throw e => rfl
  | op o k ih =>
    -- an operation is replaced by a program, whose attempt is taken first
    have hb (r : Prog Op' Resp' ε (Resp o)) (g : Except ε (Resp o) → Prog Op' Resp' ε α) :
        (r.attempt.bind g).attempt = r.attempt.bind fun x => (g x).attempt := by
      induction r with
      | ret a => rfl
      | throw e => rfl
      | op o' k' ih' => simp only [attempt, bind, ih']
    simp only [attempt, interp, ih, hb]

theorem interp_handle (p : Prog Op Resp ε α) (h : ε → Prog Op Resp ε α) :
    (p.handle h).interp f = (p.interp f).handle fun e => (h e).interp f := by
  -- a `catch` around a sequence whose first part is attempted guards the rest only
  have hb {δ : Type} (r : Prog Op' Resp' ε δ) (g : Except ε δ → Prog Op' Resp' ε α)
      (c : ε → Prog Op' Resp' ε α) :
      (r.attempt.bind g).handle c = r.attempt.bind fun x => (g x).handle c := by
    induction r with
    | ret a => rfl
    | throw e => rfl
    | op o' k' ih' => simp only [attempt, bind, handle, ih']
  induction p with
  | ret a => rfl
  | throw e => rfl
  | op o k ih => simp only [handle, interp, ih, hb]

theorem interp_ensuring (p : Prog Op Resp ε α) (g : Prog Op Resp ε Unit) :
    (p.ensuring g).interp f = (p.interp f).ensuring (g.interp f) := by
  simp only [ensuring, interp_bind, interp_attempt]
  congr 1
  funext r
  cases r <;> simp only [interp_bind, interp]

theorem interp_perform (o : Op) : (perform o : Prog Op Resp ε (Resp o)).interp f = f o := by
  simp only [perform, interp]
  generalize f o = p
  induction p with
  | ret a => rfl
  | throw e => rfl
  | op o' k' ih => simp only [attempt, bind, ih]

theorem interp_id (p : Prog Op Resp ε α) : p.interp perform = p := by
  induction p with
  | ret a => rfl
  | throw e => rfl
  | op o k ih =>
    have hop : (perform o : Prog Op Resp ε (Resp o)).attempt = op o fun r => ret r := by
      simp only [perform, attempt]
      congr 1
      funext r
      cases r <;> rfl
    simp only [interp, hop, bind, ih]

end Laws

/-- A run of the program alone: each operation takes the next choice of the environment. -/
def play (exec : (o : Op) → χ → σ → Option (Except ε (Resp o) × σ)) :
    Prog Op Resp ε α → List χ → σ → Option (Except ε α × σ)
  | ret a, [], s => some (.ok a, s)
  | throw e, [], s => some (.error e, s)
  | op o k, c :: cs, s => (exec o c s).bind fun r => (k r.1).play exec cs r.2
  -- a choice is missing or left over
  | _, _, _ => none

/-- What every operation keeps, a run keeps. -/
theorem play_inv {exec : (o : Op) → χ → σ → Option (Except ε (Resp o) × σ)} (I : σ → Prop)
    (hstep : ∀ o c s r s', exec o c s = some (r, s') → I s → I s') {p : Prog Op Resp ε α}
    {cs : List χ} {s s' : σ} {r : Except ε α} (hI : I s)
    (hp : p.play exec cs s = some (r, s')) : I s' := by
  induction p generalizing s cs with
  | ret a =>
    cases cs with
    | nil =>
      cases hp
      exact hI
    | cons c cs => cases hp
  | throw e =>
    cases cs with
    | nil =>
      cases hp
      exact hI
    | cons c cs => cases hp
  | op o k ih =>
    cases cs with
    | nil => cases hp
    | cons c cs =>
      obtain ⟨⟨x, s₁⟩, hx, hp⟩ := Option.bind_eq_some_iff.mp hp
      exact ih x (hstep o c s x s₁ hx hI) hp

section Each

/-- Every operation the program can reach satisfies `φ`. -/
def Each (φ : Op → Prop) : Prog Op Resp ε α → Prop
  | ret _ => True
  | throw _ => True
  | op o k => φ o ∧ ∀ r, (k r).Each φ

variable {φ : Op → Prop}

theorem Each.bind {p : Prog Op Resp ε α} {f : α → Prog Op Resp ε β} (hp : p.Each φ)
    (hf : ∀ a, (f a).Each φ) : (p.bind f).Each φ := by
  induction p with
  | ret a => exact hf a
  | throw e => trivial
  | op o k ih => exact ⟨hp.1, fun r => ih r (hp.2 r)⟩

theorem Each.handle {p : Prog Op Resp ε α} {c : ε → Prog Op Resp ε α} (hp : p.Each φ)
    (hc : ∀ e, (c e).Each φ) : (p.handle c).Each φ := by
  induction p with
  | ret a => trivial
  | throw e => exact hc e
  | op o k ih => exact ⟨hp.1, fun r => ih r (hp.2 r)⟩

theorem Each.attempt {p : Prog Op Resp ε α} (hp : p.Each φ) : p.attempt.Each φ := by
  induction p with
  | ret a => trivial
  | throw e => trivial
  | op o k ih => exact ⟨hp.1, fun r => ih r (hp.2 r)⟩

theorem Each.ensuring {p : Prog Op Resp ε α} {f : Prog Op Resp ε Unit} (hp : p.Each φ)
    (hf : f.Each φ) : (p.ensuring f).Each φ := by
  refine Each.bind hp.attempt fun r => ?_
  cases r with
  | ok a => exact hf.bind fun _ => trivial
  | error e => exact hf.bind fun _ => trivial

theorem Each.perform {o : Op} (ho : φ o) : (perform o : Prog Op Resp ε (Resp o)).Each φ := by
  refine ⟨ho, fun r => ?_⟩
  cases r <;> trivial

theorem Each.interp {ψ : Op' → Prop} {f : (o : Op) → Prog Op' Resp' ε (Resp o)}
    {p : Prog Op Resp ε α} (hp : p.Each φ) (hf : ∀ o, φ o → (f o).Each ψ) :
    (p.interp f).Each ψ := by
  induction p with
  | ret a => trivial
  | throw e => trivial
  | op o k ih => exact (hf o hp.1).attempt.bind fun r => ih r (hp.2 r)

theorem Each.and {ψ : Op → Prop} {p : Prog Op Resp ε α} (hp : p.Each φ) (hp' : p.Each ψ) :
    p.Each fun o => φ o ∧ ψ o := by
  induction p with
  | ret a => trivial
  | throw e => trivial
  | op o k ih => exact ⟨⟨hp.1, hp'.1⟩, fun r => ih r (hp.2 r) (hp'.2 r)⟩

theorem Each.mono {ψ : Op → Prop} (h : ∀ o, φ o → ψ o) {p : Prog Op Resp ε α}
    (hp : p.Each φ) : p.Each ψ := by
  induction p with
  | ret a => trivial
  | throw e => trivial
  | op o k ih => exact ⟨h o hp.1, fun r => ih r (hp.2 r)⟩

end Each

section Until

/-- The program has come to an end. -/
def Done : Prog Op Resp ε α → Prop
  | op _ _ => False
  | _ => True

/-- Along the outcomes that are possible (`may`), the program comes to an operation that `ends`
it, or to an outcome at which that operation is `lost`; either way it is over then. -/
def Until (ends : Op → Prop) (may lost : (o : Op) → Except ε (Resp o) → Prop) :
    Prog Op Resp ε α → Prop
  | op o k =>
    (ends o ∧ ∀ r, (k r).Done) ∨
      (¬ ends o ∧ ∀ r, may o r → (lost o r ∧ (k r).Done) ∨ (¬ lost o r ∧ (k r).Until ends may lost))
  | _ => False

variable {ends : Op → Prop} {may lost : (o : Op) → Except ε (Resp o) → Prop}

theorem Until.bind {p : Prog Op Resp ε α} {f : α → Prog Op Resp ε β}
    (hp : p.Until ends may lost) (hf : ∀ a, (f a).Done) : (p.bind f).Until ends may lost := by
  -- the continuation adds nothing to a program that is over
  have hdone {q : Prog Op Resp ε α} (hq : q.Done) : (q.bind f).Done := by
    cases q with
    | ret a => exact hf a
    | throw e => trivial
    | op o k => exact hq.elim
  induction p with
  | ret a => exact hp.elim
  | throw e => exact hp.elim
  | op o k ih =>
    rcases hp with ⟨ho, hk⟩ | ⟨ho, hk⟩
    · exact .inl ⟨ho, fun r => hdone (hk r)⟩
    · refine .inr ⟨ho, fun r hr => ?_⟩
      rcases hk r hr with ⟨hlost, hd⟩ | ⟨hkept, hu⟩
      · exact .inl ⟨hlost, hdone hd⟩
      · exact .inr ⟨hkept, ih r hu⟩

/-- A `finally` block is come to from every end of the body. -/
theorem Until.ensuring {p : Prog Op Resp ε α} {f : Prog Op Resp ε Unit}
    (hp : p.Each fun o => ¬ ends o ∧ ∀ r, ¬ lost o r) (hf : f.Until ends may lost) :
    (p.ensuring f).Until ends may lost := by
  -- both ends of the body come to the block, with a different end after it
  have hfin (r : Except ε α) (g : Except ε α → Prog Op Resp ε α) (hg : ∀ r, (g r).Done) :
      (f.bind fun _ => g r).Until ends may lost := hf.bind fun _ => hg r
  unfold Prog.ensuring
  induction p with
  | ret a => exact hfin (.ok a) ofExcept fun r => by cases r <;> trivial
  | throw e => exact hfin (.error e) ofExcept fun r => by cases r <;> trivial
  | op o k ih => exact .inr ⟨hp.1.1, fun r _ => .inr ⟨hp.1.2 r, ih r (hp.2 r)⟩⟩

end Until

section Holds

variable (step : (o : Op) → σ → Except ε (Resp o) → σ → Prop) (R G : σ → σ → Prop)

/-- From `s`, when the state moves by `R` before each operation, every operation moves it by
`G` and the end of the program satisfies `Q`. -/
def Holds (Q : Except ε α → σ → Prop) : Prog Op Resp ε α → σ → Prop
  | ret a, s => Q (.ok a) s
  | throw e, s => Q (.error e) s
  | op o k, s => ∀ s₁, R s s₁ → ∀ r s₂, step o s₁ r s₂ → G s₁ s₂ ∧ (k r).Holds Q s₂

/-- What must hold after the first part of a sequence: `K` to go on, or `Q` if it throws. -/
def after (K : α → σ → Prop) (Q : Except ε β → σ → Prop) : Except ε α → σ → Prop
  | .ok a => K a
  | .error e => Q (.error e)

/-- What must hold after the body of a `try`: `Q`, or `K` to go on in the `catch`. -/
def caught (Q : Except ε α → σ → Prop) (K : ε → σ → Prop) : Except ε α → σ → Prop
  | .ok a => Q (.ok a)
  | .error e => K e

variable {step R G}

theorem Holds.mono {Q Q' : Except ε α → σ → Prop} {p : Prog Op Resp ε α} {s : σ}
    (hQ : ∀ r s, Q r s → Q' r s) (h : p.Holds step R G Q s) : p.Holds step R G Q' s := by
  induction p generalizing s with
  | ret a => exact hQ _ _ h
  | throw e => exact hQ _ _ h
  | op o k ih => exact fun s₁ hR r s₂ hs => ⟨(h s₁ hR r s₂ hs).1, ih r (h s₁ hR r s₂ hs).2⟩

theorem Holds.stable_op (htrans : ∀ a b c, R a b → R b c → R a c)
    {Q : Except ε α → σ → Prop} {o : Op} {k : Except ε (Resp o) → Prog Op Resp ε α} {s s' : σ}
    (hR : R s s') (h : (op o k).Holds step R G Q s) : (op o k).Holds step R G Q s' :=
  fun _ ht => h _ (htrans _ _ _ hR ht)

theorem Holds.bind {p : Prog Op Resp ε α} {f : α → Prog Op Resp ε β}
    {Q : Except ε β → σ → Prop} {s : σ}
    (h : p.Holds step R G (after (fun a t => (f a).Holds step R G Q t) Q) s) :
    (p.bind f).Holds step R G Q s := by
  induction p generalizing s with
  | ret a => exact h
  | throw e => exact h
  | op o k ih => exact fun s₁ hR r s₂ hs => ⟨(h s₁ hR r s₂ hs).1, ih r (h s₁ hR r s₂ hs).2⟩

theorem Holds.handle {p : Prog Op Resp ε α} {c : ε → Prog Op Resp ε α}
    {Q : Except ε α → σ → Prop} {s : σ}
    (h : p.Holds step R G (caught Q fun e t => (c e).Holds step R G Q t) s) :
    (p.handle c).Holds step R G Q s := by
  induction p generalizing s with
  | ret a => exact h
  | throw e => exact h
  | op o k ih => exact fun s₁ hR r s₂ hs => ⟨(h s₁ hR r s₂ hs).1, ih r (h s₁ hR r s₂ hs).2⟩

theorem Holds.attempt {p : Prog Op Resp ε α} {Q : Except ε (Except ε α) → σ → Prop} {s : σ}
    (h : p.Holds step R G (fun r t => Q (.ok r) t) s) : p.attempt.Holds step R G Q s := by
  induction p generalizing s with
  | ret a => exact h
  | throw e => exact h
  | op o k ih => exact fun s₁ hR r s₂ hs => ⟨(h s₁ hR r s₂ hs).1, ih r (h s₁ hR r s₂ hs).2⟩

theorem Holds.ensuring {p : Prog Op Resp ε α} {f : Prog Op Resp ε Unit}
    {Q : Except ε α → σ → Prop} {s : σ}
    (h : p.Holds step R G (fun r t => f.Holds step R G (after (fun _ => Q r) Q) t) s) :
    (p.ensuring f).Holds step R G Q s := by
  refine Holds.bind (Holds.attempt (Holds.mono ?_ h))
  intro r t hf
  cases r <;> refine Holds.bind (Holds.mono ?_ hf) <;> rintro (e | u) t' hq <;> exact hq

theorem Holds.perform {o : Op} {Q : Except ε (Resp o) → σ → Prop} {s : σ}
    (h : ∀ s₁, R s s₁ → ∀ r s₂, step o s₁ r s₂ → G s₁ s₂ ∧ Q r s₂) :
    (perform o : Prog Op Resp ε (Resp o)).Holds step R G Q s := by
  -- `perform` ends at once with the outcome of its operation
  intro s₁ hR r s₂ hs
  refine ⟨(h s₁ hR r s₂ hs).1, ?_⟩
  cases r <;> exact (h s₁ hR _ s₂ hs).2

section Interp

variable {step' : (o : Op') → σ → Except ε (Resp' o) → σ → Prop}
  {f : (o : Op) → Prog Op' Resp' ε (Resp o)} {s : σ}

theorem Holds.interp_bind {p : Prog Op Resp ε α} {k : α → Prog Op Resp ε β}
    {Q : Except ε β → σ → Prop}
    (h : (p.interp f).Holds step' R G
      (after (fun v t => ((k v).interp f).Holds step' R G Q t) Q) s) :
    ((p.bind k).interp f).Holds step' R G Q s := by
  rw [Prog.interp_bind]
  exact Holds.bind h

theorem Holds.interp_handle {p : Prog Op Resp ε α} {c : ε → Prog Op Resp ε α}
    {Q : Except ε α → σ → Prop}
    (h : (p.interp f).Holds step' R G
      (caught Q fun e t => ((c e).interp f).Holds step' R G Q t) s) :
    ((p.handle c).interp f).Holds step' R G Q s := by
  rw [Prog.interp_handle]
  exact Holds.handle h

theorem Holds.interp_ensuring {p : Prog Op Resp ε α} {g : Prog Op Resp ε Unit}
    {Q : Except ε α → σ → Prop}
    (h : (p.interp f).Holds step' R G
      (fun r t => (g.interp f).Holds step' R G (after (fun _ => Q r) Q) t) s) :
    ((p.ensuring g).interp f).Holds step' R G Q s := by
  rw [Prog.interp_ensuring]
  exact Holds.ensuring h

end Interp

/-- A program needs no other assertion than one that all its operations keep. -/
theorem Holds.of_each_inv {φ : Op → Prop} (A : σ → Prop) (hR : ∀ s s', R s s' → A s → A s')
    (hφ : ∀ o s r s', φ o → A s → step o s r s' → G s s' ∧ A s') {p : Prog Op Resp ε α}
    (hp : p.Each φ) {s : σ} (hs : A s) : p.Holds step R G (fun _ s => A s) s := by
  induction p generalizing s with
  | ret a => exact hs
  | throw e => exact hs
  | op o k ih =>
    intro s₁ hR₁ r s₂ hstep
    obtain ⟨hG, hA⟩ := hφ o s₁ r s₂ hp.1 (hR s s₁ hR₁ hs) hstep
    exact ⟨hG, ih r (hp.2 r) hA⟩

/-- A program whose operations all move by `G` needs no assertions. -/
theorem Holds.of_each {φ : Op → Prop} (hφ : ∀ o s r s', φ o → step o s r s' → G s s')
    {p : Prog Op Resp ε α} (hp : p.Each φ) (s : σ) :
    p.Holds step R G (fun _ _ => True) s :=
  Holds.of_each_inv (fun _ => True) (fun _ _ _ => id)
    (fun o s r s' ho _ hs => ⟨hφ o s r s' ho hs, trivial⟩) hp trivial

/-- An assertion that nothing breaks still holds at the end. -/
theorem Holds.frame (A : σ → Prop) (hR : ∀ s s', R s s' → A s → A s')
    (hstep : ∀ o s r s', A s → step o s r s' → A s') {Q : Except ε α → σ → Prop}
    {p : Prog Op Resp ε α} {s : σ} (hs : A s) (h : p.Holds step R G Q s) :
    p.Holds step R G (fun r s => Q r s ∧ A s) s := by
  induction p generalizing s with
  | ret a => exact ⟨h, hs⟩
  | throw e => exact ⟨h, hs⟩
  | op o k ih =>
    intro s₁ hR₁ r s₂ hs₂
    obtain ⟨hG, hk⟩ := h s₁ hR₁ r s₂ hs₂
    exact ⟨hG, ih r (hstep o s₁ r s₂ (hR s s₁ hR₁ hs) hs₂) hk⟩

/-- The same, when only the operations of the program are known to keep the assertion. -/
theorem Holds.frame_each {φ : Op → Prop} (A : σ → Prop) (hR : ∀ s s', R s s' → A s → A s')
    (hstep : ∀ o s r s', φ o → A s → step o s r s' → A s') {Q : Except ε α → σ → Prop}
    {p : Prog Op Resp ε α} {s : σ} (hp : p.Each φ) (hs : A s) (h : p.Holds step R G Q s) :
    p.Holds step R G (fun r s => Q r s ∧ A s) s := by
  induction p generalizing s with
  | ret a => exact ⟨h, hs⟩
  | throw e => exact ⟨h, hs⟩
  | op o k ih =>
    intro s₁ hR₁ r s₂ hs₂
    obtain ⟨hG, hk⟩ := h s₁ hR₁ r s₂ hs₂
    exact ⟨hG, ih r (hp.2 r) (hstep o s₁ r s₂ hp.1 (hR s s₁ hR₁ hs) hs₂) hk⟩

/-- A program run alone keeps an invariant that its operations keep. -/
theorem Holds.play_inv {exec : (o : Op) → χ → σ → Option (Except ε (Resp o) × σ)}
    (I : σ → Prop) {Q : Except ε α → σ → Prop} {p : Prog Op Resp ε α} {cs : List χ} {s s' : σ}
    {r : Except ε α} (hR : ∀ s, R s s)
    (hstep : ∀ o c s r s', exec o c s = some (r, s') → step o s r s')
    (h : p.Holds step R (fun s s' => I s → I s') Q s) (hI : I s)
    (hp : p.play exec cs s = some (r, s')) : I s' := by
  induction p generalizing s cs with
  | ret a =>
    cases cs with
    | nil =>
      cases hp
      exact hI
    | cons c cs => cases hp
  | throw e =>
    cases cs with
    | nil =>
      cases hp
      exact hI
    | cons c cs => cases hp
  | op o k ih =>
    cases cs with
    | nil => cases hp
    | cons c cs =>
      obtain ⟨⟨x, s₁⟩, hx, hp⟩ := Option.bind_eq_some_iff.mp hp
      obtain ⟨hG, hk⟩ := h s (hR s) x s₁ (hstep o c s x s₁ hx)
      exact ih x hk (hG hI) hp

/-- A program run alone keeps what it promises. -/
theorem Holds.play {exec : (o : Op) → χ → σ → Option (Except ε (Resp o) × σ)}
    {Q : Except ε α → σ → Prop} {p : Prog Op Resp ε α} {cs : List χ} {s s' : σ}
    {r : Except ε α} (hR : ∀ s, R s s)
    (hstep : ∀ o c s r s', exec o c s = some (r, s') → step o s r s')
    (h : p.Holds step R G Q s) (hp : p.play exec cs s = some (r, s')) : Q r s' := by
  induction p generalizing s cs with
  | ret a =>
    cases cs with
    | nil =>
      cases hp
      exact h
    | cons c cs => cases hp
  | throw e =>
    cases cs with
    | nil =>
      cases hp
      exact h
    | cons c cs => cases hp
  | op o k ih =>
    cases cs with
    | nil => cases hp
    | cons c cs =>
      obtain ⟨⟨x, s₁⟩, hx, hp⟩ := Option.bind_eq_some_iff.mp hp
      exact ih x (h s (hR s) x s₁ (hstep o c s x s₁ hx)).2 hp

end Holds

end Prog

end Async
