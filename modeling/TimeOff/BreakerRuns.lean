import TimeOff.CircuitBreaker

/-! Overlapping calls of one breaker that is never reset: an open breaker keeps its cooldown
whatever the late results are, and when the probe of a half-open one is alone. -/
namespace TimeOff.BreakerRun

open Transitions

/-- The breaker keeps the cooldown of an opening at `t`: while it is open it counts from `t`
or later, and once it is not, that cooldown is over for good. -/
structure CooldownKept (t cooldown : ℚ) (r : BreakerRun) : Prop where
  past : t ≤ r.now
  cooldownMs : r.breaker.options.cooldownMs = cooldown
  opened : r.breaker.state = .opened → ∃ t', t ≤ t' ∧ t' ≤ r.now ∧ r.breaker.OpenSince t'
  elapsed : r.breaker.state ≠ .opened → t + cooldown ≤ r.now

/-- The run before its first opening keeps a cooldown that is over already. -/
theorem cooldownKept_init (options : CircuitOptions) (now : ℚ) :
    CooldownKept (min now (now - options.cooldownMs)) options.cooldownMs (init options now) where
  past := min_le_left _ _
  cooldownMs := rfl
  opened := fun h => nomatch h
  elapsed := fun _ => by
    have hmin : min now (now - options.cooldownMs) ≤ now - options.cooldownMs := min_le_right _ _
    have hsum := add_le_add_right hmin options.cooldownMs
    change _ ≤ now
    linarith

theorem cooldownKept_settle {t cooldown : ℚ} {r r' : BreakerRun} {i : ℕ} {b : CircuitBreaker}
    (hr : CooldownKept t cooldown r) (h : r.settle i b = some r')
    (hopt : b.options = r.breaker.options)
    (hopen : b.state = .opened → ∃ t', t ≤ t' ∧ t' ≤ r.now ∧ b.OpenSince t')
    (helapsed : b.state ≠ .opened → r.breaker.state ≠ .opened) : CooldownKept t cooldown r' := by
  obtain ⟨g, _, hb, hnow, _⟩ := settle_some h
  refine ⟨?_, ?_, ?_, ?_⟩
  · rw [hnow]
    exact hr.past
  · rw [hb, hopt]
    exact hr.cooldownMs
  · rw [hb, hnow]
    exact hopen
  · rw [hb, hnow]
    intro hne
    exact hr.elapsed (helapsed hne)

theorem cooldownKept_succeed {t cooldown : ℚ} {r r' : BreakerRun} {i : ℕ}
    (hr : CooldownKept t cooldown r) (h : r.step (.succeed i) = some r') :
    CooldownKept t cooldown r' := by
  have hstate := r.breaker.onSuccess_state
  -- a success leaves the breaker open exactly where it was open
  have hiff : r.breaker.onSuccess.state = .opened ↔ r.breaker.state = .opened := by
    rw [hstate]
    by_cases hh : r.breaker.state = .halfOpen
    · simp [hh]
    · rw [if_neg hh]
  apply cooldownKept_settle hr h r.breaker.onSuccess_options
  · intro ho
    have hopen := hiff.mp ho
    obtain ⟨t', ht, hnow, hs⟩ := hr.opened hopen
    exact ⟨t', ht, hnow, CircuitBreaker.onSuccess_openSince hs hopen⟩
  · intro hne ho
    exact hne (hiff.mpr ho)

theorem cooldownKept_fail {t cooldown : ℚ} {r r' : BreakerRun} {i : ℕ}
    (hr : CooldownKept t cooldown r) (h : r.step (.fail i) = some r') :
    CooldownKept t cooldown r' := by
  apply cooldownKept_settle hr h (r.breaker.onFailure_options r.now)
  · intro ho
    rcases r.breaker.onFailure_cases r.now with ⟨_, hs⟩ | ⟨_, hb⟩
    · exact ⟨r.now, hr.past, le_rfl, hs⟩
    · rw [hb] at ho ⊢
      obtain ⟨t', ht, hnow, hs⟩ := hr.opened ho
      exact ⟨t', ht, hnow, hs.openedAt, hs.nextAttemptAt⟩
  · intro hne
    rcases r.breaker.onFailure_cases r.now with ⟨ho, _⟩ | ⟨_, hb⟩
    · exact absurd ho hne
    · rw [hb] at hne
      exact hne

theorem cooldownKept_call {t cooldown : ℚ} {r r' : BreakerRun}
    (hr : CooldownKept t cooldown r) (h : r.step .call = some r') :
    CooldownKept t cooldown r' := by
  rcases step_call h with ⟨rfl, _⟩ | ⟨b, hb, rfl⟩
  · exact hr
  rcases CircuitBreaker.admission_cases hb with ⟨ho, hrem, rfl⟩ | ⟨_, rfl⟩
  · refine ⟨hr.past, hr.cooldownMs, fun h => (nomatch h), ?_⟩
    intro _
    obtain ⟨t', ht, hnow, hs⟩ := hr.opened ho
    have hcool : t' + r.breaker.options.cooldownMs ≤ r.now := (hs.remaining_eq hnow).mp hrem
    rw [hr.cooldownMs] at hcool
    exact (add_le_add_left ht cooldown).trans hcool
  · exact ⟨hr.past, hr.cooldownMs, hr.opened, hr.elapsed⟩

theorem cooldownKept_step {t cooldown : ℚ} (r : BreakerRun) (e : BreakerEvent) (r' : BreakerRun)
    (hr : CooldownKept t cooldown r) (h : r.step e = some r') : CooldownKept t cooldown r' := by
  cases e with
  | call => exact cooldownKept_call hr h
  | succeed i => exact cooldownKept_succeed hr h
  | fail i => exact cooldownKept_fail hr h
  | elapse now =>
    obtain ⟨hnow, rfl⟩ := step_elapse h
    refine ⟨hr.past.trans hnow, hr.cooldownMs, ?_, ?_⟩
    · intro ho
      obtain ⟨t', ht, hle, hs⟩ := hr.opened ho
      exact ⟨t', ht, hle.trans hnow, hs⟩
    · intro hne
      exact (hr.elapsed hne).trans hnow

/-- The step that opens the breaker starts the cooldown at its own time. -/
theorem cooldownKept_opening {t cooldown : ℚ} {r r' : BreakerRun} {e : BreakerEvent}
    (hr : CooldownKept t cooldown r) (h : r.step e = some r') (hne : r.breaker.state ≠ .opened)
    (ho : r'.breaker.state = .opened) : CooldownKept r.now cooldown r' := by
  -- only a failed call opens the breaker, and it opens it now
  have hopened : r'.now = r.now ∧ r'.breaker.OpenSince r.now := by
    cases e with
    | call =>
      rcases step_call h with ⟨rfl, _⟩ | ⟨b, hb, rfl⟩
      · exact absurd ho hne
      · rcases CircuitBreaker.admission_cases hb with ⟨_, _, rfl⟩ | ⟨_, rfl⟩
        · cases ho
        · exact absurd ho hne
    | succeed i =>
      obtain ⟨g, _, hb, _⟩ := settle_some h
      rw [hb, CircuitBreaker.onSuccess_state] at ho
      split at ho
      · cases ho
      · exact absurd ho hne
    | fail i =>
      obtain ⟨g, _, hb, hnow, _⟩ := settle_some h
      refine ⟨hnow, ?_⟩
      rcases r.breaker.onFailure_cases r.now with ⟨_, hs⟩ | ⟨_, hb'⟩
      · rw [hb]
        exact hs
      · rw [hb, hb'] at ho
        exact absurd ho hne
    | elapse now =>
      obtain ⟨_, rfl⟩ := step_elapse h
      exact absurd ho hne
  have hkept := cooldownKept_step r e r' hr h
  refine ⟨hopened.1.ge, hkept.cooldownMs, ?_, fun hn => absurd ho hn⟩
  intro _
  exact ⟨r.now, le_rfl, hopened.1.ge, hopened.2⟩

theorem CooldownKept.admits {t cooldown : ℚ} {r : BreakerRun} (hr : CooldownKept t cooldown r)
    (h : r.Admits) : t + cooldown ≤ r.now := by
  obtain ⟨b, hb⟩ := h
  rcases CircuitBreaker.admission_cases hb with ⟨ho, hrem, _⟩ | ⟨hne, _⟩
  · obtain ⟨t', ht, hnow, hs⟩ := hr.opened ho
    have hcool : t' + r.breaker.options.cooldownMs ≤ r.now := (hs.remaining_eq hnow).mp hrem
    rw [hr.cooldownMs] at hcool
    exact (add_le_add_left ht cooldown).trans hcool
  · exact hr.elapsed hne

/-- While the breaker is open it knows since when, and after an opening no call is admitted
before the cooldown has elapsed. -/
theorem open_circuit_admits_nothing (options : CircuitOptions) (start : ℚ)
    (es : List BreakerEvent) (r : BreakerRun) (h : run step (init options start) es = some r) :
    (r.breaker.state = .opened → r.breaker.openedAt ≠ none) ∧
      ∀ e r₁ es' r₂, r.step e = some r₁ → r.breaker.state ≠ .opened →
        r₁.breaker.state = .opened → run step r₁ es' = some r₂ → r₂.Admits →
          r.now + options.cooldownMs ≤ r₂.now := by
  -- the invariant of the whole run so far, which the opening sharpens
  have hr := run_inv cooldownKept_step (cooldownKept_init options start) h
  refine ⟨?_, ?_⟩
  · intro ho
    obtain ⟨t, _, _, hs⟩ := hr.opened ho
    rw [hs.openedAt]
    exact Option.some_ne_none t
  -- from the opening on the cooldown counts from its time
  · intro e r₁ es' r₂ he hne ho hrun hadm
    have h1 : CooldownKept r.now options.cooldownMs r₁ := cooldownKept_opening hr he hne ho
    have h2 : CooldownKept r.now options.cooldownMs r₂ := run_inv cooldownKept_step h1 hrun
    exact h2.admits hadm

/-- The HCM's breaker with threshold 1, opened by a failure at time 5, seen at `now`. -/
def openedAtFive (now : ℚ) : BreakerRun :=
  ⟨⟨⟨"HCM", 1, 30000⟩, .opened, 1, some 5, some (5 + 30000), 0⟩, now, 1, []⟩

theorem admitted_after_cooldown :
    ∃ r, run step (init ⟨"HCM", 1, 30000⟩ 5) [.call] = some r ∧
      r.step (.fail 0) = some (openedAtFive 5) ∧
      run step (openedAtFive 5) [.elapse 30005] = some (openedAtFive 30005) ∧
      (openedAtFive 30005).Admits ∧ r.now + 30000 ≤ (openedAtFive 30005).now := by
  have hrem : ¬ 0 < (openedAtFive 30005).breaker.remaining 30005 := by decide +kernel
  have hadm : (openedAtFive 30005).Admits := ⟨_, (if_pos rfl).trans (if_neg hrem)⟩
  have hlater : (openedAtFive 5).now ≤ 30005 := by decide +kernel
  have hrun : run step (openedAtFive 5) [.elapse 30005] = some (openedAtFive 30005) :=
    run_singleton (step_elapse_eq hlater)
  refine ⟨_, rfl, rfl, hrun, hadm, ?_⟩
  exact (open_circuit_admits_nothing ⟨"HCM", 1, 30000⟩ 5 [.call] _ rfl).2 (.fail 0) _
    [.elapse 30005] _ rfl (by decide) rfl hrun hadm

/-- The calls in flight that were admitted since the breaker last opened. -/
def current (r : BreakerRun) : List ℕ := r.inFlight.filter (· = r.openings)

/-- The `i`th call in flight was admitted since the breaker last opened. -/
def IsCurrent (r : BreakerRun) (i : ℕ) : Prop := r.inFlight[i]? = some r.openings

/-- While the breaker is half-open one call probes, every other one is refused, and only the
result of the probe ends the state. -/
structure Disciplined (r : BreakerRun) (e : BreakerEvent) (r' : BreakerRun) : Prop where
  oneProbe : r'.breaker.state = .halfOpen → r'.current.length ≤ 1
  refused : r.breaker.state = .halfOpen → e = .call → ¬ r.Admits
  byProbe : r.breaker.state = .halfOpen → r'.breaker.state ≠ .halfOpen →
    ∃ i, r.IsCurrent i ∧
      (e = .succeed i ∧ r'.breaker.state = .closed ∨ e = .fail i ∧ r'.breaker.state = .opened)

/-- While the breaker is half-open nobody calls and no call admitted before it opened
settles. -/
def ProbeAlone (r : BreakerRun) (e : BreakerEvent) : Prop :=
  r.breaker.state = .halfOpen → e ≠ .call ∧ ∀ i, e = .succeed i ∨ e = .fail i → r.IsCurrent i

/-- Calls are numbered by the openings before them; none admitted since the last opening is
in flight while the breaker is open, and at most one while it is half-open. -/
structure Numbered (r : BreakerRun) : Prop where
  le : ∀ g ∈ r.inFlight, g ≤ r.openings
  opened : r.breaker.state = .opened → r.current = []
  halfOpen : r.breaker.state = .halfOpen → r.current.length ≤ 1

theorem numbered_init (options : CircuitOptions) (now : ℚ) : (init options now).Numbered where
  le := fun _ h => nomatch h
  opened := fun _ => rfl
  halfOpen := fun h => nomatch h

/-- After an opening every call in flight is one admitted before it. -/
theorem current_eq_nil {r : BreakerRun} (h : ∀ g ∈ r.inFlight, g < r.openings) :
    r.current = [] := by
  apply List.filter_eq_nil_iff.mpr
  intro g hg heq
  have hlt := h g hg
  have hg' : g = r.openings := of_decide_eq_true heq
  omega

theorem numbered_settle {r r' : BreakerRun} {i : ℕ} {b : CircuitBreaker} (hr : r.Numbered)
    (h : r.settle i b = some r') (hhalf : b.state ≠ .halfOpen) : r'.Numbered := by
  obtain ⟨g, _, hb, _, hcalls, hopenings⟩ := settle_some h
  -- settling takes one call out
  have hsub : ∀ g ∈ r'.inFlight, g ∈ r.inFlight := by
    rw [hcalls]
    intro g hg
    exact (List.eraseIdx_sublist r.inFlight i).subset hg
  -- an opening makes all calls in flight old; otherwise their numbers stay
  by_cases ho : r.breaker.state ≠ .opened ∧ b.state = .opened
  · rw [if_pos ho] at hopenings
    have hlt : ∀ g ∈ r'.inFlight, g < r'.openings := by
      intro g hg
      have hle := hr.le g (hsub g hg)
      omega
    refine ⟨fun g hg => (hlt g hg).le, fun _ => current_eq_nil hlt, ?_⟩
    intro hh
    rw [hb] at hh
    exact absurd hh hhalf
  · rw [if_neg ho] at hopenings
    refine ⟨?_, ?_, ?_⟩
    · intro g hg
      rw [hopenings]
      exact hr.le g (hsub g hg)
    · intro hopen
      rw [hb] at hopen
      -- the breaker was open, so no call in flight was of its opening
      have hbefore : r.breaker.state = .opened := by
        by_contra hne
        exact ho ⟨hne, hopen⟩
      have hnil := hr.opened hbefore
      unfold current at hnil ⊢
      rw [hopenings, hcalls]
      exact List.sublist_nil.mp (hnil ▸ (List.eraseIdx_sublist r.inFlight i).filter _)
    · intro hh
      rw [hb] at hh
      exact absurd hh hhalf

theorem numbered_call {r r' : BreakerRun} (hr : r.Numbered) (h : r.step .call = some r')
    (hhalf : r.breaker.state ≠ .halfOpen) : r'.Numbered := by
  rcases step_call h with ⟨rfl, _⟩ | ⟨b, hb, rfl⟩
  · exact hr
  have hle : ∀ g ∈ r.inFlight ++ [r.openings], g ≤ r.openings := by
    intro g hg
    rcases List.mem_append.mp hg with hg | hg
    · exact hr.le g hg
    · exact (List.mem_singleton.mp hg).le
  -- the call that half-opens is the only one of its opening
  rcases CircuitBreaker.admission_cases hb with ⟨ho, _, rfl⟩ | ⟨hne, rfl⟩
  · refine ⟨hle, fun h => (nomatch h), ?_⟩
    intro _
    have hnil := hr.opened ho
    unfold current at hnil
    simp only [current, List.filter_append, hnil, List.nil_append]
    exact List.length_filter_le _ _
  · refine ⟨hle, fun ho => absurd ho hne, fun hh => absurd hh hhalf⟩

theorem onSuccess_not_halfOpen (b : CircuitBreaker) : b.onSuccess.state ≠ .halfOpen := by
  rw [CircuitBreaker.onSuccess_state]
  split
  · decide
  · next h => exact h

theorem onFailure_not_halfOpen (b : CircuitBreaker) (now : ℚ) :
    (b.onFailure now).state ≠ .halfOpen := by
  rcases b.onFailure_cases now with ⟨ho, _⟩ | ⟨hne, hb⟩
  · rw [ho]
    decide
  · rw [hb]
    exact hne

theorem numbered_step {r r' : BreakerRun} {e : BreakerEvent} (hr : r.Numbered)
    (h : r.step e = some r') (halone : ProbeAlone r e) : r'.Numbered := by
  cases e with
  | call => exact numbered_call hr h fun hh => (halone hh).1 rfl
  | succeed i => exact numbered_settle hr h (onSuccess_not_halfOpen _)
  | fail i => exact numbered_settle hr h (onFailure_not_halfOpen _ _)
  | elapse now =>
    obtain ⟨_, rfl⟩ := step_elapse h
    exact ⟨hr.le, hr.opened, hr.halfOpen⟩

/-- A half-open breaker admits every call, and any result ends the state. -/
theorem probeAlone_of_disciplined {r r' : BreakerRun} {e : BreakerEvent}
    (h : r.step e = some r') (hd : Disciplined r e r') : ProbeAlone r e := by
  intro hh
  have hnot : r.breaker.state ≠ .opened := by
    rw [hh]
    decide
  refine ⟨?_, ?_⟩
  · intro he
    exact hd.refused hh he ⟨_, CircuitBreaker.admission_of_not_opened r.now hnot⟩
  -- to settle a call is to leave the half-open state
  · intro i hi
    have hleft : r'.breaker.state ≠ .halfOpen := by
      rcases hi with rfl | rfl
      · obtain ⟨_, _, hb, _⟩ := settle_some h
        rw [hb]
        exact onSuccess_not_halfOpen _
      · obtain ⟨_, _, hb, _⟩ := settle_some h
        rw [hb]
        exact onFailure_not_halfOpen _ _
    -- it left by the probe, which is the call that settles
    obtain ⟨j, hj, hej⟩ := hd.byProbe hh hleft
    have hij : i = j := by
      rcases hi with rfl | rfl <;> rcases hej with ⟨hej, _⟩ | ⟨hej, _⟩ <;> cases hej <;> rfl
    rw [hij]
    exact hj

theorem disciplined_of_probeAlone {r r' : BreakerRun} {e : BreakerEvent} (hr : r.Numbered)
    (h : r.step e = some r') (halone : ProbeAlone r e) : Disciplined r e r' := by
  refine ⟨(numbered_step hr h halone).halfOpen, fun hh he => absurd he (halone hh).1, ?_⟩
  intro hh hleft
  cases e with
  | call => exact absurd rfl (halone hh).1
  -- the probe settles, with a success or a failure
  | succeed i =>
    refine ⟨i, (halone hh).2 i (.inl rfl), .inl ⟨rfl, ?_⟩⟩
    obtain ⟨_, _, hb, _⟩ := settle_some h
    rw [hb, CircuitBreaker.onSuccess_state, if_pos hh]
  | fail i =>
    refine ⟨i, (halone hh).2 i (.inr rfl), .inr ⟨rfl, ?_⟩⟩
    obtain ⟨_, _, hb, _⟩ := settle_some h
    rw [hb]
    rcases r.breaker.onFailure_cases r.now with ⟨ho, _⟩ | ⟨hne, _⟩
    · exact ho
    · exact absurd hh hne
  | elapse now =>
    obtain ⟨_, rfl⟩ := step_elapse h
    exact absurd hh hleft

/-- A run keeps the discipline of the half-open state exactly when no step of it makes a
call, or settles one from before the opening, in that state. -/
theorem disciplined_iff_probeAlone (options : CircuitOptions) (start : ℚ)
    (es : List BreakerEvent) :
    Along step Disciplined (init options start) es ↔
      Along step (fun r e _ => ProbeAlone r e) (init options start) es := by
  constructor
  · intro hd
    refine Along.mono (fun _ => True) ?_ trivial hd
    intro r e r' _ h hstep
    exact ⟨probeAlone_of_disciplined h hstep, trivial⟩
  · intro halone
    refine Along.mono Numbered ?_ (numbered_init options start) halone
    intro r e r' hr h hstep
    exact ⟨disciplined_of_probeAlone hr h hstep, numbered_step hr h hstep⟩

/-- That breaker after its cooldown, half-open, with these calls in flight. -/
def halfOpened (inFlight : List ℕ) : BreakerRun :=
  ⟨⟨⟨"HCM", 1, 30000⟩, .halfOpen, 1, some 5, some (5 + 30000), 0⟩, 30005, 1, inFlight⟩

/-- Two calls run while the breaker is half-open, and the success of a call admitted before
the opening closes it. -/
theorem half_open_admits_all :
    ¬ Along step Disciplined (init ⟨"HCM", 1, 30000⟩ 5)
        [.call, .fail 0, .elapse 30005, .call, .call] ∧
      ¬ Along step Disciplined (init ⟨"HCM", 1, 30000⟩ 5)
        [.call, .call, .fail 0, .elapse 30005, .call, .succeed 0] := by
  refine ⟨?_, ?_⟩
  -- two calls admitted while half-open
  · intro h
    have hrun : run step (init ⟨"HCM", 1, 30000⟩ 5) [.call, .fail 0, .elapse 30005, .call] =
        some (halfOpened [1]) := by decide +kernel
    have hstep : (halfOpened [1]).step .call = some (halfOpened [1, 1]) := by decide +kernel
    have hd : Disciplined (halfOpened [1]) .call (halfOpened [1, 1]) :=
      Along.at_step hrun hstep [] h
    exact absurd (hd.oneProbe rfl) (by decide)
  -- a call from before the opening closes it
  · intro h
    have hrun : run step (init ⟨"HCM", 1, 30000⟩ 5)
        [.call, .call, .fail 0, .elapse 30005, .call] = some (halfOpened [0, 1]) := by
      decide +kernel
    have hstep : ∃ r, (halfOpened [0, 1]).step (.succeed 0) = some r ∧
        r.breaker.state ≠ .halfOpen := ⟨_, rfl, by decide⟩
    obtain ⟨r, hr, hne⟩ := hstep
    have hd : Disciplined (halfOpened [0, 1]) (.succeed 0) r :=
      Along.at_step hrun hr [] h
    obtain ⟨i, hi, hev⟩ := hd.byProbe rfl hne
    have hi0 : i = 0 := by
      rcases hev with ⟨he, _⟩ | ⟨he, _⟩ <;> cases he
      rfl
    rw [hi0] at hi
    exact absurd (Option.some.inj hi) (by decide)

end TimeOff.BreakerRun
