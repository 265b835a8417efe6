import TimeOff.TimedBreaker
import Mathlib.Data.List.InsertIdx

/-! What the timers of `CircuitBreaker` make of its overlapping calls: each settles once, and
none is in flight past its timeout, so a half-open breaker gets its verdict in time. -/
namespace TimeOff

open Promises Function Transitions

namespace TimedBreaker

variable {α ε : Type} {s s' : TimedBreaker α ε}

section Steps

/-- Nothing of a call begins or ends. -/
structure Inside (s s' : TimedBreaker α ε) : Prop where
  breaker : s'.breaker = s.breaker
  now : s'.now = s.now
  admitted : s'.admitted = s.admitted
  timeout : s'.timeout = s.timeout
  results : s'.results = s.results

/-- What a step does: it begins a call, ends one, lets time pass, or works inside the calls. -/
inductive StepKind (s s' : TimedBreaker α ε) : Prop where
  | begins (b : CircuitBreaker) (hb : s.breaker.admission s.now = .ok b)
    (hs : s' = { s with breaker := b, admitted := s.admitted ++ [s.now] }.withTimeout
      s.admitted.length)
  | ends (n i : ℕ) (o : CallOutcome α ε) (heap : BreakerHeap α ε)
    (ht : s.heap.take n = some (.react (.handler (.after i)) o, heap))
    (hs : s' = { s with heap }.handle (.after i) o)
  | elapses (t : ℚ) (ht : s.now ≤ t) (hs : s' = { s with now := t })
  | inside (h : Inside s s') (hinv : s.Inv → s'.Inv)

theorem inside_handle {k : BreakerHandler} (hk : ∀ i, k ≠ .after i) (o : CallOutcome α ε) :
    Inside s (s.handle k o) := by
  cases k with
  | after i => exact absurd rfl (hk i)
  | _ => cases o <;> exact ⟨rfl, rfl, rfl, rfl, rfl⟩

theorem inside_runJob {j : Job BreakerPromise BreakerHandler (CallOutcome α ε)}
    (hj : ∀ i, j.pending ≠ .react (.handler (.after i))) : Inside s (s.runJob j) := by
  cases j with
  | adopt p q => exact ⟨rfl, rfl, rfl, rfl, rfl⟩
  | react r o =>
    cases r with
    | forward p => exact ⟨rfl, rfl, rfl, rfl, rfl⟩
    | handler k =>
      apply inside_handle
      intro i hk
      rw [hk] at hj
      exact hj i rfl

/-- A job is the code after an `await`, or works inside a call. -/
theorem job_kind {n : ℕ} {j : Job BreakerPromise BreakerHandler (CallOutcome α ε)}
    {heap : BreakerHeap α ε} (ht : s.heap.take n = some (j, heap)) :
    StepKind s ({ s with heap }.runJob j) := by
  by_cases hj : ∀ i, j.pending ≠ .react (.handler (.after i))
  · have hinside : Inside { s with heap } ({ s with heap }.runJob j) := inside_runJob hj
    refine .inside ⟨hinside.breaker, hinside.now, hinside.admitted, hinside.timeout,
      hinside.results⟩ fun h => ?_
    have hsame := Heap.outcome_take ht
    have hmem := Heap.mem_queue_of_take ht
    refine (h.take ht hj).runJob hj (fun r o hr => ?_) fun p q hr => ?_
    · rw [hr] at hmem
      obtain ⟨p, hp, ho⟩ := h.sound.react r o hmem
      refine ⟨p, hp, ?_⟩
      change heap.outcome p = some o
      rw [hsame]
      exact ho
    · rw [hr] at hmem
      exact h.sound.adopt p q hmem
  · obtain ⟨i, hi⟩ := not_forall.mp hj
    cases j with
    | adopt p q => exact absurd (fun h => nomatch h) hi
    | react r o =>
      have hr : r = .handler (.after i) := by
        by_contra hne
        apply hi
        intro hsame
        cases hsame
        exact hne rfl
      rw [hr] at ht ⊢
      exact .ends n i o heap ht rfl

theorem step_kind {e : Event α ε} (hs : s.step e = some s') : StepKind s s' := by
  cases e with
  | call =>
    have hcall : s.call = s' := Option.some.inj hs
    unfold call at hcall
    split at hcall
    -- a call that is refused changes nothing
    · rw [← hcall]
      exact .inside ⟨rfl, rfl, rfl, rfl, rfl⟩ id
    · next b hb => exact .begins b hb hcall.symm
  | job n =>
    obtain ⟨⟨j, heap⟩, ht, hj⟩ := Option.map_eq_some_iff.mp hs
    rw [← hj]
    exact job_kind ht
  | settle i o =>
    obtain ⟨⟨hi, _⟩, hs⟩ := Option.ite_none_right_eq_some.mp hs
    rw [← Option.some.inj hs]
    refine .inside ⟨rfl, rfl, rfl, rfl, rfl⟩ fun h => ?_
    exact h.settle (p := .fn i) (h.dispatched i hi) (by simp)
  | timer i =>
    dsimp only [step] at hs
    split at hs
    · next due hdue =>
      obtain ⟨hle, hs⟩ := Option.ite_none_right_eq_some.mp hs
      rw [← Option.some.inj hs]
      refine .inside ⟨rfl, rfl, rfl, rfl, rfl⟩ fun h => h.close ?_
      have htimers := h.timers i
      rw [hdue] at htimers
      split at htimers
      · cases htimers
      · obtain ⟨t, ht, hsum⟩ := Option.map_eq_some_iff.mp htimers.symm
        refine ⟨t, ht, .inr ⟨rfl, ?_⟩⟩
        rw [hsum]
        exact hle
    · cases hs
  | elapse t =>
    obtain ⟨ht, hs⟩ := Option.ite_none_right_eq_some.mp hs
    exact .elapses t ht (Option.some.inj hs).symm

theorem Inv.elapse (h : s.Inv) {t : ℚ} (ht : s.now ≤ t) : { s with now := t }.Inv := by
  have hgrows : s.Grows { s with now := t } := ⟨fun _ _ h => h, fun _ _ h => h, rfl, ht⟩
  exact ⟨h.sound, fun p o hp => hgrows.settles (h.settles p o hp), h.dispatched, h.timers,
    h.afters, h.results, fun i t' ht' => (h.times i t' ht').trans ht, h.probe⟩

theorem inv_step (s : TimedBreaker α ε) (e : Event α ε) (s' : TimedBreaker α ε) (h : s.Inv)
    (hs : s.step e = some s') : s'.Inv := by
  cases step_kind hs with
  | begins b hb hs' =>
    rw [hs']
    exact h.admit b
  | ends n i o heap ht hs' =>
    rw [hs']
    exact h.after ht
  | elapses t ht hs' =>
    rw [hs']
    exact h.elapse ht
  | inside _ hinv => exact hinv h

theorem inv_init (options : CircuitOptions) (timeout now : ℚ) :
    (init options timeout now : TimedBreaker α ε).Inv where
  sound := Heap.sound_empty
  settles _ _ h := nomatch h
  dispatched _ h := nomatch h
  timers _ := rfl
  afters _ := rfl
  results _ _ h := nomatch h
  times _ _ h := nomatch h
  probe h := nomatch h

end Steps

section Refinement

/-- The overlapping calls that the promises make up. -/
structure Shows (s : TimedBreaker α ε) (r : BreakerRun) : Prop where
  breaker : r.breaker = s.breaker
  now : r.now = s.now
  inFlight : ∃ openings : ℕ → ℕ, r.inFlight = s.unsettled.map openings

variable {r : BreakerRun}

theorem shows_init (options : CircuitOptions) (timeout now : ℚ) :
    (init options timeout now : TimedBreaker α ε).Shows (.init options now) :=
  ⟨rfl, rfl, fun _ => 0, rfl⟩

theorem Inside.unsettled (h : Inside s s') : s'.unsettled = s.unsettled := by
  rw [TimedBreaker.unsettled, h.admitted, h.results, TimedBreaker.unsettled]

theorem unsettled_nodup : s.unsettled.Nodup := List.nodup_range.filter _

/-- A call that ends is no longer in flight. -/
theorem unsettled_after {heap : BreakerHeap α ε} (i : ℕ) (o : CallOutcome α ε) :
    ({ s with heap }.handle (.after i) o).unsettled = s.unsettled.erase i := by
  rw [unsettled_nodup.erase_eq_filter]
  change (List.range s.admitted.length).filter (fun j => (update s.results i (some o) j).isNone) = _
  rw [unsettled, List.filter_filter]
  apply List.filter_congr
  intro j _
  by_cases heq : j = i
  · rw [heq, update_self]
    simp
  · rw [update_of_ne heq, bne_iff_ne.mpr heq, Bool.true_and]

/-- The event of the end of a call. -/
def endEvent (k : ℕ) : CallOutcome α ε → BreakerEvent
  | .ok _ => .succeed k
  | .error _ => .fail k

theorem step_endEvent (k : ℕ) (o : CallOutcome α ε) :
    r.step (endEvent k o) = r.settle k (counted r.breaker r.now o) := by
  cases o <;> rfl

/-- Every step is one of the overlapping calls, or none. -/
theorem shows_step (hr : s.Shows r) (h : s.Inv) (hs : StepKind s s') :
    ∃ es r', run BreakerRun.step r es = some r' ∧ s'.Shows r' := by
  obtain ⟨openings, hflight⟩ := hr.inFlight
  cases hs with
  | inside hinside _ =>
    refine ⟨[], r, rfl, hr.breaker.trans hinside.breaker.symm, hr.now.trans hinside.now.symm,
      openings, ?_⟩
    rw [hinside.unsettled]
    exact hflight
  | elapses t ht hs' =>
    have hle : r.now ≤ t := by
      rw [hr.now]
      exact ht
    refine ⟨[.elapse t], _, run_singleton (BreakerRun.step_elapse_eq hle), ?_⟩
    rw [hs']
    exact ⟨hr.breaker, rfl, openings, hflight⟩
  | begins b hb hs' =>
    have hstep : r.step .call = some { r with
        breaker := b, inFlight := r.inFlight ++ [r.openings] } := by
      dsimp only [BreakerRun.step]
      rw [hr.breaker, hr.now, hb]
    refine ⟨[.call], _, run_singleton hstep, ?_⟩
    rw [hs']
    refine ⟨rfl, hr.now, update openings s.admitted.length r.openings, ?_⟩
    have hold : s.unsettled.map (update openings s.admitted.length r.openings) =
        s.unsettled.map openings := by
      apply List.map_congr_left
      intro i hi
      exact update_of_ne (mem_unsettled.mp hi).1.ne _ _
    rw [h.unsettled_admit, List.map_append, hold, hflight, List.map_singleton, update_self]
  | ends n i o heap ht hs' =>
    obtain ⟨_, hi, hnone, _⟩ := h.found ht
    have hmem : i ∈ s.unsettled := mem_unsettled.mpr ⟨hi, hnone⟩
    have hlt : s.unsettled.idxOf i < r.inFlight.length := by
      rw [hflight, List.length_map]
      exact List.idxOf_lt_length_of_mem hmem
    -- the place of the call among those in flight
    have hstep : r.step (endEvent (s.unsettled.idxOf i) o) = some { r with
        breaker := counted r.breaker r.now o
        inFlight := r.inFlight.eraseIdx (s.unsettled.idxOf i)
        openings := if r.breaker.state ≠ .opened ∧
          (counted r.breaker r.now o).state = .opened then r.openings + 1 else r.openings } := by
      rw [step_endEvent, BreakerRun.settle, if_pos hlt]
    refine ⟨[endEvent (s.unsettled.idxOf i) o], _, run_singleton hstep, ?_⟩
    rw [hs']
    refine ⟨?_, hr.now, openings, ?_⟩
    · change counted r.breaker r.now o = counted s.breaker s.now o
      rw [hr.breaker, hr.now]
    · change r.inFlight.eraseIdx _ = _
      rw [unsettled_after, hflight, List.eraseIdx_map, List.eraseIdx_idxOf_eq_erase]

/-- Every run of the promises is one of the overlapping calls. -/
theorem shows_run (hr : s.Shows r) (h : s.Inv) {es : List (Event α ε)}
    (hrun : run step s es = some s') :
    ∃ es' r', run BreakerRun.step r es' = some r' ∧ s'.Shows r' := by
  induction es generalizing s r with
  | nil =>
    cases hrun
    exact ⟨[], r, rfl, hr⟩
  | cons e es ih =>
    obtain ⟨s₁, he, hrest⟩ := Option.bind_eq_some_iff.mp hrun
    obtain ⟨es₁, r₁, hfirst, hr₁⟩ := shows_step hr h (step_kind he)
    obtain ⟨es₂, r₂, hthen, hr₂⟩ := ih hr₁ (inv_step s e s₁ h he) hrest
    refine ⟨es₁ ++ es₂, r₂, ?_, hr₂⟩
    rw [run_append, hfirst]
    exact hthen

end Refinement

section Deadlines

theorem timeout_kept {es : List (Event α ε)} (hrun : run step s es = some s') :
    s'.timeout = s.timeout := by
  refine run_inv (I := fun s' : TimedBreaker α ε => s'.timeout = s.timeout) ?_ rfl hrun
  intro s₁ e s₂ hs he
  cases step_kind he with
  | begins b hb hs' =>
    rw [hs']
    exact hs
  | ends n i o heap ht hs' =>
    rw [hs']
    exact hs
  | elapses t ht hs' =>
    rw [hs']
    exact hs
  | inside hinside _ => exact hinside.timeout.trans hs

/-- What a call has come to stays. -/
theorem result_stays (h : s.Inv) {i : ℕ} {o : CallOutcome α ε} (hi : s.results i = some o)
    {es : List (Event α ε)} (hrun : run step s es = some s') : s'.results i = some o := by
  have hkept : s'.Inv ∧ s'.results i = some o := by
    refine run_inv (I := fun s : TimedBreaker α ε => s.Inv ∧ s.results i = some o) ?_ ⟨h, hi⟩ hrun
    intro s e s' hs he
    refine ⟨inv_step s e s' hs.1 he, ?_⟩
    cases step_kind he with
    | begins b hb hs' =>
      rw [hs']
      exact hs.2
    | ends n j o' heap ht hs' =>
      obtain ⟨_, _, hnone, _⟩ := hs.1.found ht
      rw [hs']
      change update s.results j (some o') i = some o
      rw [update_of_ne]
      · exact hs.2
      · rintro rfl
        rw [hs.2] at hnone
        cases hnone
    | elapses t ht hs' =>
      rw [hs']
      exact hs.2
    | inside hinside _ =>
      rw [hinside.results]
      exact hs.2
  exact hkept.2

/-- A call ends as its function did, or because its time was over. -/
theorem result_origin (h : s.Inv) {i : ℕ} {o : CallOutcome α ε} (hi : s.results i = some o) :
    ∃ t, s.admitted[i]? = some t ∧
      (s.heap.outcome (.fn i) = some o ∨ o = .error .timedOut ∧ t + s.timeout ≤ s.now) :=
  h.settles _ _ (h.results i o hi)

/-- When nothing is left to do, the calls in flight are younger than the timeout. -/
theorem young_of_quiet (h : s.Inv) (hquiet : s.Quiet) {i : ℕ} (hi : i ∈ s.unsettled) :
    ∃ t, s.admitted[i]? = some t ∧ s.now < t + s.timeout := by
  obtain ⟨hlt, hnone⟩ := mem_unsettled.mp hi
  have hafters := h.afters i
  have hunset : ¬ (s.results i).isSome = true := by
    rw [hnone]
    simp
  rw [if_pos hlt, if_neg hunset, add_zero] at hafters
  -- with no job queued, the code after the `await` still waits for the verdict
  have hopen : s.heap.outcome (.outer i) = none := by
    have hpos : 0 < s.heap.pending.count (.react (.handler (.after i))) := by
      rw [left] at hafters
      omega
    have hmem := List.count_pos_iff.mp hpos
    rw [Heap.pending, hquiet.queue, List.map_nil, List.append_nil] at hmem
    obtain ⟨⟨p, k⟩, hwait, heq⟩ := List.mem_map.mp hmem
    obtain ⟨hp, hnone⟩ := h.sound.waiting p k hwait
    cases heq
    obtain rfl : p = .outer i := hp
    exact hnone
  refine ⟨_, List.getElem?_eq_getElem hlt, hquiet.timers i _ ?_⟩
  rw [h.timers i, hopen, List.getElem?_eq_getElem hlt]
  rfl

/-- Both ends of a step. -/
def StaysHalfOpen (s : TimedBreaker α ε) (_ : Event α ε) (s' : TimedBreaker α ε) : Prop :=
  s.breaker.state = .halfOpen ∧ s'.breaker.state = .halfOpen

/-- While the breaker stays half-open, a call in flight stays in flight. -/
theorem unsettled_stays {i : ℕ} {t timeout : ℚ} {es : List (Event α ε)}
    (hi : i ∈ s.unsettled ∧ s.admitted[i]? = some t ∧ s.timeout = timeout)
    (halong : Along step StaysHalfOpen s es) (hrun : run step s es = some s') :
    i ∈ s'.unsettled ∧ s'.admitted[i]? = some t ∧ s'.timeout = timeout := by
  refine Along.inv (I := fun s : TimedBreaker α ε =>
    i ∈ s.unsettled ∧ s.admitted[i]? = some t ∧ s.timeout = timeout) ?_ hi halong hrun
  intro s e s' hs he hhalf
  obtain ⟨hmem, ht, htimeout⟩ := hs
  obtain ⟨hlt, hnone⟩ := mem_unsettled.mp hmem
  cases step_kind he with
  | begins b hb hs' =>
    have hadmitted : s'.admitted = s.admitted ++ [s.now] := by
      rw [hs']
      rfl
    have hresults : s'.results = s.results := by
      rw [hs']
      rfl
    have hsame : s'.timeout = s.timeout := by
      rw [hs']
      rfl
    refine ⟨mem_unsettled.mpr ⟨?_, ?_⟩, ?_, ?_⟩
    · rw [hadmitted, List.length_append]
      omega
    · rw [hresults]
      exact hnone
    · rw [hadmitted, List.getElem?_append_left hlt]
      exact ht
    · rw [hsame]
      exact htimeout
  | ends n j o heap _ hs' =>
    rw [StaysHalfOpen, hs'] at hhalf
    exact absurd hhalf.2 (counted_not_halfOpen _ _ o)
  | elapses t' _ hs' =>
    rw [hs']
    exact ⟨hmem, ht, htimeout⟩
  | inside hinside _ =>
    rw [hinside.unsettled, hinside.admitted, hinside.timeout]
    exact ⟨hmem, ht, htimeout⟩

end Deadlines

/-- The timers of the breaker do what its overlapping calls assume. Every run of the promises
and timers is one of the calls that settle once, with the same breaker. A call settles as its
function did or, after its time, as timed out, and what comes later changes nothing. Once the
jobs are run and the due timers have fired, no call in flight is older than the timeout, and a
breaker that has stayed half-open has done so for less than the timeout. -/
theorem calls_meet_deadlines (options : CircuitOptions) (timeout start : ℚ)
    (es : List (Event α ε)) (s : TimedBreaker α ε)
    (h : run step (init options timeout start) es = some s) :
    (∃ es' r, run BreakerRun.step (.init options start) es' = some r ∧ s.Shows r) ∧
    (∀ i o, s.results i = some o →
      (∃ t, s.admitted[i]? = some t ∧
        (s.heap.outcome (.fn i) = some o ∨ o = .error .timedOut ∧ t + timeout ≤ s.now)) ∧
      ∀ es' s', run step s es' = some s' → s'.results i = some o) ∧
    (s.Quiet → ∀ i ∈ s.unsettled, ∃ t, s.admitted[i]? = some t ∧ s.now < t + timeout) ∧
    (s.breaker.state = .halfOpen → ∀ es' s', run step s es' = some s' →
      Along step StaysHalfOpen s es' → s'.Quiet → s'.now < s.now + timeout) := by
  have hinv : s.Inv := run_inv inv_step (inv_init options timeout start) h
  have hsame : s.timeout = timeout := timeout_kept h
  refine ⟨shows_run (shows_init options timeout start) (inv_init options timeout start) h,
    fun i o hi => ⟨?_, fun es' s' hrun => result_stays hinv hi hrun⟩, fun hquiet i hi => ?_,
    fun hhalf es' s' hrun halong hquiet => ?_⟩
  · rw [← hsame]
    exact result_origin hinv hi
  · rw [← hsame]
    exact young_of_quiet hinv hquiet hi
  obtain ⟨i, hi⟩ := List.exists_mem_of_ne_nil _ (hinv.probe hhalf)
  obtain ⟨t, ht⟩ : ∃ t, s.admitted[i]? = some t :=
    ⟨_, List.getElem?_eq_getElem (mem_unsettled.mp hi).1⟩
  obtain ⟨hmem, hkept, htimeout⟩ := unsettled_stays ⟨hi, ht, hsame⟩ halong hrun
  obtain ⟨t', ht', hyoung⟩ := young_of_quiet (run_inv inv_step hinv hrun) hquiet hmem
  have heq : t' = t := Option.some.inj (ht'.symm.trans hkept)
  have hpast : t ≤ s.now := hinv.times i t ht
  rw [htimeout, heq] at hyoung
  linarith

/-- A call of ten seconds whose timer fires. -/
def timesOut : List (Event ℕ ℕ) := [.call, .job 0, .job 0, .elapse 10000, .timer 0, .job 0]

/-- Its function answers all the same. -/
def answersLate : List (Event ℕ ℕ) := [.settle 0 (.ok 7), .job 0, .job 0, .job 0]

theorem late_answer_runs :
    ((run step (init ⟨"HCM", 1, 30000⟩ 10000 0) timesOut).any fun s =>
      (run step s answersLate).isSome &&
        decide (s.results 0 = some (.error .timedOut))) = true := by decide +kernel

/-- The late answer is dropped. -/
theorem late_answer_dropped : ∃ s s' : TimedBreaker ℕ ℕ,
    run step (init ⟨"HCM", 1, 30000⟩ 10000 0) timesOut = some s ∧
      run step s answersLate = some s' ∧ s'.results 0 = some (.error .timedOut) := by
  obtain ⟨s, hs, hlate⟩ := (Option.any_eq_true _ _).mp late_answer_runs
  rw [Bool.and_eq_true, decide_eq_true_eq] at hlate
  obtain ⟨s', hs'⟩ := Option.isSome_iff_exists.mp hlate.1
  have hmeets := calls_meet_deadlines ⟨"HCM", 1, 30000⟩ 10000 0 timesOut s hs
  exact ⟨s, s', hs, hs', (hmeets.2.1 0 _ hlate.2).2 answersLate s' hs'⟩

end TimedBreaker

end TimeOff
