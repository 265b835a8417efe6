import TimeOff.BreakerTrips

/-! Retries and the breaker together. The breaker wraps each attempt, not the operation with
its retries, so an operation counts as many failures as it makes attempts: the breaker opens
for operations that failed for good exactly where no attempt that counts is retried. -/
namespace TimeOff

open Async Transitions

/-- A failed call that `withRetry` would repeat. -/
def soft : Option ℕ → Bool
  | some status => isRetryable (.hcm (.response status))
  | none => isRetryable (.hcm .noResponse)

/-- The dispatched calls since the last one that resolved. -/
def failures (log : List (Option ℕ)) : List (Option ℕ) := log.takeWhile fun e => !resolves e

/-- The operations since the last one that did not fail. -/
def failedInRow (results : List Bool) : ℕ := (results.takeWhile id).length

/-- What there was when the breaker opened: the calls that the operation under way had
dispatched, and for each operation before it whether it had failed, the last one first. -/
structure Opening where
  attempts : List (Option ℕ)
  results : List Bool
deriving DecidableEq

/-- The operation has failed and makes no more attempts. -/
def NoRetryLeft (maxAttempts : ℕ) (attempts : List (Option ℕ)) : Prop :=
  maxAttempts ≤ attempts.length ∨ ∃ e, attempts.head? = some e ∧ soft e = false

/-- The breaker opened for `threshold` operations in a row that failed after their own retries,
and if it takes more than one, not for one alone. -/
structure Opening.DueTo (maxAttempts threshold : ℕ) (o : Opening) : Prop where
  exhausted : NoRetryLeft maxAttempts o.attempts
  inRow : threshold ≤ failedInRow o.results + 1
  notAlone : 1 < threshold → o.attempts.length < threshold

/-- A service that runs its operations one after the other. -/
structure ServiceRun where
  client : ClientState
  attempts : List (Option ℕ)
  results : List Bool
  openings : List Opening

namespace ServiceRun

variable {δ : Type}

def init (options : CircuitOptions) (now : ℚ) : ServiceRun := ⟨.init options now, [], [], []⟩

/-- What is remembered of an operation of the client. -/
def note (s : ServiceRun) (o : ClientOp) (m : Moment δ) (client : ClientState) : ServiceRun where
  client := client
  attempts :=
    match o with
    | .request _ => m.ending.status :: s.attempts
    | _ => s.attempts
  results := s.results
  openings :=
    if s.client.breaker.state ≠ .opened ∧ client.breaker.state = .opened then
      ⟨s.attempts, s.results⟩ :: s.openings
    else s.openings

def exec (o : ClientOp) (m : Moment δ) (s : ServiceRun) :
    Option (Except Err (o.Resp δ) × ServiceRun) :=
  (ClientState.exec o m s.client).map fun r => (r.1, s.note o m r.2)

/-- The operation under way ends. -/
def finish (s : ServiceRun) (failed : Bool) : ServiceRun :=
  { s with results := failed :: s.results }

/-- One operation of `HcmService`; it has failed if it did not answer with data. -/
def operate (cfg : Config) (s : ServiceRun) (op : HcmCall × List (Moment δ)) :
    Option ServiceRun :=
  ((HcmClient.perform cfg op.1 : Client δ (Option δ)).play exec op.2
    { s with attempts := [] }).map fun r =>
      match r.1 with
      | .ok (some _) => r.2.finish false
      | _ => r.2.finish true

end ServiceRun

section Lists

variable {m N : ℕ} {e : Option ℕ} {A L : List (Option ℕ)}

theorem streak_eq (log : List (Option ℕ)) : streak log = (failures log).length := rfl

theorem failures_append (hA : ∀ e ∈ A, resolves e = false) :
    failures (A ++ L) = A ++ failures L := by
  apply List.takeWhile_append_of_pos
  intro e he
  rw [hA e he]
  rfl

theorem streak_append (hA : ∀ e ∈ A, resolves e = false) :
    streak (A ++ L) = A.length + streak L := by
  rw [streak_eq, failures_append hA, List.length_append, streak_eq]

/-- Either nothing is retried at all, or no failed call since the last one that resolved
was. -/
def Hard (maxAttempts : ℕ) (log : List (Option ℕ)) : Prop :=
  maxAttempts = 1 ∨ ∀ e ∈ failures log, soft e = false

/-- No attempt of an operation that is still trying can be there. -/
theorem Hard.nil_of_append (h : Hard m (A ++ L)) (hlength : A.length < m)
    (hA : ∀ e ∈ A, resolves e = false ∧ soft e = true) : A = [] := by
  cases A with
  | nil => rfl
  | cons e A =>
    rcases h with h1 | hsoft
    · rw [List.length_cons] at hlength
      omega
    · rw [failures_append fun x hx => (hA x hx).1] at hsoft
      have he := hsoft e (List.mem_append_left _ List.mem_cons_self)
      rw [(hA e List.mem_cons_self).2] at he
      cases he

theorem hard_cons_iff (he : resolves e = false) :
    Hard m (e :: L) ↔ (m = 1 ∨ soft e = false) ∧ Hard m L := by
  have hcons : failures (e :: L) = e :: failures L :=
    failures_append (A := [e]) fun x hx => by
      rw [List.mem_singleton.mp hx]
      exact he
  unfold Hard
  rw [hcons, List.forall_mem_cons]
  tauto

/-- The streaks that opened the breaker are hard. -/
def HardStreaks (m N : ℕ) (log : List (Option ℕ)) : Prop :=
  ∀ l, l <:+ log → N ≤ streak l → Hard m l

theorem hardStreaks_cons : HardStreaks m N (e :: L) ↔
    (N ≤ streak (e :: L) → Hard m (e :: L)) ∧ HardStreaks m N L := by
  constructor
  · intro h
    exact ⟨h _ List.suffix_rfl, fun l hl => h l (hl.trans (List.suffix_cons e L))⟩
  · intro h l hl
    rcases List.suffix_cons_iff.mp hl with rfl | hl
    · exact h.1
    · exact h.2 l hl

/-- The dispatched calls and the operations they belong to: operations since the last success
are at most as many as failed calls, fewer if one was retried, and as many if none was. -/
structure Tallied (m : ℕ) (log : List (Option ℕ)) (results : List Bool) (closed : Prop) :
    Prop where
  upper : closed → failedInRow results ≤ streak log
  fewer : closed → ¬ Hard m log → failedInRow results < streak log
  lower : Hard m log → streak log ≤ failedInRow results

/-- What it takes when the operation under way has dispatched one call. -/
theorem dueTo_single_iff {results : List Bool} (hm : 1 ≤ m) :
    Opening.DueTo m N ⟨[e], results⟩ ↔
      (m = 1 ∨ soft e = false) ∧ N ≤ failedInRow results + 1 := by
  constructor
  · intro h
    refine ⟨?_, h.inRow⟩
    rcases h.exhausted with hle | ⟨x, hx, hsoft⟩
    · left
      simp only [List.length_nil, List.length_cons] at hle
      omega
    · right
      cases hx
      exact hsoft
  · rintro ⟨hlast, hrow⟩
    refine ⟨?_, hrow, ?_⟩
    · rcases hlast with hone | hsoft
      · left
        simp only [List.length_cons, List.length_nil]
        omega
      · exact .inr ⟨e, rfl, hsoft⟩
    · intro hmany
      simpa using hmany

/-- An opening of a closed breaker, at the call that ended with `e`. -/
theorem dueTo_iff_first {left : ℕ} {results : List Bool} (hlength : A.length + left + 1 = m)
    (hA : ∀ e ∈ A, resolves e = false ∧ soft e = true) (he : resolves e = false)
    (ht : Tallied m L results True) (hN : streak (e :: (A ++ L)) = N) :
    Opening.DueTo m N ⟨e :: A, results⟩ ↔ Hard m (e :: (A ++ L)) := by
  have hfails : ∀ e ∈ A, resolves e = false := fun x hx => (hA x hx).1
  have hstreak : streak (e :: (A ++ L)) = A.length + streak L + 1 := by
    rw [streak_cons_of_fails he, streak_append hfails]
  rw [hard_cons_iff he]
  constructor
  · intro h
    have hupper := ht.upper trivial
    have hrow := h.inRow
    -- there is room for one attempt of each operation only
    have hnil : A = [] := by
      apply List.eq_nil_of_length_eq_zero
      dsimp only at hrow
      omega
    subst hnil
    have hhard : Hard m L := by
      by_contra hsoft
      have hfewer := ht.fewer trivial hsoft
      dsimp only at hrow
      rw [List.length_nil] at hstreak
      omega
    exact ⟨((dueTo_single_iff (by omega)).mp h).1, hhard⟩
  · intro h
    obtain ⟨hlast, hhard⟩ := h
    obtain rfl : A = [] := hhard.nil_of_append (by omega) hA
    have hlower := ht.lower hhard
    rw [List.length_nil] at hstreak
    exact (dueTo_single_iff (by omega)).mpr ⟨hlast, by omega⟩

/-- An opening of a half-open breaker, which has seen enough failures already. -/
theorem dueTo_iff_again {left : ℕ} {results : List Bool} {closed : Prop}
    (hlength : A.length + left + 1 = m) (hA : ∀ e ∈ A, resolves e = false ∧ soft e = true)
    (he : resolves e = false) (ht : Tallied m L results closed) (hN : N ≤ streak (A ++ L))
    (hbefore : Hard m (A ++ L)) :
    Opening.DueTo m N ⟨e :: A, results⟩ ↔ Hard m (e :: (A ++ L)) := by
  -- the streak was hard already, so the retries added nothing to it
  obtain rfl : A = [] := hbefore.nil_of_append (by omega) hA
  have hlower := ht.lower hbefore
  rw [hard_cons_iff he, List.nil_append] at *
  rw [dueTo_single_iff (by omega)]
  -- more operations than the threshold have failed, one for each call of the streak
  have hrow : N ≤ failedInRow results + 1 := by omega
  exact and_congr_right fun _ => ⟨fun _ => hbefore, fun _ => hrow⟩

/-- The tally after an operation that succeeded. -/
theorem tallied_success {results : List Bool} {closed : Prop} (he : resolves e = true) :
    Tallied m (e :: L) (false :: results) closed := by
  have hstreak : streak (e :: L) = 0 := streak_cons_of_resolves he L
  have hempty : failures (e :: L) = [] := List.eq_nil_of_length_eq_zero hstreak
  have hrow : failedInRow (false :: results) = 0 := rfl
  refine ⟨?_, ?_, ?_⟩
  · intro _
    rw [hrow]
    exact Nat.zero_le _
  -- a success ends the streak: nothing of it is soft
  · intro _ hsoft
    refine absurd (.inr ?_) hsoft
    rw [hempty]
    exact fun _ hx => nomatch hx
  · intro _
    rw [hstreak]
    exact Nat.zero_le _

theorem failedInRow_cons (results : List Bool) :
    failedInRow (true :: results) = failedInRow results + 1 := rfl

/-- The tally after an operation whose last attempt `e` failed and is not retried. -/
theorem tallied_failure {left : ℕ} {results : List Bool} {closed : Prop}
    (hlength : A.length + left + 1 = m) (hA : ∀ e ∈ A, resolves e = false ∧ soft e = true)
    (he : resolves e = false) (hlast : left = 0 ∨ soft e = false)
    (ht : Tallied m L results closed) :
    Tallied m (e :: (A ++ L)) (true :: results) closed := by
  have hfails : ∀ e ∈ A, resolves e = false := fun x hx => (hA x hx).1
  -- the failures of this operation join the streak
  have hstreak : streak (e :: (A ++ L)) = A.length + streak L + 1 := by
    rw [streak_cons_of_fails he, streak_append hfails]
  refine ⟨?_, ?_, ?_⟩
  · intro hc
    have hupper := ht.upper hc
    rw [failedInRow_cons]
    omega
  · intro hc hsoft
    have hupper := ht.upper hc
    rw [failedInRow_cons, hstreak]
    -- an operation that failed at its first call adds one to both counts
    rcases Nat.eq_zero_or_pos A.length with h0 | hpos
    · obtain rfl := List.eq_nil_of_length_eq_zero h0
      rw [List.nil_append, hard_cons_iff he] at hsoft
      have hhead : m = 1 ∨ soft e = false := by
        rcases hlast with h0' | hs
        · left
          rw [List.length_nil] at hlength
          omega
        · exact .inr hs
      have hfewer := ht.fewer hc fun hh => hsoft ⟨hhead, hh⟩
      omega
    -- one that was retried adds more calls than operations
    · omega
  · intro hhard
    obtain ⟨_, hbefore⟩ := (hard_cons_iff he).mp hhard
    obtain rfl : A = [] := hbefore.nil_of_append (by omega) hA
    have hlower := ht.lower hbefore
    rw [failedInRow_cons, hstreak, List.length_nil]
    omega

/-- The tally after an operation whose last attempt the breaker refused. -/
theorem tallied_refusal {left : ℕ} {results : List Bool} {closed : Prop}
    (hlength : A.length + left + 1 = m) (hA : ∀ e ∈ A, resolves e = false ∧ soft e = true)
    (ht : Tallied m L results closed) : Tallied m (A ++ L) (true :: results) False := by
  refine ⟨False.elim, False.elim, ?_⟩
  intro hhard
  obtain rfl : A = [] := hhard.nil_of_append (by omega) hA
  have hlower := ht.lower hhard
  rw [failedInRow_cons, List.nil_append]
  omega

theorem Tallied.mono {results : List Bool} {closed closed' : Prop}
    (ht : Tallied m L results closed) (h : closed' → closed) : Tallied m L results closed' :=
  ⟨fun hc => ht.upper (h hc), fun hc => ht.fewer (h hc), ht.lower⟩

end Lists

/-- An operation with `left` attempts to make; the calls before it are `base`. -/
structure Under (N m : ℕ) (base : List (Option ℕ)) (left : ℕ) (s : ServiceRun) : Prop where
  counted : Counted N s.client
  log : s.client.log = s.attempts ++ base
  tried : ∀ e ∈ s.attempts, resolves e = false ∧ soft e = true
  length : s.attempts.length + left = m
  tallied : Tallied m base s.results (s.client.breaker.state = .closed)
  due : (∀ o ∈ s.openings, o.DueTo m N) ↔ HardStreaks m N s.client.log

/-- No operation is under way. -/
structure Between (N m : ℕ) (s : ServiceRun) : Prop where
  counted : Counted N s.client
  tallied : Tallied m s.client.log s.results (s.client.breaker.state = .closed)
  due : (∀ o ∈ s.openings, o.DueTo m N) ↔ HardStreaks m N s.client.log

section Attempts

variable {N m left : ℕ} {base : List (Option ℕ)} {s : ServiceRun} {e : Option ℕ}

/-- A new opening is due to the operations exactly if the streak that ends there is hard. -/
theorem due_after_failure (hN : 1 ≤ N) (h : Under N m base (left + 1) s)
    (hopen : s.client.breaker.state ≠ .opened) (he : resolves e = false) (now : ℚ) :
    (∀ o ∈ (if (s.client.breaker.onFailure now).state = .opened then
        (⟨e :: s.attempts, s.results⟩ : Opening) :: s.openings else s.openings),
        o.DueTo m N) ↔ HardStreaks m N (e :: s.client.log) := by
  have hmax : max N 1 = N := max_eq_left hN
  have hopens := onFailure_opened_iff h.counted hopen now
  have hstreak : streak (e :: s.client.log) = streak s.client.log + 1 :=
    streak_cons_of_fails he _
  rw [hmax, ← hstreak] at hopens
  rw [hardStreaks_cons]
  -- only a streak that reaches the threshold opens the breaker
  by_cases hlong : N ≤ streak (e :: s.client.log)
  · rw [if_pos (hopens.mpr hlong), List.forall_mem_cons, h.due]
    refine and_congr_left fun hbefore => ?_
    have hiff : Opening.DueTo m N ⟨e :: s.attempts, s.results⟩ ↔ Hard m (e :: s.client.log) := by
      rw [h.log]
      -- the first opening of the streak, or one after a half-open probe
      by_cases hclosed : s.client.breaker.state = .closed
      · have hshort := (h.counted.closed hclosed).2
        refine dueTo_iff_first h.length h.tried he (h.tallied.mono fun _ => hclosed) ?_
        rw [← h.log]
        omega
      · have hmany := h.counted.notClosed hclosed
        rw [hmax] at hmany
        have hhard : Hard m s.client.log := hbefore _ List.suffix_rfl hmany
        rw [h.log] at hmany hhard
        exact dueTo_iff_again h.length h.tried he h.tallied hmany hhard
    rw [hiff]
    exact ⟨fun hh _ => hh, fun hh => hh hlong⟩
  · rw [if_neg fun ho => hlong (hopens.mp ho), h.due]
    exact ⟨fun hbefore => ⟨fun hle => absurd hle hlong, hbefore⟩, And.right⟩

end Attempts

section Programs

variable {δ β : Type} {N m left : ℕ} {base : List (Option ℕ)} {s : ServiceRun}

abbrev ServiceStep (o : ClientOp) (s : ServiceRun) (r : Except Err (o.Resp δ))
    (s' : ServiceRun) : Prop :=
  ∃ moment : Moment δ, ServiceRun.exec o moment s = some (r, s')

/-- Run alone from `s`, the program ends with `Q`. -/
abbrev ServiceEnds (Q : Except Err β → ServiceRun → Prop) (p : Client δ β) (s : ServiceRun) :
    Prop :=
  p.Holds ServiceStep Eq (fun _ _ => True) Q s

theorem serviceEnds_perform {o : ClientOp} {Q : Except Err (o.Resp δ) → ServiceRun → Prop}
    (h : ∀ (moment : Moment δ) r t, ServiceRun.exec o moment s = some (r, t) → Q r t) :
    ServiceEnds Q (Prog.perform o) s := by
  apply Prog.Holds.perform
  intro s₁ hs r t ht
  obtain rfl : s = s₁ := hs
  obtain ⟨moment, hm⟩ := ht
  exact ⟨trivial, h moment r t hm⟩

/-- What an attempt leaves, with `left` more to make: the end of the operation, or the way to
its next attempt. -/
def AttemptEnds (N m : ℕ) (base : List (Option ℕ)) (left : ℕ) (r : Except Err β)
    (t : ServiceRun) : Prop :=
  match r with
  | .ok _ => Between N m (t.finish false)
  | .error e => e ≠ .undefined ∧
      (left = 0 ∨ isRetryable e = false → Between N m (t.finish true)) ∧
      (isRetryable e = true → Under N m base left t)

theorem Ending.result_soft {e : Ending δ} {err : Err} (h : e.result = .error err) :
    err ≠ .undefined ∧ isRetryable err = soft e.status := by
  cases e with
  | reply status data =>
    simp only [Ending.result] at h
    split at h
    · cases h
    · cases h
      exact ⟨fun hne => (nomatch hne), rfl⟩
  | noResponse =>
    cases h
    exact ⟨fun hne => (nomatch hne), rfl⟩

/-- A refused attempt ends the operation. -/
theorem refused_ends (h : Under N m base (left + 1) s) {t : ServiceRun}
    (hcounted : Counted N t.client) (hlog : t.client.log = s.client.log)
    (hstate : t.client.breaker.state = .opened) (hresults : t.results = s.results)
    (hopenings : t.openings = s.openings) : Between N m (t.finish true) := by
  refine ⟨hcounted, ?_, ?_⟩
  · have ht := tallied_refusal h.length h.tried h.tallied
    show Tallied m t.client.log (true :: t.results) (t.client.breaker.state = .closed)
    rw [hlog, hresults, h.log]
    apply ht.mono
    rw [hstate]
    exact fun hc => nomatch hc
  · show (∀ o ∈ t.openings, o.DueTo m N) ↔ HardStreaks m N t.client.log
    rw [hopenings, hlog]
    exact h.due

/-- An admitted attempt finds the operation as it was, and the breaker not open. -/
theorem admitted_under (h : Under N m base left s) {now : ℚ} {b : CircuitBreaker}
    (hb : s.client.breaker.admission now = .ok b) :
    Under N m base left { s with client := { s.client with now := now, breaker := b } } ∧
      b.state ≠ .opened := by
  obtain ⟨hcounted, hne⟩ := counted_admitted h.counted hb
  refine ⟨⟨hcounted, h.log, h.tried, h.length, h.tallied.mono ?_, h.due⟩, hne⟩
  intro hc
  rcases CircuitBreaker.admission_cases hb with ⟨_, _, rfl⟩ | ⟨_, rfl⟩
  · cases hc
  · exact hc

/-- An attempt that resolves ends the operation well. -/
theorem resolved_ends (hN : 1 ≤ N) (h : Under N m base left s) {e : Option ℕ}
    (hopen : s.client.breaker.state ≠ .opened) (he : resolves e = true) (now : ℚ) :
    Between N m (ServiceRun.finish
      { s with
        client := { { s.client with log := e :: s.client.log }.move s.client.breaker.onSuccess with
          now := now }
        attempts := e :: s.attempts } false) := by
  refine ⟨counted_onSuccess h.counted hopen he now, tallied_success he, ?_⟩
  show (∀ o ∈ s.openings, o.DueTo m N) ↔ HardStreaks m N (e :: s.client.log)
  -- a success is no failure to be accounted for
  have hstreak : streak (e :: s.client.log) = 0 := streak_cons_of_resolves he _
  rw [h.due, hardStreaks_cons]
  constructor
  · intro hbefore
    refine ⟨?_, hbefore⟩
    intro hle
    omega
  · exact And.right

/-- An attempt that fails ends the operation, or leaves it on the way to the next one. -/
theorem failed_ends (hN : 1 ≤ N) (h : Under N m base (left + 1) s) {e : Option ℕ}
    (hopen : s.client.breaker.state ≠ .opened) (he : resolves e = false) (now : ℚ)
    {t : ServiceRun}
    (hclient : t.client = { { s.client with log := e :: s.client.log }.move
      (s.client.breaker.onFailure now) with now := now })
    (hattempts : t.attempts = e :: s.attempts) (hresults : t.results = s.results)
    (hopenings : t.openings = if (s.client.breaker.onFailure now).state = .opened then
      ⟨e :: s.attempts, s.results⟩ :: s.openings else s.openings) :
    (left = 0 ∨ soft e = false → Between N m (t.finish true)) ∧
      (soft e = true → Under N m base left t) := by
  have hcounted : Counted N t.client := by
    rw [hclient]
    exact counted_onFailure h.counted hopen he now now
  have hlog : t.client.log = e :: s.client.log := by
    rw [hclient]
    rfl
  have hdue : (∀ o ∈ t.openings, o.DueTo m N) ↔ HardStreaks m N t.client.log := by
    rw [hopenings, hlog]
    exact due_after_failure hN h hopen he now
  have hclosed : t.client.breaker.state = .closed → s.client.breaker.state = .closed := by
    rw [hclient]
    intro hc
    have hstate := s.client.breaker.onFailure_state now
    have hc' : (s.client.breaker.onFailure now).state = .closed := hc
    rw [hc'] at hstate
    split at hstate
    · cases hstate
    · exact hstate.symm
  -- the last attempt ends the operation with a failure; another one leaves it under way
  constructor
  · intro hlast
    refine ⟨hcounted, ?_, hdue⟩
    show Tallied m t.client.log (true :: t.results) (t.client.breaker.state = .closed)
    rw [hlog, hresults, h.log]
    exact (tallied_failure h.length h.tried he hlast h.tallied).mono hclosed
  · intro hsoft
    refine ⟨hcounted, ?_, ?_, ?_, ?_, hdue⟩
    · rw [hlog, hattempts, h.log]
      rfl
    · rw [hattempts]
      exact List.forall_mem_cons.mpr ⟨⟨he, hsoft⟩, h.tried⟩
    · have hlength := h.length
      rw [hattempts, List.length_cons]
      omega
    · rw [hresults]
      exact h.tallied.mono hclosed

theorem ServiceRun.exec_some {o : ClientOp} {moment : Moment δ} {r : Except Err (o.Resp δ)}
    {t : ServiceRun} (h : ServiceRun.exec o moment s = some (r, t)) :
    ∃ c, ClientState.exec o moment s.client = some (r, c) ∧ t = s.note o moment c := by
  obtain ⟨⟨r', c⟩, hexec, heq⟩ := Option.map_eq_some_iff.mp h
  cases heq
  exact ⟨c, hexec, rfl⟩

/-- Nothing is noted but the client when the breaker does not open. -/
theorem ServiceRun.note_quiet {o : ClientOp} {moment : Moment δ} {c : ClientState}
    (ho : ∀ config, o ≠ .request config)
    (h : ¬ (s.client.breaker.state ≠ .opened ∧ c.breaker.state = .opened)) :
    s.note o moment c = { s with client := c } := by
  unfold ServiceRun.note
  rw [if_neg h]
  cases o with
  | request config => exact absurd rfl (ho config)
  | _ => rfl

/-- A dispatched call ends, and the breaker is told how. -/
theorem dispatched_ends (hN : 1 ≤ N) (config : HcmCall) (h : Under N m base (left + 1) s)
    (hopen : s.client.breaker.state ≠ .opened) :
    ServiceEnds (AttemptEnds N m base left)
      ((HcmClient.dispatch config : Client δ δ).attempt.bind fun
        | .ok result => (Prog.perform .onSuccess).bind fun _ => pure result
        | .error err => (Prog.perform .onFailure).bind fun _ => throw err) s := by
  refine Prog.Holds.bind (Prog.Holds.attempt (serviceEnds_perform ?_))
  intro moment r t ht
  obtain ⟨c, hexec, rfl⟩ := ServiceRun.exec_some ht
  obtain ⟨_, hexec⟩ := Option.ite_none_right_eq_some.mp hexec
  cases hexec
  have hnote : s.note (.request config) moment
      { s.client with now := moment.now, log := moment.ending.status :: s.client.log } =
      { s with
        client := { s.client with
          now := moment.now, log := moment.ending.status :: s.client.log }
        attempts := moment.ending.status :: s.attempts } := by
    unfold ServiceRun.note
    rw [if_neg fun hmoved => hopen hmoved.2]
  dsimp only [Prog.after]
  rw [hnote]
  -- the breaker hears of the outcome before `withRetry` does
  rcases moment.ending.result_cases with ⟨hres, data, hdata⟩ | ⟨hfail, err, herr⟩
  · rw [hdata]
    refine Prog.Holds.bind (serviceEnds_perform ?_)
    intro later r t ht
    obtain ⟨c, hexec, rfl⟩ := ServiceRun.exec_some ht
    obtain ⟨_, hexec⟩ := Option.ite_none_right_eq_some.mp hexec
    cases hexec
    -- no success opens the breaker
    have hstill : s.client.breaker.onSuccess.state ≠ .opened := by
      rw [CircuitBreaker.onSuccess_state]
      split
      · exact fun hc => nomatch hc
      · exact hopen
    have hsuccess : ∀ config, ClientOp.onSuccess ≠ .request config := fun _ hne => nomatch hne
    rw [ServiceRun.note_quiet hsuccess fun hmoved => hstill hmoved.2]
    exact resolved_ends hN h hopen hres later.now
  · rw [herr]
    refine Prog.Holds.bind (serviceEnds_perform ?_)
    intro later r t ht
    obtain ⟨c, hexec, rfl⟩ := ServiceRun.exec_some ht
    obtain ⟨_, hexec⟩ := Option.ite_none_right_eq_some.mp hexec
    cases hexec
    obtain ⟨hne, hsoft⟩ := Ending.result_soft herr
    -- a failure may, and the opening is noted with the attempts that led to it
    have hopenings : (if s.client.breaker.state ≠ .opened ∧
          (s.client.breaker.onFailure later.now).state = .opened then
        (⟨moment.ending.status :: s.attempts, s.results⟩ : Opening) :: s.openings
        else s.openings) =
      if (s.client.breaker.onFailure later.now).state = .opened then
        ⟨moment.ending.status :: s.attempts, s.results⟩ :: s.openings else s.openings :=
      if_congr (and_iff_right hopen) rfl rfl
    obtain ⟨hlast, hnext⟩ := failed_ends hN h hopen hfail later.now (t := ServiceRun.note
      { s with
        client := { s.client with
          now := moment.now, log := moment.ending.status :: s.client.log }
        attempts := moment.ending.status :: s.attempts } .onFailure later _) rfl rfl rfl hopenings
    refine ⟨hne, ?_, ?_⟩
    · rw [hsoft]
      exact hlast
    · rw [hsoft]
      exact hnext

theorem circuitCall_ends (hN : 1 ≤ N) (config : HcmCall) (h : Under N m base (left + 1) s) :
    ServiceEnds (AttemptEnds N m base left)
      (HcmClient.circuitCall (HcmClient.dispatch config : Client δ δ)) s := by
  refine Prog.Holds.bind (serviceEnds_perform ?_)
  intro moment r t ht
  obtain ⟨c, hexec, rfl⟩ := ServiceRun.exec_some ht
  obtain ⟨_, hexec⟩ := Option.ite_none_right_eq_some.mp hexec
  dsimp only at hexec
  have hadmission : ∀ config, ClientOp.admission ≠ .request config := fun _ hne => nomatch hne
  cases hb : s.client.breaker.admission moment.now with
  | error e =>
    -- refused: not dispatched, so nothing is logged
    rw [hb] at hexec
    cases hexec
    have hopen : s.client.breaker.state = .opened := by
      by_contra hne
      rw [CircuitBreaker.admission_of_not_opened _ hne] at hb
      cases hb
    have hcounted := h.counted
    refine ⟨fun hne => (nomatch hne), fun _ => ?_, fun hretry => (nomatch hretry)⟩
    rw [ServiceRun.note_quiet hadmission fun hmoved => hmoved.1 hopen]
    exact refused_ends h ⟨hcounted.threshold, hcounted.closed, hcounted.notClosed,
      hcounted.trips⟩ rfl hopen rfl rfl
  -- admitted: the breaker is closed or half-open
  | ok b =>
    rw [hb] at hexec
    cases hexec
    obtain ⟨hunder, hopen⟩ := admitted_under h hb
    rw [ServiceRun.note_quiet hadmission fun hmoved => hopen hmoved.2]
    exact dispatched_ends hN config hunder hopen

/-- How an operation ends: its retries are over. -/
def OperationEnds (N m : ℕ) (r : Except Err β) (t : ServiceRun) : Prop :=
  match r with
  | .ok _ => Between N m (t.finish false)
  | .error e => e ≠ .undefined ∧ Between N m (t.finish true)

/-- The wait between two attempts. -/
theorem sleep_under (h : Under N m base left s) (ms : ℕ) :
    ServiceEnds (fun r t => r = .ok () ∧ Under N m base left t)
      (Prog.perform (ClientOp.sleep ms) : Client δ Unit) s := by
  apply serviceEnds_perform
  intro moment r t ht
  obtain ⟨c, hexec, rfl⟩ := ServiceRun.exec_some ht
  obtain ⟨_, hexec⟩ := Option.ite_none_right_eq_some.mp hexec
  cases hexec
  have hsleep : ∀ config, ClientOp.sleep ms ≠ .request config := fun _ hne => nomatch hne
  rw [ServiceRun.note_quiet (c := { s.client with now := moment.now }) hsleep
    fun hmoved => hmoved.1 hmoved.2]
  have hcounted := h.counted
  exact ⟨rfl, ⟨hcounted.threshold, hcounted.closed, hcounted.notClosed, hcounted.trips⟩, h.log,
    h.tried, h.length, h.tallied, h.due⟩

theorem retryFrom_ends (hN : 1 ≤ N) (cfg : Config) (config : HcmCall) (attempt : ℕ)
    (h : Under N m base (left + 1) s) :
    ServiceEnds (OperationEnds N m) (HcmClient.retryFrom cfg
      (HcmClient.circuitCall (HcmClient.dispatch config : Client δ δ)) attempt (left + 1)) s := by
  -- the induction is on the attempts that are left
  induction left generalizing s attempt with
  | zero =>
    apply Prog.Holds.handle
    refine Prog.Holds.mono ?_ (circuitCall_ends hN config h)
    intro r t hr
    cases r with
    | ok data => exact hr
    | error e => exact ⟨hr.1, hr.2.1 (.inl rfl)⟩
  | succ left ih =>
    apply Prog.Holds.handle
    refine Prog.Holds.mono ?_ (circuitCall_ends hN config h)
    intro r t hr
    cases r with
    | ok data => exact hr
    | error e =>
      obtain ⟨hne, hlast, hnext⟩ := hr
      show ServiceEnds _ (if (left + 1 = 0 || !isRetryable e) then _ else _) t
      -- a permanent error ends the operation early
      cases he : isRetryable e with
      | false =>
        rw [if_pos (by simp)]
        exact ⟨hne, hlast (.inr he)⟩
      | true =>
        rw [if_neg (by simp)]
        -- the wait changes neither the log nor the breaker
        refine Prog.Holds.bind (Prog.Holds.mono ?_ (sleep_under (hnext he) _))
        intro r u hslept
        obtain ⟨rfl, hunder⟩ := hslept
        exact ih (attempt + 1) hunder

/-- An operation begins between operations and ends there, with data or with null. -/
theorem operation_ends (hN : 1 ≤ N) (cfg : Config) (hm : 1 ≤ cfg.retryMaxAttempts)
    (config : HcmCall) (h : Between N cfg.retryMaxAttempts s) :
    ServiceEnds (fun r t => ∃ answer, r = .ok answer ∧
        Between N cfg.retryMaxAttempts (t.finish answer.isNone))
      (HcmClient.operation cfg config : Client δ (Option δ)) { s with attempts := [] } := by
  obtain ⟨left, hleft⟩ := Nat.exists_eq_add_of_le' hm
  -- the operation begins with all its attempts
  have hunder : Under N cfg.retryMaxAttempts s.client.log (left + 1)
      { s with attempts := [] } :=
    ⟨h.counted, rfl, fun _ he => (nomatch he), (Nat.zero_add _).trans hleft.symm, h.tallied,
      h.due⟩
  apply Prog.Holds.handle
  apply Prog.Holds.bind
  have hretry := retryFrom_ends (δ := δ) hN cfg config 1 hunder
  rw [← hleft] at hretry
  refine Prog.Holds.mono ?_ hretry
  intro r t hr
  cases r with
  | ok data => exact ⟨some data, rfl, hr⟩
  | error e =>
    obtain ⟨hne, hends⟩ := hr
    show ServiceEnds _ (if e = .undefined then _ else _) t
    rw [if_neg hne]
    exact ⟨none, rfl, hends⟩

theorem operate_between (hN : 1 ≤ N) (cfg : Config) (hm : 1 ≤ cfg.retryMaxAttempts)
    (s : ServiceRun) (op : HcmCall × List (Moment δ)) (t : ServiceRun)
    (h : Between N cfg.retryMaxAttempts s) (ht : s.operate cfg op = some t) :
    Between N cfg.retryMaxAttempts t := by
  obtain ⟨⟨r, u⟩, hplay, rfl⟩ := Option.map_eq_some_iff.mp ht
  have hends : ServiceEnds (fun r t => ∃ answer, r = .ok answer ∧
      Between N cfg.retryMaxAttempts (t.finish answer.isNone))
      -- the five operations have one body
      (HcmClient.perform cfg op.1 : Client δ (Option δ)) { s with attempts := [] } := by
    cases op.1 <;> exact operation_ends hN cfg hm _ h
  have hstep : ∀ (o : ClientOp) (moment : Moment δ) s (r : Except Err (o.Resp δ)) s',
      ServiceRun.exec o moment s = some (r, s') → ServiceStep o s r s' :=
    fun _ moment _ _ _ he => ⟨moment, he⟩
  obtain ⟨answer, rfl, hbetween⟩ := Prog.Holds.play (fun _ => rfl) hstep hends hplay
  cases answer with
  | none => exact hbetween
  | some data => exact hbetween

theorem between_init (options : CircuitOptions) (hN : 1 ≤ options.failureThreshold) (m : ℕ)
    (now : ℚ) : Between options.failureThreshold m (ServiceRun.init options now) := by
  refine ⟨counted_init options now, ⟨fun _ => Nat.zero_le _, ?_, fun _ => Nat.zero_le _⟩, ?_⟩
  · intro _ hsoft
    exact absurd (.inr fun _ he => nomatch he) hsoft
  · refine iff_of_true (fun _ ho => nomatch ho) ?_
    intro l hl hle
    rw [List.suffix_nil.mp hl] at hle
    exact absurd (hN.trans hle) (by decide)

end Programs

/-- The breaker opens for operations alone, each failed after its own retries, exactly if
retries are off or every streak of failed calls that is long enough to open it consists of
calls that are not retried. -/
theorem opens_for_operations_iff {δ : Type} (cfg : Config) (options : CircuitOptions)
    (start : ℚ) (ops : List (HcmCall × List (Moment δ))) (s : ServiceRun)
    (hm : 1 ≤ cfg.retryMaxAttempts) (hN : 1 ≤ options.failureThreshold)
    (h : run (ServiceRun.operate cfg) (ServiceRun.init options start) ops = some s) :
    (∀ o ∈ s.openings, o.DueTo cfg.retryMaxAttempts options.failureThreshold) ↔
      cfg.retryMaxAttempts = 1 ∨ ∀ l, l <:+ s.client.log →
        options.failureThreshold ≤ streak l → ∀ e ∈ failures l, soft e = false := by
  have hbetween := run_inv (operate_between hN cfg hm)
    (between_init options hN cfg.retryMaxAttempts start) h
  rw [hbetween.due]
  constructor
  -- the streaks are hard one by one, unless there is a single attempt
  · intro hhard
    by_cases h1 : cfg.retryMaxAttempts = 1
    · exact .inl h1
    · right
      intro l hl hle
      exact (hhard l hl hle).resolve_left h1
  · intro hcond l hl hle
    rcases hcond with h1 | hhard
    · exact .inl h1
    · exact .inr (hhard l hl hle)

/-- Approvals, one for each number of steps, all of whose calls end with this status. -/
def approvalsAnswered (threshold status : ℕ) (steps : List ℕ) : Option ServiceRun :=
  run (ServiceRun.operate plainConfig) (ServiceRun.init ⟨"HCM", threshold, 30000⟩ 0)
    (steps.map fun n =>
      (.notifyApproval plainKey 3 7, List.replicate n (⟨0, .reply status ()⟩ : Moment Unit)))

/-- Five approvals that the HCM refuses with 422 open the breaker together. -/
theorem refusals_open_together :
    ∃ s, approvalsAnswered 5 422 [3, 3, 3, 3, 3] = some s ∧ s.openings.length = 1 ∧
      ∀ o ∈ s.openings, o.DueTo 3 5 := by
  have hends : (approvalsAnswered 5 422 [3, 3, 3, 3, 3]).map
      (fun s => (s.openings.length, s.client.log)) = some (1, List.replicate 5 (some 422)) := by
    decide +kernel
  obtain ⟨s, hrun, hs⟩ := Option.map_eq_some_iff.mp hends
  have hlog : s.client.log = List.replicate 5 (some 422) := congrArg Prod.snd hs
  refine ⟨s, hrun, congrArg Prod.fst hs, ?_⟩
  apply (opens_for_operations_iff plainConfig ⟨"HCM", 5, 30000⟩ 0 _ s (by decide) (by decide)
    hrun).mpr
  right
  -- every call of the log was refused with 422
  intro l hl _ e he
  have hmem : e ∈ s.client.log := hl.subset ((List.takeWhile_sublist _).subset he)
  rw [hlog] at hmem
  rw [List.eq_of_mem_replicate hmem]
  rfl

/-- The first approval that meets a 503 opens a breaker of threshold 2 by itself: at its second
attempt of three. -/
theorem one_approval_opens :
    ∃ s, approvalsAnswered 2 503 [9] = some s ∧ ¬ ∀ o ∈ s.openings, o.DueTo 3 2 := by
  have hends : (approvalsAnswered 2 503 [9]).map (·.openings) =
      some [⟨[some 503, some 503], []⟩] := by
    decide +kernel
  obtain ⟨s, hrun, hopenings⟩ := Option.map_eq_some_iff.mp hends
  refine ⟨s, hrun, ?_⟩
  intro h
  rw [hopenings] at h
  have halone := (h _ List.mem_cons_self).notAlone (by decide)
  exact absurd halone (by decide)

end TimeOff
