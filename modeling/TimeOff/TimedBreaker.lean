import TimeOff.BreakerRuns
import TimeOff.CreatePromises

/-! `CircuitBreaker.call` on its promises: the timer of `_withTimeout` races the function, turn
by turn of the job queue. Every run is one of the overlapping calls that settle once, and a call
is in flight no longer than its timeout. -/
namespace TimeOff

open Promises Function

/-- The promises of a call, `_withTimeout` from inside out. -/
inductive BreakerPromise where
  /-- `Promise.resolve()`. -/
  | resolved (i : ℕ)
  /-- The promise of `fn()`. -/
  | fn (i : ℕ)
  /-- `.then(() => fn())`. -/
  | result (i : ℕ)
  /-- `.then((val) => …)`. -/
  | handled (i : ℕ)
  /-- `new Promise((resolve, reject) => …)`. -/
  | outer (i : ℕ)
deriving DecidableEq

inductive BreakerHandler where
  | run (i : ℕ)
  | fulfilled (i : ℕ)
  | caught (i : ℕ)
  /-- The code after `await this._withTimeout(callFn)`. -/
  | after (i : ℕ)
deriving DecidableEq

inductive CallFailure (ε : Type) where
  | thrown (e : ε)
  | timedOut
deriving DecidableEq

abbrev CallOutcome (α ε : Type) := Except (CallFailure ε) (Option α)

abbrev BreakerHeap (α ε : Type) := Heap BreakerPromise BreakerHandler (CallOutcome α ε)

structure TimedBreaker (α ε : Type) where
  breaker : CircuitBreaker
  /-- `setTimeout` keeps whole milliseconds from 1 to 2147483647. -/
  timeout : ℚ
  now : ℚ
  heap : BreakerHeap α ε
  /-- When the calls were admitted. -/
  admitted : List ℚ
  /-- When the timer of a call is due, until it fires or is cleared. -/
  timers : ℕ → Option ℚ
  /-- The calls whose function has been called. -/
  dispatched : List ℕ
  /-- How the calls have settled. -/
  results : ℕ → Option (CallOutcome α ε)

namespace TimedBreaker

variable {α ε : Type}

def init (options : CircuitOptions) (timeout now : ℚ) : TimedBreaker α ε :=
  ⟨.new options, timeout, now, .empty, [], fun _ => none, [], fun _ => none⟩

section Steps

/-- `_withTimeout(callFn)` of call `i`, and the `await` of it. -/
def withTimeout (s : TimedBreaker α ε) (i : ℕ) : TimedBreaker α ε :=
  { s with
    timers := update s.timers i (some (s.now + s.timeout))
    heap := ((((s.heap.settle (.resolved i) (.ok none)).register
      (.resolved i) (.handler (.run i))).register
        (.result i) (.handler (.fulfilled i))).register
          (.handled i) (.handler (.caught i))).register
            (.outer i) (.handler (.after i)) }

/-- `call`, up to its `await`; one that is refused leaves no promise. -/
def call (s : TimedBreaker α ε) : TimedBreaker α ε :=
  match s.breaker.admission s.now with
  | .error _ => s
  | .ok b =>
    { s with breaker := b, admitted := s.admitted ++ [s.now] }.withTimeout s.admitted.length

/-- `clearTimeout(timer)`, then `resolve` or `reject`. -/
def close (s : TimedBreaker α ε) (i : ℕ) (o : CallOutcome α ε) : TimedBreaker α ε :=
  { s with timers := update s.timers i none, heap := s.heap.settle (.outer i) o }

/-- How the end of a call is counted. -/
def counted (b : CircuitBreaker) (now : ℚ) : CallOutcome α ε → CircuitBreaker
  | .ok _ => b.onSuccess
  | .error _ => b.onFailure now

def handle (s : TimedBreaker α ε) : BreakerHandler → CallOutcome α ε → TimedBreaker α ε
  | .run i, .ok _ =>
    { s with dispatched := s.dispatched ++ [i], heap := s.heap.adopt (.result i) (.fn i) }
  | .run i, .error e => { s with heap := s.heap.settle (.result i) (.error e) }
  | .fulfilled i, .ok v =>
    let s := s.close i (.ok v)
    { s with heap := s.heap.settle (.handled i) (.ok none) }
  -- a `then` without a second callback passes the rejection on
  | .fulfilled i, .error e => { s with heap := s.heap.settle (.handled i) (.error e) }
  | .caught _, .ok _ => s
  | .caught i, .error e => s.close i (.error e)
  | .after i, o =>
    { s with breaker := counted s.breaker s.now o, results := update s.results i (some o) }

def runJob (s : TimedBreaker α ε) :
    Job BreakerPromise BreakerHandler (CallOutcome α ε) → TimedBreaker α ε
  | .react (.handler h) o => s.handle h o
  | .react (.forward p) o => { s with heap := s.heap.settle p o }
  | .adopt p q => { s with heap := s.heap.register q (.forward p) }

/-- What the function of a call gives. -/
def answered : Except ε α → CallOutcome α ε
  | .ok v => .ok (some v)
  | .error e => .error (.thrown e)

inductive Event (α ε : Type) where
  | call
  /-- The job at a place of the queue: the language takes the first. -/
  | job (n : ℕ)
  /-- The function of a call fulfils or throws. -/
  | settle (i : ℕ) (o : Except ε α)
  /-- The timer of a call fires. -/
  | timer (i : ℕ)
  | elapse (now : ℚ)

def step (s : TimedBreaker α ε) : Event α ε → Option (TimedBreaker α ε)
  | .call => some s.call
  | .job n => (s.heap.take n).map fun (j, heap) => { s with heap := heap }.runJob j
  | .settle i o =>
    if i ∈ s.dispatched ∧ (s.heap.outcome (.fn i)).isNone then
      some { s with heap := s.heap.settle (.fn i) (answered o) }
    else none
  | .timer i =>
    match s.timers i with
    | some due => if due ≤ s.now then some (s.close i (.error .timedOut)) else none
    | none => none
  | .elapse t => if s.now ≤ t then some { s with now := t } else none

/-- The calls that are admitted and not settled. -/
def unsettled (s : TimedBreaker α ε) : List ℕ :=
  (List.range s.admitted.length).filter fun i => (s.results i).isNone

/-- No job is queued and no timer is due. -/
structure Quiet (s : TimedBreaker α ε) : Prop where
  queue : s.heap.queue = []
  timers : ∀ i due, s.timers i = some due → s.now < due

end Steps

section Invariant

/-- Where the callbacks of a call wait. -/
def Awaits : BreakerPromise → Reaction BreakerPromise BreakerHandler → Prop
  | p, .handler (.run i) => p = .resolved i
  | p, .handler (.fulfilled i) => p = .result i
  | p, .handler (.caught i) => p = .handled i
  | p, .handler (.after i) => p = .outer i
  | p, .forward q => ∃ i, q = .result i ∧ p = .fn i

def Adopts (p q : BreakerPromise) : Prop := ∃ i, p = .result i ∧ q = .fn i

variable (s : TimedBreaker α ε)

/-- What the settled promises rest on: a call ends as its function did, or after its time. -/
def Settles : BreakerPromise → CallOutcome α ε → Prop
  | .resolved i, o => o = .ok none ∧ i < s.admitted.length
  | .fn i, _ => i < s.admitted.length
  | .result i, o => i < s.admitted.length ∧ s.heap.outcome (.fn i) = some o
  | .handled i, o => i < s.admitted.length ∧ ∀ e, o = .error e → s.heap.outcome (.fn i) = some o
  | .outer i, o => ∃ t, s.admitted[i]? = some t ∧
    (s.heap.outcome (.fn i) = some o ∨ o = .error .timedOut ∧ t + s.timeout ≤ s.now)

def left (t : Pending BreakerPromise BreakerHandler) : ℕ := s.heap.pending.count t

structure Inv : Prop where
  sound : s.heap.Sound Awaits Adopts
  settles : ∀ p o, s.heap.outcome p = some o → s.Settles p o
  dispatched : ∀ i ∈ s.dispatched, i < s.admitted.length
  /-- A timer runs until its call is decided. -/
  timers : ∀ i, s.timers i = if (s.heap.outcome (.outer i)).isSome then none
    else (s.admitted[i]?).map (· + s.timeout)
  /-- The code after the `await` is before a call or behind it, once. -/
  afters : ∀ i, s.left (.react (.handler (.after i))) + (if (s.results i).isSome then 1 else 0) =
    if i < s.admitted.length then 1 else 0
  results : ∀ i o, s.results i = some o → s.heap.outcome (.outer i) = some o
  times : ∀ (i : ℕ) t, s.admitted[i]? = some t → t ≤ s.now
  probe : s.breaker.state = .halfOpen → s.unsettled ≠ []

/-- Calls, settlements and time only grow. -/
structure Grows (s' : TimedBreaker α ε) : Prop where
  admitted : ∀ (i : ℕ) t, s.admitted[i]? = some t → s'.admitted[i]? = some t
  outcome : ∀ p o, s.heap.outcome p = some o → s'.heap.outcome p = some o
  timeout : s'.timeout = s.timeout
  now : s.now ≤ s'.now

variable {s} {s' : TimedBreaker α ε}

theorem Grows.lt (h : s.Grows s') {i : ℕ} (hi : i < s.admitted.length) :
    i < s'.admitted.length :=
  (List.getElem?_eq_some_iff.mp (h.admitted i _ (List.getElem?_eq_getElem hi))).1

theorem Grows.settles (h : s.Grows s') {p : BreakerPromise} {o : CallOutcome α ε}
    (hs : s.Settles p o) : s'.Settles p o := by
  cases p with
  | resolved i => exact ⟨hs.1, h.lt hs.2⟩
  | fn i => exact h.lt hs
  | result i => exact ⟨h.lt hs.1, h.outcome _ _ hs.2⟩
  | handled i => exact ⟨h.lt hs.1, fun e he => h.outcome _ _ (hs.2 e he)⟩
  | outer i =>
    obtain ⟨t, ht, hs⟩ := hs
    refine ⟨t, h.admitted i t ht, ?_⟩
    rcases hs with hs | ⟨ho, hle⟩
    · exact .inl (h.outcome _ _ hs)
    · right
      rw [h.timeout]
      exact ⟨ho, hle.trans h.now⟩

end Invariant

section Turns

variable {s : TimedBreaker α ε} {heap : BreakerHeap α ε}

theorem left_register (p : BreakerPromise) (r : Reaction BreakerPromise BreakerHandler)
    (t : Pending BreakerPromise BreakerHandler) :
    (heap.register p r).pending.count t = heap.pending.count t + if .react r = t then 1 else 0 := by
  rw [(heap.pending_register p r).count_eq, List.count_cons]
  simp only [beq_iff_eq]

/-- A turn of the heap that decides no call and neither adds nor runs the code after an
`await`. -/
theorem Inv.turn (h : s.Inv) (hsound : heap.Sound Awaits Adopts)
    (hkept : ∀ p o, s.heap.outcome p = some o → heap.outcome p = some o)
    (hnew : ∀ p o, heap.outcome p = some o →
      s.heap.outcome p = some o ∨ { s with heap }.Settles p o)
    (houter : ∀ i, heap.outcome (.outer i) = s.heap.outcome (.outer i))
    (hleft : ∀ i, heap.pending.count (.react (.handler (.after i))) =
      s.left (.react (.handler (.after i)))) : { s with heap }.Inv := by
  have hgrows : s.Grows { s with heap } := ⟨fun _ _ h => h, hkept, rfl, le_rfl⟩
  refine ⟨hsound, fun p o hp => ?_, h.dispatched, fun i => ?_, fun i => ?_, fun i o hi => ?_,
    h.times, h.probe⟩
  · rcases hnew p o hp with hold | hs
    · exact hgrows.settles (h.settles p o hold)
    · exact hs
  · change s.timers i = if (heap.outcome (.outer i)).isSome then none else _
    rw [houter]
    exact h.timers i
  · change heap.pending.count _ + _ = _
    rw [hleft]
    exact h.afters i
  · change heap.outcome (.outer i) = some o
    rw [houter]
    exact h.results i o hi

/-- A job other than the code after an `await` is taken out of the queue. -/
theorem Inv.take (h : s.Inv) {n : ℕ} {j : Job BreakerPromise BreakerHandler (CallOutcome α ε)}
    (ht : s.heap.take n = some (j, heap)) (hj : ∀ i, j.pending ≠ .react (.handler (.after i))) :
    { s with heap }.Inv := by
  have hsame := Heap.outcome_take ht
  refine h.turn (h.sound.take ht) (fun p o hp => ?_) (fun p o hp => .inl ?_) (fun i => ?_)
    fun i => ?_
  · rw [hsame]
    exact hp
  · rw [← hsame]
    exact hp
  · rw [hsame]
  · rw [left, (Heap.pending_take ht).count_eq, List.count_cons_of_ne (hj i)]

/-- A promise inside of a call settles. -/
theorem Inv.settle (h : s.Inv) {p : BreakerPromise} {o : CallOutcome α ε} (ho : s.Settles p o)
    (hp : ∀ i, p ≠ .outer i) : { s with heap := s.heap.settle p o }.Inv := by
  have hgrows : s.Grows { s with heap := s.heap.settle p o } :=
    ⟨fun _ _ h => h, fun q o' hq => Heap.outcome_settle_of_some hq p o, rfl, le_rfl⟩
  refine h.turn (h.sound.settle p o) hgrows.outcome (fun q o' hq => ?_) (fun i => ?_) fun i => ?_
  · cases hpending : s.heap.outcome p with
    | some o'' =>
      rw [Heap.settle_of_some hpending] at hq
      exact .inl hq
    | none =>
      by_cases heq : q = p
      · rw [heq, Heap.outcome_settle hpending, update_self] at hq
        cases hq
        rw [heq]
        exact .inr (hgrows.settles ho)
      · rw [Heap.outcome_settle_of_ne heq] at hq
        exact .inl hq
  · exact Heap.outcome_settle_of_ne (hp i).symm o
  · exact (s.heap.pending_settle p o).count_eq _

/-- A call is decided: its timer is cleared. -/
theorem Inv.close (h : s.Inv) {i : ℕ} {o : CallOutcome α ε} (ho : s.Settles (.outer i) o) :
    (s.close i o).Inv := by
  have hgrows : s.Grows (s.close i o) :=
    ⟨fun _ _ h => h, fun q o' hq => Heap.outcome_settle_of_some hq _ o, rfl, le_rfl⟩
  refine ⟨h.sound.settle _ o, fun q o' hq => ?_, h.dispatched, fun j => ?_, fun j => ?_,
    fun j o' hj => ?_, h.times, h.probe⟩
  · by_cases heq : q = .outer i
    · cases hpending : s.heap.outcome (.outer i) with
      | some o'' =>
        change (s.heap.settle _ _).outcome _ = _ at hq
        rw [Heap.settle_of_some hpending] at hq
        exact hgrows.settles (h.settles q o' hq)
      | none =>
        change (s.heap.settle _ _).outcome _ = _ at hq
        rw [heq, Heap.outcome_settle hpending, update_self] at hq
        cases hq
        rw [heq]
        exact hgrows.settles ho
    · change (s.heap.settle _ _).outcome _ = _ at hq
      rw [Heap.outcome_settle_of_ne heq] at hq
      exact hgrows.settles (h.settles q o' hq)
  · change update s.timers i none j =
      if ((s.heap.settle (.outer i) o).outcome (.outer j)).isSome then none else _
    by_cases heq : j = i
    · rw [heq, update_self, Heap.outcome_settle_self, if_pos rfl]
    · have hne : BreakerPromise.outer j ≠ .outer i := by
        intro hsame
        cases hsame
        exact heq rfl
      rw [update_of_ne heq, Heap.outcome_settle_of_ne hne]
      exact h.timers j
  · change (s.heap.settle _ _).pending.count _ + _ = _
    rw [(s.heap.pending_settle _ _).count_eq]
    exact h.afters j
  · exact hgrows.outcome _ _ (h.results j o' hj)

/-- What the callbacks of a call, up to the code after the `await`, do. -/
theorem Inv.handle (h : s.Inv) {k : BreakerHandler} {o : CallOutcome α ε} {p : BreakerPromise}
    (hk : ∀ i, k ≠ .after i) (hp : Awaits p (.handler k)) (ho : s.heap.outcome p = some o) :
    (s.handle k o).Inv := by
  cases k with
  | run i =>
    obtain rfl : p = .resolved i := hp
    obtain ⟨rfl, hi⟩ : o = .ok none ∧ i < s.admitted.length := h.settles _ _ ho
    have hadopted : { s with heap := s.heap.adopt (.result i) (.fn i) }.Inv := by
      refine h.turn (h.sound.adopt_queued ⟨i, rfl, rfl⟩) (fun _ _ h => h) (fun _ _ h => .inl h)
        (fun _ => rfl) fun j => ?_
      rw [(s.heap.pending_adopt _ _).count_eq, List.count_cons_of_ne (by simp)]
      rfl
    refine { hadopted with dispatched := fun j hj => ?_ }
    rcases List.mem_append.mp hj with hj | hj
    · exact h.dispatched j hj
    · rw [List.mem_singleton.mp hj]
      exact hi
  | fulfilled i =>
    obtain rfl : p = .result i := hp
    obtain ⟨hi, hfn⟩ : i < s.admitted.length ∧ s.heap.outcome (.fn i) = some o :=
      h.settles _ _ ho
    cases o with
    | ok v =>
      have hclosed : (s.close i (.ok v)).Inv :=
        h.close ⟨_, List.getElem?_eq_getElem hi, .inl hfn⟩
      exact hclosed.settle (p := .handled i) ⟨hi, fun e he => nomatch he⟩ (by simp)
    | error e => exact h.settle (p := .handled i) ⟨hi, fun _ _ => hfn⟩ (by simp)
  | caught i =>
    obtain rfl : p = .handled i := hp
    obtain ⟨hi, hfn⟩ : i < s.admitted.length ∧
      ∀ e, o = .error e → s.heap.outcome (.fn i) = some o := h.settles _ _ ho
    cases o with
    | ok v => exact h
    | error e => exact h.close ⟨_, List.getElem?_eq_getElem hi, .inl (hfn e rfl)⟩
  | after i => exact absurd rfl (hk i)

theorem Inv.runJob (h : s.Inv) {j : Job BreakerPromise BreakerHandler (CallOutcome α ε)}
    (hj : ∀ i, j.pending ≠ .react (.handler (.after i)))
    (hreact : ∀ r o, j = .react r o → ∃ p, Awaits p r ∧ s.heap.outcome p = some o)
    (hadopt : ∀ p q, j = .adopt p q → Adopts p q) : (s.runJob j).Inv := by
  cases j with
  | adopt p q =>
    obtain ⟨i, rfl, rfl⟩ := hadopt p q rfl
    refine h.turn (h.sound.register ⟨i, rfl, rfl⟩) (fun p o hp => ?_) (fun p o hp => .inl ?_)
      (fun j => ?_) fun j => ?_
    · rw [Heap.outcome_register]
      exact hp
    · rw [← Heap.outcome_register]
      exact hp
    · rw [Heap.outcome_register]
    · rw [left_register, if_neg (by simp), add_zero]
      rfl
  | react r o =>
    obtain ⟨p, hp, ho⟩ := hreact r o rfl
    cases r with
    | handler k =>
      refine h.handle (fun i hk => ?_) hp ho
      rw [hk] at hj
      exact hj i rfl
    | forward q =>
      obtain ⟨i, rfl, rfl⟩ := hp
      exact h.settle (p := .result i) ⟨h.settles _ _ ho, ho⟩ (by simp)

/-- No end of a call leaves the breaker half-open. -/
theorem counted_not_halfOpen (b : CircuitBreaker) (now : ℚ) (o : CallOutcome α ε) :
    (counted b now o).state ≠ .halfOpen := by
  cases o with
  | ok v =>
    change b.onSuccess.state ≠ .halfOpen
    rw [b.onSuccess_state]
    split
    · decide
    · next hne => exact hne
  | error e =>
    change (b.onFailure now).state ≠ .halfOpen
    rw [b.onFailure_state]
    split
    · decide
    · next hne => exact fun hh => hne (.inl hh)

/-- The code after an `await` runs once, with what decided its call. -/
theorem Inv.found (h : s.Inv) {n i : ℕ} {o : CallOutcome α ε}
    (ht : s.heap.take n = some (.react (.handler (.after i)) o, heap)) :
    s.heap.outcome (.outer i) = some o ∧ i < s.admitted.length ∧ s.results i = none ∧
      heap.pending.count (.react (.handler (.after i))) = 0 := by
  obtain ⟨p, hp, ho⟩ := h.sound.react _ _ (Heap.mem_queue_of_take ht)
  obtain rfl : p = .outer i := hp
  have hafters := h.afters i
  have hleft : s.left (.react (.handler (.after i))) =
      heap.pending.count (.react (.handler (.after i))) + 1 := by
    rw [left, (Heap.pending_take ht).count_eq]
    exact List.count_cons_self
  rw [hleft] at hafters
  have hi : i < s.admitted.length := by
    by_contra hge
    rw [if_neg hge] at hafters
    omega
  rw [if_pos hi] at hafters
  refine ⟨ho, hi, ?_, by omega⟩
  by_contra hsome
  rw [if_pos (Option.isSome_iff_ne_none.mpr hsome)] at hafters
  omega

theorem Inv.after (h : s.Inv) {n i : ℕ} {o : CallOutcome α ε}
    (ht : s.heap.take n = some (.react (.handler (.after i)) o, heap)) :
    ({ s with heap }.handle (.after i) o).Inv := by
  obtain ⟨ho, hi, hnone, hzero⟩ := h.found ht
  have hsame := Heap.outcome_take ht
  refine ⟨h.sound.take ht, fun p o' hp => ?_, h.dispatched, fun j => ?_, fun j => ?_,
    fun j o' hj => ?_, h.times, fun hhalf => ?_⟩
  · have hold : s.heap.outcome p = some o' := by
      rw [← hsame]
      exact hp
    have hgrows : s.Grows ({ s with heap }.handle (.after i) o) := by
      refine ⟨fun _ _ h => h, fun q o'' hq => ?_, rfl, le_rfl⟩
      change heap.outcome q = some o''
      rw [hsame]
      exact hq
    exact hgrows.settles (h.settles p o' hold)
  · change s.timers j = if (heap.outcome (.outer j)).isSome then none else _
    rw [hsame]
    exact h.timers j
  · change heap.pending.count _ + (if (update s.results i (some o) j).isSome then 1 else 0) = _
    by_cases heq : j = i
    · rw [heq, hzero, update_self]
      exact (if_pos hi).symm
    · have hleft : heap.pending.count (.react (.handler (.after j))) =
          s.left (.react (.handler (.after j))) := by
        rw [left, (Heap.pending_take ht).count_eq, List.count_cons_of_ne]
        intro hsame
        cases hsame
        exact heq rfl
      rw [hleft, update_of_ne heq]
      exact h.afters j
  · change heap.outcome (.outer j) = some o'
    rw [hsame]
    by_cases heq : j = i
    · have hj' : update s.results i (some o) j = some o' := hj
      rw [heq, update_self] at hj'
      rw [heq, ← hj']
      exact ho
    · have hj' : update s.results i (some o) j = some o' := hj
      rw [update_of_ne heq] at hj'
      exact h.results j o' hj'
  · exact absurd hhalf (counted_not_halfOpen _ _ o)

end Turns

section Calls

variable {s s' : TimedBreaker α ε}

/-- The number of the next call is fresh. -/
theorem Inv.fresh (h : s.Inv) {p : BreakerPromise}
    (hp : ∀ o, s.Settles p o → False) : s.heap.outcome p = none := by
  cases ho : s.heap.outcome p with
  | none => rfl
  | some o => exact (hp o (h.settles p o ho)).elim

theorem mem_unsettled {i : ℕ} :
    i ∈ s.unsettled ↔ i < s.admitted.length ∧ s.results i = none := by
  rw [unsettled, List.mem_filter, List.mem_range, Option.isNone_iff_eq_none]

theorem Inv.results_none (h : s.Inv) {i : ℕ} (hi : s.admitted.length ≤ i) :
    s.results i = none := by
  cases hr : s.results i with
  | none => rfl
  | some o =>
    obtain ⟨t, ht, _⟩ := h.settles _ _ (h.results i o hr)
    exact absurd (List.getElem?_eq_some_iff.mp ht).1 (not_lt.mpr hi)

theorem Inv.unsettled_admit (h : s.Inv) (b : CircuitBreaker) :
    ({ s with breaker := b, admitted := s.admitted ++ [s.now] }.withTimeout
      s.admitted.length).unsettled = s.unsettled ++ [s.admitted.length] := by
  change (List.range (s.admitted ++ [s.now]).length).filter (fun i => (s.results i).isNone) = _
  rw [List.length_append, List.length_singleton, List.range_succ, List.filter_append,
    List.filter_singleton, h.results_none le_rfl]
  rfl

theorem outcome_withTimeout (i : ℕ) :
    (s.withTimeout i).heap.outcome = (s.heap.settle (.resolved i) (.ok none)).outcome := by
  simp only [withTimeout, Heap.outcome_register]

theorem left_withTimeout (i j : ℕ) :
    (s.withTimeout i).left (.react (.handler (.after j))) =
      s.left (.react (.handler (.after j))) + if i = j then 1 else 0 := by
  simp only [withTimeout, left, left_register, (s.heap.pending_settle _ _).count_eq,
    Pending.react.injEq, Reaction.handler.injEq, BreakerHandler.after.injEq, reduceCtorEq,
    if_false, add_zero]

theorem sound_withTimeout (h : s.heap.Sound Awaits Adopts) (i : ℕ) :
    (s.withTimeout i).heap.Sound Awaits Adopts := by
  have hrun : Awaits (.resolved i) (.handler (.run i)) := rfl
  have hfulfilled : Awaits (.result i) (.handler (.fulfilled i)) := rfl
  have hcaught : Awaits (.handled i) (.handler (.caught i)) := rfl
  have hafter : Awaits (.outer i) (.handler (.after i)) := rfl
  exact ((((h.settle _ _).register hrun).register hfulfilled).register hcaught).register hafter

theorem Inv.admit (h : s.Inv) (b : CircuitBreaker) :
    ({ s with breaker := b, admitted := s.admitted ++ [s.now] }.withTimeout
      s.admitted.length).Inv := by
  have hfresh : s.heap.outcome (.resolved s.admitted.length) = none :=
    h.fresh fun o ho => (lt_irrefl _ ho.2).elim
  have hopen : s.heap.outcome (.outer s.admitted.length) = none := by
    apply h.fresh
    intro o ho
    obtain ⟨t, ht, _⟩ := ho
    exact (lt_irrefl _ (List.getElem?_eq_some_iff.mp ht).1).elim
  have hunsettled := h.unsettled_admit b
  generalize hs' : ({ s with breaker := b, admitted := s.admitted ++ [s.now] }.withTimeout
    s.admitted.length) = s' at hunsettled
  have hadmitted : s'.admitted = s.admitted ++ [s.now] := by
    rw [← hs']
    rfl
  have houtcome : s'.heap.outcome =
      update s.heap.outcome (.resolved s.admitted.length) (some (.ok none)) := by
    rw [← hs', outcome_withTimeout]
    exact Heap.outcome_settle hfresh _
  have hlength : s'.admitted.length = s.admitted.length + 1 := by
    rw [hadmitted, List.length_append, List.length_singleton]
  have hgrows : s.Grows s' := by
    refine ⟨fun i t ht => ?_, fun p o hp => ?_, ?_, ?_⟩
    · rw [hadmitted]
      exact List.getElem?_append_left (List.getElem?_eq_some_iff.mp ht).1 ▸ ht
    · rw [houtcome, update_of_ne]
      · exact hp
      · rintro rfl
        rw [hfresh] at hp
        cases hp
    · rw [← hs']
      rfl
    · rw [← hs']
      exact le_rfl
  have houter (i : ℕ) : s'.heap.outcome (.outer i) = s.heap.outcome (.outer i) := by
    rw [houtcome, update_of_ne (by simp)]
  refine ⟨?_, fun p o hp => ?_, fun i hi => ?_, fun i => ?_, fun i => ?_, fun i o hi => ?_,
    fun i t ht => ?_, fun _ => ?_⟩
  · rw [← hs']
    exact sound_withTimeout h.sound _
  · by_cases heq : p = .resolved s.admitted.length
    · rw [houtcome, heq, update_self] at hp
      cases hp
      rw [heq]
      refine ⟨rfl, ?_⟩
      omega
    · rw [houtcome, update_of_ne heq] at hp
      exact hgrows.settles (h.settles p o hp)
  · have hi' : i ∈ s.dispatched := by
      rw [← hs'] at hi
      exact hi
    exact hgrows.lt (h.dispatched i hi')
  · have htimers : s'.timers = update s.timers s.admitted.length (some (s.now + s.timeout)) := by
      rw [← hs']
      rfl
    rw [htimers, houter, hadmitted, hgrows.timeout]
    by_cases heq : i = s.admitted.length
    · rw [heq, update_self, hopen, List.getElem?_concat_length]
      rfl
    · rw [update_of_ne heq, h.timers i]
      by_cases hlt : i < s.admitted.length
      · rw [List.getElem?_append_left hlt]
      · rw [List.getElem?_eq_none (by omega), List.getElem?_eq_none]
        rw [List.length_append, List.length_singleton]
        omega
  · have hleft : s'.left (.react (.handler (.after i))) =
        s.left (.react (.handler (.after i))) + if s.admitted.length = i then 1 else 0 := by
      rw [← hs']
      exact left_withTimeout _ i
    have hresults : s'.results = s.results := by
      rw [← hs']
      rfl
    have hafters := h.afters i
    rw [hleft, hlength, hresults]
    by_cases heq : s.admitted.length = i
    · have hlt : ¬ i < s.admitted.length := by omega
      have hsucc : i < s.admitted.length + 1 := by omega
      rw [if_neg hlt] at hafters
      rw [if_pos heq, if_pos hsucc]
      omega
    · rw [if_neg heq, add_zero, hafters]
      by_cases hlt : i < s.admitted.length
      · have hsucc : i < s.admitted.length + 1 := by omega
        rw [if_pos hlt, if_pos hsucc]
      · have hsucc : ¬ i < s.admitted.length + 1 := by omega
        rw [if_neg hlt, if_neg hsucc]
  · have hi' : s.results i = some o := by
      rw [← hs'] at hi
      exact hi
    rw [houter]
    exact h.results i o hi'
  · have hnow : s'.now = s.now := by
      rw [← hs']
      rfl
    rw [hadmitted] at ht
    rw [hnow]
    rcases List.mem_append.mp (List.mem_of_getElem? ht) with hold | hnew
    · obtain ⟨j, hj⟩ := List.mem_iff_getElem?.mp hold
      exact h.times j t hj
    · exact (List.mem_singleton.mp hnew).le
  · rw [hunsettled]
    simp

end Calls

end TimedBreaker

end TimeOff
