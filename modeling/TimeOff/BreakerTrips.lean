import TimeOff.HcmResilience

/-! When the breaker of the HCM client opens: exactly where the log of the dispatched calls
shows the threshold's number of failures in a row, of whatever kind they are. -/
namespace TimeOff

open Async

/-- How many dispatched calls failed since the last one that did not. -/
def streak (log : List (Option ℕ)) : ℕ := (log.takeWhile fun e => !resolves e).length

theorem streak_cons_of_resolves {e : Option ℕ} (h : resolves e = true) (log : List (Option ℕ)) :
    streak (e :: log) = 0 := by
  simp [streak, h]

theorem streak_cons_of_fails {e : Option ℕ} (h : resolves e = false) (log : List (Option ℕ)) :
    streak (e :: log) = streak log + 1 := by
  simp [streak, h]

theorem Ending.result_cases {δ : Type} (e : Ending δ) :
    (resolves e.status = true ∧ ∃ data, e.result = .ok data) ∨
      (resolves e.status = false ∧ ∃ err, e.result = .error err) := by
  cases e with
  | reply status data =>
    by_cases h : resolves (some status) = true
    · exact .inl ⟨h, data, if_pos h⟩
    · have hfalse : resolves (some status) = false := Bool.eq_false_iff.mpr h
      exact .inr ⟨hfalse, .hcm (.response status), if_neg h⟩
  | noResponse => exact .inr ⟨rfl, .hcm .noResponse, rfl⟩

/-- A closed breaker counts the failures in a row, fewer than it takes to open it; another one
has seen enough of them. It opened where the log shows exactly enough. -/
structure Counted (N : ℕ) (s : ClientState) : Prop where
  threshold : s.breaker.options.failureThreshold = N
  closed : s.breaker.state = .closed →
    s.breaker.failureCount = streak s.log ∧ streak s.log < max N 1
  notClosed : s.breaker.state ≠ .closed → max N 1 ≤ streak s.log
  trips : ∀ l, l ∈ s.trips ↔ l <:+ s.log ∧ streak l = max N 1

theorem counted_init (options : CircuitOptions) (now : ℚ) :
    Counted options.failureThreshold (ClientState.init options now) where
  threshold := rfl
  closed := fun _ => ⟨rfl, lt_max_of_lt_right Nat.zero_lt_one⟩
  notClosed := fun h => absurd rfl h
  trips := by
    intro l
    have hpos : 0 < max options.failureThreshold 1 := lt_max_of_lt_right Nat.zero_lt_one
    constructor
    · intro h
      cases h
    · intro h
      obtain ⟨hsuf, hs⟩ := h
      rw [List.suffix_nil.mp hsuf] at hs
      exact absurd hs hpos.ne

section Settlement

variable {N : ℕ} {s s' : ClientState} {e : Option ℕ}

/-- A call that ended with `e` settles: the counts of the new breaker fit the new log, and it
opened if that log just became long enough. -/
theorem counted_settle (h : Counted N s) (hlog : s'.log = e :: s.log)
    (htrips : s'.trips = if s.breaker.state = .closed ∧ s'.breaker.state = .opened then
      (e :: s.log) :: s.trips else s.trips)
    (hoptions : s'.breaker.options = s.breaker.options)
    (hclosed : s'.breaker.state = .closed →
      s'.breaker.failureCount = streak (e :: s.log) ∧ streak (e :: s.log) < max N 1)
    (hnot : s'.breaker.state ≠ .closed → max N 1 ≤ streak (e :: s.log))
    (htrip : (s.breaker.state = .closed ∧ s'.breaker.state = .opened) ↔
      streak (e :: s.log) = max N 1) : Counted N s' := by
  refine ⟨?_, ?_, ?_, ?_⟩
  · rw [hoptions]
    exact h.threshold
  · rw [hlog]
    exact hclosed
  · rw [hlog]
    exact hnot
  · intro l
    rw [hlog, htrips, List.suffix_cons_iff]
    -- the log is longer by one; it is a trip log itself exactly when the breaker tripped
    by_cases hs : s.breaker.state = .closed ∧ s'.breaker.state = .opened
    · have hlen : streak (e :: s.log) = max N 1 := htrip.mp hs
      rw [if_pos hs, List.mem_cons, h.trips]
      constructor
      · intro hl
        rcases hl with rfl | ⟨hsuf, hstreak⟩
        · exact ⟨.inl rfl, hlen⟩
        · exact ⟨.inr hsuf, hstreak⟩
      · intro hl
        obtain ⟨rfl | hsuf, hstreak⟩ := hl
        · exact .inl rfl
        · exact .inr ⟨hsuf, hstreak⟩
    · have hlen : streak (e :: s.log) ≠ max N 1 := fun heq => hs (htrip.mpr heq)
      rw [if_neg hs, h.trips]
      constructor
      · intro hl
        exact ⟨.inr hl.1, hl.2⟩
      · intro hl
        obtain ⟨rfl | hsuf, hstreak⟩ := hl
        · exact absurd hstreak hlen
        · exact ⟨hsuf, hstreak⟩

/-- A call that resolved ends the streak. -/
theorem counted_onSuccess (h : Counted N s) (hopen : s.breaker.state ≠ .opened)
    (he : resolves e = true) (now : ℚ) :
    Counted N { { s with log := e :: s.log }.move s.breaker.onSuccess with now := now } := by
  have hpos : 0 < max N 1 := lt_max_of_lt_right Nat.zero_lt_one
  have hstreak : streak (e :: s.log) = 0 := streak_cons_of_resolves he s.log
  -- a success closes the breaker from both states that admit a call
  have hclosed : s.breaker.onSuccess.state = .closed := by
    rw [CircuitBreaker.onSuccess_state]
    split
    · rfl
    · next hh =>
      cases hs : s.breaker.state with
      | closed => rfl
      | opened => exact absurd hs hopen
      | halfOpen => exact absurd hs hh
  apply counted_settle h rfl rfl s.breaker.onSuccess_options
  · intro _
    change s.breaker.onSuccess.failureCount = _ ∧ _
    rw [CircuitBreaker.onSuccess_failureCount, hstreak]
    exact ⟨rfl, hpos⟩
  · intro hne
    exact absurd hclosed hne
  -- no success trips the breaker
  · change _ ∧ s.breaker.onSuccess.state = .opened ↔ _
    rw [hclosed, hstreak]
    constructor
    · intro hl
      cases hl.2
    · intro hl
      exact absurd hl hpos.ne

/-- A failure opens a breaker that is not open exactly where it makes the streak long
enough. -/
theorem onFailure_opened_iff (h : Counted N s) (hopen : s.breaker.state ≠ .opened) (t : ℚ) :
    (s.breaker.onFailure t).state = .opened ↔ max N 1 ≤ streak s.log + 1 := by
  have hstate := s.breaker.onFailure_state t
  rw [hstate]
  -- closed it counts up to the threshold; half-open one failure is enough
  cases hs : s.breaker.state with
  | closed =>
    obtain ⟨hcount, hlt⟩ := h.closed hs
    rw [h.threshold, hcount]
    by_cases hN : N ≤ streak s.log + 1
    · simp [hN]
    · simp [hN]
  | opened => exact absurd hs hopen
  | halfOpen =>
    have hne : s.breaker.state ≠ .closed := by
      rw [hs]
      decide
    have hge := h.notClosed hne
    simp only [true_or, if_true, true_iff]
    omega

/-- A call that failed continues the streak, and opens a closed breaker where that makes it
long enough. -/
theorem counted_onFailure (h : Counted N s) (hopen : s.breaker.state ≠ .opened)
    (he : resolves e = false) (t now : ℚ) :
    Counted N { { s with log := e :: s.log }.move (s.breaker.onFailure t) with now := now } := by
  have hstreak : streak (e :: s.log) = streak s.log + 1 := streak_cons_of_fails he s.log
  have hopens := onFailure_opened_iff h hopen t
  have hstate := s.breaker.onFailure_state t
  apply counted_settle h rfl rfl (s.breaker.onFailure_options t)
  -- still closed: the threshold is not reached
  · intro hc
    change (s.breaker.onFailure t).state = .closed at hc
    have hbefore : s.breaker.state = .closed := by
      rw [hstate] at hc
      split at hc
      · cases hc
      · exact hc
    have hlt : ¬ max N 1 ≤ streak s.log + 1 := by
      intro hle
      rw [hopens.mpr hle] at hc
      cases hc
    change (s.breaker.onFailure t).failureCount = _ ∧ _
    rw [CircuitBreaker.onFailure_failureCount, (h.closed hbefore).1, hstreak]
    exact ⟨rfl, not_le.mp hlt⟩
  -- open: the streak is at least the threshold, by this failure or before
  · intro hne
    rw [hstreak]
    by_cases hs : s.breaker.state = .closed
    · apply hopens.mp
      by_contra hnot
      apply hne
      change (s.breaker.onFailure t).state = .closed
      rw [hstate] at hnot ⊢
      split at hnot
      · exact absurd rfl hnot
      · next hif =>
        rw [if_neg hif]
        exact hs
    · exact (h.notClosed hs).trans (Nat.le_succ _)
  -- a trip is the failure at which the streak comes to the threshold
  · change s.breaker.state = .closed ∧ (s.breaker.onFailure t).state = .opened ↔ _
    rw [hopens, hstreak]
    constructor
    · intro hl
      have hlt := (h.closed hl.1).2
      omega
    · intro heq
      refine ⟨?_, heq.ge⟩
      by_contra hne
      -- half-open the streak was at the threshold already
      have hge := h.notClosed hne
      omega

end Settlement

section Programs

variable {δ β : Type} {N : ℕ} {s : ClientState}

/-- Run alone from `s`, the program ends with `Q`. -/
def Ends (Q : Except Err β → ClientState → Prop) (p : Client δ β) (s : ClientState) : Prop :=
  p.Holds (fun o s r s' => ∃ m : Moment δ, ClientState.exec o m s = some (r, s')) Eq
    (fun _ _ => True) Q s

/-- The program counts: its calls leave the breaker and the log in step. -/
def Counts (N : ℕ) (p : Client δ β) : Prop :=
  ∀ s, Counted N s → Ends (fun _ t => Counted N t) p s

theorem ends_perform {o : ClientOp} {Q : Except Err (o.Resp δ) → ClientState → Prop}
    (h : ∀ (m : Moment δ) r t, ClientState.exec o m s = some (r, t) → Q r t) :
    Ends Q (Prog.perform o) s := by
  apply Prog.Holds.perform
  intro s₁ hs r t ht
  obtain rfl : s = s₁ := hs
  obtain ⟨m, hm⟩ := ht
  exact ⟨trivial, h m r t hm⟩

theorem exec_admission {m : Moment δ} {r : Except Err Unit} {t : ClientState}
    (h : ClientState.exec .admission m s = some (r, t)) :
    (∃ e, r = .error e ∧ t = { s with now := m.now }) ∨
      ∃ b, s.breaker.admission m.now = .ok b ∧ t = { s with now := m.now, breaker := b } := by
  obtain ⟨_, h⟩ := Option.ite_none_right_eq_some.mp h
  cases hb : s.breaker.admission m.now with
  | error e =>
    rw [hb] at h
    cases h
    exact .inl ⟨_, rfl, rfl⟩
  | ok b =>
    rw [hb] at h
    cases h
    exact .inr ⟨b, rfl, rfl⟩

/-- An admitted call finds the breaker closed or half-open. -/
theorem counted_admitted {b : CircuitBreaker} {now : ℚ} (h : Counted N s)
    (hb : s.breaker.admission now = .ok b) :
    Counted N { s with now := now, breaker := b } ∧ b.state ≠ .opened := by
  rcases CircuitBreaker.admission_cases hb with ⟨ho, _, rfl⟩ | ⟨hne, rfl⟩
  · have hnot : s.breaker.state ≠ .closed := by
      rw [ho]
      decide
    have hhalf : CircuitState.halfOpen ≠ .opened := by decide
    refine ⟨⟨h.threshold, ?_, fun _ => h.notClosed hnot, h.trips⟩, hhalf⟩
    intro hc
    cases hc
  · exact ⟨⟨h.threshold, h.closed, h.notClosed, h.trips⟩, hne⟩

theorem counts_circuitCall (config : HcmCall) :
    Counts N (HcmClient.circuitCall (HcmClient.dispatch config : Client δ δ)) := by
  intro s hs
  refine Prog.Holds.bind (ends_perform ?_)
  intro m r t ht
  rcases exec_admission ht with ⟨e, rfl, rfl⟩ | ⟨b, hb, rfl⟩
  · exact ⟨hs.threshold, hs.closed, hs.notClosed, hs.trips⟩
  obtain ⟨hcount, hopen⟩ := counted_admitted hs hb
  cases r with
  | error e => exact hcount
  | ok _ =>
    -- the dispatched call ends, and its result decides how the breaker is told
    refine Prog.Holds.bind (Prog.Holds.attempt (ends_perform ?_))
    intro m' r' t' ht'
    obtain ⟨_, ht'⟩ := Option.ite_none_right_eq_some.mp ht'
    cases ht'
    rcases m'.ending.result_cases with ⟨hres, data, hdata⟩ | ⟨hfail, err, herr⟩
    · rw [hdata]
      refine Prog.Holds.bind (ends_perform ?_)
      intro m'' r'' t'' ht''
      obtain ⟨_, ht''⟩ := Option.ite_none_right_eq_some.mp ht''
      cases ht''
      exact counted_onSuccess hcount hopen hres m''.now
    · rw [herr]
      refine Prog.Holds.bind (ends_perform ?_)
      intro m'' r'' t'' ht''
      obtain ⟨_, ht''⟩ := Option.ite_none_right_eq_some.mp ht''
      cases ht''
      exact counted_onFailure hcount hopen hfail m''.now m''.now

theorem counts_sleep (ms : ℕ) : Counts N (Prog.perform (ClientOp.sleep ms) : Client δ Unit) := by
  intro s hs
  apply ends_perform
  intro m r t ht
  obtain ⟨_, ht⟩ := Option.ite_none_right_eq_some.mp ht
  cases ht
  exact ⟨hs.threshold, hs.closed, hs.notClosed, hs.trips⟩

theorem Counts.bind {γ : Type} {p : Client δ β} {f : β → Client δ γ} (hp : Counts N p)
    (hf : ∀ b, Counts N (f b)) : Counts N (p.bind f) := by
  intro s hs
  apply Prog.Holds.bind
  refine Prog.Holds.mono ?_ (hp s hs)
  intro r t ht
  cases r with
  | ok b => exact hf b t ht
  | error e => exact ht

theorem Counts.handle {p : Client δ β} {c : Err → Client δ β} (hp : Counts N p)
    (hc : ∀ e, Counts N (c e)) : Counts N (p.handle c) := by
  intro s hs
  apply Prog.Holds.handle
  refine Prog.Holds.mono ?_ (hp s hs)
  intro r t ht
  cases r with
  | ok b => exact ht
  | error e => exact hc e t ht

theorem counts_throw (e : Err) : Counts N (Prog.throw e : Client δ β) := fun _ hs => hs

theorem counts_ret (b : β) : Counts N (Prog.ret b : Client δ β) := fun _ hs => hs

theorem counts_retryFrom (cfg : Config) {fn : Client δ β} (hfn : Counts N fn) (left : ℕ) :
    ∀ attempt, Counts N (HcmClient.retryFrom cfg fn attempt left) := by
  induction left with
  | zero =>
    intro attempt
    exact counts_throw _
  | succ left ih =>
    intro attempt
    apply Counts.handle hfn
    intro e
    split
    · exact counts_throw e
    · exact (counts_sleep _).bind fun _ => ih (attempt + 1)

theorem counts_operation (cfg : Config) (config : HcmCall) :
    Counts N (HcmClient.operation cfg config : Client δ (Option δ)) := by
  have hretry : Counts N (HcmClient.withRetry cfg
      (HcmClient.circuitCall (HcmClient.dispatch config : Client δ δ))) :=
    counts_retryFrom cfg (counts_circuitCall config) _ 1
  refine (hretry.bind fun response => counts_ret _).handle ?_
  intro e
  split
  · exact counts_throw _
  · exact counts_ret _

theorem counts_sequentially (cfg : Config) (cs : List HcmCall) :
    Counts N (HcmClient.sequentially cfg cs : Client δ Unit) := by
  induction cs with
  | nil => exact counts_ret ()
  | cons c cs ih =>
    have hc : Counts N (HcmClient.perform cfg c : Client δ (Option δ)) := by
      cases c <;> exact counts_operation cfg _
    intro s hs
    refine Prog.Holds.bind (Prog.Holds.attempt (Prog.Holds.mono ?_ (hc s hs)))
    intro r t ht
    exact ih t ht

end Programs

/-- The last `N` dispatched calls all ended in a 5xx reply, a timeout or a network error, and
the last one not in a client-error reply. -/
def ByUpstreamFaults (N : ℕ) (log : List (Option ℕ)) : Prop :=
  N ≤ log.length ∧ (∀ e ∈ log.take N, upstreamFault e = true) ∧
    ∀ e, log.head? = some e → clientError e = false

/-- The failures that make a streak just long enough are upstream faults; a threshold of 0
acts as 1, and asks nothing but that the failure is no client error. -/
def FaultStreaks (N : ℕ) (log : List (Option ℕ)) : Prop :=
  ∀ l, l <:+ log → streak l = max N 1 →
    (∀ e ∈ l.take N, upstreamFault e = true) ∧
      (N = 0 → ∀ e, l.head? = some e → clientError e = false)

theorem clientError_of_upstreamFault {e : Option ℕ} (h : upstreamFault e = true) :
    clientError e = false := by
  cases e with
  | none => rfl
  | some status =>
    have hs : 500 ≤ status ∧ status < 600 := of_decide_eq_true h
    apply decide_eq_false
    omega

theorem streak_le_length (log : List (Option ℕ)) : streak log ≤ log.length :=
  (List.takeWhile_sublist _).length_le

theorem byUpstreamFaults_iff {N : ℕ} {l : List (Option ℕ)} (h : streak l = max N 1) :
    ByUpstreamFaults N l ↔
      (∀ e ∈ l.take N, upstreamFault e = true) ∧
        (N = 0 → ∀ e, l.head? = some e → clientError e = false) := by
  -- the streak is part of the log
  have hlen : N ≤ l.length := by
    have hle := streak_le_length l
    omega
  constructor
  · intro hby
    exact ⟨hby.2.1, fun _ => hby.2.2⟩
  · intro hcond
    refine ⟨hlen, hcond.1, ?_⟩
    intro e he
    rcases Nat.eq_zero_or_pos N with h0 | hpos
    · exact hcond.2 h0 e he
    · -- with a positive threshold the last call is among those that must be faults
      apply clientError_of_upstreamFault
      apply hcond.1
      cases l with
      | nil => cases he
      | cons x l =>
        obtain rfl : x = e := Option.some.inj he
        obtain ⟨n, rfl⟩ := Nat.exists_eq_succ_of_ne_zero hpos.ne'
        exact List.mem_cons_self

/-- The breaker opens for upstream faults alone exactly when each streak of failures that
grows to the threshold is made of them. -/
theorem trips_by_faults_iff {δ : Type} (cfg : Config) (options : CircuitOptions) (start : ℚ)
    (calls : List HcmCall) (ms : List (Moment δ)) (r : Except Err Unit) (s : ClientState)
    (h : (HcmClient.sequentially cfg calls).play ClientState.exec ms
      (ClientState.init options start) = some (r, s)) :
    (∀ l ∈ s.trips, ByUpstreamFaults options.failureThreshold l) ↔
      FaultStreaks options.failureThreshold s.log := by
  have hcount : Counted options.failureThreshold s :=
    Prog.Holds.play (fun _ => rfl) (fun o m s r s' hm => ⟨m, hm⟩)
      (counts_sequentially cfg calls _ (counted_init options start)) h
  constructor
  · intro hby l hsuf hstreak
    exact (byUpstreamFaults_iff hstreak).mp (hby l ((hcount.trips l).mpr ⟨hsuf, hstreak⟩))
  · intro hfault l hl
    obtain ⟨hsuf, hstreak⟩ := (hcount.trips l).mp hl
    exact (byUpstreamFaults_iff hstreak).mpr (hfault l hsuf hstreak)

/-- Approvals in a row that take `steps` operations, all of whose calls end in the same
way. -/
def approvals (n steps : ℕ) (e : Ending Unit) : Option (Except Err Unit × ClientState) :=
  (HcmClient.sequentially plainConfig
      (List.replicate n (.notifyApproval plainKey 3 7))).play ClientState.exec
    (List.replicate steps ⟨0, e⟩) (ClientState.init ⟨"HCM", 5, 30000⟩ 0)

/-- Two approvals that time out open the breaker at the second attempt of the second one. -/
theorem timeouts_trip :
    ∃ r s, approvals 2 20 .noResponse = some (r, s) ∧ s.trips.length = 1 ∧
      ∀ l ∈ s.trips, ByUpstreamFaults 5 l := by
  have hends : (approvals 2 20 .noResponse).map (fun p => (p.2.trips.length, p.2.log)) =
      some (1, List.replicate 5 none) := by decide +kernel
  obtain ⟨⟨r, s⟩, hrun, hs⟩ := Option.map_eq_some_iff.mp hends
  have hlog : s.log = List.replicate 5 none := congrArg Prod.snd hs
  refine ⟨r, s, hrun, congrArg Prod.fst hs, ?_⟩
  apply (trips_by_faults_iff plainConfig ⟨"HCM", 5, 30000⟩ 0 _ _ r s hrun).mpr
  intro l hsuf _
  refine ⟨?_, fun h => absurd h (by decide)⟩
  intro e he
  have hmem : e ∈ s.log := hsuf.subset (List.mem_of_mem_take he)
  rw [hlog] at hmem
  rw [List.eq_of_mem_replicate hmem]
  rfl

/-- Five replies 422 open the breaker. -/
theorem client_errors_trip :
    ∃ r s, approvals 5 15 (.reply 422 ()) = some (r, s) ∧
      ¬ ∀ l ∈ s.trips, ByUpstreamFaults 5 l := by
  have hends : (approvals 5 15 (.reply 422 ())).map (fun p => p.2.trips) =
      some [List.replicate 5 (some 422)] := by decide +kernel
  obtain ⟨⟨r, s⟩, hrun, htrips⟩ := Option.map_eq_some_iff.mp hends
  refine ⟨r, s, hrun, ?_⟩
  intro h
  rw [htrips] at h
  have hlast := (h _ List.mem_cons_self).2.2 (some 422) rfl
  exact absurd hlast (by decide)

end TimeOff
