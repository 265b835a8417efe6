import TimeOff.CreateTurns
import Mathlib.Algebra.GroupWithZero.Nat
import Mathlib.Data.List.Infix
import Mathlib.Data.List.Range

/-! `_withCreateLock` is a fair mutex: one body of a key runs at a time, in the order of the
calls; nothing but the bodies before it holds a call up; and the map keeps nothing. -/
namespace TimeOff

open Promises Function

namespace PromiseLocks

variable {α ε : Type} {s s' : PromiseLocks α ε}

section Exclusion

/-- The key of a call. -/
def keyOf (s : PromiseLocks α ε) (i : ℕ) : Option String := (s.calls[i]?).map LockCall.lockKey

theorem holds_of_started {i : ℕ} {lockKey : String} (hkey : s.keyOf i = some lockKey)
    (hi : i ∈ s.started) (hgate : s.heap.outcome (.gate i) = none) :
    s.toCreateLocks.Holds i lockKey := by
  refine ⟨hkey, decide_eq_true hi, ?_⟩
  unfold toCreateLocks
  dsimp only
  rw [hgate]
  rfl

/-- One body of a key runs at a time. -/
theorem Inv.running_unique (h : s.Inv) {i j : ℕ} {lockKey : String}
    (hi : s.Running i lockKey) (hj : s.Running j lockKey) : i = j := by
  have hholds := holds_of_started hi.1 hi.2.1 (h.closed hi.2.2)
  have hholds' := holds_of_started hj.1 hj.2.1 (h.closed hj.2.2)
  exact h.locks.exclusive hholds hholds'

end Exclusion

section Order

/-- A call awaits only earlier ones. -/
theorem Inv.behind_le (h : s.Inv) {i j : ℕ} (hij : s.toCreateLocks.Behind i j) : j ≤ i := by
  induction hij with
  | refl => exact Nat.le_refl _
  | @tail j k _ hstep ih =>
    obtain ⟨c, hc, hnext⟩ := Option.bind_eq_some_iff.mp hstep
    rcases h.follows j c hc with ⟨hp, _⟩ | ⟨t, _, hp, hlt, _⟩
    · rw [hp] at hnext
      cases hnext
    · rw [hp] at hnext
      have htk : t = k := Option.some.inj hnext
      omega

/-- The calls before one that has entered have started. -/
theorem Inv.started_of_lt (h : s.Inv) {i j : ℕ} {lockKey : String} (hj : s.keyOf j = some lockKey)
    (hholds : s.toCreateLocks.Holds i lockKey) (hlt : j < i) : j ∈ s.started := by
  cases hgate : s.heap.outcome (.gate j) with
  | some o => exact (h.settles _ o hgate).2.1
  | none =>
    have hrel : s.toCreateLocks.released j = false := by
      unfold toCreateLocks
      dsimp only
      rw [hgate]
      rfl
    obtain ⟨t, ht, hti⟩ := h.locks.unreleased i lockKey hholds.lane_eq hholds.unreleased
    obtain ⟨t', ht', htj⟩ := h.locks.unreleased j lockKey hj hrel
    obtain rfl : t = t' := Option.some.inj (ht.symm.trans ht')
    have huniq : Relator.RightUnique fun a b => s.toCreateLocks.previous a = some b := by
      intro a b c hab hac
      exact Option.some.inj (hab.symm.trans hac)
    -- both are on the chain from the tail, so one of them is behind the other
    rcases Relation.ReflTransGen.total_of_right_unique huniq hti htj with hij | hji
    · have heq := h.locks.behind_eq hij (h.locks.entered_ready i hholds.entered) hrel
      omega
    · have hle := h.behind_le hji
      omega

/-- The next element of a sorted list goes to the end of a prefix. -/
theorem prefix_concat {l pre : List ℕ} (hpre : pre <+: l) (hsorted : l.Pairwise (· < ·)) {i : ℕ}
    (hi : i ∈ l) (hnew : i ∉ pre) (hbefore : ∀ j ∈ l, j < i → j ∈ pre) : pre ++ [i] <+: l := by
  obtain ⟨rest, rfl⟩ := hpre
  have hrest : i ∈ rest := (List.mem_append.mp hi).resolve_left hnew
  obtain ⟨_, hsortedRest, hcross⟩ := List.pairwise_append.mp hsorted
  cases rest with
  | nil => cases hrest
  | cons k rest =>
    have hki : k = i := by
      rcases List.mem_cons.mp hrest with heq | hmem
      · exact heq.symm
      · have hlt : k < i := (List.pairwise_cons.mp hsortedRest).1 i hmem
        have hk := hbefore k (by simp) hlt
        exact absurd (hcross k hk k List.mem_cons_self) (Nat.lt_irrefl _)
    exact ⟨rest, by rw [hki, List.append_assoc, List.singleton_append]⟩

/-- The calls with a key, in their order. -/
def callsOf (s : PromiseLocks α ε) (lockKey : String) : List ℕ :=
  (List.range s.calls.length).filter fun i => decide (s.keyOf i = some lockKey)

/-- The calls with a key whose bodies have started, in the order of the starts. -/
def startsOf (s : PromiseLocks α ε) (lockKey : String) : List ℕ :=
  s.started.filter fun i => decide (s.keyOf i = some lockKey)

theorem callsOf_sorted (s : PromiseLocks α ε) (lockKey : String) :
    (s.callsOf lockKey).Pairwise (· < ·) :=
  List.pairwise_lt_range.filter _

theorem mem_callsOf {i : ℕ} {lockKey : String} :
    i ∈ s.callsOf lockKey ↔ s.keyOf i = some lockKey := by
  unfold callsOf
  rw [List.mem_filter, List.mem_range, decide_eq_true_iff]
  constructor
  · intro h
    exact h.2
  · intro h
    refine ⟨?_, h⟩
    obtain ⟨c, hc, _⟩ := Option.map_eq_some_iff.mp h
    exact (List.getElem?_eq_some_iff.mp hc).1

/-- The bodies of every key start in the order of the calls. -/
def Ordered (s : PromiseLocks α ε) : Prop := ∀ lockKey, s.startsOf lockKey <+: s.callsOf lockKey

theorem length_withCreateLock (s : PromiseLocks α ε) (lockKey : String) :
    (s.withCreateLock lockKey).calls.length = s.calls.length + 1 := by
  unfold withCreateLock
  dsimp only
  rw [List.length_append, List.length_singleton]

theorem calls_runJob (j : Job LockPromise LockHandler (Settlement α ε)) :
    (s.runJob j).calls = s.calls := by
  unfold runJob handle PromiseLocks.finish
  split
  · split <;> first | rfl | split <;> rfl
  · rfl
  · rfl

/-- A turn starts no body, or one, and then it settles nothing. -/
theorem started_runJob (j : Job LockPromise LockHandler (Settlement α ε)) :
    (s.runJob j).started = s.started ∨ ∃ i, (s.runJob j).started = s.started ++ [i] ∧
      (s.runJob j).heap.outcome = s.heap.outcome := by
  cases j with
  | adopt p q => exact .inl rfl
  | react r o =>
    cases r with
    | forward p => exact .inl rfl
    | handler k =>
      cases k with
      | chain i =>
        cases o with
        | ok v => exact .inl rfl
        | error e => exact .inl rfl
      | start i =>
        cases o with
        | ok v => exact .inr ⟨i, rfl, Heap.outcome_register _ _⟩
        | error e => exact .inl rfl
      | finish i =>
        left
        change (s.finish i o).started = s.started
        unfold PromiseLocks.finish
        split <;> rfl

theorem Ordered.call (ho : s.Ordered) (h : s.Inv) (lockKey : String) :
    (s.withCreateLock lockKey).Ordered := by
  intro key
  have hkeyOf {i : ℕ} (hlt : i < s.calls.length) :
      (s.withCreateLock lockKey).keyOf i = s.keyOf i := by
    unfold keyOf withCreateLock
    dsimp only
    rw [List.getElem?_append_left hlt]
  have hstarts : (s.withCreateLock lockKey).startsOf key = s.startsOf key := by
    apply List.filter_congr
    intro i hi
    rw [hkeyOf (h.started_lt hi)]
  have hcalls : s.callsOf key <+: (s.withCreateLock lockKey).callsOf key := by
    unfold callsOf
    rw [length_withCreateLock, List.range_succ, List.filter_append]
    have hold : (List.range s.calls.length).filter
        (fun i => decide ((s.withCreateLock lockKey).keyOf i = some key)) =
        (List.range s.calls.length).filter fun i => decide (s.keyOf i = some key) := by
      apply List.filter_congr
      intro i hi
      rw [hkeyOf (List.mem_range.mp hi)]
    rw [hold]
    exact List.prefix_append _ _
  rw [hstarts]
  exact (ho key).trans hcalls

/-- A start is that of the first call with its key that has not started. -/
theorem Ordered.start (ho : s.Ordered) (h : s.Inv) (h' : s'.Inv) {i : ℕ}
    (hcalls : s'.calls = s.calls) (hstarted : s'.started = s.started ++ [i])
    (hout : s'.heap.outcome = s.heap.outcome) : s'.Ordered := by
  intro key
  have hkeyOf : s'.keyOf = s.keyOf := by
    unfold keyOf
    rw [hcalls]
  have hcallsOf : s'.callsOf key = s.callsOf key := by
    unfold callsOf
    rw [hkeyOf, hcalls]
  have hmem : i ∈ s'.started := by
    rw [hstarted]
    exact List.mem_append_right _ List.mem_cons_self
  have hcount := h'.starts i
  rw [if_pos (h'.started_lt hmem), hstarted, List.count_append, List.count_singleton_self]
    at hcount
  have hnew : i ∉ s.started := by
    intro hi
    have hpos := List.count_pos_iff.mpr hi
    omega
  unfold startsOf
  rw [hstarted, List.filter_append, hkeyOf, hcallsOf]
  by_cases hkey : s.keyOf i = some key
  · have hone : [i].filter (fun i => decide (s.keyOf i = some key)) = [i] := by
      simp [hkey]
    rw [hone]
    apply prefix_concat (ho key) (s.callsOf_sorted key) (mem_callsOf.mpr hkey)
    · intro hmem'
      exact hnew (List.mem_filter.mp hmem').1
    · intro j hj hlt
      have hjkey := mem_callsOf.mp hj
      -- the gate is not open: the body has only just started
      have hgate : s'.heap.outcome (.gate i) = none := by
        rw [hout]
        cases hopen : s.heap.outcome (.gate i) with
        | none => rfl
        | some o => exact absurd (h.settles _ o hopen).2.1 hnew
      have hholds : s'.toCreateLocks.Holds i key := by
        apply holds_of_started _ hmem hgate
        rw [hkeyOf]
        exact hkey
      have hstartedj := h'.started_of_lt (hkeyOf ▸ hjkey) hholds hlt
      rw [hstarted] at hstartedj
      apply List.mem_filter.mpr
      refine ⟨?_, decide_eq_true hjkey⟩
      rcases List.mem_append.mp hstartedj with hold | hlast
      · exact hold
      · have heq := List.mem_singleton.mp hlast
        omega
  · have hnone : [i].filter (fun i => decide (s.keyOf i = some key)) = [] := by
      simp [hkey]
    rw [hnone, List.append_nil]
    exact ho key

theorem Ordered.of_eq (ho : s.Ordered) (hcalls : s'.calls = s.calls)
    (hstarted : s'.started = s.started) : s'.Ordered := by
  intro key
  unfold startsOf callsOf keyOf
  rw [hcalls, hstarted]
  exact ho key

theorem Ordered.step (ho : s.Ordered) (h : s.Inv) {e : Event α ε} (he : s.step e = some s') :
    s'.Ordered := by
  have h' := (h.step he).1
  cases e with
  | call lockKey =>
    rw [← Option.some.inj he]
    exact ho.call h lockKey
  | settle i o =>
    obtain ⟨_, hs'⟩ := Option.ite_none_right_eq_some.mp he
    rw [← Option.some.inj hs']
    exact ho.of_eq rfl rfl
  | job n =>
    obtain ⟨⟨j, rest⟩, ht, hs'⟩ := Option.map_eq_some_iff.mp he
    have hcalls : s'.calls = s.calls := by
      rw [← hs']
      exact calls_runJob j
    rcases started_runJob (s := { s with heap := rest }) j with hsame | ⟨i, hmore, hout⟩
    · apply ho.of_eq hcalls
      rw [← hs']
      exact hsame
    · apply ho.start h h' hcalls
      · rw [← hs']
        exact hmore
      · rw [← hs', ← Heap.outcome_take ht]
        exact hout

theorem ordered_of_run {es : List (Event α ε)}
    (hrun : Transitions.run PromiseLocks.step init es = some s) : s.Ordered := by
  have hboth : s.Inv ∧ s.Ordered := by
    apply Transitions.run_inv _ ⟨init_inv, fun _ => List.nil_prefix⟩ hrun
    intro s e s' hs he
    exact ⟨(hs.1.step he).1, hs.2.step hs.1 he⟩
  exact hboth.2

end Order

section Progress

/-- The jobs that something pending still comes to. -/
def weight : Pending LockPromise LockHandler → ℕ
  | .react (.handler (.chain _)) => 3
  | .react (.handler (.start _)) => 2
  | .react (.handler (.finish _)) => 1
  | .adopt _ _ => 2
  | .react (.forward _) => 1

def potential (s : PromiseLocks α ε) : ℕ := (s.heap.pending.map weight).sum

theorem potential_of_perm {heap : Heap LockPromise LockHandler (Settlement α ε)}
    {l : List (Pending LockPromise LockHandler)} (h : heap.pending.Perm l) :
    (heap.pending.map weight).sum = (l.map weight).sum :=
  (h.map weight).sum_eq

/-- A job makes up for the ones that it leads to. -/
theorem potential_runJob (j : Job LockPromise LockHandler (Settlement α ε)) :
    (s.runJob j).potential + 1 ≤ s.potential + weight j.pending := by
  unfold potential
  cases j with
  | adopt p q =>
    change ((s.heap.register q (.forward p)).pending.map weight).sum + 1 ≤ _ + 2
    rw [potential_of_perm (Heap.pending_register _ _), List.map_cons, List.sum_cons]
    change 1 + _ + 1 ≤ _
    omega
  | react r o =>
    cases r with
    | forward p =>
      change ((s.heap.settle p o).pending.map weight).sum + 1 ≤ _ + 1
      rw [potential_of_perm (Heap.pending_settle _ _)]
    | handler k =>
      cases k with
      | chain i =>
        cases o with
        | ok v =>
          change ((s.heap.adopt (.next i) (.gate i)).pending.map weight).sum + 1 ≤ _ + 3
          rw [potential_of_perm (Heap.pending_adopt _ _), List.map_cons, List.sum_cons]
          change 2 + _ + 1 ≤ _
          omega
        | error e =>
          change ((s.heap.settle (.next i) (.error e)).pending.map weight).sum + 1 ≤ _ + 3
          rw [potential_of_perm (Heap.pending_settle _ _)]
          omega
      | start i =>
        cases o with
        | ok v =>
          change ((s.heap.register (.body i) (.handler (.finish i))).pending.map weight).sum + 1 ≤
            _ + 2
          rw [potential_of_perm (Heap.pending_register _ _), List.map_cons, List.sum_cons]
          change 1 + _ + 1 ≤ _
          omega
        | error e =>
          change (s.heap.pending.map weight).sum + 1 ≤ _ + 2
          omega
      | finish i =>
        change ((s.finish i o).heap.pending.map weight).sum + 1 ≤ _ + 1
        unfold PromiseLocks.finish
        split
        · dsimp only
          rw [potential_of_perm (Heap.pending_settle _ _)]
        · exact Nat.le_refl _

theorem potential_withCreateLock (h : s.Inv) (lockKey : String) :
    (s.withCreateLock lockKey).potential = s.potential + 5 := by
  have hfound := (h.found lockKey).pending
  unfold potential withCreateLock
  dsimp only
  rw [potential_of_perm (Heap.pending_register _ _), List.map_cons, List.sum_cons,
    potential_of_perm (Heap.pending_register _ _), List.map_cons, List.sum_cons,
    potential_of_perm hfound]
  change 2 + (3 + _) = _
  omega

def Event.isJob : Event α ε → Bool
  | .job _ => true
  | _ => false

/-- Jobs are paid for by calls, five for each. -/
theorem Inv.jobs_step (h : s.Inv) {e : Event α ε} (he : s.step e = some s') :
    (if e.isJob then 1 else 0) + s'.potential + 5 * s.calls.length ≤
      s.potential + 5 * s'.calls.length := by
  cases e with
  | call lockKey =>
    rw [← Option.some.inj he, potential_withCreateLock h, length_withCreateLock]
    change 0 + _ + _ ≤ _
    omega
  | settle i o =>
    obtain ⟨_, hs'⟩ := Option.ite_none_right_eq_some.mp he
    rw [← Option.some.inj hs']
    have hsame : ((s.heap.settle (.body i) o).pending.map weight).sum = s.potential :=
      potential_of_perm (Heap.pending_settle _ _)
    change 0 + ((s.heap.settle (.body i) o).pending.map weight).sum + _ ≤ _
    dsimp only
    omega
  | job n =>
    obtain ⟨⟨j, rest⟩, ht, hs'⟩ := Option.map_eq_some_iff.mp he
    have hrun := potential_runJob (s := { s with heap := rest }) j
    have htake : s.potential = weight j.pending + (rest.pending.map weight).sum := by
      unfold potential
      rw [potential_of_perm (Heap.pending_take ht), List.map_cons, List.sum_cons]
    rw [← hs', calls_runJob]
    change 1 + _ + _ ≤ _
    change _ + 1 ≤ (rest.pending.map weight).sum + _ at hrun
    dsimp only at hrun ⊢
    omega

theorem jobs_of_run {es : List (Event α ε)} {s₀ : PromiseLocks α ε} (h : s₀.Inv)
    (hrun : Transitions.run PromiseLocks.step s₀ es = some s) :
    es.countP Event.isJob + s.potential + 5 * s₀.calls.length ≤
      s₀.potential + 5 * s.calls.length := by
  induction es generalizing s₀ with
  | nil =>
    rw [← Option.some.inj hrun, List.countP_nil]
    omega
  | cons e es ih =>
    obtain ⟨s₁, he, hrest⟩ := Option.bind_eq_some_iff.mp hrun
    have hstep := h.jobs_step he
    have htail := ih (h.step he).1 hrest
    rw [List.countP_cons]
    omega

/-- Taking the first job again and again empties the queue. -/
theorem Inv.drain (h : s.Inv) : ∃ m s', Transitions.run PromiseLocks.step s
    (List.replicate m (.job 0)) = some s' ∧ s'.heap.queue = [] := by
  -- induction on the jobs that are still to come
  induction hk : s.potential using Nat.strong_induction_on generalizing s with
  | _ k ih =>
    cases hqueue : s.heap.queue with
    | nil => exact ⟨0, s, rfl, hqueue⟩
    | cons j rest =>
      have hstep : s.step (.job 0) = some
          (({ s with heap := { s.heap with queue := rest } } : PromiseLocks α ε).runJob j) := by
        unfold PromiseLocks.step Heap.take
        dsimp only
        rw [hqueue]
        rfl
      have hless := h.jobs_step hstep
      rw [calls_runJob] at hless
      have hlt : (({ s with heap := { s.heap with queue := rest } } :
          PromiseLocks α ε).runJob j).potential < k := by
        change 1 + _ + 5 * s.calls.length ≤ _ + 5 * s.calls.length at hless
        omega
      obtain ⟨m, s', hrun, hempty⟩ := ih _ hlt (h.step hstep).1 rfl
      refine ⟨m + 1, s', ?_, hempty⟩
      rw [List.replicate_succ]
      exact Option.bind_eq_some_iff.mpr ⟨_, hstep, hrun⟩

/-- The call of a promise. -/
def callOf : LockPromise → ℕ
  | .resolved i => i
  | .gate i => i
  | .next i => i
  | .body i => i

/-- The call for which something is pending. -/
def pendingCall : Pending LockPromise LockHandler → ℕ
  | .react (.handler (.chain i)) => i
  | .react (.handler (.start i)) => i
  | .react (.handler (.finish i)) => i
  | .react (.forward p) => callOf p
  | .adopt p _ => callOf p

/-- No job is queued for a call with this key. -/
def Quiet (s : PromiseLocks α ε) (lockKey : String) : Prop :=
  ∀ j ∈ s.heap.queue, s.keyOf (pendingCall j.pending) ≠ some lockKey

variable {lockKey : String} (hquiet : s.Quiet lockKey)

include hquiet in
theorem Quiet.notMem {t : Pending LockPromise LockHandler}
    (hkey : s.keyOf (pendingCall t) = some lockKey) : t ∉ s.heap.queue.map Job.pending := by
  intro hmem
  obtain ⟨j, hj, rfl⟩ := List.mem_map.mp hmem
  exact hquiet j hj hkey

include hquiet in
/-- What is pending for a quiet key waits for an open promise. -/
theorem Inv.waits (h : s.Inv) {r : Reaction LockPromise LockHandler}
    (hkey : s.keyOf (pendingCall (.react r)) = some lockKey) (hr : 0 < s.left (.react r)) :
    ∃ p, s.Awaits p r ∧ s.heap.outcome p = none := by
  have hmem : Pending.react r ∈ s.heap.pending := List.count_pos_iff.mp hr
  have hwaiting := (List.mem_append.mp hmem).resolve_right (hquiet.notMem hkey)
  obtain ⟨⟨p, r'⟩, hwait, heq⟩ := List.mem_map.mp hwaiting
  cases heq
  exact ⟨p, h.sound.waiting p _ hwait⟩

include hquiet in
theorem left_adopt {p : LockPromise} (q : LockPromise)
    (hkey : s.keyOf (callOf p) = some lockKey) : s.left (.adopt p q) = 0 := by
  apply List.count_eq_zero.mpr
  intro hmem
  rcases List.mem_append.mp hmem with hwait | hqueued
  · obtain ⟨w, _, heq⟩ := List.mem_map.mp hwait
    cases heq
  · exact hquiet.notMem (t := .adopt p q) hkey hqueued

include hquiet in
theorem Inv.gate_of_body (h : s.Inv) {i : ℕ} (hkey : s.keyOf i = some lockKey)
    (hi : i ∈ s.started) (hbody : (s.heap.outcome (.body i)).isSome = true) :
    (s.heap.outcome (.gate i)).isSome = true := by
  by_contra hgate
  have hfinishes := h.finishes i
  have hpos := List.count_pos_iff.mpr hi
  unfold settledCount at hfinishes
  rw [if_neg hgate] at hfinishes
  obtain ⟨p, ⟨rfl, _⟩, hopen⟩ := h.waits hquiet (r := .handler (.finish i)) hkey (by omega)
  rw [hopen] at hbody
  cases hbody

include hquiet in
theorem Inv.next_of_gate (h : s.Inv) {i : ℕ} {c : LockCall} (hc : s.calls[i]? = some c)
    (hkey : s.keyOf i = some lockKey)
    (hprevious : (s.heap.outcome c.previous).isSome = true)
    (hgate : (s.heap.outcome (.gate i)).isSome = true) :
    (s.heap.outcome (.next i)).isSome = true := by
  by_contra hnext
  have hlinks := h.links i (List.getElem?_eq_some_iff.mp hc).1
  rw [left_adopt hquiet (p := .next i) (.gate i) hkey] at hlinks
  unfold settledCount at hlinks
  rw [if_neg hnext] at hlinks
  -- the way to `next` would wait for `previous` or for the gate
  by_cases hchain : 0 < s.left (.react (.handler (.chain i)))
  · obtain ⟨p, ⟨c', hc', rfl⟩, hopen⟩ :=
      h.waits hquiet (r := .handler (.chain i)) hkey hchain
    obtain rfl : c = c' := Option.some.inj (hc.symm.trans hc')
    rw [hopen] at hprevious
    cases hprevious
  · obtain ⟨p, ⟨j, hj, rfl, _⟩, hopen⟩ :=
      h.waits hquiet (r := .forward (.next i)) hkey (by omega)
    cases hj
    rw [hopen] at hgate
    cases hgate

include hquiet in
theorem Inv.started_of_previous (h : s.Inv) {i : ℕ} {c : LockCall} (hc : s.calls[i]? = some c)
    (hkey : s.keyOf i = some lockKey)
    (hprevious : (s.heap.outcome c.previous).isSome = true) : i ∈ s.started := by
  by_contra hi
  have hstarts := h.starts i
  rw [if_pos (List.getElem?_eq_some_iff.mp hc).1, List.count_eq_zero.mpr hi] at hstarts
  obtain ⟨p, ⟨c', hc', rfl⟩, hopen⟩ :=
    h.waits hquiet (r := .handler (.start i)) hkey (by omega)
  obtain rfl : c = c' := Option.some.inj (hc.symm.trans hc')
  rw [hopen] at hprevious
  cases hprevious

theorem Inv.previous_of_started (h : s.Inv) {i : ℕ} {c : LockCall} (hc : s.calls[i]? = some c)
    (hi : i ∈ s.started) : (s.heap.outcome c.previous).isSome = true := by
  have hready := h.locks.entered_ready i (decide_eq_true hi)
  rcases h.follows i c hc with ⟨hp, ho⟩ | ⟨j, _, hp, _⟩
  · rw [hp]
    exact ho
  · unfold CreateLocks.ready toCreateLocks at hready
    dsimp only at hready
    rw [hc, Option.bind_some, hp] at hready
    rw [hp]
    exact hready

include hquiet in
/-- When its key is quiet, a call waits for nothing but the bodies of its key before it. -/
theorem Inv.started_of_settled (h : s.Inv) {i : ℕ} (hkey : s.keyOf i = some lockKey)
    (hbefore : ∀ j, j < i → s.keyOf j = some lockKey →
      (s.heap.outcome (.body j)).isSome = true) : i ∈ s.started := by
  induction i using Nat.strong_induction_on with
  | _ i ih =>
    obtain ⟨c, hc, hckey⟩ := Option.map_eq_some_iff.mp hkey
    apply h.started_of_previous hquiet hc hkey
    rcases h.follows i c hc with ⟨hp, ho⟩ | ⟨j, c', hp, hlt, hc', hsame⟩
    · rw [hp]
      exact ho
    · have hjkey : s.keyOf j = some lockKey :=
        Option.map_eq_some_iff.mpr ⟨c', hc', hsame.trans hckey⟩
      have hj : j ∈ s.started := by
        apply ih j hlt hjkey
        intro k hkj hkkey
        exact hbefore k (hkj.trans hlt) hkkey
      have hgate := h.gate_of_body hquiet hjkey hj (hbefore j hlt hjkey)
      rw [hp]
      exact h.next_of_gate hquiet hc' hjkey (h.previous_of_started hc' hj) hgate

include hquiet in
/-- When its key is quiet, a call has settled as its body has. -/
theorem Inv.results_eq (h : s.Inv) {i : ℕ} (hkey : s.keyOf i = some lockKey) :
    s.results i = s.heap.outcome (.body i) := by
  rw [h.results i]
  cases hbody : s.heap.outcome (.body i) with
  | none => simp
  | some o =>
    have hi : i ∈ s.started := h.settles _ o hbody
    have hsome : (s.heap.outcome (.body i)).isSome = true := by
      rw [hbody]
      rfl
    rw [if_pos (h.gate_of_body hquiet hkey hi hsome)]

end Progress

section Fair

/-- A call is outstanding as long as it has not settled; with none the map has no entry. -/
theorem Inv.no_leak (h : s.Inv) {lockKey : String}
    (hdone : ∀ i, s.keyOf i = some lockKey → (s.results i).isSome = true) :
    s.createLocks lockKey = none := by
  cases htail : s.createLocks lockKey with
  | none => rfl
  | some p =>
    obtain ⟨t, c, _, hc, hkey, hopen⟩ := h.tail lockKey p htail
    have hresult := hdone t (Option.map_eq_some_iff.mpr ⟨c, hc, hkey⟩)
    rw [h.results t, hopen] at hresult
    cases hresult

theorem Inv.own_outcome (h : s.Inv) {i : ℕ} {o : Settlement α ε} (ho : s.results i = some o) :
    s.heap.outcome (.body i) = some o := by
  rw [h.results i] at ho
  exact (Option.ite_none_right_eq_some.mp ho).2

/-- After every run: a key has one running body at most; its bodies have started in the order
of its calls; what has settled has settled as its own body, so a rejection fails no other; a
lock takes five jobs a call at most, and the queue can always be emptied; once no job is queued
for the calls of a key, each of them with nothing but settled bodies of that key before it has
started, whatever the other keys do, and has settled as its body has; and a key without an
outstanding call has no entry in the map. -/
theorem create_lock_fair {es : List (Event α ε)}
    (hrun : Transitions.run PromiseLocks.step init es = some s) :
    (∀ i j lockKey, s.Running i lockKey → s.Running j lockKey → i = j) ∧
      (∀ lockKey, s.startsOf lockKey <+: s.callsOf lockKey) ∧
      (∀ i o, s.results i = some o → s.heap.outcome (.body i) = some o) ∧
      es.countP Event.isJob ≤ 5 * s.calls.length ∧
      (∃ m s', Transitions.run PromiseLocks.step s (List.replicate m (.job 0)) = some s' ∧
        s'.heap.queue = []) ∧
      (∀ lockKey, s.Quiet lockKey → ∀ i, s.keyOf i = some lockKey →
        ((∀ j, j < i → s.keyOf j = some lockKey →
          (s.heap.outcome (.body j)).isSome = true) → i ∈ s.started) ∧
        s.results i = s.heap.outcome (.body i)) ∧
      ∀ lockKey, (∀ i, s.keyOf i = some lockKey → (s.results i).isSome = true) →
        s.createLocks lockKey = none := by
  have h := inv_of_run hrun
  have hjobs := jobs_of_run init_inv hrun
  refine ⟨fun i j key => h.running_unique, ordered_of_run hrun, fun i o => h.own_outcome, ?_,
    h.drain, ?_, fun key => h.no_leak⟩
  · change _ + _ + 0 ≤ 0 + _ at hjobs
    omega
  · intro lockKey hquiet i hkey
    exact ⟨h.started_of_settled hquiet hkey, h.results_eq hquiet hkey⟩

/-- Two calls of one key, the first of which rejects, and one of another key. -/
def rejectedFirst : List (Event ℕ String) :=
  [.call "a", .call "a", .call "b", .job 0, .job 0, .job 0, .job 0, .job 1, .job 0,
    .settle 0 (.error "refused"), .job 0, .job 0, .job 1]

theorem create_lock_after_rejection :
    ∃ s, Transitions.run PromiseLocks.step init rejectedFirst = some s ∧
      s.started = [0, 2, 1] ∧ s.results 0 = some (.error "refused") ∧
      s.startsOf "a" <+: s.callsOf "a" ∧ s.startsOf "a" = [0, 1] ∧
      s.heap.outcome (.body 0) = some (.error "refused") := by
  have hseen : ((Transitions.run PromiseLocks.step init rejectedFirst).map
      fun s => (s.started, s.results 0, s.startsOf "a")) =
        some ([0, 2, 1], some (.error "refused"), [0, 1]) := rfl
  obtain ⟨s, hrun, hparts⟩ := Option.map_eq_some_iff.mp hseen
  obtain ⟨hstarted, hparts⟩ := Prod.mk.inj hparts
  obtain ⟨hresult, hstarts⟩ := Prod.mk.inj hparts
  obtain ⟨_, hordered, hown, _⟩ := create_lock_fair hrun
  exact ⟨s, hrun, hstarted, hresult, hordered "a", hstarts, hown 0 _ hresult⟩

end Fair

end PromiseLocks

end TimeOff
