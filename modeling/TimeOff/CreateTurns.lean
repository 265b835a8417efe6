import TimeOff.CreatePromises

/-! The turns of `_withCreateLock`: what each does to the pending reactions, which step of the
create locks it is, and that it keeps the invariant. -/
namespace TimeOff

open Promises Function

namespace PromiseLocks

variable {α ε : Type} {s s' : PromiseLocks α ε}
  {rest : Heap LockPromise LockHandler (Settlement α ε)}

section Counts

/-- One thing is done and another comes up. -/
theorem count_trade {T : Type} [DecidableEq T] {l l' r : List T} {t t' : T}
    (h : l.Perm (t :: r)) (h' : l'.Perm (t' :: r)) (x : T) :
    l'.count x + (if t = x then 1 else 0) = l.count x + if t' = x then 1 else 0 := by
  rw [h.count_eq, h'.count_eq, List.count_cons, List.count_cons]
  simp only [beq_iff_eq]
  omega

/-- One thing is done. -/
theorem count_done {T : Type} [DecidableEq T] {l l' r : List T} {t : T}
    (h : l.Perm (t :: r)) (h' : l'.Perm r) (x : T) :
    l'.count x + (if t = x then 1 else 0) = l.count x := by
  rw [h.count_eq, h'.count_eq, List.count_cons]
  simp only [beq_iff_eq]

theorem Counted.started_lt (h : s.Counted) {i : ℕ} (hi : i ∈ s.started) : i < s.calls.length := by
  have hstarts := h.starts i
  have hcount := List.count_pos_iff.mpr hi
  by_contra hlt
  rw [if_neg hlt] at hstarts
  omega

/-- Where no start moves, the starts are still accounted for. -/
theorem Counted.starts_of_eq (h : s.Counted)
    (hleft : ∀ j, s'.left (.react (.handler (.start j))) = s.left (.react (.handler (.start j))))
    (hlength : s'.calls.length = s.calls.length) (hstarted : s'.started = s.started) (j : ℕ) :
    s'.left (.react (.handler (.start j))) + s'.started.count j =
      if j < s'.calls.length then 1 else 0 := by
  rw [hleft, hlength, hstarted]
  exact h.starts j

/-- Where nothing moves on a way from `previous` to `next`, the ways are still there. -/
theorem Counted.links_of_eq (h : s.Counted)
    (hchain : ∀ j, s'.left (.react (.handler (.chain j))) = s.left (.react (.handler (.chain j))))
    (hadopt : ∀ p q, s'.left (.adopt p q) = s.left (.adopt p q))
    (hforward : ∀ p, s'.left (.react (.forward p)) = s.left (.react (.forward p)))
    (hsettled : ∀ j, s'.settledCount (.next j) = s.settledCount (.next j))
    (hlength : s'.calls.length = s.calls.length) (j : ℕ) (hlt : j < s'.calls.length) :
    1 ≤ s'.left (.react (.handler (.chain j))) + s'.left (.adopt (.next j) (.gate j)) +
      s'.left (.react (.forward (.next j))) + s'.settledCount (.next j) := by
  rw [hchain, hadopt, hforward, hsettled]
  exact h.links j (by omega)

/-- The way from `previous` to `next` moves on. -/
theorem Counted.pass (h : s.Counted) {t t' : Pending LockPromise LockHandler} {i : ℕ}
    (hpass : t = .react (.handler (.chain i)) ∧ t' = .adopt (.next i) (.gate i) ∨
      t = .adopt (.next i) (.gate i) ∧ t' = .react (.forward (.next i)))
    (hleft : ∀ x, s'.left x + (if t = x then 1 else 0) = s.left x + if t' = x then 1 else 0)
    (hsettled : ∀ p, s'.settledCount p = s.settledCount p)
    (hlength : s'.calls.length = s.calls.length) (hstarted : s'.started = s.started) :
    s'.Counted := by
  refine ⟨h.starts_of_eq (fun j => ?_) hlength hstarted, fun j => ?_, fun j hlt => ?_⟩
  · have hx := hleft (.react (.handler (.start j)))
    rcases hpass with ⟨rfl, rfl⟩ | ⟨rfl, rfl⟩ <;> simpa using hx
  · have hx := hleft (.react (.handler (.finish j)))
    have hj := h.finishes j
    rw [hsettled, hstarted]
    rcases hpass with ⟨rfl, rfl⟩ | ⟨rfl, rfl⟩ <;> simp at hx <;> omega
  · have hx := hleft (.react (.handler (.chain j)))
    have hy := hleft (.adopt (.next j) (.gate j))
    have hz := hleft (.react (.forward (.next j)))
    have hj := h.links j (by omega)
    rw [hsettled]
    by_cases heq : i = j
    · subst heq
      rcases hpass with ⟨rfl, rfl⟩ | ⟨rfl, rfl⟩ <;> simp at hx hy hz <;> omega
    · rcases hpass with ⟨rfl, rfl⟩ | ⟨rfl, rfl⟩ <;> simp [heq] at hx hy hz <;> omega

theorem Counted.forward (h : s.Counted) {i : ℕ}
    (hleft : ∀ x, s'.left x + (if .react (.forward (.next i)) = x then 1 else 0) = s.left x)
    (hother : ∀ p, p ≠ .next i → s'.settledCount p = s.settledCount p)
    (hself : s'.settledCount (.next i) = 1)
    (hlength : s'.calls.length = s.calls.length) (hstarted : s'.started = s.started) :
    s'.Counted := by
  refine ⟨h.starts_of_eq (fun j => ?_) hlength hstarted, fun j => ?_, fun j hlt => ?_⟩
  · simpa using hleft (.react (.handler (.start j)))
  · have hx := hleft (.react (.handler (.finish j)))
    have hj := h.finishes j
    rw [hother _ (by simp), hstarted]
    simp at hx
    omega
  · have hx := hleft (.react (.handler (.chain j)))
    have hy := hleft (.adopt (.next j) (.gate j))
    have hz := hleft (.react (.forward (.next j)))
    have hj := h.links j (by omega)
    by_cases heq : i = j
    · subst heq
      omega
    · rw [hother _ (by simpa using fun h => heq h.symm)]
      simp [heq] at hx hy hz
      omega

theorem Counted.start (h : s.Counted) {i : ℕ}
    (hleft : ∀ x, s'.left x + (if .react (.handler (.start i)) = x then 1 else 0) =
      s.left x + if .react (.handler (.finish i)) = x then 1 else 0)
    (hsettled : ∀ p, s'.settledCount p = s.settledCount p)
    (hlength : s'.calls.length = s.calls.length) (hstarted : s'.started = s.started ++ [i]) :
    s'.Counted := by
  have hcount (j : ℕ) : s'.started.count j = s.started.count j + if i = j then 1 else 0 := by
    rw [hstarted, List.count_append, List.count_singleton]
    simp only [beq_iff_eq]
  refine ⟨fun j => ?_, fun j => ?_, h.links_of_eq (fun j => ?_) (fun p q => ?_) (fun p => ?_)
    (fun j => hsettled _) hlength⟩
  · have hx := hleft (.react (.handler (.start j)))
    have hj := h.starts j
    rw [hlength, hcount]
    simp at hx
    omega
  · have hx := hleft (.react (.handler (.finish j)))
    have hj := h.finishes j
    rw [hsettled, hcount]
    simp at hx
    omega
  · simpa using hleft (.react (.handler (.chain j)))
  · simpa using hleft (.adopt p q)
  · simpa using hleft (.react (.forward p))

theorem Counted.finish (h : s.Counted) {i : ℕ}
    (hleft : ∀ x, s'.left x + (if .react (.handler (.finish i)) = x then 1 else 0) = s.left x)
    (hother : ∀ p, p ≠ .gate i → s'.settledCount p = s.settledCount p)
    (hbefore : s.settledCount (.gate i) = 0) (hself : s'.settledCount (.gate i) = 1)
    (hlength : s'.calls.length = s.calls.length) (hstarted : s'.started = s.started) :
    s'.Counted := by
  refine ⟨h.starts_of_eq (fun j => ?_) hlength hstarted, fun j => ?_,
    h.links_of_eq (fun j => ?_) (fun p q => ?_) (fun p => ?_) (fun j => hother _ (by simp))
      hlength⟩
  · simpa using hleft (.react (.handler (.start j)))
  · have hx := hleft (.react (.handler (.finish j)))
    have hj := h.finishes j
    rw [hstarted]
    by_cases heq : i = j
    · subst heq
      simp at hx
      omega
    · rw [hother _ (by simpa using fun h => heq h.symm)]
      simp [heq] at hx
      omega
  · simpa using hleft (.react (.handler (.chain j)))
  · simpa using hleft (.adopt p q)
  · simpa using hleft (.react (.forward p))

theorem Counted.call (h : s.Counted)
    (hleft : ∀ x, s'.left x = s.left x +
      (if .react (.handler (.chain s.calls.length)) = x then 1 else 0) +
      (if .react (.handler (.start s.calls.length)) = x then 1 else 0))
    (hother : ∀ p, p ≠ .resolved s.calls.length → s'.settledCount p = s.settledCount p)
    (hlength : s'.calls.length = s.calls.length + 1) (hstarted : s'.started = s.started) :
    s'.Counted := by
  refine ⟨?_, ?_, ?_⟩
  · intro j
    have hj := h.starts j
    rw [hleft, hstarted, hlength]
    simp
    split at hj <;> split <;> split <;> omega
  · intro j
    rw [hleft, hother _ (by simp), hstarted]
    simp
    exact h.finishes j
  · intro j hlt
    rw [hleft, hleft, hleft, hother _ (by simp)]
    by_cases heq : s.calls.length = j
    · subst heq
      simp
      omega
    · have hj := h.links j (by omega)
      omega

end Counts

section Settling

/-- What a call awaits only fulfils. -/
theorem Wired.fulfilled (h : s.Wired) {i : ℕ} {c : LockCall} (hc : s.calls[i]? = some c)
    {o : Settlement α ε} (ho : s.heap.outcome c.previous = some o) : o = .ok none := by
  have hsettles := h.settles _ o ho
  rcases h.follows i c hc with ⟨hp, _⟩ | ⟨j, _, hp, _⟩
  · rw [hp] at hsettles
    exact hsettles
  · rw [hp] at hsettles
    exact hsettles.1

/-- The gate of a call does not open before its body settles. -/
theorem Wired.closed (h : s.Wired) {i : ℕ} (hbody : s.heap.outcome (.body i) = none) :
    s.heap.outcome (.gate i) = none := by
  cases hgate : s.heap.outcome (.gate i) with
  | none => rfl
  | some o =>
    have hsome := (h.settles _ o hgate).2.2
    rw [hbody] at hsome
    cases hsome

theorem grows_of_outcome (hcalls : s'.calls = s.calls)
    (hstarted : ∀ i, i ∈ s.started → i ∈ s'.started)
    (hout : s'.heap.outcome = s.heap.outcome) : s.Grows s' := by
  refine ⟨fun i c hc => ?_, hstarted, fun p o hp => ?_⟩
  · rw [hcalls]
    exact hc
  · rw [hout]
    exact hp

theorem settledCount_eq {p : LockPromise} (hp : s'.heap.outcome p = s.heap.outcome p) :
    s'.settledCount p = s.settledCount p := by
  unfold settledCount
  rw [hp]

/-- A step that settles `p` on the heap `rest`. -/
structure SettledOn (s s' : PromiseLocks α ε)
    (rest : Heap LockPromise LockHandler (Settlement α ε)) (p : LockPromise)
    (o : Settlement α ε) : Prop where
  heap : s'.heap = rest.settle p o
  outcome : rest.outcome = s.heap.outcome
  calls : s'.calls = s.calls
  started : s'.started = s.started

variable {p : LockPromise} {o : Settlement α ε}

theorem SettledOn.other (h : SettledOn s s' rest p o) {q : LockPromise} (hne : q ≠ p) :
    s'.heap.outcome q = s.heap.outcome q := by
  rw [h.heap, Heap.outcome_settle_of_ne hne, h.outcome]

theorem SettledOn.self (h : SettledOn s s' rest p o) : (s'.heap.outcome p).isSome = true := by
  rw [h.heap]
  exact Heap.outcome_settle_self p o

theorem SettledOn.settledCount_self (h : SettledOn s s' rest p o) : s'.settledCount p = 1 :=
  if_pos h.self

theorem SettledOn.left (h : SettledOn s s' rest p o) {t : Pending LockPromise LockHandler}
    (hpending : s.heap.pending.Perm (t :: rest.pending)) (x : Pending LockPromise LockHandler) :
    s'.left x + (if t = x then 1 else 0) = s.left x := by
  unfold PromiseLocks.left
  rw [h.heap]
  exact count_done hpending (Heap.pending_settle p o) x

theorem SettledOn.grows (h : SettledOn s s' rest p o) : s.Grows s' := by
  refine ⟨fun i c hc => ?_, fun i hi => ?_, fun q o' hq => ?_⟩
  · rw [h.calls]
    exact hc
  · rw [h.started]
    exact hi
  · rw [h.heap]
    apply Heap.outcome_settle_of_some
    rw [h.outcome]
    exact hq

/-- A promise may be settled once what it rests on is there. -/
theorem Wired.settle (h : s.Wired) (hon : SettledOn s s' rest p o)
    (hsound : rest.Sound s.Awaits s.Adopts) (hp : s.Settles p o) : s'.Wired := by
  apply h.grow hon.grows
  · rw [hon.heap]
    exact (hon.grows.sound hsound).settle p o
  · intro q o' hq
    by_cases hold : s.heap.outcome q = some o'
    · exact .inl hold
    · right
      rw [hon.heap] at hq
      rw [← hon.outcome] at hold
      -- an outcome that was not there before is that of `p`
      have heq : q = p := by
        by_contra hne
        rw [Heap.outcome_settle_of_ne hne] at hq
        exact hold hq
      subst heq
      cases hrest : rest.outcome q with
      | none =>
        rw [Heap.outcome_settle hrest, update_self] at hq
        rw [← Option.some.inj hq]
        exact hon.grows.settles hp
      | some o'' =>
        rw [Heap.settle_of_some hrest] at hq
        exact absurd hq hold
  · intro i c hc
    rw [hon.calls] at hc
    exact .inl hc

/-- The map of a step may lose entries, but gates of the others stay closed. -/
theorem Inv.tail_keep (h : s.Inv) (hcalls : s'.calls = s.calls)
    (hmap : ∀ lockKey p, s'.createLocks lockKey = some p → s.createLocks lockKey = some p ∧
      ∀ (t : ℕ) c, p = .next t → s.calls[t]? = some c → c.lockKey = lockKey →
        s'.heap.outcome (.gate t) = s.heap.outcome (.gate t)) :
    ∀ lockKey p, s'.createLocks lockKey = some p → ∃ t c, p = .next t ∧
      s'.calls[t]? = some c ∧ c.lockKey = lockKey ∧ s'.heap.outcome (.gate t) = none := by
  intro lockKey p hp
  obtain ⟨hold, hgate⟩ := hmap lockKey p hp
  obtain ⟨t, c, ht, hc, hkey, hopen⟩ := h.tail lockKey p hold
  refine ⟨t, c, ht, ?_, hkey, ?_⟩
  · rw [hcalls]
    exact hc
  · rw [hgate t c ht hc hkey]
    exact hopen

end Settling

section Locks

theorem ready_toCreateLocks {i : ℕ} (hi : s.Ready i) : s.toCreateLocks.ready i = true := by
  obtain ⟨c, hc, hp⟩ := hi
  unfold CreateLocks.ready toCreateLocks
  dsimp only
  rw [hc, Option.bind_some]
  cases hprev : c.previous with
  | next j =>
    rw [hprev] at hp
    exact hp
  | resolved j => rfl
  | gate j => rfl
  | body j => rfl

theorem toCreateLocks_settle_next {i : ℕ} {o : Settlement α ε}
    (hon : SettledOn s s' rest (.next i) o) (hmap : s'.createLocks = s.createLocks) :
    s'.toCreateLocks =
      { s.toCreateLocks with settled := update s.toCreateLocks.settled i true } := by
  have hsettled : (fun j => (s'.heap.outcome (.next j)).isSome) =
      update (fun j => (s.heap.outcome (.next j)).isSome) i true := by
    funext j
    by_cases heq : j = i
    · rw [heq, update_self]
      exact hon.self
    · rw [update_of_ne heq, hon.other (by simpa using heq)]
  have hreleased : (fun j => (s'.heap.outcome (.gate j)).isSome) =
      fun j => (s.heap.outcome (.gate j)).isSome := by
    funext j
    rw [hon.other (by simp)]
  unfold toCreateLocks
  dsimp only
  rw [hsettled, hreleased, hmap, hon.calls, hon.started]

theorem toCreateLocks_body {i : ℕ} {o : Settlement α ε}
    (hon : SettledOn s s' rest (.body i) o) (hmap : s'.createLocks = s.createLocks) :
    s'.toCreateLocks = s.toCreateLocks := by
  have hreleased (j : ℕ) : s'.heap.outcome (.gate j) = s.heap.outcome (.gate j) :=
    hon.other (by simp)
  have hsettled (j : ℕ) : s'.heap.outcome (.next j) = s.heap.outcome (.next j) :=
    hon.other (by simp)
  unfold toCreateLocks
  simp only [hreleased, hsettled]
  rw [hmap, hon.calls, hon.started]

theorem toCreateLocks_start {i : ℕ} (hout : s'.heap.outcome = s.heap.outcome)
    (hmap : s'.createLocks = s.createLocks) (hcalls : s'.calls = s.calls)
    (hstarted : s'.started = s.started ++ [i]) :
    s'.toCreateLocks =
      { s.toCreateLocks with entered := update s.toCreateLocks.entered i true } := by
  have hentered : (fun j => decide (j ∈ s'.started)) =
      update (fun j => decide (j ∈ s.started)) i true := by
    funext j
    rw [hstarted]
    by_cases heq : j = i
    · rw [heq, update_self]
      simp
    · rw [update_of_ne heq]
      simp [heq]
  unfold toCreateLocks
  dsimp only
  rw [hentered, hout, hmap, hcalls]

theorem bind_nextOf {x : Option LockPromise} {i : ℕ} :
    x.bind nextOf = some i ↔ x = some (.next i) := by
  constructor
  · intro hbind
    obtain ⟨p, hp, hnext⟩ := Option.bind_eq_some_iff.mp hbind
    cases p with
    | next j =>
      rw [hp, Option.some.inj hnext]
    | resolved j => cases hnext
    | gate j => cases hnext
    | body j => cases hnext
  · intro hx
    rw [hx]
    rfl

theorem toCreateLocks_finish {i : ℕ} {o : Settlement α ε} {lockKey : String}
    (hon : SettledOn s s' rest (.gate i) o)
    (hmap : s'.createLocks =
      if s.createLocks lockKey = some (.next i) then update s.createLocks lockKey none
      else s.createLocks) :
    s'.toCreateLocks = s.toCreateLocks.release i lockKey := by
  have hreleased : (fun j => (s'.heap.outcome (.gate j)).isSome) =
      update (fun j => (s.heap.outcome (.gate j)).isSome) i true := by
    funext j
    by_cases heq : j = i
    · rw [heq, update_self]
      exact hon.self
    · rw [update_of_ne heq, hon.other (by simpa using heq)]
  have hsettled : (fun j => (s'.heap.outcome (.next j)).isSome) =
      fun j => (s.heap.outcome (.next j)).isSome := by
    funext j
    rw [hon.other (by simp)]
  have htails : (fun key => (s'.createLocks key).bind nextOf) =
      if (s.createLocks lockKey).bind nextOf = some i then
        update (fun key => (s.createLocks key).bind nextOf) lockKey none
      else fun key => (s.createLocks key).bind nextOf := by
    rw [hmap]
    by_cases hlast : s.createLocks lockKey = some (.next i)
    · rw [if_pos hlast, if_pos (bind_nextOf.mpr hlast)]
      funext key
      by_cases hkey : key = lockKey
      · rw [hkey, update_self, update_self]
        rfl
      · rw [update_of_ne hkey, update_of_ne hkey]
    · rw [if_neg hlast, if_neg fun hand => hlast (bind_nextOf.mp hand)]
  unfold toCreateLocks CreateLocks.release
  dsimp only
  rw [hreleased, hsettled, htails, hon.calls, hon.started]

theorem toCreateLocks_call {lockKey : String} {previous : LockPromise}
    (hnext : nextOf previous = (s.createLocks lockKey).bind nextOf)
    (hlast : s'.calls[s.calls.length]? = some ⟨lockKey, previous⟩)
    (hbefore : ∀ j, j ≠ s.calls.length → s'.calls[j]? = s.calls[j]?)
    (hmap : s'.createLocks = update s.createLocks lockKey (some (.next s.calls.length)))
    (hother : ∀ q, q ≠ .resolved s.calls.length → s'.heap.outcome q = s.heap.outcome q)
    (hstarted : s'.started = s.started) :
    s'.toCreateLocks = s.toCreateLocks.enter s.calls.length lockKey := by
  have hlane : (fun j => (s'.calls[j]?).map LockCall.lockKey) =
      update (fun j => (s.calls[j]?).map LockCall.lockKey) s.calls.length (some lockKey) := by
    funext j
    by_cases heq : j = s.calls.length
    · rw [heq, update_self, hlast]
      rfl
    · rw [update_of_ne heq, hbefore j heq]
  have hprevious : (fun j => (s'.calls[j]?).bind fun c => nextOf c.previous) =
      update (fun j => (s.calls[j]?).bind fun c => nextOf c.previous) s.calls.length
        ((s.createLocks lockKey).bind nextOf) := by
    funext j
    by_cases heq : j = s.calls.length
    · rw [heq, update_self, hlast]
      exact hnext
    · rw [update_of_ne heq, hbefore j heq]
  have htails : (fun key => (s'.createLocks key).bind nextOf) =
      update (fun key => (s.createLocks key).bind nextOf) lockKey (some s.calls.length) := by
    funext key
    rw [hmap]
    by_cases heq : key = lockKey
    · rw [heq, update_self, update_self]
      rfl
    · rw [update_of_ne heq, update_of_ne heq]
  have hreleased (j : ℕ) : s'.heap.outcome (.gate j) = s.heap.outcome (.gate j) :=
    hother _ (by simp)
  have hsettled (j : ℕ) : s'.heap.outcome (.next j) = s.heap.outcome (.next j) :=
    hother _ (by simp)
  unfold toCreateLocks CreateLocks.enter
  simp only [hreleased, hsettled]
  rw [hlane, hprevious, htails, hstarted]

end Locks

section Turns

variable {n : ℕ}

/-- A turn that only moves the way from `previous` to `next` on. -/
theorem Inv.pass (h : s.Inv) {heap : Heap LockPromise LockHandler (Settlement α ε)}
    {t t' : Pending LockPromise LockHandler} {i : ℕ} (hout : heap.outcome = s.heap.outcome)
    (hsound : heap.Sound s.Awaits s.Adopts)
    (hleft : ∀ x, heap.pending.count x + (if t = x then 1 else 0) =
      s.heap.pending.count x + if t' = x then 1 else 0)
    (hpass : t = .react (.handler (.chain i)) ∧ t' = .adopt (.next i) (.gate i) ∨
      t = .adopt (.next i) (.gate i) ∧ t' = .react (.forward (.next i)))
    (hs' : s' = { s with heap := heap }) :
    s'.Inv ∧ LocksStep s.toCreateLocks s'.toCreateLocks := by
  have hcalls : s'.calls = s.calls := by rw [hs']
  have hstarted : s'.started = s.started := by rw [hs']
  have hmap : s'.createLocks = s.createLocks := by rw [hs']
  have hresults : s'.results = s.results := by rw [hs']
  have hheap : s'.heap = heap := by rw [hs']
  have hout' : s'.heap.outcome = s.heap.outcome := by rw [hheap, hout]
  have hgrows : s.Grows s' := by
    apply grows_of_outcome hcalls _ hout'
    intro j hj
    rw [hstarted]
    exact hj
  have hwired : s'.Wired := by
    apply h.toWired.grow hgrows
    · rw [hheap]
      exact hgrows.sound hsound
    · intro p o hp
      rw [hout'] at hp
      exact .inl hp
    · intro j c hc
      rw [hcalls] at hc
      exact .inl hc
  have hcounted : s'.Counted := by
    apply h.toCounted.pass hpass _ (fun p => settledCount_eq (congrFun hout' p))
      (congrArg List.length hcalls) hstarted
    intro x
    unfold left
    rw [hheap]
    exact hleft x
  have hlocks : s'.toCreateLocks = s.toCreateLocks := by
    unfold toCreateLocks
    rw [hout', hmap, hcalls, hstarted]
  refine ⟨⟨hwired, hcounted, ?_, ?_, ?_⟩, ?_⟩
  · intro j
    rw [hout', hresults]
    exact h.results j
  · apply h.tail_keep hcalls
    intro lockKey p hp
    rw [hmap] at hp
    exact ⟨hp, fun t c _ _ _ => congrFun hout' _⟩
  · rw [hlocks]
    exact h.locks
  · rw [hlocks]
    exact .stay

/-- The turn that settles `next`. -/
theorem Inv.forward (h : s.Inv) {i : ℕ} (hout : rest.outcome = s.heap.outcome)
    (hsound : rest.Sound s.Awaits s.Adopts)
    (hpending : s.heap.pending.Perm (.react (.forward (.next i)) :: rest.pending))
    (hready : s.Ready i) (hgate : (s.heap.outcome (.gate i)).isSome = true)
    (hs' : s' = { s with heap := rest.settle (.next i) (.ok none) }) :
    s'.Inv ∧ LocksStep s.toCreateLocks s'.toCreateLocks := by
  have hon : SettledOn s s' rest (.next i) (.ok none) := by
    subst hs'
    exact ⟨rfl, hout, rfl, rfl⟩
  have hmap : s'.createLocks = s.createLocks := by rw [hs']
  have hresults : s'.results = s.results := by rw [hs']
  have hwired := h.toWired.settle hon hsound ⟨rfl, hready, hgate⟩
  have hcounted := h.toCounted.forward (hon.left hpending)
    (fun p hp => settledCount_eq (hon.other hp)) hon.settledCount_self
    (congrArg List.length hon.calls) hon.started
  have hstep : LocksStep s.toCreateLocks s'.toCreateLocks := by
    apply LocksStep.settle i
    unfold CreateLocks.settle
    rw [if_pos, toCreateLocks_settle_next hon hmap]
    rw [ready_toCreateLocks hready]
    exact hgate
  refine ⟨⟨hwired, hcounted, ?_, ?_, hstep.inv h.locks⟩, hstep⟩
  · intro j
    rw [hon.other (by simp), hon.other (by simp), hresults]
    exact h.results j
  · apply h.tail_keep hon.calls
    intro lockKey p hp
    rw [hmap] at hp
    exact ⟨hp, fun t c _ _ _ => hon.other (by simp)⟩

/-- A body settles. -/
theorem Inv.body (h : s.Inv) {i : ℕ} (hi : i ∈ s.started)
    (hbody : s.heap.outcome (.body i) = none) {o : Settlement α ε}
    (hs' : s' = { s with heap := s.heap.settle (.body i) o }) :
    s'.Inv ∧ LocksStep s.toCreateLocks s'.toCreateLocks := by
  have hon : SettledOn s s' s.heap (.body i) o := by
    subst hs'
    exact ⟨rfl, rfl, rfl, rfl⟩
  have hmap : s'.createLocks = s.createLocks := by rw [hs']
  have hresults : s'.results = s.results := by rw [hs']
  have hleft (t : Pending LockPromise LockHandler) : s'.left t = s.left t := by
    unfold left
    rw [hon.heap]
    exact (Heap.pending_settle _ _).count_eq t
  have hlength : s'.calls.length = s.calls.length := congrArg List.length hon.calls
  have hcounted : s'.Counted := by
    refine ⟨h.starts_of_eq (fun j => hleft _) hlength hon.started, fun j => ?_,
      h.links_of_eq (fun j => hleft _) (fun p q => hleft _) (fun p => hleft _)
        (fun j => settledCount_eq (hon.other (by simp))) hlength⟩
    rw [hleft, settledCount_eq (hon.other (by simp)), hon.started]
    exact h.finishes j
  have hstep : LocksStep s.toCreateLocks s'.toCreateLocks := by
    rw [toCreateLocks_body hon hmap]
    exact .stay
  refine ⟨⟨h.toWired.settle hon h.sound hi, hcounted, ?_, ?_, hstep.inv h.locks⟩, hstep⟩
  · intro j
    have hj := h.results j
    rw [hon.other (by simp), hresults]
    by_cases heq : j = i
    · rw [heq, h.closed hbody] at hj ⊢
      exact hj
    · rw [hon.other (by simpa using heq)]
      exact hj
  · apply h.tail_keep hon.calls
    intro lockKey p hp
    rw [hmap] at hp
    exact ⟨hp, fun t c _ _ _ => hon.other (by simp)⟩

/-- The turn after `await previous`. -/
theorem Inv.start (h : s.Inv) {i : ℕ} (hout : rest.outcome = s.heap.outcome)
    (hsound : rest.Sound s.Awaits s.Adopts)
    (hpending : s.heap.pending.Perm (.react (.handler (.start i)) :: rest.pending))
    (hready : s.Ready i)
    (hs' : s' = { s with
      started := s.started ++ [i]
      heap := rest.register (.body i) (.handler (.finish i)) }) :
    s'.Inv ∧ LocksStep s.toCreateLocks s'.toCreateLocks := by
  have hheap : s'.heap = rest.register (.body i) (.handler (.finish i)) := by rw [hs']
  have hcalls : s'.calls = s.calls := by rw [hs']
  have hstarted : s'.started = s.started ++ [i] := by rw [hs']
  have hmap : s'.createLocks = s.createLocks := by rw [hs']
  have hresults : s'.results = s.results := by rw [hs']
  have hout' : s'.heap.outcome = s.heap.outcome := by
    rw [hheap, Heap.outcome_register, hout]
  have hmem : i ∈ s'.started := by
    rw [hstarted]
    exact List.mem_append_right _ List.mem_cons_self
  have hgrows : s.Grows s' := by
    apply grows_of_outcome hcalls _ hout'
    intro j hj
    rw [hstarted]
    exact List.mem_append_left _ hj
  have hwired : s'.Wired := by
    apply h.toWired.grow hgrows
    · rw [hheap]
      apply (hgrows.sound hsound).register
      exact ⟨rfl, hmem⟩
    · intro p o hp
      rw [hout'] at hp
      exact .inl hp
    · intro j c hc
      rw [hcalls] at hc
      exact .inl hc
  have hcounted : s'.Counted := by
    apply h.toCounted.start _ (fun p => settledCount_eq (congrFun hout' p))
      (congrArg List.length hcalls) hstarted
    intro x
    unfold left
    rw [hheap]
    exact count_trade hpending (Heap.pending_register _ _) x
  have hstep : LocksStep s.toCreateLocks s'.toCreateLocks := by
    apply LocksStep.awaitPrevious i
    · obtain ⟨c, hc, _⟩ := hready
      unfold toCreateLocks
      dsimp only
      rw [hc]
      simp
    · unfold CreateLocks.awaitPrevious
      rw [if_pos (ready_toCreateLocks hready), toCreateLocks_start hout' hmap hcalls hstarted]
  refine ⟨⟨hwired, hcounted, ?_, ?_, hstep.inv h.locks⟩, hstep⟩
  · intro j
    rw [hout', hresults]
    exact h.results j
  · apply h.tail_keep hcalls
    intro lockKey p hp
    rw [hmap] at hp
    exact ⟨hp, fun t c _ _ _ => congrFun hout' _⟩

/-- Before the turn after `await fn()` the gate is closed. -/
theorem Inv.closed_of_finish (h : s.Inv) {i : ℕ} (hi : i ∈ s.started)
    (hpending : s.heap.pending.Perm (.react (.handler (.finish i)) :: rest.pending)) :
    s.heap.outcome (.gate i) = none := by
  have hleft : 0 < s.left (.react (.handler (.finish i))) := by
    apply List.count_pos_iff.mpr
    exact hpending.mem_iff.mpr List.mem_cons_self
  have hfinishes := h.finishes i
  have hstarts := h.starts i
  rw [if_pos (h.started_lt hi)] at hstarts
  unfold settledCount at hfinishes
  cases hgate : s.heap.outcome (.gate i) with
  | none => rfl
  | some o =>
    rw [hgate, Option.isSome_some, if_pos rfl] at hfinishes
    omega

theorem finish_eq {i : ℕ} {c : LockCall} (hc : s.calls[i]? = some c) (o : Settlement α ε) :
    s.finish i o = { s with
      heap := s.heap.settle (.gate i) (.ok none)
      createLocks :=
        if s.createLocks c.lockKey = some (.next i) then update s.createLocks c.lockKey none
        else s.createLocks
      results := update s.results i (some o) } := by
  unfold PromiseLocks.finish
  rw [hc]

/-- The turn after `await fn()`. -/
theorem Inv.finish (h : s.Inv) {i : ℕ} {o : Settlement α ε} {c : LockCall}
    (hout : rest.outcome = s.heap.outcome) (hsound : rest.Sound s.Awaits s.Adopts)
    (hpending : s.heap.pending.Perm (.react (.handler (.finish i)) :: rest.pending))
    (hi : i ∈ s.started) (hbody : s.heap.outcome (.body i) = some o)
    (hc : s.calls[i]? = some c)
    (hs' : s' = { s with
      heap := rest.settle (.gate i) (.ok none)
      createLocks :=
        if s.createLocks c.lockKey = some (.next i) then update s.createLocks c.lockKey none
        else s.createLocks
      results := update s.results i (some o) }) :
    s'.Inv ∧ LocksStep s.toCreateLocks s'.toCreateLocks := by
  have hon : SettledOn s s' rest (.gate i) (.ok none) := by
    subst hs'
    exact ⟨rfl, hout, rfl, rfl⟩
  have hmap : s'.createLocks =
      if s.createLocks c.lockKey = some (.next i) then update s.createLocks c.lockKey none
      else s.createLocks := by rw [hs']
  have hresults : s'.results = update s.results i (some o) := by rw [hs']
  have hsome : (s.heap.outcome (.body i)).isSome = true := by
    rw [hbody]
    rfl
  have hclosed := h.closed_of_finish hi hpending
  have hzero : s.settledCount (.gate i) = 0 := by
    unfold settledCount
    rw [hclosed]
    rfl
  have hcounted := h.toCounted.finish (hon.left hpending)
    (fun p hp => settledCount_eq (hon.other hp)) hzero hon.settledCount_self
    (congrArg List.length hon.calls) hon.started
  have hstep : LocksStep s.toCreateLocks s'.toCreateLocks := by
    rw [toCreateLocks_finish hon hmap]
    apply LocksStep.release
    refine ⟨?_, decide_eq_true hi, ?_⟩
    · unfold toCreateLocks
      dsimp only
      rw [hc]
      rfl
    · unfold toCreateLocks
      dsimp only
      rw [hclosed]
      rfl
  refine ⟨⟨h.toWired.settle hon hsound ⟨rfl, hi, hsome⟩, hcounted, ?_, ?_,
    hstep.inv h.locks⟩, hstep⟩
  · intro j
    have hj := h.results j
    rw [hresults]
    by_cases heq : j = i
    · rw [heq, update_self, if_pos hon.self, hon.other (by simp), hbody]
    · rw [update_of_ne heq, hon.other (by simpa using heq), hon.other (by simp)]
      exact hj
  · apply h.tail_keep hon.calls
    intro lockKey p hp
    rw [hmap] at hp
    -- the entry of the call itself is gone
    have hkeep : s.createLocks lockKey = some p ∧ ¬ (lockKey = c.lockKey ∧ p = .next i) := by
      split at hp
      · next hlast =>
        by_cases hkey : lockKey = c.lockKey
        · rw [hkey, update_self] at hp
          cases hp
        · rw [update_of_ne hkey] at hp
          exact ⟨hp, fun hand => hkey hand.1⟩
      · next hlast =>
        refine ⟨hp, fun hand => ?_⟩
        rw [hand.1, hand.2] at hp
        exact hlast hp
    refine ⟨hkeep.1, fun t c' ht hc' hkey => ?_⟩
    have hti : t ≠ i := by
      intro heq
      subst heq
      obtain rfl : c = c' := Option.some.inj (hc.symm.trans hc')
      exact hkeep.2 ⟨hkey.symm, ht⟩
    exact hon.other (by simpa using hti)

/-- What a new call finds as `previous`. -/
structure Found (s : PromiseLocks α ε) (lockKey : String) (previous : LockPromise)
    (heap : Heap LockPromise LockHandler (Settlement α ε)) : Prop where
  sound : heap.Sound s.Awaits s.Adopts
  pending : heap.pending.Perm s.heap.pending
  old : ∀ q o, s.heap.outcome q = some o → heap.outcome q = some o
  other : ∀ q, q ≠ .resolved s.calls.length → heap.outcome q = s.heap.outcome q
  new : ∀ o, heap.outcome (.resolved s.calls.length) = some o → o = .ok none
  nextOf_eq : nextOf previous = (s.createLocks lockKey).bind nextOf
  follows : (previous = .resolved s.calls.length ∧
      (heap.outcome (.resolved s.calls.length)).isSome = true) ∨
    ∃ j c', previous = .next j ∧ s.calls[j]? = some c' ∧ c'.lockKey = lockKey

theorem Inv.found (h : s.Inv) (lockKey : String) :
    s.Found lockKey (s.getPrevious lockKey).1 (s.getPrevious lockKey).2 := by
  unfold getPrevious
  cases hget : s.createLocks lockKey with
  | some p =>
    obtain ⟨t, c, rfl, hc, hkey, _⟩ := h.tail lockKey p hget
    exact {
      sound := h.sound
      pending := .refl _
      old := fun _ _ hq => hq
      other := fun _ _ => rfl
      new := fun o ho => h.settles _ o ho
      nextOf_eq := by
        rw [hget]
        rfl
      follows := .inr ⟨t, c, rfl, hc, hkey⟩ }
  | none =>
    refine {
      sound := h.sound.settle _ _
      pending := Heap.pending_settle _ _
      old := fun q o hq => Heap.outcome_settle_of_some hq _ _
      other := fun q hq => Heap.outcome_settle_of_ne hq _
      new := ?_
      nextOf_eq := by
        rw [hget]
        rfl
      follows := .inl ⟨rfl, Heap.outcome_settle_self _ _⟩ }
    intro o ho
    cases hold : s.heap.outcome (.resolved s.calls.length) with
    | none =>
      dsimp only at ho
      rw [Heap.outcome_settle hold, update_self] at ho
      exact (Option.some.inj ho).symm
    | some o' =>
      dsimp only at ho
      rw [Heap.settle_of_some hold] at ho
      exact h.settles _ o ho

/-- A call, up to its `await`. -/
theorem Inv.call (h : s.Inv) (lockKey : String) (hs' : s' = s.withCreateLock lockKey) :
    s'.Inv ∧ LocksStep s.toCreateLocks s'.toCreateLocks := by
  have hfound := h.found lockKey
  unfold withCreateLock at hs'
  generalize s.getPrevious lockKey = found at hfound hs'
  obtain ⟨previous, heap⟩ := found
  dsimp only at hfound hs'
  have hcalls : s'.calls = s.calls ++ [⟨lockKey, previous⟩] := by rw [hs']
  have hstarted : s'.started = s.started := by rw [hs']
  have hresults : s'.results = s.results := by rw [hs']
  have hmap : s'.createLocks = update s.createLocks lockKey (some (.next s.calls.length)) := by
    rw [hs']
  have hheap : s'.heap = (heap.register previous (.handler (.chain s.calls.length))).register
      previous (.handler (.start s.calls.length)) := by rw [hs']
  have hout : s'.heap.outcome = heap.outcome := by
    rw [hheap, Heap.outcome_register, Heap.outcome_register]
  have hlast : s'.calls[s.calls.length]? = some ⟨lockKey, previous⟩ := by
    rw [hcalls, List.getElem?_concat_length]
  have hbefore (j : ℕ) (hne : j ≠ s.calls.length) : s'.calls[j]? = s.calls[j]? := by
    rw [hcalls, List.getElem?_append]
    split
    · rfl
    · rw [List.getElem?_eq_none (by simp; omega), List.getElem?_eq_none (by omega)]
  have hnew : s.calls[s.calls.length]? = none := List.getElem?_eq_none (Nat.le_refl _)
  have hother (q : LockPromise) (hne : q ≠ .resolved s.calls.length) :
      s'.heap.outcome q = s.heap.outcome q := by
    rw [hout]
    exact hfound.other q hne
  have hgrows : s.Grows s' := by
    refine ⟨fun j c hc => ?_, fun j hj => ?_, fun q o hq => ?_⟩
    · have hne : j ≠ s.calls.length := by
        intro heq
        rw [heq, hnew] at hc
        cases hc
      rw [hbefore j hne]
      exact hc
    · rw [hstarted]
      exact hj
    · rw [hout]
      exact hfound.old q o hq
  have hwired : s'.Wired := by
    apply h.toWired.grow hgrows
    · rw [hheap]
      apply Heap.Sound.register
      · apply Heap.Sound.register (hgrows.sound hfound.sound)
        exact ⟨_, hlast, rfl⟩
      · exact ⟨_, hlast, rfl⟩
    · intro q o hq
      by_cases heq : q = .resolved s.calls.length
      · right
        rw [heq] at hq ⊢
        rw [hout] at hq
        exact hfound.new o hq
      · left
        rw [← hother q heq]
        exact hq
    · intro j c hc
      by_cases heq : j = s.calls.length
      · right
        subst heq
        rw [hlast] at hc
        rw [← Option.some.inj hc]
        rcases hfound.follows with ⟨hp, ho⟩ | ⟨t, c', hp, hc', hkey⟩
        · refine .inl ⟨hp, ?_⟩
          rw [hout]
          exact ho
        · have hlt : t < s.calls.length := (List.getElem?_eq_some_iff.mp hc').1
          exact .inr ⟨t, c', hp, hlt, hgrows.calls t c' hc', hkey⟩
      · left
        rw [← hbefore j heq]
        exact hc
  have hcounted : s'.Counted := by
    apply h.toCounted.call _ (fun p hp => settledCount_eq (hother p hp)) _ hstarted
    · intro x
      unfold left
      rw [hheap, (Heap.pending_register _ _).count_eq, List.count_cons,
        (Heap.pending_register _ _).count_eq, List.count_cons, hfound.pending.count_eq]
      simp only [beq_iff_eq]
    · rw [hcalls, List.length_append, List.length_singleton]
  have hstep : LocksStep s.toCreateLocks s'.toCreateLocks := by
    rw [toCreateLocks_call hfound.nextOf_eq hlast hbefore hmap hother hstarted]
    apply LocksStep.enter
    unfold toCreateLocks
    dsimp only
    rw [hnew]
    rfl
  refine ⟨⟨hwired, hcounted, ?_, ?_, hstep.inv h.locks⟩, hstep⟩
  · intro j
    rw [hother _ (by simp), hother _ (by simp), hresults]
    exact h.results j
  · intro key p hp
    rw [hmap] at hp
    by_cases heq : key = lockKey
    · rw [heq, update_self] at hp
      refine ⟨s.calls.length, _, (Option.some.inj hp).symm, hlast, heq.symm, ?_⟩
      rw [hother _ (by simp)]
      -- an open gate is that of a call that has started
      cases hgate : s.heap.outcome (.gate s.calls.length) with
      | none => rfl
      | some o =>
        have hstartedNew := (h.settles _ o hgate).2.1
        exact absurd (h.started_lt hstartedNew) (Nat.lt_irrefl _)
    · rw [update_of_ne heq] at hp
      obtain ⟨t, c, ht, hc, hkey, hopen⟩ := h.tail key p hp
      refine ⟨t, c, ht, hgrows.calls t c hc, hkey, ?_⟩
      rw [hother _ (by simp)]
      exact hopen

theorem Inv.job (h : s.Inv) {j : Job LockPromise LockHandler (Settlement α ε)}
    (ht : s.heap.take n = some (j, rest)) :
    (({ s with heap := rest } : PromiseLocks α ε).runJob j).Inv ∧
      LocksStep s.toCreateLocks
        (({ s with heap := rest } : PromiseLocks α ε).runJob j).toCreateLocks := by
  have hout := Heap.outcome_take ht
  have hpending := Heap.pending_take ht
  have hsound := h.sound.take ht
  have hmem := Heap.mem_queue_of_take ht
  cases j with
  | adopt p q =>
    obtain ⟨i, rfl, rfl, hready⟩ := h.sound.adopt p q hmem
    refine h.pass (t := .adopt (.next i) (.gate i)) ?_ ?_ ?_ (.inr ⟨rfl, rfl⟩) rfl
    · rw [Heap.outcome_register, hout]
    · exact hsound.register ⟨i, rfl, rfl, hready⟩
    · exact count_trade hpending (Heap.pending_register _ _)
  | react r o =>
    obtain ⟨p, hawaits, ho⟩ := h.sound.react r o hmem
    cases r with
    | forward q =>
      obtain ⟨i, rfl, rfl, hready⟩ := hawaits
      have hgate : (s.heap.outcome (.gate i)).isSome = true := by
        rw [ho]
        rfl
      have hfulfilled : o = .ok none := (h.settles _ o ho).1
      subst hfulfilled
      exact h.forward hout hsound hpending hready hgate rfl
    | handler k =>
      cases k with
      | finish i =>
        obtain ⟨rfl, hi⟩ := hawaits
        have hlt := h.started_lt hi
        have hc := List.getElem?_eq_getElem hlt
        exact h.finish hout hsound hpending hi ho hc (finish_eq (s := { s with heap := rest }) hc o)
      -- nothing that the lock awaits rejects
      | chain i =>
        obtain ⟨c, hc, rfl⟩ := hawaits
        have hready : s.Ready i := by
          refine ⟨c, hc, ?_⟩
          rw [ho]
          rfl
        rw [h.fulfilled hc ho]
        refine h.pass (t := .react (.handler (.chain i))) ?_ ?_ ?_ (.inl ⟨rfl, rfl⟩) rfl
        · exact hout
        · exact hsound.adopt_queued ⟨i, rfl, rfl, hready⟩
        · exact count_trade hpending (Heap.pending_adopt _ _)
      | start i =>
        obtain ⟨c, hc, rfl⟩ := hawaits
        have hready : s.Ready i := by
          refine ⟨c, hc, ?_⟩
          rw [ho]
          rfl
        rw [h.fulfilled hc ho]
        exact h.start hout hsound hpending hready rfl

/-- Every step keeps the invariant, and is one of the create locks or none of them. -/
theorem Inv.step (h : s.Inv) {e : Event α ε} {s' : PromiseLocks α ε}
    (he : s.step e = some s') : s'.Inv ∧ LocksStep s.toCreateLocks s'.toCreateLocks := by
  cases e with
  | call lockKey => exact h.call lockKey (Option.some.inj he).symm
  | job n =>
    obtain ⟨⟨j, rest⟩, ht, hs'⟩ := Option.map_eq_some_iff.mp he
    rw [← hs']
    exact h.job ht
  | settle i o =>
    obtain ⟨⟨hi, hbody⟩, hs'⟩ := Option.ite_none_right_eq_some.mp he
    exact h.body hi hbody (Option.some.inj hs').symm

theorem init_inv : (init : PromiseLocks α ε).Inv where
  sound := Heap.sound_empty
  settles _ _ hp := nomatch hp
  follows _ _ hc := nomatch hc
  starts _ := rfl
  finishes _ := rfl
  links _ hlt := nomatch hlt
  results _ := rfl
  tail _ _ hp := nomatch hp
  locks := CreateLocks.init_inv

theorem inv_of_run {es : List (Event α ε)} (hrun : Transitions.run step init es = some s) :
    s.Inv :=
  Transitions.run_inv (fun _ _ _ h he => (h.step he).1) init_inv hrun

/-- Every run of the promises is a run of the create locks. -/
theorem refines_createLocks {es : List (Event α ε)}
    (hrun : Transitions.run step init es = some s) :
    Relation.ReflTransGen LocksStep CreateLocks.init s.toCreateLocks := by
  have hinit : (init : PromiseLocks α ε).toCreateLocks = CreateLocks.init := rfl
  have hboth : s.Inv ∧ Relation.ReflTransGen LocksStep CreateLocks.init s.toCreateLocks := by
    apply Transitions.run_inv _ ⟨init_inv, hinit ▸ .refl⟩ hrun
    intro s e s' hs he
    have hstep := hs.1.step he
    exact ⟨hstep.1, hs.2.tail hstep.2⟩
  exact hboth.2

end Turns

end PromiseLocks

end TimeOff
