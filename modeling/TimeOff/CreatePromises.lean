import TimeOff.Promises
import TimeOff.CreateLock
import TimeOff.Transitions

/-! `_withCreateLock` on its promises: arrivals, turns of the job queue and the bodies' ends, in
any order. Every step is one of the create locks, or none of them, so the locks' invariant
holds. -/
namespace TimeOff

open Promises Function

/-- The promises of a call of `_withCreateLock`. -/
inductive LockPromise where
  /-- `Promise.resolve()`. -/
  | resolved (i : ℕ)
  | gate (i : ℕ)
  | next (i : ℕ)
  /-- The promise of `fn()`. -/
  | body (i : ℕ)
deriving DecidableEq

inductive LockHandler where
  /-- `() => gate`. -/
  | chain (i : ℕ)
  /-- The code after `await previous`. -/
  | start (i : ℕ)
  /-- The code after `await fn()`. -/
  | finish (i : ℕ)
deriving DecidableEq

/-- How a promise settles; `none` stands for `undefined`. -/
abbrev Settlement (α ε : Type) := Except ε (Option α)

structure LockCall where
  lockKey : String
  previous : LockPromise

/-- The map of the locks, the promises, and the calls so far. -/
structure PromiseLocks (α ε : Type) where
  createLocks : String → Option LockPromise
  heap : Heap LockPromise LockHandler (Settlement α ε)
  calls : List LockCall
  /-- The calls whose `fn` has been called, in that order. -/
  started : List ℕ
  /-- How the calls have settled. -/
  results : ℕ → Option (Settlement α ε)

namespace PromiseLocks

variable {α ε : Type}

def init : PromiseLocks α ε := ⟨fun _ => none, .empty, [], [], fun _ => none⟩

section Steps

/-- `this._createLocks.get(lockKey) || Promise.resolve()`. -/
def getPrevious (s : PromiseLocks α ε) (lockKey : String) :
    LockPromise × Heap LockPromise LockHandler (Settlement α ε) :=
  match s.createLocks lockKey with
  | some previous => (previous, s.heap)
  | none => (.resolved s.calls.length, s.heap.settle (.resolved s.calls.length) (.ok none))

/-- A call, up to `await previous`. -/
def withCreateLock (s : PromiseLocks α ε) (lockKey : String) : PromiseLocks α ε :=
  let i := s.calls.length
  let (previous, heap) := s.getPrevious lockKey
  { s with
    heap := (heap.register previous (.handler (.chain i))).register previous (.handler (.start i))
    createLocks := update s.createLocks lockKey (some (.next i))
    calls := s.calls ++ [⟨lockKey, previous⟩] }

/-- The `finally` block, after which the call settles as its body has. -/
def finish (s : PromiseLocks α ε) (i : ℕ) (o : Settlement α ε) : PromiseLocks α ε :=
  match s.calls[i]? with
  | some c =>
    { s with
      heap := s.heap.settle (.gate i) (.ok none)
      createLocks :=
        if s.createLocks c.lockKey = some (.next i) then update s.createLocks c.lockKey none
        else s.createLocks
      results := update s.results i (some o) }
  | none => s

def handle (s : PromiseLocks α ε) : LockHandler → Settlement α ε → PromiseLocks α ε
  | .chain i, .ok _ => { s with heap := s.heap.adopt (.next i) (.gate i) }
  | .chain i, .error e => { s with heap := s.heap.settle (.next i) (.error e) }
  | .start i, .ok _ =>
    { s with
      started := s.started ++ [i]
      heap := s.heap.register (.body i) (.handler (.finish i)) }
  -- `await previous` throws before the `try`
  | .start i, .error e => { s with results := update s.results i (some (.error e)) }
  | .finish i, o => s.finish i o

def runJob (s : PromiseLocks α ε) :
    Job LockPromise LockHandler (Settlement α ε) → PromiseLocks α ε
  | .react (.handler h) o => s.handle h o
  | .react (.forward p) o => { s with heap := s.heap.settle p o }
  | .adopt p q => { s with heap := s.heap.register q (.forward p) }

inductive Event (α ε : Type) where
  | call (lockKey : String)
  /-- The job at a place of the queue: the language takes the first. -/
  | job (n : ℕ)
  /-- A body that runs fulfils or rejects. -/
  | settle (i : ℕ) (o : Settlement α ε)

def step (s : PromiseLocks α ε) : Event α ε → Option (PromiseLocks α ε)
  | .call lockKey => some (s.withCreateLock lockKey)
  | .job n => (s.heap.take n).map fun (j, heap) => { s with heap := heap }.runJob j
  | .settle i o =>
    if i ∈ s.started ∧ s.heap.outcome (.body i) = none then
      some { s with heap := s.heap.settle (.body i) o }
    else none

/-- The body of the call is between its start and its settlement. -/
def Running (s : PromiseLocks α ε) (i : ℕ) (lockKey : String) : Prop :=
  (s.calls[i]?).map LockCall.lockKey = some lockKey ∧ i ∈ s.started ∧
    s.heap.outcome (.body i) = none

end Steps

section Locks

/-- The call whose `next` a promise is. -/
def nextOf : LockPromise → Option ℕ
  | .next i => some i
  | _ => none

/-- The create locks that the promises make up. -/
def toCreateLocks (s : PromiseLocks α ε) : CreateLocks where
  tail lockKey := (s.createLocks lockKey).bind nextOf
  lane i := (s.calls[i]?).map LockCall.lockKey
  previous i := (s.calls[i]?).bind fun c => nextOf c.previous
  entered i := decide (i ∈ s.started)
  released i := (s.heap.outcome (.gate i)).isSome
  settled i := (s.heap.outcome (.next i)).isSome

/-- A step of the create locks, or none. -/
inductive LocksStep (l : CreateLocks) : CreateLocks → Prop where
  | stay : LocksStep l l
  | enter (i : ℕ) (lockKey : String) (h : l.lane i = none) : LocksStep l (l.enter i lockKey)
  | awaitPrevious (i : ℕ) (l' : CreateLocks) (hi : l.lane i ≠ none)
    (h : l.awaitPrevious i = some l') : LocksStep l l'
  | release (i : ℕ) (lockKey : String) (h : l.Holds i lockKey) :
    LocksStep l (l.release i lockKey)
  | settle (i : ℕ) (l' : CreateLocks) (h : l.settle i = some l') : LocksStep l l'

theorem LocksStep.inv {l l' : CreateLocks} (hstep : LocksStep l l') (h : l.Inv) : l'.Inv := by
  cases hstep with
  | stay => exact h
  | enter i lockKey hi => exact h.enter lockKey hi
  | awaitPrevious i l' hi hl => exact h.awaitPrevious hl hi
  | release i lockKey hi => exact h.release hi
  | settle i l' hl => exact h.settle hl

end Locks

section Invariant

variable (s : PromiseLocks α ε)

/-- What the call awaits is settled. -/
def Ready (i : ℕ) : Prop :=
  ∃ c, s.calls[i]? = some c ∧ (s.heap.outcome c.previous).isSome = true

/-- The promises at which the reactions of the calls may wait. -/
def Awaits : LockPromise → Reaction LockPromise LockHandler → Prop
  | p, .handler (.chain i) => ∃ c, s.calls[i]? = some c ∧ c.previous = p
  | p, .handler (.start i) => ∃ c, s.calls[i]? = some c ∧ c.previous = p
  | p, .handler (.finish i) => p = .body i ∧ i ∈ s.started
  | p, .forward q => ∃ i, q = .next i ∧ p = .gate i ∧ s.Ready i

def Adopts (p q : LockPromise) : Prop := ∃ i, p = .next i ∧ q = .gate i ∧ s.Ready i

/-- The promises of the lock only fulfil, and not before those they rest on. -/
def Settles : LockPromise → Settlement α ε → Prop
  | .resolved _, o => o = .ok none
  | .gate i, o => o = .ok none ∧ i ∈ s.started ∧ (s.heap.outcome (.body i)).isSome = true
  | .next i, o => o = .ok none ∧ s.Ready i ∧ (s.heap.outcome (.gate i)).isSome = true
  | .body i, _ => i ∈ s.started

/-- A call awaits a fresh promise, or the `next` of an earlier call with its key. -/
def Follows (i : ℕ) (c : LockCall) : Prop :=
  (c.previous = .resolved i ∧ (s.heap.outcome (.resolved i)).isSome = true) ∨
    ∃ j c', c.previous = .next j ∧ j < i ∧ s.calls[j]? = some c' ∧ c'.lockKey = c.lockKey

def left (t : Pending LockPromise LockHandler) : ℕ := s.heap.pending.count t

def settledCount (p : LockPromise) : ℕ := if (s.heap.outcome p).isSome then 1 else 0

/-- What waits, what is queued and what is settled rest on one another. -/
structure Wired : Prop where
  sound : s.heap.Sound s.Awaits s.Adopts
  settles : ∀ p o, s.heap.outcome p = some o → s.Settles p o
  follows : ∀ i c, s.calls[i]? = some c → s.Follows i c

/-- What is pending for the calls. -/
structure Counted : Prop where
  /-- Every call has its start before it or behind it, once. -/
  starts : ∀ i, s.left (.react (.handler (.start i))) + s.started.count i =
    if i < s.calls.length then 1 else 0
  finishes : ∀ i, s.left (.react (.handler (.finish i))) + s.settledCount (.gate i) =
    s.started.count i
  /-- The way from `previous` to `next` is never lost. -/
  links : ∀ i, i < s.calls.length →
    1 ≤ s.left (.react (.handler (.chain i))) + s.left (.adopt (.next i) (.gate i)) +
      s.left (.react (.forward (.next i))) + s.settledCount (.next i)

structure Inv : Prop extends s.Wired, s.Counted where
  results : ∀ i, s.results i =
    if (s.heap.outcome (.gate i)).isSome then s.heap.outcome (.body i) else none
  /-- The map holds the `next` of calls that have not finished. -/
  tail : ∀ lockKey p, s.createLocks lockKey = some p → ∃ t c, p = .next t ∧
    s.calls[t]? = some c ∧ c.lockKey = lockKey ∧ s.heap.outcome (.gate t) = none
  locks : s.toCreateLocks.Inv

/-- Calls, starts and settlements stay. -/
structure Grows (s' : PromiseLocks α ε) : Prop where
  calls : ∀ (i : ℕ) c, s.calls[i]? = some c → s'.calls[i]? = some c
  started : ∀ i, i ∈ s.started → i ∈ s'.started
  outcome : ∀ p o, s.heap.outcome p = some o → s'.heap.outcome p = some o

variable {s} {s' : PromiseLocks α ε}

theorem Grows.isSome (h : s.Grows s') {p : LockPromise}
    (hp : (s.heap.outcome p).isSome = true) : (s'.heap.outcome p).isSome = true := by
  obtain ⟨o, ho⟩ := Option.isSome_iff_exists.mp hp
  rw [h.outcome p o ho]
  rfl

theorem Grows.ready (h : s.Grows s') {i : ℕ} (hi : s.Ready i) : s'.Ready i := by
  obtain ⟨c, hc, hp⟩ := hi
  exact ⟨c, h.calls i c hc, h.isSome hp⟩

theorem Grows.awaits (h : s.Grows s') {p : LockPromise} {r : Reaction LockPromise LockHandler}
    (hr : s.Awaits p r) : s'.Awaits p r := by
  have hcall (i : ℕ) (hi : ∃ c, s.calls[i]? = some c ∧ c.previous = p) :
      ∃ c, s'.calls[i]? = some c ∧ c.previous = p := by
    obtain ⟨c, hc, hp⟩ := hi
    exact ⟨c, h.calls i c hc, hp⟩
  cases r with
  | handler k =>
    cases k with
    | chain i => exact hcall i hr
    | start i => exact hcall i hr
    | finish i => exact ⟨hr.1, h.started i hr.2⟩
  | forward q =>
    obtain ⟨i, hq, hp, hi⟩ := hr
    exact ⟨i, hq, hp, h.ready hi⟩

theorem Grows.adopts (h : s.Grows s') {p q : LockPromise} (ha : s.Adopts p q) :
    s'.Adopts p q := by
  obtain ⟨i, hp, hq, hi⟩ := ha
  exact ⟨i, hp, hq, h.ready hi⟩

theorem Grows.settles (h : s.Grows s') {p : LockPromise} {o : Settlement α ε}
    (hs : s.Settles p o) : s'.Settles p o := by
  cases p with
  | resolved i => exact hs
  | gate i => exact ⟨hs.1, h.started i hs.2.1, h.isSome hs.2.2⟩
  | next i => exact ⟨hs.1, h.ready hs.2.1, h.isSome hs.2.2⟩
  | body i => exact h.started i hs

theorem Grows.follows (h : s.Grows s') {i : ℕ} {c : LockCall} (hf : s.Follows i c) :
    s'.Follows i c := by
  rcases hf with ⟨hp, ho⟩ | ⟨j, c', hp, hlt, hc', hkey⟩
  · exact .inl ⟨hp, h.isSome ho⟩
  · exact .inr ⟨j, c', hp, hlt, h.calls j c' hc', hkey⟩

theorem Grows.sound (h : s.Grows s') {heap : Heap LockPromise LockHandler (Settlement α ε)}
    (hs : heap.Sound s.Awaits s.Adopts) : heap.Sound s'.Awaits s'.Adopts :=
  hs.mono (fun _ _ => h.awaits) fun _ _ => h.adopts

/-- Only what is new in a step has to be checked. -/
theorem Wired.grow (h : s.Wired) (hgrows : s.Grows s')
    (hsound : s'.heap.Sound s'.Awaits s'.Adopts)
    (hnew : ∀ p o, s'.heap.outcome p = some o → s.heap.outcome p = some o ∨ s'.Settles p o)
    (hcalls : ∀ (i : ℕ) c, s'.calls[i]? = some c → s.calls[i]? = some c ∨ s'.Follows i c) :
    s'.Wired := by
  refine ⟨hsound, ?_, ?_⟩
  · intro p o hp
    rcases hnew p o hp with hold | hsettles
    · exact hgrows.settles (h.settles p o hold)
    · exact hsettles
  · intro i c hc
    rcases hcalls i c hc with hold | hfollows
    · exact hgrows.follows (h.follows i c hold)
    · exact hfollows

end Invariant

end PromiseLocks

end TimeOff
