import TimeOff.EventBus
import TimeOff.Transitions

/-! The bus under everything that may call it: top-level code, the handlers that a publish or a
replay is calling, and the replays of later turns. A handler may use the bus before it returns
or throws, so that publishes and replays nest. -/
namespace TimeOff

open Transitions

/-- A call that has not returned. `publish` and the `forEach` of a replay are loops that stand
where the handler they have called will leave them. -/
inductive Frame (H P : Type)
  | publishing (eventName : String) (set pos : ℕ) (payload : P) (notified : ℕ)
  | replaying (eventName : String) (past k len : ℕ) (handler : Fn H)
  | running (handler : H)

/-- A call that a handler has received. -/
structure Invocation (H P : Type) where
  handler : H
  eventName : String
  payload : P
  replayed : Bool
deriving DecidableEq

/-- The bus with the calls under way, the innermost first. The calls of handlers and of `publish`
so far, and what `publish` returned, are kept beside it. -/
structure EventLoop (H P : Type) where
  bus : EventBus H P
  stack : List (Frame H P)
  invocations : List (Invocation H P)
  published : List (String × P)
  returned : List ℕ

/-- `unsubscriber` is a call of the function that `subscribe` returned; a handler that is not a
function is `none`. -/
inductive BusCall (H P : Type)
  | subscribe (eventName : String) (handler : Option H)
  | subscribeOnce (eventName : String) (handler : Option H)
  | unsubscribe (eventName : String) (handler : H)
  | unsubscriber (eventName : String) (handler : H)
  | publish (eventName : String) (payload : P)
  | clear (eventName : Option String)

inductive LoopEvent (H P : Type)
  | call (c : BusCall H P)
  | next
  | leave
  | throw
  | tick

namespace EventLoop

variable {H P : Type}

def new (historyMaxSize : ℕ) : EventLoop H P := ⟨.new historyMaxSize, [], [], [], []⟩

/-- No loop of the bus is waiting to go on: top-level code or a handler has control. -/
def idle (m : EventLoop H P) : Bool :=
  match m.stack with
  | [] | .running _ :: _ => true
  | _ => false

variable [DecidableEq H]

def invoke (m : EventLoop H P) (f : Fn H) (eventName : String) (payload : P) (replayed : Bool) :
    EventLoop H P :=
  { m with
    bus := m.bus.enter f
    stack := .running f.target :: m.stack
    invocations := m.invocations ++ [⟨f.target, eventName, payload, replayed⟩] }

/-- A call of the bus. One that throws has changed nothing. -/
def perform (m : EventLoop H P) : BusCall H P → EventLoop H P
  | .subscribe e handler =>
    match m.bus.subscribe e (handler.map .handler) with
    | .ok (_, bus) => { m with bus }
    | .error _ => m
  | .subscribeOnce e handler =>
    match m.bus.subscribeOnce e handler with
    | .ok bus => { m with bus }
    | .error _ => m
  | .unsubscribe e h => { m with bus := m.bus.unsubscribe e (.handler h) }
  | .unsubscriber e h => { m with bus := Unsubscribe.call ⟨e, .handler h⟩ m.bus }
  | .publish e payload =>
    let bus := m.bus.record e payload
    let published := m.published ++ [(e, payload)]
    match bus.audience e with
    | none => { m with bus, published, returned := m.returned ++ [0] }
    | some set => { m with bus, published, stack := .publishing e set 0 payload 0 :: m.stack }
  | .clear name => { m with bus := m.bus.clear name }

/-- The innermost loop goes on by one slot of its set, or one index of its array. -/
def next (m : EventLoop H P) : Option (EventLoop H P) :=
  match m.stack with
  | .publishing e set pos payload notified :: stack =>
    match (m.bus.sets set)[pos]? with
    | none => some { m with stack, returned := m.returned ++ [notified] }
    | some none => some { m with stack := .publishing e set (pos + 1) payload notified :: stack }
    | some (some f) =>
      some ({ m with stack := .publishing e set (pos + 1) payload (notified + 1) :: stack }.invoke
        f e payload false)
  | .replaying e past k len f :: stack =>
    if k < len then
      match (m.bus.arrays past)[k]? with
      | none => some { m with stack := .replaying e past (k + 1) len f :: stack }
      | some payload =>
        some ({ m with stack := .replaying e past (k + 1) len f :: stack }.invoke f e payload true)
    else some { m with stack }
  | _ => none

def step (m : EventLoop H P) : LoopEvent H P → Option (EventLoop H P)
  | .call c => if m.idle then some (m.perform c) else none
  | .next => m.next
  | .leave =>
    match m.stack with
    | .running _ :: stack => some { m with stack }
    | _ => none
  -- the loop that called the handler does not catch
  | .throw =>
    match m.stack with
    | .running _ :: _ :: stack => some { m with stack }
    | _ => none
  -- `forEach` looks up the length of the array once
  | .tick =>
    match m.stack, m.bus.immediates with
    | [], r :: rest =>
      some { m with
        bus := { m.bus with immediates := rest }
        stack := [.replaying r.eventName r.past 0 (m.bus.arrays r.past).length r.handler] }
    | _, _ => none

/-- What a step does, by the calls under way. -/
inductive Turn (m : EventLoop H P) : LoopEvent H P → EventLoop H P → Prop
  | refused (c : BusCall H P) (e : String) (idle : m.idle)
    (not_a_function : c = .subscribe e none ∨ c = .subscribeOnce e none) : Turn m (.call c) m
  | subscribed (e : String) (h : H) (idle : m.idle) :
    Turn m (.call (.subscribe e (some h))) { m with bus := m.bus.register e (.handler h) }
  | subscribedOnce (e : String) (h : H) (idle : m.idle) :
    Turn m (.call (.subscribeOnce e (some h)))
      { m with
        bus := (m.bus.track h (.wrapper m.bus.allocated e h)).register e
          (.wrapper m.bus.allocated e h) }
  | unsubscribed (c : BusCall H P) (e : String) (h : H) (idle : m.idle)
    (by_handler : c = .unsubscribe e h ∨ c = .unsubscriber e h) :
    Turn m (.call c) { m with bus := m.bus.unsubscribe e (.handler h) }
  | cleared (name : Option String) (idle : m.idle) :
    Turn m (.call (.clear name)) { m with bus := m.bus.clear name }
  | unheard (e : String) (payload : P) (idle : m.idle)
    (audience : (m.bus.record e payload).audience e = none) :
    Turn m (.call (.publish e payload))
      { m with
        bus := m.bus.record e payload
        published := m.published ++ [(e, payload)]
        returned := m.returned ++ [0] }
  | published (e : String) (payload : P) (set : ℕ) (idle : m.idle)
    (audience : (m.bus.record e payload).audience e = some set) :
    Turn m (.call (.publish e payload))
      { m with
        bus := m.bus.record e payload
        published := m.published ++ [(e, payload)]
        stack := .publishing e set 0 payload 0 :: m.stack }
  | finished (e : String) (set pos : ℕ) (payload : P) (notified : ℕ) (stack : List (Frame H P))
    (top : m.stack = .publishing e set pos payload notified :: stack)
    (slot : (m.bus.sets set)[pos]? = none) :
    Turn m .next { m with stack, returned := m.returned ++ [notified] }
  | skipped (e : String) (set pos : ℕ) (payload : P) (notified : ℕ) (stack : List (Frame H P))
    (top : m.stack = .publishing e set pos payload notified :: stack)
    (slot : (m.bus.sets set)[pos]? = some none) :
    Turn m .next { m with stack := .publishing e set (pos + 1) payload notified :: stack }
  | delivered (e : String) (set pos : ℕ) (payload : P) (notified : ℕ) (stack : List (Frame H P))
    (f : Fn H) (top : m.stack = .publishing e set pos payload notified :: stack)
    (slot : (m.bus.sets set)[pos]? = some (some f)) :
    Turn m .next
      ({ m with stack := .publishing e set (pos + 1) payload (notified + 1) :: stack }.invoke
        f e payload false)
  | playedOut (e : String) (past k len : ℕ) (f : Fn H) (stack : List (Frame H P))
    (top : m.stack = .replaying e past k len f :: stack) (spent : len ≤ k) :
    Turn m .next { m with stack }
  | missing (e : String) (past k len : ℕ) (f : Fn H) (stack : List (Frame H P))
    (top : m.stack = .replaying e past k len f :: stack) (more : k < len)
    (slot : (m.bus.arrays past)[k]? = none) :
    Turn m .next { m with stack := .replaying e past (k + 1) len f :: stack }
  | played (e : String) (past k len : ℕ) (f : Fn H) (stack : List (Frame H P)) (payload : P)
    (top : m.stack = .replaying e past k len f :: stack) (more : k < len)
    (slot : (m.bus.arrays past)[k]? = some payload) :
    Turn m .next
      ({ m with stack := .replaying e past (k + 1) len f :: stack }.invoke f e payload true)
  | returned (h : H) (stack : List (Frame H P)) (top : m.stack = .running h :: stack) :
    Turn m .leave { m with stack }
  | thrown (h : H) (frame : Frame H P) (stack : List (Frame H P))
    (top : m.stack = .running h :: frame :: stack) : Turn m .throw { m with stack }
  | ticked (r : Replay H) (rest : List (Replay H)) (empty : m.stack = [])
    (due : m.bus.immediates = r :: rest) :
    Turn m .tick
      { m with
        bus := { m.bus with immediates := rest }
        stack := [.replaying r.eventName r.past 0 (m.bus.arrays r.past).length r.handler] }

variable {m m' : EventLoop H P} {a : LoopEvent H P}

theorem turn_of_call {c : BusCall H P} (idle : m.idle) : Turn m (.call c) (m.perform c) := by
  cases c with
  | subscribe e handler =>
    cases handler with
    | none => exact .refused _ e idle (.inl rfl)
    | some h => exact .subscribed e h idle
  | subscribeOnce e handler =>
    cases handler with
    | none => exact .refused _ e idle (.inr rfl)
    | some h => exact .subscribedOnce e h idle
  | unsubscribe e h => exact .unsubscribed _ e h idle (.inl rfl)
  | unsubscriber e h => exact .unsubscribed _ e h idle (.inr rfl)
  | publish e payload =>
    unfold perform
    cases haudience : (m.bus.record e payload).audience e with
    | none =>
      simp only [haudience]
      exact .unheard e payload idle haudience
    | some set =>
      simp only [haudience]
      exact .published e payload set idle haudience
  | clear name => exact .cleared name idle

theorem turn_of_next (h : m.next = some m') : Turn m .next m' := by
  unfold next at h
  split at h
  · next e set pos payload notified stack htop =>
    split at h
    · next hslot =>
      cases h
      exact .finished e set pos payload notified stack htop hslot
    · next hslot =>
      cases h
      exact .skipped e set pos payload notified stack htop hslot
    · next f hslot =>
      cases h
      exact .delivered e set pos payload notified stack f htop hslot
  · next e past k len f stack htop =>
    split at h
    · next hmore =>
      split at h
      · next hslot =>
        cases h
        exact .missing e past k len f stack htop hmore hslot
      · next payload hslot =>
        cases h
        exact .played e past k len f stack payload htop hmore hslot
    · next hover =>
      cases h
      exact .playedOut e past k len f stack htop (not_lt.mp hover)
  · cases h

theorem next_of_turn (h : Turn m .next m') : m.next = some m' := by
  cases h with
  | finished e set pos payload notified stack htop hslot => simp [next, htop, hslot]
  | skipped e set pos payload notified stack htop hslot => simp [next, htop, hslot]
  | delivered e set pos payload notified stack f htop hslot => simp [next, htop, hslot]
  | playedOut e past k len f stack htop hover => simp [next, htop, not_lt.mpr hover]
  | missing e past k len f stack htop hmore hslot => simp [next, htop, hmore, hslot]
  | played e past k len f stack payload htop hmore hslot => simp [next, htop, hmore, hslot]

theorem turn_of_step (h : m.step a = some m') : Turn m a m' := by
  cases a with
  | call c =>
    simp only [step] at h
    split at h
    · next idle =>
      cases h
      exact turn_of_call idle
    · cases h
  | next => exact turn_of_next h
  | leave =>
    simp only [step] at h
    split at h
    · next handler stack htop =>
      cases h
      exact .returned handler stack htop
    · cases h
  | throw =>
    simp only [step] at h
    split at h
    · next handler frame stack htop =>
      cases h
      exact .thrown handler frame stack htop
    · cases h
  | tick =>
    simp only [step] at h
    split at h
    · next r rest hempty hdue =>
      cases h
      exact .ticked r rest hempty hdue
    · cases h

/-- The function that an event of the loop subscribes to `e`. -/
def Subscribes (m : EventLoop H P) (e : String) (f : Fn H) : LoopEvent H P → Prop
  | .call (.subscribe e' (some h)) => e' = e ∧ f = .handler h
  | .call (.subscribeOnce e' (some h)) => e' = e ∧ f = .wrapper m.bus.allocated e h
  | _ => False

section Refs

/-- An event has the references `ref` to objects among the first `n`, and no other event has. -/
structure Owned (ref : String → ℕ → Prop) (n : ℕ) : Prop where
  lt : ∀ {e i}, ref e i → i < n
  inj : ∀ {e e' i}, ref e i → ref e' i → e = e'

/-- New references are to new objects and of one event. -/
def Grows (ref ref' : String → ℕ → Prop) (n n' : ℕ) : Prop :=
  n ≤ n' ∧ ∃ e₀, ∀ e i, ref' e i → ref e i ∨ n ≤ i ∧ i < n' ∧ e = e₀

theorem Owned.grow {ref ref' : String → ℕ → Prop} {n n' : ℕ} (h : Owned ref n)
    (hgrow : Grows ref ref' n n') : Owned ref' n' := by
  obtain ⟨hle, e₀, hnew⟩ := hgrow
  constructor
  · intro e i hi
    rcases hnew e i hi with hold | ⟨_, hlt, _⟩
    · exact (h.lt hold).trans_le hle
    · exact hlt
  · intro e e' i hi hi'
    rcases hnew e i hi with hold | ⟨hge, _, he⟩
    · rcases hnew e' i hi' with hold' | ⟨hge', _, _⟩
      · exact h.inj hold hold'
      · exact absurd (h.lt hold) (not_lt.mpr hge')
    · rcases hnew e' i hi' with hold' | ⟨_, _, he'⟩
      · exact absurd (h.lt hold') (not_lt.mpr hge)
      · exact he.trans he'.symm

/-- The set that a publish walks, and how far it has come. -/
def Frame.walk : Frame H P → Option (String × ℕ × ℕ)
  | .publishing e set pos _ _ => some (e, set, pos)
  | _ => none

/-- The array that a replay walks. -/
def Frame.pastRef : Frame H P → Option (String × ℕ)
  | .replaying e past _ _ _ => some (e, past)
  | _ => none

def walks (m : EventLoop H P) : List (String × ℕ × ℕ) := m.stack.filterMap Frame.walk

omit [DecidableEq H] in
theorem walks_of_top {e : String} {set pos notified : ℕ} {payload : P}
    {stack : List (Frame H P)}
    (htop : m.stack = .publishing e set pos payload notified :: stack) :
    m.walks = (e, set, pos) :: stack.filterMap Frame.walk := by
  unfold walks
  rw [htop]
  rfl

/-- A set of an event: its listeners now, or when a publish under way began. -/
def SetRef (m : EventLoop H P) (e : String) (i : ℕ) : Prop :=
  m.bus.listeners e = some i ∨ ∃ pos, (e, i, pos) ∈ m.walks

/-- An array of an event: its history now, or when a replay was scheduled. -/
def PastRef (m : EventLoop H P) (e : String) (i : ℕ) : Prop :=
  m.bus.history e = some i ∨ (e, i) ∈ m.bus.immediates.map (fun r => (r.eventName, r.past)) ∨
    (e, i) ∈ m.stack.filterMap Frame.pastRef

/-- Objects belong to one event each, a set holds no function twice, and the wrappers that are
tracked are wrappers of the handlers they are tracked for. -/
structure Sound (m : EventLoop H P) : Prop where
  sets : Owned m.SetRef m.bus.allocated
  pasts : Owned m.PastRef m.bus.allocated
  distinct : ∀ i, SlotSet.Distinct (m.bus.sets i)
  tracked : ∀ {h f}, m.bus.onceListeners h = some f → ∃ id e, f = .wrapper id e h

omit [DecidableEq H] in
theorem audience_listeners {b : EventBus H P} {e : String} {set : ℕ}
    (h : b.audience e = some set) : b.listeners e = some set :=
  (Option.filter_eq_some_iff.mp h).1

omit [DecidableEq H] in
/-- A publish on an event that has a listener calls the set of the event. -/
theorem audience_record {b : EventBus H P} {e : String} {set : ℕ} {f : Fn H} (payload : P)
    (hset : b.listeners e = some set) (hf : some f ∈ b.sets set) :
    (b.record e payload).audience e = some set := by
  have hsize : SlotSet.size (b.sets set) ≠ 0 :=
    fun hzero => SlotSet.size_eq_zero.mp hzero f hf
  unfold EventBus.audience
  rw [EventBus.record_listeners, EventBus.record_sets]
  exact Option.filter_eq_some_iff.mpr ⟨hset, decide_eq_true hsize⟩

theorem Turn.allocated_le (h : Turn m a m') : m.bus.allocated ≤ m'.bus.allocated := by
  cases h with
  | subscribed e h => exact m.bus.allocated_le_register e _
  | subscribedOnce e h =>
    have hle := (m.bus.track h (.wrapper m.bus.allocated e h)).allocated_le_register e
      (.wrapper m.bus.allocated e h)
    exact (Nat.le_succ _).trans hle
  | unsubscribed c e h => exact (EventBus.unsubscribe_allocated _ _ _).ge
  | cleared name => exact EventBus.clear_allocated.ge
  | unheard e payload => exact m.bus.allocated_le_record e payload
  | published e payload => exact m.bus.allocated_le_record e payload
  | delivered e set pos payload notified stack f => exact (EventBus.enter_allocated _ f).ge
  | played e past k len f => exact (EventBus.enter_allocated _ f).ge
  | _ => exact le_rfl

theorem Turn.of_listeners (h : Turn m a m') : ∃ e₀, ∀ e i, m'.bus.listeners e = some i →
    m.bus.listeners e = some i ∨
      m.bus.allocated ≤ i ∧ i < m'.bus.allocated ∧ e = e₀ := by
  cases h with
  | subscribed e h => exact ⟨e, fun e' i hi => EventBus.of_register_listeners hi⟩
  | subscribedOnce e h =>
    refine ⟨e, fun e' i hi => ?_⟩
    rcases EventBus.of_register_listeners hi with hold | ⟨hle, hnew⟩
    · exact .inl hold
    · exact .inr ⟨(Nat.le_succ _).trans hle, hnew⟩
  | unsubscribed c e h => exact ⟨e, fun e' i hi => .inl (EventBus.of_unsubscribe_listeners hi)⟩
  | cleared name => exact ⟨"", fun e i hi => .inl (EventBus.of_clear_listeners hi)⟩
  | unheard e payload => exact ⟨e, fun e' i hi => .inl (by simpa using hi)⟩
  | published e payload => exact ⟨e, fun e' i hi => .inl (by simpa using hi)⟩
  | delivered e set pos payload notified stack f =>
    exact ⟨e, fun e' i hi => .inl (EventBus.of_enter_listeners hi)⟩
  | played e past k len f => exact ⟨e, fun e' i hi => .inl (EventBus.of_enter_listeners hi)⟩
  | _ => exact ⟨"", fun e i hi => .inl hi⟩

/-- The publishes under way are some of those before; or the innermost has gone on by a slot; or
one has begun. -/
theorem Turn.walks_cases (h : Turn m a m') :
    m'.walks.Sublist m.walks ∨
      (∃ e i pos rest, m.walks = (e, i, pos) :: rest ∧ m'.walks = (e, i, pos + 1) :: rest) ∨
      ∃ e i, m.bus.listeners e = some i ∧ m'.walks = (e, i, 0) :: m.walks := by
  unfold walks
  cases h with
  | published e payload set idle haudience =>
    have hset := audience_listeners haudience
    rw [EventBus.record_listeners] at hset
    exact .inr (.inr ⟨e, set, hset, rfl⟩)
  | finished e set pos payload notified stack htop =>
    rw [htop]
    exact .inl ((stack.sublist_cons_self _).filterMap _)
  | skipped e set pos payload notified stack htop =>
    rw [htop]
    exact .inr (.inl ⟨e, set, pos, _, rfl, rfl⟩)
  | delivered e set pos payload notified stack f htop =>
    rw [htop]
    exact .inr (.inl ⟨e, set, pos, _, rfl, rfl⟩)
  | playedOut e past k len f stack htop =>
    rw [htop]
    exact .inl (List.Sublist.refl _)
  | missing e past k len f stack htop =>
    rw [htop]
    exact .inl (List.Sublist.refl _)
  | played e past k len f stack payload htop =>
    rw [htop]
    exact .inl (List.Sublist.refl _)
  | returned handler stack htop =>
    rw [htop]
    exact .inl (List.Sublist.refl _)
  | thrown handler frame stack htop =>
    rw [htop]
    exact .inl ((stack.sublist_cons_self _).filterMap _)
  | ticked r rest => exact .inl (List.nil_sublist _)
  | _ => exact .inl (List.Sublist.refl _)

/-- A publish under way was under way before, and no farther, or begins with the listeners. -/
theorem Turn.of_walk (h : Turn m a m') {e : String} {i pos : ℕ}
    (hwalk : (e, i, pos) ∈ m'.walks) :
    (∃ pos' ≤ pos, (e, i, pos') ∈ m.walks) ∨ m.bus.listeners e = some i := by
  rcases h.walks_cases with hsub | ⟨e', i', pos', rest, hm, hm'⟩ | ⟨e', i', hset, hm'⟩
  · exact .inl ⟨pos, le_rfl, hsub.subset hwalk⟩
  · rw [hm'] at hwalk
    rw [hm]
    left
    rcases List.mem_cons.mp hwalk with heq | hold
    · cases heq
      exact ⟨pos', Nat.le_succ _, List.mem_cons_self⟩
    · exact ⟨pos, le_rfl, List.mem_cons_of_mem _ hold⟩
  · rw [hm'] at hwalk
    rcases List.mem_cons.mp hwalk with heq | hold
    · cases heq
      exact .inr hset
    · exact .inl ⟨pos, le_rfl, hold⟩

theorem Turn.setRef_grows (h : Turn m a m') :
    Grows m.SetRef m'.SetRef m.bus.allocated m'.bus.allocated := by
  obtain ⟨e₀, hset⟩ := h.of_listeners
  refine ⟨h.allocated_le, e₀, fun e i hi => ?_⟩
  rcases hi with hi | ⟨pos, hwalk⟩
  · exact (hset e i hi).imp_left .inl
  · left
    rcases h.of_walk hwalk with ⟨pos', _, hold⟩ | hset
    · exact .inr ⟨pos', hold⟩
    · exact .inl hset

theorem Turn.of_history (h : Turn m a m') : ∃ e₀, ∀ e i, m'.bus.history e = some i →
    m.bus.history e = some i ∨
      m.bus.allocated ≤ i ∧ i < m'.bus.allocated ∧ e = e₀ := by
  cases h with
  | cleared name => exact ⟨"", fun e i hi => .inl (EventBus.of_clear_history hi)⟩
  | unheard e payload => exact ⟨e, fun e' i hi => EventBus.of_record_history hi⟩
  | published e payload => exact ⟨e, fun e' i hi => EventBus.of_record_history hi⟩
  | subscribed e h => exact ⟨"", fun e' i hi => .inl (by simpa using hi)⟩
  | subscribedOnce e h =>
    refine ⟨"", fun e' i hi => .inl ?_⟩
    rw [EventBus.register_history] at hi
    exact hi
  | unsubscribed c e h => exact ⟨"", fun e' i hi => .inl (by simpa using hi)⟩
  | delivered e set pos payload notified stack f =>
    exact ⟨"", fun e' i hi => .inl (by simpa [invoke] using hi)⟩
  | played e past k len f => exact ⟨"", fun e' i hi => .inl (by simpa [invoke] using hi)⟩
  | _ => exact ⟨"", fun e i hi => .inl hi⟩

/-- Only a subscription schedules a replay, of what is the history of its event then. -/
theorem Turn.of_due (h : Turn m a m') {r : Replay H} (hr : r ∈ m'.bus.immediates) :
    r ∈ m.bus.immediates ∨
      m.bus.history r.eventName = some r.past ∧ m.Subscribes r.eventName r.handler a := by
  cases h with
  | subscribed e h =>
    rw [EventBus.register_immediates, List.mem_append] at hr
    refine hr.imp_right fun hnew => ?_
    obtain ⟨_, hpast, rfl, hhandler⟩ := EventBus.mem_replays.mp hnew
    exact ⟨hpast, rfl, hhandler⟩
  | subscribedOnce e h =>
    rw [EventBus.register_immediates, List.mem_append] at hr
    refine hr.imp_right fun hnew => ?_
    obtain ⟨_, hpast, rfl, hhandler⟩ := EventBus.mem_replays.mp hnew
    exact ⟨hpast, rfl, hhandler⟩
  | unsubscribed c e h => exact .inl (by simpa using hr)
  | cleared name => exact .inl (by simpa using hr)
  | unheard e payload => exact .inl (by simpa using hr)
  | published e payload => exact .inl (by simpa using hr)
  | delivered e set pos payload notified stack f => exact .inl (by simpa [invoke] using hr)
  | played e past k len f => exact .inl (by simpa [invoke] using hr)
  | ticked r' rest hempty hdue =>
    rw [hdue]
    exact .inl (List.mem_cons_of_mem r' hr)
  | _ => exact .inl hr

theorem Turn.of_stack_pastRef (h : Turn m a m') {x : String × ℕ}
    (hx : x ∈ m'.stack.filterMap Frame.pastRef) :
    x ∈ m.stack.filterMap Frame.pastRef ∨
      x ∈ m.bus.immediates.map fun r => (r.eventName, r.past) := by
  cases h with
  | finished e set pos payload notified stack htop => exact .inl (htop ▸ hx)
  | skipped e set pos payload notified stack htop => exact .inl (htop ▸ hx)
  | delivered e set pos payload notified stack f htop => exact .inl (htop ▸ hx)
  | missing e past k len f stack htop => exact .inl (htop ▸ hx)
  | played e past k len f stack payload htop => exact .inl (htop ▸ hx)
  | returned handler stack htop => exact .inl (htop ▸ hx)
  | playedOut e past k len f stack htop =>
    rw [htop]
    exact .inl (((stack.sublist_cons_self _).filterMap _).subset hx)
  | thrown handler frame stack htop =>
    rw [htop]
    exact .inl (((stack.sublist_cons_self _).filterMap _).subset hx)
  | ticked r rest hempty hdue =>
    rw [hdue]
    exact .inr (List.mem_singleton.mp hx ▸ List.mem_cons_self)
  | _ => exact .inl hx

theorem Turn.pastRef_grows (h : Turn m a m') :
    Grows m.PastRef m'.PastRef m.bus.allocated m'.bus.allocated := by
  obtain ⟨e₀, hpast⟩ := h.of_history
  refine ⟨h.allocated_le, e₀, fun e i hi => ?_⟩
  rcases hi with hi | hdue | hframe
  · exact (hpast e i hi).imp_left .inl
  · obtain ⟨r, hr, heq⟩ := List.mem_map.mp hdue
    obtain ⟨rfl, rfl⟩ := Prod.ext_iff.mp heq
    rcases h.of_due hr with hold | ⟨hnow, _⟩
    · exact .inl (.inr (.inl (List.mem_map_of_mem hold)))
    · exact .inl (.inl hnow)
  · exact .inl (.inr (h.of_stack_pastRef hframe).symm)

theorem Turn.distinct (h : Turn m a m') (hd : ∀ i, SlotSet.Distinct (m.bus.sets i)) (i : ℕ) :
    SlotSet.Distinct (m'.bus.sets i) := by
  cases h with
  | subscribed e h => exact EventBus.register_distinct hd i
  | subscribedOnce e h =>
    have htrack : ∀ i, SlotSet.Distinct
        ((m.bus.track h (.wrapper m.bus.allocated e h)).sets i) := hd
    exact EventBus.register_distinct htrack i
  | unsubscribed c e h => exact EventBus.unsubscribe_distinct hd e _ i
  | cleared name => simpa using hd i
  | unheard e payload => simpa using hd i
  | published e payload => simpa using hd i
  | delivered e set pos payload notified stack f => exact EventBus.enter_distinct hd f i
  | played e past k len f => exact EventBus.enter_distinct hd f i
  | _ => exact hd i

theorem Turn.tracked (h : Turn m a m')
    (ht : ∀ {h f}, m.bus.onceListeners h = some f → ∃ id e, f = .wrapper id e h) {h' : H}
    {f : Fn H} (hf : m'.bus.onceListeners h' = some f) : ∃ id e, f = .wrapper id e h' := by
  cases h with
  | subscribed e h => exact ht (by simpa using hf)
  | subscribedOnce e h =>
    rw [EventBus.register_onceListeners] at hf
    unfold EventBus.track at hf
    dsimp only at hf
    split at hf
    · exact ht hf
    · by_cases hh : h' = h
      · rw [hh, Function.update_self] at hf
        rw [hh]
        exact ⟨_, e, (Option.some.inj hf).symm⟩
      · rw [Function.update_of_ne hh] at hf
        exact ht hf
  | unsubscribed c e h => exact ht (by simpa using hf)
  | cleared name => exact ht (by simpa using hf)
  | unheard e payload => exact ht (by simpa using hf)
  | published e payload => exact ht (by simpa using hf)
  | delivered e set pos payload notified stack f => exact ht (by simpa [invoke] using hf)
  | played e past k len f => exact ht (by simpa [invoke] using hf)
  | _ => exact ht hf

theorem Sound.turn (hs : m.Sound) (h : Turn m a m') : m'.Sound :=
  ⟨hs.sets.grow h.setRef_grows, hs.pasts.grow h.pastRef_grows, h.distinct hs.distinct,
    h.tracked hs.tracked⟩

theorem new_sound (historyMaxSize : ℕ) : (new historyMaxSize : EventLoop H P).Sound := by
  constructor
  · constructor
    · rintro e i (hset | ⟨pos, hwalk⟩)
      · cases hset
      · cases hwalk
    · rintro e e' i (hset | ⟨pos, hwalk⟩)
      · cases hset
      · cases hwalk
  · constructor
    · rintro e i (hpast | hdue | hframe)
      · cases hpast
      · cases hdue
      · cases hframe
    · rintro e e' i (hpast | hdue | hframe)
      · cases hpast
      · cases hdue
      · cases hframe
  · exact fun i => SlotSet.distinct_nil
  · intro h f hf
    cases hf

theorem sound_of_run {events : List (LoopEvent H P)} (hs : m.Sound)
    (h : run step m events = some m') : m'.Sound :=
  run_inv (fun _ _ _ hs hstep => hs.turn (turn_of_step hstep)) hs h

end Refs

end EventLoop

end TimeOff
