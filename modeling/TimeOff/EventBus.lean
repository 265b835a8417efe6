import TimeOff.SlotSet
import Mathlib.Data.List.Infix
import Mathlib.Logic.Function.Basic
import Mathlib.Order.Nat

/-! The in-process event bus. The sets of listeners and the arrays of past payloads are objects
that a publish or a replay goes on reading while the bus changes, so that they are kept by
reference. -/
namespace TimeOff

/-- A function that is subscribed: one of the user's, or the closure of one `subscribeOnce`. -/
inductive Fn (H : Type)
  | handler (h : H)
  | wrapper (id : ℕ) (eventName : String) (handler : H)
deriving DecidableEq

/-- The function of the user that a call comes to. -/
def Fn.target {H : Type} : Fn H → H
  | .handler h => h
  | .wrapper _ _ h => h

/-- A callback given to `setImmediate`, with what it has captured. -/
structure Replay (H : Type) where
  eventName : String
  past : ℕ
  handler : Fn H

/-- The function that `subscribe` returns. -/
structure Unsubscribe (H : Type) where
  eventName : String
  handler : Fn H

structure EventBus (H P : Type) where
  listeners : String → Option ℕ
  onceListeners : H → Option (Fn H)
  history : String → Option ℕ
  historyMaxSize : ℕ
  sets : ℕ → List (Option (Fn H))
  arrays : ℕ → List P
  allocated : ℕ
  immediates : List (Replay H)

structure HandlerTypeError where
  message : String
deriving DecidableEq

namespace EventBus

variable {H P : Type}

def new (historyMaxSize : ℕ) : EventBus H P :=
  { listeners := fun _ => none, onceListeners := fun _ => none, history := fun _ => none,
    historyMaxSize, sets := fun _ => [], arrays := fun _ => [], allocated := 0, immediates := [] }

def notAFunction : HandlerTypeError := ⟨"Event handler must be a function"⟩

/-- The payloads that a late subscriber to the event is played. -/
def buffered (b : EventBus H P) (eventName : String) : List P :=
  if 0 < b.historyMaxSize then (b.history eventName).elim [] b.arrays else []

/-- `_listeners.get(eventName)`, made first if it is not there. -/
def getSet (b : EventBus H P) (eventName : String) : ℕ × EventBus H P :=
  match b.listeners eventName with
  | some set => (set, b)
  | none =>
    (b.allocated,
      { b with
        listeners := Function.update b.listeners eventName (some b.allocated)
        sets := Function.update b.sets b.allocated []
        allocated := b.allocated + 1 })

/-- What `subscribe` hands to `setImmediate`. -/
def replays (b : EventBus H P) (eventName : String) (f : Fn H) : List (Replay H) :=
  if 0 < b.historyMaxSize then ((b.history eventName).map fun past => ⟨eventName, past, f⟩).toList
  else []

/-- The array of the event's past payloads, made first if it is not there. -/
def getPast (b : EventBus H P) (eventName : String) : ℕ × EventBus H P :=
  match b.history eventName with
  | some past => (past, b)
  | none =>
    (b.allocated,
      { b with
        history := Function.update b.history eventName (some b.allocated)
        arrays := Function.update b.arrays b.allocated []
        allocated := b.allocated + 1 })

/-- What `publish` does to the history. -/
def record (b : EventBus H P) (eventName : String) (payload : P) : EventBus H P :=
  if 0 < b.historyMaxSize then
    let (past, b) := b.getPast eventName
    let buf := b.arrays past ++ [payload]
    { b with
      arrays := Function.update b.arrays past
        (if b.historyMaxSize < buf.length then buf.tail else buf) }
  else b

/-- The set whose functions `publish` calls, if there are any. -/
def audience (b : EventBus H P) (eventName : String) : Option ℕ :=
  (b.listeners eventName).filter fun set => SlotSet.size (b.sets set) ≠ 0

def clear (b : EventBus H P) (eventName : Option String) : EventBus H P :=
  match eventName with
  | some name =>
    if name ≠ "" then
      { b with
        listeners := Function.update b.listeners name none
        history := Function.update b.history name none }
    else { b with listeners := fun _ => none, history := fun _ => none }
  | none => { b with listeners := fun _ => none, history := fun _ => none }

variable [DecidableEq H]

/-- `subscribe` once the handler is known to be a function. -/
def register (b : EventBus H P) (eventName : String) (f : Fn H) : EventBus H P :=
  let (set, b) := b.getSet eventName
  { b with
    sets := Function.update b.sets set (SlotSet.add (b.sets set) f)
    immediates := b.immediates ++ b.replays eventName f }

/-- `none` is a handler that is not a function. -/
def subscribe (b : EventBus H P) (eventName : String) :
    Option (Fn H) → Except HandlerTypeError (Unsubscribe H × EventBus H P)
  | none => .error notAFunction
  | some f => .ok (⟨eventName, f⟩, b.register eventName f)

/-- The bus with the new wrapper tracked, unless the handler has one from an earlier call. -/
def track (b : EventBus H P) (h : H) (wrapper : Fn H) : EventBus H P :=
  { b with
    onceListeners :=
      if (b.onceListeners h).isSome then b.onceListeners
      else Function.update b.onceListeners h (some wrapper)
    allocated := b.allocated + 1 }

def subscribeOnce (b : EventBus H P) (eventName : String) :
    Option H → Except HandlerTypeError (EventBus H P)
  | none => .error notAFunction
  | some h =>
    let wrapper := Fn.wrapper b.allocated eventName h
    ((b.track h wrapper).subscribe eventName (some wrapper)).map Prod.snd

/-- The function that is removed in place of a handler. No wrapper is itself tracked. -/
def lookup (b : EventBus H P) : Fn H → Fn H
  | .handler h => (b.onceListeners h).getD (.handler h)
  | .wrapper id eventName h => .wrapper id eventName h

def unsubscribe (b : EventBus H P) (eventName : String) (f : Fn H) : EventBus H P :=
  match b.listeners eventName with
  | none => b
  | some set =>
    let slots := SlotSet.delete (b.sets set) (b.lookup f)
    { b with
      sets := Function.update b.sets set slots
      listeners :=
        if SlotSet.size slots = 0 then Function.update b.listeners eventName none
        else b.listeners }

/-- The bus when a function comes to call its handler: a wrapper has removed itself. -/
def enter (b : EventBus H P) : Fn H → EventBus H P
  | .handler _ => b
  | .wrapper id eventName h => b.unsubscribe eventName (.wrapper id eventName h)

omit [DecidableEq H] in
/-- A reference that is left once another was dropped was there before. -/
theorem of_update_none {refs : String → Option ℕ} {e e' : String} {i : ℕ}
    (h : Function.update refs e none e' = some i) : refs e' = some i := by
  by_cases he : e' = e
  · rw [he, Function.update_self] at h
    cases h
  · rwa [Function.update_of_ne he] at h

section Register

variable {b : EventBus H P} {e e' : String} {f g : Fn H} {i : ℕ}

theorem register_listeners (b : EventBus H P) (e : String) (f : Fn H) :
    (b.register e f).listeners = Function.update b.listeners e (some (b.getSet e).1) := by
  unfold register getSet
  cases hset : b.listeners e with
  | none => rfl
  | some set => exact (Function.update_eq_self_iff.mpr hset.symm).symm

theorem allocated_le_register (b : EventBus H P) (e : String) (f : Fn H) :
    b.allocated ≤ (b.register e f).allocated := by
  cases hset : b.listeners e with
  | none => simp [register, getSet, hset]
  | some set => simp [register, getSet, hset]

theorem of_register_listeners (h : (b.register e f).listeners e' = some i) :
    b.listeners e' = some i ∨ b.allocated ≤ i ∧ i < (b.register e f).allocated ∧ e' = e := by
  rw [register_listeners] at h
  by_cases he : e' = e
  · rw [he, Function.update_self] at h
    cases hset : b.listeners e with
    | none =>
      have hi : b.allocated = i := by simpa [getSet, hset] using h
      refine .inr ⟨hi.le, ?_, he⟩
      simp [register, getSet, hset]
      omega
    | some set =>
      rw [he, hset]
      left
      simpa [getSet, hset] using h
  · rw [Function.update_of_ne he] at h
    exact .inl h

/-- The sets there were change by the new function only, in the set of its event. -/
theorem register_sets (hi : i < b.allocated) :
    (b.register e f).sets i =
      if b.listeners e = some i then SlotSet.add (b.sets i) f else b.sets i := by
  unfold register getSet
  cases hset : b.listeners e with
  | none =>
    have hne : i ≠ b.allocated := by omega
    simp [Function.update_of_ne hne]
  | some set =>
    by_cases hi : i = set
    · simp [hi]
    · simp [Function.update_of_ne hi, Ne.symm hi]

theorem register_sets_new (hset : b.listeners e = none) :
    (b.register e f).sets b.allocated = [some f] := by
  unfold register getSet
  rw [hset]
  simp [SlotSet.add]

theorem register_listens (b : EventBus H P) (e : String) (f : Fn H) :
    ∃ i, (b.register e f).listeners e = some i ∧ some f ∈ (b.register e f).sets i := by
  refine ⟨(b.getSet e).1, ?_, ?_⟩
  · rw [register_listeners, Function.update_self]
  · unfold register
    dsimp only
    rw [Function.update_self]
    exact SlotSet.mem_add.mpr (.inr rfl)

omit [DecidableEq H] in
theorem length_replays_le (b : EventBus H P) (e : String) (f : Fn H) :
    (b.replays e f).length ≤ 1 := by
  unfold replays
  split
  · cases b.history e with
    | none => exact Nat.zero_le 1
    | some past => exact le_rfl
  · exact Nat.zero_le 1

/-- A walk through a set meets the functions it would have met, and the new one in its set. -/
theorem ahead_register {pos : ℕ} (hi : i < b.allocated)
    (hne : f ≠ g ∨ b.listeners e ≠ some i) :
    SlotSet.Ahead ((b.register e g).sets i) pos f ↔ SlotSet.Ahead (b.sets i) pos f := by
  rw [register_sets hi]
  split
  · next hset => exact SlotSet.ahead_add (hne.resolve_right fun h => h hset)
  · exact Iff.rfl

theorem register_listeners_of (h : b.listeners e' = some i) :
    (b.register e g).listeners e' = some i := by
  rw [register_listeners]
  by_cases he : e' = e
  · subst he
    rw [Function.update_self]
    simp [getSet, h]
  · rwa [Function.update_of_ne he]

theorem mem_of_register (h : (b.register e g).listeners e' = some i)
    (hlt : b.listeners e' = some i → i < b.allocated)
    (hf : some f ∈ (b.register e g).sets i) :
    b.listeners e' = some i ∧ (some f ∈ b.sets i ∨ f = g ∧ b.listeners e = some i) ∨
      e' = e ∧ f = g := by
  rcases of_register_listeners h with hold | ⟨hle, hlt', he⟩
  · rw [register_sets (hlt hold)] at hf
    split at hf
    · next hset =>
      rcases SlotSet.mem_add.mp hf with hmem | hnew
      · exact .inl ⟨hold, .inl hmem⟩
      · exact .inl ⟨hold, .inr ⟨hnew, hset⟩⟩
    · exact .inl ⟨hold, .inl hf⟩
  · right
    cases hset : b.listeners e with
    | none =>
      have hi : i = b.allocated := by
        simp [register, getSet, hset] at hlt'
        omega
      rw [hi, register_sets_new hset, List.mem_singleton] at hf
      exact ⟨he, Option.some.inj hf⟩
    | some set =>
      simp [register, getSet, hset] at hlt'
      omega

theorem register_distinct (h : ∀ i, SlotSet.Distinct (b.sets i)) (i : ℕ) :
    SlotSet.Distinct ((b.register e f).sets i) := by
  have hget : ∀ i, SlotSet.Distinct ((b.getSet e).2.sets i) := by
    intro i
    unfold getSet
    split
    · exact h i
    · by_cases hi : i = b.allocated
      · subst hi
        simpa using SlotSet.distinct_nil
      · simpa [Function.update_of_ne hi] using h i
  by_cases hi : i = (b.getSet e).1
  · subst hi
    simpa [register] using (hget _).add f
  · simpa [register, Function.update_of_ne hi] using hget i

@[simp] theorem register_immediates (b : EventBus H P) (e : String) (f : Fn H) :
    (b.register e f).immediates = b.immediates ++ b.replays e f := by
  cases hset : b.listeners e with
  | none => simp [register, getSet, replays, hset]
  | some set => simp [register, getSet, hset]

@[simp] theorem register_history (b : EventBus H P) (e : String) (f : Fn H) :
    (b.register e f).history = b.history := by
  cases hset : b.listeners e with
  | none => simp [register, getSet, hset]
  | some set => simp [register, getSet, hset]

@[simp] theorem register_arrays (b : EventBus H P) (e : String) (f : Fn H) :
    (b.register e f).arrays = b.arrays := by
  cases hset : b.listeners e with
  | none => simp [register, getSet, hset]
  | some set => simp [register, getSet, hset]

@[simp] theorem register_onceListeners (b : EventBus H P) (e : String) (f : Fn H) :
    (b.register e f).onceListeners = b.onceListeners := by
  cases hset : b.listeners e with
  | none => simp [register, getSet, hset]
  | some set => simp [register, getSet, hset]

@[simp] theorem register_historyMaxSize (b : EventBus H P) (e : String) (f : Fn H) :
    (b.register e f).historyMaxSize = b.historyMaxSize := by
  cases hset : b.listeners e with
  | none => simp [register, getSet, hset]
  | some set => simp [register, getSet, hset]

omit [DecidableEq H] in
theorem mem_replays {r : Replay H} : r ∈ b.replays e f ↔
    0 < b.historyMaxSize ∧ b.history e = some r.past ∧ r.eventName = e ∧ r.handler = f := by
  unfold replays
  obtain ⟨name, past, handler⟩ := r
  split
  · next hmax =>
    simp only [Option.mem_toList, Option.map_eq_some_iff, Replay.mk.injEq]
    constructor
    · rintro ⟨a, ha, rfl, rfl, rfl⟩
      exact ⟨hmax, ha, rfl, rfl⟩
    · rintro ⟨_, ha, rfl, rfl⟩
      exact ⟨past, ha, rfl, rfl, rfl⟩
  · next hmax => exact iff_of_false List.not_mem_nil fun h => hmax h.1

end Register

section Unsubscribe

variable {b : EventBus H P} {e e' : String} {f g : Fn H} {i : ℕ}

theorem unsubscribe_sets (b : EventBus H P) (e : String) (f : Fn H) (i : ℕ) :
    (b.unsubscribe e f).sets i =
      if b.listeners e = some i then SlotSet.delete (b.sets i) (b.lookup f) else b.sets i := by
  unfold unsubscribe
  cases hset : b.listeners e with
  | none => simp
  | some set =>
    by_cases hi : i = set
    · simp [hi]
    · simp [Function.update_of_ne hi, Ne.symm hi]

theorem of_unsubscribe_listeners (h : (b.unsubscribe e f).listeners e' = some i) :
    b.listeners e' = some i := by
  unfold unsubscribe at h
  cases hset : b.listeners e with
  | none => simpa [hset] using h
  | some set =>
    simp only [hset] at h
    split at h
    · exact of_update_none h
    · exact h

/-- A set that keeps a function stays the set of its event. -/
theorem unsubscribe_listeners (h : b.listeners e' = some i)
    (hg : some g ∈ (b.unsubscribe e f).sets i) : (b.unsubscribe e f).listeners e' = some i := by
  rw [unsubscribe_sets] at hg
  unfold unsubscribe
  cases hset : b.listeners e with
  | none => exact h
  | some set =>
    dsimp only
    by_cases he : e' = e
    · have hi : set = i := Option.some.inj (hset.symm.trans (he ▸ h))
      rw [hset, hi, if_pos rfl] at hg
      rw [hi, if_neg fun hsize => SlotSet.size_eq_zero.mp hsize g hg]
      exact h
    · split
      · rw [Function.update_of_ne he]
        exact h
      · exact h

theorem unsubscribe_distinct (h : ∀ i, SlotSet.Distinct (b.sets i)) (e : String) (f : Fn H)
    (i : ℕ) : SlotSet.Distinct ((b.unsubscribe e f).sets i) := by
  rw [unsubscribe_sets]
  split
  · exact (h i).delete _
  · exact h i

theorem enter_length (b : EventBus H P) (f : Fn H) (i : ℕ) :
    ((b.enter f).sets i).length = (b.sets i).length := by
  cases f with
  | handler h => rfl
  | wrapper id e h =>
    rw [enter, unsubscribe_sets]
    split
    · exact SlotSet.length_delete
    · rfl

theorem enter_distinct (h : ∀ i, SlotSet.Distinct (b.sets i)) (f : Fn H) (i : ℕ) :
    SlotSet.Distinct ((b.enter f).sets i) := by
  cases f with
  | handler h' => exact h i
  | wrapper id e h' => exact unsubscribe_distinct h e _ i

@[simp] theorem unsubscribe_history (b : EventBus H P) (e : String) (f : Fn H) :
    (b.unsubscribe e f).history = b.history := by
  cases hset : b.listeners e with
  | none => simp [unsubscribe, hset]
  | some set => simp [unsubscribe, hset]

@[simp] theorem unsubscribe_arrays (b : EventBus H P) (e : String) (f : Fn H) :
    (b.unsubscribe e f).arrays = b.arrays := by
  cases hset : b.listeners e with
  | none => simp [unsubscribe, hset]
  | some set => simp [unsubscribe, hset]

@[simp] theorem unsubscribe_immediates (b : EventBus H P) (e : String) (f : Fn H) :
    (b.unsubscribe e f).immediates = b.immediates := by
  cases hset : b.listeners e with
  | none => simp [unsubscribe, hset]
  | some set => simp [unsubscribe, hset]

@[simp] theorem unsubscribe_onceListeners (b : EventBus H P) (e : String) (f : Fn H) :
    (b.unsubscribe e f).onceListeners = b.onceListeners := by
  cases hset : b.listeners e with
  | none => simp [unsubscribe, hset]
  | some set => simp [unsubscribe, hset]

@[simp] theorem unsubscribe_allocated (b : EventBus H P) (e : String) (f : Fn H) :
    (b.unsubscribe e f).allocated = b.allocated := by
  cases hset : b.listeners e with
  | none => simp [unsubscribe, hset]
  | some set => simp [unsubscribe, hset]

@[simp] theorem unsubscribe_historyMaxSize (b : EventBus H P) (e : String) (f : Fn H) :
    (b.unsubscribe e f).historyMaxSize = b.historyMaxSize := by
  cases hset : b.listeners e with
  | none => simp [unsubscribe, hset]
  | some set => simp [unsubscribe, hset]

/-- A walk through a set meets what it would have met, but for the function removed. -/
theorem ahead_unsubscribe {pos : ℕ} :
    SlotSet.Ahead ((b.unsubscribe e f).sets i) pos g ↔
      SlotSet.Ahead (b.sets i) pos g ∧ ¬ (b.listeners e = some i ∧ g = b.lookup f) := by
  rw [unsubscribe_sets]
  split
  · next hset =>
    rw [SlotSet.ahead_delete]
    exact and_congr_right fun _ => ⟨fun hne h => hne h.2, fun h heq => h ⟨hset, heq⟩⟩
  · next hset => exact (and_iff_left fun h => hset h.1).symm

theorem ahead_enter_of_ne {pos : ℕ} (hne : g ≠ f) :
    SlotSet.Ahead ((b.enter f).sets i) pos g ↔ SlotSet.Ahead (b.sets i) pos g := by
  cases f with
  | handler h => exact Iff.rfl
  | wrapper id e h =>
    rw [enter, ahead_unsubscribe]
    exact and_iff_left fun h => hne h.2

/-- What a call does before the handler runs removes no handler. -/
theorem ahead_enter_handler {pos : ℕ} {h : H} :
    SlotSet.Ahead ((b.enter f).sets i) pos (.handler h) ↔
      SlotSet.Ahead (b.sets i) pos (.handler h) := by
  cases f with
  | handler h' => exact Iff.rfl
  | wrapper id e h' => exact ahead_enter_of_ne (by simp)

theorem of_enter_ahead {pos : ℕ} (h : SlotSet.Ahead ((b.enter f).sets i) pos g) :
    SlotSet.Ahead (b.sets i) pos g := by
  cases f with
  | handler h' => exact h
  | wrapper id e h' => exact (ahead_unsubscribe.mp h).1

/-- A wrapper is gone from the set that its event then has. -/
theorem ahead_enter_wrapper {id : ℕ} {h : H} {pos : ℕ}
    (hahead : SlotSet.Ahead ((b.enter (.wrapper id e h)).sets i) pos (.wrapper id e h)) :
    SlotSet.Ahead (b.sets i) pos (.wrapper id e h) ∧ b.listeners e ≠ some i := by
  have hold := ahead_unsubscribe.mp hahead
  exact ⟨hold.1, fun hset => hold.2 ⟨hset, rfl⟩⟩

theorem of_enter_listeners (h : (b.enter f).listeners e' = some i) :
    b.listeners e' = some i := by
  cases f with
  | handler h' => exact h
  | wrapper id e h' => exact of_unsubscribe_listeners h

theorem enter_listeners (h : b.listeners e' = some i) (hg : some g ∈ (b.enter f).sets i) :
    (b.enter f).listeners e' = some i := by
  cases f with
  | handler h' => exact h
  | wrapper id e h' => exact unsubscribe_listeners h hg

@[simp] theorem enter_history (b : EventBus H P) (f : Fn H) :
    (b.enter f).history = b.history := by
  cases f with
  | handler h => rfl
  | wrapper id e h => exact unsubscribe_history b e _

@[simp] theorem enter_arrays (b : EventBus H P) (f : Fn H) :
    (b.enter f).arrays = b.arrays := by
  cases f with
  | handler h => rfl
  | wrapper id e h => exact unsubscribe_arrays b e _

@[simp] theorem enter_immediates (b : EventBus H P) (f : Fn H) :
    (b.enter f).immediates = b.immediates := by
  cases f with
  | handler h => rfl
  | wrapper id e h => exact unsubscribe_immediates b e _

@[simp] theorem enter_onceListeners (b : EventBus H P) (f : Fn H) :
    (b.enter f).onceListeners = b.onceListeners := by
  cases f with
  | handler h => rfl
  | wrapper id e h => exact unsubscribe_onceListeners b e _

@[simp] theorem enter_allocated (b : EventBus H P) (f : Fn H) :
    (b.enter f).allocated = b.allocated := by
  cases f with
  | handler h => rfl
  | wrapper id e h => exact unsubscribe_allocated b e _

@[simp] theorem enter_historyMaxSize (b : EventBus H P) (f : Fn H) :
    (b.enter f).historyMaxSize = b.historyMaxSize := by
  cases f with
  | handler h => rfl
  | wrapper id e h => exact unsubscribe_historyMaxSize b e _

end Unsubscribe

section Record

variable {b : EventBus H P} {e e' : String} {payload : P} {i : ℕ}

omit [DecidableEq H]

theorem record_eq (b : EventBus H P) (e : String) (payload : P) :
    ∃ history arrays allocated,
      b.record e payload = { b with history, arrays, allocated } := by
  unfold record getPast
  split
  · cases b.history e with
    | none => exact ⟨_, _, _, rfl⟩
    | some past => exact ⟨_, _, _, rfl⟩
  · exact ⟨_, _, _, rfl⟩

@[simp] theorem record_listeners : (b.record e payload).listeners = b.listeners := by
  obtain ⟨history, arrays, allocated, hrecord⟩ := b.record_eq e payload
  rw [hrecord]

@[simp] theorem record_onceListeners : (b.record e payload).onceListeners = b.onceListeners := by
  obtain ⟨history, arrays, allocated, hrecord⟩ := b.record_eq e payload
  rw [hrecord]

@[simp] theorem record_historyMaxSize : (b.record e payload).historyMaxSize = b.historyMaxSize := by
  obtain ⟨history, arrays, allocated, hrecord⟩ := b.record_eq e payload
  rw [hrecord]

@[simp] theorem record_sets : (b.record e payload).sets = b.sets := by
  obtain ⟨history, arrays, allocated, hrecord⟩ := b.record_eq e payload
  rw [hrecord]

@[simp] theorem record_immediates : (b.record e payload).immediates = b.immediates := by
  obtain ⟨history, arrays, allocated, hrecord⟩ := b.record_eq e payload
  rw [hrecord]

theorem allocated_le_record (b : EventBus H P) (e : String) (payload : P) :
    b.allocated ≤ (b.record e payload).allocated := by
  unfold record getPast
  split
  · cases b.history e with
    | none => exact Nat.le_succ _
    | some past => exact le_rfl
  · exact le_rfl

theorem of_record_history (h : (b.record e payload).history e' = some i) :
    b.history e' = some i ∨
      b.allocated ≤ i ∧ i < (b.record e payload).allocated ∧ e' = e := by
  unfold record getPast at h ⊢
  split at h
  · cases hpast : b.history e with
    | none =>
      simp only [hpast] at h ⊢
      by_cases he : e' = e
      · rw [he, Function.update_self] at h
        have hi : b.allocated = i := Option.some.inj h
        have hmax : 0 < b.historyMaxSize := by assumption
        rw [if_pos hmax]
        have hlt : i < b.allocated + 1 := by omega
        exact .inr ⟨hi.le, hlt, he⟩
      · rw [Function.update_of_ne he] at h
        exact .inl h
    | some past =>
      simp only [hpast] at h
      exact .inl h
  · exact .inl h

/-- Only the array of the event changes. -/
theorem record_arrays (hi : i < b.allocated) (h : b.history e ≠ some i) :
    (b.record e payload).arrays i = b.arrays i := by
  unfold record getPast
  split
  · cases hpast : b.history e with
    | none =>
      have hne : i ≠ b.allocated := by omega
      simp [Function.update_of_ne hne]
    | some past =>
      have hne : i ≠ past := fun heq => h (heq ▸ hpast)
      simp [Function.update_of_ne hne]
  · rfl

/-- The history of the event gets the payload, and may lose its oldest ones. -/
theorem record_buffered :
    (b.record e payload).buffered e <:+ b.buffered e ++ [payload] := by
  unfold buffered
  rw [record_historyMaxSize]
  split
  · next hmax =>
    unfold record getPast
    rw [if_pos hmax]
    cases hpast : b.history e with
    | none =>
      simp only [Function.update_self, List.nil_append, Function.update_idem, Option.elim_some,
        Option.elim_none]
      split
      · exact List.nil_suffix
      · exact List.suffix_rfl
    | some past =>
      simp only [hpast, Option.elim_some, Function.update_self]
      split
      · exact List.tail_suffix _
      · exact List.suffix_rfl
  · exact List.nil_suffix

theorem record_buffered_of_ne (hlt : ∀ i, b.history e' = some i → i < b.allocated)
    (hne : ∀ i, b.history e' = some i → b.history e ≠ some i) (he : e' ≠ e) :
    (b.record e payload).buffered e' = b.buffered e' := by
  have hhistory : (b.record e payload).history e' = b.history e' := by
    unfold record getPast
    split
    · cases hpast : b.history e with
      | none => exact Function.update_of_ne he _ _
      | some past => rfl
    · rfl
  unfold buffered
  rw [record_historyMaxSize, hhistory]
  cases hpast : b.history e' with
  | none => rfl
  | some past =>
    show (if _ then (b.record e payload).arrays past else []) = if _ then b.arrays past else []
    rw [record_arrays (hlt past hpast) (hne past hpast)]

end Record

section Clear

variable {b : EventBus H P} {name : Option String} {e : String} {i : ℕ}

omit [DecidableEq H]

/-- The events that `clear` is about: all of them if the name is empty or left out. -/
def Clears (name : Option String) (e : String) : Prop :=
  name = none ∨ name = some "" ∨ name = some e

theorem clear_eq (b : EventBus H P) (name : Option String) :
    ∃ listeners history, b.clear name = { b with listeners, history } := by
  unfold clear
  split
  · split
    · exact ⟨_, _, rfl⟩
    · exact ⟨_, _, rfl⟩
  · exact ⟨_, _, rfl⟩

@[simp] theorem clear_onceListeners : (b.clear name).onceListeners = b.onceListeners := by
  obtain ⟨listeners, history, hclear⟩ := b.clear_eq name
  rw [hclear]

@[simp] theorem clear_historyMaxSize : (b.clear name).historyMaxSize = b.historyMaxSize := by
  obtain ⟨listeners, history, hclear⟩ := b.clear_eq name
  rw [hclear]

@[simp] theorem clear_sets : (b.clear name).sets = b.sets := by
  obtain ⟨listeners, history, hclear⟩ := b.clear_eq name
  rw [hclear]

@[simp] theorem clear_arrays : (b.clear name).arrays = b.arrays := by
  obtain ⟨listeners, history, hclear⟩ := b.clear_eq name
  rw [hclear]

@[simp] theorem clear_allocated : (b.clear name).allocated = b.allocated := by
  obtain ⟨listeners, history, hclear⟩ := b.clear_eq name
  rw [hclear]

@[simp] theorem clear_immediates : (b.clear name).immediates = b.immediates := by
  obtain ⟨listeners, history, hclear⟩ := b.clear_eq name
  rw [hclear]

/-- An event loses its listeners and its history, or keeps both. -/
theorem clear_cases (b : EventBus H P) (name : Option String) (e : String) :
    Clears name e ∧ (b.clear name).listeners e = none ∧ (b.clear name).history e = none ∨
      ¬ Clears name e ∧ (b.clear name).listeners e = b.listeners e ∧
        (b.clear name).history e = b.history e := by
  unfold clear Clears
  cases name with
  | none => exact .inl ⟨.inl rfl, rfl, rfl⟩
  | some n =>
    dsimp only
    by_cases hn : n = ""
    · rw [if_neg (not_not.mpr hn)]
      exact .inl ⟨.inr (.inl (congrArg some hn)), rfl, rfl⟩
    · rw [if_pos hn]
      by_cases he : e = n
      · rw [he]
        exact .inl ⟨.inr (.inr rfl), Function.update_self _ _ _, Function.update_self _ _ _⟩
      · refine .inr ⟨?_, Function.update_of_ne he _ _, Function.update_of_ne he _ _⟩
        rintro (hnone | hempty | hname)
        · cases hnone
        · exact hn (Option.some.inj hempty)
        · exact he (Option.some.inj hname).symm

theorem of_clear_listeners (h : (b.clear name).listeners e = some i) :
    b.listeners e = some i := by
  rcases b.clear_cases name e with ⟨_, hnone, _⟩ | ⟨_, hsame, _⟩
  · rw [hnone] at h
    cases h
  · rw [← hsame, h]

theorem of_clear_history (h : (b.clear name).history e = some i) : b.history e = some i := by
  rcases b.clear_cases name e with ⟨_, _, hnone⟩ | ⟨_, _, hsame⟩
  · rw [hnone] at h
    cases h
  · rw [← hsame, h]

theorem clear_listeners (h : ¬ Clears name e) : (b.clear name).listeners e = b.listeners e := by
  rcases b.clear_cases name e with ⟨hclears, _⟩ | ⟨_, hsame, _⟩
  · exact absurd hclears h
  · exact hsame

theorem clear_buffered : (b.clear name).buffered e <:+ b.buffered e := by
  unfold buffered
  rw [clear_historyMaxSize, clear_arrays]
  cases hpast : (b.clear name).history e with
  | none => simp
  | some past =>
    rw [of_clear_history hpast]

end Clear

end EventBus

/-- The function that `subscribe` returned is called. -/
def Unsubscribe.call {H P : Type} [DecidableEq H] (u : Unsubscribe H) (b : EventBus H P) :
    EventBus H P :=
  b.unsubscribe u.eventName u.handler

end TimeOff
