import TimeOff.EventLoop

/-! Which functions a publish on an event can still come to, and what a step makes of them: only
a subscription adds any, and only those are called. -/
namespace TimeOff

open Transitions

namespace EventLoop

variable {H P : Type} [DecidableEq H] {m m' : EventLoop H P} {a : LoopEvent H P}
  {e : String} {i : ℕ} {f : Fn H}

/-- The function is registered for the event, in the set `i`. -/
def Listens (m : EventLoop H P) (e : String) (i : ℕ) (f : Fn H) : Prop :=
  m.bus.listeners e = some i ∧ some f ∈ m.bus.sets i

/-- The function is registered for the event or stands before a publish on it that is under
way. -/
def Reaches (m : EventLoop H P) (e : String) (i : ℕ) (f : Fn H) : Prop :=
  m.Listens e i f ∨ ∃ pos, (e, i, pos) ∈ m.walks ∧ SlotSet.Ahead (m.bus.sets i) pos f

omit [DecidableEq H] in
theorem Reaches.setRef (h : m.Reaches e i f) : m.SetRef e i := by
  rcases h with ⟨hset, _⟩ | ⟨pos, hwalk, _⟩
  · exact .inl hset
  · exact .inr ⟨pos, hwalk⟩

omit [DecidableEq H] in
/-- The function that a publish has come to. -/
theorem reaches_of_slot {set pos notified : ℕ} {payload : P} {stack : List (Frame H P)}
    (htop : m.stack = .publishing e set pos payload notified :: stack)
    (hslot : (m.bus.sets set)[pos]? = some (some f)) : m.Reaches e set f := by
  refine .inr ⟨pos, ?_, (SlotSet.ahead_iff hslot).mpr (.inl rfl)⟩
  rw [walks_of_top htop]
  exact List.mem_cons_self

/-- A walk through a set meets what it would have met, and what is subscribed meanwhile. -/
theorem Turn.of_ahead (h : Turn m a m') (hs : m.Sound) (href : m.SetRef e i) {pos : ℕ}
    (hahead : SlotSet.Ahead (m'.bus.sets i) pos f) :
    SlotSet.Ahead (m.bus.sets i) pos f ∨ m.Subscribes e f a := by
  have hlt : i < m.bus.allocated := hs.sets.lt href
  cases h with
  | subscribed e₀ h =>
    by_cases hnew : f = .handler h ∧ m.bus.listeners e₀ = some i
    · exact .inr ⟨hs.sets.inj (.inl hnew.2) href, hnew.1⟩
    · exact .inl ((EventBus.ahead_register hlt (not_and_or.mp hnew)).mp hahead)
  | subscribedOnce e₀ h =>
    by_cases hnew : f = .wrapper m.bus.allocated e₀ h ∧ m.bus.listeners e₀ = some i
    · have he : e₀ = e := hs.sets.inj (.inl hnew.2) href
      exact .inr ⟨he, by rw [hnew.1, he]⟩
    · left
      have hlt' : i < (m.bus.track h (.wrapper m.bus.allocated e₀ h)).allocated :=
        Nat.lt_succ_of_lt hlt
      exact (EventBus.ahead_register hlt' (not_and_or.mp hnew)).mp hahead
  | unsubscribed c e₀ h => exact .inl (EventBus.ahead_unsubscribe.mp hahead).1
  | cleared name => exact .inl (by simpa using hahead)
  | unheard e₀ payload => exact .inl (by simpa using hahead)
  | published e₀ payload => exact .inl (by simpa using hahead)
  | delivered e₀ set pos' payload notified stack g =>
    exact .inl (EventBus.of_enter_ahead hahead)
  | played e₀ past k len g => exact .inl (EventBus.of_enter_ahead hahead)
  | _ => exact .inl hahead

/-- The listeners of an event were its listeners before, but for the one subscribed. -/
theorem Turn.of_listed (h : Turn m a m') (hs : m.Sound) (hset : m'.bus.listeners e = some i)
    (hf : some f ∈ m'.bus.sets i) : m.Listens e i f ∨ m.Subscribes e f a := by
  -- a set that was there already is covered by the walk from its first slot
  have hold (hset : m.bus.listeners e = some i) : m.Listens e i f ∨ m.Subscribes e f a := by
    rcases h.of_ahead hs (.inl hset) (SlotSet.ahead_zero.mpr hf) with hmem | hnew
    · exact .inl ⟨hset, SlotSet.ahead_zero.mp hmem⟩
    · exact .inr hnew
  cases h with
  | subscribed e₀ h =>
    rcases EventBus.mem_of_register hset (fun hset => hs.sets.lt (.inl hset)) hf with
      ⟨hset, _⟩ | hnew
    · exact hold hset
    · exact .inr ⟨hnew.1.symm, hnew.2⟩
  | subscribedOnce e₀ h =>
    have hlt (hset : (m.bus.track h (.wrapper m.bus.allocated e₀ h)).listeners e = some i) :
        i < (m.bus.track h (.wrapper m.bus.allocated e₀ h)).allocated :=
      Nat.lt_succ_of_lt (hs.sets.lt (.inl hset))
    rcases EventBus.mem_of_register hset hlt hf with ⟨hset, _⟩ | ⟨rfl, rfl⟩
    · exact hold hset
    · exact .inr ⟨rfl, rfl⟩
  | unsubscribed c e₀ h => exact hold (EventBus.of_unsubscribe_listeners hset)
  | cleared name => exact hold (EventBus.of_clear_listeners hset)
  | unheard e₀ payload => exact hold (by simpa using hset)
  | published e₀ payload => exact hold (by simpa using hset)
  | delivered e₀ set pos payload notified stack g => exact hold (EventBus.of_enter_listeners hset)
  | played e₀ past k len g => exact hold (EventBus.of_enter_listeners hset)
  | _ => exact hold hset

/-- What a publish can come to is what it could come to before, and what is subscribed. -/
theorem Turn.of_reaches (h : Turn m a m') (hs : m.Sound) (hr : m'.Reaches e i f) :
    m.Reaches e i f ∨ m.Subscribes e f a := by
  rcases hr with ⟨hset, hf⟩ | ⟨pos, hwalk, hahead⟩
  · exact (h.of_listed hs hset hf).imp_left .inl
  · rcases h.of_walk hwalk with ⟨pos', hle, hold⟩ | hset
    · rcases h.of_ahead hs (.inr ⟨pos', hold⟩) hahead with hahead | hnew
      · exact .inl (.inr ⟨pos', hold, hahead.mono hle⟩)
      · exact .inr hnew
    · rcases h.of_ahead hs (.inl hset) hahead with hahead | hnew
      · exact .inl (.inl ⟨hset, hahead.mem⟩)
      · exact .inr hnew

/-- What takes a function from the listeners of its event. A wrapper does so when it is called. -/
def Removes (m : EventLoop H P) (e : String) (i : ℕ) (f : Fn H) : LoopEvent H P → Prop
  | .call (.unsubscribe e₀ h) | .call (.unsubscriber e₀ h) =>
    m.bus.listeners e₀ = some i ∧ f = m.bus.lookup (.handler h)
  | .call (.clear name) => EventBus.Clears name e
  | .next =>
    (∃ e₀ set pos payload notified stack,
        m.stack = .publishing e₀ set pos payload notified :: stack ∧
        (m.bus.sets set)[pos]? = some (some f)) ∨
      ∃ e₀ past k len stack payload, m.stack = .replaying e₀ past k len f :: stack ∧ k < len ∧
        (m.bus.arrays past)[k]? = some payload
  | _ => False

/-- Whatever else happens, a listener stays one. -/
theorem Turn.listens (h : Turn m a m') (hs : m.Sound) (hl : m.Listens e i f) :
    m'.Listens e i f ∨ m.Removes e i f a := by
  obtain ⟨hset, hf⟩ := hl
  have hlt : i < m.bus.allocated := hs.sets.lt (.inl hset)
  cases h with
  | subscribed e₀ h =>
    have hmem : some f ∈ (m.bus.register e₀ (.handler h)).sets i := by
      rw [EventBus.register_sets hlt]
      split
      · exact SlotSet.mem_add.mpr (.inl hf)
      · exact hf
    exact .inl ⟨EventBus.register_listeners_of hset, hmem⟩
  | subscribedOnce e₀ h =>
    let tracked := m.bus.track h (.wrapper m.bus.allocated e₀ h)
    have hlt' : i < tracked.allocated := Nat.lt_succ_of_lt hlt
    have hmem : some f ∈ (tracked.register e₀ (.wrapper m.bus.allocated e₀ h)).sets i := by
      rw [EventBus.register_sets hlt']
      split
      · exact SlotSet.mem_add.mpr (.inl hf)
      · exact hf
    exact .inl ⟨EventBus.register_listeners_of (b := tracked) hset, hmem⟩
  | unsubscribed c e₀ h hidle hc =>
    by_cases hremoved : m.bus.listeners e₀ = some i ∧ f = m.bus.lookup (.handler h)
    · right
      rcases hc with rfl | rfl
      · exact hremoved
      · exact hremoved
    · left
      have hmem : some f ∈ (m.bus.unsubscribe e₀ (.handler h)).sets i :=
        EventBus.ahead_unsubscribe.mpr ⟨SlotSet.ahead_zero.mpr hf, hremoved⟩
      exact ⟨EventBus.unsubscribe_listeners hset hmem, hmem⟩
  | cleared name =>
    by_cases hclears : EventBus.Clears name e
    · exact .inr hclears
    · exact .inl ⟨(EventBus.clear_listeners hclears).trans hset, by simpa using hf⟩
  | unheard e₀ payload => exact .inl ⟨by simpa using hset, by simpa using hf⟩
  | published e₀ payload => exact .inl ⟨by simpa using hset, by simpa using hf⟩
  | delivered e₀ set pos payload notified stack g htop hslot =>
    by_cases hfg : f = g
    · subst hfg
      exact .inr (.inl ⟨e₀, set, pos, payload, notified, stack, htop, hslot⟩)
    · left
      have hmem : some f ∈ (m.bus.enter g).sets i :=
        (EventBus.ahead_enter_of_ne hfg).mpr (SlotSet.ahead_zero.mpr hf)
      exact ⟨EventBus.enter_listeners hset hmem, hmem⟩
  | played e₀ past k len g stack payload htop hmore hslot =>
    by_cases hfg : f = g
    · subst hfg
      exact .inr (.inr ⟨e₀, past, k, len, stack, payload, htop, hmore, hslot⟩)
    · left
      have hmem : some f ∈ (m.bus.enter g).sets i :=
        (EventBus.ahead_enter_of_ne hfg).mpr (SlotSet.ahead_zero.mpr hf)
      exact ⟨EventBus.enter_listeners hset hmem, hmem⟩
  | _ => exact .inl ⟨hset, hf⟩

/-- A replay of the event for the function is due or under way. -/
def Scheduled (m : EventLoop H P) (e : String) (f : Fn H) : Prop :=
  (∃ r ∈ m.bus.immediates, r.eventName = e ∧ r.handler = f) ∨
    ∃ past k len, .replaying e past k len f ∈ m.stack

omit [DecidableEq H] in
theorem scheduled_of_top {past k len : ℕ} {stack : List (Frame H P)}
    (htop : m.stack = .replaying e past k len f :: stack) : m.Scheduled e f :=
  .inr ⟨past, k, len, htop ▸ List.mem_cons_self⟩

theorem Turn.of_playing (h : Turn m a m') {past k len : ℕ}
    (hframe : .replaying e past k len f ∈ m'.stack) : m.Scheduled e f := by
  have htail {frame : Frame H P} {stack : List (Frame H P)} (htop : m.stack = frame :: stack)
      (hmem : .replaying e past k len f ∈ stack) : m.Scheduled e f :=
    .inr ⟨past, k, len, htop ▸ List.mem_cons_of_mem _ hmem⟩
  cases h with
  | published e' payload set =>
    rcases List.mem_cons.mp hframe with heq | hold
    · cases heq
    · exact .inr ⟨past, k, len, hold⟩
  | finished e' set pos payload notified stack htop => exact htail htop hframe
  | skipped e' set pos payload notified stack htop =>
    rcases List.mem_cons.mp hframe with heq | hold
    · cases heq
    · exact htail htop hold
  | delivered e' set pos payload notified stack f' htop =>
    rcases List.mem_cons.mp hframe with heq | hold
    · cases heq
    · rcases List.mem_cons.mp hold with heq | hold
      · cases heq
      · exact htail htop hold
  | playedOut e' past' k' len' f' stack htop => exact htail htop hframe
  | missing e' past' k' len' f' stack htop =>
    rcases List.mem_cons.mp hframe with heq | hold
    · cases heq
      exact scheduled_of_top htop
    · exact htail htop hold
  | played e' past' k' len' f' stack payload htop =>
    rcases List.mem_cons.mp hframe with heq | hold
    · cases heq
    · rcases List.mem_cons.mp hold with heq | hold
      · cases heq
        exact scheduled_of_top htop
      · exact htail htop hold
  | returned handler stack htop => exact htail htop hframe
  | thrown handler frame stack htop => exact htail htop (List.mem_cons_of_mem _ hframe)
  | ticked r rest hempty hdue =>
    cases List.mem_singleton.mp hframe
    exact .inl ⟨r, hdue ▸ List.mem_cons_self, rfl, rfl⟩
  | _ => exact .inr ⟨past, k, len, hframe⟩

/-- Only a subscription schedules a replay. -/
theorem Turn.of_scheduled (h : Turn m a m') (hf : m'.Scheduled e f) :
    m.Scheduled e f ∨ m.Subscribes e f a := by
  rcases hf with ⟨r, hr, rfl, rfl⟩ | ⟨past, k, len, hframe⟩
  · rcases h.of_due hr with hold | hsub
    · exact .inl (.inl ⟨r, hold, rfl, rfl⟩)
    · exact .inr hsub.2
  · exact .inl (h.of_playing hframe)

/-- A step calls one function at most: one that a publish had come to, or one that a replay
is for. -/
theorem Turn.invocations (h : Turn m a m') :
    m'.invocations = m.invocations ∨
      (∃ e i f payload, m.Reaches e i f ∧
        m'.invocations = m.invocations ++ [⟨f.target, e, payload, false⟩]) ∨
      ∃ e f payload, m.Scheduled e f ∧
        m'.invocations = m.invocations ++ [⟨f.target, e, payload, true⟩] := by
  cases h with
  | delivered e set pos payload notified stack f htop hslot =>
    right
    left
    exact ⟨e, set, f, payload, reaches_of_slot htop hslot, rfl⟩
  | played e past k len f stack payload htop =>
    exact .inr (.inr ⟨e, f, payload, scheduled_of_top htop, rfl⟩)
  | _ => exact .inl rfl

theorem invocations_prefix {events : List (LoopEvent H P)} (h : run step m events = some m') :
    m.invocations <+: m'.invocations := by
  apply run_inv (I := fun s => m.invocations <+: s.invocations) _ List.prefix_rfl h
  intro s b s' hpre hstep
  rcases (turn_of_step hstep).invocations with hsame | ⟨_, _, _, _, _, hnew⟩ |
    ⟨_, _, _, _, hnew⟩
  · rw [hsame]
    exact hpre
  · rw [hnew]
    exact hpre.trans (List.prefix_append _ _)
  · rw [hnew]
    exact hpre.trans (List.prefix_append _ _)

end EventLoop

end TimeOff
