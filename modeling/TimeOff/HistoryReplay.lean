import TimeOff.Unsubscribed

/-! The history of the event bus: in which runs a handler that is subscribed once receives what
was buffered then and what is published after, each payload once and in order. -/
namespace TimeOff

open Transitions

namespace EventLoop

variable {H P : Type} [DecidableEq H] {m m' : EventLoop H P} {a : LoopEvent H P}
  {e : String} {h : H}

/-- The payloads that the handler has received from the event. -/
def received (m : EventLoop H P) (e : String) (h : H) : List P :=
  (m.invocations.filter fun c => c.eventName = e ∧ c.handler = h).map (·.payload)

/-- The payloads of the event among some calls of `publish`. -/
def payloadsOf (e : String) (published : List (String × P)) : List P :=
  (published.filter (·.1 = e)).map Prod.snd

/-- The handler is taken from the event. -/
def Withdraws (e : String) (h : H) : LoopEvent H P → Prop
  | .call (.unsubscribe e' h') | .call (.unsubscriber e' h') => e' = e ∧ h' = h
  | .call (.clear name) => EventBus.Clears name e
  | _ => False

/-- A loop that has a payload of the event for the handler. -/
def Frame.Waits (b : EventBus H P) (e : String) (h : H) : Frame H P → Prop
  | .publishing e' set pos _ _ => e' = e ∧ SlotSet.Ahead (b.sets set) pos (.handler h)
  | .replaying e' _ k len f => e' = e ∧ f = .handler h ∧ k < len
  | .running _ => False

/-- A payload of the event is on its way to the handler. -/
def Awaited (m : EventLoop H P) (e : String) (h : H) : Prop :=
  (∃ r ∈ m.bus.immediates, r.eventName = e ∧ r.handler = .handler h) ∨
    ∃ frame ∈ m.stack, Frame.Waits m.bus e h frame

/-- What keeps the payloads in order. The event is published when nothing of it is on its way to
the handler; and no exception ends a loop that has something for the handler. -/
def ReplayGuarded (e : String) (h : H) (m : EventLoop H P) : LoopEvent H P → Prop
  | .call (.publish e' _) => e' = e → ¬ m.Awaited e h
  | .throw => ∀ h' frame stack, m.stack = .running h' :: frame :: stack →
      ¬ Frame.Waits m.bus e h frame
  | _ => True

/-- The payloads of the event that a loop has for the handler. -/
def Frame.left (b : EventBus H P) (e : String) (h : H) : Frame H P → List P
  | .publishing e' set pos payload _ =>
    if e' = e ∧ SlotSet.Ahead (b.sets set) pos (.handler h) then [payload] else []
  | .replaying e' past k len f =>
    if e' = e ∧ f = .handler h then ((b.arrays past).take len).drop k else []
  | .running _ => []

/-- The payloads that a replay will play to the handler once it is its turn. -/
def Replay.left (b : EventBus H P) (e : String) (h : H) (r : Replay H) : List P :=
  if r.eventName = e ∧ r.handler = .handler h then b.arrays r.past else []

/-- The payloads of the event that are on their way to the handler, in the order it will receive
them. -/
def outstanding (m : EventLoop H P) (e : String) (h : H) : List P :=
  m.stack.flatMap (Frame.left m.bus e h) ++ m.bus.immediates.flatMap (Replay.left m.bus e h)

/-- The handler is a listener of the event, by itself only, and what it has received with what
is on its way to it are the payloads `due`. -/
structure InOrder (e : String) (h : H) (due : List P) (m : EventLoop H P) : Prop where
  listens : ∃ i, m.Listens e i (.handler h)
  only : ∀ i f, m.Reaches e i f → f.target = h → f = .handler h
  scheduled : ∀ f, m.Scheduled e f → f.target = h → f = .handler h
  account : m.received e h ++ m.outstanding e h = due

theorem received_concat (c : Invocation H P) (hc : m'.invocations = m.invocations ++ [c]) :
    m'.received e h =
      m.received e h ++ if c.eventName = e ∧ c.handler = h then [c.payload] else [] := by
  unfold received
  rw [hc, List.filter_append, List.map_append]
  by_cases hh : c.eventName = e ∧ c.handler = h
  · simp [hh]
  · simp [hh]

section Left

/-- What `unsubscribe` finds in the set of the event is the handler it is called with. -/
theorem eq_of_found (hs : m.Sound) {i : ℕ} (href : m.SetRef e i) {e₀ : String} {h₀ : H}
    (hfound : m.bus.listeners e₀ = some i ∧ .handler h = m.bus.lookup (.handler h₀)) :
    e₀ = e ∧ h₀ = h := by
  refine ⟨hs.sets.inj (.inl hfound.1) href, ?_⟩
  rw [← lookup_target hs h₀, ← hfound.2]
  rfl

/-- Walks meet the handler as before, unless it is subscribed or withdrawn. -/
theorem Turn.ahead_iff (h' : Turn m a m') (hs : m.Sound) (hnew : ¬ Registers e h a)
    (hkept : ¬ Withdraws e h a) {i pos : ℕ} (href : m.SetRef e i) :
    SlotSet.Ahead (m'.bus.sets i) pos (.handler h) ↔
      SlotSet.Ahead (m.bus.sets i) pos (.handler h) := by
  constructor
  · intro hahead
    rcases h'.of_ahead hs href hahead with hold | hsub
    · exact hold
    · exact absurd hsub.registers hnew
  · intro hahead
    have hlt : i < m.bus.allocated := hs.sets.lt href
    cases h' with
    | subscribed e₀ h₀ =>
      show SlotSet.Ahead ((m.bus.register e₀ (.handler h₀)).sets i) pos (.handler h)
      rw [EventBus.register_sets hlt]
      split
      · exact hahead.add _
      · exact hahead
    | subscribedOnce e₀ h₀ =>
      let tracked := m.bus.track h₀ (.wrapper m.bus.allocated e₀ h₀)
      have hlt' : i < tracked.allocated := Nat.lt_succ_of_lt hlt
      show SlotSet.Ahead ((tracked.register e₀ _).sets i) pos (.handler h)
      rw [EventBus.register_sets hlt']
      split
      · exact hahead.add _
      · exact hahead
    | unsubscribed c e₀ h₀ hidle hc =>
      apply EventBus.ahead_unsubscribe.mpr
      refine ⟨hahead, fun hremoved => hkept ?_⟩
      have hsame := eq_of_found hs href hremoved
      rcases hc with rfl | rfl
      · exact hsame
      · exact hsame
    | cleared name => simpa using hahead
    | unheard e₀ payload => simpa using hahead
    | published e₀ payload => simpa using hahead
    | delivered e₀ set pos' payload notified stack f =>
      exact EventBus.ahead_enter_handler.mpr hahead
    | played e₀ past k len f => exact EventBus.ahead_enter_handler.mpr hahead
    | _ => exact hahead

/-- The arrays of an event change by publishing it only. -/
theorem Turn.arrays_eq (h' : Turn m a m') (hs : m.Sound) {past : ℕ} (href : m.PastRef e past)
    (hquiet : ∀ payload, a ≠ .call (.publish e payload)) :
    m'.bus.arrays past = m.bus.arrays past := by
  have hrecord (e₀ : String) (payload : P) (ha : a = .call (.publish e₀ payload)) :
      (m.bus.record e₀ payload).arrays past = m.bus.arrays past := by
    apply EventBus.record_arrays (hs.pasts.lt href)
    intro hpast
    have he : e₀ = e := hs.pasts.inj (.inl hpast) href
    exact hquiet payload (he ▸ ha)
  cases h' with
  | subscribed e₀ h₀ => exact congrFun (EventBus.register_arrays _ _ _) past
  | subscribedOnce e₀ h₀ => exact congrFun (EventBus.register_arrays _ _ _) past
  | unsubscribed c e₀ h₀ => exact congrFun (EventBus.unsubscribe_arrays _ _ _) past
  | cleared name => exact congrFun EventBus.clear_arrays past
  | unheard e₀ payload => exact hrecord e₀ payload rfl
  | published e₀ payload => exact hrecord e₀ payload rfl
  | delivered e₀ set pos payload notified stack f =>
    exact congrFun (EventBus.enter_arrays _ f) past
  | played e₀ past' k len f => exact congrFun (EventBus.enter_arrays _ f) past
  | _ => rfl

theorem left_publishing {b : EventBus H P} {e₀ : String} {set pos notified : ℕ} {payload : P} :
    Frame.left b e h (.publishing e₀ set pos payload notified) =
      if e₀ = e ∧ SlotSet.Ahead (b.sets set) pos (.handler h) then [payload] else [] := rfl

theorem left_replaying {b : EventBus H P} {e₀ : String} {past k len : ℕ} {f : Fn H} :
    Frame.left b e h (.replaying e₀ past k len f) =
      if e₀ = e ∧ f = .handler h then ((b.arrays past).take len).drop k else [] := rfl

/-- A loop that does not wait for the handler has nothing left for it. -/
theorem left_eq_nil {b : EventBus H P} {frame : Frame H P}
    (hwaits : ¬ Frame.Waits b e h frame) : Frame.left b e h frame = [] := by
  cases frame with
  | running h₀ => rfl
  | publishing e₀ set pos payload notified => exact if_neg hwaits
  | replaying e₀ past k len f =>
    rw [left_replaying]
    split
    · next hf =>
      have hspent : len ≤ k := not_lt.mp fun hmore => hwaits ⟨hf.1, hf.2, hmore⟩
      exact List.drop_eq_nil_of_le ((List.length_take_le _ _).trans hspent)
    · rfl

theorem left_short {b : EventBus H P} {e₀ : String} {past k len : ℕ} {f : Fn H}
    (hshort : (b.arrays past).length ≤ k) :
    Frame.left b e h (.replaying e₀ past k len f) = [] := by
  rw [left_replaying, List.drop_eq_nil_of_le ((List.length_take_le' _ _).trans hshort)]
  exact ite_self _

theorem left_publishing_congr {b b' : EventBus H P} {e₀ : String} {set pos pos' : ℕ}
    {notified notified' : ℕ} {payload : P}
    (hahead : e₀ = e → (SlotSet.Ahead (b'.sets set) pos' (.handler h) ↔
      SlotSet.Ahead (b.sets set) pos (.handler h))) :
    Frame.left b' e h (.publishing e₀ set pos' payload notified') =
      Frame.left b e h (.publishing e₀ set pos payload notified) :=
  if_congr (and_congr_right hahead) rfl rfl

/-- What a loop under way before a step has left after it, if it has not gone on. -/
theorem Turn.left_eq (h' : Turn m a m') (hs : m.Sound) (hnew : ¬ Registers e h a)
    (hkept : ¬ Withdraws e h a) (hguard : ReplayGuarded e h m a) {frame : Frame H P}
    (hframe : frame ∈ m.stack) :
    Frame.left m'.bus e h frame = Frame.left m.bus e h frame := by
  cases frame with
  | running h₀ => rfl
  | publishing e₀ set pos payload notified =>
    apply left_publishing_congr
    intro he
    have href : m.SetRef e set :=
      .inr ⟨pos, List.mem_filterMap.mpr ⟨_, hframe, by rw [he]; rfl⟩⟩
    exact h'.ahead_iff hs hnew hkept href
  | replaying e₀ past k len f =>
    by_cases hwaits : Frame.Waits m.bus e h (.replaying e₀ past k len f)
    · have href : m.PastRef e past :=
        .inr (.inr (List.mem_filterMap.mpr ⟨_, hframe, by rw [hwaits.1]; rfl⟩))
      have hquiet : ∀ payload, a ≠ .call (.publish e payload) := by
        rintro payload rfl
        exact hguard rfl (.inr ⟨_, hframe, hwaits⟩)
      rw [left_replaying, left_replaying, h'.arrays_eq hs href hquiet]
    · have hwaits' : ¬ Frame.Waits m'.bus e h (.replaying e₀ past k len f) := hwaits
      rw [left_eq_nil hwaits, left_eq_nil hwaits']

theorem Turn.flatMap_left_eq (h' : Turn m a m') (hs : m.Sound) (hnew : ¬ Registers e h a)
    (hkept : ¬ Withdraws e h a) (hguard : ReplayGuarded e h m a) {stack : List (Frame H P)}
    (hstack : stack ⊆ m.stack) :
    stack.flatMap (Frame.left m'.bus e h) = stack.flatMap (Frame.left m.bus e h) :=
  List.flatMap_congr fun _ hframe => h'.left_eq hs hnew hkept hguard (hstack hframe)

/-- What the replays that were due before a step have left after it. -/
theorem Turn.due_left_eq (h' : Turn m a m') (hs : m.Sound) (hguard : ReplayGuarded e h m a)
    {due : List (Replay H)} (hdue : due ⊆ m.bus.immediates) :
    due.flatMap (Replay.left m'.bus e h) = due.flatMap (Replay.left m.bus e h) := by
  apply List.flatMap_congr
  intro r hr
  unfold Replay.left
  by_cases hf : r.eventName = e ∧ r.handler = .handler h
  · rw [if_pos hf, if_pos hf]
    have href : m.PastRef e r.past :=
      .inr (.inl (List.mem_map.mpr ⟨r, hdue hr, by rw [hf.1]⟩))
    apply h'.arrays_eq hs href
    rintro payload rfl
    exact hguard rfl (.inl ⟨r, hdue hr, hf⟩)
  · rw [if_neg hf, if_neg hf]

/-- Nothing is outstanding while nothing is awaited. -/
theorem outstanding_eq_nil (hnone : ¬ m.Awaited e h) : m.outstanding e h = [] := by
  have hframes : m.stack.flatMap (Frame.left m.bus e h) = [] := by
    apply List.flatMap_eq_nil_iff.mpr
    intro frame hframe
    exact left_eq_nil fun hwaits => hnone (.inr ⟨frame, hframe, hwaits⟩)
  have hdue : m.bus.immediates.flatMap (Replay.left m.bus e h) = [] := by
    apply List.flatMap_eq_nil_iff.mpr
    intro r hr
    exact if_neg fun hf => hnone (.inl ⟨r, hr, hf⟩)
  rw [outstanding, hframes, hdue]
  rfl

end Left

section Account

/-- The payloads that a call of `publish` adds to those due. -/
def publishes (e : String) : LoopEvent H P → List P
  | .call (.publish e' payload) => if e' = e then [payload] else []
  | _ => []

omit [DecidableEq H] in
theorem publishes_refused {c : BusCall H P} {e₀ : String}
    (hc : c = .subscribe e₀ none ∨ c = .subscribeOnce e₀ none) : publishes e (.call c) = [] := by
  rcases hc with rfl | rfl
  · rfl
  · rfl

omit [DecidableEq H] in
theorem publishes_unsubscribed {c : BusCall H P} {e₀ : String} {h₀ : H}
    (hc : c = .unsubscribe e₀ h₀ ∨ c = .unsubscriber e₀ h₀) : publishes e (.call c) = [] := by
  rcases hc with rfl | rfl
  · rfl
  · rfl

/-- A step leaves what is outstanding but for the loops on top, and may schedule replays that
are not for the handler. -/
theorem Turn.outstanding_split (h' : Turn m a m') (hs : m.Sound) (hnew : ¬ Registers e h a)
    (hkept : ¬ Withdraws e h a) (hguard : ReplayGuarded e h m a)
    (old new : List (Frame H P)) {stack : List (Frame H P)} (later : List (Replay H))
    (htop : m.stack = old ++ stack) (htop' : m'.stack = new ++ stack)
    (hdue : m'.bus.immediates = m.bus.immediates ++ later)
    (hlater : later.flatMap (Replay.left m'.bus e h) = []) :
    ∃ rest, m.outstanding e h = old.flatMap (Frame.left m.bus e h) ++ rest ∧
      m'.outstanding e h = new.flatMap (Frame.left m'.bus e h) ++ rest := by
  have hsub : stack ⊆ m.stack := by
    rw [htop]
    exact List.subset_append_right old stack
  have hstack := h'.flatMap_left_eq hs hnew hkept hguard hsub
  have himmediates := h'.due_left_eq (h := h) hs hguard (List.Subset.refl m.bus.immediates)
  refine ⟨stack.flatMap (Frame.left m.bus e h) ++
    m.bus.immediates.flatMap (Replay.left m.bus e h), ?_, ?_⟩
  · rw [outstanding, htop, List.flatMap_append, List.append_assoc]
  · rw [outstanding, htop', hdue, List.flatMap_append, List.flatMap_append, hlater,
      List.append_nil, hstack, himmediates, List.append_assoc]

theorem received_eq (hc : m'.invocations = m.invocations) :
    m'.received e h = m.received e h := by
  unfold received
  rw [hc]

/-- What the loops on top have no more for the handler, the handler has received. -/
theorem Turn.account_of_top (h' : Turn m a m') (hs : m.Sound) (hnew : ¬ Registers e h a)
    (hkept : ¬ Withdraws e h a) (hguard : ReplayGuarded e h m a)
    (old new : List (Frame H P)) {stack : List (Frame H P)} (later : List (Replay H))
    (htop : m.stack = old ++ stack) (htop' : m'.stack = new ++ stack)
    (hdue : m'.bus.immediates = m.bus.immediates ++ later)
    (hlater : later.flatMap (Replay.left m'.bus e h) = [])
    (hpart : m'.received e h ++ new.flatMap (Frame.left m'.bus e h) =
      m.received e h ++ old.flatMap (Frame.left m.bus e h)) :
    m'.received e h ++ m'.outstanding e h = m.received e h ++ m.outstanding e h := by
  obtain ⟨rest, hold, hnew'⟩ :=
    h'.outstanding_split hs hnew hkept hguard old new later htop htop' hdue hlater
  rw [hold, hnew', ← List.append_assoc, hpart, List.append_assoc]

/-- The replays that a subscription schedules are not for a handler that it does not
subscribe. -/
theorem left_replays_eq_nil {b b' : EventBus H P} {e₀ : String} {f : Fn H}
    (hne : ¬ (e₀ = e ∧ f = .handler h)) :
    (b.replays e₀ f).flatMap (Replay.left b' e h) = [] := by
  apply List.flatMap_eq_nil_iff.mpr
  intro r hr
  obtain ⟨_, _, rfl, rfl⟩ := EventBus.mem_replays.mp hr
  exact if_neg hne

/-- A publish on the event has its payload for the handler, and nothing else is outstanding. -/
theorem InOrder.account_published {due : List P} (hm : InOrder e h due m) (hs : m.Sound)
    {e₀ : String} {payload : P} {set : ℕ} (idle : m.idle)
    (haudience : (m.bus.record e₀ payload).audience e₀ = some set)
    (hguard : ReplayGuarded e h m (.call (.publish e₀ payload))) :
    let m' : EventLoop H P :=
      { m with
        bus := m.bus.record e₀ payload
        published := m.published ++ [(e₀, payload)]
        stack := .publishing e₀ set 0 payload 0 :: m.stack }
    m'.received e h ++ m'.outstanding e h = due ++ if e₀ = e then [payload] else [] := by
  intro m'
  have h' : Turn m (.call (.publish e₀ payload)) m' := .published e₀ payload set idle haudience
  have hdue : m'.bus.immediates = m.bus.immediates ++ [] := by
    rw [List.append_nil]
    exact EventBus.record_immediates
  obtain ⟨rest, hold, hnew⟩ := h'.outstanding_split hs (e := e) (h := h) id id hguard
    [] [.publishing e₀ set 0 payload 0] [] rfl rfl hdue rfl
  have hreceived : m'.received e h = m.received e h := received_eq rfl
  by_cases he : e₀ = e
  · have hnone : m.outstanding e h = [] := outstanding_eq_nil (hguard he)
    have hrest : rest = [] := hold.symm.trans hnone
    have hahead : SlotSet.Ahead (m'.bus.sets set) 0 (.handler h) := by
      obtain ⟨i, hset, hf⟩ := hm.listens
      have hi := audience_listeners haudience
      rw [EventBus.record_listeners, he] at hi
      obtain rfl : i = set := Option.some.inj (hset.symm.trans hi)
      show some (.handler h) ∈ (m.bus.record e₀ payload).sets i
      rw [EventBus.record_sets]
      exact hf
    rw [hreceived, hnew, hrest, List.flatMap_singleton, left_publishing, if_pos ⟨he, hahead⟩,
      ← hm.account, hnone, if_pos he]
    simp
  · rw [hreceived, hnew, List.flatMap_singleton, left_publishing, if_neg fun h => he h.1,
      if_neg he, List.append_nil, ← hm.account, hold]
    rfl

/-- A publish on top calls the handler with the payload that it had for it. -/
theorem InOrder.part_delivered {due : List P} (hm : InOrder e h due m) (hs : m.Sound)
    {e₀ : String} {set pos notified : ℕ} {payload : P} {stack : List (Frame H P)} {f : Fn H}
    (htop : m.stack = .publishing e₀ set pos payload notified :: stack)
    (hslot : (m.bus.sets set)[pos]? = some (some f)) :
    let m' := { m with
      stack := .publishing e₀ set (pos + 1) payload (notified + 1) :: stack }.invoke
        f e₀ payload false
    m'.received e h ++ [.running f.target,
        .publishing e₀ set (pos + 1) payload (notified + 1)].flatMap (Frame.left m'.bus e h) =
      m.received e h ++
        [.publishing e₀ set pos payload notified].flatMap (Frame.left m.bus e h) := by
  intro m'
  have hreceived : m'.received e h =
      m.received e h ++ if e₀ = e ∧ f.target = h then [payload] else [] :=
    received_concat ⟨f.target, e₀, payload, false⟩ rfl
  have hleft : [.running f.target,
        .publishing e₀ set (pos + 1) payload (notified + 1)].flatMap (Frame.left m'.bus e h) =
      Frame.left m'.bus e h (.publishing e₀ set (pos + 1) payload (notified + 1)) := by
    simp [Frame.left]
  rw [hleft, List.flatMap_singleton, hreceived]
  by_cases hcall : e₀ = e ∧ f = .handler h
  · obtain ⟨rfl, rfl⟩ := hcall
    have hmet : SlotSet.Ahead (m.bus.sets set) pos (.handler h) :=
      (SlotSet.ahead_iff hslot).mpr (.inl rfl)
    have hpast : ¬ SlotSet.Ahead (m'.bus.sets set) (pos + 1) (.handler h) :=
      (hs.distinct set).not_ahead hslot
    have hfirst : Frame.left m.bus e₀ h (.publishing e₀ set pos payload notified) = [payload] :=
      if_pos ⟨rfl, hmet⟩
    have hlast : Frame.left m'.bus e₀ h
        (.publishing e₀ set (pos + 1) payload (notified + 1)) = [] :=
      left_eq_nil fun hwaits => hpast hwaits.2
    rw [hfirst, hlast]
    simp [Fn.target]
  · have hother : ¬ (e₀ = e ∧ f.target = h) := by
      rintro ⟨he, htarget⟩
      have hr : m.Reaches e₀ set f := reaches_of_slot htop hslot
      exact hcall ⟨he, hm.only set f (he ▸ hr) htarget⟩
    have hsame : Frame.left m'.bus e h
          (.publishing e₀ set (pos + 1) payload (notified + 1)) =
        Frame.left m.bus e h (.publishing e₀ set pos payload notified) := by
      apply left_publishing_congr
      intro he
      have hne : Fn.handler h ≠ f := fun hf => hcall ⟨he, hf.symm⟩
      have henter : SlotSet.Ahead (m'.bus.sets set) (pos + 1) (.handler h) ↔
          SlotSet.Ahead (m.bus.sets set) (pos + 1) (.handler h) :=
        EventBus.ahead_enter_of_ne hne
      rw [henter, SlotSet.ahead_iff hslot, or_iff_right]
      exact fun hf => hne (Option.some.inj hf).symm
    rw [hsame, if_neg hother, List.append_nil]

/-- A replay on top calls the handler with the first of the payloads that it had for it. -/
theorem InOrder.part_played {due : List P} (hm : InOrder e h due m) {e₀ : String}
    {past k len : ℕ} {payload : P} {stack : List (Frame H P)} {f : Fn H}
    (htop : m.stack = .replaying e₀ past k len f :: stack) (hmore : k < len)
    (hslot : (m.bus.arrays past)[k]? = some payload) :
    let m' := { m with stack := .replaying e₀ past (k + 1) len f :: stack }.invoke
      f e₀ payload true
    m'.received e h ++ [.running f.target,
        .replaying e₀ past (k + 1) len f].flatMap (Frame.left m'.bus e h) =
      m.received e h ++ [.replaying e₀ past k len f].flatMap (Frame.left m.bus e h) := by
  intro m'
  have hreceived : m'.received e h =
      m.received e h ++ if e₀ = e ∧ f.target = h then [payload] else [] :=
    received_concat ⟨f.target, e₀, payload, true⟩ rfl
  have hleft : [.running f.target,
        .replaying e₀ past (k + 1) len f].flatMap (Frame.left m'.bus e h) =
      Frame.left m'.bus e h (.replaying e₀ past (k + 1) len f) := by
    simp [Frame.left]
  have harrays : m'.bus.arrays past = m.bus.arrays past :=
    congrFun (EventBus.enter_arrays m.bus f) past
  rw [hleft, List.flatMap_singleton, hreceived, left_replaying, left_replaying, harrays]
  by_cases hcall : e₀ = e ∧ f = .handler h
  · obtain ⟨rfl, rfl⟩ := hcall
    have hhead : ((m.bus.arrays past).take len).drop k =
        payload :: ((m.bus.arrays past).take len).drop (k + 1) := by
      obtain ⟨hk, hpayload⟩ := List.getElem?_eq_some_iff.mp hslot
      have hk' : k < ((m.bus.arrays past).take len).length := by
        rw [List.length_take]
        omega
      rw [← List.getElem_cons_drop hk', List.getElem_take, hpayload]
    rw [if_pos ⟨rfl, rfl⟩, if_pos ⟨rfl, rfl⟩, hhead]
    simp
  · have hother : ¬ (e₀ = e ∧ f.target = h) := by
      rintro ⟨he, htarget⟩
      exact hcall ⟨he, hm.scheduled f (he ▸ scheduled_of_top htop) htarget⟩
    rw [if_neg hcall, if_neg hcall, if_neg hother, List.append_nil]

/-- What a step adds to the payloads received and on their way: the one published. -/
theorem InOrder.account_turn {due : List P} (hm : InOrder e h due m) (hs : m.Sound)
    (h' : Turn m a m') (hnew : ¬ Registers e h a) (hkept : ¬ Withdraws e h a)
    (hguard : ReplayGuarded e h m a) :
    m'.received e h ++ m'.outstanding e h = due ++ publishes e a := by
  have htop (old new : List (Frame H P)) {stack : List (Frame H P)} (later : List (Replay H))
      (htop : m.stack = old ++ stack) (htop' : m'.stack = new ++ stack)
      (hdue : m'.bus.immediates = m.bus.immediates ++ later)
      (hlater : later.flatMap (Replay.left m'.bus e h) = [])
      (hpart : m'.received e h ++ new.flatMap (Frame.left m'.bus e h) =
        m.received e h ++ old.flatMap (Frame.left m.bus e h)) :
      m'.received e h ++ m'.outstanding e h = due ++ [] := by
    rw [List.append_nil, ← hm.account]
    exact h'.account_of_top hs hnew hkept hguard old new later htop htop' hdue hlater hpart
  cases h' with
  | refused c e₀ idle hc =>
    rw [publishes_refused hc, List.append_nil]
    exact hm.account
  | subscribed e₀ h₀ idle =>
    have hne : ¬ (e₀ = e ∧ Fn.handler h₀ = .handler h) := by
      rintro ⟨he, hh⟩
      exact hnew ⟨he, Fn.handler.inj hh⟩
    exact htop [] [] _ rfl rfl (EventBus.register_immediates _ _ _)
      (left_replays_eq_nil hne) rfl
  | subscribedOnce e₀ h₀ idle =>
    have hne : ¬ (e₀ = e ∧ Fn.wrapper m.bus.allocated e₀ h₀ = .handler h) := by simp
    exact htop [] [] _ rfl rfl (EventBus.register_immediates _ _ _)
      (left_replays_eq_nil hne) rfl
  | unsubscribed c e₀ h₀ idle hc =>
    rw [publishes_unsubscribed hc]
    exact htop [] [] [] rfl rfl (by simp) rfl rfl
  | cleared name idle => exact htop [] [] [] rfl rfl (by simp) rfl rfl
  | unheard e₀ payload idle haudience =>
    -- the event of the handler has a listener
    have hne : e₀ ≠ e := by
      rintro rfl
      obtain ⟨i, hset, hf⟩ := hm.listens
      cases (audience_record payload hset hf).symm.trans haudience
    rw [publishes, if_neg hne]
    exact htop [] [] [] rfl rfl (by simp) rfl rfl
  | published e₀ payload set idle haudience =>
    exact hm.account_published hs idle haudience hguard
  | finished e₀ set pos payload notified stack top slot =>
    have hleft : ¬ Frame.Waits m.bus e h (.publishing e₀ set pos payload notified) :=
      fun hwaits => SlotSet.not_ahead_of_end slot hwaits.2
    apply htop [_] [] [] top rfl (List.append_nil _).symm rfl
    rw [List.flatMap_singleton, left_eq_nil hleft]
    rfl
  | skipped e₀ set pos payload notified stack top slot =>
    apply htop [_] [_] [] top rfl (List.append_nil _).symm rfl
    rw [List.flatMap_singleton, List.flatMap_singleton]
    apply congrArg (m.received e h ++ ·)
    apply left_publishing_congr
    intro _
    rw [SlotSet.ahead_iff slot, or_iff_right (Option.some_ne_none _).symm]
  | delivered e₀ set pos payload notified stack f top slot =>
    exact htop [_] [_, _] [] top rfl (by simp [invoke]) rfl (hm.part_delivered hs top slot)
  | playedOut e₀ past k len f stack top spent =>
    have hleft : ¬ Frame.Waits m.bus e h (.replaying e₀ past k len f) :=
      fun hwaits => not_lt.mpr spent hwaits.2.2
    apply htop [_] [] [] top rfl (List.append_nil _).symm rfl
    rw [List.flatMap_singleton, left_eq_nil hleft]
    rfl
  | missing e₀ past k len f stack top more slot =>
    have hshort : (m.bus.arrays past).length ≤ k := List.getElem?_eq_none_iff.mp slot
    apply htop [_] [_] [] top rfl (List.append_nil _).symm rfl
    rw [List.flatMap_singleton, List.flatMap_singleton, left_short hshort,
      left_short (hshort.trans k.le_succ)]
    rfl
  | played e₀ past k len f stack payload top more slot =>
    exact htop [_] [_, _] [] top rfl (by simp [invoke]) rfl (hm.part_played top more slot)
  | returned h₀ stack top => exact htop [_] [] [] top rfl (List.append_nil _).symm rfl rfl
  | thrown h₀ frame stack top =>
    apply htop [_, _] [] [] top rfl (List.append_nil _).symm rfl
    have hleft : [Frame.running h₀, frame].flatMap (Frame.left m.bus e h) = [] := by
      show [] ++ (Frame.left m.bus e h frame ++ []) = []
      rw [left_eq_nil (hguard h₀ frame stack top)]
      rfl
    rw [hleft]
    rfl
  | ticked r rest empty hdue =>
    have hleft : Frame.left m.bus e h
          (.replaying r.eventName r.past 0 (m.bus.arrays r.past).length r.handler) =
        Replay.left m.bus e h r := by
      rw [left_replaying, List.take_length]
      rfl
    have houtstanding : m.outstanding e h =
        [Frame.replaying r.eventName r.past 0 (m.bus.arrays r.past).length
          r.handler].flatMap (Frame.left m.bus e h) ++ rest.flatMap (Replay.left m.bus e h) := by
      rw [outstanding, empty, hdue, List.flatMap_cons, List.flatMap_singleton, hleft]
      rfl
    have hsame : m.received e h ++ m.outstanding e h = due ++ [] := by
      rw [List.append_nil, hm.account]
    rw [houtstanding] at hsame
    exact hsame

end Account

section Histories

/-- What a step adds to the calls of `publish`. -/
theorem Turn.payloadsOf_eq (h' : Turn m a m') (e : String) :
    ∃ later, m'.published = m.published ++ later ∧ payloadsOf e later = publishes e a := by
  have hpublish (e₀ : String) (payload : P) : payloadsOf e [(e₀, payload)] =
      publishes e (.call (.publish e₀ payload) : LoopEvent H P) := by
    unfold payloadsOf publishes
    by_cases he : e₀ = e
    · simp [he]
    · simp [he]
  cases h' with
  | unheard e₀ payload => exact ⟨_, rfl, hpublish e₀ payload⟩
  | published e₀ payload => exact ⟨_, rfl, hpublish e₀ payload⟩
  | refused c e₀ idle hc =>
    exact ⟨[], (List.append_nil _).symm, (publishes_refused hc).symm⟩
  | unsubscribed c e₀ h₀ idle hc =>
    exact ⟨[], (List.append_nil _).symm, (publishes_unsubscribed hc).symm⟩
  | _ => exact ⟨[], (List.append_nil _).symm, rfl⟩

/-- What is buffered was published last. -/
theorem Turn.buffered (h' : Turn m a m') (hs : m.Sound) (e : String) :
    m'.bus.buffered e <:+ m.bus.buffered e ++ publishes e a := by
  have hrecord (e₀ : String) (payload : P) : (m.bus.record e₀ payload).buffered e <:+
      m.bus.buffered e ++ publishes e (.call (.publish e₀ payload) : LoopEvent H P) := by
    by_cases he : e₀ = e
    · subst he
      rw [publishes, if_pos rfl]
      exact EventBus.record_buffered
    · have hne {i : ℕ} (hpast : m.bus.history e = some i) : m.bus.history e₀ ≠ some i :=
        fun hpast₀ => he (hs.pasts.inj (.inl hpast₀) (.inl hpast))
      rw [publishes, if_neg he, List.append_nil, EventBus.record_buffered_of_ne
        (fun i hpast => hs.pasts.lt (.inl hpast)) (fun i => hne) (Ne.symm he)]
  have hsame (b : EventBus H P) (hsame : b.buffered e = m.bus.buffered e)
      (hnone : publishes e a = []) : b.buffered e <:+ m.bus.buffered e ++ publishes e a := by
    rw [hsame, hnone, List.append_nil]
  cases h' with
  | unheard e₀ payload => exact hrecord e₀ payload
  | published e₀ payload => exact hrecord e₀ payload
  | cleared name =>
    show (m.bus.clear name).buffered e <:+ m.bus.buffered e ++ []
    rw [List.append_nil]
    exact EventBus.clear_buffered
  | refused c e₀ idle hc => exact hsame _ rfl (publishes_refused hc)
  | unsubscribed c e₀ h₀ idle hc =>
    exact hsame _ (by simp [EventBus.buffered]) (publishes_unsubscribed hc)
  | subscribed e₀ h₀ => exact hsame _ (by simp [EventBus.buffered]) rfl
  | subscribedOnce e₀ h₀ => exact hsame _ (by simp [EventBus.buffered, EventBus.track]) rfl
  | delivered e₀ set pos payload notified stack f =>
    exact hsame _ (by simp [EventBus.buffered, invoke]) rfl
  | played e₀ past k len f => exact hsame _ (by simp [EventBus.buffered, invoke]) rfl
  | _ => exact hsame _ rfl rfl

theorem payloadsOf_append (e : String) (published later : List (String × P)) :
    payloadsOf e (published ++ later) = payloadsOf e published ++ payloadsOf e later := by
  unfold payloadsOf
  rw [List.filter_append, List.map_append]

theorem buffered_of_run {historyMaxSize : ℕ} {events : List (LoopEvent H P)}
    (hrun : run step (new historyMaxSize) events = some m) (e : String) :
    m.bus.buffered e <:+ payloadsOf e m.published := by
  have hnew : (new historyMaxSize : EventLoop H P).bus.buffered e = [] := by
    unfold EventBus.buffered
    exact ite_self _
  have hinv : m.Sound ∧ m.bus.buffered e <:+ payloadsOf e m.published := by
    apply run_inv (I := fun s => s.Sound ∧ s.bus.buffered e <:+ payloadsOf e s.published) _
      ⟨new_sound historyMaxSize, hnew ▸ List.nil_suffix⟩ hrun
    intro s a s' hs hstep
    have hturn := turn_of_step hstep
    refine ⟨hs.1.turn hturn, ?_⟩
    obtain ⟨later, hpublished, hlater⟩ := hturn.payloadsOf_eq e
    rw [hpublished, payloadsOf_append, hlater]
    apply (hturn.buffered hs.1 e).trans
    obtain ⟨front, hfront⟩ := hs.2
    rw [← hfront, List.append_assoc]
    exact List.suffix_append _ _
  exact hinv.2

end Histories

section Run

/-- A handler that is not withdrawn stays a listener. -/
theorem Turn.listens_handler (h' : Turn m a m') (hs : m.Sound) (hkept : ¬ Withdraws e h a)
    {i : ℕ} (hl : m.Listens e i (.handler h)) : m'.Listens e i (.handler h) := by
  rcases h'.listens hs hl with hkeeps | hremoves
  · exact hkeeps
  · have hentered (f : Fn H) : (m.bus.enter f).listeners e = some i ∧
        some (.handler h) ∈ (m.bus.enter f).sets i := by
      have hmem : some (.handler h) ∈ (m.bus.enter f).sets i :=
        SlotSet.ahead_zero.mp (EventBus.ahead_enter_handler.mpr (SlotSet.ahead_zero.mpr hl.2))
      exact ⟨EventBus.enter_listeners hl.1 hmem, hmem⟩
    cases h' with
    | refused => exact hl
    | unsubscribed c e₀ h₀ idle hc =>
      exfalso
      have hfound : m.bus.listeners e₀ = some i ∧ .handler h = m.bus.lookup (.handler h₀) := by
        rcases hc with rfl | rfl
        · exact hremoves
        · exact hremoves
      have hsame := eq_of_found hs (.inl hl.1) hfound
      rcases hc with rfl | rfl
      · exact hkept hsame
      · exact hkept hsame
    | cleared name => exact absurd hremoves hkept
    | delivered e₀ set pos payload notified stack f => exact hentered f
    | played e₀ past k len f => exact hentered f
    | finished => exact hl
    | skipped => exact hl
    | playedOut => exact hl
    | missing => exact hl
    | _ => exact hremoves.elim

theorem InOrder.turn {due : List P} (hm : InOrder e h due m) (hs : m.Sound) (h' : Turn m a m')
    (hnew : ¬ Registers e h a) (hkept : ¬ Withdraws e h a) (hguard : ReplayGuarded e h m a) :
    InOrder e h (due ++ publishes e a) m' := by
  constructor
  · obtain ⟨i, hl⟩ := hm.listens
    exact ⟨i, h'.listens_handler hs hkept hl⟩
  · intro i f hr htarget
    rcases h'.of_reaches hs hr with hold | hsub
    · exact hm.only i f hold htarget
    · exact absurd (htarget ▸ hsub.registers) hnew
  · intro f hf htarget
    rcases h'.of_scheduled hf with hold | hsub
    · exact hm.scheduled f hold htarget
    · exact absurd (htarget ▸ hsub.registers) hnew
  · exact hm.account_turn hs h' hnew hkept hguard

theorem flatMap_replays (b : EventBus H P) (e : String) (h : H) {b' : EventBus H P}
    (harrays : b'.arrays = b.arrays) :
    (b.replays e (.handler h)).flatMap (Replay.left b' e h) = b.buffered e := by
  unfold EventBus.replays EventBus.buffered
  split
  · cases b.history e with
    | none => rfl
    | some past =>
      show Replay.left b' e h ⟨e, past, .handler h⟩ ++ [] = b.arrays past
      rw [List.append_nil, Replay.left, if_pos ⟨rfl, rfl⟩, harrays]
  · rfl

/-- What is on its way to a handler once it is subscribed is what is buffered then, unless a
publish on the event is walking the set that the handler is put in. -/
theorem Untold.subscribed (hm : m.Untold e h) (hs : m.Sound)
    (hwalks : ∀ i pos, (e, i, pos) ∈ m.walks → m.bus.listeners e ≠ some i)
    (h' : Turn m (.call (.subscribe e (some h)))
      { m with bus := m.bus.register e (.handler h) }) :
    InOrder e h (m.bus.buffered e) { m with bus := m.bus.register e (.handler h) } := by
  constructor
  · exact EventBus.register_listens m.bus e _
  · intro i f hr htarget
    rcases h'.of_reaches hs hr with hold | hsub
    · exact absurd htarget (hm.gone i f hold)
    · exact hsub.2
  · intro f hf htarget
    rcases h'.of_scheduled hf with hold | hsub
    · exact absurd htarget (hm.scheduled f hold)
    · exact hsub.2
  · have hreceived : m.received e h = [] := by
      unfold EventLoop.received
      rw [List.map_eq_nil_iff, List.filter_eq_nil_iff]
      intro c hc hcall
      have hcall := of_decide_eq_true hcall
      exact hm.received c hc hcall.1 hcall.2
    have hstack : m.stack.flatMap (Frame.left (m.bus.register e (.handler h)) e h) = [] := by
      apply List.flatMap_eq_nil_iff.mpr
      intro frame hframe
      apply left_eq_nil
      intro hwaits
      cases frame with
      | running h₀ => exact hwaits
      | publishing e₀ set pos payload notified =>
        obtain ⟨rfl, hahead⟩ := hwaits
        have hwalk : (e₀, set, pos) ∈ m.walks := List.mem_filterMap.mpr ⟨_, hframe, rfl⟩
        have hlt : set < m.bus.allocated := hs.sets.lt (.inr ⟨pos, hwalk⟩)
        have hold := (EventBus.ahead_register hlt (.inr (hwalks set pos hwalk))).mp hahead
        exact hm.gone set _ (.inr ⟨pos, hwalk, hold⟩) rfl
      | replaying e₀ past k len f =>
        obtain ⟨rfl, rfl, _⟩ := hwaits
        exact hm.scheduled _ (.inr ⟨past, k, len, hframe⟩) rfl
    have hdue : m.bus.immediates.flatMap
        (Replay.left (m.bus.register e (.handler h)) e h) = [] := by
      apply List.flatMap_eq_nil_iff.mpr
      intro r hr
      apply if_neg
      rintro ⟨hname, hhandler⟩
      exact hm.scheduled r.handler (.inl ⟨r, hr, hname, rfl⟩) (by rw [hhandler]; rfl)
    show m.received e h ++ (m.stack.flatMap _ ++
      (m.bus.register e (.handler h)).immediates.flatMap _) = m.bus.buffered e
    rw [hreceived, hstack, EventBus.register_immediates, List.flatMap_append, hdue,
      flatMap_replays m.bus e h (EventBus.register_arrays m.bus e _)]
    rfl

/-- In a run that keeps to the guard, a handler that is subscribed once, and not while the event
is being published, receives what was buffered then and what is published after, in the order of
publication and each payload once. -/
theorem history_replayed_in_order {historyMaxSize : ℕ} {before after : List (LoopEvent H P)}
    {t : EventLoop H P} (hbefore : run step (new historyMaxSize) before = some m)
    (hstep : m.step (.call (.subscribe e (some h))) = some m')
    (hafter : run step m' after = some t)
    (honce : ∀ a ∈ before ++ after, ¬ Registers e h a)
    (hkept : ∀ a ∈ after, ¬ Withdraws e h a)
    (hwalks : ∀ i pos, (e, i, pos) ∈ m.walks → m.bus.listeners e ≠ some i)
    (hguard : Along step (fun s a _ => ReplayGuarded e h s a) m' after) :
    ∃ later, t.published = m.published ++ later ∧
      m.bus.buffered e ++ payloadsOf e later <:+ payloadsOf e t.published ∧
      t.received e h <+: m.bus.buffered e ++ payloadsOf e later ∧
      (t.stack = [] → t.bus.immediates = [] →
        t.received e h = m.bus.buffered e ++ payloadsOf e later) := by
  obtain ⟨hs, huntold⟩ := untold_of_run hbefore
    fun a ha => honce a (List.mem_append_left _ ha)
  have hturn := turn_of_step hstep
  have hm' : m' = { m with bus := m.bus.register e (.handler h) } := by
    have hidle : m.idle := by
      by_contra hbusy
      simp [step, hbusy] at hstep
    simp [step, hidle, perform, EventBus.subscribe] at hstep
    exact hstep.symm
  subst hm'
  have hinit := huntold.subscribed hs hwalks hturn
  -- the payloads due grow with the calls of `publish`
  have ht : t.Sound ∧ ∃ later, t.published = m.published ++ later ∧
      InOrder e h (m.bus.buffered e ++ payloadsOf e later) t := by
    have hquiet : ∀ a ∈ after, ¬ Registers e h a ∧ ¬ Withdraws e h a :=
      fun a ha => ⟨honce a (List.mem_append_right _ ha), hkept a ha⟩
    apply Along.inv (I := fun s => s.Sound ∧ ∃ later, s.published = m.published ++ later ∧
        InOrder e h (m.bus.buffered e ++ payloadsOf e later) s) _
      ⟨hs.turn hturn, [], (List.append_nil _).symm, ?_⟩ ((along_of_forall hquiet).and hguard)
      hafter
    · rintro s a s' ⟨hsound, later, hpublished, horder⟩ hs hφ
      have hturn := turn_of_step hs
      obtain ⟨more, hmore, hpayloads⟩ := hturn.payloadsOf_eq e
      refine ⟨hsound.turn hturn, later ++ more, ?_, ?_⟩
      · rw [hmore, hpublished, List.append_assoc]
      · rw [payloadsOf_append, hpayloads, ← List.append_assoc]
        exact horder.turn hsound hturn hφ.1.1 hφ.1.2 hφ.2
    · show InOrder e h (m.bus.buffered e ++ []) _
      rw [List.append_nil]
      exact hinit
  obtain ⟨later, hpublished, horder⟩ := ht.2
  refine ⟨later, hpublished, ?_, ?_, ?_⟩
  · rw [hpublished, payloadsOf_append]
    obtain ⟨front, hfront⟩ := buffered_of_run hbefore e
    rw [← hfront, List.append_assoc]
    exact List.suffix_append _ _
  · exact ⟨t.outstanding e h, horder.account⟩
  · intro hempty hidle
    have hnone : t.outstanding e h = [] := by
      unfold outstanding
      rw [hempty, hidle]
      rfl
    have haccount := horder.account
    rw [hnone, List.append_nil] at haccount
    exact haccount

/-- A payload is published between the subscription and the replay. It is delivered at once and
played again; before it, with room for one payload, the one that was buffered is lost, and with
room for two it comes late. -/
theorem published_before_replay :
    (run step (new 1 : EventLoop Unit ℕ)
        [.call (.publish "created" 1), .call (.subscribe "created" (some ())),
          .call (.publish "created" 2), .next, .leave, .next, .tick, .next, .leave,
          .next]).map (fun m => (m.received "created" (), m.stack.length)) = some ([2, 2], 0) ∧
    (run step (new 2 : EventLoop Unit ℕ)
        [.call (.publish "created" 1), .call (.subscribe "created" (some ())),
          .call (.publish "created" 2), .next, .leave, .next, .tick, .next, .leave, .next, .leave,
          .next]).map (fun m => (m.received "created" (), m.stack.length)) =
      some ([2, 1, 2], 0) := by
  decide

/-- Two payloads are buffered when the handler is subscribed. -/
def bothPast : EventLoop Unit ℕ :=
  ((new 2).perform (.publish "created" 1)).perform (.publish "created" 2)

/-- They are played before a third one is published. -/
def playThenPublish : List (LoopEvent Unit ℕ) :=
  [.tick, .next, .leave, .next, .leave, .next, .call (.publish "created" 3), .next, .leave, .next]

theorem played_then_published :
    let subscribed := bothPast.perform (.subscribe "created" (some ()))
    ((run step subscribed playThenPublish).getD subscribed).received "created" () = [1, 2, 3] := by
  intro subscribed
  have hbefore : run step (new 2 : EventLoop Unit ℕ)
      [.call (.publish "created" 1), .call (.publish "created" 2)] = some bothPast := rfl
  have hafter : run step subscribed playThenPublish =
      some ((run step subscribed playThenPublish).getD subscribed) := rfl
  have hguard : Along step (fun s a _ => ReplayGuarded "created" () s a) subscribed
      playThenPublish := by
    refine Along.cons rfl trivial (Along.cons rfl trivial (Along.cons rfl trivial
      (Along.cons rfl trivial (Along.cons rfl trivial (Along.cons rfl trivial
        (Along.cons rfl ?_ (Along.cons rfl trivial (Along.cons rfl trivial
          (Along.cons rfl trivial trivial)))))))))
    rintro _ (⟨r, hr, _⟩ | ⟨frame, hframe, _⟩)
    · cases hr
    · cases hframe
  obtain ⟨later, hpublished, _, _, hall⟩ := history_replayed_in_order hbefore
    (rfl : bothPast.step (.call (.subscribe "created" (some ()))) = some subscribed) hafter
    (by simp [Registers, playThenPublish]) (by simp [Withdraws, playThenPublish])
    (fun i pos hwalk => (nomatch hwalk)) hguard
  have hlater : [("created", 1), ("created", 2)] ++ [("created", 3)] =
      [("created", 1), ("created", 2)] ++ later := hpublished
  rw [hall rfl rfl, ← List.append_cancel_left hlater]
  rfl

end Run

end EventLoop

end TimeOff
