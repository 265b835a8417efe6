import TimeOff.Unsubscribed
import Mathlib.Algebra.GroupWithZero.Nat

/-! `subscribeOnce` of the event bus: in which runs a handler that is registered by one such call
and by no other is called at most once. -/
namespace TimeOff

open Transitions

namespace EventLoop

variable {H P : Type} [DecidableEq H] {m m' : EventLoop H P} {a : LoopEvent H P}
  {e : String} {h : H} {f : Fn H}

/-- How often the handler has been called. -/
def calls (m : EventLoop H P) (h : H) : ℕ := (m.invocations.filter (·.handler = h)).length

/-- Whether a publish under way has a function of the handler before it. -/
def short (m : EventLoop H P) (h : H) (walk : String × ℕ × ℕ) : Bool :=
  ((m.bus.sets walk.2.1).drop walk.2.2).any fun slot => slot.any fun f => f.target = h

/-- What keeps a once-listener from being called twice. No publish comes to it while a replay
for it is due; the replay starts on one payload at most; and its event is not cleared while two
publishes are still short of it. -/
def OnceGuarded (e : String) (h : H) (m : EventLoop H P) : LoopEvent H P → Prop
  | .next => ∀ e set pos payload notified stack f,
    m.stack = .publishing e set pos payload notified :: stack →
    (m.bus.sets set)[pos]? = some (some f) → f.target = h →
      ∀ r ∈ m.bus.immediates, r.handler.target ≠ h
  | .tick => ∀ r rest, m.bus.immediates = r :: rest → r.handler.target = h →
      (m.bus.arrays r.past).length ≤ 1
  | .call (.clear name) => EventBus.Clears name e → m.walks.countP (m.short h) ≤ 1
  | _ => True

/-- How many payloads a replay under way still has for the handler. -/
def Frame.remaining (h : H) : Frame H P → ℕ
  | .replaying _ _ k len f => if f.target = h then len - k else 0
  | _ => 0

/-- The calls of the handler that replays have in store, a replay that is due counting as one. -/
def due (m : EventLoop H P) (h : H) : ℕ :=
  m.bus.immediates.countP (·.handler.target = h) + (m.stack.map (Frame.remaining h)).sum

/-- A once-listener that has been called, or can be called once more. -/
structure OnceSound (e : String) (f : Fn H) (m : EventLoop H P) : Prop where
  only : ∀ e' i g, m.Reaches e' i g → g.target = f.target → g = f ∧ e' = e
  scheduled : ∀ e g, m.Scheduled e g → g.target = f.target → g = f
  one_set : ∀ i j, m.Reaches e i f → m.Reaches e j f → i = j
  calls_due : m.calls f.target + m.due f.target ≤ 1
  spent : m.calls f.target = 0 ∨ ∀ i, ¬ m.Reaches e i f
  alone : ∀ frame ∈ m.stack, 0 < Frame.remaining f.target frame → m.stack = [frame]
  single : (∃ i, m.Listens e i f) ∨ m.walks.countP (m.short f.target) ≤ 1

section Counting

theorem calls_concat {m' : EventLoop H P} {c : Invocation H P}
    (hc : m'.invocations = m.invocations ++ [c]) :
    m'.calls h = m.calls h + if c.handler = h then 1 else 0 := by
  unfold calls
  rw [hc, List.filter_append, List.length_append]
  by_cases hh : c.handler = h
  · simp [hh]
  · simp [hh]

theorem short_iff {walk : String × ℕ × ℕ} :
    m.short h walk ↔ ∃ f, SlotSet.Ahead (m.bus.sets walk.2.1) walk.2.2 f ∧ f.target = h := by
  unfold short SlotSet.Ahead
  rw [List.any_eq_true]
  constructor
  · rintro ⟨slot, hslot, hany⟩
    obtain ⟨f, rfl, hf⟩ := (Option.any_eq_true _ _).mp hany
    exact ⟨f, hslot, of_decide_eq_true hf⟩
  · rintro ⟨f, hslot, hf⟩
    exact ⟨some f, hslot, decide_eq_true hf⟩

theorem short_reaches {e : String} {i pos : ℕ} (hwalk : (e, i, pos) ∈ m.walks)
    (hshort : m.short h (e, i, pos)) : ∃ f, m.Reaches e i f ∧ f.target = h := by
  obtain ⟨f, hahead, hf⟩ := short_iff.mp hshort
  exact ⟨f, .inr ⟨pos, hwalk, hahead⟩, hf⟩

end Counting

section Due

theorem replays_countP {e : String} {f : Fn H} (hne : f.target ≠ h) :
    (m.bus.replays e f).countP (·.handler.target = h) = 0 := by
  apply List.countP_eq_zero.mpr
  intro r hr htarget
  rw [(EventBus.mem_replays.mp hr).2.2.2] at htarget
  exact hne (of_decide_eq_true htarget)

/-- A step either leaves the calls and those in store at what they were in all, or is the call
of a publish. -/
theorem Turn.calls_due (h' : Turn m a m') (hnew : ∀ e, ¬ Registers e h a)
    (hguard : OnceGuarded e h m a) :
    m'.calls h + m'.due h ≤ m.calls h + m.due h ∨
      ∃ e set pos payload notified stack f,
        m.stack = .publishing e set pos payload notified :: stack ∧
        (m.bus.sets set)[pos]? = some (some f) ∧ f.target = h ∧ a = .next ∧
        m'.calls h + m'.due h = m.calls h + m.due h + 1 := by
  cases h' with
  | subscribed e₀ h₀ =>
    left
    have hne : h₀ ≠ h := fun heq => hnew e₀ ⟨rfl, heq⟩
    have hreplays := replays_countP (m := m) (e := e₀) (f := .handler h₀) hne
    unfold due calls
    dsimp only
    rw [EventBus.register_immediates, List.countP_append, hreplays]
    exact le_rfl
  | subscribedOnce e₀ h₀ =>
    left
    have hne : h₀ ≠ h := fun heq => hnew e₀ ⟨rfl, heq⟩
    have hreplays := replays_countP (m := m) (e := e₀)
      (f := .wrapper m.bus.allocated e₀ h₀) hne
    unfold due calls
    dsimp only
    rw [EventBus.register_immediates, List.countP_append]
    exact Nat.add_le_add_left (Nat.add_le_add_right (Nat.add_le_add_left hreplays.le _) _) _
  | unsubscribed c e₀ h₀ =>
    left
    unfold due calls
    dsimp only
    rw [EventBus.unsubscribe_immediates]
  | cleared name =>
    obtain ⟨listeners, history, hclear⟩ := m.bus.clear_eq name
    rw [hclear]
    exact .inl le_rfl
  | unheard e₀ payload =>
    obtain ⟨history, arrays, allocated, hrecord⟩ := m.bus.record_eq e₀ payload
    rw [hrecord]
    exact .inl le_rfl
  | published e₀ payload set =>
    obtain ⟨history, arrays, allocated, hrecord⟩ := m.bus.record_eq e₀ payload
    rw [hrecord]
    left
    unfold due calls
    rw [List.map_cons, List.sum_cons]
    exact Nat.add_le_add_left (Nat.add_le_add_left (Nat.zero_add _).le _) _
  | finished e₀ set pos payload notified stack htop =>
    left
    simp [due, calls, htop, Frame.remaining]
  | skipped e₀ set pos payload notified stack htop =>
    left
    simp [due, calls, htop, Frame.remaining]
  | delivered e₀ set pos payload notified stack f htop hslot =>
    by_cases htarget : f.target = h
    · right
      refine ⟨e₀, set, pos, payload, notified, stack, f, htop, hslot, htarget, rfl, ?_⟩
      rw [calls_concat (m := m) rfl, if_pos htarget]
      simp [due, invoke, htop, Frame.remaining]
      omega
    · left
      rw [calls_concat (m := m) rfl, if_neg htarget]
      simp [due, invoke, htop, Frame.remaining, calls]
  | playedOut e₀ past k len f stack htop =>
    left
    simp [due, calls, htop, Frame.remaining]
  | missing e₀ past k len f stack htop hmore =>
    left
    simp only [due, calls, htop, Frame.remaining, List.map_cons, List.sum_cons]
    split <;> omega
  | played e₀ past k len f stack payload htop hmore =>
    left
    rw [calls_concat (m := m) rfl]
    simp only [due, invoke, htop, Frame.remaining, List.map_cons, List.sum_cons,
      EventBus.enter_immediates, calls]
    split <;> omega
  | returned handler stack htop =>
    left
    simp [due, calls, htop, Frame.remaining]
  | thrown handler frame stack htop =>
    left
    simp [due, calls, htop, Frame.remaining]
  | ticked r rest hempty hdue =>
    left
    have hlen := hguard r rest hdue
    simp only [due, calls, hempty, hdue, Frame.remaining, List.map_cons, List.sum_cons,
      List.map_nil, List.sum_nil, List.countP_cons]
    by_cases htarget : r.handler.target = h
    · have := hlen htarget
      simp [htarget]
      omega
    · simp [htarget]
  | refused c => exact .inl le_rfl

end Due

section Alone

theorem remaining_replaying (e : String) (past k len : ℕ) :
    Frame.remaining h (.replaying e past k len f : Frame H P) =
      if f.target = h then len - k else 0 := rfl

theorem remaining_succ (e : String) (past k len : ℕ) :
    Frame.remaining h (.replaying e past (k + 1) len f : Frame H P) =
      Frame.remaining h (.replaying e past k len f : Frame H P) - 1 := by
  rw [remaining_replaying, remaining_replaying]
  split <;> omega

/-- The top frame is the only one with calls in store, if there is one at all. -/
theorem none_remaining {frame : Frame H P} {stack : List (Frame H P)}
    (halone : ∀ frame ∈ m.stack, 0 < Frame.remaining h frame → m.stack = [frame])
    (htop : m.stack = frame :: stack) (hframe : Frame.remaining h frame = 0) :
    ∀ frame' ∈ m.stack, Frame.remaining h frame' = 0 := by
  intro frame' hmem
  by_contra hpos
  have hstack := halone frame' hmem (Nat.pos_of_ne_zero hpos)
  rw [htop] at hstack
  have heq : frame = frame' := (List.cons.inj hstack).1
  exact hpos (heq ▸ hframe)

/-- A replay with calls in store stays the only call under way until it has made them. -/
theorem Turn.alone (h' : Turn m a m') (hone : m.calls h + m.due h ≤ 1)
    (halone : ∀ frame ∈ m.stack, 0 < Frame.remaining h frame → m.stack = [frame]) :
    ∀ frame ∈ m'.stack, 0 < Frame.remaining h frame → m'.stack = [frame] := by
  have hquiet (hnone : ∀ frame ∈ m'.stack, Frame.remaining h frame = 0) :
      ∀ frame ∈ m'.stack, 0 < Frame.remaining h frame → m'.stack = [frame] :=
    fun frame hmem hpos => absurd (hnone frame hmem) (Nat.pos_iff_ne_zero.mp hpos)
  cases h' with
  | published e set pos hidle =>
    have hnone : ∀ frame ∈ m.stack, Frame.remaining h frame = 0 := by
      unfold idle at hidle
      split at hidle
      · next hstack =>
        rw [hstack]
        exact fun _ hmem => (nomatch hmem)
      · next handler stack hstack => exact none_remaining halone hstack rfl
      · cases hidle
    exact hquiet (List.forall_mem_cons.mpr ⟨rfl, hnone⟩)
  | finished e set pos payload notified stack htop =>
    have hnone := none_remaining halone htop rfl
    rw [htop] at hnone
    exact hquiet (List.forall_mem_cons.mp hnone).2
  | skipped e set pos payload notified stack htop =>
    have hnone := none_remaining halone htop rfl
    rw [htop] at hnone
    exact hquiet (List.forall_mem_cons.mpr ⟨rfl, (List.forall_mem_cons.mp hnone).2⟩)
  | delivered e set pos payload notified stack f htop =>
    have hnone := none_remaining halone htop rfl
    rw [htop] at hnone
    exact hquiet (List.forall_mem_cons.mpr
      ⟨rfl, List.forall_mem_cons.mpr ⟨rfl, (List.forall_mem_cons.mp hnone).2⟩⟩)
  | playedOut e past k len f stack htop hover =>
    have hspent : Frame.remaining h (.replaying e past k len f : Frame H P) = 0 := by
      rw [remaining_replaying]
      split <;> omega
    have hnone := none_remaining halone htop hspent
    rw [htop] at hnone
    exact hquiet (List.forall_mem_cons.mp hnone).2
  | missing e past k len f stack htop =>
    by_cases hspent : Frame.remaining h (.replaying e past k len f : Frame H P) = 0
    · have hnone := none_remaining halone htop hspent
      rw [htop] at hnone
      have hspent' : Frame.remaining h (.replaying e past (k + 1) len f : Frame H P) = 0 := by
        rw [remaining_succ]
        omega
      exact hquiet (List.forall_mem_cons.mpr ⟨hspent', (List.forall_mem_cons.mp hnone).2⟩)
    · have hstack := halone _ (htop ▸ List.mem_cons_self) (Nat.pos_of_ne_zero hspent)
      obtain rfl : stack = [] := (List.cons.inj (htop.symm.trans hstack)).2
      intro frame hmem _
      rw [List.mem_singleton.mp hmem]
  | played e past k len f stack payload htop hmore =>
    have hsum : Frame.remaining h (.replaying e past k len f : Frame H P) ≤ 1 := by
      unfold due at hone
      rw [htop, List.map_cons, List.sum_cons] at hone
      omega
    have hspent : Frame.remaining h (.replaying e past (k + 1) len f : Frame H P) = 0 := by
      rw [remaining_succ]
      omega
    have hrest : ∀ frame ∈ stack, Frame.remaining h frame = 0 := by
      intro frame hmem
      by_contra hpos
      have hstack := halone frame (htop ▸ List.mem_cons_of_mem _ hmem) (Nat.pos_of_ne_zero hpos)
      obtain rfl : stack = [] := (List.cons.inj (htop.symm.trans hstack)).2
      cases hmem
    exact hquiet (List.forall_mem_cons.mpr ⟨rfl, List.forall_mem_cons.mpr ⟨hspent, hrest⟩⟩)
  | returned handler stack htop =>
    have hnone := none_remaining halone htop rfl
    rw [htop] at hnone
    exact hquiet (List.forall_mem_cons.mp hnone).2
  | thrown handler frame stack htop =>
    have hnone := none_remaining halone htop rfl
    rw [htop] at hnone
    exact hquiet (List.forall_mem_cons.mp (List.forall_mem_cons.mp hnone).2).2
  | ticked r rest =>
    intro frame hmem _
    rw [List.mem_singleton.mp hmem]
  | _ => exact halone

end Alone

section Single

variable {n : ℕ}

/-- Once a publish has called the wrapper, none can come to it. -/
theorem OnceSound.not_reaches_delivered (hm : OnceSound e f m) (hs : m.Sound)
    (hwrapper : f = .wrapper n e h) {e₀ : String} {set pos notified : ℕ} {payload : P}
    {stack : List (Frame H P)}
    (htop : m.stack = .publishing e₀ set pos payload notified :: stack)
    (hslot : (m.bus.sets set)[pos]? = some (some f)) (i : ℕ) :
    ¬ ({ m with stack := .publishing e₀ set (pos + 1) payload (notified + 1) :: stack }.invoke
      f e₀ payload false).Reaches e i f := by
  have hwalks := walks_of_top htop
  have hahead : SlotSet.Ahead (m.bus.sets set) pos f := (SlotSet.ahead_iff hslot).mpr (.inl rfl)
  have htopReaches : m.Reaches e₀ set f := reaches_of_slot htop hslot
  have he : e₀ = e := (hm.only e₀ set f htopReaches rfl).2
  subst he
  subst hwrapper
  rintro (⟨hset, hmem⟩ | ⟨pos', hwalk, hlater⟩)
  · have hold := EventBus.ahead_enter_wrapper (SlotSet.ahead_zero.mpr hmem)
    exact hold.2 (EventBus.of_enter_listeners hset)
  · obtain ⟨hlater, hdetached⟩ := EventBus.ahead_enter_wrapper hlater
    rcases List.mem_cons.mp hwalk with heq | hrest
    -- the publish itself has passed it
    · cases heq
      exact (hs.distinct _).not_ahead hslot hlater
    -- another publish would be the second that is short of it, in a set that was cleared
    · have hreaches : m.Reaches e₀ i (.wrapper n e₀ h) :=
        .inr ⟨pos', hwalks ▸ List.mem_cons_of_mem _ hrest, hlater⟩
      rcases hm.single with ⟨j, hlistens⟩ | hcount
      · have hij : i = j := hm.one_set i j hreaches (.inl hlistens)
        exact hdetached (hij ▸ hlistens.1)
      · rw [hwalks, List.countP_cons_of_pos (short_iff.mpr ⟨_, hahead, rfl⟩)] at hcount
        have hpos : 0 < (stack.filterMap Frame.walk).countP (m.short h) :=
          List.countP_pos_iff.mpr ⟨_, hrest, short_iff.mpr ⟨_, hlater, rfl⟩⟩
        have hcount : (stack.filterMap Frame.walk).countP (m.short h) + 1 ≤ 1 := hcount
        omega

/-- Once a replay has called the wrapper, no publish can come to it. -/
theorem OnceSound.not_reaches_played (hm : OnceSound e f m) (hwrapper : f = .wrapper n e h)
    {e₀ : String} {past k len : ℕ} {payload : P} {stack : List (Frame H P)}
    (htop : m.stack = .replaying e₀ past k len f :: stack) (hmore : k < len) (i : ℕ) :
    ¬ ({ m with stack := .replaying e₀ past (k + 1) len f :: stack }.invoke
      f e₀ payload true).Reaches e i f := by
  have hremaining : 0 < Frame.remaining f.target (.replaying e₀ past k len f : Frame H P) := by
    rw [remaining_replaying, if_pos rfl]
    omega
  have hstack := hm.alone _ (htop ▸ List.mem_cons_self) hremaining
  obtain rfl : stack = [] := (List.cons.inj (htop.symm.trans hstack)).2
  subst hwrapper
  rintro (⟨hset, hmem⟩ | ⟨pos, hwalk, _⟩)
  · have hold := EventBus.ahead_enter_wrapper (SlotSet.ahead_zero.mpr hmem)
    exact hold.2 (EventBus.of_enter_listeners hset)
  · cases hwalk

/-- A wrapper that no publish can come to has no publish short of it. -/
theorem count_short_eq_zero (honly : ∀ e' i g, m.Reaches e' i g → g.target = f.target →
    g = f ∧ e' = e) (hnone : ∀ i, ¬ m.Reaches e i f) :
    m.walks.countP (m.short f.target) = 0 := by
  apply List.countP_eq_zero.mpr
  rintro ⟨e', i, pos⟩ hwalk hshort
  obtain ⟨g, hreaches, htarget⟩ := short_reaches hwalk hshort
  obtain ⟨rfl, rfl⟩ := honly e' i g hreaches htarget
  exact hnone i hreaches

/-- The publishes that are short of the handler do not grow in number, unless one begins. -/
theorem Turn.count_short (h' : Turn m a m') (hs : m.Sound) (hnew : ∀ e, ¬ Registers e h a)
    (hlistens : ∀ e i g, m.Listens e i g → g.target ≠ h) :
    m'.walks.countP (m'.short h) ≤ m.walks.countP (m.short h) := by
  have hshort {e : String} {i pos : ℕ} (href : m.SetRef e i)
      (hlater : m'.short h (e, i, pos)) : m.short h (e, i, pos) := by
    obtain ⟨g, hahead, htarget⟩ := short_iff.mp hlater
    rcases h'.of_ahead hs href hahead with hold | hsub
    · exact short_iff.mpr ⟨g, hold, htarget⟩
    · exact absurd (htarget ▸ hsub.registers) (hnew e)
  have hmono {walks : List (String × ℕ × ℕ)} (hwalks : walks ⊆ m.walks) :
      walks.countP (m'.short h) ≤ walks.countP (m.short h) :=
    List.countP_mono_left fun w hw => hshort (.inr ⟨w.2.2, hwalks hw⟩)
  rcases h'.walks_cases with hsub | ⟨e, i, pos, rest, hm, hm'⟩ | ⟨e, i, hset, hm'⟩
  · exact (hmono hsub.subset).trans hsub.countP_le
  · have hrest : rest.countP (m'.short h) ≤ rest.countP (m.short h) :=
      hmono (hm ▸ List.subset_cons_self _ _)
    have hhead : m'.short h (e, i, pos + 1) → m.short h (e, i, pos) := by
      intro hlater
      obtain ⟨g, hahead, htarget⟩ :=
        short_iff.mp (hshort (.inr ⟨pos, hm ▸ List.mem_cons_self⟩) hlater)
      exact short_iff.mpr ⟨g, hahead.mono (Nat.le_succ _), htarget⟩
    rw [hm, hm', List.countP_cons, List.countP_cons]
    by_cases hlater : m'.short h (e, i, pos + 1)
    · rw [if_pos hlater, if_pos (hhead hlater)]
      omega
    · rw [if_neg hlater]
      omega
  · have hhead : ¬ m'.short h (e, i, 0) := by
      intro hlater
      obtain ⟨g, hahead, htarget⟩ := short_iff.mp (hshort (.inl hset) hlater)
      exact hlistens e i g ⟨hset, SlotSet.ahead_zero.mp hahead⟩ htarget
    rw [hm', List.countP_cons, if_neg hhead]
    exact hmono fun _ hw => hw

/-- A call of the wrapper leaves no publish that can come to it. -/
theorem OnceSound.not_reaches_removed (hm : OnceSound e f m) (hs : m.Sound)
    (hwrapper : f = .wrapper n e h) (h' : Turn m .next m') {i : ℕ}
    (hremoves : m.Removes e i f .next) (j : ℕ) : ¬ m'.Reaches e j f := by
  have hnext := next_of_turn h'
  rcases hremoves with ⟨e₀, set, pos, payload, notified, stack, htop, hslot⟩ |
    ⟨e₀, past, k, len, stack, payload, htop, hmore, hslot⟩
  · simp only [next, htop, hslot, Option.some.injEq] at hnext
    subst hnext
    exact hm.not_reaches_delivered hs hwrapper htop hslot j
  · simp only [next, htop, hmore, hslot, if_true, Option.some.injEq] at hnext
    subst hnext
    exact hm.not_reaches_played hwrapper htop hmore j

/-- A step that calls the handler leaves no publish that can come to the wrapper. -/
theorem OnceSound.not_reaches_called (hm : OnceSound e f m) (hs : m.Sound)
    (hwrapper : f = .wrapper n e h) (h' : Turn m a m') :
    m'.calls f.target = m.calls f.target ∨ ∀ i, ¬ m'.Reaches e i f := by
  cases h' with
  | delivered e₀ set pos payload notified stack g htop hslot =>
    by_cases htarget : g.target = f.target
    · obtain ⟨rfl, _⟩ := hm.only e₀ set g (reaches_of_slot htop hslot) htarget
      exact .inr (hm.not_reaches_delivered hs hwrapper htop hslot)
    · left
      rw [calls_concat (m := m) rfl, if_neg htarget]
      rfl
  | played e₀ past k len g stack payload htop hmore hslot =>
    by_cases htarget : g.target = f.target
    · obtain rfl := hm.scheduled e₀ g (scheduled_of_top htop) htarget
      exact .inr (hm.not_reaches_played hwrapper htop hmore)
    · left
      rw [calls_concat (m := m) rfl, if_neg htarget]
      rfl
  | unheard e₀ payload => exact .inl rfl
  | _ => exact .inl rfl

theorem OnceSound.single_turn (hm : OnceSound e f m) (hs : m.Sound)
    (hwrapper : f = .wrapper n e h) (h' : Turn m a m')
    (hnew : ∀ e, ¬ Registers e f.target a) (hguard : OnceGuarded e f.target m a)
    (honly : ∀ e' i g, m'.Reaches e' i g → g.target = f.target → g = f ∧ e' = e) :
    (∃ i, m'.Listens e i f) ∨ m'.walks.countP (m'.short f.target) ≤ 1 := by
  have hzero (hnone : ∀ i, ¬ m'.Reaches e i f) :
      (∃ i, m'.Listens e i f) ∨ m'.walks.countP (m'.short f.target) ≤ 1 :=
    .inr ((count_short_eq_zero honly hnone).le.trans (Nat.zero_le 1))
  by_cases hl : ∃ i, m.Listens e i f
  · obtain ⟨i, hl⟩ := hl
    rcases h'.listens hs hl with hkept | hremoves
    · exact .inl ⟨i, hkept⟩
    · cases a with
      | next => exact hzero (hm.not_reaches_removed hs hwrapper h' hremoves)
      | call c =>
        cases h' with
        | refused => exact .inl ⟨i, hl⟩
        | unsubscribed c e₀ h₀ hidle hc =>
          have hfound : m.bus.listeners e₀ = some i ∧ f = m.bus.lookup (.handler h₀) := by
            rcases hc with rfl | rfl
            · exact hremoves
            · exact hremoves
          apply hzero
          intro j hr
          have hr := reaches_removed.mp hr
          have hij : j = i := hm.one_set j i hr.1 (.inl hl)
          exact hr.2 (hij ▸ hfound)
        | cleared name =>
          right
          have hcount := hguard hremoves
          obtain ⟨listeners, history, hclear⟩ := m.bus.clear_eq name
          rw [hclear]
          exact hcount
        | _ => exact hremoves.elim
      | _ => exact hremoves.elim
  · right
    have hcount := hm.single.resolve_left hl
    have hlistens : ∀ e' i g, m.Listens e' i g → g.target ≠ f.target := by
      intro e' i g hlisten htarget
      obtain ⟨rfl, rfl⟩ := hm.only e' i g (.inl hlisten) htarget
      exact hl ⟨i, hlisten⟩
    exact (h'.count_short hs hnew hlistens).trans hcount

end Single

section Run

variable {n : ℕ}

/-- When a publish comes to the wrapper, nothing has called it and no replay is going to. -/
theorem OnceSound.calls_due_delivered (hm : OnceSound e f m)
    (hguard : OnceGuarded e f.target m .next) {e₀ : String} {set pos notified : ℕ} {payload : P}
    {stack : List (Frame H P)} {g : Fn H}
    (htop : m.stack = .publishing e₀ set pos payload notified :: stack)
    (hslot : (m.bus.sets set)[pos]? = some (some g)) (htarget : g.target = f.target) :
    m.calls f.target + m.due f.target = 0 := by
  have hreaches : m.Reaches e₀ set g := reaches_of_slot htop hslot
  obtain ⟨rfl, rfl⟩ := hm.only e₀ set g hreaches htarget
  have hcalls : m.calls g.target = 0 := hm.spent.resolve_right fun hnone => hnone set hreaches
  have himmediates : m.bus.immediates.countP (·.handler.target = g.target) = 0 := by
    apply List.countP_eq_zero.mpr
    intro r hr htarget
    exact hguard e₀ set pos payload notified stack g htop hslot rfl r hr
      (of_decide_eq_true htarget)
  have hsum : (m.stack.map (Frame.remaining g.target)).sum = 0 := by
    apply List.sum_eq_zero_iff_forall_eq_nat.mpr
    intro k hk
    obtain ⟨frame, hframe, rfl⟩ := List.mem_map.mp hk
    exact none_remaining hm.alone htop rfl frame hframe
  rw [due, hcalls, himmediates, hsum]

/-- What a step keeps of a once-listener, under the guard. -/
theorem OnceSound.turn (hm : OnceSound e f m) (hs : m.Sound) (hwrapper : f = .wrapper n e h)
    (h' : Turn m a m') (hnew : ∀ e, ¬ Registers e f.target a)
    (hguard : OnceGuarded e f.target m a) : OnceSound e f m' := by
  have hreaches {e' : String} {i : ℕ} {g : Fn H} (hr : m'.Reaches e' i g)
      (htarget : g.target = f.target) : m.Reaches e' i g := by
    rcases h'.of_reaches hs hr with hold | hsub
    · exact hold
    · exact absurd (htarget ▸ hsub.registers) (hnew e')
  have honly : ∀ e' i g, m'.Reaches e' i g → g.target = f.target → g = f ∧ e' = e :=
    fun e' i g hr htarget => hm.only e' i g (hreaches hr htarget) htarget
  constructor
  · exact honly
  · intro e' g hg htarget
    rcases h'.of_scheduled hg with hold | hsub
    · exact hm.scheduled e' g hold htarget
    · exact absurd (htarget ▸ hsub.registers) (hnew e')
  · exact fun i j hi hj => hm.one_set i j (hreaches hi rfl) (hreaches hj rfl)
  · rcases h'.calls_due hnew hguard with hle |
      ⟨e₀, set, pos, payload, notified, stack, g, htop, hslot, htarget, rfl, hsucc⟩
    · exact hle.trans hm.calls_due
    · rw [hsucc, hm.calls_due_delivered hguard htop hslot htarget]
  · rcases hm.not_reaches_called hs hwrapper h' with hsame | hnone
    · rw [hsame]
      exact hm.spent.imp_right fun hnone i hr => hnone i (hreaches hr rfl)
    · exact .inr hnone
  · exact h'.alone hm.calls_due hm.alone
  · exact hm.single_turn hs hwrapper h' hnew hguard honly

/-- The one `subscribeOnce` of a handler makes a wrapper that has not been called. -/
theorem once_subscribed (hm : ∀ e, m.Untold e h) (hs : m.Sound) (e : String)
    (h' : Turn m (.call (.subscribeOnce e (some h))) m')
    (hm' : m'.bus = (m.bus.track h (.wrapper m.bus.allocated e h)).register e
      (.wrapper m.bus.allocated e h)) (hstack : m'.stack = m.stack)
    (hcalls : m'.invocations = m.invocations) :
    OnceSound e (.wrapper m.bus.allocated e h) m' := by
  let f : Fn H := .wrapper m.bus.allocated e h
  have honly : ∀ e' i g, m'.Reaches e' i g → g.target = h → g = f ∧ e' = e := by
    intro e' i g hr htarget
    rcases h'.of_reaches hs hr with hold | ⟨rfl, hg⟩
    · exact absurd htarget ((hm e').gone i g hold)
    · exact ⟨hg, rfl⟩
  have hscheduled : ∀ e' g, m'.Scheduled e' g → g.target = h → g = f := by
    intro e' g hg htarget
    rcases h'.of_scheduled hg with hold | ⟨rfl, heq⟩
    · exact absurd htarget ((hm e').scheduled g hold)
    · exact heq
  have hset {i : ℕ} (hr : m'.Reaches e i f) : m'.bus.listeners e = some i := by
    rcases hr with ⟨hset, _⟩ | ⟨pos, hwalk, hahead⟩
    · exact hset
    · unfold walks at hwalk
      rw [hstack] at hwalk
      rw [hm'] at hahead ⊢
      have hlt : i < (m.bus.track h f).allocated :=
        Nat.lt_succ_of_lt (hs.sets.lt (.inr ⟨pos, hwalk⟩))
      by_cases hold : m.bus.listeners e = some i
      · exact EventBus.register_listeners_of (b := m.bus.track h f) hold
      · have hahead := (EventBus.ahead_register hlt (.inr hold)).mp hahead
        exact absurd rfl ((hm e).gone i f (.inr ⟨pos, hwalk, hahead⟩))
  have hquiet : ∀ frame ∈ m'.stack, Frame.remaining h frame = 0 := by
    rw [hstack]
    intro frame hframe
    cases frame with
    | replaying e past k len g =>
      have htarget : g.target ≠ h := (hm e).scheduled g (.inr ⟨past, k, len, hframe⟩)
      rw [remaining_replaying, if_neg htarget]
    | _ => rfl
  have hdue : m'.due h ≤ 1 := by
    have hold : m.bus.immediates.countP (·.handler.target = h) = 0 := by
      apply List.countP_eq_zero.mpr
      intro r hr htarget
      have hdue : m.Scheduled r.eventName r.handler := .inl ⟨r, hr, rfl, rfl⟩
      exact (hm r.eventName).scheduled r.handler hdue (of_decide_eq_true htarget)
    have hnew : ((m.bus.track h f).replays e f).countP (·.handler.target = h) ≤ 1 :=
      List.countP_le_length.trans (EventBus.length_replays_le _ e f)
    have hsum : (m'.stack.map (Frame.remaining h)).sum = 0 := by
      apply List.sum_eq_zero_iff_forall_eq_nat.mpr
      intro k hk
      obtain ⟨frame, hframe, rfl⟩ := List.mem_map.mp hk
      exact hquiet frame hframe
    have himmediates : m'.bus.immediates =
        m.bus.immediates ++ (m.bus.track h f).replays e f := by
      rw [hm', EventBus.register_immediates]
      rfl
    rw [due, hsum, himmediates, List.countP_append, hold]
    omega
  have hnone : m'.calls h = 0 := by
    unfold EventLoop.calls
    rw [hcalls, List.length_eq_zero_iff, List.filter_eq_nil_iff]
    exact fun c hc htarget => (hm c.eventName).received c hc rfl (of_decide_eq_true htarget)
  constructor
  · exact honly
  · exact hscheduled
  · exact fun i j hi hj => Option.some.inj ((hset hi).symm.trans (hset hj))
  · show m'.calls h + m'.due h ≤ 1
    omega
  · exact .inl hnone
  · exact fun frame hframe hpos => absurd (hquiet frame hframe) (Nat.pos_iff_ne_zero.mp hpos)
  · left
    unfold Listens
    rw [hm']
    exact EventBus.register_listens _ e f

/-- In a run that keeps to the guard, a handler registered by one `subscribeOnce` and by no
other call is called at most once. -/
theorem once_fires_at_most_once {historyMaxSize : ℕ} {before after : List (LoopEvent H P)}
    {t : EventLoop H P} (hbefore : run step (new historyMaxSize) before = some m)
    (hstep : m.step (.call (.subscribeOnce e (some h))) = some m')
    (hafter : run step m' after = some t)
    (honly : ∀ a ∈ before ++ after, ∀ e, ¬ Registers e h a)
    (hguard : Along step (fun s a _ => OnceGuarded e h s a) m' after) :
    (t.invocations.filter (·.handler = h)).length ≤ 1 := by
  have hold : ∀ e, m.Sound ∧ m.Untold e h := fun e =>
    untold_of_run hbefore fun a ha => honly a (List.mem_append_left _ ha) e
  have hs : m.Sound := (hold e).1
  have hturn := turn_of_step hstep
  have hm' : m.perform (.subscribeOnce e (some h)) = m' := by
    by_cases hidle : m.idle
    · simpa [step, hidle] using hstep
    · simp [step, hidle] at hstep
  have honce : OnceSound e (.wrapper m.bus.allocated e h) m' := by
    subst hm'
    exact once_subscribed (fun e => (hold e).2) hs e hturn rfl rfl rfl
  have hlater : ∀ a ∈ after, ∀ e, ¬ Registers e h a :=
    fun a ha => honly a (List.mem_append_right _ ha)
  have ht : t.Sound ∧ OnceSound e (.wrapper m.bus.allocated e h) t := by
    apply Along.inv (I := fun s => s.Sound ∧ OnceSound e (.wrapper m.bus.allocated e h) s) _
      ⟨hs.turn hturn, honce⟩ ((along_of_forall hlater).and hguard) hafter
    intro s a s' hsound hs hφ
    have hturn := turn_of_step hs
    exact ⟨hsound.1.turn hturn, hsound.2.turn hsound.1 rfl hturn hφ.1 hφ.2⟩
  have hcalls : t.calls h + t.due h ≤ 1 := ht.2.calls_due
  unfold EventLoop.calls at hcalls
  omega

/-- Two payloads are in the history when the handler is registered: the replay plays it both. -/
theorem replayed_twice :
    (run step (new 2 : EventLoop Unit ℕ)
        [.call (.publish "created" 1), .call (.publish "created" 2),
          .call (.subscribeOnce "created" (some ())), .tick, .next, .leave,
          .next]).map (·.invocations) =
      some [⟨(), "created", 1, true⟩, ⟨(), "created", 2, true⟩] := by
  decide

/-- The handler is registered while one payload is in the history, which is played to it before
another is published. -/
def onePast : EventLoop Unit ℕ :=
  ((new 2).perform (.publish "created" 1)).perform (.subscribeOnce "created" (some ()))

def playOne : List (LoopEvent Unit ℕ) :=
  [.tick, .next, .leave, .next, .call (.publish "created" 2)]

theorem replayed_once :
    (((run step onePast playOne).getD onePast).invocations.filter (·.handler = ())).length ≤ 1 := by
  have hbefore : run step (new 2 : EventLoop Unit ℕ) [.call (.publish "created" 1)] =
      some ((new 2).perform (.publish "created" 1)) := rfl
  have hafter : run step onePast playOne = some ((run step onePast playOne).getD onePast) := rfl
  refine once_fires_at_most_once (e := "created") hbefore rfl hafter ?_ ?_
  · simp [Registers, playOne]
  · refine Along.cons rfl ?_ (Along.cons rfl ?_ (Along.cons rfl trivial (Along.cons rfl ?_
      (Along.cons rfl trivial trivial))))
    · rintro r rest hdue _
      obtain ⟨rfl, _⟩ := List.cons.inj hdue
      decide
    · rintro e set pos payload notified stack f htop
      cases htop
    · rintro e set pos payload notified stack f htop
      cases htop

end Run

end EventLoop

end TimeOff
