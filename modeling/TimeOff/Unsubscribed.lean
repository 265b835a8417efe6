import TimeOff.EventReach

/-! `unsubscribe` of the event bus: when it takes effect. It removes one function, looked up for
the handler, from the listeners that the event has then. -/
namespace TimeOff

open Transitions

namespace EventLoop

variable {H P : Type} [DecidableEq H] {m m' : EventLoop H P} {a : LoopEvent H P}
  {e e' : String} {h : H} {i : ℕ} {f : Fn H}

/-- No publish on the event can come to the handler. -/
def Gone (m : EventLoop H P) (e : String) (h : H) : Prop :=
  ∀ i f, m.Reaches e i f → f.target ≠ h

/-- All that leads a publish on the event to the handler is the one function that `unsubscribe`
looks up, in the set it removes it from. -/
def Found (m : EventLoop H P) (e : String) (h : H) : Prop :=
  ∀ i f, m.Reaches e i f → f.target = h →
    m.bus.listeners e = some i ∧ f = m.bus.lookup (.handler h)

/-- The handler is subscribed to the event. -/
def Registers (e : String) (h : H) : LoopEvent H P → Prop
  | .call (.subscribe e' (some h')) | .call (.subscribeOnce e' (some h')) => e' = e ∧ h' = h
  | _ => False

omit [DecidableEq H] in
theorem Subscribes.registers (ha : m.Subscribes e f a) : Registers e f.target a := by
  unfold Subscribes at ha
  split at ha
  · exact ⟨ha.1, by rw [ha.2]; rfl⟩
  · exact ⟨ha.1, by rw [ha.2]; rfl⟩
  · exact ha.elim

theorem lookup_target (hs : m.Sound) (h : H) : (m.bus.lookup (.handler h)).target = h := by
  show ((m.bus.onceListeners h).getD (.handler h)).target = h
  cases htracked : m.bus.onceListeners h with
  | none => rfl
  | some f =>
    obtain ⟨id, e, rfl⟩ := hs.tracked htracked
    rfl

/-- Nothing of the event has come to the handler or is on its way to it. -/
structure Untold (e : String) (h : H) (m : EventLoop H P) : Prop where
  gone : m.Gone e h
  scheduled : ∀ f, m.Scheduled e f → f.target ≠ h
  received : ∀ c ∈ m.invocations, c.eventName = e → c.handler ≠ h

theorem Untold.turn (hm : m.Untold e h) (hs : m.Sound) (h' : Turn m a m')
    (hnew : ¬ Registers e h a) : m'.Untold e h := by
  constructor
  · intro i f hr htarget
    rcases h'.of_reaches hs hr with hold | hsub
    · exact hm.gone i f hold htarget
    · exact hnew (htarget ▸ hsub.registers)
  · intro f hf htarget
    rcases h'.of_scheduled hf with hold | hsub
    · exact hm.scheduled f hold htarget
    · exact hnew (htarget ▸ hsub.registers)
  · -- a function that is called is one that something led to
    have hcalled {c : Invocation H P} (hc : m'.invocations = m.invocations ++ [c])
        (hne : c.eventName = e → c.handler ≠ h) :
        ∀ c ∈ m'.invocations, c.eventName = e → c.handler ≠ h := by
      rw [hc]
      intro c' hc'
      rcases List.mem_append.mp hc' with hold | hnew
      · exact hm.received c' hold
      · rw [List.mem_singleton.mp hnew]
        exact hne
    rcases h'.invocations with hsame | ⟨e', i, f, payload, hr, hcall⟩ |
      ⟨e', f, payload, hf, hcall⟩
    · rw [hsame]
      exact hm.received
    · exact hcalled hcall fun he => hm.gone i f (he ▸ hr)
    · exact hcalled hcall fun he => hm.scheduled f (he ▸ hf)

omit [DecidableEq H] in
theorem new_untold (e : String) (h : H) (historyMaxSize : ℕ) :
    (new historyMaxSize : EventLoop H P).Untold e h := by
  constructor
  · rintro i f (⟨hset, _⟩ | ⟨pos, hwalk, _⟩)
    · cases hset
    · cases hwalk
  · rintro f (⟨r, hr, _⟩ | ⟨past, k, len, hframe⟩)
    · cases hr
    · cases hframe
  · exact fun c hc => (nomatch hc)

/-- Until it is subscribed to the event, a handler hears nothing of it. -/
theorem untold_of_run {historyMaxSize : ℕ} {events : List (LoopEvent H P)}
    (hrun : run step (new historyMaxSize) events = some m)
    (hevents : ∀ a ∈ events, ¬ Registers e h a) : m.Sound ∧ m.Untold e h := by
  apply Along.inv (I := fun s => s.Sound ∧ s.Untold e h) _
    ⟨new_sound historyMaxSize, new_untold e h historyMaxSize⟩ (along_of_forall hevents) hrun
  intro s a s' hsound hs hnew
  have hturn := turn_of_step hs
  exact ⟨hsound.1.turn hturn, hsound.2.turn hsound.1 hturn hnew⟩

section Removal

/-- The loop once `unsubscribe` has returned. -/
def removed (m : EventLoop H P) (e : String) (h : H) : EventLoop H P :=
  { m with bus := m.bus.unsubscribe e (.handler h) }

theorem listens_removed : (m.removed e h).Listens e' i f ↔
    m.Listens e' i f ∧ ¬ (m.bus.listeners e = some i ∧ f = m.bus.lookup (.handler h)) := by
  constructor
  · rintro ⟨hset, hf⟩
    have hahead := EventBus.ahead_unsubscribe.mp (SlotSet.ahead_zero.mpr hf)
    exact ⟨⟨EventBus.of_unsubscribe_listeners hset, hahead.1⟩, hahead.2⟩
  · rintro ⟨⟨hset, hf⟩, hkept⟩
    have hmem : some f ∈ (m.removed e h).bus.sets i :=
      EventBus.ahead_unsubscribe.mpr ⟨SlotSet.ahead_zero.mpr hf, hkept⟩
    exact ⟨EventBus.unsubscribe_listeners hset hmem, hmem⟩

theorem reaches_removed : (m.removed e h).Reaches e' i f ↔
    m.Reaches e' i f ∧ ¬ (m.bus.listeners e = some i ∧ f = m.bus.lookup (.handler h)) := by
  unfold Reaches
  rw [listens_removed, or_and_right]
  apply or_congr_right
  constructor
  · rintro ⟨pos, hwalk, hahead⟩
    have hahead := EventBus.ahead_unsubscribe.mp hahead
    exact ⟨⟨pos, hwalk, hahead.1⟩, hahead.2⟩
  · rintro ⟨⟨pos, hwalk, hahead⟩, hkept⟩
    exact ⟨pos, hwalk, EventBus.ahead_unsubscribe.mpr ⟨hahead, hkept⟩⟩

theorem gone_removed_iff : (m.removed e h).Gone e h ↔ m.Found e h := by
  constructor
  · intro hgone i f hr htarget
    by_contra hkept
    exact hgone i f (reaches_removed.mpr ⟨hr, hkept⟩) htarget
  · intro hfound i f hr htarget
    have hr := reaches_removed.mp hr
    exact hr.2 (hfound i f hr.1 htarget)

/-- Nothing but functions of the handler, in the set of the event, is removed. -/
theorem others_kept (hs : m.Sound) (hother : e' ≠ e ∨ f.target ≠ h) (hr : m.SetRef e' i) :
    ¬ (m.bus.listeners e = some i ∧ f = m.bus.lookup (.handler h)) := by
  rintro ⟨hset, rfl⟩
  rcases hother with he | htarget
  · exact he (hs.sets.inj hr (.inl hset))
  · exact htarget (lookup_target hs h)

end Removal

/-- A handler that is gone stays gone, and is not called, until it is subscribed again. -/
theorem Gone.run {events : List (LoopEvent H P)} (hs : m.Sound) (hgone : m.Gone e h)
    (hevents : ∀ a ∈ events, ¬ Registers e h a) (hrun : run step m events = some m') :
    ∀ c ∈ m'.invocations.drop m.invocations.length, c.eventName = e → c.replayed = false →
      c.handler ≠ h := by
  induction events generalizing m with
  | nil =>
    obtain rfl : m = m' := Option.some.inj hrun
    rw [List.drop_length]
    exact fun c hc => (nomatch hc)
  | cons a events ih =>
    obtain ⟨m₁, hstep, hrest⟩ := Option.bind_eq_some_iff.mp hrun
    have hturn := turn_of_step hstep
    have hgone₁ : m₁.Gone e h := by
      intro i f hr
      rcases hturn.of_reaches hs hr with hold | hnew
      · exact hgone i f hold
      · intro htarget
        exact hevents a List.mem_cons_self (htarget ▸ hnew.registers)
    have hlater := ih (hs.turn hturn) hgone₁
      (fun b hb => hevents b (List.mem_cons_of_mem a hb)) hrest
    -- the call that this step makes, if it makes one, is not of the handler
    have hnow (i : Invocation H P) (hm₁ : m₁.invocations = m.invocations ++ [i])
        (hi : i.eventName = e → i.replayed = false → i.handler ≠ h) :
        ∀ c ∈ m'.invocations.drop m.invocations.length, c.eventName = e → c.replayed = false →
          c.handler ≠ h := by
      obtain ⟨later, hm'⟩ := invocations_prefix hrest
      rw [← hm'] at hlater ⊢
      rw [List.drop_left] at hlater
      rw [hm₁, List.append_assoc, List.drop_left]
      intro c hc
      rcases List.mem_append.mp hc with hfirst | hrest
      · rw [List.mem_singleton.mp hfirst]
        exact hi
      · exact hlater c hrest
    rcases hturn.invocations with hsame | ⟨e', i, f, payload, hr, hnew⟩ |
      ⟨e', f, payload, _, hnew⟩
    · rw [← hsame]
      exact hlater
    · apply hnow _ hnew
      intro he _
      exact hgone i f (he ▸ hr)
    · apply hnow _ hnew
      intro _ hlive
      cases hlive

section Delivery

/-- The calls under way, a handler with control: each handler was called by a loop. -/
inductive Nested : List (Frame H P) → Prop
  | nil : Nested []
  | cons (h : H) (frame : Frame H P) {stack : List (Frame H P)}
    (loop : ∀ h', frame ≠ .running h') (rest : Nested stack) :
    Nested (.running h :: frame :: stack)

/-- Either a handler, or top-level code, has control, or a loop that it is called from. -/
def WellNested (stack : List (Frame H P)) : Prop :=
  Nested stack ∨ ∃ frame rest, stack = frame :: rest ∧ (∀ h, frame ≠ .running h) ∧ Nested rest

omit [DecidableEq H] in
theorem Nested.of_loop {frame : Frame H P} {stack : List (Frame H P)}
    (h : WellNested (frame :: stack)) (loop : ∀ h, frame ≠ .running h) : Nested stack := by
  rcases h with hnested | ⟨frame', rest, heq, _, hrest⟩
  · cases hnested with
    | cons h => exact absurd rfl (loop h)
  · rw [(List.cons.inj heq).2]
    exact hrest

omit [DecidableEq H] in
theorem Nested.of_running {stack : List (Frame H P)} (h' : WellNested (.running h :: stack)) :
    Nested (.running h :: stack) := by
  rcases h' with hnested | ⟨frame, rest, heq, loop, _⟩
  · exact hnested
  · exact absurd (List.cons.inj heq).1.symm (loop h)

theorem Turn.wellNested (h : Turn m a m') (hw : WellNested m.stack) : WellNested m'.stack := by
  have hidle (hidle : m.idle) : Nested m.stack := by
    unfold idle at hidle
    split at hidle
    · next hstack =>
      rw [hstack]
      exact .nil
    · next h stack hstack =>
      rw [hstack] at hw ⊢
      exact .of_running hw
    · cases hidle
  cases h with
  | published e payload set idle =>
    exact .inr ⟨_, _, rfl, fun _ h => (nomatch h), hidle idle⟩
  | finished e set pos payload notified stack htop =>
    rw [htop] at hw
    exact .inl (.of_loop hw fun _ h => (nomatch h))
  | skipped e set pos payload notified stack htop =>
    rw [htop] at hw
    exact .inr ⟨_, _, rfl, fun _ h => (nomatch h), .of_loop hw fun _ h => (nomatch h)⟩
  | delivered e set pos payload notified stack f htop =>
    rw [htop] at hw
    exact .inl (.cons _ _ (fun _ h => (nomatch h)) (.of_loop hw fun _ h => (nomatch h)))
  | playedOut e past k len f stack htop =>
    rw [htop] at hw
    exact .inl (.of_loop hw fun _ h => (nomatch h))
  | missing e past k len f stack htop =>
    rw [htop] at hw
    exact .inr ⟨_, _, rfl, fun _ h => (nomatch h), .of_loop hw fun _ h => (nomatch h)⟩
  | played e past k len f stack payload htop =>
    rw [htop] at hw
    exact .inl (.cons _ _ (fun _ h => (nomatch h)) (.of_loop hw fun _ h => (nomatch h)))
  | returned handler stack htop =>
    rw [htop] at hw
    cases Nested.of_running hw with
    | cons _ frame loop rest => exact .inr ⟨frame, _, rfl, loop, rest⟩
  | thrown handler frame stack htop =>
    rw [htop] at hw
    cases Nested.of_running hw with
    | cons _ _ loop rest => exact .inl rest
  | ticked r rest => exact .inr ⟨_, _, rfl, fun _ h => (nomatch h), .nil⟩
  | _ => exact hw

/-- The publish on top goes on to any function before it, if each handler just returns. -/
theorem delivered_of_ahead {set pos notified : ℕ} {payload : P} {stack : List (Frame H P)}
    (htop : m.stack = .publishing e set pos payload notified :: stack)
    (hahead : SlotSet.Ahead (m.bus.sets set) pos f) :
    ∃ events t, (∀ a ∈ events, ¬ Registers e h a) ∧ run step m events = some t ∧
      ∃ c ∈ t.invocations.drop m.invocations.length,
        c.eventName = e ∧ c.replayed = false ∧ c.handler = f.target := by
  -- by the number of slots that are left
  obtain ⟨k, hk⟩ : ∃ k, (m.bus.sets set).length - pos = k := ⟨_, rfl⟩
  induction k generalizing m pos notified with
  | zero =>
    have hend : (m.bus.sets set)[pos]? = none := List.getElem?_eq_none_iff.mpr (by omega)
    exact absurd hahead (SlotSet.not_ahead_of_end hend)
  | succ k ih =>
    cases hslot : (m.bus.sets set)[pos]? with
    | none => exact absurd hahead (SlotSet.not_ahead_of_end hslot)
    | some slot =>
      by_cases hmet : slot = some f
      · have hstep : m.step .next = some ({ m with
            stack := .publishing e set (pos + 1) payload (notified + 1) :: stack }.invoke
              f e payload false) := by
          simp [step, next, htop, hslot, hmet]
        refine ⟨[.next], _, by simp [Registers], run_singleton hstep,
          ⟨f.target, e, payload, false⟩, ?_, rfl, rfl, rfl⟩
        simp [invoke]
      · have hlater := ((SlotSet.ahead_iff hslot).mp hahead).resolve_left hmet
        cases slot with
        | none =>
          have hstep : m.step .next = some { m with
              stack := .publishing e set (pos + 1) payload notified :: stack } := by
            simp [step, next, htop, hslot]
          obtain ⟨events, t, hevents, hrun, hcalled⟩ := @ih
            { m with stack := .publishing e set (pos + 1) payload notified :: stack }
            (pos + 1) notified rfl hlater (by dsimp only; omega)
          refine ⟨.next :: events, t, ?_, Option.bind_eq_some_iff.mpr ⟨_, hstep, hrun⟩, hcalled⟩
          exact List.forall_mem_cons.mpr ⟨id, hevents⟩
        | some g =>
          have hne : f ≠ g := fun heq => hmet (congrArg some heq.symm)
          let called := { m with
            stack := .publishing e set (pos + 1) payload (notified + 1) :: stack }.invoke
              g e payload false
          let back := { called with
            stack := .publishing e set (pos + 1) payload (notified + 1) :: stack }
          have hstep : m.step .next = some called := by simp [step, next, htop, hslot, called]
          have hleave : called.step .leave = some back := by simp [step, called, invoke, back]
          have hlater' : SlotSet.Ahead (back.bus.sets set) (pos + 1) f :=
            (EventBus.ahead_enter_of_ne hne).mpr hlater
          have hlength : (back.bus.sets set).length = (m.bus.sets set).length :=
            m.bus.enter_length g set
          obtain ⟨events, t, hevents, hrun, c, hc, hcalled⟩ :=
            ih (m := back) rfl hlater' (by omega)
          refine ⟨.next :: .leave :: events, t, ?_, ?_, c, ?_, hcalled⟩
          · exact List.forall_mem_cons.mpr ⟨id, List.forall_mem_cons.mpr ⟨id, hevents⟩⟩
          · exact Option.bind_eq_some_iff.mpr
              ⟨_, hstep, Option.bind_eq_some_iff.mpr ⟨_, hleave, hrun⟩⟩
          · have hle : m.invocations.length ≤ back.invocations.length := by
              simp [back, called, invoke]
            exact List.drop_subset_drop_left _ hle hc

/-- A handler that has control can throw, and its caller after it, until a given publish is
on top. -/
theorem unwound_to {pos : ℕ} (hn : Nested m.stack) (hwalk : (e, i, pos) ∈ m.walks) :
    ∃ events t, (∀ a ∈ events, ¬ Registers e h a) ∧ run step m events = some t ∧
      t.bus = m.bus ∧ t.invocations = m.invocations ∧
      ∃ payload notified stack, t.stack = .publishing e i pos payload notified :: stack := by
  obtain ⟨stack, hstack⟩ : ∃ stack, m.stack = stack := ⟨_, rfl⟩
  unfold walks at hwalk
  rw [hstack] at hn hwalk
  induction hn generalizing m with
  | nil => cases hwalk
  | @cons h' frame rest loop _ ih =>
    have hleave : m.step .leave = some { m with stack := frame :: rest } := by
      simp [step, hstack]
    have hthrow : m.step .throw = some { m with stack := rest } := by simp [step, hstack]
    by_cases hframe : Frame.walk frame = some (e, i, pos)
    · refine ⟨[.leave], _, by simp [Registers], run_singleton hleave, rfl, rfl, ?_⟩
      cases frame with
      | publishing e' set pos' payload notified =>
        cases hframe
        exact ⟨payload, notified, rest, rfl⟩
      | _ => cases hframe
    · have hrest : (e, i, pos) ∈ rest.filterMap Frame.walk := by
        obtain ⟨fr, hfr, heq⟩ := List.mem_filterMap.mp hwalk
        rcases List.mem_cons.mp hfr with rfl | hfr
        · cases heq
        · rcases List.mem_cons.mp hfr with rfl | hfr
          · exact absurd heq hframe
          · exact List.mem_filterMap.mpr ⟨fr, hfr, heq⟩
      obtain ⟨events, t, hevents, hrun, hbus, hinv, htop⟩ :=
        ih (m := { m with stack := rest }) hrest rfl
      exact ⟨.throw :: events, t, List.forall_mem_cons.mpr ⟨id, hevents⟩,
        Option.bind_eq_some_iff.mpr ⟨_, hthrow, hrun⟩, hbus, hinv, htop⟩

/-- What a publish can come to is called in some run that subscribes nothing. -/
theorem called_of_reaches [Nonempty P] (hidle : m.idle) (hw : WellNested m.stack)
    (hr : m.Reaches e i f) :
    ∃ events t, (∀ a ∈ events, ¬ Registers e h a) ∧ run step m events = some t ∧
      ∃ c ∈ t.invocations.drop m.invocations.length,
        c.eventName = e ∧ c.replayed = false ∧ c.handler = f.target := by
  rcases hr with ⟨hset, hf⟩ | ⟨pos, hwalk, hahead⟩
  -- a listener is called by a new publish
  · obtain ⟨payload⟩ := ‹Nonempty P›
    let begun : EventLoop H P :=
      { m with
        bus := m.bus.record e payload
        published := m.published ++ [(e, payload)]
        stack := .publishing e i 0 payload 0 :: m.stack }
    have haudience : (m.bus.record e payload).audience e = some i :=
      audience_record payload hset hf
    have hstep : m.step (.call (.publish e payload)) = some begun := by
      simp [step, hidle, perform, haudience, begun]
    have hahead : SlotSet.Ahead (begun.bus.sets i) 0 f := by
      show SlotSet.Ahead ((m.bus.record e payload).sets i) 0 f
      rw [EventBus.record_sets]
      exact SlotSet.ahead_zero.mpr hf
    obtain ⟨events, t, hevents, hrun, hcalled⟩ := delivered_of_ahead (m := begun) rfl hahead
    exact ⟨_ :: events, t, List.forall_mem_cons.mpr ⟨id, hevents⟩,
      Option.bind_eq_some_iff.mpr ⟨_, hstep, hrun⟩, hcalled⟩
  · have hn : Nested m.stack := by
      rcases hw with hn | ⟨frame, rest, hstack, loop, _⟩
      · exact hn
      · unfold idle at hidle
        rw [hstack] at hidle
        cases frame with
        | running h' => exact absurd rfl (loop h')
        | _ => cases hidle
    obtain ⟨events, t, hevents, hrun, hbus, hinv, payload, notified, stack, htop⟩ :=
      unwound_to (h := h) hn hwalk
    rw [← hbus] at hahead
    obtain ⟨later, t', hlater, hrun', hcalled⟩ := delivered_of_ahead (h := h) htop hahead
    refine ⟨events ++ later, t', ?_, ?_, ?_⟩
    · exact fun a ha => (List.mem_append.mp ha).elim (hevents a) (hlater a)
    · rw [run_append, hrun]
      exact hrun'
    · rw [← hinv]
      exact hcalled

end Delivery

/-- Whatever `unsubscribe` finds, nothing else is affected; it takes effect exactly if all that
leads a publish on the event to the handler is what it finds. -/
theorem unsubscribe_takes_effect_iff [Nonempty P] {historyMaxSize : ℕ}
    {events : List (LoopEvent H P)} (hrun : run step (new historyMaxSize) events = some m)
    {c : BusCall H P} (hc : c = .unsubscribe e h ∨ c = .unsubscriber e h)
    (hstep : m.step (.call c) = some m') :
    (∀ e' i f, e' ≠ e ∨ f.target ≠ h →
      (m'.Listens e' i f ↔ m.Listens e' i f) ∧ (m'.Reaches e' i f ↔ m.Reaches e' i f)) ∧
    ((∀ later t, (∀ a ∈ later, ¬ Registers e h a) → run step m' later = some t →
        ∀ c ∈ t.invocations.drop m'.invocations.length, c.eventName = e → c.replayed = false →
          c.handler ≠ h) ↔
      m.Found e h) := by
  have hs : m.Sound := sound_of_run (new_sound historyMaxSize) hrun
  have hw : WellNested m.stack := by
    apply run_inv (I := fun s => WellNested s.stack) _ (.inl .nil) hrun
    exact fun _ _ _ hw hstep => (turn_of_step hstep).wellNested hw
  have hidle : m.idle := by
    by_contra hbusy
    simp [step, hbusy] at hstep
  have hm' : m' = m.removed e h := by
    have hperform : m.perform c = m' := by simpa [step, hidle] using hstep
    rw [← hperform]
    rcases hc with rfl | rfl
    · rfl
    · rfl
  rw [hm']
  constructor
  · intro e' i f hother
    constructor
    · rw [listens_removed]
      exact and_iff_left_of_imp fun hl => others_kept hs hother (.inl hl.1)
    · rw [reaches_removed]
      exact and_iff_left_of_imp fun hr => others_kept hs hother hr.setRef
  · rw [← gone_removed_iff]
    have hs' : (m.removed e h).Sound := by
      rw [← hm']
      exact hs.turn (turn_of_step hstep)
    constructor
    · intro hnone i f hr htarget
      obtain ⟨later, t, hlater, hrun, c, hc, he, hlive, hcalled⟩ :=
        called_of_reaches (m := m.removed e h) (h := h) hidle hw hr
      exact hnone later t hlater hrun c hc he hlive (hcalled.trans htarget)
    · exact fun hgone later t hlater hrun => hgone.run hs' hlater hrun

/-- A handler that was called once on one event is subscribed to another and unsubscribed from
it: the wrapper of the first is looked up, and the next publish calls the handler. -/
theorem tracked_handler_stays :
    (run step (new 0 : EventLoop Unit ℕ)
        [.call (.subscribeOnce "created" (some ())), .call (.publish "created" 1), .next, .leave,
          .next, .call (.subscribe "approved" (some ())),
          .call (.unsubscribe "approved" ())]).map (·.invocations) =
      some [⟨(), "created", 1, false⟩] ∧
    (run step (new 0 : EventLoop Unit ℕ)
        [.call (.subscribeOnce "created" (some ())), .call (.publish "created" 1), .next, .leave,
          .next, .call (.subscribe "approved" (some ())), .call (.unsubscribe "approved" ()),
          .call (.publish "approved" 2), .next]).map (·.invocations) =
      some [⟨(), "created", 1, false⟩, ⟨(), "approved", 2, false⟩] := by
  decide

/-- One handler on two events. -/
def onBoth : EventLoop Unit ℕ :=
  ((new 0).perform (.subscribe "created" (some ()))).perform (.subscribe "approved" (some ()))

theorem unsubscribed_from_one :
    ((onBoth.perform (.unsubscribe "approved" ())).Listens "created" 0 (.handler ()) ↔
        onBoth.Listens "created" 0 (.handler ())) ∧
      ¬ ∃ c ∈ ((onBoth.perform (.unsubscribe "approved" ())).perform
          (.publish "approved" 1)).invocations, c.eventName = "approved" ∧ c.replayed = false := by
  have hrun : run step (new 0) [.call (.subscribe "created" (some ())),
      .call (.subscribe "approved" (some ()))] = some onBoth := rfl
  have heffect := unsubscribe_takes_effect_iff hrun (.inl rfl)
    (rfl : onBoth.step (.call (.unsubscribe "approved" ())) = some _)
  have hfound : onBoth.Found "approved" () := by
    rintro i f (⟨hset, hf⟩ | ⟨pos, hwalk, _⟩) _
    · obtain rfl : 1 = i := Option.some.inj hset
      exact ⟨rfl, Option.some.inj (List.mem_singleton.mp hf)⟩
    · cases hwalk
  constructor
  · exact (heffect.1 "created" 0 (.handler ()) (.inl (by decide))).1
  · rintro ⟨c, hc, hname, hlive⟩
    exact heffect.2.mpr hfound [.call (.publish "approved" 1)] _ (by simp [Registers])
      rfl c hc hname hlive rfl

end EventLoop

end TimeOff
