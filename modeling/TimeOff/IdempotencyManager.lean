import TimeOff.CircuitBreaker
import Mathlib.Logic.Function.Basic

/-! `IdempotencyManager`, the in-memory record of idempotency keys, under executions that come
and go in any order. An entry knows its key only: the response of an execution whose entry has
expired goes into whatever entry has the key now. -/
namespace TimeOff

open Transitions

inductive EntryState | inFlight | completed
deriving DecidableEq

structure IdempotencyEntry (R : Type) where
  state : EntryState
  fingerprint : String
  response : Option R
  expiresAt : ℚ

structure IdempotencyManager (R : Type) where
  ttlMs : ℚ
  store : String → Option (IdempotencyEntry R)

inductive BeginError | invalidKey | keyReused
deriving DecidableEq

def BeginError.message : BeginError → String
  | .invalidKey => "Idempotency key must be a non-empty string"
  | .keyReused => "Idempotency key reused with different request payload"

inductive BeginStatus (R : Type)
  | new
  | inFlight
  | completed (response : Option R)
deriving DecidableEq

namespace IdempotencyManager

variable {P R : Type}

def new (ttlMs : Option ℚ) : IdempotencyManager R :=
  ⟨(truthy ttlMs).getD 86400000, fun _ => none⟩

def cleanup (m : IdempotencyManager R) (now : ℚ) : IdempotencyManager R :=
  { m with store := fun k => (m.store k).filter fun v => !decide (v.expiresAt ≤ now) }

def begin (generateFingerprint : P → String) (m : IdempotencyManager R) (key : String)
    (payload : P) (now : ℚ) : Except BeginError (BeginStatus R) × IdempotencyManager R :=
  if key = "" then (.error .invalidKey, m)
  else
    let m := m.cleanup now
    let fingerprint := generateFingerprint payload
    match m.store key with
    | some existing =>
      if existing.fingerprint ≠ fingerprint then (.error .keyReused, m)
      else if existing.state = .inFlight then (.ok .inFlight, m)
      else (.ok (.completed existing.response), m)
    | none =>
      (.ok .new, { m with
        store := Function.update m.store key
          (some ⟨.inFlight, fingerprint, none, now + m.ttlMs⟩) })

def complete (m : IdempotencyManager R) (key : String) (response : R) : IdempotencyManager R :=
  match m.store key with
  | none => m
  | some existing =>
    { m with
      store := Function.update m.store key
        (some { existing with state := .completed, response := some response }) }

def remove (m : IdempotencyManager R) (key : String) : IdempotencyManager R :=
  { m with store := Function.update m.store key none }

theorem cleanup_eq_some {m : IdempotencyManager R} {now : ℚ} {key : String}
    {entry : IdempotencyEntry R} :
    (m.cleanup now).store key = some entry ↔
      m.store key = some entry ∧ now < entry.expiresAt := by
  simp [cleanup, Option.filter_eq_some_iff]

section Begin

variable {generateFingerprint : P → String} {m : IdempotencyManager R} {key : String}
  {payload : P} {now : ℚ}

/-- A replay comes from a live entry of the same fingerprint. -/
theorem begin_completed {response : Option R} :
    (m.begin generateFingerprint key payload now).1 = .ok (.completed response) ↔
      key ≠ "" ∧ ∃ entry, m.store key = some entry ∧ now < entry.expiresAt ∧
        entry.fingerprint = generateFingerprint payload ∧ entry.state = .completed ∧
        entry.response = response := by
  unfold begin
  by_cases hkey : key = ""
  · rw [if_pos hkey]
    exact iff_of_false (fun h => nomatch h) fun h => h.1 hkey
  rw [if_neg hkey]
  dsimp only
  -- no live entry: the answer would be a new execution
  cases hfound : (m.cleanup now).store key with
  | none =>
    refine iff_of_false (fun h => nomatch h) ?_
    intro h
    obtain ⟨_, entry, hentry, hlive, _⟩ := h
    rw [cleanup_eq_some.mpr ⟨hentry, hlive⟩] at hfound
    cases hfound
  -- a live entry answers by its fingerprint and its state
  | some existing =>
    obtain ⟨hentry, hlive⟩ := cleanup_eq_some.mp hfound
    dsimp only
    constructor
    · intro h
      split at h
      · cases h
      · next hsame =>
        split at h
        · cases h
        · next hstate =>
          cases h
          refine ⟨hkey, existing, hentry, hlive, not_not.mp hsame, ?_, rfl⟩
          cases hs : existing.state with
          | inFlight => exact absurd hs hstate
          | completed => rfl
    · intro h
      obtain ⟨_, entry, hentry', _, hsame, hstate, hresponse⟩ := h
      obtain rfl : existing = entry := Option.some.inj (hentry.symm.trans hentry')
      rw [if_neg (not_not.mpr hsame), if_neg (by rw [hstate]; decide), hresponse]

/-- What `begin` leaves under a key was there, or is the entry of a new execution. -/
theorem begin_store {k : String} {entry : IdempotencyEntry R}
    (h : (m.begin generateFingerprint key payload now).2.store k = some entry) :
    m.store k = some entry ∨
      k ≠ "" ∧ entry = ⟨.inFlight, generateFingerprint payload, none, now + m.ttlMs⟩ := by
  unfold begin at h
  by_cases hkey : key = ""
  · rw [if_pos hkey] at h
    exact .inl h
  rw [if_neg hkey] at h
  dsimp only at h
  -- what the cleanup keeps was there
  have hold (hclean : (m.cleanup now).store k = some entry) : m.store k = some entry :=
    (cleanup_eq_some.mp hclean).1
  cases hfound : (m.cleanup now).store key with
  | some existing =>
    rw [hfound] at h
    dsimp only at h
    split at h
    · exact .inl (hold h)
    · split at h
      · exact .inl (hold h)
      · exact .inl (hold h)
  | none =>
    rw [hfound] at h
    dsimp only at h
    -- only the entry of the key is written
    by_cases hk : k = key
    · rw [hk, Function.update_self] at h
      exact .inr ⟨hk ▸ hkey, (Option.some.inj h).symm⟩
    · rw [Function.update_of_ne hk] at h
      exact .inl (hold h)

end Begin

theorem complete_store {m : IdempotencyManager R} {key k : String} {response : R}
    {entry : IdempotencyEntry R} (h : (m.complete key response).store k = some entry) :
    m.store k = some entry ∨ k = key ∧ ∃ existing, m.store key = some existing ∧
      entry = { existing with state := .completed, response := some response } := by
  unfold complete at h
  -- without an entry the completion is dropped
  cases hfound : m.store key with
  | none =>
    rw [hfound] at h
    exact .inl h
  | some existing =>
    rw [hfound] at h
    dsimp only at h
    by_cases hk : k = key
    · rw [hk, Function.update_self] at h
      exact .inr ⟨hk, existing, rfl, (Option.some.inj h).symm⟩
    · rw [Function.update_of_ne hk] at h
      exact .inl h

theorem complete_self {m : IdempotencyManager R} {key : String} {existing : IdempotencyEntry R}
    (h : m.store key = some existing) (response : R) :
    (m.complete key response).store key =
      some { existing with state := .completed, response := some response } := by
  unfold complete
  rw [h]
  exact Function.update_self ..

end IdempotencyManager

/-- The manager with the executions that were told `NEW` and have not ended, and what ended
ones passed to `complete`. -/
structure ManagerRun (P R : Type) where
  manager : IdempotencyManager R
  now : ℚ
  running : List (String × P)
  completed : List (String × P × R)

inductive ManagerEvent (P R : Type)
  | begin (key : String) (payload : P)
  | complete (i : ℕ) (response : R)
  | remove (i : ℕ)
  | elapse (now : ℚ)

namespace ManagerRun

variable {P R : Type} (generateFingerprint : P → String)

def init (ttlMs : Option ℚ) (now : ℚ) : ManagerRun P R := ⟨.new ttlMs, now, [], []⟩

/-- An execution is named by its place among the running ones. -/
def step (s : ManagerRun P R) : ManagerEvent P R → Option (ManagerRun P R)
  | .begin key payload =>
    let answer := s.manager.begin generateFingerprint key payload s.now
    some
      { s with
        manager := answer.2
        running :=
          match answer.1 with
          | .ok .new => s.running ++ [(key, payload)]
          | _ => s.running }
  | .complete i response =>
    (s.running[i]?).map fun execution =>
      { s with
        manager := s.manager.complete execution.1 response
        running := s.running.eraseIdx i
        completed := (execution.1, execution.2, response) :: s.completed }
  | .remove i =>
    (s.running[i]?).map fun execution =>
      { s with
        manager := s.manager.remove execution.1
        running := s.running.eraseIdx i }
  | .elapse t => if s.now ≤ t then some { s with now := t } else none

/-- An execution of a payload with this fingerprint passed this response to `complete`. -/
def PassedFor (s : ManagerRun P R) (key fingerprint : String) (response : R) : Prop :=
  ∃ payload, (key, payload, response) ∈ s.completed ∧
    generateFingerprint payload = fingerprint

/-- A `begin` made now replays the response of an execution of its own fingerprint only. -/
def ReplaysOwn (s : ManagerRun P R) : Prop :=
  ∀ key payload response,
    (s.manager.begin generateFingerprint key payload s.now).1 = .ok (.completed response) →
      ∃ r, response = some r ∧ s.PassedFor generateFingerprint key
        (generateFingerprint payload) r

/-- A `complete` finds under its key no live entry of another fingerprint, or a response that
was already passed for that one. -/
def LandsOnOwn (s : ManagerRun P R) (e : ManagerEvent P R) : Prop :=
  ∀ i response, e = .complete i response → ∀ key payload, s.running[i]? = some (key, payload) →
    ∀ entry, s.manager.store key = some entry → s.now < entry.expiresAt →
      entry.fingerprint = generateFingerprint payload ∨
        s.PassedFor generateFingerprint key entry.fingerprint response

/-- Every entry was created for some payload, and a completed one that is still live has a
response that was passed for its fingerprint. -/
structure Sound (s : ManagerRun P R) : Prop where
  created : ∀ key entry, s.manager.store key = some entry →
    key ≠ "" ∧ ∃ payload, entry.fingerprint = generateFingerprint payload
  passed : ∀ key entry, s.manager.store key = some entry → entry.state = .completed →
    s.now < entry.expiresAt →
      ∃ r, entry.response = some r ∧ s.PassedFor generateFingerprint key entry.fingerprint r

variable {generateFingerprint} {s s' : ManagerRun P R} {e : ManagerEvent P R}

theorem Sound.replaysOwn (h : s.Sound generateFingerprint) :
    s.ReplaysOwn generateFingerprint := by
  intro key payload response hreplay
  obtain ⟨_, entry, hentry, hlive, hsame, hstate, rfl⟩ :=
    IdempotencyManager.begin_completed.mp hreplay
  obtain ⟨r, hr, hpassed⟩ := h.passed key entry hentry hstate hlive
  rw [hsame] at hpassed
  exact ⟨r, hr, hpassed⟩

/-- A response that lands on the live entry of another fingerprint can be replayed there. -/
theorem landsOnOwn_of_replaysOwn (h : s.Sound generateFingerprint)
    (hstep : s.step generateFingerprint e = some s') (hown : s'.ReplaysOwn generateFingerprint) :
    s.LandsOnOwn generateFingerprint e := by
  rintro i response rfl key payload hrunning entry hentry hlive
  by_cases hsame : entry.fingerprint = generateFingerprint payload
  · exact .inl hsame
  right
  obtain ⟨⟨key', payload'⟩, hexecution, rfl⟩ := Option.map_eq_some_iff.mp hstep
  obtain ⟨rfl, rfl⟩ := Prod.mk.inj (Option.some.inj (hexecution.symm.trans hrunning))
  obtain ⟨hkey, creator, hcreator⟩ := h.created key' entry hentry
  have hreplay := hown key' creator (some response) (IdempotencyManager.begin_completed.mpr
    ⟨hkey, _, IdempotencyManager.complete_self hentry response, hlive, hcreator, rfl, rfl⟩)
  obtain ⟨r, hr, passer, hmem, hpasser⟩ := hreplay
  obtain rfl := Option.some.inj hr
  rw [hcreator]
  -- the execution that was passed just now has another fingerprint
  rcases List.mem_cons.mp hmem with heq | hbefore
  · cases heq
    exact absurd (hcreator.trans hpasser.symm) hsame
  · exact ⟨passer, hbefore, hpasser⟩

theorem Sound.step (h : s.Sound generateFingerprint)
    (hstep : s.step generateFingerprint e = some s') (hown : s.LandsOnOwn generateFingerprint e) :
    s'.Sound generateFingerprint := by
  cases e with
  | begin key payload =>
    cases hstep
    -- an entry that `begin` has set is in flight, and of the payload that began
    constructor
    · intro k entry hentry
      rcases IdempotencyManager.begin_store hentry with hold | ⟨hk, rfl⟩
      · exact h.created k entry hold
      · exact ⟨hk, payload, rfl⟩
    · intro k entry hentry hstate hlive
      rcases IdempotencyManager.begin_store hentry with hold | ⟨_, rfl⟩
      · exact h.passed k entry hold hstate hlive
      · cases hstate
  | complete i response =>
    obtain ⟨⟨key, payload⟩, hrunning, rfl⟩ := Option.map_eq_some_iff.mp hstep
    -- what was passed before stays on record
    have hmono {k fingerprint : String} {r : R}
        (hpassed : s.PassedFor generateFingerprint k fingerprint r) :
        ∃ p, (k, p, r) ∈ (key, payload, response) :: s.completed ∧
          generateFingerprint p = fingerprint := by
      obtain ⟨p, hp, hfingerprint⟩ := hpassed
      exact ⟨p, List.mem_cons_of_mem _ hp, hfingerprint⟩
    constructor
    · intro k entry hentry
      rcases IdempotencyManager.complete_store hentry with hold | ⟨rfl, existing, hold, rfl⟩
      · exact h.created k entry hold
      · exact h.created _ existing hold
    · intro k entry hentry hstate hlive
      rcases IdempotencyManager.complete_store hentry with hold | ⟨rfl, existing, hold, rfl⟩
      · obtain ⟨r, hr, hpassed⟩ := h.passed k entry hold hstate hlive
        exact ⟨r, hr, hmono hpassed⟩
      -- the entry may be another execution's, unless the response lands on its own
      · refine ⟨response, rfl, ?_⟩
        rcases hown i response rfl _ payload hrunning existing hold hlive with hsame | hpassed
        · exact ⟨payload, List.mem_cons_self, hsame.symm⟩
        · exact hmono hpassed
  | remove i =>
    obtain ⟨⟨key, payload⟩, hrunning, rfl⟩ := Option.map_eq_some_iff.mp hstep
    -- a removal leaves the other entries
    have hkept {k : String} {entry : IdempotencyEntry R}
        (hentry : (s.manager.remove key).store k = some entry) :
        s.manager.store k = some entry := by
      have hremoved : Function.update s.manager.store key none k = some entry := hentry
      by_cases hk : k = key
      · rw [hk, Function.update_self] at hremoved
        cases hremoved
      · rwa [Function.update_of_ne hk] at hremoved
    exact ⟨fun k entry hentry => h.created k entry (hkept hentry),
      fun k entry hentry => h.passed k entry (hkept hentry)⟩
  | elapse t =>
    obtain ⟨hle, rfl⟩ : s.now ≤ t ∧ s' = { s with now := t } := by
      obtain ⟨hle, heq⟩ := Option.ite_none_right_eq_some.mp hstep
      exact ⟨hle, (Option.some.inj heq).symm⟩
    exact ⟨h.created, fun k entry hentry hstate hlive =>
      h.passed k entry hentry hstate (hle.trans_lt hlive)⟩

theorem sound_init (ttlMs : Option ℚ) (now : ℚ) :
    (init ttlMs now : ManagerRun P R).Sound generateFingerprint :=
  ⟨fun _ _ h => (nomatch h), fun _ _ h => (nomatch h)⟩

/-- Over every run, the manager replays responses of the same fingerprint only, exactly if
each `complete` lands on an entry of its own fingerprint. -/
theorem replays_own_iff (generateFingerprint : P → String) (ttlMs : Option ℚ) (start : ℚ)
    (es : List (ManagerEvent P R)) :
    Along (step generateFingerprint) (fun _ _ s' => s'.ReplaysOwn generateFingerprint)
        (init ttlMs start) es ↔
      Along (step generateFingerprint) (fun s e _ => s.LandsOnOwn generateFingerprint e)
        (init ttlMs start) es := by
  constructor
  · apply Along.mono (Sound generateFingerprint) _ (sound_init ttlMs start)
    intro s e s' hs hstep hown
    have hlands := landsOnOwn_of_replaysOwn hs hstep hown
    exact ⟨hlands, hs.step hstep hlands⟩
  · apply Along.mono (Sound generateFingerprint) _ (sound_init ttlMs start)
    intro s e s' hs hstep hlands
    have hnext := hs.step hstep hlands
    exact ⟨hnext.replaysOwn, hnext⟩

/-- The first execution outlives its entry and completes the one of a second payload. -/
def lateCompletion : Option (ManagerRun String String) :=
  run (step id) (init (some 1000) 1)
    [.begin "k" "first", .elapse 1001, .begin "k" "second", .complete 0 "for the first"]

/-- The second payload is answered with the response to the first. -/
theorem late_completion_replayed :
    -- the entry of the first execution had expired and been taken by the second
    ∃ s, lateCompletion = some s ∧ ¬ s.ReplaysOwn id := by
  have hend : lateCompletion.map (fun s =>
      ((s.manager.begin id "k" "second" s.now).1, s.completed)) =
        some (.ok (.completed (some "for the first")), [("k", "first", "for the first")]) := by
    decide +kernel
  obtain ⟨s, hrun, hs⟩ := Option.map_eq_some_iff.mp hend
  refine ⟨s, hrun, ?_⟩
  intro hown
  have hreplayed : (s.manager.begin id "k" "second" s.now).1 =
      .ok (.completed (some "for the first")) := congrArg Prod.fst hs
  have hcompleted : s.completed = [("k", "first", "for the first")] := congrArg Prod.snd hs
  obtain ⟨r, _, payload, hmem, hsecond⟩ := hown "k" "second" _ hreplayed
  rw [hcompleted] at hmem
  obtain ⟨_, hfirst⟩ := Prod.mk.inj (List.mem_singleton.mp hmem)
  have hpayload : payload = "first" := congrArg Prod.fst hfirst
  rw [hpayload] at hsecond
  exact absurd hsecond (by decide)

end ManagerRun

end TimeOff
