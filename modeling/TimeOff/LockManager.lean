import TimeOff.Transitions
import Mathlib.Algebra.Order.Monoid.WithTop
import Mathlib.Algebra.Order.Ring.Rat
import Mathlib.Data.List.Nodup
import Mathlib.Logic.Function.Basic

/-! `LockManager` under calls from any number of holders. A lock is taken over once it has
expired and is released by its token only; the run keeps, beside the manager, the tokens it has
granted. -/
namespace TimeOff

open Transitions

/-- A point in time or, if there is none, never. -/
abbrev Expiry := WithTop ℚ

structure Lock where
  token : String
  expiresAt : Expiry
deriving DecidableEq

structure LockManager where
  locks : String → Option Lock

structure Acquisition where
  acquired : Bool
  token : Option String
  key : String
  expiresAt : Option Expiry

/-- The error of `withLock` when the lock is not granted. -/
structure LockedError where
  message : String
  code : String
  status : ℕ
deriving DecidableEq

def resourceLocked (resourceKey : String) : LockedError :=
  ⟨"Resource " ++ resourceKey ++ " is locked by another operation", "RESOURCE_LOCKED", 409⟩

namespace LockManager

def new : LockManager := ⟨fun _ => none⟩

def set (m : LockManager) (resourceKey : String) (lock : Lock) : LockManager :=
  ⟨Function.update m.locks resourceKey (some lock)⟩

def delete (m : LockManager) (resourceKey : String) : LockManager :=
  ⟨Function.update m.locks resourceKey none⟩

/-- `uuid` is what `uuidv4()` returns if it is called; `ttlMs` is 5000 when it is left out. -/
def acquireLock (m : LockManager) (resourceKey : String) (ttlMs : Option Expiry) (now : ℚ)
    (uuid : String) : Acquisition × LockManager :=
  if (m.locks resourceKey).any fun existing => (now : Expiry) < existing.expiresAt then
    (⟨false, none, resourceKey, none⟩, m)
  else
    let expiresAt := now + ttlMs.getD 5000
    (⟨true, some uuid, resourceKey, some expiresAt⟩, m.set resourceKey ⟨uuid, expiresAt⟩)

def releaseLock (m : LockManager) (resourceKey token : String) : Bool × LockManager :=
  match m.locks resourceKey with
  | none => (false, m)
  | some existing =>
    if existing.token ≠ token then (false, m) else (true, m.delete resourceKey)

def isLocked (m : LockManager) (resourceKey : String) (now : ℚ) : Bool × LockManager :=
  match m.locks resourceKey with
  | none => (false, m)
  | some existing =>
    -- an expired lock goes when it is looked at
    if existing.expiresAt ≤ now then (false, m.delete resourceKey) else (true, m)

variable {m : LockManager} {key token uuid : String} {ttlMs : Option Expiry} {now : ℚ}

theorem acquireLock_cases (m : LockManager) (key : String) (ttlMs : Option Expiry) (now : ℚ)
    (uuid : String) :
    ((∃ existing, m.locks key = some existing ∧ now < existing.expiresAt) ∧
      m.acquireLock key ttlMs now uuid = (⟨false, none, key, none⟩, m)) ∨
    ((∀ existing, m.locks key = some existing → existing.expiresAt ≤ now) ∧
      m.acquireLock key ttlMs now uuid =
        (⟨true, some uuid, key, some (now + ttlMs.getD 5000)⟩,
          m.set key ⟨uuid, now + ttlMs.getD 5000⟩)) := by
  unfold acquireLock
  cases hlock : m.locks key with
  | none =>
    right
    exact ⟨fun _ h => (nomatch h), rfl⟩
  | some existing =>
    by_cases hlive : (now : Expiry) < existing.expiresAt
    · left
      exact ⟨⟨existing, rfl, hlive⟩, if_pos (by simpa using hlive)⟩
    · right
      refine ⟨fun _ h => Option.some.inj h ▸ not_lt.mp hlive, if_neg (by simpa using hlive)⟩

theorem releaseLock_cases (m : LockManager) (key token : String) :
    ((∃ existing, m.locks key = some existing ∧ existing.token = token) ∧
      m.releaseLock key token = (true, m.delete key)) ∨
    ((∀ existing, m.locks key = some existing → existing.token ≠ token) ∧
      m.releaseLock key token = (false, m)) := by
  unfold releaseLock
  cases hlock : m.locks key with
  | none => exact .inr ⟨fun _ h => (nomatch h), rfl⟩
  | some existing =>
    by_cases htoken : existing.token = token
    · exact .inl ⟨⟨existing, rfl, htoken⟩, if_neg (not_not.mpr htoken)⟩
    · exact .inr ⟨fun _ h => Option.some.inj h ▸ htoken, if_pos htoken⟩

theorem isLocked_cases (m : LockManager) (key : String) (now : ℚ) :
    ((∃ existing, m.locks key = some existing ∧ now < existing.expiresAt) ∧
      m.isLocked key now = (true, m)) ∨
    ((∀ existing, m.locks key = some existing → existing.expiresAt ≤ now) ∧
      (m.isLocked key now).1 = false ∧
      (m.isLocked key now).2.locks = Function.update m.locks key none) := by
  unfold isLocked
  cases hlock : m.locks key with
  | none =>
    right
    exact ⟨fun _ h => (nomatch h), rfl, (Function.update_eq_self_iff.mpr hlock.symm).symm⟩
  | some existing =>
    by_cases hlive : (now : Expiry) < existing.expiresAt
    · exact .inl ⟨⟨existing, rfl, hlive⟩, if_neg (not_le.mpr hlive)⟩
    · right
      dsimp only
      rw [if_pos (not_lt.mp hlive)]
      exact ⟨fun _ h => Option.some.inj h ▸ not_lt.mp hlive, rfl, rfl⟩

/-- A key is locked exactly if its lock would be refused. -/
theorem isLocked_iff_refused (m : LockManager) (key : String) (ttlMs : Option Expiry) (now : ℚ)
    (uuid : String) :
    (m.isLocked key now).1 = true ↔ (m.acquireLock key ttlMs now uuid).1.acquired = false := by
  rcases m.isLocked_cases key now with ⟨⟨existing, hlock, hlive⟩, hlocked⟩ | ⟨hfree, hlocked, _⟩
  · rcases m.acquireLock_cases key ttlMs now uuid with ⟨_, hrefused⟩ | ⟨hexpired, _⟩
    · rw [hlocked, hrefused]
      simp
    · exact absurd (hexpired existing hlock) (not_le.mpr hlive)
  · rcases m.acquireLock_cases key ttlMs now uuid with ⟨⟨existing, hlock, hlive⟩, _⟩ | ⟨_, hgrant⟩
    · exact absurd (hfree existing hlock) (not_le.mpr hlive)
    · rw [hlocked, hgrant]
      simp

/-- What the calls for a key return is decided by its lock. -/
theorem answers_congr {m' : LockManager} (h : m'.locks key = m.locks key) :
    (m'.acquireLock key ttlMs now uuid).1 = (m.acquireLock key ttlMs now uuid).1 ∧
      (m'.releaseLock key token).1 = (m.releaseLock key token).1 ∧
      (m'.isLocked key now).1 = (m.isLocked key now).1 := by
  unfold acquireLock releaseLock isLocked
  rw [h]
  refine ⟨?_, ?_, ?_⟩
  · split <;> rfl
  · split
    · rfl
    · split <;> rfl
  · split
    · rfl
    · split <;> rfl

end LockManager

/-- A token that was granted, until when, and whether `releaseLock` has returned `true` for it. -/
structure Grant where
  key : String
  token : String
  expiresAt : Expiry
  released : Bool
deriving DecidableEq

/-- A call of `withLock`, with the token it holds and what it has settled to. -/
structure WithLockCall (R E : Type) where
  key : String
  token : Option String
  outcome : Option (Except (LockedError ⊕ E) R)

structure LockRun (R E : Type) where
  manager : LockManager
  now : ℚ
  drawn : ℕ
  grants : List Grant
  calls : List (WithLockCall R E)

/-- `settle` is the end of the body of a call of `withLock`, which is named by its place. -/
inductive LockEvent (R E : Type)
  | acquireLock (resourceKey : String) (ttlMs : Option Expiry)
  | releaseLock (resourceKey token : String)
  | isLocked (resourceKey : String)
  | withLock (resourceKey : String) (ttlMs : Expiry)
  | settle (call : ℕ) (outcome : Except E R)
  | elapse (now : ℚ)

namespace LockRun

variable {R E : Type} (uuidv4 : ℕ → String)

def init (now : ℚ) : LockRun R E := ⟨.new, now, 0, [], []⟩

/-- A call of `acquireLock`, which draws a token if it is granted. -/
def acquire (s : LockRun R E) (key : String) (ttlMs : Option Expiry) :
    Acquisition × LockRun R E :=
  let answer := s.manager.acquireLock key ttlMs s.now (uuidv4 s.drawn)
  if answer.1.acquired then
    (answer.1,
      { s with
        manager := answer.2
        drawn := s.drawn + 1
        grants := s.grants ++ [⟨key, uuidv4 s.drawn, s.now + ttlMs.getD 5000, false⟩] })
  else (answer.1, { s with manager := answer.2 })

def markReleased (key token : String) (g : Grant) : Grant :=
  if g.key = key ∧ g.token = token then { g with released := true } else g

def release (s : LockRun R E) (key token : String) : LockRun R E :=
  let answer := s.manager.releaseLock key token
  { s with
    manager := answer.2
    grants := if answer.1 then s.grants.map (markReleased key token) else s.grants }

def step (s : LockRun R E) : LockEvent R E → Option (LockRun R E)
  | .acquireLock key ttlMs => some (s.acquire uuidv4 key ttlMs).2
  | .releaseLock key token => some (s.release key token)
  | .isLocked key => some { s with manager := (s.manager.isLocked key s.now).2 }
  | .withLock key ttlMs =>
    let lock := s.acquire uuidv4 key (some ttlMs)
    let outcome := if lock.1.acquired then none else some (.error (.inl (resourceLocked key)))
    some { lock.2 with calls := lock.2.calls ++ [⟨key, lock.1.token, outcome⟩] }
  | .settle c outcome =>
    (s.calls[c]?).bind fun call =>
      match call.token, call.outcome with
      | some token, none =>
        -- the `finally` of the call, whatever the body came to
        some
          { s.release call.key token with
            calls := s.calls.set c { call with outcome := some (outcome.mapError .inr) } }
      | _, _ => none
  | .elapse t => if s.now ≤ t then some { s with now := t } else none

/-- The key that an event is about. -/
def eventKey (s : LockRun R E) : LockEvent R E → Option String
  | .acquireLock key _ | .releaseLock key _ | .isLocked key | .withLock key _ => some key
  | .settle c _ => (s.calls[c]?).map (·.key)
  | .elapse _ => none

/-- The grants for a key that are neither released nor expired. -/
def openGrants (s : LockRun R E) (key : String) : List Grant :=
  s.grants.filter fun g => g.key = key ∧ g.released = false ∧ (s.now : Expiry) < g.expiresAt

/-- The most recent grant for a key. -/
def latest (s : LockRun R E) (key : String) : Option Grant :=
  (s.grants.filter (·.key = key)).getLast?

/-- One open grant for a key at a time, and a release for the latest grant only. -/
structure TokenSafe (s : LockRun R E) : Prop where
  one_open : ∀ key, (s.openGrants key).length ≤ 1
  releases : ∀ key token, (s.manager.releaseLock key token).1 = true →
    ∃ g, s.latest key = some g ∧ g.token = token ∧ g.released = false
  spares : ∀ key token, (∀ g, s.latest key = some g → g.token = token → g.released = true) →
    s.manager.releaseLock key token = (false, s.manager)
  locked : ∀ key ttlMs now uuid, (s.manager.isLocked key now).1 = true ↔
    (s.manager.acquireLock key ttlMs now uuid).1.acquired = false

/-- The locks are those of the open grants, and each lock is of the latest grant for its key. -/
structure Sound (s : LockRun R E) : Prop where
  held : ∀ g ∈ s.grants, g.released = false → (s.now : Expiry) < g.expiresAt →
    s.manager.locks g.key = some ⟨g.token, g.expiresAt⟩
  latest : ∀ key lock, s.manager.locks key = some lock →
    s.latest key = some ⟨key, lock.token, lock.expiresAt, false⟩
  tokens : s.grants.map Grant.token = (List.range s.drawn).map uuidv4

variable {uuidv4} {s s' : LockRun R E} {e : LockEvent R E} {key token : String}
  {ttlMs : Option Expiry}

theorem mem_openGrants {g : Grant} : g ∈ s.openGrants key ↔
    g ∈ s.grants ∧ g.key = key ∧ g.released = false ∧ (s.now : Expiry) < g.expiresAt := by
  unfold openGrants
  rw [List.mem_filter, decide_eq_true_iff]

theorem Sound.tokenSafe (h : s.Sound uuidv4) (unique : Function.Injective uuidv4) :
    s.TokenSafe := by
  constructor
  · intro key
    -- the open grants of a key all have the token of its lock
    have hnodup : ((s.openGrants key).map Grant.token).Nodup := by
      apply List.Nodup.sublist (List.filter_sublist.map Grant.token)
      rw [h.tokens]
      exact (List.nodup_range).map unique
    cases hopen : s.openGrants key with
    | nil => exact Nat.zero_le 1
    | cons g gs =>
      cases gs with
      | nil => exact le_rfl
      | cons g' gs =>
        obtain ⟨hg, hkey, hunreleased, hlive⟩ : g ∈ s.grants ∧ _ :=
          mem_openGrants.mp (hopen ▸ List.mem_cons_self)
        obtain ⟨hg', hkey', hunreleased', hlive'⟩ : g' ∈ s.grants ∧ _ :=
          mem_openGrants.mp (hopen ▸ List.mem_cons_of_mem g List.mem_cons_self)
        have hlock := h.held g hg hunreleased hlive
        have hlock' := h.held g' hg' hunreleased' hlive'
        rw [hkey] at hlock
        rw [hkey', hlock] at hlock'
        have htoken : g.token = g'.token := congrArg Lock.token (Option.some.inj hlock')
        rw [hopen] at hnodup
        simp [htoken] at hnodup
  · intro key token hreleased
    rcases s.manager.releaseLock_cases key token with
      ⟨⟨existing, hlock, htoken⟩, _⟩ | ⟨_, hkept⟩
    · exact ⟨_, h.latest key existing hlock, htoken, rfl⟩
    · rw [hkept] at hreleased
      cases hreleased
  · intro key token hnone
    rcases s.manager.releaseLock_cases key token with ⟨⟨existing, hlock, htoken⟩, _⟩ | ⟨_, hkept⟩
    · have hreleased := hnone _ (h.latest key existing hlock) htoken
      cases hreleased
    · exact hkept
  · exact fun key ttlMs now uuid => s.manager.isLocked_iff_refused key ttlMs now uuid

section Steps

theorem getLast?_filter_concat (grants : List Grant) (g : Grant) (key : String) :
    ((grants ++ [g]).filter (·.key = key)).getLast? =
      if g.key = key then some g else (grants.filter (·.key = key)).getLast? := by
  rw [List.filter_append]
  by_cases hkey : g.key = key
  · rw [if_pos hkey, List.filter_cons_of_pos (by simpa using hkey), List.filter_nil]
    exact List.getLast?_concat
  · rw [if_neg hkey, List.filter_cons_of_neg (by simpa using hkey), List.filter_nil,
      List.append_nil]

theorem Sound.acquire (h : s.Sound uuidv4) (key : String) (ttlMs : Option Expiry) :
    (s.acquire uuidv4 key ttlMs).2.Sound uuidv4 := by
  unfold LockRun.acquire
  rcases s.manager.acquireLock_cases key ttlMs s.now (uuidv4 s.drawn) with
    ⟨_, hrefused⟩ | ⟨hfree, hgrant⟩
  · rw [hrefused]
    exact h
  rw [hgrant]
  constructor
  · intro g hg hunreleased hlive
    rcases List.mem_append.mp hg with hold | hnew
    · -- a grant that is still open has its lock, so the key is another one
      have hlock := h.held g hold hunreleased hlive
      have hkey : g.key ≠ key := by
        intro hkey
        rw [hkey] at hlock
        exact absurd (hfree _ hlock) (not_le.mpr hlive)
      show Function.update s.manager.locks key _ g.key = _
      rw [Function.update_of_ne hkey]
      exact hlock
    · rw [List.mem_singleton.mp hnew]
      exact Function.update_self _ _ _
  · intro other lock hlock
    have hlock : Function.update s.manager.locks key
        (some ⟨uuidv4 s.drawn, s.now + ttlMs.getD 5000⟩) other = some lock := hlock
    show ((s.grants ++ [_]).filter _).getLast? = _
    rw [getLast?_filter_concat]
    by_cases hkey : other = key
    · rw [hkey, Function.update_self] at hlock
      rw [← Option.some.inj hlock, hkey]
      exact if_pos rfl
    · rw [Function.update_of_ne hkey] at hlock
      rw [if_neg (Ne.symm hkey)]
      exact h.latest other lock hlock
  · show (s.grants ++ [_]).map Grant.token = _
    rw [List.map_append, h.tokens]
    exact (congrArg (List.map uuidv4) List.range_succ).trans List.map_append |>.symm

theorem markReleased_of_ne {g : Grant} (h : g.key ≠ key ∨ g.token ≠ token) :
    markReleased key token g = g := by
  unfold markReleased
  apply if_neg
  rintro ⟨hkey, htoken⟩
  exact h.elim (fun hne => hne hkey) fun hne => hne htoken

@[simp] theorem markReleased_key (key token : String) (g : Grant) :
    (markReleased key token g).key = g.key := by
  unfold markReleased
  split <;> rfl

@[simp] theorem markReleased_token (key token : String) (g : Grant) :
    (markReleased key token g).token = g.token := by
  unfold markReleased
  split <;> rfl

/-- Marking the grants of a key leaves the latest grant of another one. -/
theorem getLast?_markReleased {other : String} (hne : other ≠ key) (grants : List Grant) :
    ((grants.map (markReleased key token)).filter (·.key = other)).getLast? =
      (grants.filter (·.key = other)).getLast? := by
  have hsame : (grants.map (markReleased key token)).filter (·.key = other) =
      grants.filter (·.key = other) := by
    rw [List.filter_map]
    have hpred : (fun g : Grant => decide (g.key = other)) ∘ markReleased key token =
        fun g => decide (g.key = other) := by
      funext g
      simp
    rw [hpred]
    refine (List.map_congr_left fun g hg => ?_).trans (List.map_id _)
    apply markReleased_of_ne
    left
    rw [of_decide_eq_true (List.mem_filter.mp hg).2]
    exact hne
  rw [hsame]

theorem Sound.release (h : s.Sound uuidv4) (key token : String) :
    (s.release key token).Sound uuidv4 := by
  unfold LockRun.release
  rcases s.manager.releaseLock_cases key token with ⟨⟨existing, hlock, htoken⟩, hdone⟩ | ⟨_, hkept⟩
  · rw [hdone]
    constructor
    · intro g' hg' hunreleased hlive
      obtain ⟨g, hg, rfl⟩ := List.mem_map.mp hg'
      by_cases hmarked : g.key = key ∧ g.token = token
      · unfold markReleased at hunreleased
        rw [if_pos hmarked] at hunreleased
        cases hunreleased
      · have hsame : markReleased key token g = g := if_neg hmarked
        rw [hsame] at hunreleased hlive ⊢
        have hheld := h.held g hg hunreleased hlive
        -- another open grant of the key would have its lock, which has this token
        have hkey : g.key ≠ key := by
          intro hkey
          rw [hkey, hlock] at hheld
          apply hmarked
          exact ⟨hkey, htoken ▸ (congrArg Lock.token (Option.some.inj hheld)).symm⟩
        show Function.update s.manager.locks key none g.key = _
        rw [Function.update_of_ne hkey]
        exact hheld
    · intro other lock hother
      have hother : Function.update s.manager.locks key none other = some lock := hother
      by_cases hkey : other = key
      · rw [hkey, Function.update_self] at hother
        cases hother
      · rw [Function.update_of_ne hkey] at hother
        exact (getLast?_markReleased hkey s.grants).trans (h.latest other lock hother)
    · show (s.grants.map (markReleased key token)).map Grant.token = _
      rw [List.map_map, ← h.tokens]
      exact List.map_congr_left fun g _ => markReleased_token key token g
  · rw [hkept]
    exact h

theorem Sound.isLocked (h : s.Sound uuidv4) (key : String) :
    ({ s with manager := (s.manager.isLocked key s.now).2 } : LockRun R E).Sound uuidv4 := by
  rcases s.manager.isLocked_cases key s.now with ⟨_, hlocked⟩ | ⟨hexpired, _, hlocks⟩
  · rw [hlocked]
    exact h
  constructor
  · intro g hg hunreleased hlive
    have hheld := h.held g hg hunreleased hlive
    have hkey : g.key ≠ key := by
      intro hkey
      rw [hkey] at hheld
      exact absurd (hexpired _ hheld) (not_le.mpr hlive)
    show (s.manager.isLocked key s.now).2.locks g.key = _
    rw [hlocks, Function.update_of_ne hkey]
    exact hheld
  · intro other lock hother
    have hother : (s.manager.isLocked key s.now).2.locks other = some lock := hother
    rw [hlocks] at hother
    by_cases hkey : other = key
    · rw [hkey, Function.update_self] at hother
      cases hother
    · rw [Function.update_of_ne hkey] at hother
      exact h.latest other lock hother
  · exact h.tokens

/-- Time passes: no lock and no grant changes. -/
theorem Sound.elapse (h : s.Sound uuidv4) {t : ℚ} (ht : s.now ≤ t) :
    ({ s with now := t } : LockRun R E).Sound uuidv4 := by
  constructor
  · intro g hg hunreleased hlive
    have hle : (s.now : Expiry) ≤ t := WithTop.coe_le_coe.mpr ht
    exact h.held g hg hunreleased (hle.trans_lt hlive)
  · exact h.latest
  · exact h.tokens

/-- The calls of `withLock` are not looked at. -/
theorem Sound.calls (h : s.Sound uuidv4) (calls : List (WithLockCall R E)) :
    ({ s with calls := calls } : LockRun R E).Sound uuidv4 := ⟨h.held, h.latest, h.tokens⟩

theorem step_settle {c : ℕ} {outcome : Except E R}
    (hstep : s.step uuidv4 (.settle c outcome) = some s') :
    ∃ call token calls, s.calls[c]? = some call ∧ call.token = some token ∧
      s' = { s.release call.key token with calls := calls } := by
  obtain ⟨call, hcall, hbody⟩ := Option.bind_eq_some_iff.mp hstep
  split at hbody
  · next _ _ token htoken _ =>
    exact ⟨call, token, _, hcall, htoken, (Option.some.inj hbody).symm⟩
  · cases hbody

theorem Sound.step (h : s.Sound uuidv4) (hstep : s.step uuidv4 e = some s') :
    s'.Sound uuidv4 := by
  cases e with
  | acquireLock key ttlMs =>
    obtain rfl := Option.some.inj hstep
    exact h.acquire key ttlMs
  | releaseLock key token =>
    obtain rfl := Option.some.inj hstep
    exact h.release key token
  | isLocked key =>
    obtain rfl := Option.some.inj hstep
    exact h.isLocked key
  | withLock key ttlMs =>
    obtain rfl := Option.some.inj hstep
    exact (h.acquire key (some ttlMs)).calls _
  | settle c outcome =>
    obtain ⟨call, token, calls, _, _, rfl⟩ := step_settle hstep
    exact (h.release call.key token).calls calls
  | elapse t =>
    obtain ⟨ht, heq⟩ := Option.ite_none_right_eq_some.mp hstep
    obtain rfl := Option.some.inj heq
    exact h.elapse ht

end Steps

section Frame

theorem acquire_locks {other : String} (hne : other ≠ key) :
    (s.acquire uuidv4 key ttlMs).2.manager.locks other = s.manager.locks other := by
  unfold LockRun.acquire
  rcases s.manager.acquireLock_cases key ttlMs s.now (uuidv4 s.drawn) with ⟨_, h⟩ | ⟨_, h⟩
  · rw [h]
    rfl
  · rw [h]
    exact Function.update_of_ne hne _ _

theorem release_locks {other : String} (hne : other ≠ key) :
    (s.release key token).manager.locks other = s.manager.locks other := by
  unfold LockRun.release
  rcases s.manager.releaseLock_cases key token with ⟨_, h⟩ | ⟨_, h⟩
  · rw [h]
    exact Function.update_of_ne hne _ _
  · rw [h]

theorem isLocked_locks {other : String} (hne : other ≠ key) (now : ℚ) :
    (s.manager.isLocked key now).2.locks other = s.manager.locks other := by
  rcases s.manager.isLocked_cases key now with ⟨_, h⟩ | ⟨_, _, h⟩
  · rw [h]
  · rw [h]
    exact Function.update_of_ne hne _ _

/-- An event about another key leaves the lock of a key. -/
theorem step_locks (hstep : s.step uuidv4 e = some s') (hne : s.eventKey e ≠ some key) :
    s'.manager.locks key = s.manager.locks key := by
  cases e with
  | acquireLock other ttlMs =>
    obtain rfl := Option.some.inj hstep
    exact acquire_locks fun heq => hne (congrArg some heq.symm)
  | releaseLock other token =>
    obtain rfl := Option.some.inj hstep
    exact release_locks fun heq => hne (congrArg some heq.symm)
  | isLocked other =>
    obtain rfl := Option.some.inj hstep
    exact isLocked_locks (fun heq => hne (congrArg some heq.symm)) _
  | withLock other ttlMs =>
    obtain rfl := Option.some.inj hstep
    exact acquire_locks fun heq => hne (congrArg some heq.symm)
  | settle c outcome =>
    obtain ⟨call, token, calls, hcall, _, rfl⟩ := step_settle hstep
    apply release_locks
    intro heq
    apply hne
    rw [heq]
    exact Option.map_eq_some_iff.mpr ⟨call, hcall, rfl⟩
  | elapse t =>
    obtain ⟨_, heq⟩ := Option.ite_none_right_eq_some.mp hstep
    obtain rfl := Option.some.inj heq
    rfl

end Frame

theorem sound_init (uuidv4 : ℕ → String) (now : ℚ) :
    (init now : LockRun R E).Sound uuidv4 := by
  constructor
  · exact fun _ h => absurd h List.not_mem_nil
  · exact fun _ _ h => nomatch h
  · rfl

/-- Over every run the tokens of a key are granted one at a time and released by their holder
only, and what is done with one key does not show on another. -/
theorem tokens_safe (uuidv4 : ℕ → String) (unique : Function.Injective uuidv4) (start : ℚ)
    (es : List (LockEvent R E)) (s : LockRun R E)
    (hrun : run (step uuidv4) (init start) es = some s) :
    s.TokenSafe ∧ ∀ e s', s.step uuidv4 e = some s' →
      (∀ key, s.eventKey e ≠ some key → ∀ ttlMs now uuid token,
        (s'.manager.acquireLock key ttlMs now uuid).1 =
            (s.manager.acquireLock key ttlMs now uuid).1 ∧
          (s'.manager.releaseLock key token).1 = (s.manager.releaseLock key token).1 ∧
          (s'.manager.isLocked key now).1 = (s.manager.isLocked key now).1) ∧
      ∀ c outcome call token, e = .settle c outcome → s.calls[c]? = some call →
        call.token = some token → (∀ g, s.latest call.key = some g → g.token ≠ token) →
          s'.manager = s.manager := by
  have hsound : s.Sound uuidv4 :=
    run_inv (fun s e s' hs hstep => Sound.step hs hstep) (sound_init uuidv4 start) hrun
  have hsafe : s.TokenSafe := hsound.tokenSafe unique
  refine ⟨hsafe, fun e s' hstep => ⟨?_, ?_⟩⟩
  · intro key hne ttlMs now uuid token
    exact LockManager.answers_congr (step_locks hstep hne)
  · rintro c outcome call token rfl hcall htoken hlater
    obtain ⟨call', token', calls, hcall', htoken', rfl⟩ := step_settle hstep
    obtain rfl : call = call' := Option.some.inj (hcall.symm.trans hcall')
    obtain rfl : token = token' := Option.some.inj (htoken.symm.trans htoken')
    have hkept := hsafe.spares call.key token fun g hg heq => absurd heq (hlater g hg)
    show (s.release call.key token).manager = _
    unfold LockRun.release
    rw [hkept]

/-- A body outlives its lock, which is then taken over, and ends. -/
def takeover : List (LockEvent Unit Unit) :=
  [.withLock "a" 1000, .elapse 1000, .acquireLock "a" none, .settle 0 (.ok ())]

def unary (n : ℕ) : String := String.ofList (List.replicate n 'u')

theorem takeover_safe : ∃ s, run (step unary) (init 0) takeover = some s ∧ s.TokenSafe := by
  have hunique : Function.Injective unary := by
    intro m n h
    have hlength := congrArg List.length (String.ofList_injective h)
    rwa [List.length_replicate, List.length_replicate] at hlength
  have hruns : (run (step unary) (init 0) takeover).isSome = true := by decide +kernel
  obtain ⟨s, hrun⟩ := Option.isSome_iff_exists.mp hruns
  exact ⟨s, hrun, (tokens_safe unary hunique 0 takeover s hrun).1⟩

example : (run (step unary) (init 0) takeover).bind (fun s => s.manager.locks "a") =
    some ⟨"u", 6000⟩ := by
  decide +kernel

end LockRun
end TimeOff
