import TimeOff.CircuitBreaker
import Mathlib.Logic.Function.Basic

/-! `RequestDeduplicator.execute` under calls, settlements and expiry in any order. The call
that started a task deletes the entry of its key when the task rejects, whichever task the
entry is for by then. -/
namespace TimeOff

open Transitions

structure CacheEntry where
  promise : ℕ
  expiresAt : ℚ

structure RequestDeduplicator where
  ttlMs : ℚ
  cache : String → Option CacheEntry

/-- The promise a call of `execute` waits for, and whether it ran the task behind it. -/
structure Execution where
  promise : ℕ
  started : Bool
deriving DecidableEq

namespace RequestDeduplicator

def new (ttlMs : Option ℚ) : RequestDeduplicator :=
  ⟨(truthy ttlMs).getD 60000, fun _ => none⟩

def delete (d : RequestDeduplicator) (key : String) : RequestDeduplicator :=
  { d with cache := Function.update d.cache key none }

def set (d : RequestDeduplicator) (key : String) (entry : CacheEntry) : RequestDeduplicator :=
  { d with cache := Function.update d.cache key (some entry) }

/-- `execute` up to its first `await`; `fresh` is the promise of a task it starts. -/
def execute (d : RequestDeduplicator) (key : String) (fresh : ℕ) (now : ℚ) :
    Execution × RequestDeduplicator :=
  if key = "" then (⟨fresh, true⟩, d)
  else
    match d.cache key with
    | some existing =>
      if now < existing.expiresAt then (⟨existing.promise, false⟩, d)
      else (⟨fresh, true⟩, (d.delete key).set key ⟨fresh, now + d.ttlMs⟩)
    | none => (⟨fresh, true⟩, d.set key ⟨fresh, now + d.ttlMs⟩)

section Execute

variable {d : RequestDeduplicator} {key : String} {fresh : ℕ} {now : ℚ}

theorem execute_joins {existing : CacheEntry} (hkey : key ≠ "")
    (hcache : d.cache key = some existing) (hlive : now < existing.expiresAt) :
    d.execute key fresh now = (⟨existing.promise, false⟩, d) := by
  unfold execute
  rw [if_neg hkey, hcache]
  exact if_pos hlive

/-- What a call does: it runs its task without a key, joins the entry of its key, or enters a
task of its own. -/
theorem execute_cases (d : RequestDeduplicator) (key : String) (fresh : ℕ) (now : ℚ) :
    (key = "" ∧ d.execute key fresh now = (⟨fresh, true⟩, d)) ∨
    (∃ existing, d.cache key = some existing ∧ now < existing.expiresAt ∧
      d.execute key fresh now = (⟨existing.promise, false⟩, d)) ∨
    (key ≠ "" ∧ (∀ existing, d.cache key = some existing → existing.expiresAt ≤ now) ∧
      d.execute key fresh now = (⟨fresh, true⟩, d.set key ⟨fresh, now + d.ttlMs⟩)) := by
  by_cases hkey : key = ""
  · exact .inl ⟨hkey, if_pos hkey⟩
  right
  cases hcache : d.cache key with
  | none =>
    right
    refine ⟨hkey, fun _ h => (nomatch h), ?_⟩
    unfold execute
    rw [if_neg hkey, hcache]
  | some existing =>
    by_cases hlive : now < existing.expiresAt
    · exact .inl ⟨existing, rfl, hlive, execute_joins hkey hcache hlive⟩
    · right
      refine ⟨hkey, fun _ h => Option.some.inj h ▸ not_lt.mp hlive, ?_⟩
      unfold execute
      rw [if_neg hkey, hcache]
      dsimp only
      rw [if_neg hlive]
      -- deleting first makes no difference to the entry set next
      simp only [set, delete, Function.update_idem]

end Execute

end RequestDeduplicator

/-- A task that `execute` started, with what its promise settled to. -/
structure DedupTask (R E : Type) where
  key : String
  startedAt : ℚ
  outcome : Option (Except E R)
deriving DecidableEq

/-- A call of `execute`, with what it has settled to itself. -/
structure DedupCall (R E : Type) where
  key : String
  execution : Execution
  outcome : Option (Except E R)

structure DedupRun (R E : Type) where
  deduplicator : RequestDeduplicator
  now : ℚ
  tasks : List (DedupTask R E)
  calls : List (DedupCall R E)

/-- Promises are named by the place of their task, calls by their own place. -/
inductive DedupEvent (R E : Type)
  | execute (key : String)
  | settle (promise : ℕ) (outcome : Except E R)
  | resume (call : ℕ)
  | elapse (now : ℚ)

/-- A settlement changes an outcome that was still missing, and nothing else of a task. -/
structure DedupTask.Kept {R E : Type} (task task' : DedupTask R E) : Prop where
  key : task'.key = task.key
  startedAt : task'.startedAt = task.startedAt
  outcome : ∀ outcome, task.outcome = some outcome → task'.outcome = some outcome

theorem DedupTask.Kept.refl {R E : Type} (task : DedupTask R E) : task.Kept task :=
  ⟨rfl, rfl, fun _ h => h⟩

namespace DedupRun

variable {R E : Type}

def init (ttlMs : Option ℚ) (now : ℚ) : DedupRun R E := ⟨.new ttlMs, now, [], []⟩

def execute (s : DedupRun R E) (key : String) : DedupRun R E :=
  let answer := s.deduplicator.execute key s.tasks.length s.now
  { s with
    deduplicator := answer.2
    tasks := if answer.1.started then s.tasks ++ [⟨key, s.now, none⟩] else s.tasks
    calls := s.calls ++ [⟨key, answer.1, none⟩] }

/-- The rest of `execute` once its promise has settled. -/
def afterAwait (d : RequestDeduplicator) (call : DedupCall R E) :
    Except E R → RequestDeduplicator
  | .ok _ => d
  | .error _ => if call.execution.started ∧ call.key ≠ "" then d.delete call.key else d

def step (s : DedupRun R E) : DedupEvent R E → Option (DedupRun R E)
  | .execute key => some (s.execute key)
  | .settle promise outcome =>
    (s.tasks[promise]?).bind fun task =>
      if task.outcome.isSome then none
      else some
        { s with tasks := s.tasks.modify promise fun t => { t with outcome := some outcome } }
  | .resume c =>
    (s.calls[c]?).bind fun call =>
      if call.outcome.isSome then none
      else
        ((s.tasks[call.execution.promise]?).bind DedupTask.outcome).map fun outcome =>
          { s with
            deduplicator := afterAwait s.deduplicator call outcome
            calls := s.calls.modify c fun c => { c with outcome := some outcome } }
  | .elapse t => if s.now ≤ t then some { s with now := t } else none

/-- The task of this promise is the one most recently started for its key. -/
structure Latest (tasks : List (DedupTask R E)) (promise : ℕ) (task : DedupTask R E) :
    Prop where
  started : tasks[promise]? = some task
  newest : ∀ j other, tasks[j]? = some other → other.key = task.key → j ≤ promise

/-- In flight or fulfilled, and started less than `ttlMs` ago. -/
structure Live (s : DedupRun R E) (task : DedupTask R E) : Prop where
  unrejected : ∀ err, task.outcome ≠ some (.error err)
  young : s.now < task.startedAt + s.deduplicator.ttlMs

/-- A call made now for the key of a live latest task waits for that task and starts none, and
every call that has settled has settled with what its task did. -/
structure RunsOne (s : DedupRun R E) : Prop where
  joins : ∀ promise task, Latest s.tasks promise task → s.Live task → task.key ≠ "" →
    (s.execute task.key).tasks = s.tasks ∧
      (s.execute task.key).calls = s.calls ++ [⟨task.key, ⟨promise, false⟩, none⟩]
  settles : ∀ call ∈ s.calls, ∀ outcome, call.outcome = some outcome →
    ∃ task, s.tasks[call.execution.promise]? = some task ∧ task.outcome = some outcome

/-- A call whose task rejected does not go on while its key has the entry of a live task. -/
def SparesLive (s : DedupRun R E) (e : DedupEvent R E) : Prop :=
  ∀ c, e = .resume c → ∀ call, s.calls[c]? = some call → call.execution.started = true →
    ∀ rejected err, s.tasks[call.execution.promise]? = some rejected →
      rejected.outcome = some (.error err) →
        ∀ entry task, s.deduplicator.cache call.key = some entry →
          s.tasks[entry.promise]? = some task → ¬ s.Live task

/-- Entries are for the latest tasks of their keys, and a live latest task has its entry. -/
structure Sound (s : DedupRun R E) : Prop where
  cached : ∀ key entry, s.deduplicator.cache key = some entry →
    key ≠ "" ∧ ∃ task, Latest s.tasks entry.promise task ∧ task.key = key ∧
      entry.expiresAt = task.startedAt + s.deduplicator.ttlMs
  entered : ∀ promise task, Latest s.tasks promise task → s.Live task → task.key ≠ "" →
    ∃ entry, s.deduplicator.cache task.key = some entry ∧ entry.promise = promise
  settles : ∀ call ∈ s.calls, ∀ outcome, call.outcome = some outcome →
    ∃ task, s.tasks[call.execution.promise]? = some task ∧ task.outcome = some outcome

variable {s s' : DedupRun R E} {e : DedupEvent R E}

theorem Latest.unique {tasks : List (DedupTask R E)} {p q : ℕ} {task other : DedupTask R E}
    (h : Latest tasks p task) (h' : Latest tasks q other) (hkey : other.key = task.key) :
    q = p := by
  have hle : q ≤ p := h.newest q other h'.started hkey
  have hge : p ≤ q := h'.newest p task h.started hkey.symm
  omega

section Append

variable {tasks : List (DedupTask R E)} {new task : DedupTask R E} {p : ℕ}

theorem latest_new (tasks : List (DedupTask R E)) (new : DedupTask R E) :
    Latest (tasks ++ [new]) tasks.length new := by
  constructor
  · exact List.getElem?_concat_length
  · intro j other hj _
    have hlt : j < (tasks ++ [new]).length := (List.getElem?_eq_some_iff.mp hj).1
    rw [List.length_append, List.length_singleton] at hlt
    omega

theorem Latest.append (h : Latest tasks p task) (hkey : task.key ≠ new.key) :
    Latest (tasks ++ [new]) p task := by
  have hlt : p < tasks.length := (List.getElem?_eq_some_iff.mp h.started).1
  constructor
  · rw [List.getElem?_append_left hlt]
    exact h.started
  · intro j other hj hsame
    by_cases hold : j < tasks.length
    · rw [List.getElem?_append_left hold] at hj
      exact h.newest j other hj hsame
    · -- the only later place is that of the new task
      have hjlt : j < (tasks ++ [new]).length := (List.getElem?_eq_some_iff.mp hj).1
      rw [List.length_append, List.length_singleton] at hjlt
      obtain rfl : j = tasks.length := by omega
      rw [List.getElem?_concat_length] at hj
      exact absurd (Option.some.inj hj ▸ hsame.symm) hkey

theorem latest_append (h : Latest (tasks ++ [new]) p task) :
    (p = tasks.length ∧ task = new) ∨ (Latest tasks p task ∧ task.key ≠ new.key) := by
  by_cases hold : p < tasks.length
  · right
    have hstarted : tasks[p]? = some task := by
      have hp := h.started
      rwa [List.getElem?_append_left hold] at hp
    constructor
    · refine ⟨hstarted, fun j other hj hsame => ?_⟩
      have hlt : j < tasks.length := (List.getElem?_eq_some_iff.mp hj).1
      exact h.newest j other ((List.getElem?_append_left hlt).trans hj) hsame
    · intro hkey
      have hle := h.newest tasks.length new List.getElem?_concat_length hkey.symm
      omega
  · left
    have hplt : p < (tasks ++ [new]).length := (List.getElem?_eq_some_iff.mp h.started).1
    rw [List.length_append, List.length_singleton] at hplt
    obtain rfl : p = tasks.length := by omega
    have hnew := h.started
    rw [List.getElem?_concat_length] at hnew
    exact ⟨rfl, (Option.some.inj hnew).symm⟩

end Append

/-- What holds of the entries and the tasks stays true while tasks settle, time passes and only
entries without a live task go. -/
theorem Sound.of_kept (h : s.Sound) (httl : s'.deduplicator.ttlMs = s.deduplicator.ttlMs)
    (hnow : s.now ≤ s'.now)
    (htasks : ∀ j : ℕ, Option.Rel DedupTask.Kept s.tasks[j]? s'.tasks[j]?)
    (hcache : ∀ key entry, s'.deduplicator.cache key = some entry →
      s.deduplicator.cache key = some entry)
    (hlive : ∀ key entry task, s.deduplicator.cache key = some entry →
      s.tasks[entry.promise]? = some task → s.Live task →
        s'.deduplicator.cache key = some entry)
    (hcalls : ∀ call ∈ s'.calls, ∀ outcome, call.outcome = some outcome →
      ∃ task, s.tasks[call.execution.promise]? = some task ∧ task.outcome = some outcome) :
    s'.Sound := by
  -- a task is there before the step if and only if it is there after it
  have hforth {j : ℕ} {task : DedupTask R E} (hj : s.tasks[j]? = some task) :
      ∃ task', s'.tasks[j]? = some task' ∧ task.Kept task' := by
    have hrel := htasks j
    rw [hj] at hrel
    generalize s'.tasks[j]? = found at hrel
    cases hrel with
    | some hkept => exact ⟨_, rfl, hkept⟩
  have hback {j : ℕ} {task' : DedupTask R E} (hj : s'.tasks[j]? = some task') :
      ∃ task, s.tasks[j]? = some task ∧ task.Kept task' := by
    have hrel := htasks j
    rw [hj] at hrel
    generalize s.tasks[j]? = found at hrel
    cases hrel with
    | some hkept => exact ⟨_, rfl, hkept⟩
  constructor
  · intro key entry hentry
    obtain ⟨hkey, task, hlatest, rfl, hexpires⟩ := h.cached key entry (hcache key entry hentry)
    obtain ⟨task', hstarted, hkept⟩ := hforth hlatest.started
    refine ⟨hkey, task', ⟨hstarted, ?_⟩, hkept.key, ?_⟩
    · intro j other' hj hsame
      obtain ⟨other, hother, hk⟩ := hback hj
      exact hlatest.newest j other hother (hk.key.symm.trans (hsame.trans hkept.key))
    · rw [httl, hkept.startedAt]
      exact hexpires
  · intro promise task' hlatest hlive' hkey
    obtain ⟨task, hstarted, hkept⟩ := hback hlatest.started
    have hbefore : Latest s.tasks promise task := by
      refine ⟨hstarted, fun j other hj hsame => ?_⟩
      obtain ⟨other', hother, hk⟩ := hforth hj
      exact hlatest.newest j other' hother (hk.key.trans (hsame.trans hkept.key.symm))
    -- a task that is live after the step was live before it
    have hyoung : s.Live task := by
      constructor
      · exact fun err herr => hlive'.unrejected err (hkept.outcome _ herr)
      · have hlt := hlive'.young
        rw [httl, hkept.startedAt] at hlt
        exact hnow.trans_lt hlt
    rw [hkept.key] at hkey ⊢
    obtain ⟨entry, hentry, rfl⟩ := h.entered promise task hbefore hyoung hkey
    exact ⟨entry, hlive _ entry task hentry hstarted hyoung, rfl⟩
  · intro call hcall outcome hsettled
    obtain ⟨task, htask, houtcome⟩ := hcalls call hcall outcome hsettled
    obtain ⟨task', htask', hkept⟩ := hforth htask
    exact ⟨task', htask', hkept.outcome outcome houtcome⟩

/-- The call is new, so it has settled with nothing; the others wait for tasks that are still
there. -/
theorem Sound.settles_concat (h : s.Sound) (key : String) (execution : Execution)
    (new : List (DedupTask R E)) :
    ∀ call ∈ s.calls ++ [⟨key, execution, none⟩], ∀ outcome, call.outcome = some outcome →
      ∃ task, (s.tasks ++ new)[call.execution.promise]? = some task ∧
        task.outcome = some outcome := by
  intro call hcall outcome hsettled
  rcases List.mem_append.mp hcall with hold | hnew
  · obtain ⟨task, htask, houtcome⟩ := h.settles call hold outcome hsettled
    have hlt : call.execution.promise < s.tasks.length := (List.getElem?_eq_some_iff.mp htask).1
    exact ⟨task, (List.getElem?_append_left hlt).trans htask, houtcome⟩
  · obtain rfl := List.mem_singleton.mp hnew
    cases hsettled

theorem Sound.execute (h : s.Sound) (key : String) : (s.execute key).Sound := by
  have hsettles (execution : Execution) := h.settles_concat key execution [⟨key, s.now, none⟩]
  rcases s.deduplicator.execute_cases key s.tasks.length s.now with
    ⟨rfl, hexecute⟩ | ⟨existing, hcache, hlive, hexecute⟩ | ⟨hkey, hstale, hexecute⟩
  all_goals unfold DedupRun.execute; rw [hexecute]
  · -- without a key no entry is read or set
    constructor
    · intro k entry hentry
      obtain ⟨hk, task, hlatest, rfl, hexpires⟩ := h.cached k entry hentry
      exact ⟨hk, task, hlatest.append hk, rfl, hexpires⟩
    · intro promise task hlatest hlive hk
      rcases latest_append hlatest with ⟨_, rfl⟩ | ⟨hbefore, _⟩
      · exact absurd rfl hk
      · exact h.entered promise task hbefore ⟨hlive.unrejected, hlive.young⟩ hk
    · exact hsettles _
  -- the call joins the task of the entry
  · have hjoined := h.settles_concat key ⟨existing.promise, false⟩ []
    rw [List.append_nil] at hjoined
    exact ⟨h.cached, fun promise task hlatest hlive' =>
      h.entered promise task hlatest ⟨hlive'.unrejected, hlive'.young⟩, hjoined⟩
  -- a new task is started, and its entry takes the place of the stale one
  · constructor
    · intro k entry hentry
      have hset : Function.update s.deduplicator.cache key
          (some ⟨s.tasks.length, s.now + s.deduplicator.ttlMs⟩) k = some entry := hentry
      by_cases hk : k = key
      · subst hk
        rw [Function.update_self] at hset
        obtain rfl := Option.some.inj hset
        exact ⟨hkey, _, latest_new _ _, rfl, rfl⟩
      · rw [Function.update_of_ne hk] at hset
        obtain ⟨hne, task, hlatest, rfl, hexpires⟩ := h.cached k entry hset
        exact ⟨hne, task, hlatest.append hk, rfl, hexpires⟩
    · intro promise task hlatest hlive hk
      show ∃ entry, Function.update s.deduplicator.cache key
        (some ⟨s.tasks.length, s.now + s.deduplicator.ttlMs⟩) task.key = some entry ∧ _
      rcases latest_append hlatest with ⟨rfl, rfl⟩ | ⟨hbefore, hne⟩
      · exact ⟨_, Function.update_self .., rfl⟩
      · rw [Function.update_of_ne hne]
        exact h.entered promise task hbefore ⟨hlive.unrejected, hlive.young⟩ hk
    · exact hsettles _

theorem sound_init (ttlMs : Option ℚ) (now : ℚ) : (init ttlMs now : DedupRun R E).Sound := by
  constructor
  · exact fun _ _ h => (nomatch h)
  · intro promise task h
    exact (nomatch h.started)
  · exact fun _ h => (nomatch h)

theorem Sound.runsOne (h : s.Sound) : s.RunsOne := by
  refine ⟨?_, h.settles⟩
  intro promise task hlatest hlive hkey
  obtain ⟨entry, hentry, rfl⟩ := h.entered promise task hlatest hlive hkey
  obtain ⟨_, cached, hcached, hsame, hexpires⟩ := h.cached task.key entry hentry
  have hyoung : s.now < entry.expiresAt := by
    obtain rfl : task = cached :=
      Option.some.inj (hlatest.started.symm.trans hcached.started)
    rw [hexpires]
    exact hlive.young
  have hjoin : s.deduplicator.execute task.key s.tasks.length s.now =
      (⟨entry.promise, false⟩, s.deduplicator) :=
    RequestDeduplicator.execute_joins hkey hentry hyoung
  unfold DedupRun.execute
  rw [hjoin]
  exact ⟨rfl, rfl⟩

theorem step_settle {promise : ℕ} {outcome : Except E R}
    (hstep : s.step (.settle promise outcome) = some s') :
    ∃ task, s.tasks[promise]? = some task ∧ task.outcome = none ∧
      s' = { s with
        tasks := s.tasks.modify promise fun t => { t with outcome := some outcome } } := by
  obtain ⟨task, htask, hrest⟩ := Option.bind_eq_some_iff.mp hstep
  obtain ⟨hflight, heq⟩ := Option.ite_none_left_eq_some.mp hrest
  exact ⟨task, htask, Option.not_isSome_iff_eq_none.mp hflight, (Option.some.inj heq).symm⟩

theorem step_resume {c : ℕ} (hstep : s.step (.resume c) = some s') :
    ∃ call task outcome, s.calls[c]? = some call ∧
      s.tasks[call.execution.promise]? = some task ∧ task.outcome = some outcome ∧
      s' = { s with
        deduplicator := afterAwait s.deduplicator call outcome
        calls := s.calls.modify c fun c => { c with outcome := some outcome } } := by
  obtain ⟨call, hcall, hrest⟩ := Option.bind_eq_some_iff.mp hstep
  obtain ⟨_, hmap⟩ := Option.ite_none_left_eq_some.mp hrest
  obtain ⟨outcome, hbind, rfl⟩ := Option.map_eq_some_iff.mp hmap
  obtain ⟨task, htask, houtcome⟩ := Option.bind_eq_some_iff.mp hbind
  exact ⟨call, task, outcome, hcall, htask, houtcome, rfl⟩

theorem kept_refl (tasks : List (DedupTask R E)) (j : ℕ) :
    Option.Rel DedupTask.Kept tasks[j]? tasks[j]? := by
  cases tasks[j]? with
  | none => exact .none
  | some task => exact .some (.refl task)

theorem kept_settled {tasks : List (DedupTask R E)} {promise : ℕ} {task : DedupTask R E}
    (htask : tasks[promise]? = some task) (hflight : task.outcome = none)
    (outcome : Except E R) (j : ℕ) :
    Option.Rel DedupTask.Kept tasks[j]?
      (tasks.modify promise fun t => { t with outcome := some outcome })[j]? := by
  rw [List.getElem?_modify]
  cases hj : tasks[j]? with
  | none => exact .none
  | some other =>
    apply Option.Rel.some
    dsimp only
    by_cases hsame : promise = j
    · subst hsame
      obtain rfl : task = other := Option.some.inj (htask.symm.trans hj)
      rw [if_pos rfl]
      exact ⟨rfl, rfl, fun o ho => absurd (hflight.symm.trans ho) (by simp)⟩
    · rw [if_neg hsame]
      exact .refl other

section AfterAwait

variable {d : RequestDeduplicator} {call : DedupCall R E} {outcome : Except E R}

theorem afterAwait_ttlMs : (afterAwait d call outcome).ttlMs = d.ttlMs := by
  cases outcome with
  | ok _ => rfl
  | error _ =>
    unfold afterAwait
    by_cases hstarted : call.execution.started ∧ call.key ≠ ""
    · rw [if_pos hstarted]
      rfl
    · rw [if_neg hstarted]

/-- The handler deletes the entry of its key, if the task rejected and the call started it. -/
theorem afterAwait_cache {key : String} {entry : CacheEntry} :
    (afterAwait d call outcome).cache key = some entry ↔ d.cache key = some entry ∧
      ¬ (key = call.key ∧ call.key ≠ "" ∧ call.execution.started ∧
        ∃ err, outcome = .error err) := by
  cases outcome with
  | ok _ =>
    refine ⟨fun h => ⟨h, ?_⟩, And.left⟩
    rintro ⟨_, _, _, _, herr⟩
    cases herr
  | error err =>
    unfold afterAwait
    by_cases hstarted : call.execution.started ∧ call.key ≠ ""
    · rw [if_pos hstarted]
      show Function.update d.cache call.key none key = some entry ↔ _
      by_cases hkey : key = call.key
      · rw [hkey, Function.update_self]
        refine ⟨fun h => (nomatch h), fun h => ?_⟩
        exact absurd ⟨rfl, hstarted.2, hstarted.1, err, rfl⟩ h.2
      · rw [Function.update_of_ne hkey]
        exact ⟨fun h => ⟨h, fun hgone => hkey hgone.1⟩, And.left⟩
    · rw [if_neg hstarted]
      refine ⟨fun h => ⟨h, ?_⟩, And.left⟩
      intro hgone
      exact hstarted ⟨hgone.2.2.1, hgone.2.1⟩

end AfterAwait

theorem Sound.step (h : s.Sound) (hstep : s.step e = some s') (hspares : s.SparesLive e) :
    s'.Sound := by
  cases e with
  | execute key =>
    obtain rfl := Option.some.inj hstep
    exact h.execute key
  | settle promise outcome =>
    obtain ⟨task, htask, hflight, rfl⟩ := step_settle hstep
    exact h.of_kept rfl le_rfl (kept_settled htask hflight outcome) (fun _ _ hentry => hentry)
      (fun _ _ _ hentry _ _ => hentry) h.settles
  | resume c =>
    obtain ⟨call, task, outcome, hcall, htask, houtcome, rfl⟩ := step_resume hstep
    refine h.of_kept afterAwait_ttlMs le_rfl (kept_refl s.tasks) ?_ ?_ ?_
    · exact fun key entry hentry => (afterAwait_cache.mp hentry).1
    · intro key entry cached hentry hcached hlive
      refine afterAwait_cache.mpr ⟨hentry, ?_⟩
      -- the entry of a live task goes only when an older rejection is handled
      rintro ⟨rfl, _, hstarted, err, rfl⟩
      exact hspares c rfl call hcall hstarted task err htask houtcome entry cached hentry hcached
        hlive
    -- the call that goes on settles with the outcome of its own task
    · intro settled hsettled o ho
      obtain ⟨j, hj⟩ := List.mem_iff_getElem?.mp hsettled
      rw [List.getElem?_modify] at hj
      obtain ⟨before, hbefore, rfl⟩ := Option.map_eq_some_iff.mp hj
      by_cases hsame : c = j
      · subst hsame
        obtain rfl : call = before := Option.some.inj (hcall.symm.trans hbefore)
        rw [if_pos rfl] at ho ⊢
        obtain rfl := Option.some.inj ho
        exact ⟨task, htask, houtcome⟩
      · rw [if_neg hsame] at ho ⊢
        exact h.settles before (List.mem_of_getElem? hbefore) o ho
  | elapse t =>
    obtain ⟨hle, heq⟩ := Option.ite_none_right_eq_some.mp hstep
    obtain rfl := Option.some.inj heq
    exact h.of_kept rfl hle (kept_refl s.tasks) (fun _ _ hentry => hentry)
      (fun _ _ _ hentry _ _ => hentry) h.settles

/-- After the entry of a live task has gone, a call of its key starts a second one. -/
theorem sparesLive_of_runsOne (h : s.Sound) (hstep : s.step e = some s') (hone : s'.RunsOne) :
    s.SparesLive e := by
  rintro c rfl call hcall hstarted rejected err hrejected herr entry task hentry htask hlive
  obtain ⟨call', task', outcome, hcall', htask', houtcome, rfl⟩ := step_resume hstep
  obtain rfl : call = call' := Option.some.inj (hcall.symm.trans hcall')
  obtain rfl : rejected = task' := Option.some.inj (hrejected.symm.trans htask')
  obtain rfl : outcome = .error err := Option.some.inj (houtcome.symm.trans herr)
  obtain ⟨hkey, cached, hlatest, hsame, _⟩ := h.cached call.key entry hentry
  obtain rfl : cached = task := Option.some.inj (hlatest.started.symm.trans htask)
  -- the handled rejection has deleted the entry of `cached`, which a new call would have joined
  have hgone (existing : CacheEntry) :
      (afterAwait s.deduplicator call (.error err)).cache call.key ≠ some existing := by
    intro hkept
    exact (afterAwait_cache.mp hkept).2 ⟨rfl, hkey, hstarted, err, rfl⟩
  have hyoung : s.now < cached.startedAt +
      (afterAwait s.deduplicator call (.error err)).ttlMs := by
    rw [afterAwait_ttlMs]
    exact hlive.young
  have hcachedKey : cached.key ≠ "" := by
    rw [hsame]
    exact hkey
  obtain ⟨htasks, _⟩ :=
    hone.joins entry.promise cached hlatest ⟨hlive.unrejected, hyoung⟩ hcachedKey
  unfold DedupRun.execute at htasks
  dsimp only at htasks
  rcases (afterAwait s.deduplicator call (.error err)).execute_cases cached.key s.tasks.length
    s.now with ⟨hnone, _⟩ | ⟨existing, hexisting, _⟩ | ⟨_, _, hexecute⟩
  · exact hcachedKey hnone
  · rw [hsame] at hexisting
    exact hgone existing hexisting
  · rw [hexecute] at htasks
    have hlength := congrArg List.length htasks
    simp at hlength

/-- Over every run, a key has one task at a time exactly if no rejection is handled while the
entry of its key is the entry of a live task. -/
theorem runs_one_iff (ttlMs : Option ℚ) (start : ℚ) (es : List (DedupEvent R E)) :
    Along step (fun _ _ s' => s'.RunsOne) (init ttlMs start : DedupRun R E) es ↔
      Along step (fun s e _ => s.SparesLive e) (init ttlMs start) es := by
  constructor
  · apply Along.mono Sound _ (sound_init ttlMs start)
    intro s e s' hs hstep hone
    have hspares := sparesLive_of_runsOne hs hstep hone
    exact ⟨hspares, hs.step hstep hspares⟩
  · apply Along.mono Sound _ (sound_init ttlMs start)
    intro s e s' hs hstep hspares
    have hnext := hs.step hstep hspares
    exact ⟨hnext.runsOne, hnext⟩

/-- The first task outlives its entry and rejects while the second one runs. -/
def lateRejection : List (DedupEvent String String) :=
  [.execute "req", .elapse 1001, .execute "req", .settle 0 (.error "timeout"), .resume 0]

/-- A third task starts for the key of the second, which is in flight and new. -/
theorem late_rejection_starts_third :
    ∃ s, run step (init (some 1000) 1) lateRejection = some s ∧ ¬ s.RunsOne := by
  have hend : (run step (init (some 1000) 1) lateRejection).map (fun s =>
      (s.tasks, (s.execute "req").tasks.length, s.now, s.deduplicator.ttlMs)) =
        some ([⟨"req", 1, some (.error "timeout")⟩, ⟨"req", 1001, none⟩], 3, 1001, 1000) := by
    decide +kernel
  obtain ⟨s, hrun, hs⟩ := Option.map_eq_some_iff.mp hend
  refine ⟨s, hrun, ?_⟩
  intro hone
  have htasks : s.tasks = [⟨"req", 1, some (.error "timeout")⟩, ⟨"req", 1001, none⟩] :=
    congrArg Prod.fst hs
  have hthird : (s.execute "req").tasks.length = 3 := congrArg (·.2.1) hs
  have hnow : s.now = 1001 := congrArg (·.2.2.1) hs
  have httl : s.deduplicator.ttlMs = 1000 := congrArg (·.2.2.2) hs
  have hlatest : Latest s.tasks 1 ⟨"req", 1001, none⟩ := by
    rw [htasks]
    refine ⟨rfl, fun j other hj _ => ?_⟩
    have hlt := (List.getElem?_eq_some_iff.mp hj).1
    exact Nat.le_of_lt_succ hlt
  have hlive : s.Live ⟨"req", 1001, none⟩ := by
    constructor
    · exact fun err => by simp
    · rw [hnow, httl]
      norm_num
  obtain ⟨hsame, _⟩ := hone.joins 1 _ hlatest hlive (by decide)
  have htwo : (s.execute "req").tasks.length = 2 := by
    rw [hsame, htasks]
    rfl
  omega

end DedupRun

end TimeOff
