import TimeOff.SlidingWindow
import TimeOff.CircuitBreaker
import Mathlib.Logic.Function.Basic
import Mathlib.Algebra.Order.Ring.Rat

/-! `RateLimiter.check` over any sequence of calls, for any keys: the times it keeps for a key
are those of the window, and what it lets in is an exact sliding window. -/
namespace TimeOff

open SlidingWindow

structure RateLimiter where
  windowMs : ℚ
  maxRequests : ℕ
  hits : String → Option (List ℚ)

/-- `resetTimeMs` is `NaN`, here `none`, where there is no oldest time. -/
structure CheckResult where
  allowed : Bool
  remaining : ℕ
  resetTimeMs : Option ℚ
  total : ℕ
deriving DecidableEq

/-- A call of `check`, its time and what it returned. -/
structure Checked where
  key : String
  time : ℚ
  result : CheckResult
deriving DecidableEq

namespace RateLimiter

/-- `options.windowMs || 60000` and `options.maxRequests || 100`. -/
def new (windowMs : Option ℚ) (maxRequests : Option ℕ) : RateLimiter :=
  ⟨(truthy windowMs).getD 60000, (maxRequests.filter (· ≠ 0)).getD 100, fun _ => none⟩

def set (l : RateLimiter) (key : String) (timestamps : List ℚ) : RateLimiter :=
  { l with hits := Function.update l.hits key (some timestamps) }

/-- The times kept for a key that are still in the window. -/
def recent (l : RateLimiter) (key : String) (now : ℚ) : List ℚ :=
  ((l.hits key).getD []).filter fun t => now - l.windowMs < t

def check (l : RateLimiter) (key : String) (now : ℚ) : CheckResult × RateLimiter :=
  let timestamps := l.recent key now
  if l.maxRequests ≤ timestamps.length then
    (⟨false, 0, timestamps.head?.map (· + l.windowMs), timestamps.length⟩, l.set key timestamps)
  else
    let timestamps := timestamps ++ [now]
    (⟨true, l.maxRequests - timestamps.length, timestamps.head?.map (· + l.windowMs),
      timestamps.length⟩, l.set key timestamps)

/-- The calls made one after the other, with the limiter they leave. -/
def run (l : RateLimiter) (calls : List (String × ℚ)) : RateLimiter × List Checked :=
  calls.foldl (fun s call =>
    let answer := s.1.check call.1 call.2
    (answer.2, s.2 ++ [⟨call.1, call.2, answer.1⟩])) (l, [])

/-- The calls for one key, as arrivals at a sliding window. -/
def arrivals (key : String) (log : List Checked) : List (ℚ × Bool) :=
  (log.filter (·.key = key)).map fun c => (c.time, c.result.allowed)

section Check

variable {l : RateLimiter} {key : String} {now : ℚ}

theorem check_refused (h : l.maxRequests ≤ (l.recent key now).length) :
    l.check key now = (⟨false, 0, (l.recent key now).head?.map (· + l.windowMs),
      (l.recent key now).length⟩, l.set key (l.recent key now)) :=
  if_pos h

theorem check_allowed (h : (l.recent key now).length < l.maxRequests) :
    (l.check key now).1.allowed = true ∧
      (l.check key now).2 = l.set key (l.recent key now ++ [now]) := by
  unfold check
  dsimp only
  rw [if_neg (by omega)]
  exact ⟨rfl, rfl⟩

/-- A call is let in while the window is not full, and only then is its time added. -/
theorem check_spec (l : RateLimiter) (key : String) (now : ℚ) :
    ((l.check key now).1.allowed = true ↔ (l.recent key now).length < l.maxRequests) ∧
      (l.check key now).2 = l.set key (l.recent key now ++
        admitted [(now, (l.check key now).1.allowed)]) := by
  by_cases hfull : l.maxRequests ≤ (l.recent key now).length
  · rw [check_refused hfull]
    refine ⟨by simpa using hfull, ?_⟩
    rw [admitted_singleton]
    simp
  · obtain ⟨hok, hset⟩ := check_allowed (not_le.mp hfull)
    rw [hset, hok]
    exact ⟨by simpa using hfull, rfl⟩

theorem recent_set (l : RateLimiter) (key other : String) (timestamps : List ℚ) (now : ℚ) :
    (l.set key timestamps).recent other now =
      if other = key then timestamps.filter fun t => now - l.windowMs < t
      else l.recent other now := by
  unfold recent set
  dsimp only
  by_cases hkey : other = key
  · rw [if_pos hkey, hkey, Function.update_self]
    rfl
  · rw [if_neg hkey, Function.update_of_ne hkey]

end Check

section Arrivals

variable {key : String} {log before after : List Checked} {c : Checked}

theorem arrivals_append (key : String) (log log' : List Checked) :
    arrivals key (log ++ log') = arrivals key log ++ arrivals key log' := by
  unfold arrivals
  rw [List.filter_append, List.map_append]

theorem arrivals_cons (hkey : c.key = key) :
    arrivals key (c :: after) = (c.time, c.result.allowed) :: arrivals key after := by
  unfold arrivals
  rw [List.filter_cons_of_pos (by simpa using hkey), List.map_cons]

theorem arrivals_concat (log : List Checked) (key : String) (now : ℚ) (result : CheckResult) :
    arrivals key (log ++ [⟨key, now, result⟩]) = arrivals key log ++ [(now, result.allowed)] := by
  rw [arrivals_append, arrivals_cons (c := ⟨key, now, result⟩) rfl]
  rfl

theorem arrivals_concat_of_ne (log : List Checked) (hkey : c.key ≠ key) :
    arrivals key (log ++ [c]) = arrivals key log := by
  unfold arrivals
  rw [List.filter_append, List.filter_cons_of_neg (by simpa using hkey), List.filter_nil,
    List.append_nil]

theorem ordered_arrivals (h : log.Pairwise fun c d => c.time ≤ d.time) (key : String) :
    Ordered (arrivals key log) :=
  List.pairwise_map.mpr (h.filter _)

end Arrivals

/-- The oldest of the times that are in order is the first. -/
theorem head_le {ts : List ℚ} {oldest : ℚ} (h : ts.Pairwise (· ≤ ·))
    (hhead : ts.head? = some oldest) :
    ∀ a ∈ ts, oldest ≤ a := by
  intro a ha
  cases ts with
  | nil => cases hhead
  | cons b ts =>
    obtain rfl := Option.some.inj hhead
    rcases List.mem_cons.mp ha with rfl | hmem
    · exact le_rfl
    · exact (List.pairwise_cons.mp h).1 a hmem

theorem time_of_admitted {a : ℚ} {key : String} {log : List Checked}
    (ha : a ∈ admitted (arrivals key log)) : ∃ c ∈ log, c.time = a := by
  obtain ⟨p, hp, rfl⟩ := List.mem_map.mp ha
  obtain ⟨c, hc, rfl⟩ := List.mem_map.mp (List.mem_filter.mp hp).1
  exact ⟨c, (List.mem_filter.mp hc).1, rfl⟩

/-- What the calls so far have left: the limiter keeps the times that were let in and are still in
the window, and a refusal has named the oldest of them. -/
structure Sound (w : ℚ) (n : ℕ) (s : RateLimiter × List Checked) : Prop where
  windowMs : s.1.windowMs = w
  maxRequests : s.1.maxRequests = n
  kept : ∀ key now, (∀ c ∈ s.2, c.time ≤ now) →
    s.1.recent key now = (admitted (arrivals key s.2)).filter fun t => now - w < t
  exact : ∀ key, Exact n w (arrivals key s.2)
  resets : ∀ before c after, s.2 = before ++ c :: after → c.result.allowed = false →
    ∃ oldest ∈ admitted (arrivals c.key before), c.result.resetTimeMs = some (oldest + w) ∧
      inWindow w c.time oldest = true ∧
      ∀ a ∈ admitted (arrivals c.key before), inWindow w c.time a = true → oldest ≤ a

variable {w now : ℚ} {n : ℕ} {l : RateLimiter} {log : List Checked} {key : String}

theorem Sound.length_recent (h : Sound w n (l, log)) (hle : ∀ c ∈ log, c.time ≤ now) :
    (l.recent key now).length = (admitted (arrivals key log)).countP (inWindow w now) := by
  have hkept : l.recent key now = _ := h.kept key now hle
  rw [hkept, ← List.countP_eq_length_filter]
  apply List.countP_congr
  intro a ha
  obtain ⟨c, hc, rfl⟩ := time_of_admitted ha
  rw [inWindow_iff]
  simp [hle c hc]

/-- A refusal names the oldest time in the window. -/
theorem Sound.reset (h : Sound w n (l, log)) (hn : 1 ≤ n) (hle : ∀ c ∈ log, c.time ≤ now)
    (hlog : log.Pairwise fun c d => c.time ≤ d.time)
    (hrefused : (l.check key now).1.allowed = false) :
    ∃ oldest ∈ admitted (arrivals key log),
      (l.check key now).1.resetTimeMs = some (oldest + w) ∧ inWindow w now oldest = true ∧
      ∀ a ∈ admitted (arrivals key log), inWindow w now a = true → oldest ≤ a := by
  have hfull : l.maxRequests ≤ (l.recent key now).length := by
    by_contra hroom
    rw [((l.check_spec key now).1).mpr (not_le.mp hroom)] at hrefused
    cases hrefused
  have hkept : l.recent key now = _ := h.kept key now hle
  have hmax : l.maxRequests = n := h.maxRequests
  have hwindow : l.windowMs = w := h.windowMs
  rw [check_refused hfull]
  cases hhead : (l.recent key now).head? with
  | none =>
    rw [List.head?_eq_none_iff.mp hhead] at hfull
    simp only [List.length_nil] at hfull
    omega
  | some oldest =>
    have hmem : oldest ∈ l.recent key now := List.mem_of_head? hhead
    have hsorted : (l.recent key now).Pairwise (· ≤ ·) := by
      rw [hkept]
      apply List.Pairwise.filter
      exact List.pairwise_map.mpr ((ordered_arrivals hlog key).filter _)
    have hmin := head_le hsorted hhead
    rw [hkept] at hmem hmin
    obtain ⟨hin, hlo⟩ := List.mem_filter.mp hmem
    obtain ⟨c, hc, rfl⟩ := time_of_admitted hin
    refine ⟨c.time, hin, ?_, ?_, ?_⟩
    · rw [hwindow]
      rfl
    · exact inWindow_iff.mpr ⟨of_decide_eq_true hlo, hle c hc⟩
    · intro a ha hwin
      exact hmin a (List.mem_filter.mpr ⟨ha, decide_eq_true (inWindow_iff.mp hwin).1⟩)

theorem Sound.check (h : Sound w n (l, log)) (hn : 1 ≤ n)
    (hle : ∀ c ∈ log, c.time ≤ now) (hlog : log.Pairwise fun c d => c.time ≤ d.time) :
    Sound w n ((l.check key now).2, log ++ [⟨key, now, (l.check key now).1⟩]) := by
  obtain ⟨hallowed, hset⟩ := l.check_spec key now
  have hmax : l.maxRequests = n := h.maxRequests
  have hwindow : l.windowMs = w := h.windowMs
  rw [hmax, h.length_recent hle] at hallowed
  constructor
  · rw [hset]
    exact h.windowMs
  · rw [hset]
    exact h.maxRequests
  · intro other t ht
    have hlogt : ∀ c ∈ log, c.time ≤ t := fun c hc => ht c (List.mem_append_left _ hc)
    have hnow : now ≤ t := ht ⟨key, now, (l.check key now).1⟩ (by simp)
    dsimp only
    rw [hset, recent_set, hwindow]
    by_cases hkey : other = key
    · subst hkey
      have hkept : l.recent other now = _ := h.kept other now hle
      rw [if_pos rfl, arrivals_concat, admitted_append, hkept, List.filter_append,
        List.filter_append, List.filter_filter]
      -- a time that is in the window of `t` is in that of `now`, which is not later
      congr 1
      apply List.filter_congr
      intro a _
      have hlo : now - w ≤ t - w := sub_le_sub_right hnow w
      apply Bool.eq_iff_iff.mpr
      simp only [Bool.and_eq_true, decide_eq_true_eq, and_iff_left_iff_imp]
      exact fun ha => hlo.trans_lt ha
    · rw [if_neg hkey, arrivals_concat_of_ne log (Ne.symm hkey)]
      exact h.kept other t hlogt
  · intro other
    dsimp only
    by_cases hkey : key = other
    · subst hkey
      rw [arrivals_concat]
      exact (h.exact key).concat hallowed
    · rw [arrivals_concat_of_ne log hkey]
      exact h.exact other
  · intro before c after heq hrefused
    rcases List.eq_nil_or_concat after with rfl | ⟨rest, last, rfl⟩
    · obtain ⟨rfl, hsame⟩ := List.append_inj' heq rfl
      cases hsame
      exact h.reset hn hle hlog hrefused
    · rw [List.concat_eq_append, ← List.cons_append, ← List.append_assoc] at heq
      obtain ⟨hfront, _⟩ := List.append_inj' heq rfl
      exact h.resets before c rest hfront hrefused

theorem run_concat (l : RateLimiter) (calls : List (String × ℚ)) (call : String × ℚ) :
    l.run (calls ++ [call]) = (((l.run calls).1.check call.1 call.2).2,
      (l.run calls).2 ++ [⟨call.1, call.2, ((l.run calls).1.check call.1 call.2).1⟩]) := by
  unfold run
  rw [List.foldl_append]
  rfl

theorem run_calls (l : RateLimiter) (calls : List (String × ℚ)) :
    (l.run calls).2.map (fun c => (c.key, c.time)) = calls := by
  induction calls using List.reverseRecOn with
  | nil => rfl
  | append_singleton calls call ih =>
    rw [run_concat, List.map_append, ih]
    rfl

theorem run_ordered {calls : List (String × ℚ)} (l : RateLimiter)
    (hcalls : calls.Pairwise fun c d => c.2 ≤ d.2) :
    (l.run calls).2.Pairwise fun c d => c.time ≤ d.time := by
  rw [← l.run_calls calls] at hcalls
  exact (List.pairwise_map (R := fun p q : String × ℚ => p.2 ≤ q.2)).mp hcalls

theorem run_sound {calls : List (String × ℚ)} (hw : 1 ≤ w) (hn : 1 ≤ n)
    (hcalls : calls.Pairwise fun c d => c.2 ≤ d.2) :
    Sound w n ((new (some w) (some n)).run calls) := by
  induction calls using List.reverseRecOn with
  | nil =>
    constructor
    · exact congrArg (Option.getD · 60000) (if_neg (by linarith))
    · simp [run, new, Option.filter, Nat.one_le_iff_ne_zero.mp hn]
    · exact fun _ _ _ => rfl
    · exact fun _ before _ _ _ heq => by simp [run, arrivals] at heq
    · exact fun before _ _ heq => by simp [run] at heq
  | append_singleton calls call ih =>
    obtain ⟨hbefore, _, hcross⟩ := List.pairwise_append.mp hcalls
    rw [run_concat]
    apply (ih hbefore).check hn
    · intro c hc
      have hmem : (c.key, c.time) ∈ calls := by
        rw [← run_calls (new (some w) (some n)) calls]
        exact List.mem_map_of_mem hc
      exact hcross _ hmem call List.mem_cons_self
    · exact run_ordered _ hbefore

/-- `check` is an exact sliding window: a call is let in exactly if fewer than `maxRequests` calls
of its key were in the window that ends with it, no half-open window holds more, and a refusal
says until when the calls of its key are refused. -/
theorem exact_sliding_window (windowMs : ℚ) (maxRequests : ℕ) (calls : List (String × ℚ))
    (hwindow : 1 ≤ windowMs) (hmax : 1 ≤ maxRequests)
    (hcalls : calls.Pairwise fun c d => c.2 ≤ d.2) :
    let log := ((new (some windowMs) (some maxRequests)).run calls).2
    (∀ before c after, log = before ++ c :: after → (c.result.allowed = true ↔
      (admitted (arrivals c.key before)).countP
        (fun a => c.time - windowMs < a ∧ a ≤ c.time) < maxRequests)) ∧
    (∀ key t, (admitted (arrivals key log)).countP (fun a => t - windowMs < a ∧ a ≤ t) ≤
        maxRequests ∧
      (admitted (arrivals key log)).countP (fun a => t ≤ a ∧ a < t + windowMs) ≤ maxRequests) ∧
    ∀ before c mid d after, log = before ++ c :: (mid ++ d :: after) → d.key = c.key →
      c.result.allowed = false → ∃ resetTimeMs, c.result.resetTimeMs = some resetTimeMs ∧
        (d.time < resetTimeMs → d.result.allowed = false) ∧
        (resetTimeMs ≤ d.time → (∀ m ∈ mid, m.key = c.key → m.time < resetTimeMs) →
          d.result.allowed = true) := by
  intro log
  have hsound : Sound windowMs maxRequests (_, log) := run_sound hwindow hmax hcalls
  have hordered (key : String) : Ordered (arrivals key log) :=
    ordered_arrivals (run_ordered _ hcalls) key
  refine ⟨?_, ?_, ?_⟩
  · intro before c after heq
    apply hsound.exact c.key (arrivals c.key before) c.time c.result.allowed
      (arrivals c.key after)
    rw [← arrivals_cons rfl, ← arrivals_append]
    exact congrArg (arrivals c.key) heq
  · intro key t
    have hexact : Exact maxRequests windowMs (arrivals key log) := hsound.exact key
    refine ⟨hexact.countP_inWindow_le (hordered key) t, hexact.countP_le (hordered key) ?_⟩
    intro a b ha hb
    have hlo : t ≤ a := (of_decide_eq_true ha).1
    have hhi : b < t + windowMs := (of_decide_eq_true hb).2
    linarith
  · intro before c mid d after heq hkey hrefused
    obtain ⟨oldest, hmem, hreset, hin, hmin⟩ :=
      hsound.resets before c (mid ++ d :: after) heq hrefused
    have hlog : arrivals c.key log = arrivals c.key before ++ (c.time, false) ::
        (arrivals c.key mid ++ (d.time, d.result.allowed) :: arrivals c.key after) := by
      rw [← hrefused, ← arrivals_cons hkey, ← arrivals_append, ← arrivals_cons rfl,
        ← arrivals_append]
      exact congrArg (arrivals c.key) heq
    have hexact := hsound.exact c.key
    have horder := hordered c.key
    dsimp only at hexact
    rw [hlog] at hexact horder
    refine ⟨oldest + windowMs, hreset, ?_, ?_⟩
    · intro hbefore
      exact hexact.refused_before horder hmin hbefore
    · intro hfree hmid
      apply (hexact.after_refusal horder hmem hin hmin _).mpr hfree
      intro p hp
      obtain ⟨m, hm, rfl⟩ := List.mem_map.mp hp
      obtain ⟨hm, hmkey⟩ := List.mem_filter.mp hm
      exact hmid m hm (of_decide_eq_true hmkey)

/-- Two calls per 50 ms: the third one is refused until the first is 50 ms old. -/
def burst : List (String × ℚ) := [("a", 0), ("a", 10), ("b", 15), ("a", 20), ("a", 50)]

theorem burst_within_limit :
    (admitted (arrivals "a" ((new (some 50) (some 2)).run burst).2)).countP
      (fun a => 50 - 50 < a ∧ a ≤ 50) ≤ 2 := by
  have hcalls : burst.Pairwise fun c d => c.2 ≤ d.2 := by decide +kernel
  exact ((exact_sliding_window 50 2 burst (by norm_num) (by norm_num) hcalls).2.1 "a" 50).1

example : ((new (some 50) (some 2)).run burst).2.map (·.result.allowed) =
    [true, true, true, false, true] := by
  decide +kernel

end RateLimiter
end TimeOff
