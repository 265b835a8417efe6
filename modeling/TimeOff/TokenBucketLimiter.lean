import TimeOff.CircuitBreaker
import Mathlib.Algebra.BigOperators.Group.List.Basic
import Mathlib.Algebra.Order.Field.Rat
import Mathlib.Tactic.Positivity
import Mathlib.Tactic.Linarith
import Mathlib.Tactic.Ring

/-! `TokenBucketLimiter` in exact arithmetic: what any run grants in any interval, and that it
does not matter how often the bucket is polled, since a refill in parts is a refill at once. -/
namespace TimeOff

structure TokenBucketLimiter where
  capacity : ℚ
  refillRatePerSec : ℚ
  tokens : ℚ
  lastRefill : ℚ

inductive BucketCall
  | tryConsume (tokens : Option ℚ)
  | getAvailableTokens

inductive BucketAnswer
  | consumed (granted : Bool)
  | available (tokens : ℚ)
deriving DecidableEq

/-- A call, its time and what it returned. -/
structure BucketEntry where
  call : BucketCall
  time : ℚ
  answer : BucketAnswer

namespace BucketEntry

/-- The tokens taken: an amount left out is 1. -/
def amount (e : BucketEntry) : ℚ :=
  match e.call, e.answer with
  | .tryConsume tokens, .consumed true => tokens.getD 1
  | _, _ => 0

/-- A poll, or a call that was refused. -/
def Idle (e : BucketEntry) : Prop :=
  e.call = .getAvailableTokens ∨ e.answer = .consumed false

end BucketEntry

namespace TokenBucketLimiter

def new (capacity refillRatePerSec : Option ℚ) (now : ℚ) : TokenBucketLimiter :=
  let capacity := (truthy capacity).getD 10
  ⟨capacity, (truthy refillRatePerSec).getD 5, capacity, now⟩

def refill (l : TokenBucketLimiter) (now : ℚ) : TokenBucketLimiter :=
  let elapsedSeconds := (now - l.lastRefill) / 1000
  { l with
    tokens := min l.capacity (l.tokens + elapsedSeconds * l.refillRatePerSec)
    lastRefill := now }

def tryConsume (l : TokenBucketLimiter) (tokens : Option ℚ) (now : ℚ) :
    Bool × TokenBucketLimiter :=
  let tokens := tokens.getD 1
  let l := l.refill now
  if tokens ≤ l.tokens then (true, { l with tokens := l.tokens - tokens }) else (false, l)

def getAvailableTokens (l : TokenBucketLimiter) (now : ℚ) : ℚ × TokenBucketLimiter :=
  let l := l.refill now
  (toFixed 2 l.tokens, l)

def call (l : TokenBucketLimiter) (now : ℚ) : BucketCall → BucketAnswer × TokenBucketLimiter
  | .tryConsume tokens => ((.consumed (l.tryConsume tokens now).1), (l.tryConsume tokens now).2)
  | .getAvailableTokens => (.available (l.getAvailableTokens now).1, (l.getAvailableTokens now).2)

/-- What the calls return, one after the other. -/
def log (l : TokenBucketLimiter) : List (BucketCall × ℚ) → List BucketEntry
  | [] => []
  | (c, now) :: calls => ⟨c, now, (l.call now c).1⟩ :: log (l.call now c).2 calls

def after (l : TokenBucketLimiter) (calls : List (BucketCall × ℚ)) : TokenBucketLimiter :=
  calls.foldl (fun l c => (l.call c.2 c.1).2) l

/-- The bucket is neither overdrawn nor too full, and fills up as time passes. -/
structure Level (l : TokenBucketLimiter) : Prop where
  rate : 0 ≤ l.refillRatePerSec
  nonneg : 0 ≤ l.tokens
  le_capacity : l.tokens ≤ l.capacity

/-- The calls come in the order of their times, none before the last refill, and ask for amounts
that are not negative. -/
structure InOrder (start : ℚ) (calls : List (BucketCall × ℚ)) : Prop where
  from_start : ∀ c ∈ calls, start ≤ c.2
  sorted : calls.Pairwise fun c d => c.2 ≤ d.2
  amounts : ∀ c ∈ calls, ∀ tokens, c.1 = .tryConsume (some tokens) → 0 ≤ tokens

variable {l l₁ l₂ : TokenBucketLimiter} {now a b s t start : ℚ} {c : BucketCall}
  {calls : List (BucketCall × ℚ)}

section Refill

/-- A refill in two parts is a refill at once. -/
theorem refill_refill (hrate : 0 ≤ l.refillRatePerSec) (hab : a ≤ b) :
    (l.refill a).refill b = l.refill b := by
  have hpart : 0 ≤ (b - a) / 1000 * l.refillRatePerSec := by
    have hlen : 0 ≤ b - a := sub_nonneg.mpr hab
    positivity
  have hsum : l.tokens + (b - l.lastRefill) / 1000 * l.refillRatePerSec =
      l.tokens + (a - l.lastRefill) / 1000 * l.refillRatePerSec +
        (b - a) / 1000 * l.refillRatePerSec := by ring
  unfold refill
  dsimp only
  rw [hsum, min_add, ← min_assoc, min_eq_left (le_add_of_nonneg_right hpart)]

theorem Level.refill (h : l.Level) (hnow : l.lastRefill ≤ now) : (l.refill now).Level := by
  have hrate := h.rate
  have hadd : 0 ≤ (now - l.lastRefill) / 1000 * l.refillRatePerSec := by
    have hlen : 0 ≤ now - l.lastRefill := sub_nonneg.mpr hnow
    positivity
  constructor
  · exact h.rate
  · apply le_min (h.nonneg.trans h.le_capacity)
    exact add_nonneg h.nonneg hadd
  · exact min_le_left _ _

theorem refill_same (h : l.Level) : l.refill l.lastRefill = l := by
  have hzero : l.tokens + (l.lastRefill - l.lastRefill) / 1000 * l.refillRatePerSec = l.tokens := by
    ring
  unfold TokenBucketLimiter.refill
  dsimp only
  rw [hzero, min_eq_right h.le_capacity]

end Refill

section Call

/-- The entry of a call. -/
def entry (l : TokenBucketLimiter) (now : ℚ) (c : BucketCall) : BucketEntry :=
  ⟨c, now, (l.call now c).1⟩

/-- A call refills the bucket and takes from it what it grants. -/
theorem call_eq (l : TokenBucketLimiter) (now : ℚ) (c : BucketCall) :
    (l.call now c).2 =
      { l.refill now with tokens := (l.refill now).tokens - (l.entry now c).amount } := by
  unfold entry call
  cases c with
  | getAvailableTokens => simp [BucketEntry.amount, getAvailableTokens]
  | tryConsume tokens =>
    by_cases henough : tokens.getD 1 ≤ (l.refill now).tokens
    · simp [BucketEntry.amount, tryConsume, henough]
    · simp [BucketEntry.amount, tryConsume, henough]

@[simp] theorem call_lastRefill (l : TokenBucketLimiter) (now : ℚ) (c : BucketCall) :
    (l.call now c).2.lastRefill = now := by
  rw [call_eq]
  rfl

@[simp] theorem call_capacity (l : TokenBucketLimiter) (now : ℚ) (c : BucketCall) :
    (l.call now c).2.capacity = l.capacity := by
  rw [call_eq]
  rfl

@[simp] theorem call_rate (l : TokenBucketLimiter) (now : ℚ) (c : BucketCall) :
    (l.call now c).2.refillRatePerSec = l.refillRatePerSec := by
  rw [call_eq]
  rfl

@[simp] theorem call_tokens (l : TokenBucketLimiter) (now : ℚ) (c : BucketCall) :
    (l.call now c).2.tokens = (l.refill now).tokens - (l.entry now c).amount := by
  rw [call_eq]

theorem amount_le (h : (l.refill now).Level) (c : BucketCall) :
    (l.entry now c).amount ≤ (l.refill now).tokens := by
  unfold entry call
  cases c with
  | getAvailableTokens => exact h.nonneg
  | tryConsume tokens =>
    by_cases henough : tokens.getD 1 ≤ (l.refill now).tokens
    · simp [BucketEntry.amount, tryConsume, henough]
    · simpa [BucketEntry.amount, tryConsume, henough] using h.nonneg

theorem amount_nonneg (hc : ∀ tokens, c = .tryConsume (some tokens) → 0 ≤ tokens) :
    0 ≤ (l.entry now c).amount := by
  unfold entry
  cases c with
  | getAvailableTokens => exact le_rfl
  | tryConsume tokens =>
    have hasked : 0 ≤ tokens.getD 1 := by
      cases tokens with
      | none => exact zero_le_one
      | some tokens => exact hc tokens rfl
    by_cases henough : tokens.getD 1 ≤ (l.refill now).tokens
    · simpa [BucketEntry.amount, call, tryConsume, henough] using hasked
    · simp [BucketEntry.amount, call, tryConsume, henough]

theorem amount_of_idle (h : (l.entry now c).Idle) : (l.entry now c).amount = 0 := by
  unfold BucketEntry.amount
  split
  · next tokens hcall hanswer =>
    rcases h with hpoll | hrefused
    · rw [hcall] at hpoll
      cases hpoll
    · rw [hanswer] at hrefused
      cases hrefused
  · rfl

theorem Level.call (h : l.Level) (hnow : l.lastRefill ≤ now)
    (hc : ∀ tokens, c = .tryConsume (some tokens) → 0 ≤ tokens) : (l.call now c).2.Level := by
  have hfull := h.refill hnow
  rw [call_eq]
  constructor
  · exact h.rate
  · exact sub_nonneg.mpr (amount_le hfull c)
  · have hle : (l.refill now).tokens - (l.entry now c).amount ≤ (l.refill now).tokens :=
      sub_le_self _ (amount_nonneg hc)
    exact hle.trans hfull.le_capacity

end Call

section Granted

/-- The tokens taken from `s` to `t`. -/
def granted (s t : ℚ) (log : List BucketEntry) : ℚ :=
  ((log.filter fun e => s ≤ e.time ∧ e.time ≤ t).map BucketEntry.amount).sum

theorem granted_cons (s t : ℚ) (e : BucketEntry) (log : List BucketEntry) :
    granted s t (e :: log) =
      (if s ≤ e.time ∧ e.time ≤ t then e.amount else 0) + granted s t log := by
  unfold granted
  by_cases hin : s ≤ e.time ∧ e.time ≤ t
  · rw [List.filter_cons_of_pos (by simpa using hin), if_pos hin, List.map_cons, List.sum_cons]
  · rw [List.filter_cons_of_neg (by simpa using hin), if_neg hin, zero_add]

theorem InOrder.tail (h : InOrder start ((c, now) :: calls)) : InOrder now calls := by
  obtain ⟨hhead, htail⟩ := List.pairwise_cons.mp h.sorted
  exact ⟨hhead, htail, fun d hd => h.amounts d (List.mem_cons_of_mem _ hd)⟩

/-- Nothing is granted before the first call. -/
theorem granted_of_lt (h : InOrder start calls) (ht : t < start) :
    granted s t (l.log calls) = 0 := by
  induction calls generalizing l start with
  | nil => rfl
  | cons c calls ih =>
    obtain ⟨c, now⟩ := c
    have hstart : start ≤ now := h.from_start (c, now) List.mem_cons_self
    have hout : ¬ (s ≤ now ∧ now ≤ t) := by
      intro hin
      linarith [hin.2]
    unfold log
    rw [granted_cons, if_neg hout, zero_add]
    exact ih h.tail (ht.trans_le hstart)

/-- From now to `t` no more is granted than is in the bucket or comes in. -/
theorem granted_le_level (h : l.Level) (horder : InOrder l.lastRefill calls)
    (ht : l.lastRefill ≤ t) : granted s t (l.log calls) ≤
      l.tokens + (t - l.lastRefill) / 1000 * l.refillRatePerSec := by
  induction calls generalizing l with
  | nil =>
    have hlen : 0 ≤ t - l.lastRefill := sub_nonneg.mpr ht
    have hrate := h.rate
    have htokens := h.nonneg
    show (0 : ℚ) ≤ _
    positivity
  | cons c calls ih =>
    obtain ⟨c, now⟩ := c
    have hnow : l.lastRefill ≤ now := horder.from_start (c, now) List.mem_cons_self
    have hc := horder.amounts (c, now) List.mem_cons_self
    have hamount : 0 ≤ (l.entry now c).amount := amount_nonneg hc
    have hrefill : (l.refill now).tokens ≤
        l.tokens + (now - l.lastRefill) / 1000 * l.refillRatePerSec := min_le_right _ _
    unfold log
    rw [granted_cons]
    by_cases hlate : t < now
    · -- this call and the others come after `t`
      have hrest : granted s t ((l.call now c).2.log calls) = 0 := granted_of_lt horder.tail hlate
      have hout : ¬ (s ≤ now ∧ now ≤ t) := fun hin => absurd hin.2 (not_le.mpr hlate)
      have hlen : 0 ≤ t - l.lastRefill := sub_nonneg.mpr ht
      have hrate := h.rate
      have htokens := h.nonneg
      rw [if_neg hout, hrest, zero_add]
      positivity
    · have htail : InOrder (l.call now c).2.lastRefill calls := by
        rw [call_lastRefill]
        exact horder.tail
      have hrest := ih (h.call hnow hc) htail (by rw [call_lastRefill]; exact not_lt.mp hlate)
      rw [call_lastRefill, call_tokens, call_rate] at hrest
      have hhead : (if s ≤ now ∧ now ≤ t then (l.entry now c).amount else 0) ≤
          (l.entry now c).amount := by
        split
        · exact le_rfl
        · exact hamount
      calc (if s ≤ now ∧ now ≤ t then (l.entry now c).amount else 0) +
            granted s t ((l.call now c).2.log calls)
          ≤ (l.entry now c).amount + ((l.refill now).tokens - (l.entry now c).amount +
              (t - now) / 1000 * l.refillRatePerSec) := add_le_add hhead hrest
        _ = (l.refill now).tokens + (t - now) / 1000 * l.refillRatePerSec := by ring
        _ ≤ l.tokens + (now - l.lastRefill) / 1000 * l.refillRatePerSec +
              (t - now) / 1000 * l.refillRatePerSec := add_le_add_left hrefill _
        _ = l.tokens + (t - l.lastRefill) / 1000 * l.refillRatePerSec := by ring

/-- In any interval no more is granted than a full bucket and what comes in meanwhile. -/
theorem granted_le (h : l.Level) (horder : InOrder l.lastRefill calls) (hst : s ≤ t) :
    granted s t (l.log calls) ≤ l.capacity + (t - s) / 1000 * l.refillRatePerSec := by
  induction calls generalizing l with
  | nil =>
    have hlen : 0 ≤ t - s := sub_nonneg.mpr hst
    have hrate := h.rate
    have hcapacity : 0 ≤ l.capacity := h.nonneg.trans h.le_capacity
    show (0 : ℚ) ≤ _
    positivity
  | cons c calls ih =>
    obtain ⟨c, now⟩ := c
    have hnow : l.lastRefill ≤ now := horder.from_start (c, now) List.mem_cons_self
    have hc := horder.amounts (c, now) List.mem_cons_self
    have hlevel : (l.call now c).2.Level := h.call hnow hc
    have htail : InOrder (l.call now c).2.lastRefill calls := by
      rw [call_lastRefill]
      exact horder.tail
    unfold log
    rw [granted_cons]
    by_cases hin : s ≤ now ∧ now ≤ t
    · -- the first call of the interval finds at most a full bucket
      have hrest : granted s t ((l.call now c).2.log calls) ≤ _ :=
        granted_le_level hlevel htail (by rw [call_lastRefill]; exact hin.2)
      rw [call_lastRefill, call_tokens, call_rate] at hrest
      have hfull : (l.refill now).tokens ≤ l.capacity := min_le_left _ _
      have hlen : (t - now) / 1000 * l.refillRatePerSec ≤
          (t - s) / 1000 * l.refillRatePerSec := by
        have hrate := h.rate
        have hsub : t - now ≤ t - s := sub_le_sub_left hin.1 t
        gcongr
      rw [if_pos hin]
      show (l.entry now c).amount + _ ≤ _
      linarith
    · have hrest := ih hlevel htail
      rw [call_rate, call_capacity] at hrest
      rw [if_neg hin, zero_add]
      exact hrest

end Granted

section Polls

/-- The second log is the first with polls and refused calls put in. -/
inductive Polled : List BucketEntry → List BucketEntry → Prop
  | nil : Polled [] []
  | same (e : BucketEntry) {log log' : List BucketEntry} :
    Polled log log' → Polled (e :: log) (e :: log')
  | poll (e : BucketEntry) {log log' : List BucketEntry} :
    e.Idle → Polled log log' → Polled log (e :: log')

/-- The calls that a log is of. -/
def callsOf (log : List BucketEntry) : List (BucketCall × ℚ) := log.map fun e => (e.call, e.time)

/-- The first bucket has yet to refill to be the second. -/
structure Behind (l₁ l₂ : TokenBucketLimiter) : Prop where
  level : l₁.Level
  earlier : l₁.lastRefill ≤ l₂.lastRefill
  refill : l₁.refill l₂.lastRefill = l₂

theorem Behind.refill_eq (h : Behind l₁ l₂) (hnow : l₂.lastRefill ≤ now) :
    l₁.refill now = l₂.refill now := by
  rw [← h.refill]
  exact (refill_refill h.level.rate hnow).symm

theorem call_congr (h : l₁.refill now = l₂.refill now) (c : BucketCall) :
    l₁.call now c = l₂.call now c := by
  cases c with
  | tryConsume tokens =>
    unfold call tryConsume
    rw [h]
  | getAvailableTokens =>
    unfold call getAvailableTokens
    rw [h]

/-- An idle call leaves the bucket as a refill would. -/
theorem Behind.idle (h : Behind l₁ l₂) (hnow : l₂.lastRefill ≤ now)
    (hidle : (l₂.entry now c).Idle) : Behind l₁ (l₂.call now c).2 := by
  have hrefilled : (l₂.call now c).2 = l₂.refill now := by
    rw [call_eq, amount_of_idle hidle, sub_zero]
  rw [hrefilled]
  exact ⟨h.level, h.earlier.trans hnow, h.refill_eq hnow⟩

/-- The other calls of a run return the same without its idle ones. -/
theorem Behind.log_eq (h : Behind l₁ l₂) {all : List (BucketCall × ℚ)} {log : List BucketEntry}
    (horder : InOrder l₂.lastRefill all) (hpolled : Polled log (l₂.log all)) :
    l₁.log (callsOf log) = log := by
  induction all generalizing l₁ l₂ log with
  | nil =>
    cases hpolled
    rfl
  | cons c all ih =>
    obtain ⟨c, now⟩ := c
    have hnow : l₂.lastRefill ≤ now := horder.from_start (c, now) List.mem_cons_self
    have hc := horder.amounts (c, now) List.mem_cons_self
    have htail : InOrder (l₂.call now c).2.lastRefill all := by
      rw [call_lastRefill]
      exact horder.tail
    cases hpolled with
    | @same _ rest _ hrest =>
      have hcall : l₁.call now c = l₂.call now c := call_congr (h.refill_eq hnow) c
      have hlevel : (l₁.call now c).2.Level := h.level.call (h.earlier.trans hnow) hc
      rw [hcall] at hlevel
      have htogether : Behind (l₂.call now c).2 (l₂.call now c).2 :=
        ⟨hlevel, le_rfl, refill_same hlevel⟩
      show ⟨c, now, (l₁.call now c).1⟩ :: (l₁.call now c).2.log (callsOf rest) = _
      rw [hcall, ih htogether htail hrest]
    | poll _ hidle hrest => exact ih (h.idle hnow hidle) htail hrest

end Polls

theorem level_new {capacity rate : ℚ} (hcapacity : 0 < capacity) (hrate : 0 < rate) (start : ℚ) :
    new (some capacity) (some rate) start = ⟨capacity, rate, capacity, start⟩ ∧
      (new (some capacity) (some rate) start).Level := by
  have hnew : new (some capacity) (some rate) start = ⟨capacity, rate, capacity, start⟩ := by
    simp [new, truthy, hcapacity.ne', hrate.ne']
  rw [hnew]
  exact ⟨rfl, hrate.le, hcapacity.le, le_rfl⟩

theorem Level.after (h : l.Level) (horder : InOrder l.lastRefill calls) :
    (l.after calls).Level ∧ (l.after calls).capacity = l.capacity := by
  induction calls generalizing l with
  | nil => exact ⟨h, rfl⟩
  | cons c calls ih =>
    obtain ⟨c, now⟩ := c
    have hnow : l.lastRefill ≤ now := horder.from_start (c, now) List.mem_cons_self
    have hc := horder.amounts (c, now) List.mem_cons_self
    have htail : InOrder (l.call now c).2.lastRefill calls := by
      rw [call_lastRefill]
      exact horder.tail
    obtain ⟨hlevel, hcapacity⟩ := ih (h.call hnow hc) htail
    exact ⟨hlevel, hcapacity.trans (call_capacity l now c)⟩

/-- Whatever the calls and however often the bucket is polled, it never grants more in an interval
than a full bucket and what comes in meanwhile, and it stays between empty and full. -/
theorem rate_never_exceeded (capacity rate start : ℚ) (calls : List (BucketCall × ℚ))
    (hcapacity : 0 < capacity) (hrate : 0 < rate) (horder : InOrder start calls) :
    let l := new (some capacity) (some rate) start
    (∀ s t, s ≤ t → granted s t (l.log calls) ≤ capacity + rate * (t - s) / 1000) ∧
    (0 ≤ (l.after calls).tokens ∧ (l.after calls).tokens ≤ capacity) ∧
    ∀ log, Polled log (l.log calls) → l.log (callsOf log) = log := by
  intro l
  obtain ⟨hnew, hlevel⟩ := level_new hcapacity hrate start
  have hstart : InOrder l.lastRefill calls := by
    rw [show l = _ from hnew]
    exact horder
  refine ⟨?_, ?_, ?_⟩
  · intro s t hst
    have hle := granted_le hlevel hstart hst
    rw [hnew] at hle
    calc granted s t (l.log calls) ≤ capacity + (t - s) / 1000 * rate := by
          rw [show l = _ from hnew]
          exact hle
      _ = capacity + rate * (t - s) / 1000 := by ring
  · obtain ⟨hafter, hsame⟩ := hlevel.after hstart
    have hcap : l.capacity = capacity := congrArg TokenBucketLimiter.capacity hnew
    exact ⟨hafter.nonneg, hafter.le_capacity.trans (hsame.trans hcap).le⟩
  · intro log hpolled
    have htogether : Behind l l := ⟨hlevel, le_rfl, refill_same hlevel⟩
    exact htogether.log_eq hstart hpolled

/-- Three tokens, a poll, and three more, of which one is missing, on a bucket of five. -/
def sips : List (BucketCall × ℚ) :=
  [(.tryConsume (some 3), 0), (.getAvailableTokens, 250), (.tryConsume (some 3), 500),
    (.tryConsume none, 500)]

theorem sips_within_rate :
    granted 0 500 ((new (some 5) (some 1) 0).log sips) ≤ 5 + 1 * (500 - 0) / 1000 := by
  have horder : InOrder 0 sips := by
    refine ⟨by decide +kernel, by decide +kernel, ?_⟩
    intro c hc tokens htokens
    simp only [sips, List.mem_cons, List.not_mem_nil, or_false] at hc
    rcases hc with rfl | rfl | rfl | rfl <;> cases htokens <;> norm_num
  exact (rate_never_exceeded 5 1 0 sips (by norm_num) (by norm_num) horder).1 0 500 (by norm_num)

example : ((new (some 5) (some 1) 0).log sips).map (·.answer) =
    [.consumed true, .available (9 / 4), .consumed false, .consumed true] := by
  decide +kernel

end TokenBucketLimiter
end TimeOff
