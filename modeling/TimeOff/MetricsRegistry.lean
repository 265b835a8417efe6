import TimeOff.NearestRank
import TimeOff.CircuitBreaker
import Mathlib.Data.List.Induction

/-! `MetricsRegistry` in exact arithmetic: the durations it keeps are the last ones, and its
percentiles are nearest ranks among them. -/
namespace TimeOff

open NearestRank

structure MetricsRegistry where
  windowSize : ℕ
  latencies : List ℚ
  requestCount : ℕ
  errorCount : ℕ

structure MetricsSnapshot where
  totalRequests : ℕ
  totalErrors : ℕ
  errorRate : ℚ
  p50 : ℚ
  p95 : ℚ
  p99 : ℚ
  sampleSize : ℕ
deriving DecidableEq

namespace MetricsRegistry

/-- `options.windowSize || 1000`. -/
def new (windowSize : Option ℕ) : MetricsRegistry :=
  ⟨(windowSize.filter (· ≠ 0)).getD 1000, [], 0, 0⟩

def recordRequest (r : MetricsRegistry) (durationMs : ℚ) (isError : Bool) : MetricsRegistry :=
  let latencies := r.latencies ++ [durationMs]
  { r with
    requestCount := r.requestCount + 1
    errorCount := if isError then r.errorCount + 1 else r.errorCount
    latencies := if r.windowSize < latencies.length then latencies.drop 1 else latencies }

def getPercentile (r : MetricsRegistry) (p : ℚ) : ℚ :=
  if r.latencies.length = 0 then 0
  else
    let sorted := r.latencies.insertionSort (· ≤ ·)
    let index : ℤ := ⌈p / 100 * sorted.length⌉ - 1
    -- the index is clamped to the list, so there is always an element
    (sorted[(max 0 (min ((sorted.length : ℤ) - 1) index)).toNat]?).getD 0

def getSnapshot (r : MetricsRegistry) : MetricsSnapshot where
  totalRequests := r.requestCount
  totalErrors := r.errorCount
  errorRate := if 0 < r.requestCount then toFixed 4 (r.errorCount / r.requestCount) else 0
  p50 := r.getPercentile 50
  p95 := r.getPercentile 95
  p99 := r.getPercentile 99
  sampleSize := r.latencies.length

/-- The requests recorded one after the other, each with its duration. -/
def record (r : MetricsRegistry) (requests : List (ℚ × Bool)) : MetricsRegistry :=
  requests.foldl (fun r request => r.recordRequest request.1 request.2) r

/-- The last of the durations, as many as the window has places. -/
def lastDurations (windowSize : ℕ) (requests : List (ℚ × Bool)) : List ℚ :=
  (requests.map Prod.fst).drop (requests.length - windowSize)

variable {r : MetricsRegistry} {requests : List (ℚ × Bool)} {windowSize : ℕ} {p q : ℚ}

theorem record_concat (r : MetricsRegistry) (requests : List (ℚ × Bool)) (request : ℚ × Bool) :
    r.record (requests ++ [request]) =
      (r.record requests).recordRequest request.1 request.2 := by
  unfold record
  rw [List.foldl_append]
  rfl

theorem record_windowSize (r : MetricsRegistry) (requests : List (ℚ × Bool)) :
    (r.record requests).windowSize = r.windowSize := by
  induction requests using List.reverseRecOn with
  | nil => rfl
  | append_singleton requests request ih => rw [record_concat, ← ih]; rfl

/-- One duration more: the oldest goes if the window was full. -/
theorem drop_concat (n : ℕ) (ds : List ℚ) (d : ℚ) :
    (if n < (ds.drop (ds.length - n) ++ [d]).length then (ds.drop (ds.length - n) ++ [d]).drop 1
      else ds.drop (ds.length - n) ++ [d]) = (ds ++ [d]).drop (ds.length + 1 - n) := by
  have hlast : ds.drop (ds.length - n) ++ [d] = (ds ++ [d]).drop (ds.length - n) :=
    (List.drop_append_of_le_length (by omega)).symm
  have hlen : (ds.drop (ds.length - n) ++ [d]).length = ds.length - (ds.length - n) + 1 := by
    rw [List.length_append, List.length_drop, List.length_singleton]
  rw [hlen, hlast]
  by_cases hfull : n ≤ ds.length
  · rw [if_pos (by omega), List.drop_drop]
    congr 1
    omega
  · rw [if_neg (by omega)]
    congr 1
    omega

/-- The registry keeps the last durations. -/
theorem record_latencies (hempty : r.latencies = []) (requests : List (ℚ × Bool)) :
    (r.record requests).latencies = lastDurations r.windowSize requests := by
  induction requests using List.reverseRecOn with
  | nil => simpa [record, lastDurations] using hempty
  | append_singleton requests request ih =>
    have hsize : (r.record requests).windowSize = r.windowSize := record_windowSize r requests
    have hdrop := drop_concat r.windowSize (requests.map Prod.fst) request.1
    rw [List.length_map] at hdrop
    rw [record_concat]
    unfold recordRequest
    dsimp only
    rw [hsize, ih]
    unfold lastDurations
    rw [hdrop, List.map_append, List.length_append]
    rfl

/-- The rank of a percentage among `n` durations. -/
def rankOf (p : ℚ) (n : ℕ) : ℕ := ⌈p / 100 * n⌉₊

theorem rankOf_le_iff {n m : ℕ} : rankOf p n ≤ m ↔ p / 100 * n ≤ m := Nat.ceil_le

theorem rankOf_bounds {n : ℕ} (h0 : 0 < p) (h100 : p ≤ 100) (hn : 0 < n) :
    1 ≤ rankOf p n ∧ rankOf p n ≤ n := by
  have hn' : (0 : ℚ) < n := Nat.cast_pos.mpr hn
  constructor
  · apply Nat.ceil_pos.mpr
    positivity
  · apply rankOf_le_iff.mpr
    have hle : p / 100 ≤ 1 := by linarith
    exact mul_le_of_le_one_left hn'.le hle

theorem rankOf_mono (n : ℕ) (hpq : p ≤ q) : rankOf p n ≤ rankOf q n := by
  apply Nat.ceil_mono
  gcongr

/-- With `0 < p ≤ 100` the index needs no clamping: it is the rank less one. -/
theorem index_eq {n : ℕ} (h0 : 0 < p) (h100 : p ≤ 100) (hn : 0 < n) :
    (max 0 (min ((n : ℤ) - 1) (⌈p / 100 * n⌉ - 1))).toNat = rankOf p n - 1 := by
  obtain ⟨h1, hle⟩ := rankOf_bounds h0 h100 hn
  have hceil : ⌈p / 100 * n⌉ = (rankOf p n : ℤ) := by
    apply (Int.natCast_ceil_eq_ceil _).symm
    positivity
  rw [hceil]
  omega

/-- A percentile is the least duration that so many percent of the durations do not exceed. -/
theorem getPercentile_isRank (hne : r.latencies ≠ []) (h0 : 0 < p) (h100 : p ≤ 100) :
    IsRank r.latencies (rankOf p r.latencies.length) (r.getPercentile p) := by
  have hpos : 0 < r.latencies.length := List.length_pos_iff.mpr hne
  obtain ⟨h1, hle⟩ := rankOf_bounds h0 h100 hpos
  have hlen : (r.latencies.insertionSort (· ≤ ·)).length = r.latencies.length :=
    List.length_insertionSort _ _
  have hi : rankOf p r.latencies.length - 1 < (r.latencies.insertionSort (· ≤ ·)).length := by
    omega
  have hvalue : r.getPercentile p =
      (r.latencies.insertionSort (· ≤ ·))[rankOf p r.latencies.length - 1] := by
    unfold getPercentile
    rw [if_neg (by omega)]
    dsimp only
    rw [hlen, index_eq h0 h100 hpos, List.getElem?_eq_getElem hi]
    rfl
  have hrank := isRank_getElem (List.perm_insertionSort _ r.latencies)
    (List.pairwise_insertionSort _ _) hi
  rw [Nat.sub_add_cancel h1, ← hvalue] at hrank
  exact hrank

theorem getPercentile_mono (h0 : 0 < p) (hpq : p ≤ q) (h100 : q ≤ 100) :
    r.getPercentile p ≤ r.getPercentile q := by
  by_cases hne : r.latencies = []
  · simp [getPercentile, hne]
  · have hp := getPercentile_isRank hne h0 (hpq.trans h100)
    have hq := getPercentile_isRank hne (h0.trans_le hpq) h100
    exact hp.mono hq (rankOf_mono _ hpq)

/-- A registry with a window that has recorded some requests. -/
def recorded (windowSize : ℕ) (requests : List (ℚ × Bool)) : MetricsRegistry :=
  (new (some windowSize)).record requests

theorem recorded_latencies {windowSize : ℕ} (hwindow : 1 ≤ windowSize)
    (requests : List (ℚ × Bool)) :
    (recorded windowSize requests).latencies = lastDurations windowSize requests := by
  have hsize : (new (some windowSize)).windowSize = windowSize := by
    simp [new, Option.filter, Nat.one_le_iff_ne_zero.mp hwindow]
  have hlast := record_latencies (r := new (some windowSize)) rfl requests
  rw [hsize] at hlast
  exact hlast

/-- Percentiles are exact nearest ranks among the last `windowSize` durations, and so they grow
with `p`. -/
theorem percentiles_exact (windowSize : ℕ) (requests : List (ℚ × Bool))
    (hwindow : 1 ≤ windowSize) :
    (∀ p, 0 < p → p ≤ 100 →
      (requests = [] → (recorded windowSize requests).getPercentile p = 0) ∧
      (requests ≠ [] →
        (recorded windowSize requests).getPercentile p ∈ lastDurations windowSize requests ∧
        p / 100 * (lastDurations windowSize requests).length ≤
          (lastDurations windowSize requests).countP
            (· ≤ (recorded windowSize requests).getPercentile p) ∧
        ∀ v ∈ lastDurations windowSize requests,
          p / 100 * (lastDurations windowSize requests).length ≤
            (lastDurations windowSize requests).countP (· ≤ v) →
          (recorded windowSize requests).getPercentile p ≤ v)) ∧
    (∀ p q, 0 < p → p ≤ q → q ≤ 100 →
      (recorded windowSize requests).getPercentile p ≤
        (recorded windowSize requests).getPercentile q) ∧
    (recorded windowSize requests).getSnapshot.p50 ≤
      (recorded windowSize requests).getSnapshot.p95 ∧
    (recorded windowSize requests).getSnapshot.p95 ≤
      (recorded windowSize requests).getSnapshot.p99 := by
  have hkept := recorded_latencies hwindow requests
  refine ⟨fun p h0 h100 => ⟨?_, ?_⟩, fun p q => getPercentile_mono, ?_, ?_⟩
  · rintro rfl
    rfl
  · intro hne
    have hlatencies : (recorded windowSize requests).latencies ≠ [] := by
      have hlen : 0 < requests.length := List.length_pos_iff.mpr hne
      apply List.ne_nil_of_length_pos
      rw [hkept]
      show 0 < ((requests.map Prod.fst).drop (requests.length - windowSize)).length
      rw [List.length_drop, List.length_map]
      omega
    obtain ⟨hmem, hreached, hleast⟩ := getPercentile_isRank hlatencies h0 h100
    rw [hkept] at hmem hreached hleast
    exact ⟨hmem, rankOf_le_iff.mp hreached, fun v hv hcount =>
      hleast v hv (rankOf_le_iff.mpr hcount)⟩
  · exact getPercentile_mono (by norm_num) (by norm_num) (by norm_num)
  · exact getPercentile_mono (by norm_num) (by norm_num) (by norm_num)

/-- Four requests, one of them failed, through a window of three. -/
def fourRequests : List (ℚ × Bool) := [(40, false), (10, true), (30, false), (20, false)]

theorem median_of_last_three :
    (recorded 3 fourRequests).getPercentile 50 ∈ lastDurations 3 fourRequests := by
  have hne : fourRequests ≠ [] := List.cons_ne_nil _ _
  have hexact := percentiles_exact 3 fourRequests (by norm_num)
  exact ((hexact.1 50 (by norm_num) (by norm_num)).2 hne).1

example : (recorded 3 fourRequests).getSnapshot = ⟨4, 1, 1 / 4, 20, 30, 30, 3⟩ := by
  decide +kernel

end MetricsRegistry
end TimeOff
