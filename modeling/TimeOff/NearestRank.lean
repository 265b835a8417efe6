import Mathlib.Data.List.Sort
import Mathlib.Order.Defs.LinearOrder

/-! Nearest ranks: the least element of a list that so many elements do not exceed is found at
its place in the sorted list. -/
namespace NearestRank

variable {α : Type} [LinearOrder α]

/-- The least element that at least `k` elements do not exceed. -/
structure IsRank (xs : List α) (k : ℕ) (v : α) : Prop where
  mem : v ∈ xs
  reached : k ≤ xs.countP (· ≤ v)
  least : ∀ u ∈ xs, k ≤ xs.countP (· ≤ u) → v ≤ u

variable {xs sorted : List α} {k k' i : ℕ} {v v' : α}

theorem IsRank.mono (h : IsRank xs k v) (h' : IsRank xs k' v') (hk : k ≤ k') : v ≤ v' :=
  h.least v' h'.mem (hk.trans h'.reached)

theorem le_countP_getElem (hs : sorted.Pairwise (· ≤ ·)) (hi : i < sorted.length) :
    i + 1 ≤ sorted.countP (· ≤ sorted[i]) := by
  have hfront : (sorted.take (i + 1)).countP (· ≤ sorted[i]) = i + 1 := by
    have hlen : (sorted.take (i + 1)).length = i + 1 := by
      rw [List.length_take]
      omega
    refine (List.countP_eq_length.mpr fun a ha => ?_).trans hlen
    obtain ⟨j, hj, rfl⟩ := List.mem_take_iff_getElem.mp ha
    have hle : sorted[j] ≤ sorted[i] := by
      rcases Nat.lt_or_ge j i with hlt | hge
      · exact List.pairwise_iff_getElem.mp hs j i (by omega) hi hlt
      · obtain rfl : j = i := by omega
        exact le_rfl
    exact decide_eq_true hle
  have hsub : (sorted.take (i + 1)).countP (· ≤ sorted[i]) ≤ sorted.countP (· ≤ sorted[i]) :=
    (List.take_sublist _ _).countP_le
  omega

theorem countP_le_of_lt_getElem (hs : sorted.Pairwise (· ≤ ·)) (hi : i < sorted.length) {u : α}
    (hu : u < sorted[i]) : sorted.countP (· ≤ u) ≤ i := by
  have hback : (sorted.drop i).countP (· ≤ u) = 0 := by
    apply List.countP_eq_zero.mpr
    intro a ha
    obtain ⟨j, hj, rfl⟩ := List.mem_drop_iff_getElem.mp ha
    have hle : sorted[i] ≤ sorted[i + j] := by
      rcases Nat.eq_zero_or_pos j with rfl | hpos
      · exact le_rfl
      · exact List.pairwise_iff_getElem.mp hs i (i + j) hi (by omega) (by omega)
    simpa using hu.trans_le hle
  calc sorted.countP (· ≤ u) = (sorted.take i ++ sorted.drop i).countP (· ≤ u) := by
        rw [List.take_append_drop]
    _ = (sorted.take i).countP (· ≤ u) := by rw [List.countP_append, hback, Nat.add_zero]
    _ ≤ (sorted.take i).length := List.countP_le_length
    _ ≤ i := List.length_take_le i sorted

/-- The element of rank `i + 1` is at place `i` of the sorted list. -/
theorem isRank_getElem (hperm : sorted.Perm xs) (hs : sorted.Pairwise (· ≤ ·))
    (hi : i < sorted.length) : IsRank xs (i + 1) sorted[i] := by
  constructor
  · exact hperm.mem_iff.mp (List.getElem_mem hi)
  · rw [← hperm.countP_eq]
    exact le_countP_getElem hs hi
  · intro u _ hu
    by_contra hlt
    rw [← hperm.countP_eq] at hu
    have hle := countP_le_of_lt_getElem hs hi (not_le.mp hlt)
    omega

end NearestRank
