import Mathlib.Algebra.Order.Group.Defs
import Mathlib.Algebra.Order.Group.Basic
import Mathlib.Algebra.Order.Sub.Basic
import Mathlib.Data.List.Induction
import Mathlib.Tactic.Common

/-! Admission with a limit for every window of one length. If each arrival is let in exactly
when fewer than the limit were let in during the window that ends with it, then no window of
that length holds more, wherever it begins, and a refusal tells when the next place is free. -/
namespace SlidingWindow

section Log

variable {R : Type} {log log' : List (R × Bool)}

/-- The arrivals that were let in. -/
def admitted (log : List (R × Bool)) : List R := (log.filter Prod.snd).map Prod.fst

theorem admitted_append (log log' : List (R × Bool)) :
    admitted (log ++ log') = admitted log ++ admitted log' := by
  unfold admitted
  rw [List.filter_append, List.map_append]

theorem admitted_singleton (t : R) (ok : Bool) :
    admitted [(t, ok)] = if ok then [t] else [] := by
  cases ok <;> rfl

theorem admitted_eq_nil (h : ∀ p ∈ log, p.2 = false) : admitted log = [] := by
  have hnone : log.filter Prod.snd = [] := by
    apply List.filter_eq_nil_iff.mpr
    intro p hp
    simp [h p hp]
  unfold admitted
  rw [hnone, List.map_nil]

/-- A stricter condition that one element fails holds less often. -/
theorem countP_lt {p q : R → Bool} {ts : List R} {a : R} (h : ∀ x ∈ ts, p x → q x)
    (ha : a ∈ ts) (hq : q a = true) (hp : p a = false) : ts.countP p < ts.countP q := by
  obtain ⟨front, back, rfl⟩ := List.append_of_mem ha
  have hfront : front.countP p ≤ front.countP q :=
    List.countP_mono_left fun x hx => h x (List.mem_append_left _ hx)
  have hback : back.countP p ≤ back.countP q :=
    List.countP_mono_left fun x hx => h x (by simp [hx])
  rw [List.countP_append, List.countP_append, List.countP_cons_of_neg (by simp [hp]),
    List.countP_cons_of_pos hq]
  omega

end Log

variable {R : Type} [LinearOrder R] {limit : ℕ} {w t u oldest : R} {ok : Bool}
  {log before mid after : List (R × Bool)}

def Ordered (log : List (R × Bool)) : Prop := log.Pairwise fun p q => p.1 ≤ q.1

theorem le_of_mem_admitted (hlog : Ordered (before ++ (t, ok) :: after)) :
    ∀ a ∈ admitted before, a ≤ t := by
  intro a ha
  obtain ⟨p, hp, rfl⟩ := List.mem_map.mp ha
  have hcross := (List.pairwise_append.mp hlog).2.2
  exact hcross p (List.mem_filter.mp hp).1 (t, ok) List.mem_cons_self

variable [AddCommGroup R]

/-- In the half-open window of length `w` that ends with `t`. -/
def inWindow (w t a : R) : Bool := t - w < a ∧ a ≤ t

/-- An arrival is let in exactly if fewer than `limit` were in the window that ends with it. -/
def Exact (limit : ℕ) (w : R) (log : List (R × Bool)) : Prop :=
  ∀ before t ok after, log = before ++ (t, ok) :: after →
    (ok = true ↔ (admitted before).countP (inWindow w t) < limit)

theorem inWindow_iff {a : R} : inWindow w t a = true ↔ t - w < a ∧ a ≤ t := decide_eq_true_iff

theorem Exact.of_append (h : Exact limit w (log ++ after)) : Exact limit w log := by
  intro before t ok rest heq
  apply h before t ok (rest ++ after)
  rw [heq, List.append_assoc, List.cons_append]

theorem Exact.concat (h : Exact limit w log)
    (hlast : ok = true ↔ (admitted log).countP (inWindow w t) < limit) :
    Exact limit w (log ++ [(t, ok)]) := by
  intro before u ok' after heq
  rcases List.eq_nil_or_concat after with rfl | ⟨rest, last, rfl⟩
  · obtain ⟨rfl, hsame⟩ := List.append_inj' heq rfl
    cases hsame
    exact hlast
  · rw [List.concat_eq_append, ← List.cons_append, ← List.append_assoc] at heq
    obtain ⟨hfront, _⟩ := List.append_inj' heq rfl
    exact h before u ok' rest hfront

/-- Of times that are all less than `w` apart, at most `limit` were let in. -/
theorem Exact.countP_le (h : Exact limit w log) (hlog : Ordered log) {P : R → Bool}
    (hP : ∀ a b, P a → P b → b - w < a) : (admitted log).countP P ≤ limit := by
  induction log using List.reverseRecOn with
  | nil => exact Nat.zero_le limit
  | append_singleton log last ih =>
    obtain ⟨t, ok⟩ := last
    have hbefore : (admitted log).countP P ≤ limit :=
      ih h.of_append (List.pairwise_append.mp hlog).1
    rw [admitted_append, admitted_singleton, List.countP_append]
    by_cases hin : ok = true ∧ P t = true
    · obtain ⟨rfl, ht⟩ := hin
      have hroom : (admitted log).countP (inWindow w t) < limit := (h log t true [] rfl).mp rfl
      -- what was let in before and is in `P` is in the window that ends with `t`
      have hsub : (admitted log).countP P ≤ (admitted log).countP (inWindow w t) := by
        apply List.countP_mono_left
        intro a ha hPa
        exact inWindow_iff.mpr ⟨hP a t hPa ht, le_of_mem_admitted hlog a ha⟩
      rw [if_pos rfl, List.countP_singleton, if_pos ht]
      omega
    · have hnone : (if ok = true then [t] else []).countP P = 0 := by
        split
        · next hok => simpa [hok] using hin
        · rfl
      omega

variable [IsOrderedAddMonoid R]

theorem Exact.countP_inWindow_le (h : Exact limit w log) (hlog : Ordered log) (t : R) :
    (admitted log).countP (inWindow w t) ≤ limit := by
  apply h.countP_le hlog
  intro a b ha hb
  have hlo : t - w < a := (inWindow_iff.mp ha).1
  have hhi : b - w ≤ t - w := sub_le_sub_right (inWindow_iff.mp hb).2 w
  exact hhi.trans_lt hlo

/-- The window of a refusal is still full while its oldest arrival is in it. -/
theorem Exact.refused_before
    (h : Exact limit w (before ++ (t, false) :: (mid ++ (u, ok) :: after)))
    (hlog : Ordered (before ++ (t, false) :: (mid ++ (u, ok) :: after)))
    (hmin : ∀ a ∈ admitted before, inWindow w t a = true → oldest ≤ a)
    (hu : u < oldest + w) : ok = false := by
  have hrefused : limit ≤ (admitted before).countP (inWindow w t) := by
    simpa using h before t false _ rfl
  have htu : t ≤ u := by
    have htail := (List.pairwise_cons.mp (List.pairwise_append.mp hlog).2.1).1
    exact htail (u, ok) (by simp)
  have hstill : (admitted before).countP (inWindow w t) ≤
      (admitted before).countP (inWindow w u) := by
    apply List.countP_mono_left
    intro a ha hin
    have holdest : oldest ≤ a := hmin a ha hin
    have hlo : u - w < a := (sub_lt_iff_lt_add.mpr hu).trans_le holdest
    exact inWindow_iff.mpr ⟨hlo, (inWindow_iff.mp hin).2.trans htu⟩
  have hroom := h (before ++ (t, false) :: mid) u ok after (by simp)
  rw [admitted_append, List.countP_append] at hroom
  apply Bool.eq_false_iff.mpr
  intro hok
  have hlt := hroom.mp hok
  omega

/-- After a refusal the next place is free when the oldest arrival of its window is `w` old: the
arrivals before then are refused and the first one after is let in. -/
theorem Exact.after_refusal
    (h : Exact limit w (before ++ (t, false) :: (mid ++ (u, ok) :: after)))
    (hlog : Ordered (before ++ (t, false) :: (mid ++ (u, ok) :: after)))
    (hmem : oldest ∈ admitted before) (hin : inWindow w t oldest = true)
    (hmin : ∀ a ∈ admitted before, inWindow w t a = true → oldest ≤ a)
    (hmid : ∀ p ∈ mid, p.1 < oldest + w) : ok = true ↔ oldest + w ≤ u := by
  constructor
  · intro hok
    by_contra hu
    have hrefused : ok = false := h.refused_before hlog hmin (not_le.mp hu)
    rw [hok] at hrefused
    cases hrefused
  · intro hu
    have htu : t ≤ u := by
      have htail := (List.pairwise_cons.mp (List.pairwise_append.mp hlog).2.1).1
      exact htail (u, ok) (by simp)
    have hnone : ∀ p ∈ (t, false) :: mid, p.2 = false := by
      intro p hp
      rcases List.mem_cons.mp hp with rfl | hp
      · rfl
      · obtain ⟨front, back, rfl⟩ := List.append_of_mem hp
        obtain ⟨v, ok'⟩ := p
        rw [List.append_assoc, List.cons_append] at h hlog
        exact h.refused_before hlog hmin (hmid (v, ok') hp)
    apply (h (before ++ (t, false) :: mid) u ok after (by simp)).mpr
    rw [admitted_append, admitted_eq_nil hnone, List.append_nil]
    have hfull : (admitted before).countP (inWindow w t) ≤ limit :=
      h.of_append.countP_inWindow_le (List.pairwise_append.mp hlog).1 t
    -- the oldest arrival has left the window, and none has entered it
    have hleft : (admitted before).countP (inWindow w u) <
        (admitted before).countP (inWindow w t) := by
      apply countP_lt _ hmem hin
      · apply Bool.eq_false_iff.mpr
        intro holdest
        have hlt : u - w < oldest := (inWindow_iff.mp holdest).1
        exact absurd hu (not_le.mpr (sub_lt_iff_lt_add.mp hlt))
      · intro a ha hau
        have hlo : t - w ≤ u - w := sub_le_sub_right htu w
        exact inWindow_iff.mpr ⟨hlo.trans_lt (inWindow_iff.mp hau).1, le_of_mem_admitted hlog a ha⟩
    omega

end SlidingWindow
