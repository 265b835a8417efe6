import Mathlib.Algebra.Order.Group.Defs
import Mathlib.Algebra.Order.Monoid.Unbundled.Basic
import Mathlib.Data.List.Nodup
import Mathlib.Data.List.Perm.Basic
import Mathlib.Logic.Function.Basic

/-! Two facts about applying a list of entries one after the other. Entries that each change
the value of their own key act key by key, so their order matters for equal keys only; and a
level that an entry can raise but not lower is settled after one pass. -/

namespace Keyed

variable {κ α τ : Type} [DecidableEq κ] (f : κ → τ → α → α)

def put (m : κ → α) (e : κ × τ) : κ → α :=
  Function.update m e.1 (f e.1 e.2 (m e.1))

variable {f} {m : κ → α} {es es' : List (κ × τ)} {k : κ}

/-- The value of a key is made by the entries of that key. -/
theorem foldl_put_at :
    es.foldl (put f) m k =
      ((es.filter fun e => e.1 = k).map Prod.snd).foldl (fun a t => f k t a) (m k) := by
  induction es generalizing m with
  | nil => rfl
  | cons e es ih =>
    rw [List.foldl_cons, ih]
    by_cases he : e.1 = k
    · have hput : put f m e k = f k e.2 (m k) := by
        subst he
        exact Function.update_self _ _ _
      rw [List.filter_cons_of_pos (by simpa using he), hput]
      rfl
    · have hput : put f m e k = m k := Function.update_of_ne (Ne.symm he) _ _
      rw [List.filter_cons_of_neg (by simpa using he), hput]

theorem put_comm {e e' : κ × τ} (h : e.1 ≠ e'.1) :
    put f (put f m e) e' = put f (put f m e') e := by
  have hleft : put f m e e'.1 = m e'.1 := Function.update_of_ne h.symm _ _
  have hright : put f m e' e.1 = m e.1 := Function.update_of_ne h _ _
  funext k
  unfold put at hleft hright ⊢
  rw [hleft, hright, Function.update_comm h]

/-- Entries of distinct keys may come in any order. -/
theorem foldl_put_perm (hkeys : (es.map Prod.fst).Nodup) (h : es.Perm es') :
    es.foldl (put f) m = es'.foldl (put f) m := by
  refine h.foldl_eq' (fun e he e' he' z => ?_) m
  by_cases hkey : e.1 = e'.1
  · obtain rfl : e = e' := List.inj_on_of_nodup_map hkeys he he' hkey
    rfl
  · exact put_comm hkey

end Keyed

namespace Ratchet

variable {R β : Type} [AddCommGroup R] [LinearOrder R] {tol : R} {T t : R} {ts : List R}
  {g : R → R → β} {s : R × β}

/-- A value within the tolerance leaves the level, a greater one becomes it. -/
def raise (tol T t : R) : R := if T + tol < t then t else T

/-- The level with a mark that the last value leaves on it. -/
def mark (tol : R) (g : R → R → β) (s : R × β) (t : R) : R × β :=
  (raise tol s.1 t, g (raise tol s.1 t) t)

theorem raise_of_le (h : t ≤ T + tol) : raise tol T t = T := if_neg (not_lt.mpr h)

theorem foldl_raise_of_settled (h : ∀ t ∈ ts, t ≤ T + tol) : ts.foldl (raise tol) T = T := by
  induction ts with
  | nil => rfl
  | cons t ts ih =>
    rw [List.foldl_cons, raise_of_le (h t List.mem_cons_self)]
    exact ih fun u hu => h u (List.mem_cons_of_mem t hu)

theorem foldl_mark_fst : (ts.foldl (mark tol g) s).1 = ts.foldl (raise tol) s.1 := by
  induction ts generalizing s with
  | nil => rfl
  | cons t ts ih => exact ih

variable [IsOrderedAddMonoid R] (htol : 0 ≤ tol)
include htol

theorem le_raise : T ≤ raise tol T t := by
  unfold raise
  split
  · next h => exact (le_add_of_nonneg_right htol).trans h.le
  · exact le_rfl

theorem settled_raise : t ≤ raise tol T t + tol := by
  unfold raise
  split
  · exact le_add_of_nonneg_right htol
  · next h => exact not_lt.mp h

theorem le_foldl_raise : T ≤ ts.foldl (raise tol) T := by
  induction ts generalizing T with
  | nil => exact le_rfl
  | cons t ts ih => exact (le_raise htol).trans ih

/-- No value of the pass is above the level it leaves, up to the tolerance. -/
theorem settled_foldl : ∀ t ∈ ts, t ≤ ts.foldl (raise tol) T + tol := by
  induction ts generalizing T with
  | nil => exact fun t ht => absurd ht List.not_mem_nil
  | cons u ts ih =>
    intro t ht
    rcases List.mem_cons.mp ht with rfl | ht
    · have hlevel : raise tol T t ≤ ts.foldl (raise tol) (raise tol T t) := le_foldl_raise htol
      exact (settled_raise htol).trans (add_le_add_left hlevel tol)
    · exact ih t ht

/-- A second pass over the same values changes nothing. -/
theorem foldl_mark_twice :
    ts.foldl (mark tol g) (ts.foldl (mark tol g) s) = ts.foldl (mark tol g) s := by
  rcases List.eq_nil_or_concat ts with rfl | ⟨front, last, rfl⟩
  · rfl
  · -- the mark is a function of the final level and the last value
    have hmark (u : R × β) : (front.concat last).foldl (mark tol g) u =
        ((front.concat last).foldl (raise tol) u.1,
          g ((front.concat last).foldl (raise tol) u.1) last) := by
      rw [List.concat_eq_append, List.foldl_append, List.foldl_append, ← foldl_mark_fst (g := g)]
      rfl
    have hsettled : (front.concat last).foldl (raise tol)
        ((front.concat last).foldl (mark tol g) s).1 =
          ((front.concat last).foldl (raise tol) s.1) := by
      rw [foldl_mark_fst]
      exact foldl_raise_of_settled (settled_foldl htol)
    rw [hmark, hsettled, hmark s]

end Ratchet
