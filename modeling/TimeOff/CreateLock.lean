import Mathlib.Data.Nat.Notation
import Mathlib.Logic.Function.Basic
import Mathlib.Logic.Relation

/-! The create locks: per lane a chain of promises. A call puts its own `next` at the tail of
the lane, waits for the one that was there, and resolves its `gate` when it is done. -/
namespace TimeOff

/-- Promises are named by the call that made them. -/
structure CreateLocks where
  /-- `_createLocks`: whose `next` the map holds. -/
  tail : String → Option ℕ
  lane : ℕ → Option String
  /-- Whose `next` the call awaits as `previous`. -/
  previous : ℕ → Option ℕ
  entered : ℕ → Bool
  /-- The `gate` of the call is resolved. -/
  released : ℕ → Bool
  /-- The `next` of the call is resolved. -/
  settled : ℕ → Bool

namespace CreateLocks

open Function Relation

def init : CreateLocks :=
  ⟨fun _ => none, fun _ => none, fun _ => none, fun _ => false, fun _ => false, fun _ => false⟩

def enter (l : CreateLocks) (i : ℕ) (lane : String) : CreateLocks :=
  { l with
    lane := update l.lane i (some lane)
    previous := update l.previous i (l.tail lane)
    tail := update l.tail lane (some i) }

/-- The promise that the call awaits is resolved. -/
def ready (l : CreateLocks) (i : ℕ) : Bool :=
  match l.previous i with
  | none => true
  | some j => l.settled j

def awaitPrevious (l : CreateLocks) (i : ℕ) : Option CreateLocks :=
  if l.ready i then some { l with entered := update l.entered i true } else none

def release (l : CreateLocks) (i : ℕ) (lane : String) : CreateLocks :=
  { l with
    released := update l.released i true
    tail := if l.tail lane = some i then update l.tail lane none else l.tail }

/-- `previous.then(() => gate)` resolves. -/
def settle (l : CreateLocks) (i : ℕ) : Option CreateLocks :=
  if l.ready i && l.released i then some { l with settled := update l.settled i true } else none

/-- The call is between the end of its wait and its release. -/
structure Holds (l : CreateLocks) (i : ℕ) (lane : String) : Prop where
  lane_eq : l.lane i = some lane
  entered : l.entered i = true
  unreleased : l.released i = false

instance (l : CreateLocks) (i : ℕ) (lane : String) : Decidable (l.Holds i lane) :=
  decidable_of_iff (l.lane i = some lane ∧ l.entered i = true ∧ l.released i = false)
    ⟨fun h => ⟨h.1, h.2.1, h.2.2⟩, fun h => ⟨h.1, h.2, h.3⟩⟩

/-- Following the awaited promises from `i` leads to `j`. -/
def Behind (l : CreateLocks) : ℕ → ℕ → Prop :=
  ReflTransGen fun i j => l.previous i = some j

structure Inv (l : CreateLocks) : Prop where
  fresh : ∀ i, l.lane i = none →
    l.previous i = none ∧ l.entered i = false ∧ l.released i = false ∧ l.settled i = false
  settled_ready : ∀ i, l.settled i = true → l.ready i = true ∧ l.released i = true
  entered_ready : ∀ i, l.entered i = true → l.ready i = true
  unreleased : ∀ i lane, l.lane i = some lane → l.released i = false →
    ∃ t, l.tail lane = some t ∧ l.Behind t i

theorem init_inv : init.Inv :=
  ⟨fun _ _ => ⟨rfl, rfl, rfl, rfl⟩, fun _ h => (nomatch h), fun _ h => (nomatch h),
    fun _ _ h => (nomatch h)⟩

variable {l : CreateLocks}

/-- A resolved `next` has only released calls behind it. -/
theorem Inv.released_of_settled (h : l.Inv) {i j : ℕ} (hij : l.Behind i j)
    (hi : l.settled i = true) : l.released j = true := by
  induction hij using ReflTransGen.head_induction_on with
  | refl => exact (h.settled_ready _ hi).2
  | head hstep _ ih =>
    refine ih ?_
    have hr := (h.settled_ready _ hi).1
    rwa [ready, hstep] at hr

theorem Inv.behind_eq (h : l.Inv) {i j : ℕ} (hij : l.Behind i j) (hi : l.ready i = true)
    (hj : l.released j = false) : i = j := by
  cases hij using ReflTransGen.head_induction_on with
  | refl => rfl
  | head hstep hrest =>
    rw [ready, hstep] at hi
    rw [h.released_of_settled hrest hi] at hj
    cases hj

/-- Mutual exclusion: a lane has one holder. -/
theorem Inv.exclusive (h : l.Inv) {i j : ℕ} {lane : String} (hi : l.Holds i lane)
    (hj : l.Holds j lane) : i = j := by
  obtain ⟨t, ht, hti⟩ := h.unreleased i lane hi.lane_eq hi.unreleased
  obtain ⟨t', ht', htj⟩ := h.unreleased j lane hj.lane_eq hj.unreleased
  rw [ht, Option.some.injEq] at ht'
  subst ht'
  have huniq : Relator.RightUnique fun i j => l.previous i = some j := by
    intro a b c hab hac
    rw [hab] at hac
    exact Option.some.inj hac
  rcases ReflTransGen.total_of_right_unique huniq hti htj with hij | hji
  · exact h.behind_eq hij (h.entered_ready i hi.entered) hj.unreleased
  · exact (h.behind_eq hji (h.entered_ready j hj.entered) hi.unreleased).symm

theorem Inv.enter (h : l.Inv) {i : ℕ} (lane : String) (hi : l.lane i = none) :
    (l.enter i lane).Inv := by
  obtain ⟨hprev, hent, hrel, hset⟩ := h.fresh i hi
  -- the gates of the others do not move
  have hready (j : ℕ) (hj : j ≠ i) : (l.enter i lane).ready j = l.ready j := by
    simp only [ready, CreateLocks.enter, update_of_ne hj]
  -- the chain behind another process does not go through the new one
  have hbehind {a b : ℕ} (hab : l.Behind a b) : (l.enter i lane).Behind a b := by
    refine ReflTransGen.mono ?_ a b hab
    intro x y hxy
    have hx : x ≠ i := by
      rintro rfl
      rw [hprev] at hxy
      cases hxy
    simpa only [CreateLocks.enter, update_of_ne hx] using hxy
  -- first the fresh processes, then the settled, the entered, and the tails
  refine ⟨fun j hj => ?_, fun j hj => ?_, fun j hj => ?_, fun j lane' hj hjr => ?_⟩
  · have hne : j ≠ i := by
      rintro rfl
      simp [CreateLocks.enter] at hj
    simp only [CreateLocks.enter, update_of_ne hne] at hj ⊢
    exact h.fresh j hj
  · have hne : j ≠ i := by
      rintro rfl
      exact absurd (hset.symm.trans hj) (by decide)
    rw [hready j hne]
    exact h.settled_ready j hj
  · have hne : j ≠ i := by
      rintro rfl
      exact absurd (hent.symm.trans hj) (by decide)
    rw [hready j hne]
    exact h.entered_ready j hj
  -- the new process is the tail of its lane
  · rcases eq_or_ne j i with rfl | hne
    · simp only [CreateLocks.enter, update_self, Option.some.injEq] at hj
      subst hj
      exact ⟨j, by simp [CreateLocks.enter], ReflTransGen.refl⟩
    · simp only [CreateLocks.enter, update_of_ne hne] at hj
      obtain ⟨t, ht, htj⟩ := h.unreleased j lane' hj hjr
      rcases eq_or_ne lane' lane with rfl | hlane
      -- in its lane the old tail is now behind the new one
      · refine ⟨i, by simp [CreateLocks.enter], ReflTransGen.head ?_ (hbehind htj)⟩
        simpa only [CreateLocks.enter, update_self] using ht
      · exact ⟨t, by simpa only [CreateLocks.enter, update_of_ne hlane] using ht, hbehind htj⟩

theorem Inv.awaitPrevious (h : l.Inv) {i : ℕ} {l' : CreateLocks}
    (hl : l.awaitPrevious i = some l') (hi : l.lane i ≠ none) : l'.Inv := by
  simp only [CreateLocks.awaitPrevious, Option.ite_none_right_eq_some, Option.some.injEq] at hl
  obtain ⟨hready, rfl⟩ := hl
  refine ⟨fun j hj => ?_, h.settled_ready, fun j hj => ?_, h.unreleased⟩
  · have hne : j ≠ i := fun hji => hi (hji ▸ hj)
    simpa only [update_of_ne hne] using h.fresh j hj
  · rcases eq_or_ne j i with rfl | hne
    · exact hready
    · simp only [update_of_ne hne] at hj
      exact h.entered_ready j hj

theorem Inv.release (h : l.Inv) {i : ℕ} {lane : String} (hi : l.Holds i lane) :
    (l.release i lane).Inv := by
  -- the processes that have not entered a lane are others than `i`
  refine ⟨fun j hj => ?_, fun j hj => ?_, h.entered_ready, fun j lane' hj hjr => ?_⟩
  · have hne : j ≠ i := by
      rintro rfl
      exact absurd (hi.lane_eq.symm.trans hj) (by simp)
    simpa only [CreateLocks.release, update_of_ne hne] using h.fresh j hj
  · refine ⟨(h.settled_ready j hj).1, ?_⟩
    rcases eq_or_ne j i with rfl | hne
    · simp [CreateLocks.release]
    · simpa only [CreateLocks.release, update_of_ne hne] using (h.settled_ready j hj).2
  · have hne : j ≠ i := by
      rintro rfl
      simp [CreateLocks.release] at hjr
    simp only [CreateLocks.release, update_of_ne hne] at hj hjr
    obtain ⟨t, ht, htj⟩ := h.unreleased j lane' hj hjr
    refine ⟨t, ?_, htj⟩
    simp only [CreateLocks.release]
    split
    · rename_i htail
      rcases eq_or_ne lane' lane with rfl | hlane
      · -- the tail is `i`, which has nobody unreleased behind it
        obtain rfl : t = i := Option.some.inj (ht.symm.trans htail)
        exact absurd (h.behind_eq htj (h.entered_ready t hi.entered) hjr).symm hne
      · rwa [update_of_ne hlane]
    · exact ht

theorem Inv.settle (h : l.Inv) {i : ℕ} {l' : CreateLocks} (hl : l.settle i = some l') :
    l'.Inv := by
  simp only [CreateLocks.settle, Bool.and_eq_true, Option.ite_none_right_eq_some,
    Option.some.injEq] at hl
  obtain ⟨⟨hready, hrel⟩, rfl⟩ := hl
  have hmono (j : ℕ) (hj : l.ready j = true) :
      CreateLocks.ready { l with settled := update l.settled i true } j = true := by
    unfold ready at hj ⊢
    dsimp only at hj ⊢
    cases hp : l.previous j with
    | none => rfl
    | some k =>
      rw [hp] at hj
      rcases eq_or_ne k i with rfl | hne
      · simp
      · simpa only [update_of_ne hne] using hj
  refine ⟨fun j hj => ?_, fun j hj => ?_, fun j hj => hmono j (h.entered_ready j hj),
    h.unreleased⟩
  · have hne : j ≠ i := by
      rintro rfl
      exact absurd ((h.fresh j hj).2.2.1.symm.trans hrel) (by decide)
    simpa only [update_of_ne hne] using h.fresh j hj
  · rcases eq_or_ne j i with rfl | hne
    · exact ⟨hmono j hready, hrel⟩
    · simp only [update_of_ne hne] at hj
      exact ⟨hmono j (h.settled_ready j hj).1, (h.settled_ready j hj).2⟩

end CreateLocks

end TimeOff
