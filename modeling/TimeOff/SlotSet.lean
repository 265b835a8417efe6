import Mathlib.Data.List.Basic
import Mathlib.Data.List.Count
import Mathlib.Tactic.Common

/-! Sets in the order of insertion, as slots that are emptied by a deletion and walked by their
places while elements come and go. -/
namespace SlotSet

variable {α : Type}

def size (slots : List (Option α)) : ℕ := slots.countP Option.isSome

/-- A walk that has come to the slot `pos` still has the element before it. -/
def Ahead (slots : List (Option α)) (pos : ℕ) (x : α) : Prop := some x ∈ slots.drop pos

variable {slots : List (Option α)} {pos : ℕ} {x y : α}

theorem ahead_zero : Ahead slots 0 x ↔ some x ∈ slots := Iff.rfl

theorem Ahead.mem (h : Ahead slots pos x) : some x ∈ slots := List.mem_of_mem_drop h

theorem Ahead.mono {pos' : ℕ} (hle : pos' ≤ pos) (h : Ahead slots pos x) :
    Ahead slots pos' x := by
  obtain ⟨d, rfl⟩ := Nat.exists_eq_add_of_le hle
  unfold Ahead at h ⊢
  rw [← List.drop_drop] at h
  exact List.mem_of_mem_drop h

theorem size_eq_zero : size slots = 0 ↔ ∀ x, some x ∉ slots := by
  unfold size
  rw [List.countP_eq_zero]
  constructor
  · intro h x hx
    exact h _ hx rfl
  · intro h y hy
    cases y with
    | none => exact Bool.false_ne_true
    | some x => exact absurd hy (h x)

/-- What a walk has before it, by the slot it has come to. -/
theorem ahead_iff {z : Option α} (hslot : slots[pos]? = some z) :
    Ahead slots pos x ↔ z = some x ∨ Ahead slots (pos + 1) x := by
  obtain ⟨hpos, hz⟩ := List.getElem?_eq_some_iff.mp hslot
  unfold Ahead
  rw [← List.getElem_cons_drop hpos, List.mem_cons, hz, eq_comm]

theorem not_ahead_of_end (hslot : slots[pos]? = none) : ¬ Ahead slots pos x := by
  have hpos : slots.length ≤ pos := List.getElem?_eq_none_iff.mp hslot
  unfold Ahead
  rw [List.drop_eq_nil_of_le hpos]
  exact List.not_mem_nil

variable [DecidableEq α]

instance (slots : List (Option α)) (pos : ℕ) (x : α) : Decidable (Ahead slots pos x) :=
  inferInstanceAs (Decidable (_ ∈ _))

def add (slots : List (Option α)) (x : α) : List (Option α) :=
  if some x ∈ slots then slots else slots ++ [some x]

/-- The slot of the element is emptied and the others keep their places. -/
def delete (slots : List (Option α)) (x : α) : List (Option α) :=
  slots.map fun y => if y = some x then none else y

/-- No element stands in two slots. -/
def Distinct (slots : List (Option α)) : Prop := ∀ x, slots.count (some x) ≤ 1

theorem ahead_delete : Ahead (delete slots y) pos x ↔ Ahead slots pos x ∧ x ≠ y := by
  unfold Ahead delete
  rw [← List.map_drop, List.mem_map]
  constructor
  · rintro ⟨z, hz, heq⟩
    by_cases hzy : z = some y
    · rw [if_pos hzy] at heq
      exact absurd heq.symm (Option.some_ne_none x)
    · rw [if_neg hzy] at heq
      subst heq
      exact ⟨hz, fun hxy => hzy (congrArg some hxy)⟩
  · intro h
    exact ⟨some x, h.1, if_neg fun hxy => h.2 (Option.some.inj hxy)⟩

theorem mem_add : some x ∈ add slots y ↔ some x ∈ slots ∨ x = y := by
  unfold add
  split
  · next hy =>
    constructor
    · exact Or.inl
    · rintro (hx | rfl)
      · exact hx
      · exact hy
  · rw [List.mem_append, List.mem_singleton, Option.some.injEq]

theorem Ahead.add (h : Ahead slots pos x) (y : α) : Ahead (add slots y) pos x := by
  unfold SlotSet.add
  split
  · exact h
  · unfold Ahead
    rw [List.drop_append]
    exact List.mem_append_left _ h

theorem ahead_add (hne : x ≠ y) : Ahead (add slots y) pos x ↔ Ahead slots pos x := by
  constructor
  · intro h
    unfold Ahead SlotSet.add at h
    split at h
    · exact h
    · rw [List.drop_append] at h
      rcases List.mem_append.mp h with hold | hnew
      · exact hold
      · exact absurd (Option.some.inj (List.mem_singleton.mp (List.mem_of_mem_drop hnew))) hne
  · exact fun h => h.add y

theorem length_delete : (delete slots y).length = slots.length := List.length_map _

theorem distinct_nil : Distinct ([] : List (Option α)) := fun _ => Nat.zero_le 1

theorem Distinct.add (h : Distinct slots) (y : α) : Distinct (add slots y) := by
  unfold SlotSet.add
  split
  · exact h
  · next hy =>
    intro x
    rw [List.count_append, List.count_singleton]
    by_cases hxy : x = y
    · have hnone : slots.count (some x) = 0 := List.count_eq_zero.mpr (hxy ▸ hy)
      rw [hnone]
      split <;> omega
    · have hne : ¬ (some y == some x) = true := by
        intro heq
        exact hxy (Option.some.inj (eq_of_beq heq)).symm
      rw [if_neg hne]
      exact h x

theorem Distinct.delete (h : Distinct slots) (y : α) : Distinct (delete slots y) := by
  intro x
  by_cases hxy : x = y
  · have hnone : some x ∉ SlotSet.delete slots y :=
      fun hx => (ahead_delete.mp (ahead_zero.mpr hx)).2 hxy
    rw [List.count_eq_zero.mpr hnone]
    omega
  · have hcount : (SlotSet.delete slots y).count (some x) = slots.count (some x) := by
      unfold SlotSet.delete List.count
      rw [List.countP_map]
      apply List.countP_congr
      intro z _
      by_cases hz : z = some y
      · simp [hz, Ne.symm hxy]
      · simp [hz]
    rw [hcount]
    exact h x

/-- An element that the walk has come to is not met again. -/
theorem Distinct.not_ahead (h : Distinct slots) (hslot : slots[pos]? = some (some x)) :
    ¬ Ahead slots (pos + 1) x := by
  obtain ⟨hpos, hx⟩ := List.getElem?_eq_some_iff.mp hslot
  intro hahead
  have htail : 0 < (slots.drop (pos + 1)).count (some x) := List.count_pos_iff.mpr hahead
  have hdrop : (slots.drop pos).count (some x) = (slots.drop (pos + 1)).count (some x) + 1 := by
    rw [← List.getElem_cons_drop hpos, hx, List.count_cons_self]
  have hwhole : (slots.drop pos).count (some x) ≤ slots.count (some x) :=
    (List.drop_sublist pos slots).count_le (some x)
  have hone : slots.count (some x) ≤ 1 := h x
  omega

end SlotSet
