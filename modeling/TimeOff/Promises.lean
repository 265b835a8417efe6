import Mathlib.Data.List.Perm.Basic
import Mathlib.Data.List.Count
import Mathlib.Logic.Function.Basic
import Mathlib.Algebra.BigOperators.Group.List.Basic
import Mathlib.Tactic.Common

/-! Promises and the queue of jobs that settling them feeds. A reaction waits at its promise
until that is settled, then it is a job; a promise that is resolved with another one adopts
it, by a job of its own. -/
namespace Promises

open Function

/-- A callback, or a promise that settles as the one it has been resolved with. -/
inductive Reaction (P H : Type) where
  | handler (h : H)
  | forward (p : P)
deriving DecidableEq

inductive Job (P H O : Type) where
  | react (r : Reaction P H) (o : O)
  /-- Registers with `q` that `p` settles as it does. -/
  | adopt (p q : P)

/-- Something still to be done, waiting or queued. -/
inductive Pending (P H : Type) where
  | react (r : Reaction P H)
  | adopt (p q : P)
deriving DecidableEq

variable {P H O : Type}

def Job.pending : Job P H O → Pending P H
  | .react r _ => .react r
  | .adopt p q => .adopt p q

structure Heap (P H O : Type) where
  outcome : P → Option O
  waiting : List (P × Reaction P H)
  queue : List (Job P H O)

namespace Heap

def empty : Heap P H O := ⟨fun _ => none, [], []⟩

/-- `promise.then`: a reaction to a promise that is settled is a job at once. -/
def register (h : Heap P H O) (p : P) (r : Reaction P H) : Heap P H O :=
  match h.outcome p with
  | some o => { h with queue := h.queue ++ [.react r o] }
  | none => { h with waiting := h.waiting ++ [(p, r)] }

/-- Resolving a promise with a promise takes a job. -/
def adopt (h : Heap P H O) (p q : P) : Heap P H O := { h with queue := h.queue ++ [.adopt p q] }

/-- The job at a place of the queue, and the rest. -/
def take (h : Heap P H O) (n : ℕ) : Option (Job P H O × Heap P H O) :=
  (h.queue[n]?).map fun j => (j, { h with queue := h.queue.eraseIdx n })

def pending (h : Heap P H O) : List (Pending P H) :=
  h.waiting.map (fun w => .react w.2) ++ h.queue.map Job.pending

variable [DecidableEq P]

/-- A promise is settled once, and then its reactions are queued in their order. -/
def settle (h : Heap P H O) (p : P) (o : O) : Heap P H O :=
  match h.outcome p with
  | some _ => h
  | none =>
    { outcome := update h.outcome p (some o)
      waiting := h.waiting.filter fun w => !decide (w.1 = p)
      queue := h.queue ++ (h.waiting.filter fun w => decide (w.1 = p)).map fun w => .react w.2 o }

section Outcomes

variable {h : Heap P H O}

omit [DecidableEq P] in
@[simp] theorem outcome_register (p : P) (r : Reaction P H) :
    (h.register p r).outcome = h.outcome := by
  unfold register
  split <;> rfl

omit [DecidableEq P] in
@[simp] theorem outcome_adopt (p q : P) : (h.adopt p q).outcome = h.outcome := rfl

theorem outcome_settle {p : P} (hp : h.outcome p = none) (o : O) :
    (h.settle p o).outcome = update h.outcome p (some o) := by
  unfold settle
  rw [hp]

theorem settle_of_some {p : P} {o : O} (hp : h.outcome p = some o) (o' : O) :
    h.settle p o' = h := by
  unfold settle
  rw [hp]

theorem outcome_settle_of_ne {p q : P} (hne : q ≠ p) (o : O) :
    (h.settle p o).outcome q = h.outcome q := by
  unfold settle
  split
  · rfl
  · exact update_of_ne hne _ _

/-- What is settled stays as it is. -/
theorem outcome_settle_of_some {q : P} {o' : O} (hq : h.outcome q = some o') (p : P) (o : O) :
    (h.settle p o).outcome q = some o' := by
  by_cases heq : q = p
  · rw [← heq, settle_of_some hq]
    exact hq
  · rw [outcome_settle_of_ne heq]
    exact hq

theorem outcome_settle_self (p : P) (o : O) : ((h.settle p o).outcome p).isSome = true := by
  cases hp : h.outcome p with
  | none =>
    rw [outcome_settle hp, update_self]
    rfl
  | some o' =>
    rw [settle_of_some hp, hp]
    rfl

end Outcomes

section Tasks

variable {h : Heap P H O}

omit [DecidableEq P] in
theorem pending_register (p : P) (r : Reaction P H) :
    (h.register p r).pending.Perm (.react r :: h.pending) := by
  unfold register
  split
  · unfold pending
    dsimp only
    rw [List.map_append, ← List.append_assoc]
    exact List.perm_append_comm
  · unfold pending
    dsimp only
    rw [List.map_append, List.append_assoc]
    exact List.perm_middle

omit [DecidableEq P] in
theorem pending_adopt (p q : P) : (h.adopt p q).pending.Perm (.adopt p q :: h.pending) := by
  unfold adopt pending
  dsimp only
  rw [List.map_append, ← List.append_assoc]
  exact List.perm_append_comm

/-- Settling loses nothing that is pending and adds nothing. -/
theorem pending_settle (p : P) (o : O) : (h.settle p o).pending.Perm h.pending := by
  unfold settle
  split
  · exact List.Perm.refl _
  · have hsplit := List.filter_append_perm (fun w => decide (w.1 = p)) h.waiting
    have hwaiting := (hsplit.map fun w => (Pending.react w.2 : Pending P H)).append_right
      (h.queue.map Job.pending)
    rw [List.map_append, List.append_assoc] at hwaiting
    unfold pending
    dsimp only
    rw [List.map_append, List.map_map, ← List.append_assoc]
    exact List.perm_append_comm.trans hwaiting

omit [DecidableEq P] in
theorem pending_take {n : ℕ} {j : Job P H O} {h' : Heap P H O} (ht : h.take n = some (j, h')) :
    h.pending.Perm (j.pending :: h'.pending) := by
  obtain ⟨j', hj, heq⟩ := Option.map_eq_some_iff.mp ht
  cases heq
  have hn := (List.getElem?_eq_some_iff.mp hj).1
  have hget := (List.getElem?_eq_some_iff.mp hj).2
  have hperm : h.queue.Perm (j :: h.queue.eraseIdx n) := by
    rw [← hget]
    exact (List.getElem_cons_eraseIdx_perm hn).symm
  unfold pending
  dsimp only
  apply ((hperm.map Job.pending).append_left _).trans
  exact List.perm_middle

omit [DecidableEq P] in
theorem outcome_take {n : ℕ} {j : Job P H O} {h' : Heap P H O} (ht : h.take n = some (j, h')) :
    h'.outcome = h.outcome := by
  obtain ⟨j', _, heq⟩ := Option.map_eq_some_iff.mp ht
  cases heq
  rfl

end Tasks

/-- Every reaction waits where `W` allows it, or is queued with the outcome of such a promise;
`A` allows the promises that adopt one another. -/
structure Sound (W : P → Reaction P H → Prop) (A : P → P → Prop) (h : Heap P H O) : Prop where
  waiting : ∀ p r, (p, r) ∈ h.waiting → W p r ∧ h.outcome p = none
  react : ∀ r o, .react r o ∈ h.queue → ∃ p, W p r ∧ h.outcome p = some o
  adopt : ∀ p q, .adopt p q ∈ h.queue → A p q

section Sound

variable {h : Heap P H O} {W W' : P → Reaction P H → Prop} {A A' : P → P → Prop}

omit [DecidableEq P] in
theorem sound_empty : (empty : Heap P H O).Sound W A :=
  ⟨fun _ _ hmem => (nomatch hmem), fun _ _ hmem => (nomatch hmem), fun _ _ hmem => (nomatch hmem)⟩

omit [DecidableEq P] in
theorem Sound.mono (hs : h.Sound W A) (hW : ∀ p r, W p r → W' p r)
    (hA : ∀ p q, A p q → A' p q) : h.Sound W' A' where
  waiting p r hmem := ⟨hW p r (hs.waiting p r hmem).1, (hs.waiting p r hmem).2⟩
  react r o hmem := by
    obtain ⟨p, hp, ho⟩ := hs.react r o hmem
    exact ⟨p, hW p r hp, ho⟩
  adopt p q hmem := hA p q (hs.adopt p q hmem)

omit [DecidableEq P] in
theorem Sound.register (hs : h.Sound W A) {p : P} {r : Reaction P H} (hr : W p r) :
    (h.register p r).Sound W A := by
  unfold Heap.register
  split
  · next o ho =>
    refine ⟨hs.waiting, ?_, ?_⟩
    · intro r' o' hmem
      rcases List.mem_append.mp hmem with hmem | hmem
      · exact hs.react r' o' hmem
      · cases List.mem_singleton.mp hmem
        exact ⟨p, hr, ho⟩
    · intro p' q' hmem
      rcases List.mem_append.mp hmem with hmem | hmem
      · exact hs.adopt p' q' hmem
      · cases List.mem_singleton.mp hmem
  · next ho =>
    refine ⟨?_, hs.react, hs.adopt⟩
    intro p' r' hmem
    rcases List.mem_append.mp hmem with hmem | hmem
    · exact hs.waiting p' r' hmem
    · cases List.mem_singleton.mp hmem
      exact ⟨hr, ho⟩

omit [DecidableEq P] in
theorem Sound.adopt_queued (hs : h.Sound W A) {p q : P} (ha : A p q) :
    (h.adopt p q).Sound W A := by
  refine ⟨hs.waiting, ?_, ?_⟩
  · intro r o hmem
    rcases List.mem_append.mp hmem with hmem | hmem
    · exact hs.react r o hmem
    · cases List.mem_singleton.mp hmem
  · intro p' q' hmem
    rcases List.mem_append.mp hmem with hmem | hmem
    · exact hs.adopt p' q' hmem
    · cases List.mem_singleton.mp hmem
      exact ha

theorem Sound.settle (hs : h.Sound W A) (p : P) (o : O) : (h.settle p o).Sound W A := by
  cases hp : h.outcome p with
  | some o' =>
    rw [settle_of_some hp]
    exact hs
  | none =>
    have hkeep (q : P) (o' : O) (hq : h.outcome q = some o') :
        (h.settle p o).outcome q = some o' := outcome_settle_of_some hq p o
    have hself : (h.settle p o).outcome p = some o := by
      rw [outcome_settle hp, update_self]
    have hwaiting : (h.settle p o).waiting = h.waiting.filter fun w => !decide (w.1 = p) := by
      unfold Heap.settle
      rw [hp]
    have hqueue : (h.settle p o).queue = h.queue ++
        (h.waiting.filter fun w => decide (w.1 = p)).map fun w => .react w.2 o := by
      unfold Heap.settle
      rw [hp]
    refine ⟨?_, ?_, ?_⟩
    · intro q r hmem
      rw [hwaiting] at hmem
      obtain ⟨hmem, hne⟩ := List.mem_filter.mp hmem
      have hqp : q ≠ p := by simpa using hne
      rw [outcome_settle_of_ne hqp]
      exact hs.waiting q r hmem
    · intro r o' hmem
      rw [hqueue] at hmem
      rcases List.mem_append.mp hmem with hmem | hmem
      · obtain ⟨q, hq, ho⟩ := hs.react r o' hmem
        exact ⟨q, hq, hkeep q o' ho⟩
      -- a reaction that waited for `p`
      · obtain ⟨⟨q, r'⟩, hfilter, heq⟩ := List.mem_map.mp hmem
        obtain ⟨hwait, hqp⟩ := List.mem_filter.mp hfilter
        cases heq
        obtain rfl : q = p := of_decide_eq_true hqp
        exact ⟨q, (hs.waiting q r' hwait).1, hself⟩
    · intro q q' hmem
      rw [hqueue] at hmem
      rcases List.mem_append.mp hmem with hmem | hmem
      · exact hs.adopt q q' hmem
      · obtain ⟨w, _, heq⟩ := List.mem_map.mp hmem
        cases heq

omit [DecidableEq P] in
theorem Sound.take (hs : h.Sound W A) {n : ℕ} {j : Job P H O} {h' : Heap P H O}
    (ht : h.take n = some (j, h')) : h'.Sound W A := by
  obtain ⟨j', _, heq⟩ := Option.map_eq_some_iff.mp ht
  cases heq
  have hsub {j' : Job P H O} (hmem : j' ∈ h.queue.eraseIdx n) : j' ∈ h.queue :=
    (List.eraseIdx_sublist h.queue n).subset hmem
  exact ⟨hs.waiting, fun r o hmem => hs.react r o (hsub hmem),
    fun p q hmem => hs.adopt p q (hsub hmem)⟩

omit [DecidableEq P] in
theorem mem_queue_of_take {n : ℕ} {j : Job P H O} {h' : Heap P H O}
    (ht : h.take n = some (j, h')) : j ∈ h.queue := by
  obtain ⟨j', hj, heq⟩ := Option.map_eq_some_iff.mp ht
  cases heq
  exact List.mem_of_getElem? hj

end Sound

end Heap

end Promises
