import Mathlib.Data.List.Basic
import Mathlib.Data.List.Induction
import Mathlib.Tactic.Common

/-! Chains in which each element is accepted on the hash of the one before it. -/
namespace HashChain

variable {H E : Type} {accepted : H → E → Prop} {hash : E → H} {genesis : H}

/-- Every element is accepted on the hash of the element before, the first on `genesis`. -/
def Linked (accepted : H → E → Prop) (hash : E → H) (genesis : H) : List E → Prop
  | [] => True
  | e :: rest => accepted genesis e ∧ Linked accepted hash (hash e) rest

/-- The hash that the next element would be linked to. -/
def lastHash (hash : E → H) (genesis : H) (chain : List E) : H :=
  (chain.getLast?.map hash).getD genesis

@[simp] theorem lastHash_nil : lastHash hash genesis [] = genesis := rfl

@[simp] theorem lastHash_concat (chain : List E) (e : E) :
    lastHash hash genesis (chain ++ [e]) = hash e := by
  simp [lastHash]

theorem lastHash_cons (e : E) (chain : List E) :
    lastHash hash genesis (e :: chain) = lastHash hash (hash e) chain := by
  cases chain with
  | nil => rfl
  | cons f rest => rfl

theorem linked_append {before after : List E} :
    Linked accepted hash genesis (before ++ after) ↔
      Linked accepted hash genesis before ∧
        Linked accepted hash (lastHash hash genesis before) after := by
  induction before generalizing genesis with
  | nil => exact (iff_of_eq (true_and _)).symm
  | cons e before ih =>
    rw [List.cons_append, Linked, Linked, ih, lastHash_cons, and_assoc]

theorem linked_concat {chain : List E} {e : E} :
    Linked accepted hash genesis (chain ++ [e]) ↔
      Linked accepted hash genesis chain ∧ accepted (lastHash hash genesis chain) e := by
  rw [linked_append]
  simp [Linked]

/-- The last hash commits to the whole chain, if a hash commits to an element and to the hash
it is linked to, and no element has the hash that chains begin from. -/
theorem eq_of_lastHash
    (commits : ∀ p p' e e', accepted p e → accepted p' e' → hash e = hash e' → p = p' ∧ e = e')
    (fresh : ∀ p e, accepted p e → hash e ≠ genesis) {chain chain' : List E}
    (h : Linked accepted hash genesis chain) (h' : Linked accepted hash genesis chain')
    (hlast : lastHash hash genesis chain = lastHash hash genesis chain') : chain = chain' := by
  -- from the heads of both chains backwards: neither can end before the other
  induction chain using List.reverseRecOn generalizing chain' with
  | nil =>
    rcases chain'.eq_nil_or_concat' with rfl | ⟨chain', e', rfl⟩
    · rfl
    · rw [lastHash_nil, lastHash_concat] at hlast
      exact absurd hlast.symm (fresh _ _ (linked_concat.mp h').2)
  | append_singleton chain e ih =>
    rcases chain'.eq_nil_or_concat' with rfl | ⟨chain', e', rfl⟩
    · rw [lastHash_nil, lastHash_concat] at hlast
      exact absurd hlast (fresh _ _ (linked_concat.mp h).2)
    · rw [lastHash_concat, lastHash_concat] at hlast
      have hends := commits _ _ _ _ (linked_concat.mp h).2 (linked_concat.mp h').2 hlast
      rw [ih (linked_concat.mp h).1 (linked_concat.mp h').1 hends.1, hends.2]

/-- Another element with the same hash in place of the `i`th matters to its own link only. -/
theorem linked_set {chain : List E} (h : Linked accepted hash genesis chain) {i : ℕ}
    (hi : i < chain.length) {e : E} (hsame : hash e = hash chain[i]) :
    Linked accepted hash genesis (chain.set i e) ↔
      accepted (lastHash hash genesis (chain.take i)) e := by
  have hcut : chain = chain.take i ++ chain[i] :: chain.drop (i + 1) := by
    rw [List.getElem_cons_drop, List.take_append_drop]
  have hset : chain.set i e = chain.take i ++ e :: chain.drop (i + 1) :=
    List.set_eq_take_append_cons_drop.trans (if_pos hi)
  rw [hcut, linked_append] at h
  rw [hset, linked_append, Linked, hsame]
  constructor
  · exact fun hlinked => hlinked.2.1
  · exact fun haccepted => ⟨h.1, haccepted, h.2.2⟩

end HashChain
