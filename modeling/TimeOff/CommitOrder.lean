import TimeOff.CommitLog
import TimeOff.Isolation

/-! The order of the commits: as long as no two open transactions clash, what is settled is what
the committed calls leave when they run one after another. -/
namespace TimeOff

open Async

section Order

/-- The settled tables are those of the committed calls run in turn, and each of these has closed
a request of its own. -/
structure InOrder (cfg : Config) (start : Store) (L : Logged Call World) : Prop where
  separate : L.state.Separate
  serial : ∃ s, InTurn cfg start L.log s ∧ SameCells s L.state.settled
  once : (L.log.filterMap Call.decides).Nodup
  closed : ∀ id ∈ L.log.filterMap Call.decides, Closed L.state.settled id
  solvent : Solvent start → Solvent L.state.store ∧ Solvent L.state.settled

/-- What a call relies on. -/
def Relied (i : ℕ) (L L' : Logged Call World) : Prop :=
  Undisturbed i L.state L'.state ∧ L'.calls i = L.calls i

/-- A step of process `i` keeps the order and leaves the other processes undisturbed. -/
def OrderKept (cfg : Config) (start : Store) (i : ℕ) (L L' : Logged Call World) : Prop :=
  InOrder cfg start L' ∧ ∀ j, j ≠ i → Relied j L L'

/-- A step of process `i` from a state in order, isolated if it is a call of its transaction. -/
def OrderStep (cfg : Config) (start : Store) (i : ℕ) (o : FlatOp) (L : Logged Call World)
    (r : Except Err o.Resp) (L' : Logged Call World) : Prop :=
  InOrder cfg start L ∧ (∀ d, o = .tx (.db d) → L.state.Isolated i d) ∧ LogStep i o L r L'

variable {cfg : Config} {start : Store} {i : ℕ} {c : Call} {L L' L₁ L₂ L₃ : Logged Call World}
  {w : World} {d : DbOp}

theorem Relied.refl (i : ℕ) (L : Logged Call World) : Relied i L L := ⟨.refl i _, rfl⟩

theorem Relied.trans (h : Relied i L₁ L₂) (h' : Relied i L₂ L₃) : Relied i L₁ L₃ :=
  ⟨h.1.trans h'.1, h'.2.trans h.2⟩

/-- A step that settles nothing. -/
theorem InOrder.of_settled (h : InOrder cfg start L) (hseparate : w.Separate)
    (hsettled : ∀ x, w.settled.cell x = L.state.settled.cell x)
    (hsolvent : Solvent L.state.store → Solvent L.state.settled → Solvent w.store) :
    InOrder cfg start { L with state := w } := by
  obtain ⟨s, hturn, hs⟩ := h.serial
  refine ⟨hseparate, ⟨s, hturn, fun x => (hs x).trans (hsettled x).symm⟩, h.once,
    fun id hid => (h.closed id hid).congr hsettled, fun hstart => ?_⟩
  obtain ⟨hstore, hset⟩ := h.solvent hstart
  exact ⟨hsolvent hstore hset, hset.congr hsettled⟩

/-- A step that changes no cell, lane or open transaction. -/
theorem orderKept_of_same (h : InOrder cfg start L) (hjournal : w.journal = L.state.journal)
    (hcells : ∀ x, w.store.cell x = L.state.store.cell x) (hrows : Within w.store L.state.store)
    (i : ℕ) : OrderKept cfg start i L { L with state := w } ∧ Relied i L { L with state := w } := by
  have hrelied (j : ℕ) : Relied j L { L with state := w } :=
    ⟨undisturbed_of_same hjournal hcells hrows j, rfl⟩
  have hseparate : w.Separate := h.separate.of_sublist fun e he => hjournal ▸ he
  have hsettled (x : Item) : w.settled.cell x = L.state.settled.cell x := by
    rw [World.settled, hjournal]
    exact cell_undoAll_congr _ (hcells x)
  exact ⟨⟨h.of_settled hseparate hsettled fun hs _ => hs.congr hcells, fun j _ => hrelied j⟩,
    hrelied i⟩

theorem orderKept_aside (h : InOrder cfg start L) (hjournal : w.journal = L.state.journal)
    (hstore : w.store = L.state.store) (i : ℕ) :
    OrderKept cfg start i L { L with state := w } ∧ Relied i L { L with state := w } := by
  apply orderKept_of_same h hjournal
  · exact fun x => by rw [hstore]
  · rw [hstore]
    exact .refl _

/-- An isolated call of a transaction fails and does nothing, or is made. -/
theorem order_call {r : Except Err d.Resp} (h : OrderStep cfg start i (.tx (.db d)) L r L')
    (hsolvent : Solvent L.state.store → Solvent (L.state.db d).2.store) :
    OrderKept cfg start i L L' ∧ L'.calls = L.calls ∧
      ∀ v, r = .ok v → (L.state.db d).1 = .ok v ∧
        L' = { L with state := L.state.called i d } := by
  obtain ⟨hin, hisolated, x, w, hx, rfl⟩ := h
  have hisolated := hisolated d rfl
  have hquiet : commits (.tx (.db d)) x = false := rfl
  rw [hquiet]
  -- the driver fails and nothing is done, or the call is made and journaled
  rcases txDb_cases hx with ⟨code, message, rfl, rfl⟩ | ⟨rfl, rfl⟩
  · refine ⟨(orderKept_aside hin rfl rfl i).1, rfl, ?_⟩
    intro v hv
    cases hv
  · refine ⟨⟨?_, fun j hj => ⟨called_undisturbed hisolated hj, rfl⟩⟩, rfl, fun v hv => ⟨hv, rfl⟩⟩
    refine hin.of_settled (called_separate hin.separate hisolated) (fun x => ?_)
      fun hs _ => hsolvent hs
    exact congrArg (Store.cell · x) (called_settled L.state i d)

/-- A commit adds the call to the order. -/
theorem order_commit (h : InOrder cfg start L) (hcall : L.calls i = some c)
    (hadvance : Advance cfg L.state.settled (L.state.commit i).settled c) :
    OrderKept cfg start i L { L with
      state := L.state.commit i
      log := L.log ++ (L.calls i).toList } := by
  obtain ⟨s, hturn, hs⟩ := h.serial
  obtain ⟨s', halone, hs'⟩ := hadvance.in_turn hs
  rw [hcall]
  refine ⟨⟨commit_separate h.separate i, ⟨s', hturn.next halone, hs'⟩, ?_, ?_, fun hstart => ?_⟩,
    fun j hj => ⟨commit_undisturbed hj, rfl⟩⟩
  · -- a request that this call decides was closed by none before it
    change ((L.log ++ [c]).filterMap Call.decides).Nodup
    rw [List.filterMap_append]
    cases hid : c.decides with
    | none => simpa [hid] using h.once
    | some id =>
      rw [List.filterMap_cons_some hid, List.filterMap_nil]
      refine List.nodup_append.mpr ⟨h.once, List.nodup_singleton _, fun a ha b hb => ?_⟩
      rw [List.mem_singleton.mp hb]
      rintro rfl
      exact (hadvance.decides hid).1 (h.closed _ ha)
  · intro id hid
    obtain ⟨c', hc', hdecides⟩ := List.mem_filterMap.mp hid
    rcases List.mem_append.mp hc' with hold | hnew
    · exact hadvance.closed (h.closed id (List.mem_filterMap.mpr ⟨c', hold, hdecides⟩))
    · obtain rfl : c' = c := List.mem_singleton.mp hnew
      exact (hadvance.decides hdecides).2
  · obtain ⟨hstore, hsettled⟩ := h.solvent hstart
    exact ⟨hstore, hadvance.solvent hsettled⟩

/-- The tables after a rollback have each row as it was or as it is settled. -/
theorem rollback_solvent (hseparate : w.Separate) (hstore : Solvent w.store)
    (hsettled : Solvent w.settled) (i : ℕ) : Solvent (w.rollback i).store := by
  intro x cell hcell
  have horigin : (w.origin i).cell x = some cell := hcell
  -- what the transaction has touched is settled as it found it; the rest it leaves alone
  by_cases hx : w.Touches i x
  · exact hsettled x cell ((hseparate.settled_touched hx).trans horigin)
  · have hclear := hseparate.clear_own fun e he hwritten =>
      hx ⟨e, he, List.mem_append_right _ hwritten⟩
    exact hstore x cell ((cell_undoAll_clear hclear w.store).symm.trans horigin)

theorem order_rollback (h : InOrder cfg start L) (i : ℕ) :
    OrderKept cfg start i L { L with state := L.state.rollback i } := by
  refine ⟨h.of_settled (rollback_separate h.separate i) (rollback_settled h.separate i)
    fun hs hset => rollback_solvent h.separate hs hset i, fun j hj => ?_⟩
  exact ⟨rollback_undisturbed h.separate hj, rfl⟩

theorem order_crash (h : InOrder cfg start L) :
    InOrder cfg start { L with state := L.state.crash } :=
  h.of_settled ⟨fun _ he => (nomatch he), fun _ he => nomatch he⟩ (fun _ => rfl)
    fun _ hset => hset

end Order

section Progress

variable {cfg : Config} {start : Store} {i : ℕ} {c : Call} {L L' : Logged Call World} {d : DbOp}
  {xs xs' : List Item} {hs : List (Item × Option Cell × Option Cell)}

/-- How far the transaction of process `i`, which runs the call `c`, has come: it has written
nothing but `xs`, and it holds the items of `hs`, with what it found there and what is there. -/
structure Progress (i : ℕ) (c : Call) (xs : List Item)
    (hs : List (Item × Option Cell × Option Cell)) (L : Logged Call World) : Prop where
  call : L.calls i = some c
  writes : WritesOnly i xs L.state
  held : ∀ h ∈ hs, Held i h.1 h.2.1 h.2.2 L.state

theorem Progress.relied (h : Progress i c xs hs L) (hR : Relied i L L') : Progress i c xs hs L' :=
  ⟨hR.2.trans h.call, h.writes.undisturbed hR.1, fun t ht => (h.held t ht).undisturbed hR.1⟩

/-- A call that writes none of the items held. -/
theorem Progress.called (h : Progress i c xs hs L)
    (hfree : ∀ t ∈ hs, t.1 ∉ d.writes L.state.nextId)
    (hd : ∀ x ∈ d.writes L.state.nextId, x ∈ xs') (hxs : xs ⊆ xs') :
    Progress i c xs' hs { L with state := L.state.called i d } :=
  ⟨h.call, WritesOnly.called (fun e he x hx => hxs (h.writes e he x hx)) hd,
    fun t ht => (h.held t ht).called (hfree t ht)⟩

theorem Progress.read (h : Progress i c xs hs L) (hd : d.writes L.state.nextId = []) :
    Progress i c xs hs { L with state := L.state.called i d } := by
  apply h.called
  · exact fun _ _ => by rw [hd]; exact List.not_mem_nil
  · intro x hx
    rw [hd] at hx
    cases hx
  · exact List.Subset.refl _

theorem Progress.add (h : Progress i c xs hs L) {x : Item} {was now : Option Cell}
    (hx : Held i x was now L.state) : Progress i c xs ((x, was, now) :: hs) L :=
  ⟨h.call, h.writes, fun t ht => by
    rcases List.mem_cons.mp ht with rfl | ht
    · exact hx
    · exact h.held t ht⟩

theorem Progress.drop (h : Progress i c xs hs L) {hs' : List (Item × Option Cell × Option Cell)}
    (hsub : hs' ⊆ hs) : Progress i c xs hs' L :=
  ⟨h.call, h.writes, fun t ht => h.held t (hsub ht)⟩

end Progress

end TimeOff
