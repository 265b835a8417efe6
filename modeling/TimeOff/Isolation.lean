import TimeOff.RowCells

/-! When two open transactions clash, and what one of them can rely on as long as none does: the
rows it has touched, and the tables as they were before it. -/
namespace TimeOff

open Async

section Clash

def Entry.touches (e : Entry) : List Item := e.reads ++ e.writes

/-- One of the calls writes what the other one reads or writes. -/
def Entry.Clash (e e' : Entry) : Prop :=
  (∃ x ∈ e.writes, x ∈ e'.touches) ∨ ∃ x ∈ e'.writes, x ∈ e.touches

instance (e e' : Entry) : Decidable (e.Clash e') := inferInstanceAs (Decidable (_ ∨ _))

/-- The call that process `i` is about to make clashes with none of another open transaction. -/
def World.Isolated (w : World) (i : ℕ) (d : DbOp) : Prop :=
  ∀ e ∈ w.journal, e.pid ≠ i → ¬ (entryOf i d w).Clash e

instance (w : World) (i : ℕ) (d : DbOp) : Decidable (w.Isolated i d) :=
  inferInstanceAs (Decidable (∀ e ∈ w.journal, e.pid ≠ i → ¬ (entryOf i d w).Clash e))

/-- The tables without what the open transactions wrote. -/
def World.settled (w : World) : Store := undoAll w.journal w.store

/-- The tables without what the transaction of process `i` wrote. -/
def World.origin (w : World) (i : ℕ) : Store := undoAll (w.entriesOf i) w.store

/-- The open transaction of process `i` has read or written the item. -/
def World.Touches (w : World) (i : ℕ) (x : Item) : Prop := ∃ e ∈ w.entriesOf i, x ∈ e.touches

/-- The open transactions do not clash, and undo no more than they wrote. -/
structure World.Separate (w : World) : Prop where
  apart : ∀ e ∈ w.journal, ∀ e' ∈ w.journal, e.pid ≠ e'.pid → ¬ e.Clash e'
  undoes : ∀ e ∈ w.journal, ∀ u, e.undo = some u → u.item ∈ e.writes

variable {w w' : World} {i j : ℕ} {x : Item} {d : DbOp}

theorem Entry.Clash.symm {e e' : Entry} (h : e.Clash e') : e'.Clash e := Or.symm h

theorem mem_others_iff {e : Entry} :
    e ∈ w.journal.filter (·.pid ≠ i) ↔ e ∈ w.journal ∧ e.pid ≠ i := by
  rw [List.mem_filter, decide_eq_true_eq]

/-- Nobody else writes what a transaction has touched. -/
theorem World.Separate.not_written (h : w.Separate) (hx : w.Touches i x) {e : Entry}
    (he : e ∈ w.journal) (hpid : e.pid ≠ i) : x ∉ e.writes := by
  intro hwritten
  obtain ⟨e₀, he₀, htouched⟩ := hx
  obtain ⟨hmem, rfl⟩ := mem_entriesOf.mp he₀
  exact h.apart e he e₀ hmem hpid (.inl ⟨x, hwritten, htouched⟩)

theorem World.Separate.clear_others (h : w.Separate) (hx : w.Touches i x) :
    Clear (w.journal.filter (·.pid ≠ i)) x := by
  intro e he u hu
  obtain ⟨hmem, hpid⟩ := mem_others_iff.mp he
  rintro rfl
  exact h.not_written hx hmem hpid (h.undoes e hmem u hu)

theorem World.Separate.clear_own (h : w.Separate) (hx : ∀ e ∈ w.entriesOf i, x ∉ e.writes) :
    Clear (w.entriesOf i) x := by
  intro e he u hu
  rintro rfl
  exact hx e he (h.undoes e (mem_entriesOf.mp he).1 u hu)

/-- An item that a transaction has touched is settled as the transaction found it. -/
theorem World.Separate.settled_touched (h : w.Separate) (hx : w.Touches i x) :
    w.settled.cell x = (w.origin i).cell x := by
  refine (cell_undoAll_filter (p := fun e => decide (e.pid = i)) ?_ w.store).symm
  simpa only [decide_not] using h.clear_others hx

/-- An item that it did not write is settled by the others. -/
theorem World.Separate.settled_unwritten (h : w.Separate)
    (hx : ∀ e ∈ w.entriesOf i, x ∉ e.writes) :
    w.settled.cell x = (undoAll (w.journal.filter (·.pid ≠ i)) w.store).cell x := by
  refine (cell_undoAll_filter (p := fun e => decide (e.pid ≠ i)) ?_ w.store).symm
  simpa only [decide_not, Bool.not_not, World.entriesOf] using h.clear_own hx

section Close

theorem World.Separate.of_sublist (h : w.Separate) (hsub : ∀ e ∈ w'.journal, e ∈ w.journal) :
    w'.Separate :=
  ⟨fun e he e' he' => h.apart e (hsub e he) e' (hsub e' he'), fun e he => h.undoes e (hsub e he)⟩

theorem commit_separate (h : w.Separate) (i : ℕ) : (w.commit i).Separate :=
  h.of_sublist fun _ he => (mem_others_iff.mp he).1

theorem rollback_separate (h : w.Separate) (i : ℕ) : (w.rollback i).Separate :=
  h.of_sublist fun _ he => (mem_others_iff.mp he).1

/-- A commit settles what the transaction has made of an item. -/
theorem commit_touched (h : w.Separate) (hx : w.Touches i x) :
    (w.commit i).settled.cell x = w.store.cell x :=
  cell_undoAll_clear (h.clear_others hx) w.store

theorem commit_unwritten (h : w.Separate) (hx : ∀ e ∈ w.entriesOf i, x ∉ e.writes) :
    (w.commit i).settled.cell x = w.settled.cell x :=
  (h.settled_unwritten hx).symm

/-- A rollback settles nothing. -/
theorem rollback_settled (h : w.Separate) (i : ℕ) (x : Item) :
    (w.rollback i).settled.cell x = w.settled.cell x := by
  change (undoAll (w.journal.filter (·.pid ≠ i)) (w.origin i)).cell x = _
  -- nobody else has written what the transaction touched, and it has not written the rest
  by_cases hx : w.Touches i x
  · rw [cell_undoAll_clear (h.clear_others hx), h.settled_touched hx]
  · have hown : ∀ e ∈ w.entriesOf i, x ∉ e.writes := fun e he hwritten =>
      hx ⟨e, he, List.mem_append_right _ hwritten⟩
    rw [h.settled_unwritten hown]
    exact cell_undoAll_congr _ (cell_undoAll_clear (h.clear_own hown) w.store)

end Close

section Step

theorem undo_item_mem {u : Undo} {fresh : ℕ} {s : Store} (h : d.undo fresh s = some u) :
    u.item ∈ d.writes fresh := by
  -- the undo is about the first item that the operation writes
  cases d with
  | saveBalance key patch =>
    obtain ⟨b, _, rfl⟩ := Option.map_eq_some_iff.mp h
    exact List.mem_singleton_self _
  | saveRequest id patch =>
    obtain ⟨r, _, rfl⟩ := Option.map_eq_some_iff.mp h
    exact List.mem_singleton_self _
  | insertBalance balance =>
    cases h
    exact List.mem_cons_self
  | insertRequest request =>
    cases h
    exact List.mem_cons_self
  | insertRecord record =>
    cases h
    exact List.mem_cons_self
  | _ => cases h

/-- The world after a call of the transaction of process `i`. -/
def World.called (w : World) (i : ℕ) (d : DbOp) : World :=
  (w.db d).2.journaled (entryOf i d w)

theorem called_entriesOf (w : World) (i : ℕ) (d : DbOp) :
    (w.called i d).entriesOf i = entryOf i d w :: w.entriesOf i :=
  List.filter_cons_of_pos (by simp [entryOf])

theorem called_separate (h : w.Separate) (hd : w.Isolated i d) : (w.called i d).Separate := by
  refine ⟨fun e he e' he' hpid => ?_, fun e he u hu => ?_⟩
  · rcases List.mem_cons.mp he with rfl | he <;> rcases List.mem_cons.mp he' with rfl | he'
    · exact absurd rfl hpid
    · exact hd e' he' hpid.symm
    · exact fun hclash => hd e he hpid hclash.symm
    · exact h.apart e he e' he' hpid
  · rcases List.mem_cons.mp he with rfl | he
    · exact undo_item_mem (undo_of_entry hu).2
    · exact h.undoes e he u hu

/-- It is settled by nobody yet, and changes nothing before the transaction. -/
theorem called_settled (w : World) (i : ℕ) (d : DbOp) : (w.called i d).settled = w.settled :=
  undoAll_journaled i d w

theorem called_origin (w : World) (i : ℕ) (d : DbOp) :
    (w.called i d).origin i = w.origin i := by
  unfold World.origin
  rw [called_entriesOf]
  exact congrArg (undoAll (w.entriesOf i)) (undo_run d w.clock w.nextId w.store rfl)

theorem touches_called (w : World) (i : ℕ) {d : DbOp}
    (hx : x ∈ d.reads w.store ∨ x ∈ d.writes w.nextId) : (w.called i d).Touches i x :=
  ⟨entryOf i d w, by rw [called_entriesOf]; exact List.mem_cons_self, List.mem_append.mpr hx⟩

theorem World.Touches.called (h : w.Touches i x) (d : DbOp) : (w.called i d).Touches i x := by
  obtain ⟨e, he, hx⟩ := h
  exact ⟨e, by rw [called_entriesOf]; exact List.mem_cons_of_mem _ he, hx⟩

end Step

end Clash

section Rely

variable {w w' w₁ w₂ w₃ : World} {i j : ℕ} {x : Item} {d : DbOp} {was now : Option Cell}

/-- What the transaction of process `i` relies on: what it has touched stays as it is, and no
request enters a lane that it has read. -/
structure Undisturbed (i : ℕ) (w w' : World) : Prop where
  entries : w'.entriesOf i = w.entriesOf i
  cells : ∀ x, w.Touches i x → w'.store.cell x = w.store.cell x
  lanes : ∀ employeeId locationId, w.Touches i (.requestsOf employeeId locationId) →
    ∀ id ∈ w'.store.requestIdsOf employeeId locationId,
      id ∈ w.store.requestIdsOf employeeId locationId

theorem Undisturbed.touches (h : Undisturbed i w w') : w'.Touches i x ↔ w.Touches i x := by
  unfold World.Touches
  rw [h.entries]

theorem Undisturbed.refl (i : ℕ) (w : World) : Undisturbed i w w :=
  ⟨rfl, fun _ _ => rfl, fun _ _ _ _ => id⟩

theorem Undisturbed.trans (h : Undisturbed i w₁ w₂) (h' : Undisturbed i w₂ w₃) :
    Undisturbed i w₁ w₃ :=
  ⟨h'.entries.trans h.entries,
    fun x hx => (h'.cells x (h.touches.mpr hx)).trans (h.cells x hx),
    fun emp loc hx id hid => h.lanes emp loc hx id (h'.lanes emp loc (h.touches.mpr hx) id hid)⟩

/-- A step that changes no cell, lane or open transaction. -/
theorem undisturbed_of_same (hjournal : w'.journal = w.journal)
    (hcells : ∀ x, w'.store.cell x = w.store.cell x) (hrows : Within w'.store w.store) (i : ℕ) :
    Undisturbed i w w' :=
  ⟨by rw [World.entriesOf, hjournal, World.entriesOf], fun x _ => hcells x,
    fun _ _ _ _ hid => hrows.requestIdsOf hid⟩

/-- An isolated call disturbs no other transaction. -/
theorem called_undisturbed (hd : w.Isolated i d) (hj : j ≠ i) :
    Undisturbed j w (w.called i d) := by
  -- the call writes nothing that process `j` has touched, or the two would clash
  have hfree (x : Item) (hx : w.Touches j x) : x ∉ d.writes w.nextId := by
    intro hwritten
    obtain ⟨e, he, htouched⟩ := hx
    obtain ⟨hmem, rfl⟩ := mem_entriesOf.mp he
    exact hd e hmem hj (.inl ⟨x, hwritten, htouched⟩)
  refine ⟨List.filter_cons_of_neg (by simp [entryOf, hj.symm]), fun x hx => ?_,
    fun emp loc hx id hid => ?_⟩
  · exact cell_db w (hfree x hx)
  · exact requestIdsOf_db w (hfree _ hx) hid

theorem commit_undisturbed (hj : j ≠ i) : Undisturbed j w (w.commit i) :=
  ⟨entriesOf_of_close hj rfl, fun _ _ => rfl, fun _ _ _ _ => id⟩

/-- A rollback takes back what nobody else has touched. -/
theorem rollback_undisturbed (h : w.Separate) (hj : j ≠ i) :
    Undisturbed j w (w.rollback i) := by
  refine ⟨entriesOf_of_close hj rfl, fun x hx => cell_undoAll_clear ?_ w.store,
    fun emp loc _ id hid => ?_⟩
  · refine h.clear_own fun e he => ?_
    obtain ⟨hmem, rfl⟩ := mem_entriesOf.mp he
    exact h.not_written hx hmem hj.symm
  · exact (within_undoAll (w.entriesOf i) w.store).requestIdsOf hid

/-- The transaction of process `i` found `was` at the item, where there is `now`. -/
structure Held (i : ℕ) (x : Item) (was now : Option Cell) (w : World) : Prop where
  touched : w.Touches i x
  was : (w.origin i).cell x = was
  now : w.store.cell x = now

theorem Held.undisturbed (h : Held i x was now w) (hR : Undisturbed i w w') :
    Held i x was now w' := by
  have hcell := hR.cells x h.touched
  refine ⟨hR.touches.mpr h.touched, ?_, hcell.trans h.now⟩
  rw [← h.was, World.origin, World.origin, hR.entries]
  exact cell_undoAll_congr _ hcell

/-- A call that does not write the item leaves it held. -/
theorem Held.called (h : Held i x was now w) (hx : x ∉ d.writes w.nextId) :
    Held i x was now (w.called i d) :=
  ⟨h.touched.called d, by rw [called_origin]; exact h.was, (cell_db w hx).trans h.now⟩

theorem Held.written (h : Held i x was now w) {now' : Option Cell}
    (hnow : (w.db d).2.store.cell x = now') : Held i x was now' (w.called i d) :=
  ⟨h.touched.called d, by rw [called_origin]; exact h.was, hnow⟩

/-- A row that the call inserts was not there before the transaction. -/
theorem held_of_insert (hnone : w.store.cell x = none) (hx : x ∈ d.writes w.nextId)
    (hnow : (w.db d).2.store.cell x = now) : Held i x none now (w.called i d) :=
  ⟨touches_called w i (.inr hx), by rw [called_origin]; exact cell_undoAll_none _ hnone, hnow⟩

/-- The items that the transaction of process `i` has written. -/
def WritesOnly (i : ℕ) (xs : List Item) (w : World) : Prop :=
  ∀ e ∈ w.entriesOf i, ∀ x ∈ e.writes, x ∈ xs

theorem WritesOnly.undisturbed {xs : List Item} (h : WritesOnly i xs w) (hR : Undisturbed i w w') :
    WritesOnly i xs w' := by
  unfold WritesOnly
  rw [hR.entries]
  exact h

theorem WritesOnly.called {xs : List Item} (h : WritesOnly i xs w)
    (hd : ∀ x ∈ d.writes w.nextId, x ∈ xs) : WritesOnly i xs (w.called i d) := by
  intro e he
  rw [called_entriesOf] at he
  rcases List.mem_cons.mp he with rfl | he
  · exact hd
  · exact h e he

/-- An item that the transaction has not written it finds as it was before it. -/
theorem held_of_touched {xs : List Item} (h : w.Separate) (hw : WritesOnly i xs w) (hx : x ∉ xs)
    (htouched : w.Touches i x) : Held i x (w.store.cell x) (w.store.cell x) w :=
  ⟨htouched, cell_undoAll_clear (h.clear_own fun e he hwritten => hx (hw e he x hwritten)) w.store,
    rfl⟩

/-- So does a call that reads it and writes nothing. -/
theorem held_of_read {xs : List Item} (h : w.Separate) (hd : w.Isolated i d)
    (hw : WritesOnly i xs w) (hx : x ∉ xs) (hread : x ∈ d.reads w.store)
    (hwrites : d.writes w.nextId = []) :
    Held i x (w.store.cell x) (w.store.cell x) (w.called i d) := by
  have hcell : (w.called i d).store.cell x = w.store.cell x :=
    cell_db w (by rw [hwrites]; exact List.not_mem_nil)
  have honly : WritesOnly i xs (w.called i d) :=
    hw.called fun y hy => by
      rw [hwrites] at hy
      cases hy
  have hheld := held_of_touched (called_separate h hd) honly hx (touches_called w i (.inl hread))
  rwa [hcell] at hheld

/-- What a commit makes of an item that the transaction holds. -/
theorem Held.commit (h : Held i x was now w) (hsep : w.Separate) :
    w.settled.cell x = was ∧ (w.commit i).settled.cell x = now :=
  ⟨(hsep.settled_touched h.touched).trans h.was, (commit_touched hsep h.touched).trans h.now⟩

theorem WritesOnly.commit {xs : List Item} (h : WritesOnly i xs w) (hsep : w.Separate)
    (hx : x ∉ xs) : (w.commit i).settled.cell x = w.settled.cell x :=
  commit_unwritten hsep fun e he hwritten => hx (h e he x hwritten)

end Rely

end TimeOff
