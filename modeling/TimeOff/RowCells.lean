import TimeOff.AtomicTx
import TimeOff.LaneViews

/-! What the tables say of one row or key, whatever else they hold: how the database calls and
the undoing of writes change it. -/
namespace TimeOff

section Cells

/-- A request without the times of its writes and the columns saved beside its status. -/
def TimeOffRequest.facts (r : TimeOffRequest) : TimeOffRequest :=
  { r.core with createdAt := 0 }

inductive Cell
  | balance (b : EmployeeBalance)
  | request (r : TimeOffRequest)
  | record
  deriving DecidableEq

/-- What the tables have at an item that is a row, or a key of a record. -/
def Store.cell (s : Store) : Item → Option Cell
  | .balance key => (s.balance? key).map .balance
  | .request id => (s.request? id).map fun r => .request r.facts
  | .record key => (s.record? key).map fun _ => .record
  | _ => none

variable {s s' : Store} {x : Item}

theorem cell_balance {key : BalanceKey} {b : EmployeeBalance} :
    s.cell (.balance key) = some (.balance b) ↔ s.balance? key = some b := by
  simp [Store.cell]

theorem cell_request {id : ℕ} {r : TimeOffRequest} :
    s.cell (.request id) = some (.request r) ↔ ∃ row, s.request? id = some row ∧ row.facts = r := by
  simp [Store.cell]

theorem cell_request_none {id : ℕ} : s.cell (.request id) = none ↔ s.request? id = none := by
  simp [Store.cell]

theorem cell_record_none {key : String} : s.cell (.record key) = none ↔ s.record? key = none := by
  simp [Store.cell]

/-- The rows of two tables that have the same cells say the same. -/
theorem balance?_of_cell {key : BalanceKey} (h : s.cell (.balance key) = s'.cell (.balance key)) :
    s.balance? key = s'.balance? key := by
  apply Option.ext
  intro b
  rw [← cell_balance, ← cell_balance, h]

def Cell.status : Cell → Option RequestStatus
  | request r => some r.status
  | _ => none

theorem status_of_cell (s : Store) (id : ℕ) :
    (s.request? id).map TimeOffRequest.status = (s.cell (.request id)).bind Cell.status := by
  change _ = ((s.request? id).map _).bind _
  cases s.request? id <;> rfl

end Cells

section Saves

variable {s s' : Store} {x : Item}

theorem balance?_saveBalance_of_ne {key k : BalanceKey} (hk : k ≠ key)
    (patch : EmployeeBalance → BalancePatch) :
    (s.saveBalance key patch).balance? k = s.balance? k := by
  rw [Store.balance?_saveBalance]
  cases hb : s.balance? k with
  | none => rfl
  | some b =>
    rw [Option.map_some, if_neg (by rw [(Store.balance?_eq_some.mp hb).2]; exact hk)]

theorem balance?_saveBalance_self {key : BalanceKey} {b : EmployeeBalance}
    (hb : s.balance? key = some b) (patch : EmployeeBalance → BalancePatch) :
    (s.saveBalance key patch).balance? key = some ((patch b).apply b) := by
  rw [Store.balance?_saveBalance, hb, Option.map_some, if_pos (Store.balance?_eq_some.mp hb).2]

theorem request?_saveRequest_of_ne {id i : ℕ} (hi : i ≠ id)
    (patch : TimeOffRequest → RequestPatch) :
    (s.saveRequest id patch).request? i = s.request? i := by
  rw [Store.request?_saveRequest]
  cases hr : s.request? i with
  | none => rfl
  | some r =>
    rw [Option.map_some, if_neg (by rw [(Store.request?_eq_some.mp hr).2]; exact hi)]

theorem request?_saveRequest_self {id : ℕ} {r : TimeOffRequest} (hr : s.request? id = some r)
    (patch : TimeOffRequest → RequestPatch) :
    (s.saveRequest id patch).request? id = some ((patch r).apply r) := by
  rw [Store.request?_saveRequest, hr, Option.map_some, if_pos (Store.request?_eq_some.mp hr).2]

/-- Tables with the same rows of balances, requests and records have the same cells. -/
theorem cell_congr (hbalance : ∀ key, x = .balance key → s'.balance? key = s.balance? key)
    (hrequest : ∀ id, x = .request id → s'.request? id = s.request? id)
    (hrecord : ∀ key, x = .record key → s'.record? key = s.record? key) :
    s'.cell x = s.cell x := by
  cases x with
  | balance key => exact congrArg (Option.map _) (hbalance key rfl)
  | request id => exact congrArg (Option.map _) (hrequest id rfl)
  | record key => exact congrArg (Option.map _) (hrecord key rfl)
  | _ => rfl

theorem cell_saveBalance_of_ne {key : BalanceKey} (hx : x ≠ .balance key)
    (patch : EmployeeBalance → BalancePatch) : (s.saveBalance key patch).cell x = s.cell x := by
  refine cell_congr (fun k hk => balance?_saveBalance_of_ne ?_ patch) (fun _ _ => rfl)
    fun _ _ => rfl
  rintro rfl
  exact hx hk

theorem cell_saveRequest_of_ne {id : ℕ} (hx : x ≠ .request id)
    (patch : TimeOffRequest → RequestPatch) : (s.saveRequest id patch).cell x = s.cell x := by
  refine cell_congr (fun _ _ => rfl) (fun i hi => request?_saveRequest_of_ne ?_ patch)
    fun _ _ => rfl
  rintro rfl
  exact hx hi

/-- A save that leaves the status alone shows in no cell. -/
theorem cell_saveRequest_sync {id : ℕ} {patch : TimeOffRequest → RequestPatch}
    (h : ∀ r, (patch r).status = none) (x : Item) : (s.saveRequest id patch).cell x = s.cell x := by
  by_cases hx : x = .request id
  · subst hx
    change Option.map _ ((s.saveRequest id patch).request? id) = Option.map _ (s.request? id)
    cases hr : s.request? id with
    | none =>
      rw [Store.request?_saveRequest, hr]
      rfl
    | some r =>
      rw [request?_saveRequest_self hr, Option.map_some, Option.map_some]
      simp only [TimeOffRequest.facts, TimeOffRequest.core, RequestPatch.apply, h r,
        Option.getD_none]
  · exact cell_saveRequest_of_ne hx patch

end Saves

section Undo

/-- The item that an undo writes. -/
def Undo.item : Undo → Item
  | balance key _ => .balance key
  | request id _ => .request id
  | newBalance key => .balance key
  | newRequest id => .request id
  | newRecord key => .record key

/-- What it makes of the item. -/
def Undo.rewrite : Undo → Option Cell → Option Cell
  | balance _ patch, some (.balance b) => some (.balance (patch.apply b))
  | request _ patch, some (.request r) => some (.request (patch.apply r).facts)
  | newBalance _, _ => none
  | newRequest _, _ => none
  | newRecord _, _ => none
  | _, c => c

variable {s s' : Store} {x : Item}

theorem cell_undo_self (u : Undo) (s : Store) :
    (u.run s).cell u.item = u.rewrite (s.cell u.item) := by
  cases u with
  | balance key patch =>
    change Option.map Cell.balance ((s.saveBalance key fun _ => patch).balance? key) =
      (Undo.balance key patch).rewrite (Option.map Cell.balance (s.balance? key))
    cases hb : s.balance? key with
    | none =>
      rw [Store.balance?_saveBalance, hb]
      rfl
    | some b =>
      rw [balance?_saveBalance_self hb]
      rfl
  | request id patch =>
    change Option.map (fun r => Cell.request r.facts)
        ((s.saveRequest id fun _ => patch).request? id) =
      (Undo.request id patch).rewrite (Option.map (fun r => Cell.request r.facts) (s.request? id))
    cases hr : s.request? id with
    | none =>
      rw [Store.request?_saveRequest, hr]
      rfl
    | some r =>
      rw [request?_saveRequest_self hr]
      rfl
  | newBalance key =>
    have hgone : (s.removeBalance key).balance? key = none :=
      Store.find?_key_filter.trans (if_pos rfl)
    exact congrArg (Option.map _) hgone
  | newRequest id =>
    have hgone : (s.removeRequest id).request? id = none :=
      Store.find?_key_filter.trans (if_pos rfl)
    exact congrArg (Option.map _) hgone
  | newRecord key =>
    have hgone : (s.removeRecord key).record? key = none :=
      Store.find?_key_filter.trans (if_pos rfl)
    exact congrArg (Option.map _) hgone

theorem cell_undo_of_ne {u : Undo} (hx : u.item ≠ x) (s : Store) : (u.run s).cell x = s.cell x := by
  cases u with
  | balance key patch => exact cell_saveBalance_of_ne (Ne.symm hx) _
  | request id patch => exact cell_saveRequest_of_ne (Ne.symm hx) _
  | newBalance key =>
    refine cell_congr (fun k hk => Store.find?_key_filter.trans (if_neg ?_)) (fun _ _ => rfl)
      fun _ _ => rfl
    rintro rfl
    exact hx hk.symm
  | newRequest id =>
    refine cell_congr (fun _ _ => rfl) (fun i hi => Store.find?_key_filter.trans (if_neg ?_))
      fun _ _ => rfl
    rintro rfl
    exact hx hi.symm
  | newRecord key =>
    refine cell_congr (fun _ _ => rfl) (fun _ _ => rfl)
      fun k hk => Store.find?_key_filter.trans (if_neg ?_)
    rintro rfl
    exact hx hk.symm

theorem cell_undo (u : Undo) (s : Store) (x : Item) :
    (u.run s).cell x = if u.item = x then u.rewrite (s.cell x) else s.cell x := by
  by_cases hx : u.item = x
  · subst hx
    rw [if_pos rfl]
    exact cell_undo_self u s
  · rw [if_neg hx]
    exact cell_undo_of_ne hx s

/-- No entry undoes a write of the item. -/
def Clear (entries : List Entry) (x : Item) : Prop :=
  ∀ e ∈ entries, ∀ u, e.undo = some u → u.item ≠ x

theorem cell_undoAll_congr (entries : List Entry) (h : s.cell x = s'.cell x) :
    (undoAll entries s).cell x = (undoAll entries s').cell x := by
  induction entries generalizing s s' with
  | nil => exact h
  | cons e entries ih =>
    apply ih
    dsimp only
    cases e.undo with
    | none => exact h
    | some u =>
      change (u.run s).cell x = (u.run s').cell x
      rw [cell_undo, cell_undo, h]

/-- Only the entries that undo a write of the item count for it. -/
theorem cell_undoAll_filter {p : Entry → Bool} {entries : List Entry}
    (h : Clear (entries.filter fun e => !p e) x) (s : Store) :
    (undoAll (entries.filter p) s).cell x = (undoAll entries s).cell x := by
  induction entries generalizing s with
  | nil => rfl
  | cons e entries ih =>
    cases hp : p e with
    | true =>
      rw [List.filter_cons_of_pos hp]
      -- the entry stays: it is undone on both sides
      rw [List.filter_cons_of_neg (by simp [hp])] at h
      exact ih h _
    | false =>
      -- the entry is left out: undoing it must not reach `x`
      rw [List.filter_cons_of_neg (by simp [hp])]
      rw [List.filter_cons_of_pos (by simp [hp])] at h
      obtain ⟨he, hrest⟩ := List.forall_mem_cons.mp h
      calc (undoAll (entries.filter p) s).cell x
          = (undoAll entries s).cell x := ih hrest s
        _ = (undoAll entries (e.undo.elim s (·.run s))).cell x := by
          apply cell_undoAll_congr
          cases hu : e.undo with
          | none => rfl
          | some u =>
            have hkeep : (u.run s).cell x = s.cell x := by
              rw [cell_undo, if_neg (he u hu)]
            exact hkeep.symm

theorem cell_undoAll_clear {entries : List Entry} (h : Clear entries x) (s : Store) :
    (undoAll entries s).cell x = s.cell x := by
  have hall : Clear (entries.filter fun _ => !false) x := by simpa using h
  have hnone := cell_undoAll_filter (p := fun _ => false) hall s
  rw [← hnone, List.filter_false]
  rfl

end Undo

section Rows

variable {s s' : Store}

theorem mem_requestIdsOf {employeeId locationId : String} {id : ℕ} :
    id ∈ s.requestIdsOf employeeId locationId ↔
      ∃ r ∈ s.requests, r.employeeId = employeeId ∧ r.locationId = locationId ∧ r.id = id := by
  simp only [Store.requestIdsOf, List.mem_map, List.mem_filter, Bool.and_eq_true,
    decide_eq_true_eq, and_assoc]

/-- Every request of `s'` is one of `s`, as far as its columns never change. -/
def Within (s' s : Store) : Prop :=
  ∀ r ∈ s'.requests, ∃ row ∈ s.requests, row.id = r.id ∧
    row.idempotencyKey = r.idempotencyKey ∧ row.employeeId = r.employeeId ∧
    row.locationId = r.locationId

theorem Within.refl (s : Store) : Within s s := fun r hr => ⟨r, hr, rfl, rfl, rfl, rfl⟩

theorem Within.requestIdsOf (h : Within s' s) {employeeId locationId : String} {id : ℕ}
    (hid : id ∈ s'.requestIdsOf employeeId locationId) :
    id ∈ s.requestIdsOf employeeId locationId := by
  obtain ⟨r, hr, hemp, hloc, hrid⟩ := mem_requestIdsOf.mp hid
  obtain ⟨row, hrow, hrowid, _, hrowemp, hrowloc⟩ := h r hr
  exact mem_requestIdsOf.mpr
    ⟨row, hrow, hrowemp.trans hemp, hrowloc.trans hloc, hrowid.trans hrid⟩

/-- An undo takes away no more from `s'` than from `s`. -/
theorem Within.undo (h : Within s' s) (u : Undo) : Within (u.run s') (u.run s) := by
  cases u with
  | request id patch =>
    intro r hr
    obtain ⟨r', hr', rfl⟩ := List.mem_map.mp hr
    -- the smaller store is undone with the larger one, so the rows still come in pairs
    obtain ⟨row, hrow, hid, hkey, hemp, hloc⟩ := h r' hr'
    refine ⟨_, List.mem_map_of_mem hrow, ?_⟩
    by_cases hr'id : r'.id = id
    · rw [if_pos hr'id, if_pos (hid.trans hr'id)]
      exact ⟨hid, hkey, hemp, hloc⟩
    · rw [if_neg hr'id, if_neg (by rw [hid]; exact hr'id)]
      exact ⟨hid, hkey, hemp, hloc⟩
  | newRequest id =>
    intro r hr
    obtain ⟨hr, hne⟩ := List.mem_filter.mp hr
    obtain ⟨row, hrow, hid, hsame⟩ := h r hr
    exact ⟨row, List.mem_filter.mpr ⟨hrow, by rw [hid]; exact hne⟩, hid, hsame⟩
  | balance key patch => exact h
  | newBalance key => exact h
  | newRecord key => exact h

theorem Within.undo_left (h : Within s' s) (u : Undo) : Within (u.run s') s := by
  cases u with
  | request id patch =>
    intro r hr
    obtain ⟨r', hr', rfl⟩ := List.mem_map.mp hr
    obtain ⟨row, hrow, hsame⟩ := h r' hr'
    refine ⟨row, hrow, ?_⟩
    split <;> exact hsame
  | newRequest id => exact fun r hr => h r (List.mem_filter.mp hr).1
  | balance key patch => exact h
  | newBalance key => exact h
  | newRecord key => exact h

/-- Undoing more leaves no other requests. -/
theorem Within.undoAll (p : Entry → Bool) (entries : List Entry) (h : Within s' s) :
    Within (undoAll entries s') (undoAll (entries.filter p) s) := by
  induction entries generalizing s s' with
  | nil => exact h
  | cons e entries ih =>
    cases hp : p e with
    | true =>
      rw [List.filter_cons_of_pos hp]
      apply ih
      dsimp only
      cases e.undo with
      | none => exact h
      | some u => exact h.undo u
    | false =>
      -- the entry is undone in `s'` only, which takes rows away
      rw [List.filter_cons_of_neg (by simp [hp])]
      apply ih
      dsimp only
      cases e.undo with
      | none => exact h
      | some u => exact h.undo_left u

theorem within_undoAll (entries : List Entry) (s : Store) : Within (undoAll entries s) s := by
  have h := (Within.refl s).undoAll (fun _ => false) entries
  rwa [List.filter_false] at h

/-- What the tables do not have, undoing does not bring back. -/
theorem cell_undoAll_none {x : Item} (entries : List Entry) (h : s.cell x = none) :
    (undoAll entries s).cell x = none := by
  induction entries generalizing s with
  | nil => exact h
  | cons e entries ih =>
    apply ih
    dsimp only
    cases e.undo with
    | none => exact h
    | some u =>
      change (u.run s).cell x = none
      rw [cell_undo, h]
      cases u <;> split <;> rfl

end Rows

section Calls

variable {s s' : Store} {x : Item}

/-- The rows of a table stay found when one of another key is added. -/
theorem find?_append_of_ne {α β : Type} [DecidableEq β] {key : α → β} {k : β} {l : List α} {a : α}
    (hk : key a ≠ k) : (l ++ [a]).find? (key · = k) = l.find? (key · = k) := by
  rw [Store.find?_key_append, if_neg hk, Option.or_none]

theorem cell_insertBalance_of_ne {row : EmployeeBalance} (h : s.insertBalance row = some s')
    (hx : x ≠ .balance row.key) : s'.cell x = s.cell x := by
  obtain ⟨_, hbalances, hrequests, hrecords⟩ := Store.insertBalance_eq h
  refine cell_congr (fun k hk => ?_) (fun i _ => ?_) fun k _ => ?_
  · rw [Store.balance?, hbalances]
    apply find?_append_of_ne
    rintro rfl
    exact hx hk
  · rw [Store.request?, hrequests, Store.request?]
  · rw [Store.record?, hrecords, Store.record?]

theorem cell_insertRequest_of_ne {row : TimeOffRequest} (h : s.insertRequest row = some s')
    (hx : x ≠ .request row.id) : s'.cell x = s.cell x := by
  obtain ⟨_, _, hrequests, hbalances, hrecords⟩ := Store.insertRequest_eq h
  refine cell_congr (fun k _ => ?_) (fun i hi => ?_) fun k _ => ?_
  · rw [Store.balance?, hbalances, Store.balance?]
  · rw [Store.request?, hrequests]
    apply find?_append_of_ne
    rintro rfl
    exact hx hi
  · rw [Store.record?, hrecords, Store.record?]

theorem cell_insertRecord_of_ne {record : IdempotencyRecord} (h : s.insertRecord record = some s')
    (hx : x ≠ .record record.idempotencyKey) : s'.cell x = s.cell x := by
  obtain ⟨_, hrecords, hbalances, hrequests⟩ := Store.insertRecord_eq h
  refine cell_congr (fun k _ => ?_) (fun i _ => ?_) fun k hk => ?_
  · rw [Store.balance?, hbalances, Store.balance?]
  · rw [Store.request?, hrequests, Store.request?]
  · rw [Store.record?, hrecords]
    apply find?_append_of_ne
    rintro rfl
    exact hx hk

/-- A call of the database changes what it writes and nothing else. -/
theorem cell_db (w : World) {d : DbOp} (hx : x ∉ d.writes w.nextId) :
    (w.db d).2.store.cell x = w.store.cell x := by
  cases d with
  | saveBalance key patch =>
    simp only [World.db, DbOp.run]
    split
    · exact cell_saveBalance_of_ne (by simpa [DbOp.writes] using hx) _
    · rfl
  | insertBalance balance =>
    rcases World.db_insertBalance w balance with ⟨code, message, hdb⟩ | ⟨row, s', hrow, hs', hdb⟩
    · rw [hdb]
    · rw [hdb]
      apply cell_insertBalance_of_ne hs'
      rw [newBalance_row_key hrow]
      rintro rfl
      exact hx List.mem_cons_self
  | saveRequest id patch => exact cell_saveRequest_of_ne (by simpa [DbOp.writes] using hx) _
  | insertRequest request =>
    rcases World.db_insertRequest w request with ⟨code, message, hdb⟩ | ⟨row, s', hrow, hs', hdb⟩
    · rw [hdb]
    · rw [hdb]
      apply cell_insertRequest_of_ne hs'
      rw [(newRequest_row_eq hrow).1]
      rintro rfl
      exact hx List.mem_cons_self
  | insertRecord record =>
    rcases World.db_insertRecord w record with ⟨message, hdb⟩ | ⟨s', hs', hdb⟩
    · rw [hdb]
    · rw [hdb]
      apply cell_insertRecord_of_ne hs'
      rintro rfl
      exact hx List.mem_cons_self
  | _ => rfl

/-- Only an insertion adds a request, to its own lane. -/
theorem requestIdsOf_db (w : World) {d : DbOp} {employeeId locationId : String}
    (hx : .requestsOf employeeId locationId ∉ d.writes w.nextId) {id : ℕ}
    (hid : id ∈ (w.db d).2.store.requestIdsOf employeeId locationId) :
    id ∈ w.store.requestIdsOf employeeId locationId := by
  obtain ⟨r, hr, hemp, hloc, rfl⟩ := mem_requestIdsOf.mp hid
  rcases d.run_requests w.clock w.nextId w.store with hsame | ⟨i, patch, rfl, hsave⟩ |
    ⟨request, row, rfl, hrow, hins⟩
  · exact mem_requestIdsOf.mpr ⟨r, hsame ▸ hr, hemp, hloc, rfl⟩
  · have hr : r ∈ (DbOp.run w.clock w.nextId (.saveRequest i patch) w.store).2.requests := hr
    rw [hsave] at hr
    obtain ⟨r', hr', rfl⟩ := List.mem_map.mp hr
    refine mem_requestIdsOf.mpr ⟨r', hr', ?_⟩
    by_cases hi : r'.id = i
    · rw [if_pos hi] at hemp hloc ⊢
      exact ⟨hemp, hloc, rfl⟩
    · rw [if_neg hi] at hemp hloc ⊢
      exact ⟨hemp, hloc, rfl⟩
  · obtain ⟨_, _, hrequests, _, _⟩ := Store.insertRequest_eq hins
    have hr : r ∈ (DbOp.run w.clock w.nextId (.insertRequest request) w.store).2.requests := hr
    rw [hrequests] at hr
    rcases List.mem_append.mp hr with hold | hnew
    · exact mem_requestIdsOf.mpr ⟨r, hold, hemp, hloc, rfl⟩
    · -- the new row is of a lane that the call writes
      rw [List.mem_singleton.mp hnew] at hemp hloc
      obtain ⟨days, _, rfl⟩ := Option.map_eq_some_iff.mp hrow
      exact absurd (by simp [DbOp.writes, ← hemp, ← hloc]) hx

end Calls

end TimeOff
