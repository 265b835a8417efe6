import TimeOff.FlatOps

/-! What the create calls of one lane see of the tables, and what undoing the writes of an open
transaction does to it. A lane is the text that the calls lock. -/
namespace TimeOff

open Async

section TakeBack

theorem map_ite_inverse {α β : Type} [DecidableEq β] {key : α → β} {k : β} {f g : α → α}
    {l : List α} (hkey : ∀ a, key (f a) = key a) (h : ∀ a ∈ l, key a = k → g (f a) = a) :
    (l.map fun a => if key a = k then f a else a).map (fun a => if key a = k then g a else a) =
      l := by
  rw [List.map_map]
  refine (List.map_congr_left fun a ha => ?_).trans (List.map_id l)
  by_cases hk : key a = k
  · simp only [Function.comp_apply, if_pos hk, hkey, h a ha hk, id_eq]
  · simp only [Function.comp_apply, if_neg hk, id_eq]

theorem filter_append_key {α β : Type} [DecidableEq β] {key : α → β} {l : List α} {a : α}
    (h : l.find? (fun b => decide (key b = key a)) = none) :
    (l ++ [a]).filter (fun b => decide (key b ≠ key a)) = l := by
  rw [List.filter_append, List.filter_cons_of_neg (by simp), List.filter_nil, List.append_nil]
  exact List.filter_eq_self.mpr fun b hb => by simpa using List.find?_eq_none.mp h b hb

variable {s s' : Store}

theorem Store.eq_of_rows (hbalances : s.balances = s'.balances)
    (hrequests : s.requests = s'.requests) (hrecords : s.records = s'.records) : s = s' := by
  cases s
  cases s'
  cases hbalances
  cases hrequests
  cases hrecords
  rfl

/-- A key that no row has is saved to no row. -/
theorem saveBalance_of_none {key : BalanceKey} (patch : EmployeeBalance → BalancePatch)
    (h : s.balance? key = none) : s.saveBalance key patch = s := by
  refine Store.eq_of_rows ?_ rfl rfl
  refine (List.map_congr_left fun b hb => ?_).trans (List.map_id _)
  exact if_neg (by simpa using List.find?_eq_none.mp h b hb)

theorem saveRequest_of_none {id : ℕ} (patch : TimeOffRequest → RequestPatch)
    (h : s.request? id = none) : s.saveRequest id patch = s := by
  refine Store.eq_of_rows rfl ?_ rfl
  refine (List.map_congr_left fun r hr => ?_).trans (List.map_id _)
  exact if_neg (by simpa using List.find?_eq_none.mp h r hr)

/-- What a call of a transaction leaves to undo takes the call back. -/
theorem undo_run (o : DbOp) (now fresh : ℕ) (s : Store) {r : Except Err o.Resp} {s' : Store}
    (hr : o.run now fresh s = (r, s')) :
    (match r with
      | .ok _ => o.undo fresh s
      | .error _ => none).elim s' (·.run s') = s := by
  cases o with
  | saveBalance key patch =>
    simp only [DbOp.run] at hr
    split at hr
    · cases hr
      dsimp only [DbOp.undo]
      cases hb : s.balance? key with
      | none => exact saveBalance_of_none _ hb
      | some b =>
        refine Store.eq_of_rows ?_ rfl rfl
        refine map_ite_inverse (fun _ => rfl) fun a ha hk => ?_
        -- the row that is saved is the one whose columns were kept
        obtain rfl : a = b := Option.some.inj ((Store.balance?_eq_some.mpr ⟨ha, hk⟩).symm.trans hb)
        exact balance_before_apply { patch with version := some (a.version + 1) } a
    · cases hr
      rfl
  | insertBalance balance =>
    simp only [DbOp.run] at hr
    split at hr
    · cases hr
      rfl
    · next row hrow =>
      split at hr
      · cases hr
        rfl
      · next s₁ hs =>
        cases hr
        obtain ⟨hnone, hbalances, hrequests, hrecords⟩ := Store.insertBalance_eq hs
        refine Store.eq_of_rows ?_ hrequests hrecords
        change s'.balances.filter (·.key ≠ balance.key) = s.balances
        rw [hbalances, ← newBalance_row_key hrow]
        exact filter_append_key hnone
  | saveRequest id patch =>
    cases hr
    dsimp only [DbOp.undo]
    cases hb : s.request? id with
    | none => exact saveRequest_of_none _ hb
    | some b =>
      refine Store.eq_of_rows rfl ?_ rfl
      refine map_ite_inverse (fun _ => rfl) fun a ha hk => ?_
      obtain rfl : a = b := Option.some.inj ((Store.request?_eq_some.mpr ⟨ha, hk⟩).symm.trans hb)
      exact request_before_apply
        { patch with version := some (a.version + 1), updatedAt := some now } a
  | insertRequest request =>
    simp only [DbOp.run] at hr
    split at hr
    · cases hr
      rfl
    · next row hrow =>
      split at hr
      · cases hr
        rfl
      · next s₁ hs =>
        cases hr
        obtain ⟨hnone, _, hrequests, hbalances, hrecords⟩ := Store.insertRequest_eq hs
        refine Store.eq_of_rows hbalances ?_ hrecords
        change s'.requests.filter (·.id ≠ fresh) = s.requests
        rw [hrequests, ← (newRequest_row_eq hrow).1]
        exact filter_append_key hnone
  | insertRecord record =>
    simp only [DbOp.run] at hr
    split at hr
    · cases hr
      rfl
    · next s₁ hs =>
      cases hr
      obtain ⟨hnone, hrecords, hbalances, hrequests⟩ := Store.insertRecord_eq hs
      refine Store.eq_of_rows hbalances hrequests ?_
      change s'.records.filter (·.idempotencyKey ≠ record.idempotencyKey) = s.records
      rw [hrecords]
      exact filter_append_key hnone
  | _ =>
    cases hr
    rfl

/-- The tables as they would be without the open transactions stay the same. -/
theorem undoAll_journaled (i : ℕ) (o : DbOp) (w : World) :
    undoAll ((w.db o).2.journaled (entryOf i o w)).journal (w.db o).2.store =
      undoAll w.journal w.store :=
  congrArg (undoAll w.journal) (undo_run o w.clock w.nextId w.store rfl)

end TakeBack

section Views

def laneOf (employeeId locationId : String) : String := employeeId ++ ":" ++ locationId

/-- A row without the columns that can be saved beside its status. -/
def TimeOffRequest.core (r : TimeOffRequest) : TimeOffRequest :=
  { r with
    approvedBy := none
    approvedAt := none
    rejectionReason := none
    hcmValidated := false
    hcmSyncStatus := .pending
    hcmSyncAttempts := 0
    hcmLastSyncAt := none
    version := 0
    updatedAt := 0 }

/-- The requests of a lane, and the days available on its balances. -/
@[ext]
structure LaneView where
  requests : List TimeOffRequest
  available : List (BalanceKey × ℚ)

def Store.view (s : Store) (lane : String) : LaneView where
  requests := (s.requests.filter fun r => laneOf r.employeeId r.locationId = lane).map
    TimeOffRequest.core
  available := (s.balances.filter fun b => laneOf b.key.employeeId b.key.locationId = lane).map
    fun b => (b.key, b.availableBalance)

namespace LaneView

/-- The days available on the balance of `key` go from `x` to `f x`. -/
def save (V : LaneView) (key : BalanceKey) (f : ℚ → ℚ) : LaneView :=
  { V with available := V.available.map fun b => if b.1 = key then (b.1, f b.2) else b }

/-- What an undo does to a lane. -/
def undo (V : LaneView) : Undo → LaneView
  | .balance key patch => V.save key (amountOr patch.availableBalance)
  | .request id patch =>
    { V with requests := V.requests.map fun r => if r.id = id then (patch.apply r).core else r }
  | .newBalance key => { V with available := V.available.filter (·.1 ≠ key) }
  | .newRequest id => { V with requests := V.requests.filter (·.id ≠ id) }
  | .newRecord _ => V

def undoAll (entries : List Entry) (V : LaneView) : LaneView :=
  entries.foldl (fun V e => e.undo.elim V V.undo) V

end LaneView

/-- The undo finds nothing in the lane that it would touch. -/
def Undo.Clear (V : LaneView) : Undo → Prop
  | balance key _ => ∀ b ∈ V.available, b.1 ≠ key
  | request id _ => ∀ r ∈ V.requests, r.id ≠ id
  | newBalance key => ∀ b ∈ V.available, b.1 ≠ key
  | newRequest id => ∀ r ∈ V.requests, r.id ≠ id
  | newRecord _ => True

variable {s : Store} {V : LaneView} {lane : String}

theorem filter_map_row {α β : Type} {p : α → Bool} {f : α → α} {view : α → β}
    {g : β → β} {l : List α} (hp : ∀ a, p (f a) = p a) (hg : ∀ a, view (f a) = g (view a)) :
    ((l.map f).filter p).map view = ((l.filter p).map view).map g := by
  have hcomp : p ∘ f = p := funext hp
  rw [List.filter_map, hcomp, List.map_map, List.map_map]
  exact List.map_congr_left fun a _ => hg a

theorem filter_filter_row {α β : Type} {p q : α → Bool} {view : α → β} {q' : β → Bool}
    {l : List α} (hq : ∀ a, q' (view a) = q a) :
    ((l.filter q).filter p).map view = ((l.filter p).map view).filter q' := by
  have hcomp : q' ∘ view = q := funext hq
  rw [List.filter_map, hcomp, List.filter_comm]

/-- Undoing in the tables shows in the lane, whatever the other lanes hold. -/
theorem view_undo (u : Undo) (s : Store) (lane : String) :
    (u.run s).view lane = (s.view lane).undo u := by
  -- a restored row stays in its lane, and so does a removed one
  cases u with
  | balance key patch =>
    refine LaneView.ext rfl (filter_map_row (fun b => ?_) fun b => ?_)
    · split <;> rfl
    · dsimp only
      split <;> rfl
  | request id patch =>
    refine LaneView.ext (filter_map_row (fun r => ?_) fun r => ?_) rfl
    · split <;> rfl
    · change TimeOffRequest.core (if r.id = id then _ else _) = if r.id = id then _ else _
      split <;> rfl
  | newBalance key => exact LaneView.ext rfl (filter_filter_row fun _ => rfl)
  | newRequest id => exact LaneView.ext (filter_filter_row fun _ => rfl) rfl
  | newRecord idempotencyKey => rfl

theorem view_undoAll (entries : List Entry) (s : Store) (lane : String) :
    (undoAll entries s).view lane = (s.view lane).undoAll entries := by
  induction entries generalizing s with
  | nil => rfl
  | cons e entries ih =>
    change (undoAll entries (e.undo.elim s (·.run s))).view lane = _
    rw [ih]
    cases hu : e.undo with
    | none => simp only [LaneView.undoAll, List.foldl_cons, hu, Option.elim_none]
    | some u => simp only [LaneView.undoAll, List.foldl_cons, hu, Option.elim_some, view_undo]

theorem save_of_ne {key : BalanceKey} {f : ℚ → ℚ} (h : ∀ b ∈ V.available, b.1 ≠ key) :
    V.save key f = V := by
  refine LaneView.ext rfl ((List.map_congr_left fun b hb => ?_).trans (List.map_id _))
  exact if_neg (h b hb)

theorem undo_of_clear {u : Undo} (h : u.Clear V) : V.undo u = V := by
  cases u with
  | balance key patch => exact save_of_ne h
  | request id patch =>
    refine LaneView.ext ((List.map_congr_left fun r hr => ?_).trans (List.map_id _)) rfl
    exact if_neg (h r hr)
  | newBalance key =>
    exact LaneView.ext rfl (List.filter_eq_self.mpr fun b hb => by simpa using h b hb)
  | newRequest id =>
    exact LaneView.ext (List.filter_eq_self.mpr fun r hr => by simpa using h r hr) rfl
  | newRecord idempotencyKey => rfl

/-- The undo is not about a request of this id or a later one. -/
def Undo.Before (id : ℕ) : Undo → Prop
  | request i _ => i < id
  | newRequest i => i < id
  | _ => True

theorem Undo.Before.mono {u : Undo} {id id' : ℕ} (h : u.Before id) (hle : id ≤ id') :
    u.Before id' := by
  cases u with
  | request i patch => exact lt_of_lt_of_le h hle
  | newRequest i => exact lt_of_lt_of_le h hle
  | _ => trivial

/-- The rows that an undo leaves were there. -/
theorem undo_lane_rows (u : Undo) :
    (∀ r ∈ (V.undo u).requests, ∃ r' ∈ V.requests, r'.id = r.id) ∧
      ∀ b ∈ (V.undo u).available, ∃ b' ∈ V.available, b'.1 = b.1 := by
  have hr : ∀ r ∈ V.requests, ∃ r' ∈ V.requests, r'.id = r.id := fun r hr => ⟨r, hr, rfl⟩
  have hb : ∀ b ∈ V.available, ∃ b' ∈ V.available, b'.1 = b.1 := fun b hb => ⟨b, hb, rfl⟩
  cases u with
  | balance key patch =>
    refine ⟨hr, fun b hb => ?_⟩
    obtain ⟨b', hb', rfl⟩ := List.mem_map.mp hb
    exact ⟨b', hb', by split <;> rfl⟩
  | request id patch =>
    refine ⟨fun r hr => ?_, hb⟩
    obtain ⟨r', hr', rfl⟩ := List.mem_map.mp hr
    exact ⟨r', hr', by split <;> rfl⟩
  | newBalance key => exact ⟨hr, fun b hb' => hb b (List.mem_of_mem_filter hb')⟩
  | newRequest id => exact ⟨fun r hr' => hr r (List.mem_of_mem_filter hr'), hb⟩
  | newRecord idempotencyKey => exact ⟨hr, hb⟩

/-- An undo that is clear of a lane stays so when later requests are added. -/
theorem Undo.Clear.of_rows {V' : LaneView} {u : Undo} (h : u.Clear V)
    (hr : ∀ r ∈ V'.requests, (∃ r' ∈ V.requests, r'.id = r.id) ∨ u.Before r.id)
    (hb : ∀ b ∈ V'.available, ∃ b' ∈ V.available, b'.1 = b.1) : u.Clear V' := by
  -- a row that is new has an id drawn after the undo was written
  have hid {id : ℕ} (h : ∀ r ∈ V.requests, r.id ≠ id)
      (hbefore : ∀ i, u.Before i → id < i) : ∀ r ∈ V'.requests, r.id ≠ id := by
    intro r hmem
    rcases hr r hmem with ⟨r', hr', heq⟩ | hlater
    · exact heq ▸ h r' hr'
    · exact (hbefore r.id hlater).ne'
  have hkey {key : BalanceKey} (h : ∀ b ∈ V.available, b.1 ≠ key) :
      ∀ b ∈ V'.available, b.1 ≠ key := by
    intro b hmem
    obtain ⟨b', hb', heq⟩ := hb b hmem
    exact heq ▸ h b' hb'
  cases u with
  | balance key patch => exact hkey h
  | request id patch => exact hid h fun _ h => h
  | newBalance key => exact hkey h
  | newRequest id => exact hid h fun _ h => h
  | newRecord idempotencyKey => trivial

theorem Undo.Clear.undo {u : Undo} (h : u.Clear V) (v : Undo) : u.Clear (V.undo v) :=
  h.of_rows (fun r hr => .inl ((undo_lane_rows v).1 r hr)) (undo_lane_rows v).2

/-- Of the open transactions, only the writes that touch a lane count for it. -/
theorem undoAll_filter {p : Entry → Bool} {entries : List Entry}
    (h : ∀ e ∈ entries, p e = false → ∀ u, e.undo = some u → u.Clear V) :
    V.undoAll (entries.filter p) = V.undoAll entries := by
  -- the entries left out find nothing to restore
  induction entries generalizing V with
  | nil => rfl
  | cons e entries ih =>
    obtain ⟨he, hrest⟩ := List.forall_mem_cons.mp h
    cases hp : p e with
    | true =>
      rw [List.filter_cons_of_pos hp]
      change (e.undo.elim V V.undo).undoAll (entries.filter p) =
        (e.undo.elim V V.undo).undoAll entries
      refine ih fun e' he' hp' u hu => ?_
      cases e.undo with
      | none => exact hrest e' he' hp' u hu
      | some v => exact (hrest e' he' hp' u hu).undo v
    | false =>
      rw [List.filter_cons_of_neg (by simp [hp]), ih hrest]
      change V.undoAll entries = (e.undo.elim V V.undo).undoAll entries
      cases hundo : e.undo with
      | none => rfl
      | some u => exact congrArg _ (undo_of_clear (he hp u hundo)).symm

theorem undoAll_clear {entries : List Entry}
    (h : ∀ e ∈ entries, ∀ u, e.undo = some u → u.Clear V) : V.undoAll entries = V := by
  have hnone := undoAll_filter (p := fun _ => false) fun e he _ => h e he
  rw [← hnone, List.filter_false]
  rfl

theorem Undo.Clear.undoAll {u : Undo} (h : u.Clear V) (entries : List Entry) :
    u.Clear (V.undoAll entries) := by
  induction entries generalizing V with
  | nil => exact h
  | cons e entries ih =>
    refine ih ?_
    dsimp only
    cases e.undo with
    | none => exact h
    | some v => exact h.undo v

end Views

section Writes

variable {s s' : Store} {lane : String}

theorem view_congr (hbalances : s'.balances = s.balances) (hrequests : s'.requests = s.requests) :
    s'.view lane = s.view lane := by
  rw [Store.view, Store.view, hbalances, hrequests]

theorem mem_view_requests {r : TimeOffRequest} :
    r ∈ (s.view lane).requests ↔
      ∃ row ∈ s.requests, laneOf row.employeeId row.locationId = lane ∧ row.core = r := by
  simp only [Store.view, List.mem_map, List.mem_filter, decide_eq_true_eq, and_assoc]

theorem mem_view_available {b : BalanceKey × ℚ} :
    b ∈ (s.view lane).available ↔ ∃ row ∈ s.balances,
      laneOf row.key.employeeId row.key.locationId = lane ∧
        (row.key, row.availableBalance) = b := by
  simp only [Store.view, List.mem_map, List.mem_filter, decide_eq_true_eq, and_assoc]

theorem view_saveBalance {key : BalanceKey} {patch : EmployeeBalance → BalancePatch} {f : ℚ → ℚ}
    (h : ∀ b, amountOr (patch b).availableBalance b.availableBalance = f b.availableBalance) :
    (s.saveBalance key patch).view lane = (s.view lane).save key f := by
  refine LaneView.ext rfl (filter_map_row (fun b => ?_) fun b => ?_)
  · split <;> rfl
  · dsimp only
    split
    · exact congrArg (Prod.mk b.key) (h b)
    · rfl

/-- A save that leaves the status alone does not show. -/
theorem view_saveRequest {id : ℕ} {patch : TimeOffRequest → RequestPatch}
    (h : ∀ r, (patch r).status = none) : (s.saveRequest id patch).view lane = s.view lane := by
  refine LaneView.ext ((filter_map_row (g := fun r => r) (fun r => ?_) fun r => ?_).trans
    (List.map_id _)) rfl
  · split <;> rfl
  · split
    · simp only [TimeOffRequest.core, RequestPatch.apply, h r, Option.getD_none]
    · rfl

/-- A new request shows in its lane. -/
theorem view_insertRequest {row : TimeOffRequest} (h : s.insertRequest row = some s')
    (hlane : laneOf row.employeeId row.locationId = lane) :
    s'.view lane = { s.view lane with requests := (s.view lane).requests ++ [row.core] } := by
  obtain ⟨_, _, hrequests, hbalances, _⟩ := Store.insertRequest_eq h
  rw [Store.view, hrequests, hbalances, List.filter_append, List.map_append,
    List.filter_cons_of_pos (by simpa using hlane)]
  rfl

theorem view_insertRequest_of_ne {row : TimeOffRequest} (h : s.insertRequest row = some s')
    (hlane : laneOf row.employeeId row.locationId ≠ lane) : s'.view lane = s.view lane := by
  obtain ⟨_, _, hrequests, hbalances, _⟩ := Store.insertRequest_eq h
  rw [Store.view, hrequests, hbalances, List.filter_append, List.map_append,
    List.filter_cons_of_neg (by simpa using hlane)]
  simp only [List.filter_nil, List.map_nil, List.append_nil]
  rfl

/-- A balance shows in its lane only. -/
theorem view_key_ne {key : BalanceKey} (h : laneOf key.employeeId key.locationId ≠ lane) :
    ∀ b ∈ (s.view lane).available, b.1 ≠ key := by
  rintro b hb rfl
  obtain ⟨row, _, hlane, rfl⟩ := mem_view_available.mp hb
  exact h hlane

end Writes

section Runs

variable (w : World)

/-- A save fails and does nothing, or is accepted. -/
theorem lane_saveBalance (key : BalanceKey) (patch : BalancePatch) :
    (∃ e, (w.db (.saveBalance key patch)).1 = .error e ∧
        (w.db (.saveBalance key patch)).2.store = w.store) ∨
      patch.accepted = true ∧ ∀ lane, (w.db (.saveBalance key patch)).2.store.view lane =
        (w.store.view lane).save key (amountOr patch.availableBalance) := by
  simp only [World.db, DbOp.run]
  split
  · next haccepted => exact .inr ⟨haccepted, fun lane => view_saveBalance fun _ => rfl⟩
  · exact .inl ⟨_, rfl, rfl⟩

theorem lane_insertRequest (request : NewRequest) :
    (∃ e, (w.db (.insertRequest request)).1 = .error e ∧
        (w.db (.insertRequest request)).2.store = w.store) ∨
      ∃ row, request.row w.clock w.nextId = some row ∧
        (w.db (.insertRequest request)).1 = .ok row ∧
        w.store.insertRequest row = some (w.db (.insertRequest request)).2.store := by
  simp only [World.db, DbOp.run]
  split
  · exact .inl ⟨_, rfl, rfl⟩
  · next row hrow =>
    split
    · exact .inl ⟨_, rfl, rfl⟩
    · next s' hs => exact .inr ⟨row, hrow, rfl, hs⟩

theorem lane_insertRecord (record : IdempotencyRecord) :
    (∃ e, (w.db (.insertRecord record)).1 = .error e ∧
        (w.db (.insertRecord record)).2.store = w.store) ∨
      w.store.insertRecord record = some (w.db (.insertRecord record)).2.store := by
  simp only [World.db, DbOp.run]
  split
  · exact .inl ⟨_, rfl, rfl⟩
  · next s' hs => exact .inr hs

variable {w}

/-- A call that fails leaves nothing to undo. -/
theorem undo_of_entry {i : ℕ} {d : DbOp} {u : Undo} (h : (entryOf i d w).undo = some u) :
    (∃ v, (w.db d).1 = .ok v) ∧ d.undo w.nextId w.store = some u := by
  dsimp only [entryOf] at h
  split at h
  · next v hv => exact ⟨⟨v, hv⟩, h⟩
  · cases h

end Runs

end TimeOff
