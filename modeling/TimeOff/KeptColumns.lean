import TimeOff.World

/-! Columns that a request keeps from its insertion on: no step changes them, so whoever has read
them knows them. -/
namespace TimeOff

section Kept

variable {γ : Type} (f : TimeOffRequest → γ)

/-- The columns `f` of the request of this id, if there is one or ever will be, are `v`. -/
def KnownAs (w : World) (requestId : ℕ) (v : γ) : Prop :=
  requestId < w.nextId ∧ ∀ row ∈ w.store.requests, row.id = requestId → f row = v

/-- Rows keep their columns `f`; new rows get new ids, and columns that are `fresh`. -/
structure ColumnsKept (fresh : γ → Prop) (w w' : World) : Prop where
  nextId : w.nextId ≤ w'.nextId
  rows : ∀ row ∈ w'.store.requests,
    (∃ old ∈ w.store.requests, old.id = row.id ∧ f old = f row) ∨
      w.nextId ≤ row.id ∧ row.id < w'.nextId ∧ fresh (f row)

def IdsDrawn (w : World) : Prop := ∀ row ∈ w.store.requests, row.id < w.nextId

variable {f} {fresh : γ → Prop} {w w' w₁ w₂ w₃ : World} {requestId : ℕ} {v : γ}

theorem columnsKept_of_eq (hrequests : w'.store.requests = w.store.requests)
    (hnext : w.nextId ≤ w'.nextId) : ColumnsKept f fresh w w' :=
  ⟨hnext, fun row hrow => .inl ⟨row, hrequests ▸ hrow, rfl, rfl⟩⟩

theorem ColumnsKept.trans (h : ColumnsKept f fresh w₁ w₂) (h' : ColumnsKept f fresh w₂ w₃) :
    ColumnsKept f fresh w₁ w₃ := by
  refine ⟨h.nextId.trans h'.nextId, fun row hrow => ?_⟩
  rcases h'.rows row hrow with ⟨old, hold, hid, hcols⟩ | ⟨hge, hlt, hfresh⟩
  · rcases h.rows old hold with ⟨older, holder, hid', hcols'⟩ | ⟨hge, hlt, hfresh⟩
    · exact .inl ⟨older, holder, hid'.trans hid, hcols'.trans hcols⟩
    · rw [hid] at hge hlt
      rw [hcols] at hfresh
      exact .inr ⟨hge, hlt.trans_le h'.nextId, hfresh⟩
  · exact .inr ⟨h.nextId.trans hge, hlt, hfresh⟩

theorem KnownAs.mono (hk : ColumnsKept f fresh w w') (h : KnownAs f w requestId v) :
    KnownAs f w' requestId v := by
  refine ⟨h.1.trans_le hk.nextId, fun row hrow hid => ?_⟩
  rcases hk.rows row hrow with ⟨old, hold, hid', hcols⟩ | ⟨hge, _, _⟩
  · rw [← hcols]
    exact h.2 old hold (hid'.trans hid)
  · rw [hid] at hge
    exact absurd h.1 (not_lt.mpr hge)

theorem IdsDrawn.mono (hk : ColumnsKept f fresh w w') (h : IdsDrawn w) : IdsDrawn w' := by
  intro row hrow
  rcases hk.rows row hrow with ⟨old, hold, hid, _⟩ | ⟨_, hlt, _⟩
  · exact hid ▸ (h old hold).trans_le hk.nextId
  · exact hlt

/-- The rows of the tables are known. -/
theorem IdsDrawn.known (h : IdsDrawn w) {row : TimeOffRequest} (hrow : row ∈ w.store.requests) :
    KnownAs f w row.id (f row) := by
  refine ⟨h row hrow, fun row' hrow' hid => ?_⟩
  rw [List.inj_on_of_nodup_map w.store.requestIds hrow' hrow hid]

/-- A call of the database keeps columns that no patch has. -/
theorem columnsKept_db {o : DbOp}
    (hstore : w'.store = (w.db o).2.store) (hnext : w'.nextId = (w.db o).2.nextId)
    (hsave : ∀ (patch : RequestPatch) r, f (patch.apply r) = f r)
    (hinsert : ∀ request row, o = .insertRequest request →
      request.row w.clock w.nextId = some row → fresh (f row)) : ColumnsKept f fresh w w' := by
  have hle : w.nextId ≤ w'.nextId := by
    rw [hnext]
    exact o.le_nextId w.nextId
  have hrequests : w'.store.requests = (o.run w.clock w.nextId w.store).2.requests := by
    rw [hstore]
    rfl
  -- the three things an operation does to the requests: nothing, a save, an insert
  rcases o.run_requests w.clock w.nextId w.store with hreq | ⟨id, patch, rfl, hreq⟩ |
    ⟨request, new, rfl, hnew, hreq⟩
  · exact columnsKept_of_eq (hrequests.trans hreq) hle
  · refine ⟨hle, fun row hrow => .inl ?_⟩
    rw [hrequests, hreq] at hrow
    obtain ⟨old, hold, rfl⟩ := List.mem_map.mp hrow
    refine ⟨old, hold, ?_, ?_⟩
    · split <;> rfl
    · split
      · exact (hsave _ old).symm
      · rfl
  · refine ⟨hle, fun row hrow => ?_⟩
    rw [hrequests] at hrow
    rcases List.mem_append.mp ((Store.insertRequest_eq hreq).2.2.1 ▸ hrow) with hold | hrow
    · exact .inl ⟨row, hold, rfl, rfl⟩
    · rw [List.mem_singleton.mp hrow, hnext, (newRequest_row_eq hnew).1]
      exact .inr ⟨le_refl _, Nat.lt_succ_self _, hinsert request new rfl hnew⟩

end Kept

end TimeOff
