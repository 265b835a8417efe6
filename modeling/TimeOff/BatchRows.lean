import TimeOff.BatchEval
import TimeOff.KeyedRatchet

/-! What a run of the batch does to each row: the well-formed records act key by key, and the
omission pass flags the rows whose joined key is not in the payload. -/
namespace TimeOff

section Records

/-- A well-formed element. -/
structure SnapshotRecord where
  key : BalanceKey
  total : ℚ
  version : Option String
  deriving DecidableEq, Repr

/-- The three identifiers, when they are strings. -/
def HcmFields.identifiers (r : HcmFields) : Option BalanceKey :=
  match r.employeeId, r.locationId, r.leaveType with
  | some (.string employeeId), some (.string locationId), some (.string leaveType) =>
    some ⟨employeeId, locationId, leaveType⟩
  | _, _, _ => none

variable (rt : Runtime)

/-- The record an element is: an object with the three identifiers, a numeric total, and a
version that has a text or is missing. -/
def Json.record? (j : Json) : Option SnapshotRecord :=
  match j.fields with
  | .error _ => none
  | .ok r =>
    r.identifiers.bind fun key =>
      match hcmTotalOf rt r.totalBalance, versionOf rt r.version with
      | .ok (some total), .ok version => some ⟨key, total, version⟩
      | _, _ => none

def Columns.of (key : BalanceKey) : Columns :=
  ⟨some key.employeeId, some key.locationId, some key.leaveType⟩

variable {rt} {j : Json} {r : SnapshotRecord}

theorem identifiers_eq {r : HcmFields} {key : BalanceKey} (h : r.identifiers = some key) :
    r.employeeId = some (.string key.employeeId) ∧ r.locationId = some (.string key.locationId) ∧
      r.leaveType = some (.string key.leaveType) := by
  unfold HcmFields.identifiers at h
  split at h
  · next he hl ht =>
    cases h
    exact ⟨he, hl, ht⟩
  · cases h

theorem columns_of_identifiers {r : HcmFields} {key : BalanceKey}
    (h : r.identifiers = some key) : r.columns rt = .ok (Columns.of key) := by
  obtain ⟨he, hl, ht⟩ := identifiers_eq h
  unfold HcmFields.columns
  rw [he, hl, ht]
  rfl

theorem joinedKey_of_identifiers {r : HcmFields} {key : BalanceKey} (hr : j.fields = .ok r)
    (h : r.identifiers = some key) : j.joinedKey rt = .ok key.joined := by
  obtain ⟨he, hl, ht⟩ := identifiers_eq h
  unfold Json.joinedKey
  rw [hr]
  change (do
    let employeeId ← fieldText rt r.employeeId
    let locationId ← fieldText rt r.locationId
    let leaveType ← fieldText rt r.leaveType
    return employeeId ++ "|" ++ locationId ++ "|" ++ leaveType) = Except.ok key.joined
  rw [he, hl, ht]
  unfold fieldText Json.text
  rfl

theorem record?_eq (h : j.record? rt = some r) :
    ∃ fields, j.fields = .ok fields ∧ fields.identifiers = some r.key ∧
      hcmTotalOf rt fields.totalBalance = .ok (some r.total) ∧
      versionOf rt fields.version = .ok r.version := by
  unfold Json.record? at h
  cases hr : j.fields with
  | error e =>
    rw [hr] at h
    cases h
  | ok fields =>
    rw [hr] at h
    obtain ⟨key, hkey, h⟩ := Option.bind_eq_some_iff.mp h
    split at h
    -- the key, then the total and the version together
    · next htotal hversion =>
      cases h
      exact ⟨fields, rfl, hkey, htotal, hversion⟩
    · cases h

theorem demand_of_record (h : j.record? rt = some r) :
    j.demand rt = some ⟨Columns.of r.key, r.total, r.version⟩ := by
  obtain ⟨fields, hr, hkey, htotal, hversion⟩ := record?_eq h
  unfold Json.demand HcmFields.demand
  rw [hr]
  dsimp only
  rw [htotal, columns_of_identifiers hkey, hversion]

theorem joinedKey_of_record (h : j.record? rt = some r) :
    j.joinedKey rt = .ok r.key.joined := by
  obtain ⟨fields, hr, hkey, _⟩ := record?_eq h
  exact joinedKey_of_identifiers hr hkey

theorem hcmKeySetOf_records {snapshot : List Json} {records : List SnapshotRecord}
    (h : snapshot.map (Json.record? rt) = records.map some) :
    hcmKeySetOf rt snapshot = .ok (records.map (·.key.joined)) := by
  -- the records are those of the elements, one for one
  induction snapshot generalizing records with
  | nil =>
    cases records with
    | nil => rfl
    | cons r records => cases h
  | cons j snapshot ih =>
    cases records with
    | nil => cases h
    | cons r records =>
      obtain ⟨hj, hrest⟩ := List.cons.inj h
      unfold hcmKeySetOf
      rw [joinedKey_of_record hj, ih hrest]
      rfl

end Records

section Rows

variable {rt : Runtime} {s s' : Store} {now : ℕ} {key k : BalanceKey}

theorem admits_of : (Columns.of key).admits k = decide (k = key) := by
  unfold Columns.admits Columns.of
  obtain ⟨e, l, t⟩ := key
  obtain ⟨e', l', t'⟩ := k
  simp only [Option.all_some, BalanceKey.mk.injEq]
  by_cases h : e = e' ∧ l = l' ∧ t = t'
  · obtain ⟨rfl, rfl, rfl⟩ := h
    simp
  · have h' : ¬ (e' = e ∧ l' = l ∧ t' = t) := fun h1 => h ⟨h1.1.symm, h1.2.1.symm, h1.2.2.symm⟩
    rw [decide_eq_false h', ← Bool.decide_and, ← Bool.decide_and, decide_eq_false_iff_not,
      and_assoc]
    exact h

theorem rowFor_eq_none {columns : Columns} :
    s.rowFor rt columns = none ↔ ∀ b ∈ s.balances, columns.admits b.key = false := by
  unfold Store.rowFor
  constructor
  -- the search picks among the rows that the columns admit, and there is one
  · intro h b hb
    by_contra hne
    have hmem : b ∈ s.balances.filter (columns.admits ·.key) :=
      List.mem_filter.mpr ⟨hb, Bool.eq_true_of_not_eq_false hne⟩
    have hsome := rt.pick_isSome _ (List.ne_nil_of_mem hmem)
    rw [h] at hsome
    cases hsome
  · intro h
    cases hp : rt.pick (s.balances.filter (columns.admits ·.key)) with
    | none => rfl
    | some b =>
      obtain ⟨hb, hadmits⟩ := List.mem_filter.mp (rt.pick_mem _ _ hp)
      rw [h b hb] at hadmits
      cases hadmits

theorem rowFor_mem {columns : Columns} {b : EmployeeBalance} (h : s.rowFor rt columns = some b) :
    b ∈ s.balances ∧ columns.admits b.key = true :=
  List.mem_filter.mp (rt.pick_mem _ _ h)

/-- With all three columns `findOne` finds the row of the triple. -/
theorem rowFor_of : s.rowFor rt (Columns.of key) = s.balance? key := by
  -- the columns of a key admit that key alone
  cases h : s.rowFor rt (Columns.of key) with
  | some b =>
    obtain ⟨hb, hadmits⟩ := rowFor_mem h
    rw [admits_of, decide_eq_true_eq] at hadmits
    exact (Store.balance?_eq_some.mpr ⟨hb, hadmits⟩).symm
  | none =>
    cases hrow : s.balance? key with
    | none => rfl
    | some b =>
      obtain ⟨hb, hkey⟩ := Store.balance?_eq_some.mp hrow
      have hadmits := rowFor_eq_none.mp h b hb
      rw [admits_of, decide_eq_false_iff_not] at hadmits
      exact absurd hkey hadmits

theorem balance?_patched {patch : BalancePatch} :
    (s.patched key patch).balance? k =
      (s.balance? k).map fun b =>
        if b.key = key then { patch with version := some (b.version + 1) }.apply b else b :=
  Store.balance?_saveBalance key k fun b => { patch with version := some (b.version + 1) }

/-- The row a record finds, after its write. -/
def reconciledRow (fl : ℚ → ℚ) (now : ℕ) (r : SnapshotRecord) (row : EmployeeBalance) :
    EmployeeBalance :=
  { (reconcilePatchIn fl row (some r.total) r.version now).1 with
    version := some (row.version + 1) }.apply row

/-- The row a record makes. -/
def firstRow (now : ℕ) (r : SnapshotRecord) : EmployeeBalance where
  key := r.key
  totalBalance := r.total
  availableBalance := r.total
  pendingBalance := 0
  usedBalance := 0
  hcmTotalBalance := r.total
  hcmLastSync := some now
  hcmVersion := r.version
  hasDiscrepancy := false
  discrepancyAmount := none
  version := 1

/-- What a record makes of the row of its key. -/
def recordRow (rt : Runtime) (now : ℕ) (key : BalanceKey) (r : SnapshotRecord) :
    Option EmployeeBalance → Option EmployeeBalance
  | some row => some (reconciledRow rt.round now r row)
  | none => if rt.takes key then some (firstRow now r) else none

/-- The tables after an element. -/
def Json.applied (rt : Runtime) (now : ℕ) (j : Json) (s : Store) : Store :=
  match j.write rt now s with
  | some (s', _) => s'
  | none => s

theorem batchLoop_store (snapshot : List Json) :
    (batchLoop rt now snapshot s).store =
      snapshot.foldl (fun s j => j.applied rt now s) s := by
  induction snapshot generalizing s with
  | nil => rfl
  | cons j rest ih =>
    rw [List.foldl_cons, ← ih, batchLoop]
    unfold Json.applied
    cases j.write rt now s with
    | none => rfl
    | some e => rfl

theorem balance?_insertBalance {row : EmployeeBalance} (h : s.insertBalance row = some s') :
    s'.balance? k = if row.key = k then some row else s.balance? k := by
  obtain ⟨hnone, hbalances, _⟩ := Store.insertBalance_eq h
  unfold Store.balance? at hnone ⊢
  rw [hbalances, Store.find?_key_append]
  by_cases hk : row.key = k
  · subst hk
    rw [hnone, if_pos rfl]
    rfl
  · rw [if_neg hk, if_neg hk]
    cases s.balances.find? fun b => decide (b.key = k) <;> rfl

theorem newBalance_row (r : SnapshotRecord) :
    (BatchState.newBalance r.key (some r.total) now r.version).row = some (firstRow now r) := rfl

theorem balance?_applied {j : Json} {r : SnapshotRecord} (h : j.record? rt = some r) :
    (j.applied rt now s).balance? =
      Keyed.put (recordRow rt now) s.balance? (r.key, r) := by
  have hwrite : j.write rt now s =
      Demand.write rt now ⟨Columns.of r.key, r.total, r.version⟩ s := by
    unfold Json.write
    rw [demand_of_record h]
    rfl
  have hkey? : (Columns.of r.key).key? = some r.key := rfl
  funext k
  unfold Json.applied Keyed.put
  rw [hwrite, Demand.write, rowFor_of]
  dsimp only
  -- the row is there and is patched, or there is none and the column decides
  cases hrow : s.balance? r.key with
  | some row =>
    have hkey : row.key = r.key := (Store.balance?_eq_some.mp hrow).2
    dsimp only
    rw [balance?_patched, hkey]
    -- another key is another row
    by_cases hk : k = r.key
    · subst hk
      rw [Function.update_self, hrow]
      exact congrArg some (if_pos hkey)
    · rw [Function.update_of_ne hk]
      cases hother : s.balance? k with
      | none => rfl
      | some b =>
        have hb : b.key ≠ r.key := by
          rw [(Store.balance?_eq_some.mp hother).2]
          exact hk
        exact congrArg some (if_neg hb)
  | none =>
    rw [hkey?, Option.bind_some, newBalance_row, Option.bind_some]
    -- a leave type that the column does not take makes no row
    cases htakes : rt.takes r.key with
    | false =>
      have hnew : recordRow rt now r.key r none = none := by
        unfold recordRow
        rw [htakes]
        rfl
      have hself : Function.update s.balance? r.key none = s.balance? := by
        rw [← hrow, Function.update_eq_self]
      rw [hnew, hself]
      rfl
    | true =>
      have hnew : recordRow rt now r.key r none = some (firstRow now r) := by
        unfold recordRow
        rw [htakes]
        rfl
      obtain ⟨s', hs'⟩ : ∃ s', s.insertBalance (firstRow now r) = some s' := ⟨_, dif_pos hrow⟩
      rw [hnew, if_pos rfl, hs']
      change s'.balance? k = _
      rw [balance?_insertBalance hs', Function.update_apply]
      by_cases hk : k = r.key
      · rw [if_pos hk, if_pos (show (firstRow now r).key = k from hk.symm)]
      · rw [if_neg hk, if_neg (show (firstRow now r).key ≠ k from Ne.symm hk)]

/-- The rows after the loop over well-formed records: each is made by the records of its key. -/
theorem balance?_batchLoop {snapshot : List Json} {records : List SnapshotRecord}
    (h : snapshot.map (Json.record? rt) = records.map some) :
    (batchLoop rt now snapshot s).store.balance? =
      (records.map fun r => (r.key, r)).foldl (Keyed.put (recordRow rt now)) s.balance? := by
  -- the induction is on the payload; each element is one `put` of the keyed fold
  rw [batchLoop_store]
  induction snapshot generalizing records s with
  | nil =>
    cases records with
    | nil => rfl
    | cons r records => cases h
  | cons j snapshot ih =>
    cases records with
    | nil => cases h
    | cons r records =>
      obtain ⟨hj, hrest⟩ := List.cons.inj h
      rw [List.foldl_cons, List.map_cons, List.foldl_cons, ih hrest, balance?_applied hj]

/-- The row the payload leaves out. -/
def omitted (now : ℕ) (row : EmployeeBalance) : EmployeeBalance :=
  { omittedPatch row now with version := some (row.version + 1) }.apply row

theorem balance?_omitRows {hcmKeySet : List String} {rows : List EmployeeBalance}
    (hrows : (rows.map (·.key)).Nodup) (hs : ∀ b ∈ rows, s.balance? b.key = some b) :
    (omitRows now hcmKeySet rows s).1.balance? k =
      (s.balance? k).map fun b =>
        if b ∈ rows ∧ b.key.joined ∉ hcmKeySet then omitted now b else b := by
  induction rows generalizing s with
  | nil =>
    have hsame : (fun b : EmployeeBalance =>
        if b ∈ ([] : List EmployeeBalance) ∧ b.key.joined ∉ hcmKeySet then omitted now b else b) =
          id := funext fun b => if_neg fun h => absurd h.1 List.not_mem_nil
    rw [hsame, Option.map_id]
    rfl
  | cons row rest ih =>
    obtain ⟨hnotin, hrest⟩ := List.nodup_cons.mp hrows
    have hrow : s.balance? row.key = some row := hs row List.mem_cons_self
    have hother : ∀ b ∈ rest, b.key ≠ row.key := fun b hb heq =>
      hnotin (List.mem_map.mpr ⟨b, hb, heq⟩)
    unfold omitRows
    -- the row stays when its key is in the set, and is flagged otherwise
    by_cases hkey : row.key.joined ∈ hcmKeySet
    · rw [if_pos hkey, ih hrest fun b hb => hs b (List.mem_cons_of_mem row hb)]
      refine Option.map_congr fun b hb => ?_
      by_cases hbrow : b = row
      · subst hbrow
        rw [if_neg fun h => h.2 hkey, if_neg fun h => h.2 hkey]
      · have hmem : b ∈ row :: rest ↔ b ∈ rest := List.mem_cons.trans (or_iff_right hbrow)
        simp only [hmem]
    · rw [if_neg hkey]
      -- the later rows are still as they were read
      have hs' : ∀ b ∈ rest, (s.patched row.key (omittedPatch row now)).balance? b.key =
          some b := by
        intro b hb
        rw [balance?_patched, hs b (List.mem_cons_of_mem row hb)]
        exact congrArg some (if_neg (hother b hb))
      dsimp only
      rw [ih hrest hs', balance?_patched, Option.map_map]
      refine Option.map_congr fun b hb => ?_
      rw [Function.comp_apply]
      by_cases hbkey : b.key = row.key
      · -- the row that this step flags; no later step meets it
        obtain rfl : b = row := by
          rw [← (Store.balance?_eq_some.mp hb).2, hbkey, hrow] at hb
          exact (Option.some.inj hb).symm
        have hgone : omitted now b ∉ rest := fun hmem => hother _ hmem rfl
        have hflag : (if b ∈ b :: rest ∧ b.key.joined ∉ hcmKeySet then omitted now b else b) =
            omitted now b := if_pos ⟨List.mem_cons_self, hkey⟩
        rw [if_pos rfl, hflag]
        exact if_neg fun h => hgone h.1
      · have hbrow : b ≠ row := fun h => hbkey (congrArg _ h)
        have hmem : b ∈ row :: rest ↔ b ∈ rest := List.mem_cons.trans (or_iff_right hbrow)
        rw [if_neg hbkey]
        simp only [hmem]

/-- The rows after a whole run. -/
theorem balance?_batchRows {snapshot : List Json} {hcmKeySet : List String} :
    (batchRows rt now snapshot hcmKeySet s).1.balance? k =
      ((batchLoop rt now snapshot s).store.balance? k).map fun b =>
        if b.key.joined ∈ hcmKeySet then b else omitted now b := by
  let e := (batchLoop rt now snapshot s).store
  have hrows : ∀ b ∈ e.balances, e.balance? b.key = some b :=
    fun b hb => Store.balance?_eq_some.mpr ⟨hb, rfl⟩
  unfold batchRows
  rw [balance?_omitRows e.balanceKeys hrows]
  refine Option.map_congr fun b hb => ?_
  have hmem : b ∈ e.balances := (Store.balance?_eq_some.mp hb).1
  by_cases hkey : b.key.joined ∈ hcmKeySet
  · rw [if_pos hkey]
    exact if_neg fun h => h.2 hkey
  · rw [if_neg hkey]
    exact if_pos ⟨hmem, hkey⟩

end Rows

end TimeOff
