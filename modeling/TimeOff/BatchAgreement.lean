import TimeOff.BatchFlags
import TimeOff.HcmTotals

/-! The batch after a run of the service against the HCM: the local total of a row counts its
used days, that of the HCM does not, so they agree while nothing is approved. -/
namespace TimeOff

open Async

section MockHcm

/-- A record of `hcmBalances`. -/
structure HcmEntry where
  key : BalanceKey
  balance : HcmBalance
  version : String

/-- `Object.values(hcmBalances)`, when these triples were injected. -/
def MockHcm.values (h : MockHcm) (versions : BalanceKey → String) (keys : List BalanceKey) :
    List HcmEntry :=
  keys.map fun key => ⟨key, h.balance key, versions key⟩

def HcmEntry.json (e : HcmEntry) : Json :=
  .object [("employeeId", .string e.key.employeeId), ("locationId", .string e.key.locationId),
    ("leaveType", .string e.key.leaveType), ("totalBalance", .number e.balance.totalBalance),
    ("availableBalance", .number e.balance.availableBalance), ("version", .string e.version)]

/-- `GET /hcm/batch-sync`. -/
def batchSync (entries : List HcmEntry) : Json := .array (entries.map HcmEntry.json)

/-- The body of `POST /admin/anniversary-refresh`; a field that is missing selects all. -/
structure AnniversaryRefresh where
  employeeId : Option String
  locationId : Option String
  leaveType : Option String
  grantDays : ℚ

/-- A field that is missing or empty is not compared. -/
def selectsField (field : Option String) (own : String) : Bool :=
  field.all fun x => x = "" || x = own

def AnniversaryRefresh.selects (r : AnniversaryRefresh) (key : BalanceKey) : Bool :=
  (selectsField r.employeeId key.employeeId && selectsField r.locationId key.locationId) &&
    selectsField r.leaveType key.leaveType

def AnniversaryRefresh.grant (r : AnniversaryRefresh) (version : String) (e : HcmEntry) :
    HcmEntry :=
  if r.selects e.key then
    { e with
      balance :=
        { totalBalance := e.balance.totalBalance + r.grantDays
          availableBalance := e.balance.availableBalance + r.grantDays }
      version := version }
  else e

/-- `POST /admin/anniversary-refresh`: the answer 400, or the new records. -/
def AnniversaryRefresh.run (r : AnniversaryRefresh) (version : String) (entries : List HcmEntry) :
    Except String (List HcmEntry) :=
  if r.grantDays ≤ 0 then .error "grantDays must be a positive number"
  else .ok (entries.map (r.grant version))

end MockHcm

section Statement

/-- Every row as it was seeded on the two sides. -/
structure SeededAlike (start : Store) (h : MockHcm) : Prop where
  requests : start.requests = []
  rows : ∀ b ∈ start.balances, b.availableBalance = b.totalBalance ∧ b.pendingBalance = 0 ∧
    b.usedBalance = 0 ∧ (h.balance b.key).totalBalance = b.totalBalance
  /-- Each triple has a record of its own at the HCM. -/
  keys : (start.balances.map fun b => getBalanceKey b.key).Nodup

/-- Each approval was acknowledged by the HCM exactly once, and nothing else was. -/
def AcknowledgedOnce (w : World) : Prop :=
  (w.hcm.deducted.map (·.1)).Perm
    ((w.store.requests.filter (·.status = .approved)).map (·.id))

/-- The total and available amount, the pending and the used one. -/
def RowView.amounts (v : RowView) : ℚ × ℚ × ℚ × ℚ :=
  (v.totalBalance, v.availableBalance, v.pendingBalance, v.usedBalance)

def RowView.granted (v : RowView) (g : ℚ) : RowView :=
  { v with
    totalBalance := v.totalBalance + g
    availableBalance := v.availableBalance + g }

/-- No amount of a row has changed, and no row is flagged. -/
def Unchanged (s s' : BatchState) : Prop :=
  ∀ key, (viewOf s' key).map (·.amounts) = (viewOf s key).map (·.amounts) ∧
    ∀ v, viewOf s' key = some v → v.hasDiscrepancy = false

/-- The rows the refresh selects have been raised by its days, and no other. -/
def RaisedBy (r : AnniversaryRefresh) (s s' : BatchState) : Prop :=
  ∀ key, (viewOf s' key).map (·.amounts) = (viewOf s key).map fun v =>
    if r.selects key then (v.granted r.grantDays).amounts else v.amounts

/-- A batch changes nothing and flags nothing, and after a grant the next one raises the rows
that were granted by exactly as much. -/
def TotalsAgree (rt : Runtime) (s : BatchState) (entries : List HcmEntry) : Prop :=
  ∃ s', BatchRun rt (some (batchSync entries)) s s' ∧ Unchanged s s' ∧
    ∀ (r : AnniversaryRefresh) (version : String) (entries' : List HcmEntry) (later : ℕ),
      1 / 100 < r.grantDays → r.run version entries = .ok entries' →
      ∃ s'', BatchRun rt (some (batchSync entries')) { s' with clock := later } s'' ∧
        RaisedBy r s' s''

end Statement

section Entries

variable {entries : List HcmEntry} {s : BatchState}

def HcmEntry.record (e : HcmEntry) : SnapshotRecord :=
  ⟨e.key, e.balance.totalBalance, if e.version = "" then none else some e.version⟩

theorem record?_entry {rt : Runtime} (e : HcmEntry) : e.json.record? rt = some e.record := by
  have hversion : versionOf rt (some (.string e.version)) =
      .ok (if e.version = "" then none else some e.version) := by
    change (if decide (e.version ≠ "") = true then Except.ok (some e.version)
      else Except.ok none) = _
    by_cases h : e.version = ""
    -- an empty version is stored as null
    · rw [if_pos h, if_neg (by simpa using h)]
    · rw [if_neg h, if_pos (decide_eq_true h)]
  have hfields : e.json.fields = .ok
      { employeeId := some (.string e.key.employeeId)
        locationId := some (.string e.key.locationId)
        leaveType := some (.string e.key.leaveType)
        totalBalance := some (.number e.balance.totalBalance)
        version := some (.string e.version) } := rfl
  unfold Json.record?
  rw [hfields]
  dsimp only [HcmFields.identifiers, Option.bind_some, hcmTotalOf]
  rw [hversion]
  rfl

/-- A batch on the records of all rows meets each row with its own record. -/
theorem batchRun_entries (rt : ExactRuntime) (hs : s.batchRunning = false)
    (hkeys : (entries.map (·.key)).Nodup) :
    ∃ s', BatchRun rt (some (batchSync entries)) s s' ∧ s'.batchRunning = false ∧
      (∀ key, viewOf s key = none → (∀ e ∈ entries, e.key ≠ key) → viewOf s' key = none) ∧
      ∀ e ∈ entries, ∀ v, viewOf s e.key = some v →
        viewOf s' e.key = some (v.reconciled e.balance.totalBalance) := by
  have hsnapshot : (entries.map HcmEntry.json).map (Json.record? rt) =
      (entries.map HcmEntry.record).map some := by
    rw [List.map_map, List.map_map]
    exact List.map_congr_left fun e _ => record?_entry e
  -- every entry of the snapshot is a record
  obtain ⟨s', hrun, hfree, hviews⟩ := batchRun_views hs hsnapshot
  have hrecordKeys : (entries.map HcmEntry.record).map (·.key) = entries.map (·.key) := by
    rw [List.map_map]
    rfl
  refine ⟨s', hrun, hfree, fun key hnone habsent => ?_, fun e he v hv => ?_⟩
  -- a key that is not in the snapshot gets no total
  · have htotals : totalsOf (entries.map HcmEntry.record) key = [] := by
      unfold totalsOf
      rw [List.filter_eq_nil_iff.mpr fun r hr => ?_]
      · rfl
      · obtain ⟨e, he, rfl⟩ := List.mem_map.mp hr
        have hne : e.record.key ≠ key := habsent e he
        simpa using hne
    rw [hviews, hnone]
    unfold afterRun
    rw [htotals]
    dsimp only [List.foldl_nil]
    split <;> rfl
  -- the key names one entry, so the totals of its records are that one
  · have hmem : e.record ∈ entries.map HcmEntry.record := List.mem_map_of_mem he
    have htotals : totalsOf (entries.map HcmEntry.record) e.key = [e.balance.totalBalance] := by
      have h := totalsOf_present (r := e.record) (by rw [hrecordKeys]; exact hkeys) hmem
      exact h
    have hjoined : e.key.joined ∈ (entries.map HcmEntry.record).map (·.key.joined) :=
      List.mem_map.mpr ⟨_, hmem, rfl⟩
    rw [hviews, hv]
    unfold afterRun
    rw [htotals, if_pos hjoined, rt.exact]
    exact congrArg some (reconciledIn_exact v _)

end Entries

section Approved

variable {w : World} {puts : List PutBalance} {key : BalanceKey}

theorem takenBy_perm {puts' : List PutBalance} (h : puts.Perm puts') :
    takenBy puts key = takenBy puts' key :=
  ((h.filter _).map _).sum_eq

/-- The PUTs that were subtracted are those of the approved requests. -/
theorem puts_perm (hknown : ∀ put ∈ puts, PutKnown w put)
    (hdeducted : w.hcm.deducted = puts.map fun p => (p.referenceId, p.daysRequested))
    (hack : AcknowledgedOnce w) :
    puts.Perm ((w.store.requests.filter (·.status = .approved)).map (·.put)) := by
  set approved := w.store.requests.filter (·.status = .approved) with happroved
  have hids : (puts.map (·.referenceId)).Perm (approved.map (·.id)) := by
    have h := hack
    unfold AcknowledgedOnce at h
    rw [hdeducted, List.map_map] at h
    exact h
  -- both lists are read off the table by their ids
  let putOf : ℕ → Option PutBalance := fun id => (w.store.request? id).map (·.put)
  have hread {r : TimeOffRequest} (hr : r ∈ approved) : putOf r.id = some r.put :=
    congrArg (Option.map _) (Store.request?_eq_some.mpr ⟨List.mem_of_mem_filter hr, rfl⟩)
  have hputs : puts.map some = (puts.map (·.referenceId)).map putOf := by
    rw [List.map_map]
    refine List.map_congr_left fun put hput => ?_
    obtain ⟨r, hr, hid⟩ := List.mem_map.mp
      (hids.mem_iff.mp (List.mem_map.mpr ⟨put, hput, rfl⟩))
    rw [Function.comp_apply, ← hid, hread hr,
      (hknown put hput).2 r (List.mem_of_mem_filter hr) hid]
  have happr : (approved.map (·.put)).map some = (approved.map (·.id)).map putOf := by
    rw [List.map_map, List.map_map]
    exact List.map_congr_left fun r hr => (hread hr).symm
  refine (List.map_perm_map_iff (Option.some_injective _)).mp ?_
  rw [hputs, happr]
  exact hids.map putOf

/-- So they take the approved days of a key from its record. -/
theorem takenBy_eq_daysIn (hknown : ∀ put ∈ puts, PutKnown w put)
    (hdeducted : w.hcm.deducted = puts.map fun p => (p.referenceId, p.daysRequested))
    (hack : AcknowledgedOnce w)
    (hkeys : ∀ r ∈ w.store.requests, getBalanceKey r.balanceKey = getBalanceKey key →
      r.balanceKey = key) :
    takenBy puts key = w.store.daysIn .approved key := by
  -- the requests that read as approved are those the messages were for
  have hfilter : w.store.requests.filter (fun r =>
        decide (getBalanceKey r.put.key = getBalanceKey key) && decide (r.status = .approved)) =
      w.store.requests.filter fun r => r.balanceKey = key && r.status = .approved := by
    refine List.filter_congr fun r hr => ?_
    have hiff : getBalanceKey r.put.key = getBalanceKey key ↔ r.balanceKey = key :=
      ⟨hkeys r hr, fun h => h ▸ rfl⟩
    simp only [hiff]
  -- each approved request was acknowledged by one deduction
  rw [takenBy_perm (puts_perm hknown hdeducted hack)]
  unfold takenBy Store.daysIn
  rw [List.filter_map, List.map_map, List.filter_filter, ← hfilter]
  rfl

/-- The approved days of a key are zero just when none of its requests is approved. -/
theorem daysIn_approved_pos {s : Store} {r : TimeOffRequest}
    (hdays : ∀ r ∈ s.requests, 1 ≤ r.daysRequested) (hr : r ∈ s.requests)
    (happroved : r.status = .approved) : 1 ≤ s.daysIn .approved r.balanceKey := by
  have hterm : r.daysIn .approved r.balanceKey = r.daysRequested := if_pos ⟨rfl, happroved⟩
  have hnonneg : ∀ x ∈ s.requests.map (·.daysIn .approved r.balanceKey), 0 ≤ x := by
    intro x hx
    obtain ⟨r', hr', rfl⟩ := List.mem_map.mp hx
    have hdays' := hdays r' hr'
    -- every other term of the sum is nonnegative
    unfold TimeOffRequest.daysIn
    split <;> linarith
  calc 1 ≤ r.daysRequested := hdays r hr
    _ = r.daysIn .approved r.balanceKey := hterm.symm
    _ ≤ (s.requests.map (·.daysIn .approved r.balanceKey)).sum :=
      List.single_le_sum hnonneg _ (List.mem_map_of_mem hr)
    _ = s.daysIn .approved r.balanceKey := daysIn_eq_sum.symm

theorem daysIn_approved_zero {s : Store} (h : ∀ r ∈ s.requests, r.status ≠ .approved) :
    s.daysIn .approved key = 0 := by
  unfold Store.daysIn
  rw [List.filter_eq_nil_iff.mpr fun r hr => by simpa using fun _ => h r hr]
  rfl

end Approved

section Sides

variable {w : World} {start : Store} {h₀ : MockHcm} {b : EmployeeBalance} {v : RowView}

/-- The rows both sides were seeded with. -/
def Store.seeds (s : Store) : List (BalanceKey × ℚ) :=
  s.balances.map fun b => (b.key, b.totalBalance)

theorem InStep.keys_eq (h : InStep start.seeds h₀ w) :
    w.store.balances.map (·.key) = start.balances.map (·.key) := by
  have hfst := congrArg (List.map Prod.fst) h.charged.rows
  unfold Store.seeds at hfst
  rw [List.map_map, List.map_map] at hfst
  exact hfst

/-- The total of the HCM is the local one less the used days. -/
theorem InStep.hcmTotal (h : InStep start.seeds h₀ w) (hseed : SeededAlike start h₀)
    (hack : AcknowledgedOnce w) (hb : b ∈ w.store.balances) :
    (w.hcm.balance b.key).totalBalance = b.totalBalance - b.usedBalance := by
  -- no two rows are the same balance for the HCM
  have hnodup : (w.store.balances.map fun b => getBalanceKey b.key).Nodup := by
    have hkeys := congrArg (List.map getBalanceKey) h.keys_eq
    rw [List.map_map, List.map_map] at hkeys
    exact hkeys ▸ hseed.keys
  -- the HCM started with the total of the row
  have hseeded : (h₀.balance b.key).totalBalance = b.totalBalance := by
    have hmem : (b.key, b.totalBalance) ∈ start.seeds :=
      h.charged.rows ▸ List.mem_map_of_mem (f := fun b => (b.key, b.totalBalance)) hb
    obtain ⟨b₀, hb₀, heq⟩ := List.mem_map.mp hmem
    obtain ⟨hkey, htotal⟩ := Prod.mk.inj heq
    rw [← hkey, ← htotal]
    exact (hseed.rows b₀ hb₀).2.2.2
  obtain ⟨puts, hknown, hsub⟩ := h.subtracted
  -- a request with the HCM's key belongs to this row
  have hkeys : ∀ r ∈ w.store.requests, getBalanceKey r.balanceKey = getBalanceKey b.key →
      r.balanceKey = b.key := by
    intro r hr heq
    obtain ⟨b', hb', hkey⟩ := h.charged.books.owned r hr
    rw [← hkey] at heq ⊢
    rw [List.inj_on_of_nodup_map hnodup hb' hb heq]
  calc (w.hcm.balance b.key).totalBalance
      = (h₀.balance b.key).totalBalance - takenBy puts b.key := hsub.totals b.key
    _ = b.totalBalance - w.store.daysIn .approved b.key := by
      rw [hseeded, takenBy_eq_daysIn hknown hsub.deducted hack hkeys]
    _ = b.totalBalance - b.usedBalance := by rw [(h.charged.books.accounted b hb).used]

theorem localTotal_of_books (h : Books w.store) (hb : b ∈ w.store.balances) :
    b.view.localTotal = b.totalBalance := by
  rw [← (h.accounted b hb).total]
  change b.usedBalance + b.pendingBalance + b.availableBalance = _
  ring

/-- A record with the local total changes no amount. -/
theorem reconciled_localTotal : (v.reconciled v.localTotal).amounts = v.amounts ∧
    (v.reconciled v.localTotal).localTotal = v.localTotal ∧
      (v.reconciled v.localTotal).hasDiscrepancy = false := by
  have hpos := driftTolerance_pos
  have hup : ¬ v.localTotal + driftTolerance < v.localTotal := by linarith
  have hdown : ¬ v.localTotal < v.localTotal - driftTolerance := by linarith
  unfold RowView.reconciled
  rw [if_neg hup, if_neg hdown]
  exact ⟨rfl, rfl, rfl⟩

theorem flag_exact (hcmTotal : ℚ) :
    (v.reconciled hcmTotal).hasDiscrepancy = true ↔ hcmTotal < v.localTotal - driftTolerance := by
  have hpos := driftTolerance_pos
  unfold RowView.reconciled
  -- the surplus and the shortfall exclude each other
  by_cases hup : v.localTotal + driftTolerance < hcmTotal
  · have hdown : ¬ hcmTotal < v.localTotal - driftTolerance := by linarith
    rw [if_pos hup]
    exact ⟨nofun, fun h => absurd h hdown⟩
  · rw [if_neg hup]
    by_cases hdown : hcmTotal < v.localTotal - driftTolerance
    · rw [if_pos hdown]
      exact ⟨fun _ => hdown, fun _ => rfl⟩
    · rw [if_neg hdown]
      exact ⟨nofun, fun h => absurd h hdown⟩

/-- A record that exceeds the local total by more than the tolerance grants the excess. -/
theorem reconciled_granted {g : ℚ} (hg : 1 / 100 < g) (hsum : v.localTotal = v.totalBalance) :
    (v.reconciled (v.localTotal + g)).amounts = (v.granted g).amounts := by
  have hup : v.localTotal + driftTolerance < v.localTotal + g := by
    unfold driftTolerance
    linarith
  have hgain : v.localTotal + g - v.localTotal = g := add_sub_cancel_left _ _
  unfold RowView.reconciled RowView.granted RowView.amounts
  rw [if_pos hup, hgain, hsum]

/-- What the next batch makes of a row that the last one left with the total of its record. -/
theorem amounts_after_grant {r : AnniversaryRefresh} {version : String} {e : HcmEntry}
    (hg : 1 / 100 < r.grantDays) (htotal : e.balance.totalBalance = v.localTotal)
    (hsum : v.localTotal = v.totalBalance) :
    (v.reconciled (r.grant version e).balance.totalBalance).amounts =
      if r.selects e.key then (v.granted r.grantDays).amounts else v.amounts := by
  unfold AnniversaryRefresh.grant
  by_cases hselects : r.selects e.key = true
  · rw [if_pos hselects, if_pos hselects]
    dsimp only
    rw [htotal]
    exact reconciled_granted hg hsum
  · rw [if_neg hselects, if_neg hselects, htotal]
    exact reconciled_localTotal.1

end Sides

section Claim

variable {rt : ExactRuntime} {w : World} {start : Store} {h₀ : MockHcm} {s : BatchState}
  {versions : BalanceKey → String}

theorem values_keys (versions : BalanceKey → String) (h : InStep start.seeds h₀ w) :
    (w.hcm.values versions (start.balances.map (·.key))).map (·.key) =
      w.store.balances.map (·.key) := by
  unfold MockHcm.values
  rw [List.map_map, ← h.keys_eq]
  exact List.map_id _

theorem value_mem (h : InStep start.seeds h₀ w) {b : EmployeeBalance}
    (hb : b ∈ w.store.balances) :
    ⟨b.key, w.hcm.balance b.key, versions b.key⟩ ∈
      w.hcm.values versions (start.balances.map (·.key)) := by
  rw [← h.keys_eq]
  exact List.mem_map_of_mem (List.mem_map_of_mem hb)

theorem viewOf_row (hstore : s.store = w.store) {b : EmployeeBalance} (hb : b ∈ w.store.balances) :
    viewOf s b.key = some b.view := by
  unfold viewOf
  rw [hstore, Store.balance?_eq_some.mpr ⟨hb, rfl⟩]
  rfl

/-- A key has a row, or is none of the batch. -/
theorem viewOf_cases (versions : BalanceKey → String) (h : InStep start.seeds h₀ w)
    (hstore : s.store = w.store) (key : BalanceKey) :
    (∃ b ∈ w.store.balances, b.key = key) ∨ viewOf s key = none ∧
      ∀ e ∈ w.hcm.values versions (start.balances.map (·.key)), e.key ≠ key := by
  cases hb : w.store.balance? key with
  | some b => exact .inl ⟨b, Store.balance?_eq_some.mp hb⟩
  | none =>
    refine .inr ⟨?_, fun e he hkey => ?_⟩
    -- no row, and no entry of the HCM for a key without one
    · unfold viewOf
      rw [hstore, hb]
      rfl
    · have hmem : e.key ∈ w.store.balances.map (·.key) :=
        values_keys versions h ▸ List.mem_map_of_mem he
      obtain ⟨b, hbmem, hbkey⟩ := List.mem_map.mp hmem
      rw [Store.balance?_eq_some.mpr ⟨hbmem, hbkey.trans hkey⟩] at hb
      cases hb

theorem not_agree_of_approved (h : InStep start.seeds h₀ w) (hseed : SeededAlike start h₀)
    (hack : AcknowledgedOnce w) (hs : s.batchRunning = false) (hstore : s.store = w.store)
    {r : TimeOffRequest} (hr : r ∈ w.store.requests) (happroved : r.status = .approved) :
    ¬ TotalsAgree rt s (w.hcm.values versions (start.balances.map (·.key))) := by
  rintro ⟨s', hrun, hunchanged, _⟩
  have hkeys : ((w.hcm.values versions (start.balances.map (·.key))).map (·.key)).Nodup := by
    rw [values_keys versions h]
    exact w.store.balanceKeys
  obtain ⟨s₁, hrun₁, _, _, hviews⟩ := batchRun_entries rt hs hkeys
  obtain rfl := hrun.unique hrun₁
  obtain ⟨b, hb, hkey⟩ := h.charged.books.owned r hr
  have hused : 1 ≤ b.usedBalance := by
    rw [(h.charged.books.accounted b hb).used, hkey]
    exact daysIn_approved_pos h.charged.days hr happroved
  have hview := hviews _ (value_mem h hb) b.view (viewOf_row hstore hb)
  -- the HCM is below the local total by the used days, more than the tolerance
  have hflag : (b.view.reconciled (w.hcm.balance b.key).totalBalance).hasDiscrepancy = true := by
    rw [flag_exact, h.hcmTotal hseed hack hb, localTotal_of_books h.charged.books hb]
    unfold driftTolerance
    linarith
  have hunflagged := (hunchanged b.key).2 _ hview
  rw [hflag] at hunflagged
  cases hunflagged

theorem agree_of_none_approved (h : InStep start.seeds h₀ w) (hseed : SeededAlike start h₀)
    (hack : AcknowledgedOnce w) (hs : s.batchRunning = false) (hstore : s.store = w.store)
    (hnone : ∀ r ∈ w.store.requests, r.status ≠ .approved) :
    TotalsAgree rt s (w.hcm.values versions (start.balances.map (·.key))) := by
  set entries := w.hcm.values versions (start.balances.map (·.key)) with hentries
  have hkeys : (entries.map (·.key)).Nodup := by
    rw [hentries, values_keys versions h]
    exact w.store.balanceKeys
  have htotal {b : EmployeeBalance} (hb : b ∈ w.store.balances) :
      (w.hcm.balance b.key).totalBalance = b.view.localTotal := by
    have hused : b.usedBalance = 0 :=
      (h.charged.books.accounted b hb).used.trans (daysIn_approved_zero hnone)
    rw [h.hcmTotal hseed hack hb, localTotal_of_books h.charged.books hb, hused, sub_zero]
  obtain ⟨s', hrun, hfree, hnew, hviews⟩ := batchRun_entries rt hs hkeys
  -- the first batch meets every row with its own total
  have hfirst {b : EmployeeBalance} (hb : b ∈ w.store.balances) :
      viewOf s' b.key = some (b.view.reconciled b.view.localTotal) := by
    have hview := hviews _ (value_mem h hb) b.view (viewOf_row hstore hb)
    rw [← htotal hb]
    exact hview
  have hunchanged : Unchanged s s' := by
    intro key
    rcases viewOf_cases versions h hstore key with ⟨b, hb, rfl⟩ | ⟨hno, habsent⟩
    · obtain ⟨hamounts, _, hflag⟩ := reconciled_localTotal (v := b.view)
      rw [hfirst hb, viewOf_row hstore hb]
      refine ⟨congrArg some hamounts, ?_⟩
      rintro v ⟨⟩
      exact hflag
    · rw [hnew key hno habsent, hno]
      exact ⟨rfl, fun v hv => nomatch hv⟩
  refine ⟨s', hrun, hunchanged, fun r version entries' later hg hgrant => ?_⟩
  have hentries' : entries' = entries.map (r.grant version) := by
    unfold AnniversaryRefresh.run at hgrant
    rw [if_neg (by linarith)] at hgrant
    exact (Except.ok.inj hgrant).symm
  have hgrantKey (e : HcmEntry) : (r.grant version e).key = e.key := by
    unfold AnniversaryRefresh.grant
    split <;> rfl
  have hkeys' : (entries'.map (·.key)).Nodup := by
    rw [hentries', List.map_map]
    exact (List.map_congr_left fun e _ => hgrantKey e) ▸ hkeys
  obtain ⟨s'', hrun', _, hnew', hviews'⟩ :=
    batchRun_entries rt (s := { s' with clock := later }) hfree hkeys'
  refine ⟨s'', hrun', fun key => ?_⟩
  rcases viewOf_cases versions h hstore key with ⟨b, hb, rfl⟩ | ⟨hno, habsent⟩
  · have hmem : r.grant version ⟨b.key, w.hcm.balance b.key, versions b.key⟩ ∈ entries' := by
      rw [hentries']
      exact List.mem_map_of_mem (value_mem h hb)
    have hview := hviews' _ hmem _ ((congrArg (viewOf s') (hgrantKey _)).trans (hfirst hb))
    rw [hgrantKey] at hview
    obtain ⟨hamounts, hlocal, _⟩ := reconciled_localTotal (v := b.view)
    have hsum : (b.view.reconciled b.view.localTotal).localTotal =
        (b.view.reconciled b.view.localTotal).totalBalance := by
      calc (b.view.reconciled b.view.localTotal).localTotal
          = b.view.localTotal := hlocal
        _ = b.totalBalance := localTotal_of_books h.charged.books hb
        _ = (b.view.reconciled b.view.localTotal).totalBalance :=
          (congrArg Prod.fst hamounts).symm
    change (viewOf s'' b.key).map (·.amounts) = _
    rw [hview, hfirst hb]
    exact congrArg some (amounts_after_grant hg ((htotal hb).trans hlocal.symm) hsum)
  · have hno' := hnew key hno habsent
    rw [hno', hnew' key hno' ?_]
    · rfl
    · intro e he
      rw [hentries'] at he
      obtain ⟨e₀, he₀, rfl⟩ := List.mem_map.mp he
      rw [hgrantKey]
      exact habsent e₀ he₀

theorem inStep_start (start : Store) (clock nextId : ℕ) (hcmBalances : List (String × HcmBalance))
    (hseed : SeededAlike start (.init hcmBalances)) :
    InStep start.seeds (.init hcmBalances) (World.init start clock nextId (.init hcmBalances)) := by
  -- no requests yet, so that nothing is owed or deducted
  have hnone (r : TimeOffRequest) (hr : r ∈ start.requests) : False := by
    rw [hseed.requests] at hr
    exact List.not_mem_nil hr
  have hzero (status : RequestStatus) (key : BalanceKey) : start.daysIn status key = 0 := by
    unfold Store.daysIn
    rw [hseed.requests]
    rfl
  have hbooks : Books start := by
    refine ⟨fun b hb => ?_, fun r hr => (hnone r hr).elim⟩
    obtain ⟨havailable, hpending, hused, _⟩ := hseed.rows b hb
    exact ⟨by rw [havailable, hpending, hused]; ring, hpending.trans (hzero _ _).symm,
      hused.trans (hzero _ _).symm⟩
  have hnothing : Subtracted (.init hcmBalances) (.init hcmBalances) [] :=
    ⟨rfl, fun key => (sub_zero _).symm⟩
  exact ⟨⟨hbooks, fun r hr => (hnone r hr).elim, rfl⟩, fun r hr => (hnone r hr).elim, rfl,
    fun _ _ h => (nomatch h), fun _ h => (nomatch h), [], fun _ h => (nomatch h), hnothing⟩

/-- After any run in which the HCM has acknowledged every approval once and nothing else, the
batch finds the totals of both sides equal just when no request is approved. -/
theorem totals_agree_iff (cfg : Config) (rt : ExactRuntime) (start : Store) (clock nextId : ℕ)
    (hcmBalances : List (String × HcmBalance)) (versions : BalanceKey → String)
    (hseed : SeededAlike start (.init hcmBalances))
    {P : Pool Call Op Op.Resp Err (Option RequestBody) World}
    (hP : (atomicMachine cfg).Reach (fun _ a => startsLeave a = true)
      (Pool.init (World.init start clock nextId (.init hcmBalances))) P)
    (hack : AcknowledgedOnce P.shared) {s : BatchState} (hs : s.batchRunning = false)
    (hstore : s.store = P.shared.store) :
    TotalsAgree rt s (P.shared.hcm.values versions (start.balances.map (·.key))) ↔
      ∀ r ∈ P.shared.store.requests, r.status ≠ .approved := by
  have hinv : InStep start.seeds (.init hcmBalances) P.shared :=
    ((sidesInStep cfg start.seeds (.init hcmBalances)).good_of_reach
      (inStep_start start clock nextId hcmBalances hseed) hP).inv
  -- an approval that was acknowledged shows up as a drift, whatever the batch does
  constructor
  · intro hagree r hr happroved
    exact not_agree_of_approved hinv hseed hack hs hstore hr happroved hagree
  · exact agree_of_none_approved hinv hseed hack hs hstore

end Claim

section Runs

/-- A row of ten days, and its record at the HCM. -/
def tenSeeded : Store := .ofBalance ⟨plainKey, 10, 10, 0, 0, 10, none, none, false, none, 1⟩

def tenAtHcm : List (String × HcmBalance) := [(getBalanceKey plainKey, ⟨10, 10⟩)]

theorem tenSeeded_alike : SeededAlike tenSeeded (.init tenAtHcm) :=
  ⟨rfl, by decide +kernel, by decide⟩

def tenSeededWorld : World := .init tenSeeded 1000 1 (.init tenAtHcm)

/-- A request of two days is created. -/
def createdRun : List (Act Call AtomicChoice Env) :=
  .start (.create (plainDto "2030-01-07" "2030-01-08") "key-1") ::
    (steps 5 ++ [committed 7] ++ steps 2).map (.step 0)

/-- The row the approval hands to the notifier. -/
def approvedRow : TimeOffRequest where
  id := 1
  idempotencyKey := "key-1"
  employeeId := "EMP123"
  locationId := "LOC1"
  leaveType := "VACATION"
  startDate := "2030-01-07"
  endDate := "2030-01-08"
  daysRequested := 2
  status := .approved
  requestedBy := "EMP123"
  approvedBy := some "MGR1"
  approvedAt := some 1000
  rejectionReason := none
  notes := none
  hcmValidated := false
  hcmSyncStatus := .pending
  hcmSyncAttempts := 0
  hcmLastSyncAt := none
  version := 2
  createdAt := 1000
  updatedAt := 1000

/-- It is approved, and the HCM acknowledges the approval. -/
def approvedRun : List (Act Call AtomicChoice Env) :=
  createdRun ++
    [.start (.approve 1 "MGR1"), .step 1 (committed 6),
      .start (.task (.notifyApprovalToHcm approvedRow 1)),
      .step 2 (.op (.validated (some ⟨some true⟩))), .step 2 (.op .go), .env (.deliver 0),
      .step 2 (.op .delivered), .step 2 (.op .go), .step 2 (.op .go)]

theorem approvedRun_runs : ((atomicMachine plainConfig).run (fun _ a => startsLeave a = true)
    (Pool.init tenSeededWorld) approvedRun).isSome = true := by
  decide +kernel

/-- The process after a run, when a batch is about to start. -/
def BatchState.after (w : World) : BatchState := ⟨w.store, w.clock, false, [], 0⟩

/-- The approval of two days, acknowledged by the HCM, is what the batch then flags. -/
theorem acknowledged_approval_flagged :
    ¬ ∀ (cfg : Config) (rt : ExactRuntime) (start : Store) (clock nextId : ℕ)
      (hcmBalances : List (String × HcmBalance)) (versions : BalanceKey → String),
      SeededAlike start (.init hcmBalances) →
      ∀ P : Pool Call Op Op.Resp Err (Option RequestBody) World,
        (atomicMachine cfg).Reach (fun _ a => startsLeave a = true)
          (Pool.init (World.init start clock nextId (.init hcmBalances))) P →
        AcknowledgedOnce P.shared → ∀ s : BatchState, s.batchRunning = false →
        s.store = P.shared.store →
        TotalsAgree rt s (P.shared.hcm.values versions (start.balances.map (·.key))) := by
  intro h
  have hrun := (Option.some_get approvedRun_runs).symm
  have hP : (atomicMachine plainConfig).Reach (fun _ a => startsLeave a = true)
      (Pool.init tenSeededWorld) _ := Machine.reach_of_run .refl hrun
  have hack : AcknowledgedOnce
      (((atomicMachine plainConfig).run (fun _ a => startsLeave a = true) (Pool.init tenSeededWorld)
        approvedRun).get approvedRun_runs).shared := by
    unfold AcknowledgedOnce
    decide +kernel
  have hinv : InStep tenSeeded.seeds (.init tenAtHcm) _ :=
    ((sidesInStep plainConfig tenSeeded.seeds (.init tenAtHcm)).good_of_reach
      (inStep_start tenSeeded 1000 1 tenAtHcm tenSeeded_alike) hP).inv
  have happroved : ∃ r ∈ (((atomicMachine plainConfig).run (fun _ a => startsLeave a = true)
      (Pool.init tenSeededWorld) approvedRun).get approvedRun_runs).shared.store.requests,
      r.status = .approved := by
    decide +kernel
  obtain ⟨r, hr, hstatus⟩ := happroved
  have hagree := h plainConfig plainExact tenSeeded 1000 1 tenAtHcm (fun _ => "v1")
    tenSeeded_alike
    _ hP hack (.after _) rfl rfl
  exact not_agree_of_approved hinv tenSeeded_alike hack rfl rfl hr hstatus hagree

theorem createdRun_runs : ((atomicMachine plainConfig).run (fun _ a => startsLeave a = true)
    (Pool.init tenSeededWorld) createdRun).isSome = true := by
  decide +kernel

/-- While the request is pending the totals agree. -/
theorem totals_agree_pending :
    ∃ P, (atomicMachine plainConfig).run (fun _ a => startsLeave a = true)
        (Pool.init tenSeededWorld) createdRun = some P ∧
      TotalsAgree plainExact (.after P.shared)
        (P.shared.hcm.values (fun _ => "v1") (tenSeeded.balances.map (·.key))) := by
  have hrun := (Option.some_get createdRun_runs).symm
  refine ⟨_, hrun, ?_⟩
  have hack : AcknowledgedOnce
      (((atomicMachine plainConfig).run (fun _ a => startsLeave a = true) (Pool.init tenSeededWorld)
        createdRun).get createdRun_runs).shared := by
    unfold AcknowledgedOnce
    decide +kernel
  exact (totals_agree_iff plainConfig plainExact tenSeeded 1000 1 tenAtHcm (fun _ => "v1")
    tenSeeded_alike (Machine.reach_of_run .refl hrun) hack rfl rfl).mpr (by decide +kernel)

end Runs

end TimeOff
