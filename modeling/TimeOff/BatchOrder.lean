import Mathlib.Tactic.Linarith
import TimeOff.BatchRows

/-! Running the batch again on the same payload changes nothing, and the order of the records
does not matter: each row is a level that its records can raise, with a mark of the last one. -/
namespace TimeOff

section Views

/-- The fields of a row that the batch writes, without the times. -/
structure RowView where
  totalBalance : ℚ
  availableBalance : ℚ
  pendingBalance : ℚ
  usedBalance : ℚ
  hcmTotalBalance : ℚ
  hasDiscrepancy : Bool
  discrepancyAmount : Option ℚ
  deriving DecidableEq, Repr

def EmployeeBalance.view (b : EmployeeBalance) : RowView where
  totalBalance := b.totalBalance
  availableBalance := b.availableBalance
  pendingBalance := b.pendingBalance
  usedBalance := b.usedBalance
  hcmTotalBalance := b.hcmTotalBalance
  hasDiscrepancy := b.hasDiscrepancy
  discrepancyAmount := b.discrepancyAmount

/-- `localTotal` of `_reconcileRecord`. -/
def RowView.localTotal (v : RowView) : ℚ := v.usedBalance + v.pendingBalance + v.availableBalance

/-- `drift` of `_reconcileRecord`. -/
def RowView.driftIn (fl : ℚ → ℚ) (hcmTotal : ℚ) (v : RowView) : ℚ :=
  fl (fl hcmTotal - fl (fl (fl v.usedBalance + fl v.pendingBalance) + fl v.availableBalance))

/-- The three cases of `_reconcileRecord` on a row. -/
def RowView.reconciledIn (fl : ℚ → ℚ) (hcmTotal : ℚ) (v : RowView) : RowView :=
  if |v.driftIn fl hcmTotal| ≤ fl driftTolerance then
    { v with
      hcmTotalBalance := hcmTotal
      hasDiscrepancy := false
      discrepancyAmount := none }
  else if fl driftTolerance < v.driftIn fl hcmTotal then
    { v with
      totalBalance := hcmTotal
      availableBalance := fl (fl v.availableBalance + v.driftIn fl hcmTotal)
      hcmTotalBalance := hcmTotal
      hasDiscrepancy := false
      discrepancyAmount := none }
  else
    { v with
      hcmTotalBalance := hcmTotal
      hasDiscrepancy := true
      discrepancyAmount := some |v.driftIn fl hcmTotal| }

/-- In exact numbers, by the HCM total against the local one. -/
def RowView.reconciled (hcmTotal : ℚ) (v : RowView) : RowView :=
  -- the HCM has more than the amounts explain
  if v.localTotal + driftTolerance < hcmTotal then
    { v with
      totalBalance := hcmTotal
      availableBalance := v.availableBalance + (hcmTotal - v.localTotal)
      hcmTotalBalance := hcmTotal
      hasDiscrepancy := false
      discrepancyAmount := none }
  -- it has less
  else if hcmTotal < v.localTotal - driftTolerance then
    { v with
      hcmTotalBalance := hcmTotal
      hasDiscrepancy := true
      discrepancyAmount := some (v.localTotal - hcmTotal) }
  else
    { v with
      hcmTotalBalance := hcmTotal
      hasDiscrepancy := false
      discrepancyAmount := none }

def RowView.first (hcmTotal : ℚ) : RowView := ⟨hcmTotal, hcmTotal, 0, 0, hcmTotal, false, none⟩

def RowView.omitted (v : RowView) : RowView :=
  { v with
    hasDiscrepancy := true
    discrepancyAmount := some (v.discrepancyAmount.getD 0) }

theorem driftTolerance_pos : 0 < driftTolerance := by
  norm_num [driftTolerance]

theorem view_reconciled (fl : ℚ → ℚ) (now : ℕ) (r : SnapshotRecord) (row : EmployeeBalance) :
    (reconciledRow fl now r row).view = row.view.reconciledIn fl r.total := by
  have hdrift : driftIn fl row (some r.total) = some (row.view.driftIn fl r.total) := rfl
  -- the comparisons of the model are those of ℚ, as no operand is `NaN`
  have hle : Num.le (Num.abs (some (row.view.driftIn fl r.total))) (some (fl driftTolerance)) =
      true ↔ |row.view.driftIn fl r.total| ≤ fl driftTolerance := decide_eq_true_iff
  have hlt : Num.lt (some (fl driftTolerance)) (some (row.view.driftIn fl r.total)) = true ↔
      fl driftTolerance < row.view.driftIn fl r.total := decide_eq_true_iff
  unfold reconciledRow reconcilePatchIn RowView.reconciledIn
  dsimp only
  rw [hdrift]
  by_cases habs : |row.view.driftIn fl r.total| ≤ fl driftTolerance
  · rw [if_pos (hle.mpr habs), if_pos habs]
    rfl
  rw [if_neg (mt hle.mp habs), if_neg habs]
  by_cases hup : fl driftTolerance < row.view.driftIn fl r.total
  · rw [if_pos (hlt.mpr hup), if_pos hup]
    rfl
  · rw [if_neg (mt hlt.mp hup), if_neg hup]
    rfl

theorem reconciledIn_exact (v : RowView) (hcmTotal : ℚ) :
    v.reconciledIn id hcmTotal = v.reconciled hcmTotal := by
  have hdrift : v.driftIn id hcmTotal = hcmTotal - v.localTotal := rfl
  have hpos := driftTolerance_pos
  unfold RowView.reconciledIn RowView.reconciled
  rw [hdrift, id_eq, id_eq, id_eq]
  by_cases habs : |hcmTotal - v.localTotal| ≤ driftTolerance
  · obtain ⟨hlow, hhigh⟩ := abs_le.mp habs
    have hup : ¬ v.localTotal + driftTolerance < hcmTotal := by linarith
    have hdown : ¬ hcmTotal < v.localTotal - driftTolerance := by linarith
    rw [if_pos habs, if_neg hup, if_neg hdown]
  · rw [if_neg habs]
    -- outside the tolerance the drift has a sign, which the second test finds
    by_cases hup : v.localTotal + driftTolerance < hcmTotal
    · have hraise : driftTolerance < hcmTotal - v.localTotal := by linarith
      rw [if_pos hraise, if_pos hup]
    · have hkeep : ¬ driftTolerance < hcmTotal - v.localTotal := by linarith
      have hdown : hcmTotal < v.localTotal - driftTolerance := by
        by_contra hdown
        exact habs (abs_le.mpr ⟨by linarith, by linarith⟩)
      -- the source stores the absolute value
      have hamount : |hcmTotal - v.localTotal| = v.localTotal - hcmTotal := by
        have hneg : hcmTotal - v.localTotal ≤ 0 := by linarith
        exact (abs_of_nonpos hneg).trans (neg_sub _ _)
      rw [if_neg hkeep, if_neg hup, if_pos hdown, hamount]

end Views

section Levels

variable {v : RowView} {pending used t : ℚ} {ts : List ℚ} {s : ℚ × ℚ × Bool × Option ℚ}

/-- What the last record leaves beside the level `T`: the HCM total, and the discrepancy. -/
def levelMark (T t : ℚ) : ℚ × Bool × Option ℚ :=
  if t < T - driftTolerance then (t, true, some (T - t)) else (t, false, none)

/-- A row whose amounts add up to its total, the level `s.1`. -/
def RowView.ofLevel (pending used : ℚ) (s : ℚ × ℚ × Bool × Option ℚ) : RowView where
  totalBalance := s.1
  availableBalance := s.1 - pending - used
  pendingBalance := pending
  usedBalance := used
  hcmTotalBalance := s.2.1
  hasDiscrepancy := s.2.2.1
  discrepancyAmount := s.2.2.2

def RowView.AddsUp (v : RowView) : Prop :=
  v.availableBalance + v.pendingBalance + v.usedBalance = v.totalBalance

theorem RowView.AddsUp.eq_ofLevel (h : v.AddsUp) :
    v = .ofLevel v.pendingBalance v.usedBalance
      (v.totalBalance, v.hcmTotalBalance, v.hasDiscrepancy, v.discrepancyAmount) := by
  have havailable : v.totalBalance - v.pendingBalance - v.usedBalance = v.availableBalance := by
    have hsum : v.availableBalance + v.pendingBalance + v.usedBalance = v.totalBalance := h
    linarith
  unfold ofLevel
  dsimp only
  rw [havailable]

theorem addsUp_first : (RowView.first t).AddsUp := by
  change t + 0 + 0 = t
  linarith

/-- On a row that adds up, a record is a step of the ratchet. -/
theorem reconciled_ofLevel :
    (RowView.ofLevel pending used s).reconciled t =
      .ofLevel pending used (Ratchet.mark driftTolerance levelMark s t) := by
  have hlevel : (RowView.ofLevel pending used s).localTotal = s.1 := by
    change used + pending + (s.1 - pending - used) = s.1
    linarith
  have hpos := driftTolerance_pos
  unfold RowView.reconciled Ratchet.mark Ratchet.raise levelMark
  rw [hlevel]
  -- a raise by more than the tolerance is not marked as a drop
  by_cases hup : s.1 + driftTolerance < t
  · have hdown : ¬ t < t - driftTolerance := by linarith
    have havailable : s.1 - pending - used + (t - s.1) = t - pending - used := by linarith
    rw [if_pos hup, if_pos hup, if_neg hdown]
    unfold RowView.ofLevel
    dsimp only
    rw [havailable]
  · rw [if_neg hup, if_neg hup]
    by_cases hdown : t < s.1 - driftTolerance
    · rw [if_pos hdown, if_pos hdown]
      rfl
    · rw [if_neg hdown, if_neg hdown]
      rfl

theorem foldl_reconciled_ofLevel :
    ts.foldl (fun v t => v.reconciled t) (RowView.ofLevel pending used s) =
      .ofLevel pending used (ts.foldl (Ratchet.mark driftTolerance levelMark) s) := by
  induction ts generalizing s with
  | nil => rfl
  | cons t ts ih => rw [List.foldl_cons, List.foldl_cons, reconciled_ofLevel, ih]

theorem foldl_reconciled_twice (h : v.AddsUp) :
    ts.foldl (fun v t => v.reconciled t) (ts.foldl (fun v t => v.reconciled t) v) =
      ts.foldl (fun v t => v.reconciled t) v := by
  rw [h.eq_ofLevel, foldl_reconciled_ofLevel, foldl_reconciled_ofLevel,
    Ratchet.foldl_mark_twice driftTolerance_pos.le]

/-- A new row is as if its first record had met it already. -/
theorem reconciled_first : (RowView.first t).reconciled t = .first t := by
  have hlocal : (RowView.first t).localTotal = t := by
    change 0 + 0 + t = t
    linarith
  have hpos := driftTolerance_pos
  have hup : ¬ t + driftTolerance < t := by linarith
  have hdown : ¬ t < t - driftTolerance := by linarith
  unfold RowView.reconciled
  rw [hlocal, if_neg hup, if_neg hdown]
  rfl

end Levels

section Runs

variable {rt : Runtime} {records : List SnapshotRecord} {key : BalanceKey} {v : Option RowView}

/-- What a record makes of the row of its key. -/
def recordView (fl : ℚ → ℚ) (takes : Bool) (hcmTotal : ℚ) : Option RowView → Option RowView
  | some v => some (v.reconciledIn fl hcmTotal)
  | none => if takes then some (.first hcmTotal) else none

def totalsOf (records : List SnapshotRecord) (key : BalanceKey) : List ℚ :=
  (records.filter fun r => r.key = key).map (·.total)

/-- What a run makes of a row. -/
def afterRun (rt : Runtime) (records : List SnapshotRecord) (key : BalanceKey)
    (v : Option RowView) : Option RowView :=
  let v' := (totalsOf records key).foldl (fun v t => recordView rt.round (rt.takes key) t v) v
  if key.joined ∈ records.map (·.key.joined) then v' else v'.map .omitted

def viewOf (s : BatchState) (key : BalanceKey) : Option RowView :=
  (s.store.balance? key).map (·.view)

theorem view_recordRow (now : ℕ) (r : SnapshotRecord) (b : Option EmployeeBalance) :
    (recordRow rt now key r b).map (·.view) =
      recordView rt.round (rt.takes key) r.total (b.map (·.view)) := by
  cases b with
  | some row => exact congrArg some (view_reconciled rt.round now r row)
  | none =>
    unfold recordRow recordView
    cases rt.takes key <;> rfl

theorem view_foldl_recordRow (now : ℕ) (rs : List SnapshotRecord) (b : Option EmployeeBalance) :
    (rs.foldl (fun b r => recordRow rt now key r b) b).map (·.view) =
      (rs.map (·.total)).foldl (fun v t => recordView rt.round (rt.takes key) t v)
        (b.map (·.view)) := by
  induction rs generalizing b with
  | nil => rfl
  | cons r rs ih => rw [List.foldl_cons, List.map_cons, List.foldl_cons, ih, view_recordRow]

theorem recordsOf_key :
    (((records.map fun r => (r.key, r)).filter fun e => e.1 = key).map Prod.snd) =
      records.filter fun r => r.key = key := by
  induction records with
  | nil => rfl
  | cons r records ih =>
    by_cases h : r.key = key
    · rw [List.map_cons, List.filter_cons_of_pos (by simpa using h), List.map_cons, ih,
        List.filter_cons_of_pos (by simpa using h)]
    · rw [List.map_cons, List.filter_cons_of_neg (by simpa using h), ih,
        List.filter_cons_of_neg (by simpa using h)]

theorem view_batchRows {snapshot : List Json}
    (h : snapshot.map (Json.record? rt) = records.map some) (now : ℕ) (s : Store) :
    ((batchRows rt now snapshot (records.map (·.key.joined)) s).1.balance? key).map (·.view) =
      afterRun rt records key ((s.balance? key).map (·.view)) := by
  -- the loop alone, on the row of this key
  have hloop : ((batchLoop rt now snapshot s).store.balance? key).map (·.view) =
      (totalsOf records key).foldl (fun v t => recordView rt.round (rt.takes key) t v)
        ((s.balance? key).map (·.view)) := by
    rw [balance?_batchLoop h, Keyed.foldl_put_at, recordsOf_key, view_foldl_recordRow]
    rfl
  have hkey : ∀ b, (batchLoop rt now snapshot s).store.balance? key = some b → b.key = key :=
    fun b hb => (Store.balance?_eq_some.mp hb).2
  unfold afterRun
  rw [balance?_batchRows, ← hloop]
  cases hb : (batchLoop rt now snapshot s).store.balance? key with
  | none =>
    dsimp only
    split <;> rfl
  | some b =>
    dsimp only [Option.map_some]
    rw [hkey b hb]
    split
    · rfl
    · rfl

/-- A run on well-formed records, row by row. -/
theorem batchRun_views {snapshot : List Json} {s : BatchState} (hs : s.batchRunning = false)
    (h : snapshot.map (Json.record? rt) = records.map some) :
    ∃ s', BatchRun rt (some (.array snapshot)) s s' ∧ s'.batchRunning = false ∧
      ∀ key, viewOf s' key = afterRun rt records key (viewOf s key) := by
  obtain ⟨s', log, hrun, hended, hstore, _⟩ := runBatchSync_eval hs (hcmKeySetOf_records h)
  refine ⟨s', hrun, hended.free, fun key => ?_⟩
  unfold viewOf
  rw [hstore]
  exact view_batchRows h s.clock s.store

theorem foldl_recordView_some (takes : Bool) (ts : List ℚ) (w : RowView) :
    ts.foldl (fun v t => recordView id takes t v) (some w) =
      some (ts.foldl (fun v t => v.reconciled t) w) := by
  induction ts generalizing w with
  | nil => rfl
  | cons t ts ih =>
    have hstep : recordView id takes t (some w) = some (w.reconciled t) :=
      congrArg some (reconciledIn_exact w t)
    rw [List.foldl_cons, hstep, ih]
    rfl

theorem foldl_recordView_twice (takes : Bool) (ts : List ℚ) (h : ∀ w, v = some w → w.AddsUp) :
    ts.foldl (fun v t => recordView id takes t v)
        (ts.foldl (fun v t => recordView id takes t v) v) =
      ts.foldl (fun v t => recordView id takes t v) v := by
  cases v with
  | some w =>
    rw [foldl_recordView_some, foldl_recordView_some, foldl_reconciled_twice (h w rfl)]
  | none =>
    cases ts with
    | nil => rfl
    | cons t ts =>
      cases takes with
      | false =>
        have hnone : ∀ us : List ℚ,
            us.foldl (fun v t => recordView id false t v) none = none := by
          intro us
          induction us with
          | nil => rfl
          | cons u us ih => exact ih
        rw [hnone, hnone]
      | true =>
        -- the first record makes the row and would find it settled
        have hfirst : recordView id true t (some (.first t)) = some (.first t) :=
          congrArg some ((reconciledIn_exact _ t).trans reconciled_first)
        have hmade : (t :: ts).foldl (fun v t => recordView id true t v) none =
            (t :: ts).foldl (fun v t => recordView id true t v) (some (.first t)) := by
          rw [List.foldl_cons, List.foldl_cons, hfirst]
          rfl
        rw [hmade, foldl_recordView_some, foldl_recordView_some,
          foldl_reconciled_twice addsUp_first]

theorem joined_mem_of_totalsOf (h : totalsOf records key ≠ []) :
    key.joined ∈ records.map (·.key.joined) := by
  obtain ⟨t, ht⟩ := List.exists_mem_of_ne_nil _ h
  obtain ⟨r, hr, _⟩ := List.mem_map.mp ht
  obtain ⟨hr, hkey⟩ := List.mem_filter.mp hr
  exact List.mem_map.mpr ⟨r, hr, congrArg _ (of_decide_eq_true hkey)⟩

theorem afterRun_twice (hexact : rt.round = id) (h : ∀ w, v = some w → w.AddsUp) :
    afterRun rt records key (afterRun rt records key v) = afterRun rt records key v := by
  unfold afterRun
  rw [hexact]
  dsimp only
  by_cases hkey : key.joined ∈ records.map (·.key.joined)
  · rw [if_pos hkey, if_pos hkey]
    exact foldl_recordView_twice _ _ h
  · have htotals : totalsOf records key = [] := by
      by_contra hne
      exact hkey (joined_mem_of_totalsOf hne)
    rw [if_neg hkey, if_neg hkey, htotals]
    cases v <;> rfl

/-- Records of distinct triples may come in any order. -/
theorem afterRun_perm {records' : List SnapshotRecord} (hperm : records.Perm records')
    (hkeys : (records.map (·.key)).Nodup) :
    afterRun rt records key v = afterRun rt records' key v := by
  have hfold (rs : List SnapshotRecord) :
      (totalsOf rs key).foldl (fun v t => recordView rt.round (rt.takes key) t v) v =
        (rs.map fun r => (r.key, r)).foldl
          (Keyed.put fun k r v => recordView rt.round (rt.takes k) r.total v) (fun _ => v) key := by
    rw [Keyed.foldl_put_at, recordsOf_key]
    exact List.foldl_map
  have hfst : ((records.map fun r => (r.key, r)).map Prod.fst).Nodup := by
    rw [List.map_map]
    exact hkeys
  have hjoined : key.joined ∈ records.map (·.key.joined) ↔
      key.joined ∈ records'.map (·.key.joined) := (hperm.map _).mem_iff
  unfold afterRun
  rw [hfold records, hfold records', Keyed.foldl_put_perm hfst (hperm.map _)]
  simp only [hjoined]

theorem records_of_isSome {snapshot : List Json} (h : ∀ j ∈ snapshot, (j.record? rt).isSome) :
    snapshot.map (Json.record? rt) = (snapshot.filterMap (Json.record? rt)).map some := by
  induction snapshot with
  | nil => rfl
  | cons j snapshot ih =>
    obtain ⟨hj, hrest⟩ := List.forall_mem_cons.mp h
    obtain ⟨r, hr⟩ := Option.isSome_iff_exists.mp hj
    rw [List.map_cons, List.filterMap_cons, hr, ih hrest]
    rfl

/-- In exact arithmetic, on a snapshot of well-formed records and rows whose amounts add up, a
second run leaves every row as the first one did, and with distinct triples so does a run on the
records in any other order. -/
theorem batch_settles (rt : ExactRuntime) (s : BatchState) (snapshot : List Json)
    (hs : s.batchRunning = false)
    (hsum : ∀ b ∈ s.store.balances,
      b.availableBalance + b.pendingBalance + b.usedBalance = b.totalBalance)
    (hrecords : ∀ j ∈ snapshot, (j.record? rt).isSome) :
    (∀ later, ∃ s₁ s₂, BatchRun rt (some (.array snapshot)) s s₁ ∧
      BatchRun rt (some (.array snapshot)) { s₁ with clock := later } s₂ ∧
      ∀ key, viewOf s₂ key = viewOf s₁ key) ∧
    (((snapshot.filterMap (Json.record? rt)).map (·.key)).Nodup →
      ∀ snapshot', snapshot.Perm snapshot' → ∀ later, ∃ s₁ s₂,
        BatchRun rt (some (.array snapshot)) s s₁ ∧
        BatchRun rt (some (.array snapshot')) { s with clock := later } s₂ ∧
        ∀ key, viewOf s₂ key = viewOf s₁ key) := by
  have hsnapshot := records_of_isSome hrecords
  obtain ⟨s₁, hrun₁, hs₁, hviews₁⟩ := batchRun_views hs hsnapshot
  refine ⟨fun later => ?_, fun hkeys snapshot' hperm later => ?_⟩
  · obtain ⟨s₂, hrun₂, _, hviews₂⟩ :=
      batchRun_views (s := { s₁ with clock := later }) hs₁ hsnapshot
    refine ⟨s₁, s₂, hrun₁, hrun₂, fun key => ?_⟩
    have hagain : viewOf { s₁ with clock := later } key = viewOf s₁ key := rfl
    rw [hviews₂, hagain, hviews₁]
    refine afterRun_twice rt.exact fun w hw => ?_
    obtain ⟨b, hb, rfl⟩ := Option.map_eq_some_iff.mp hw
    exact hsum b (Store.balance?_eq_some.mp hb).1
  · have hrecords' : ∀ j ∈ snapshot', (j.record? rt).isSome :=
      fun j hj => hrecords j (hperm.mem_iff.mpr hj)
    obtain ⟨s₂, hrun₂, _, hviews₂⟩ := batchRun_views (s := { s with clock := later }) hs
      (records_of_isSome hrecords')
    refine ⟨s₁, s₂, hrun₁, hrun₂, fun key => ?_⟩
    have hsame : viewOf { s with clock := later } key = viewOf s key := rfl
    rw [hviews₂, hsame, hviews₁]
    exact (afterRun_perm (hperm.filterMap _) hkeys).symm

/-- An element of the payload. -/
def recordJson (key : BalanceKey) (totalBalance : ℚ) : Json :=
  .object [("employeeId", .string key.employeeId), ("locationId", .string key.locationId),
    ("leaveType", .string key.leaveType), ("totalBalance", .number totalBalance)]

/-- The process with one row, of 10 days: 8 available and 2 pending. -/
def batchOfTen (key : BalanceKey) : BatchState :=
  ⟨.ofBalance ⟨key, 10, 8, 2, 0, 10, none, none, false, none, 1⟩, 0, false, [], 0⟩

/-- Two records of one row: the first raises it, the second is then below it. -/
theorem batch_settles_raise_and_flag :
    ∃ s₁ s₂, BatchRun plainRuntime (some (.array [recordJson plainKey 12, recordJson plainKey 9]))
        (batchOfTen plainKey) s₁ ∧
      BatchRun plainRuntime (some (.array [recordJson plainKey 12, recordJson plainKey 9]))
        { s₁ with clock := 5 } s₂ ∧
      ∀ key, viewOf s₂ key = viewOf s₁ key :=
  (batch_settles plainExact (batchOfTen plainKey)
    [recordJson plainKey 12, recordJson plainKey 9] rfl (by decide +kernel)
    (by decide +kernel)).1 5

end Runs

end TimeOff
