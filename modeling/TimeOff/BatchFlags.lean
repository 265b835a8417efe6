import TimeOff.BatchOrder
import TimeOff.DriftRounding

/-! When the discrepancy flags are exact after a run: the loop over the records finds rows by
three columns and compares their totals in doubles, the omission pass finds them by one joined
text. -/
namespace TimeOff

section Flags

/-- The payload leaves the row out, or its total there is too low. -/
def Discrepant (records : List SnapshotRecord) (b : EmployeeBalance) : Prop :=
  (∀ r ∈ records, r.key ≠ b.key) ∨
    ∃ r ∈ records, r.key = b.key ∧
      r.total < b.usedBalance + b.pendingBalance + b.availableBalance - 1 / 100

/-- The flags of the rows that were there, after a run. -/
def FlagsExact (rt : Runtime) (s : BatchState) (snapshot : List Json) : Prop :=
  ∃ s', BatchRun rt (some (.array snapshot)) s s' ∧
    ∀ b ∈ s.store.balances, ∃ b', s'.store.balance? b.key = some b' ∧
      (b'.hasDiscrepancy = true ↔ Discrepant (snapshot.filterMap (Json.record? rt)) b)

variable {rt : Runtime} {records : List SnapshotRecord} {b : EmployeeBalance} {v : RowView}

theorem totalsOf_absent (h : ∀ r ∈ records, r.key ≠ b.key) : totalsOf records b.key = [] := by
  unfold totalsOf
  rw [List.filter_eq_nil_iff.mpr fun r hr => by simpa using h r hr]
  rfl

theorem totalsOf_present {r : SnapshotRecord} (hkeys : (records.map (·.key)).Nodup)
    (hr : r ∈ records) : totalsOf records r.key = [r.total] := by
  have hfilter : records.filter (fun r' => r'.key = r.key) = [r] := by
    induction records with
    | nil => exact absurd hr List.not_mem_nil
    | cons r' records ih =>
      obtain ⟨hnotin, hrest⟩ := List.nodup_cons.mp hkeys
      rcases List.mem_cons.mp hr with rfl | hr
      -- the record is the head, so no later one has its key
      · have hnone : records.filter (fun r' => r'.key = r.key) = [] :=
          List.filter_eq_nil_iff.mpr fun r' hr' => by
            have hne : r'.key ≠ r.key := fun h => hnotin (List.mem_map.mpr ⟨r', hr', h⟩)
            simpa using hne
        rw [List.filter_cons_of_pos (by simp), hnone]
      · have hne : r'.key ≠ r.key := fun h => hnotin (List.mem_map.mpr ⟨r, hr, h.symm⟩)
        rw [List.filter_cons_of_neg (by simpa using hne)]
        exact ih hrest hr
  unfold totalsOf
  rw [hfilter]
  rfl

theorem flag_reconciled (fl : ℚ → ℚ) (b : EmployeeBalance) (hcmTotal : ℚ) :
    (b.view.reconciledIn fl hcmTotal).hasDiscrepancy = true ↔ FallsShort fl b hcmTotal := by
  have hdrift : b.view.driftIn fl hcmTotal = b.driftIn fl hcmTotal := rfl
  unfold RowView.reconciledIn FallsShort
  rw [hdrift]
  by_cases habs : |b.driftIn fl hcmTotal| ≤ fl driftTolerance
  · rw [if_pos habs]
    exact ⟨nofun, fun h => absurd habs (not_le.mpr h.1)⟩
  · rw [if_neg habs]
    -- the surplus and the shortfall exclude each other
    by_cases hup : fl driftTolerance < b.driftIn fl hcmTotal
    · rw [if_pos hup]
      exact ⟨nofun, fun h => absurd hup (not_lt.mpr h.2)⟩
    · rw [if_neg hup]
      exact ⟨fun _ => ⟨not_le.mp habs, not_lt.mp hup⟩, fun _ => rfl⟩

/-- The code sees of a row what there is to see: the omission pass does not take another triple
for it, and where a record has its triple the doubles compare as the numbers do. -/
structure FlagSeen (rt : Runtime) (records : List SnapshotRecord) (b : EmployeeBalance) : Prop where
  joined : b.hasDiscrepancy = false → (∀ r ∈ records, r.key ≠ b.key) →
    b.key.joined ∉ records.map (·.key.joined)
  compared : ∀ r ∈ records, r.key = b.key → (FallsShort rt.round b r.total ↔
    r.total < b.usedBalance + b.pendingBalance + b.availableBalance - 1 / 100)

instance (rt : Runtime) (records : List SnapshotRecord) (b : EmployeeBalance) :
    Decidable (FlagSeen rt records b) :=
  decidable_of_iff
    ((b.hasDiscrepancy = false → (∀ r ∈ records, r.key ≠ b.key) →
      b.key.joined ∉ records.map (·.key.joined)) ∧
      ∀ r ∈ records, r.key = b.key → (FallsShort rt.round b r.total ↔
        r.total < b.usedBalance + b.pendingBalance + b.availableBalance - 1 / 100))
    ⟨fun h => ⟨h.1, h.2⟩, fun h => ⟨h.joined, h.compared⟩⟩

/-- The row of `b` after a run says whether it is discrepant, if that was to be seen. -/
theorem afterRun_flag (rt : Runtime) (b : EmployeeBalance) (hkeys : (records.map (·.key)).Nodup) :
    ∃ v, afterRun rt records b.key (some b.view) = some v ∧
      ((v.hasDiscrepancy = true ↔ Discrepant records b) ↔ FlagSeen rt records b) := by
  by_cases habsent : ∀ r ∈ records, r.key ≠ b.key
  · have hdiscrepant : Discrepant records b := .inl habsent
    have hnone (r : SnapshotRecord) (hr : r ∈ records) (hkey : r.key = b.key) {P : Prop} : P :=
      absurd hkey (habsent r hr)
    unfold afterRun
    rw [totalsOf_absent habsent]
    -- without a record only a joined text can keep the omission pass off the row
    by_cases hjoined : b.key.joined ∈ records.map (·.key.joined)
    · rw [if_pos hjoined]
      refine ⟨b.view, rfl, ?_⟩
      change (b.hasDiscrepancy = true ↔ _) ↔ _
      cases hflag : b.hasDiscrepancy with
      | true =>
        refine ⟨fun _ => ⟨fun h => ?_, fun r hr hkey => hnone r hr hkey⟩,
          fun _ => ⟨fun _ => hdiscrepant, fun _ => rfl⟩⟩
        rw [hflag] at h
        cases h
      | false =>
        exact ⟨fun h => (nomatch h.mpr hdiscrepant),
          fun h => absurd hjoined (h.joined hflag habsent)⟩
    · rw [if_neg hjoined]
      exact ⟨b.view.omitted, rfl,
        fun _ => ⟨fun _ _ => hjoined, fun r hr hkey => hnone r hr hkey⟩,
        fun _ => ⟨fun _ => hdiscrepant, fun _ => rfl⟩⟩
  -- a record of the key: its total decides, and the key is in the set
  · obtain ⟨r, hr, hkey⟩ : ∃ r ∈ records, r.key = b.key := by
      by_contra hnone
      exact habsent fun r hr h => hnone ⟨r, hr, h⟩
    have htotals : totalsOf records b.key = [r.total] := by
      rw [← hkey]
      exact totalsOf_present hkeys hr
    have hjoined : b.key.joined ∈ records.map (·.key.joined) :=
      List.mem_map.mpr ⟨r, hr, congrArg _ hkey⟩
    -- the key names one record
    have hone : ∀ r' ∈ records, r'.key = b.key → r' = r := fun r' hr' hkey' =>
      List.inj_on_of_nodup_map hkeys hr' hr (hkey'.trans hkey.symm)
    have hdiscrepant : Discrepant records b ↔
        r.total < b.usedBalance + b.pendingBalance + b.availableBalance - 1 / 100 := by
      constructor
      · rintro (h | ⟨r', hr', hkey', hlow⟩)
        · exact absurd h habsent
        · rw [hone r' hr' hkey'] at hlow
          exact hlow
      · exact fun hlow => .inr ⟨r, hr, hkey, hlow⟩
    unfold afterRun
    rw [htotals, if_pos hjoined]
    refine ⟨b.view.reconciledIn rt.round r.total, rfl, ?_⟩
    rw [flag_reconciled, hdiscrepant]
    constructor
    · refine fun hiff => ⟨fun _ h => absurd h habsent, fun r' hr' hkey' => ?_⟩
      rw [hone r' hr' hkey']
      exact hiff
    · exact fun h => h.compared r hr hkey

/-- After a run on well-formed records of distinct triples, the flags of the rows that were there
are exact if and only if no row without a flag is left out by the payload while another triple of
it joins to the same text, and the totals of the rows that it has compare with theirs in doubles
as they do in numbers. In columns of two decimals that can fail for a total of one hundredth less
only. -/
theorem flags_exact_iff (rt : Runtime) (s : BatchState) (snapshot : List Json)
    (hs : s.batchRunning = false) (hrecords : ∀ j ∈ snapshot, (j.record? rt).isSome)
    (hkeys : ((snapshot.filterMap (Json.record? rt)).map (·.key)).Nodup) :
    (FlagsExact rt s snapshot ↔
      ∀ b ∈ s.store.balances, FlagSeen rt (snapshot.filterMap (Json.record? rt)) b) ∧
    (rt.round = Double.round → ∀ b ∈ s.store.balances, b.InColumns →
      ∀ r ∈ snapshot.filterMap (Json.record? rt), InColumn r.total →
        r.total ≠ b.usedBalance + b.pendingBalance + b.availableBalance - 1 / 100 →
        (FallsShort rt.round b r.total ↔
          r.total < b.usedBalance + b.pendingBalance + b.availableBalance - 1 / 100)) := by
  obtain ⟨s', hrun, _, hviews⟩ := batchRun_views hs (records_of_isSome hrecords)
  have hrow : ∀ b ∈ s.store.balances, ∃ b', s'.store.balance? b.key = some b' ∧
      ((b'.hasDiscrepancy = true ↔ Discrepant (snapshot.filterMap (Json.record? rt)) b) ↔
        FlagSeen rt (snapshot.filterMap (Json.record? rt)) b) := by
    intro b hb
    -- the row is read through its columns, before the run and after it
    have hview : viewOf s b.key = some b.view :=
      congrArg (Option.map EmployeeBalance.view) (Store.balance?_eq_some.mpr ⟨hb, rfl⟩)
    obtain ⟨v, hv, hiff⟩ := afterRun_flag rt b hkeys
    have hafter := hviews b.key
    rw [hview, hv] at hafter
    obtain ⟨b', hb', rfl⟩ := Option.map_eq_some_iff.mp hafter
    exact ⟨b', hb', hiff⟩
  refine ⟨⟨?_, fun h => ⟨s', hrun, fun b hb => ?_⟩⟩, fun hdouble b _ hcolumns r _ htotal hne => ?_⟩
  · rintro ⟨s'', hrun', hexact⟩ b hb
    -- the run is unique, so the two speak of the same rows
    obtain rfl := hrun.unique hrun'
    obtain ⟨b', hb', hiff⟩ := hrow b hb
    obtain ⟨b'', hb'', hflag⟩ := hexact b hb
    obtain rfl : b' = b'' := Option.some.inj (hb'.symm.trans hb'')
    exact hiff.mp hflag
  · obtain ⟨b', hb', hiff⟩ := hrow b hb
    exact ⟨b', hb', hiff.mpr (h b hb)⟩
  · rw [hdouble]
    exact fallsShort_iff_of_ne hcolumns htotal hne

/-- The row of one employee, and a record of another: their triples join to the same text. -/
def rowTriple : BalanceKey := ⟨"A|B", "C", "VACATION"⟩

def recordTriple : BalanceKey := ⟨"A", "B|C", "VACATION"⟩

/-- The flag that a run leaves on the row of `key`. -/
def flagAfter (s : BatchState) (snapshot : List Json) (key : BalanceKey) : Option (Option Bool) :=
  ((runBatchSync doubleRuntime).eval (BatchOp.quiet doubleRuntime (some (.array snapshot))) s).map
    fun r => (r.2.store.balance? key).map (·.hasDiscrepancy)

theorem flag_of_exact {s : BatchState} {snapshot : List Json} {b : EmployeeBalance} {flag : Bool}
    (h : FlagsExact doubleRuntime s snapshot) (hb : b ∈ s.store.balances)
    (hflag : flagAfter s snapshot b.key = some (some flag)) :
    flag = true ↔ Discrepant (snapshot.filterMap (Json.record? doubleRuntime)) b := by
  obtain ⟨s', hrun, hexact⟩ := h
  obtain ⟨b', hb', hiff⟩ := hexact b hb
  unfold flagAfter at hflag
  rw [hrun, Option.map_some, hb', Option.map_some, Option.some.injEq, Option.some.injEq] at hflag
  rw [← hflag]
  exact hiff

/-- The payload leaves the row out and the run does not flag it. -/
theorem joined_texts_hide_row :
    ¬ FlagsExact doubleRuntime (batchOfTen rowTriple) [recordJson recordTriple 5] := by
  intro h
  have hrun : flagAfter (batchOfTen rowTriple) [recordJson recordTriple 5] rowTriple =
      some (some false) := by decide +kernel
  have hflag := flag_of_exact h List.mem_cons_self hrun
  have habsent : Discrepant ([recordJson recordTriple 5].filterMap (Json.record? doubleRuntime))
      (batchOfTen rowTriple).store.balances[0] := by
    left
    decide +kernel
  cases hflag.mpr habsent

/-- The process with one row: 15.1 days available and one pending. -/
def batchOfTenths : BatchState :=
  ⟨.ofBalance ⟨plainKey, 161 / 10, 151 / 10, 1, 0, 161 / 10, none, none, false, none, 1⟩, 0, false,
    [], 0⟩

/-- A total of 16.09 is 0.01 below the row, and in doubles by a little more: it is flagged. -/
theorem hundredth_less_flagged :
    ¬ FlagsExact doubleRuntime batchOfTenths [recordJson plainKey (1609 / 100)] := by
  intro h
  have hrun : flagAfter batchOfTenths [recordJson plainKey (1609 / 100)] plainKey =
      some (some true) := by decide +kernel
  have hflag := flag_of_exact h List.mem_cons_self hrun
  have hexact : ¬ Discrepant ([recordJson plainKey (1609 / 100)].filterMap
      (Json.record? doubleRuntime)) batchOfTenths.store.balances[0] := by
    unfold Discrepant
    decide +kernel
  exact hexact (hflag.mp rfl)

theorem flags_inexact :
    ¬ FlagsExact doubleRuntime (batchOfTen rowTriple) [recordJson recordTriple 5] ∧
      ¬ FlagsExact doubleRuntime batchOfTenths [recordJson plainKey (1609 / 100)] :=
  ⟨joined_texts_hide_row, hundredth_less_flagged⟩

/-- The payload has less than the row. -/
theorem flags_exact_short_record :
    FlagsExact doubleRuntime (batchOfTen plainKey) [recordJson plainKey 9] :=
  (flags_exact_iff doubleRuntime (batchOfTen plainKey) [recordJson plainKey 9] rfl
    (by decide +kernel) (by decide +kernel)).1.mpr (by decide +kernel)

end Flags

end TimeOff
