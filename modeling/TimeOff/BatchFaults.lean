import TimeOff.BatchOrder

/-! What malformed elements of the payload do to a run. The loop over the records catches what
one of them throws; the keys, which are built before it, and the reading of a row by fewer than
three columns are outside its reach. -/
namespace TimeOff

section Definitions

variable (rt : Runtime)

/-- An object with the three identifiers and a numeric total. -/
def Json.wellFormed (j : Json) : Bool :=
  match j.fields with
  | .error _ => false
  | .ok r =>
    r.identifiers.isSome &&
      match hcmTotalOf rt r.totalBalance with
      | .ok (some _) => true
      | _ => false

def malformedCount (snapshot : List Json) : ℕ :=
  (snapshot.filter fun j => !j.wellFormed rt).length

def amountsOf (s : BatchState) (key : BalanceKey) : Option (ℚ × ℚ × ℚ × ℚ) :=
  (s.store.balance? key).map fun b =>
    (b.totalBalance, b.availableBalance, b.pendingBalance, b.usedBalance)

/-- The rows that the payload leaves out, by their joined keys. -/
def leftOut (s : BatchState) (snapshot : List Json) : ℕ :=
  ((s.store.balances.map (·.key.joined)).filter fun key =>
    key ∉ snapshot.filterMap fun j => (j.joinedKey rt).toOption).length

/-- The run on the payload and the run on its well-formed elements alone. -/
structure SideBySide (s : BatchState) (snapshot : List Json) (s₁ s₂ : BatchState)
    (log₁ log₂ : SyncLog) : Prop where
  all : BatchRun rt (some (.array snapshot)) s s₁
  allLog : s₁.syncLogs = s.syncLogs ++ [log₁]
  wellFormed : BatchRun rt (some (.array (snapshot.filter (Json.wellFormed rt)))) s s₂
  wellFormedLog : s₂.syncLogs = s.syncLogs ++ [log₂]

/-- Both runs leave the same amounts, and apart from the rows that a payload leaves out each
malformed element is one more failure. -/
def Isolated (s : BatchState) (snapshot : List Json) : Prop :=
  ∃ s₁ s₂ log₁ log₂, SideBySide rt s snapshot s₁ s₂ log₁ log₂ ∧
    (∀ key, amountsOf s₁ key = amountsOf s₂ key) ∧
    log₁.recordsFailed + leftOut rt s₂ (snapshot.filter (Json.wellFormed rt)) =
      log₂.recordsFailed + leftOut rt s₁ snapshot + malformedCount rt snapshot

/-- With rows of these keys, the element is rejected: a field has no text, its total is not a
number, or it finds no row and cannot make one. -/
def Refused (has : BalanceKey → Prop) (j : Json) : Prop :=
  ∀ d, j.demand rt = some d →
    (∀ key, has key → d.columns.admits key = false) ∧
      ∀ key, d.columns.key? = some key → rt.takes key = false

/-- A well-formed element makes the row of this key, if it is not there. -/
def Makes (j : Json) (key : BalanceKey) : Prop :=
  ∃ r, j.record? rt = some r ∧ r.key = key ∧ rt.takes key = true

/-- Each malformed element is rejected when its turn comes: with the rows that were there and
those of the well-formed elements before it. -/
def RefusedInTurn : (BalanceKey → Prop) → List Json → Prop
  | _, [] => True
  | has, j :: rest =>
    (j.wellFormed rt = false → Refused rt has j) ∧
      RefusedInTurn (fun key => has key ∨ Makes rt j key) rest

end Definitions

section Turns

variable {rt : Runtime} {now : ℕ} {s : Store} {j : Json}

def Store.has (s : Store) (key : BalanceKey) : Prop := s.balance? key ≠ none

theorem has_of_mem {b : EmployeeBalance} (hb : b ∈ s.balances) : s.has b.key := by
  intro hnone
  rw [Store.balance?_eq_some.mpr ⟨hb, rfl⟩] at hnone
  cases hnone

theorem wellFormed_of_record {r : SnapshotRecord} (h : j.record? rt = some r) :
    j.wellFormed rt = true := by
  obtain ⟨fields, hr, hkey, htotal, _⟩ := record?_eq h
  unfold Json.wellFormed
  rw [hr]
  dsimp only
  rw [hkey, htotal]
  rfl

theorem columns_of_key? {columns : Columns} {key : BalanceKey} (h : columns.key? = some key) :
    columns = Columns.of key := by
  obtain ⟨e, he, h⟩ := Option.bind_eq_some_iff.mp h
  obtain ⟨l, hl, h⟩ := Option.bind_eq_some_iff.mp h
  obtain ⟨t, ht, rfl⟩ := Option.map_eq_some_iff.mp h
  cases columns
  cases he
  cases hl
  cases ht
  rfl

/-- A demand that finds no row is rejected unless it has all three columns of a key that the
table takes. -/
theorem write_new {d : Demand} (hrow : s.rowFor rt d.columns = none) :
    d.write rt now s = none ↔ ∀ key, d.columns.key? = some key → rt.takes key = false := by
  unfold Demand.write
  rw [hrow]
  cases hkey : d.columns.key? with
  | none => exact ⟨fun _ key h => (nomatch h), fun _ => rfl⟩
  -- the columns name a whole key, which no row has
  | some key =>
    have hfree : s.balance? key = none := by
      have hof : s.rowFor rt (Columns.of key) = s.balance? key := rowFor_of
      rw [← hof, ← columns_of_key? hkey, hrow]
    have hrow' : (BatchState.newBalance key (some d.total) now d.version).row =
        some (firstRow now ⟨key, d.total, d.version⟩) := rfl
    rw [Option.bind_some, hrow', Option.bind_some]
    -- the `CHECK` of the column decides
    cases htakes : rt.takes key with
    | false =>
      refine ⟨fun _ key' hkey' => ?_, fun _ => rfl⟩
      obtain rfl : key = key' := Option.some.inj hkey'
      exact htakes
    | true =>
      obtain ⟨s', hs'⟩ : ∃ s', s.insertBalance (firstRow now ⟨key, d.total, d.version⟩) =
          some s' := ⟨_, dif_pos hfree⟩
      rw [if_pos rfl, hs']
      refine ⟨fun h => (nomatch h), fun h => ?_⟩
      rw [h key rfl] at htakes
      cases htakes

/-- A write is rejected exactly when its element is refused by the rows that are there. -/
theorem write_eq_none : j.write rt now s = none ↔ Refused rt s.has j := by
  unfold Json.write Refused
  cases hd : j.demand rt with
  | none => exact ⟨fun _ d h => (nomatch h), fun _ => rfl⟩
  | some d =>
    rw [Option.bind_some]
    constructor
    -- a demand that finds a row is never refused
    · intro h d' hd'
      obtain rfl : d = d' := Option.some.inj hd'
      have hrow : s.rowFor rt d.columns = none := by
        cases hrow : s.rowFor rt d.columns with
        | none => rfl
        | some row =>
          unfold Demand.write at h
          rw [hrow] at h
          cases h
      refine ⟨fun key hkey => ?_, (write_new hrow).mp h⟩
      obtain ⟨b, hb⟩ := Option.ne_none_iff_exists'.mp hkey
      obtain ⟨hmem, rfl⟩ := Store.balance?_eq_some.mp hb
      exact rowFor_eq_none.mp hrow b hmem
    · intro h
      obtain ⟨hrows, hkeys⟩ := h d rfl
      -- no row matches, so the write would be an insert
      have hrow : s.rowFor rt d.columns = none :=
        rowFor_eq_none.mpr fun b hb => hrows b.key (has_of_mem hb)
      exact (write_new hrow).mpr hkeys

theorem applied_of_none (h : j.write rt now s = none) : j.applied rt now s = s := by
  unfold Json.applied
  rw [h]

theorem wellFormed_eq (hj : j.wellFormed rt = true) :
    ∃ r key total, j.fields = .ok r ∧ r.identifiers = some key ∧
      hcmTotalOf rt r.totalBalance = .ok (some total) := by
  unfold Json.wellFormed at hj
  cases hr : j.fields with
  | error e =>
    rw [hr] at hj
    cases hj
  | ok r =>
    rw [hr] at hj
    obtain ⟨hkey, htotal⟩ := Bool.and_eq_true_iff.mp hj
    obtain ⟨key, hkey⟩ := Option.isSome_iff_exists.mp hkey
    -- the last test of `wellFormed` is that the total is a number
    split at htotal
    · next total htotal' => exact ⟨r, key, total, rfl, hkey, htotal'⟩
    · cases htotal

theorem joinedKey_of_wellFormed (hj : j.wellFormed rt = true) :
    ∃ key, j.joinedKey rt = .ok key := by
  obtain ⟨r, key, total, hr, hkey, _⟩ := wellFormed_eq hj
  exact ⟨key.joined, joinedKey_of_identifiers hr hkey⟩

/-- A well-formed element that is no record has a version without a text. -/
theorem write_of_no_record (hj : j.wellFormed rt = true) (hrecord : j.record? rt = none) :
    j.write rt now s = none := by
  obtain ⟨r, key, total, hr, hkey, htotal⟩ := wellFormed_eq hj
  unfold Json.record? at hrecord
  rw [hr] at hrecord
  dsimp only at hrecord
  rw [hkey, Option.bind_some, htotal] at hrecord
  -- the version is read last; one that throws leaves nothing to write
  cases hversion : versionOf rt r.version with
  | ok version =>
    rw [hversion] at hrecord
    cases hrecord
  | error e =>
    have hdemand : j.demand rt = none := by
      unfold Json.demand HcmFields.demand
      rw [hr]
      dsimp only
      rw [htotal, columns_of_identifiers hkey, hversion]
    unfold Json.write
    rw [hdemand]
    rfl

/-- The rows after a well-formed element are those before it and the one it makes. -/
theorem has_applied_wellFormed (hj : j.wellFormed rt = true) :
    (j.applied rt now s).has = fun key => s.has key ∨ Makes rt j key := by
  funext key
  apply propext
  cases hrecord : j.record? rt with
  | some r =>
    have hmakes : Makes rt j key ↔ r.key = key ∧ rt.takes key = true := by
      constructor
      · rintro ⟨r', hr', hkey⟩
        obtain rfl : r = r' := Option.some.inj (hrecord.symm.trans hr')
        exact hkey
      · exact fun hkey => ⟨r, hrecord, hkey⟩
    unfold Store.has
    rw [balance?_applied hrecord, hmakes]
    unfold Keyed.put
    by_cases hkey : key = r.key
    · subst hkey
      rw [Function.update_self]
      cases hrow : s.balance? r.key with
      | some row => exact ⟨fun _ => .inl nofun, fun _ => nofun⟩
      | none =>
        unfold recordRow
        cases htakes : rt.takes r.key with
        | true => exact ⟨fun _ => .inr ⟨rfl, rfl⟩, fun _ => nofun⟩
        | false => exact ⟨fun h => absurd rfl h, fun h => h.elim id fun h => (nomatch h.2)⟩
    · rw [Function.update_of_ne hkey]
      exact ⟨.inl, fun h => h.elim id fun h => absurd h.1.symm hkey⟩
  | none =>
    -- its version has no text: nothing is written
    rw [applied_of_none (write_of_no_record hj hrecord)]
    constructor
    · exact .inl
    · rintro (h | ⟨r, hr, _⟩)
      · exact h
      · rw [hrecord] at hr
        cases hr

/-- Each malformed element is rejected when the run comes to it. -/
def RejectsMalformed (rt : Runtime) (now : ℕ) : Store → List Json → Prop
  | _, [] => True
  | s, j :: rest =>
    (j.wellFormed rt = false → j.write rt now s = none) ∧
      RejectsMalformed rt now (j.applied rt now s) rest

/-- Along the payload, that is the condition on the rows there were and the records before. -/
theorem rejectsMalformed_iff (snapshot : List Json) :
    RejectsMalformed rt now s snapshot ↔ RefusedInTurn rt s.has snapshot := by
  induction snapshot generalizing s with
  | nil => exact Iff.rfl
  | cons j rest ih =>
    unfold RejectsMalformed RefusedInTurn
    rw [write_eq_none, ih]
    refine and_congr_right fun hrefused => ?_
    -- the stores that follow agree on which keys have a row
    suffices hhas : (j.applied rt now s).has = fun key => s.has key ∨ Makes rt j key by rw [hhas]
    cases hj : j.wellFormed rt with
    | true => exact has_applied_wellFormed hj
    | false =>
      rw [applied_of_none (write_eq_none.mpr (hrefused hj))]
      funext key
      refine propext ⟨.inl, ?_⟩
      -- a refused element makes no row
      rintro (h | ⟨r, hr, _⟩)
      · exact h
      · rw [wellFormed_of_record hr] at hj
        cases hj

theorem batchLoop_cons_store (rest : List Json) :
    (batchLoop rt now (j :: rest) s).store =
      (batchLoop rt now rest (j.applied rt now s)).store := by
  rw [batchLoop_store, batchLoop_store, List.foldl_cons]

theorem batchLoop_cons_failed (rest : List Json) :
    (batchLoop rt now (j :: rest) s).failed =
      (batchLoop rt now rest (j.applied rt now s)).failed +
        if (j.write rt now s).isNone then 1 else 0 := by
  rw [batchLoop]
  unfold Json.applied
  cases j.write rt now s <;> rfl

theorem malformedCount_cons (rest : List Json) :
    malformedCount rt (j :: rest) =
      malformedCount rt rest + if j.wellFormed rt then 0 else 1 := by
  unfold malformedCount
  cases hj : j.wellFormed rt with
  | true =>
    rw [List.filter_cons_of_neg (by simp [hj])]
    rfl
  | false =>
    rw [List.filter_cons_of_pos (by simp [hj])]
    rfl

/-- Rejected elements leave no trace but their failures. -/
theorem batchLoop_of_rejects {snapshot : List Json} (h : RejectsMalformed rt now s snapshot) :
    (batchLoop rt now snapshot s).store =
        (batchLoop rt now (snapshot.filter (Json.wellFormed rt)) s).store ∧
      (batchLoop rt now snapshot s).failed =
        (batchLoop rt now (snapshot.filter (Json.wellFormed rt)) s).failed +
          malformedCount rt snapshot := by
  induction snapshot generalizing s with
  | nil => exact ⟨rfl, rfl⟩
  | cons j rest ih =>
    obtain ⟨hj, hrest⟩ := h
    obtain ⟨hstore, hfailed⟩ := ih hrest
    rw [batchLoop_cons_store, batchLoop_cons_failed, malformedCount_cons]
    cases hform : j.wellFormed rt with
    -- a well-formed element is counted alike on both sides
    | true =>
      rw [List.filter_cons_of_pos hform, batchLoop_cons_store, batchLoop_cons_failed]
      refine ⟨hstore, ?_⟩
      rw [hfailed, if_pos rfl]
      omega
    | false =>
      -- a malformed one is refused, which the count on the right adds
      have hnone := hj hform
      rw [applied_of_none hnone] at hstore hfailed ⊢
      rw [List.filter_cons_of_neg (by simp [hform]), hnone]
      refine ⟨hstore, ?_⟩
      rw [hfailed]
      rfl

/-- A row of a key that the table does not take is never made. -/
theorem has_applied_untaken {key : BalanceKey} (htakes : rt.takes key = false) :
    (j.applied rt now s).has key ↔ s.has key := by
  -- a write patches a row that is there or inserts one under a key the column takes
  cases hwrite : j.write rt now s with
  | none => rw [applied_of_none hwrite]
  | some e =>
    have happlied : j.applied rt now s = e.1 := by
      unfold Json.applied
      rw [hwrite]
    rw [happlied]
    obtain ⟨d, _, hd⟩ := Option.bind_eq_some_iff.mp hwrite
    unfold Demand.write at hd
    cases hrow : s.rowFor rt d.columns with
    | some row =>
      rw [hrow] at hd
      cases hd
      unfold Store.has
      rw [balance?_patched]
      cases s.balance? key <;> simp
    | none =>
      rw [hrow] at hd
      obtain ⟨key', hkey', hd⟩ := Option.bind_eq_some_iff.mp hd
      obtain ⟨htakes', hd⟩ := Option.ite_none_right_eq_some.mp hd
      obtain ⟨s', hinsert, rfl⟩ := Option.map_eq_some_iff.mp hd
      obtain ⟨new, hnew, hinsert⟩ := Option.bind_eq_some_iff.mp hinsert
      have hne : new.key ≠ key := by
        have hnewKey : new.key = key' := newBalance_row_key hnew
        rintro rfl
        rw [hnewKey, htakes'] at htakes
        cases htakes
      unfold Store.has
      rw [balance?_insertBalance hinsert, if_neg hne]

/-- A well-formed element fails when it is no record, or a record of a triple without a row that
the table does not take. -/
theorem write_eq_none_wellFormed (hj : j.wellFormed rt = true) :
    j.write rt now s = none ↔
      ∀ r, j.record? rt = some r → rt.takes r.key = false ∧ ¬ s.has r.key := by
  cases hrecord : j.record? rt with
  | none => exact ⟨fun _ r h => (nomatch h), fun _ => write_of_no_record hj hrecord⟩
  | some r =>
    rw [write_eq_none]
    unfold Refused
    rw [demand_of_record hrecord]
    constructor
    · intro h r' hr'
      obtain rfl : r = r' := Option.some.inj hr'
      obtain ⟨hrows, hkeys⟩ := h _ rfl
      refine ⟨hkeys r.key rfl, fun hhas => ?_⟩
      have hadmits := hrows r.key hhas
      rw [admits_of, decide_eq_false_iff_not] at hadmits
      exact hadmits rfl
    · intro h d hd
      cases hd
      obtain ⟨htakes, hhas⟩ := h r rfl
      refine ⟨fun key hkey => ?_, fun key hkey => ?_⟩
      · rw [admits_of, decide_eq_false_iff_not]
        rintro rfl
        exact hhas hkey
      · cases hkey
        exact htakes

/-- Whatever the malformed elements did, the well-formed ones fail alike, so the failures tell
whether all malformed ones were rejected. -/
theorem rejects_of_failed {snapshot : List Json} {s' : Store}
    (hagree : ∀ key, rt.takes key = false → (s.has key ↔ s'.has key)) :
    (batchLoop rt now snapshot s).failed ≤
        (batchLoop rt now (snapshot.filter (Json.wellFormed rt)) s').failed +
          malformedCount rt snapshot ∧
      ((batchLoop rt now snapshot s).failed =
        (batchLoop rt now (snapshot.filter (Json.wellFormed rt)) s').failed +
          malformedCount rt snapshot → RejectsMalformed rt now s snapshot) := by
  induction snapshot generalizing s s' with
  | nil => exact ⟨le_rfl, fun _ => trivial⟩
  | cons j rest ih =>
    rw [batchLoop_cons_failed, malformedCount_cons]
    cases hform : j.wellFormed rt with
    | true =>
      -- both stores move alike on the keys the column does not take
      have hagree' : ∀ key, rt.takes key = false →
          ((j.applied rt now s).has key ↔ (j.applied rt now s').has key) := fun key htakes => by
        rw [has_applied_untaken htakes, has_applied_untaken htakes, hagree key htakes]
      obtain ⟨hle, heq⟩ := ih hagree'
      -- a well-formed element fails on both stores or on neither
      have hsame : (j.write rt now s).isNone = (j.write rt now s').isNone := by
        rw [Bool.eq_iff_iff, Option.isNone_iff_eq_none, Option.isNone_iff_eq_none,
          write_eq_none_wellFormed hform, write_eq_none_wellFormed hform]
        refine forall_congr' fun r => imp_congr_right fun _ => and_congr_right fun htakes => ?_
        rw [hagree r.key htakes]
      rw [List.filter_cons_of_pos hform, batchLoop_cons_failed, hsame, if_pos rfl]
      refine ⟨by omega, fun h => ⟨fun hmal => ?_, heq (by omega)⟩⟩
      rw [hform] at hmal
      cases hmal
    | false =>
      have hagree' : ∀ key, rt.takes key = false →
          ((j.applied rt now s).has key ↔ s'.has key) := fun key htakes => by
        rw [has_applied_untaken htakes, hagree key htakes]
      obtain ⟨hle, heq⟩ := ih hagree'
      rw [List.filter_cons_of_neg (by simp [hform]), if_neg Bool.false_ne_true]
      -- a malformed element that is written spoils the equality
      cases hwrite : j.write rt now s with
      | none =>
        rw [Option.isNone_none, if_pos rfl]
        exact ⟨by omega, fun h => ⟨fun _ => hwrite, heq (by omega)⟩⟩
      | some e =>
        rw [Option.isNone_some, if_neg Bool.false_ne_true]
        exact ⟨by omega, fun h => by omega⟩

end Turns

section Outcome

variable {rt : Runtime} {s : BatchState} {snapshot : List Json}

theorem keySet_of_keys (h : ∀ j ∈ snapshot, ∃ key, j.joinedKey rt = .ok key) :
    hcmKeySetOf rt snapshot =
      .ok (snapshot.filterMap fun j => (j.joinedKey rt).toOption) := by
  induction snapshot with
  | nil => rfl
  | cons j rest ih =>
    obtain ⟨⟨key, hkey⟩, hrest⟩ := List.forall_mem_cons.mp h
    unfold hcmKeySetOf
    rw [hkey, ih hrest, List.filterMap_cons, hkey]
    rfl

theorem keySet_stops (h : ¬ ∀ j ∈ snapshot, ∃ key, j.joinedKey rt = .ok key) :
    ∃ err, hcmKeySetOf rt snapshot = .error err := by
  cases hkeys : hcmKeySetOf rt snapshot with
  | error err => exact ⟨err, rfl⟩
  | ok keys =>
    -- one element without a key is enough to stop the map
    refine absurd ?_ h
    clear h
    induction snapshot generalizing keys with
    | nil => exact fun j hj => absurd hj List.not_mem_nil
    | cons j rest ih =>
      unfold hcmKeySetOf at hkeys
      cases hkey : j.joinedKey rt with
      | error e =>
        rw [hkey] at hkeys
        cases hkeys
      | ok key =>
        cases hrest : hcmKeySetOf rt rest with
        | error e =>
          rw [hkey, hrest] at hkeys
          cases hkeys
        | ok keys' => exact List.forall_mem_cons.mpr ⟨⟨key, hkey⟩, ih keys' hrest⟩

theorem omitRows_count (now : ℕ) (hcmKeySet : List String) (rows : List EmployeeBalance)
    (store : Store) :
    (omitRows now hcmKeySet rows store).2 =
      ((rows.map (·.key.joined)).filter fun key => key ∉ hcmKeySet).length ∧
    (omitRows now hcmKeySet rows store).1.balances.map (·.key) = store.balances.map (·.key) := by
  induction rows generalizing store with
  | nil => exact ⟨rfl, rfl⟩
  | cons row rest ih =>
    unfold omitRows
    -- a row the payload names is skipped and not counted
    by_cases hkey : row.key.joined ∈ hcmKeySet
    · rw [if_pos hkey, List.map_cons, List.filter_cons_of_neg (by simpa using hkey)]
      exact ih store
    · rw [if_neg hkey, List.map_cons, List.filter_cons_of_pos (by simpa using hkey),
        List.length_cons]
      obtain ⟨hcount, hsame⟩ := ih (store.patched row.key (omittedPatch row now))
      refine ⟨congrArg (· + 1) hcount, hsame.trans ?_⟩
      exact Store.map_ite_key (·.key) (·.key = row.key)
        (fun b => { omittedPatch row now with version := some (b.version + 1) }.apply b)
        (fun _ => rfl) store.balances

/-- A run with a key for each element: its amounts are those after the loop, and it counts the
failures of the loop and the rows left out. -/
theorem batchRun_keys (hs : s.batchRunning = false)
    (hkeys : ∀ j ∈ snapshot, ∃ key, j.joinedKey rt = .ok key) :
    ∃ s' log, BatchRun rt (some (.array snapshot)) s s' ∧ s'.syncLogs = s.syncLogs ++ [log] ∧
      (∀ key, amountsOf s' key =
        ((batchLoop rt s.clock snapshot s.store).store.balance? key).map fun b =>
          (b.totalBalance, b.availableBalance, b.pendingBalance, b.usedBalance)) ∧
      log.recordsFailed =
        (batchLoop rt s.clock snapshot s.store).failed + leftOut rt s' snapshot := by
  obtain ⟨s', log, hrun, hended, hstore, _, _, hfailed⟩ :=
    runBatchSync_eval hs (keySet_of_keys hkeys)
  refine ⟨s', log, hrun, hended.logged, fun key => ?_, ?_⟩
  · unfold amountsOf
    rw [hstore, balance?_batchRows, Option.map_map]
    refine congrArg (fun f => Option.map f _) (funext fun b => ?_)
    rw [Function.comp_apply]
    split <;> rfl
  -- the rows the omission pass goes through are those at the end of the loop
  · let e := (batchLoop rt s.clock snapshot s.store).store
    have hcount := omitRows_count s.clock
      (snapshot.filterMap fun j => (j.joinedKey rt).toOption) e.balances e
    have hkeysOf : s'.store.balances.map (·.key.joined) = e.balances.map (·.key.joined) := by
      have hmap := congrArg (List.map BalanceKey.joined) hcount.2
      rw [List.map_map, List.map_map] at hmap
      rw [hstore]
      exact hmap
    unfold leftOut
    rw [hfailed, hkeysOf]
    exact congrArg (_ + ·) hcount.1

/-- An element without identifiers. -/
def namelessJson (totalBalance : ℚ) : Json := .object [("totalBalance", .number totalBalance)]

theorem amountsOf_run {data : Option Json} {s' : BatchState} {key : BalanceKey}
    {amounts : Option (ℚ × ℚ × ℚ × ℚ)} (h : BatchRun rt data s s')
    (heval : ((runBatchSync rt).eval (BatchOp.quiet rt data) s).map
      (fun r => amountsOf r.2 key) = some amounts) : amountsOf s' key = amounts := by
  rw [h] at heval
  exact Option.some.inj heval

end Outcome

end TimeOff
