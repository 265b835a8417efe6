import TimeOff.CreateOutcome
import TimeOff.HcmCharges
import TimeOff.LaneViews
import TimeOff.OneEffect

/-! Concurrent creates over transactions that nothing isolates: in each lane the lock keeps
them apart, so that they neither overlap nor overspend. -/
namespace TimeOff

open Async

section Good

/-- Active requests of one employee and location are for no common day. -/
def Apart (r r' : TimeOffRequest) : Prop :=
  r.employeeId = r'.employeeId → r.locationId = r'.locationId → isActive r = true →
    isActive r' = true → ∀ k, CoversDay r k → ¬ CoversDay r' k

def daysOn (accepted : List TimeOffRequest) (key : BalanceKey) : ℚ :=
  ((accepted.filter fun r => r.balanceKey = key).map (·.daysRequested)).sum

/-- What a lane must be, when it was `V₀` at the start: its requests are apart, and each balance
has lost the days of the requests accepted on it and no more than it had. -/
structure LaneGood (V₀ V : LaneView) : Prop where
  apart : V.requests.Pairwise Apart
  books : ∃ accepted, V.requests = V₀.requests ++ accepted ∧
    V.available = V₀.available.map fun b => (b.1, b.2 - daysOn accepted b.1)
  enough : ∀ b ∈ V.available, 0 ≤ b.2

variable {V₀ V : LaneView} {dto : CreateTimeOffRequestDto} {idempotencyKey : String} {days : ℚ}
  {now id : ℕ} {saved : TimeOffRequest}

instance : Std.Symm Apart :=
  ⟨fun _ _ h hemp hloc ha hb k hk hk' => h hemp.symm hloc.symm hb ha k hk' hk⟩

theorem daysOn_append (accepted : List TimeOffRequest) (r : TimeOffRequest) (key : BalanceKey) :
    daysOn (accepted ++ [r]) key =
      daysOn accepted key + if r.balanceKey = key then r.daysRequested else 0 := by
  rw [daysOn, daysOn, List.filter_append, List.map_append, List.sum_append]
  congr 1
  by_cases hkey : r.balanceKey = key <;> simp [hkey]

/-- The overlap check passed against the active requests of the lane. -/
def Free (dto : CreateTimeOffRequestDto) (V : LaneView) : Prop :=
  ∀ r ∈ V.requests, r.employeeId = dto.employeeId → r.locationId = dto.locationId →
    isActive r = true → datesOverlap dto.startDate dto.endDate r.startDate r.endDate = false

/-- The days are available on the balance of `key`. -/
def Covered (key : BalanceKey) (days : ℚ) (V : LaneView) : Prop :=
  ∀ b ∈ V.available, b.1 = key → days ≤ b.2

/-- A request that the overlap check lets pass is apart from those of its lane, from 2000 on. -/
theorem apart_of_free {s : ℤ} {r : TimeOffRequest} (hs : PlainDay dto.startDate s)
    (hs2000 : day2000 ≤ s) (hfree : Free dto V) (hr : r ∈ V.requests)
    (hemp : saved.employeeId = dto.employeeId) (hloc : saved.locationId = dto.locationId)
    (hstart : saved.startDate = dto.startDate) (hend : saved.endDate = dto.endDate) :
    Apart r saved := by
  intro hemp' hloc' hactive _ k hk hk'
  obtain ⟨first, last, hfirst, hlast, hle, hle'⟩ := hk
  obtain ⟨s', e, hs', he, hsk, hke⟩ := hk'
  rw [hstart] at hs'
  rw [hend] at he
  obtain rfl : s' = s := hs'.unique hs
  -- a common day makes the two ranges overlap
  have hover := (datesOverlap_plain hs he hfirst hlast hs2000 (hsk.trans hke)
    (hle.trans hle')).mpr ⟨k, hsk, hke, first, last, hfirst, hlast, hle, hle'⟩
  rw [hfree r hr (hemp'.trans hemp) (hloc'.trans hloc) hactive] at hover
  cases hover

/-- The deduction and the insertion together take a good lane to a good one. -/
theorem LaneGood.create {s : ℤ} (h : LaneGood V₀ V) (hs : PlainDay dto.startDate s)
    (hs2000 : day2000 ≤ s) (hfree : Free dto V) (hcovered : Covered dto.balanceKey days V)
    (hrow : (newRequest dto idempotencyKey (some days)).row now id = some saved) :
    LaneGood V₀ { V.save dto.balanceKey (· - days) with
      requests := V.requests ++ [saved.core] } := by
  obtain ⟨hemp, hloc, hstart, hend, hkey, hdays⟩ : saved.employeeId = dto.employeeId ∧
      saved.locationId = dto.locationId ∧ saved.startDate = dto.startDate ∧
      saved.endDate = dto.endDate ∧ saved.balanceKey = dto.balanceKey ∧
      saved.daysRequested = days := by
    -- the columns of the new row are those of the dto
    cases hrow
    exact ⟨rfl, rfl, rfl, rfl, rfl, rfl⟩
  obtain ⟨hapart, ⟨accepted, hrequests, havailable⟩, henough⟩ := h
  refine ⟨?_, ⟨accepted ++ [saved.core], ?_, ?_⟩, ?_⟩
  -- the new row is apart from the others, by the overlap check
  · rw [List.pairwise_append]
    refine ⟨hapart, List.pairwise_singleton _ _, fun r hr r' hr' => ?_⟩
    rw [List.mem_singleton.mp hr']
    exact apart_of_free hs hs2000 hfree hr hemp hloc hstart hend
  · show V.requests ++ [saved.core] = V₀.requests ++ (accepted ++ [saved.core])
    rw [hrequests, List.append_assoc]
  · show (V.save dto.balanceKey (· - days)).available = _
    rw [LaneView.save, havailable, List.map_map]
    refine List.map_congr_left fun b _ => ?_
    -- the accepted days grow on the balance that was charged
    have hafter : daysOn (accepted ++ [saved.core]) b.1 =
        daysOn accepted b.1 + if dto.balanceKey = b.1 then days else 0 := by
      rw [daysOn_append, ← hkey, ← hdays]
      rfl
    rw [hafter, Function.comp_apply]
    by_cases hb : b.1 = dto.balanceKey
    · rw [if_pos hb, if_pos hb.symm, sub_sub]
    · rw [if_neg hb, if_neg (Ne.symm hb), add_zero]
  · intro b hb
    obtain ⟨b', hb', rfl⟩ := List.mem_map.mp hb
    -- the charged row had the days; the others keep theirs
    by_cases hb'' : b'.1 = dto.balanceKey
    · rw [if_pos hb'']
      exact sub_nonneg.mpr (hcovered b' hb' hb'')
    · rw [if_neg hb'']
      exact henough b' hb'

end Good

section Lanes

/-- Every lane would be good without the open transactions, and an open transaction writes only
in the lane that its call holds. -/
structure Lanes (start : Store) (w : World) : Prop where
  locks : w.locks.Inv
  clock : day2000 ≤ today w.clock
  good : ∀ lane, LaneGood (start.view lane) ((undoAll w.journal w.store).view lane)
  confined : ∀ e ∈ w.journal, ∀ u, e.undo = some u → ∀ lane, ¬ w.locks.Holds e.pid lane →
    u.Clear (w.store.view lane)
  drawn : ∀ e ∈ w.journal, ∀ u, e.undo = some u → u.Before w.nextId

/-- What a step of a call leaves to the others: their transactions and places in the queues,
and every lane that the call does not hold. -/
structure Spares (i : ℕ) (w w' : World) : Prop where
  entries : ∀ j, j ≠ i → w'.entriesOf j = w.entriesOf j
  lane : ∀ j, j ≠ i → w'.locks.lane j = w.locks.lane j
  entered : ∀ j, j ≠ i → w'.locks.entered j = w.locks.entered j
  released : ∀ j, j ≠ i → w'.locks.released j = w.locks.released j
  views : ∀ lane, ¬ w.locks.Holds i lane → w'.store.view lane = w.store.view lane

/-- What a call relies on. -/
structure Spared (i : ℕ) (w w' : World) : Prop where
  entries : w'.entriesOf i = w.entriesOf i
  lane : w'.locks.lane i = w.locks.lane i
  entered : w'.locks.entered i = w.locks.entered i
  released : w'.locks.released i = w.locks.released i
  views : ∀ lane, w.locks.Holds i lane → w'.store.view lane = w.store.view lane

def LanesKept (start : Store) (i : ℕ) (w w' : World) : Prop :=
  Spares i w w' ∧ (Lanes start w → Lanes start w')

variable {start : Store} {w w' w₁ w₂ w₃ : World} {i j : ℕ} {lane : String}

theorem holds_congr {l l' : CreateLocks} (hlane : l'.lane i = l.lane i)
    (hentered : l'.entered i = l.entered i) (hreleased : l'.released i = l.released i) :
    l'.Holds i lane ↔ l.Holds i lane :=
  ⟨fun h => ⟨hlane ▸ h.1, hentered ▸ h.2, hreleased ▸ h.3⟩,
    fun h => ⟨hlane.trans h.1, hentered.trans h.2, hreleased.trans h.3⟩⟩

theorem Spared.holds (h : Spared i w w') : w'.locks.Holds i lane ↔ w.locks.Holds i lane :=
  holds_congr h.lane h.entered h.released

theorem Spares.holds (h : Spares i w w') (hj : j ≠ i) :
    w'.locks.Holds j lane ↔ w.locks.Holds j lane :=
  holds_congr (h.lane j hj) (h.entered j hj) (h.released j hj)

theorem Spared.refl (i : ℕ) (w : World) : Spared i w w := ⟨rfl, rfl, rfl, rfl, fun _ _ => rfl⟩

theorem Spared.trans (h : Spared i w₁ w₂) (h' : Spared i w₂ w₃) : Spared i w₁ w₃ :=
  ⟨h'.entries.trans h.entries, h'.lane.trans h.lane, h'.entered.trans h.entered,
    h'.released.trans h.released,
    fun lane hl => (h'.views lane (h.holds.mpr hl)).trans (h.views lane hl)⟩

/-- Two calls hold no lane in common, so what one leaves alone the other can rely on. -/
theorem Spares.spared (h : Spares i w w') (hlocks : w.locks.Inv) (hne : i ≠ j) :
    Spared j w w' :=
  ⟨h.entries j hne.symm, h.lane j hne.symm, h.entered j hne.symm, h.released j hne.symm,
    fun lane hj => h.views lane fun hi => hne (hlocks.exclusive hi hj)⟩

/-- When no open transaction is of a call that holds the lane, the lane is good as it is. -/
theorem Lanes.good_of_idle (h : Lanes start w)
    (hidle : ∀ e ∈ w.journal, ¬ w.locks.Holds e.pid lane) :
    LaneGood (start.view lane) (w.store.view lane) := by
  have hclear : (w.store.view lane).undoAll w.journal = w.store.view lane :=
    undoAll_clear fun e he u hu => h.confined e he u hu lane (hidle e he)
  rw [← hclear, ← view_undoAll]
  exact h.good lane

/-- So it is when its holder has no transaction open. -/
theorem Lanes.good_of_holder (h : Lanes start w) (hi : w.locks.Holds i lane)
    (hentries : w.entriesOf i = []) : LaneGood (start.view lane) (w.store.view lane) := by
  apply h.good_of_idle
  intro e he hholds
  have hmem : e ∈ w.entriesOf i := mem_entriesOf.mpr ⟨he, h.locks.exclusive hholds hi⟩
  rw [hentries] at hmem
  cases hmem

/-- A step that changes neither a lane nor a queue. -/
theorem lanesKept_of_views (hviews : ∀ lane, w'.store.view lane = w.store.view lane)
    (hjournal : w'.journal = w.journal) (hlocks : w'.locks = w.locks)
    (hclock : w.clock ≤ w'.clock) (hnext : w.nextId ≤ w'.nextId) (i : ℕ) :
    LanesKept start i w w' ∧ Spared i w w' := by
  -- the journal is the same, so every transaction sees what it saw
  have hentries (j : ℕ) : w'.entriesOf j = w.entriesOf j := by
    rw [World.entriesOf, hjournal, World.entriesOf]
  refine ⟨⟨⟨fun j _ => hentries j, fun j _ => by rw [hlocks], fun j _ => by rw [hlocks],
    fun j _ => by rw [hlocks], fun lane _ => hviews lane⟩, fun h => ?_⟩,
    ⟨hentries i, by rw [hlocks], by rw [hlocks], by rw [hlocks], fun lane _ => hviews lane⟩⟩
  refine ⟨hlocks ▸ h.locks, h.clock.trans ?_, fun lane => ?_, ?_, ?_⟩
  · unfold today msPerDay
    omega
  · rw [view_undoAll, hjournal, hviews lane, ← view_undoAll]
    exact h.good lane
  · intro e he u hu lane hlane
    rw [hjournal] at he
    rw [hlocks] at hlane
    rw [hviews lane]
    exact h.confined e he u hu lane hlane
  · intro e he u hu
    rw [hjournal] at he
    exact (h.drawn e he u hu).mono hnext

theorem lanesKept_aside (start : Store) (i : ℕ) (w : World) {clock : ℕ} (hclock : w.clock ≤ clock)
    (immediates : List Task) (hcm : MockHcm) (history : History) :
    LanesKept start i w { w with
      clock := clock
      immediates := immediates
      hcm := hcm
      history := history } ∧
    Spared i w { w with
      clock := clock
      immediates := immediates
      hcm := hcm
      history := history } := by
  apply lanesKept_of_views
  · exact fun _ => rfl
  · rfl
  · rfl
  · exact hclock
  · exact le_refl _

theorem lanesKept_refl (start : Store) (i : ℕ) (w : World) : LanesKept start i w w :=
  (lanesKept_aside start i w (le_refl _) w.immediates w.hcm w.history).1

/-- A step of a call without a transaction that changes only its own place in the queues. -/
theorem lanesKept_of_locks {l : CreateLocks} (hentries : w.entriesOf i = [])
    (hinv : w.locks.Inv → l.Inv)
    (hothers : ∀ j, j ≠ i → l.lane j = w.locks.lane j ∧ l.entered j = w.locks.entered j ∧
      l.released j = w.locks.released j) : LanesKept start i w { w with locks := l } := by
  refine ⟨⟨fun j _ => rfl, fun j hj => (hothers j hj).1, fun j hj => (hothers j hj).2.1,
    fun j hj => (hothers j hj).2.2, fun _ _ => rfl⟩, fun h => ?_⟩
  refine ⟨hinv h.locks, h.clock, h.good, fun e he u hu lane hlane => ?_, h.drawn⟩
  have hne : e.pid ≠ i := by
    intro hpid
    have hmem : e ∈ w.entriesOf i := mem_entriesOf.mpr ⟨he, hpid⟩
    rw [hentries] at hmem
    cases hmem
  obtain ⟨hl, he', hr⟩ := hothers e.pid hne
  exact h.confined e he u hu lane fun hholds => hlane ((holds_congr hl he' hr).mpr hholds)

end Lanes

section Transactions

variable {start : Store} {w w' : World} {i : ℕ} {lane : String}

theorem holds_unique {l : CreateLocks} {lane lane' : String} (h : l.Holds i lane)
    (h' : l.Holds i lane') : lane = lane' :=
  Option.some.inj (h.lane_eq.symm.trans h'.lane_eq)

/-- A call of an open transaction that shows in the lane of its caller only. -/
theorem lanesKept_of_db {d : DbOp} (hi : w.locks.Holds i lane)
    (hothers : ∀ lane', lane' ≠ lane → (w.db d).2.store.view lane' = w.store.view lane')
    (hrows : ∀ r ∈ ((w.db d).2.store.view lane).requests,
      (∃ r' ∈ (w.store.view lane).requests, r'.id = r.id) ∨ r.id = w.nextId)
    (hkeys : ∀ b ∈ ((w.db d).2.store.view lane).available,
      ∃ b' ∈ (w.store.view lane).available, b'.1 = b.1)
    (hundo : ∀ u, (entryOf i d w).undo = some u → u.Before (d.nextId w.nextId) ∧
      ∀ lane', lane' ≠ lane → u.Clear (w.store.view lane')) :
    LanesKept start i w ((w.db d).2.journaled (entryOf i d w)) := by
  -- the ids only grow, so old entries stay about old requests
  have hnext : w.nextId ≤ d.nextId w.nextId := d.le_nextId w.nextId
  refine ⟨⟨fun j hj => ?_, fun _ _ => rfl, fun _ _ => rfl, fun _ _ => rfl, fun lane' hl => ?_⟩,
    fun h => ⟨h.locks, h.clock, fun lane' => ?_, ?_, ?_⟩⟩
  · exact List.filter_cons_of_neg (by simp [entryOf, hj.symm])
  · exact hothers lane' fun heq => hl (heq ▸ hi)
  · -- the entry takes the call back
    have hgood := h.good lane'
    rw [← undoAll_journaled i d w] at hgood
    exact hgood
  · intro e he u hu lane' hl
    rcases List.mem_cons.mp he with rfl | he
    · have hne : lane' ≠ lane := fun heq => hl (heq ▸ hi)
      have hclear := (hundo u hu).2 lane' hne
      rw [← hothers lane' hne] at hclear
      exact hclear
    · have hclear := h.confined e he u hu lane' hl
      rcases eq_or_ne lane' lane with rfl | hne
      · -- another call's entry is about requests that were drawn before
        refine hclear.of_rows (fun r hr => ?_) hkeys
        rcases hrows r hr with hold | hnew
        · exact .inl hold
        · exact .inr (hnew ▸ h.drawn e he u hu)
      · rw [← hothers lane' hne] at hclear
        exact hclear
  · intro e he u hu
    rcases List.mem_cons.mp he with rfl | he
    · exact (hundo u hu).1
    · exact (h.drawn e he u hu).mono hnext

theorem lanesKept_of_quiet {d : DbOp} (hi : w.locks.Holds i lane)
    (hviews : ∀ lane', (w.db d).2.store.view lane' = w.store.view lane')
    (hundo : ∀ u, d.undo w.nextId w.store = some u → ∀ V id, u.Clear V ∧ u.Before id) :
    LanesKept start i w ((w.db d).2.journaled (entryOf i d w)) := by
  refine lanesKept_of_db hi (fun lane' _ => hviews lane') ?_ ?_ fun u hu => ?_
  · exact fun r hr => .inl ⟨r, hviews lane ▸ hr, rfl⟩
  · exact fun b hb => ⟨b, hviews lane ▸ hb, rfl⟩
  · have hquiet := hundo u (undo_of_entry hu).2
    exact ⟨(hquiet ⟨[], []⟩ _).2, fun lane' _ => (hquiet _ 0).1⟩

theorem view_insertRecord (w : World) (record : IdempotencyRecord) (lane : String) :
    (w.db (.insertRecord record)).2.store.view lane = w.store.view lane := by
  rcases lane_insertRecord w record with ⟨_, _, hstore⟩ | hs
  · rw [hstore]
  · obtain ⟨_, _, hbalances, hrequests⟩ := Store.insertRecord_eq hs
    exact view_congr hbalances hrequests

/-- A deduction shows in the lane of its balance. -/
theorem deduct_lanesKept {key : BalanceKey} {patch : BalancePatch}
    (hi : w.locks.Holds i (laneOf key.employeeId key.locationId)) :
    LanesKept start i w ((w.db (.saveBalance key patch)).2.journaled
      (entryOf i (.saveBalance key patch) w)) := by
  -- a refused save leaves the view; a made one changes one balance
  have hview (lane : String) : ∃ f, (w.db (.saveBalance key patch)).2.store.view lane =
      (w.store.view lane).save key f := by
    rcases lane_saveBalance w key patch with ⟨_, _, hstore⟩ | ⟨_, hview⟩
    · refine ⟨id, ?_⟩
      rw [hstore]
      refine LaneView.ext rfl ((List.map_id _).symm.trans (List.map_congr_left fun b _ => ?_))
      split <;> rfl
    · exact ⟨_, hview lane⟩
  -- the other lanes do not have the key
  refine lanesKept_of_db hi (fun lane hne => ?_) (fun r hr => ?_) (fun b hb => ?_) fun u hu => ?_
  · obtain ⟨f, hf⟩ := hview lane
    exact hf.trans (save_of_ne (view_key_ne hne.symm))
  · obtain ⟨f, hf⟩ := hview (laneOf key.employeeId key.locationId)
    rw [hf] at hr
    exact .inl ⟨r, hr, rfl⟩
  · obtain ⟨f, hf⟩ := hview (laneOf key.employeeId key.locationId)
    rw [hf] at hb
    obtain ⟨b', hb', rfl⟩ := List.mem_map.mp hb
    exact ⟨b', hb', by split <;> rfl⟩
  · obtain ⟨b, _, rfl⟩ := Option.map_eq_some_iff.mp (undo_of_entry hu).2
    exact ⟨trivial, fun lane hne => view_key_ne hne.symm⟩

/-- An insertion shows in the lane of its request. -/
theorem insert_lanesKept {request : NewRequest}
    (hi : w.locks.Holds i (laneOf request.employeeId request.locationId)) :
    LanesKept start i w ((w.db (.insertRequest request)).2.journaled
      (entryOf i (.insertRequest request) w)) := by
  rcases lane_insertRequest w request with ⟨e, herr, hstore⟩ | ⟨row, hrow, _, hs⟩
  · refine lanesKept_of_db hi (fun lane _ => by rw [hstore]) (fun r hr => ?_) (fun b hb => ?_)
      fun u hu => ?_
    · exact .inl ⟨r, hstore ▸ hr, rfl⟩
    · exact ⟨b, hstore ▸ hb, rfl⟩
    · obtain ⟨⟨v, hv⟩, _⟩ := undo_of_entry hu
      rw [herr] at hv
      cases hv
  · obtain ⟨hid, hlane⟩ : row.id = w.nextId ∧ laneOf row.employeeId row.locationId =
        laneOf request.employeeId request.locationId := by
      obtain ⟨days, _, rfl⟩ := Option.map_eq_some_iff.mp hrow
      exact ⟨rfl, rfl⟩
    have hview := view_insertRequest hs hlane
    refine lanesKept_of_db hi (fun lane hne => ?_) (fun r hr => ?_) (fun b hb => ?_) fun u hu => ?_
    · exact view_insertRequest_of_ne hs (hlane.trans_ne hne.symm)
    · rw [hview] at hr
      rcases List.mem_append.mp hr with hold | hnew
      · exact .inl ⟨r, hold, rfl⟩
      · rw [List.mem_singleton.mp hnew]
        exact .inr hid
    · rw [hview] at hb
      exact ⟨b, hb, rfl⟩
    · obtain rfl : Undo.newRequest w.nextId = u := Option.some.inj (undo_of_entry hu).2
      refine ⟨Nat.lt_succ_self _, fun lane _ r hr => ?_⟩
      obtain ⟨old, hold, _, rfl⟩ := mem_view_requests.mp hr
      -- no row had the id that the insertion drew
      have hnone := (Store.insertRequest_eq hs).1
      rw [hid] at hnone
      have hne := List.find?_eq_none.mp hnone old hold
      exact fun heq => hne (decide_eq_true heq)

/-- A call in the transaction of a create, which holds the lane, shows in that lane only. -/
theorem txDb_lanesKept {cfg : Config} {dto : CreateTimeOffRequestDto} {idempotencyKey : String}
    {d : DbOp} (ho : TxCallOp cfg (.create dto idempotencyKey) (.db d))
    (hi : w.locks.Holds i (lockKey dto)) :
    LanesKept start i w ((w.db d).2.journaled (entryOf i d w)) := by
  cases ho with
  | createBalances => exact lanesKept_of_quiet hi (fun _ => rfl) fun u hu => nomatch hu
  | createActive => exact lanesKept_of_quiet hi (fun _ => rfl) fun u hu => nomatch hu
  | createBalance => exact lanesKept_of_quiet hi (fun _ => rfl) fun u hu => nomatch hu
  | createRecord saved now =>
    refine lanesKept_of_quiet hi (fun lane => view_insertRecord w _ lane) fun u hu V id => ?_
    cases hu
    exact ⟨trivial, trivial⟩
  | createDeduct patch => exact deduct_lanesKept hi
  | createRequest => exact insert_lanesKept hi

/-- The entries of a call that does not hold a lane do not count for it. -/
theorem Lanes.undoAll_others (h : Lanes start w) (hi : ¬ w.locks.Holds i lane) :
    (w.store.view lane).undoAll (w.journal.filter (·.pid ≠ i)) =
      (w.store.view lane).undoAll w.journal := by
  apply undoAll_filter
  intro e he hpid u hu
  obtain rfl : e.pid = i := by simpa using hpid
  exact h.confined e he u hu lane hi

/-- Only the entries of its holder count for a lane. -/
theorem Lanes.undoAll_holder (h : Lanes start w) (hi : w.locks.Holds i lane) :
    (w.store.view lane).undoAll (w.entriesOf i) = (w.store.view lane).undoAll w.journal := by
  apply undoAll_filter
  intro e he hpid u hu
  refine h.confined e he u hu lane fun hholds => ?_
  simp [h.locks.exclusive hholds hi] at hpid

theorem Lanes.clear_others (h : Lanes start w) (hi : w.locks.Holds i lane) :
    ∀ e ∈ w.journal.filter (·.pid ≠ i), ∀ u, e.undo = some u → u.Clear (w.store.view lane) := by
  intro e he u hu
  obtain ⟨he, hpid⟩ := List.mem_filter.mp he
  refine h.confined e he u hu lane fun hholds => ?_
  simp [h.locks.exclusive hholds hi] at hpid

theorem spares_close (i : ℕ) {s : Store} {history : History}
    (hviews : ∀ lane, ¬ w.locks.Holds i lane → s.view lane = w.store.view lane) :
    Spares i w { w with
      store := s
      journal := w.journal.filter (·.pid ≠ i)
      history := history } := by
  refine ⟨fun j hj => entriesOf_of_close hj rfl, fun _ _ => rfl, fun _ _ => rfl, fun _ _ => rfl,
    hviews⟩

/-- A call commits what left its lane good. -/
theorem commit_lanesKept (hi : w.locks.Holds i lane)
    (hgood : LaneGood (start.view lane) (w.store.view lane)) :
    LanesKept start i w (w.commit i) := by
  refine ⟨spares_close i fun _ _ => rfl, fun h => ⟨h.locks, h.clock, fun lane' => ?_,
    fun e he => h.confined e (List.mem_of_mem_filter he),
    fun e he => h.drawn e (List.mem_of_mem_filter he)⟩⟩
  rw [view_undoAll]
  rcases eq_or_ne lane' lane with rfl | hne
  · rw [World.commit, undoAll_clear (h.clear_others hi)]
    exact hgood
  · rw [World.commit, h.undoAll_others fun hi' => hne (holds_unique hi' hi), ← view_undoAll]
    exact h.good lane'

theorem view_rollback (h : Lanes start w) (hi : ¬ w.locks.Holds i lane) :
    (w.rollback i).store.view lane = w.store.view lane := by
  rw [World.rollback, view_undoAll]
  apply undoAll_clear
  intro e he u hu
  obtain ⟨hmem, rfl⟩ := mem_entriesOf.mp he
  exact h.confined e hmem u hu lane hi

/-- A rollback undoes what its call did to the lane it holds, and nothing else. -/
theorem rollback_lanesKept (h : Lanes start w) (hi : w.locks.Holds i lane) :
    LanesKept start i w (w.rollback i) := by
  refine ⟨spares_close i fun lane' hl => view_rollback h hl, fun _ => ⟨h.locks, h.clock,
    fun lane' => ?_, fun e he u hu lane' hl => ?_,
    fun e he => h.drawn e (List.mem_of_mem_filter he)⟩⟩
  -- to undo the entries of `i` alone, or all of them, comes to the same
  · have hbefore : ((w.rollback i).store.view lane').undoAll (w.rollback i).journal =
        (w.store.view lane').undoAll w.journal := by
      rcases eq_or_ne lane' lane with rfl | hne
      · calc ((w.rollback i).store.view lane').undoAll (w.rollback i).journal
            = (w.rollback i).store.view lane' := by
              rw [World.rollback, view_undoAll]
              exact undoAll_clear fun e he u hu => (h.clear_others hi e he u hu).undoAll _
          _ = (w.store.view lane').undoAll (w.entriesOf i) := view_undoAll _ _ _
          _ = (w.store.view lane').undoAll w.journal := h.undoAll_holder hi
      · have hi' : ¬ w.locks.Holds i lane' := fun hi' => hne (holds_unique hi' hi)
        rw [view_rollback h hi']
        exact h.undoAll_others hi'
    rw [view_undoAll, hbefore, ← view_undoAll]
    exact h.good lane'
  · have hclear := h.confined e (List.mem_of_mem_filter he) u hu lane' hl
    rw [World.rollback, view_undoAll]
    exact hclear.undoAll _

/-- A crash leaves every lane good, and nobody in it. -/
theorem lanes_crash (h : Lanes start w) : Lanes start w.crash :=
  ⟨CreateLocks.init_inv, h.clock, h.good, fun _ he => (nomatch he), fun _ he => (nomatch he)⟩

end Transactions

section Body

/-- A step of a call from a state in which the lanes are as they should be. -/
def LaneStep (start : Store) (i : ℕ) (o : FlatOp) (w : World) (r : Except Err o.Resp)
    (w' : World) : Prop :=
  Lanes start w ∧ ∃ x, o.exec i x w = some (r, w')

/-- The call holds its lane, in which `P`. -/
def InLane (i : ℕ) (dto : CreateTimeOffRequestDto) (P : LaneView → Prop) (w : World) : Prop :=
  w.locks.Holds i (lockKey dto) ∧ P (w.store.view (lockKey dto))

variable {start : Store} {cfg : Config} {dto : CreateTimeOffRequestDto} {idempotencyKey : String}
  {i : ℕ} {w w' : World} {P : LaneView → Prop}

theorem InLane.mono {P' : LaneView → Prop} (h : InLane i dto P w) (hP : ∀ V, P V → P' V) :
    InLane i dto P' w := ⟨h.1, hP _ h.2⟩

theorem InLane.spared (h : InLane i dto P w) (hs : Spared i w w') : InLane i dto P w' :=
  ⟨hs.holds.mpr h.1, hs.views _ h.1 ▸ h.2⟩

/-- The rule of a database call in the transaction of a create. -/
theorem lane_db {d : DbOp} {Q : Except Err d.Resp → World → Prop}
    (ho : TxCallOp cfg (.create dto idempotencyKey) (.db d)) (hw : InLane i dto P w)
    (herr : ∀ e t, t.locks.Holds i (lockKey dto) → Q (.error e) t)
    (hok : ∀ t v, InLane i dto P t → (t.db d).1 = .ok v →
      Q (.ok v) ((t.db d).2.journaled (entryOf i d t))) :
    (Tx.db d).Holds (fun o => LaneStep start i (.tx o)) (Spared i) (LanesKept start i) Q w := by
  refine Prog.Holds.perform (o := TxOp.db d) ?_
  rintro t hR r t' ⟨_, x, hx⟩
  have ht := hw.spared hR
  rcases txDb_cases hx with ⟨_, _, rfl, rfl⟩ | ⟨rfl, rfl⟩
  · exact ⟨lanesKept_refl start i _, herr _ _ ht.1⟩
  · refine ⟨txDb_lanesKept ho ht.1, ?_⟩
    cases hres : (t.db d).1 with
    | error e => exact herr e _ ht.1
    | ok v => exact hok t v ht hres

/-- What the callback leaves in its lane. -/
def BodyEnds (start : Store) (i : ℕ) (dto : CreateTimeOffRequestDto) {β : Type}
    (r : Except Err β) (w : World) : Prop :=
  (∀ v, r = .ok v → InLane i dto (LaneGood (start.view (lockKey dto))) w) ∧
    ∀ e, r = .error e → w.locks.Holds i (lockKey dto)

theorem bodyEnds_error {β : Type} (e : Err) (w : World) (h : w.locks.Holds i (lockKey dto)) :
    BodyEnds start i dto (.error e : Except Err β) w :=
  ⟨fun _ h => (nomatch h), fun _ _ => h⟩

theorem save_congr {V : LaneView} {key : BalanceKey} {f g : ℚ → ℚ}
    (h : ∀ b ∈ V.available, b.1 = key → f b.2 = g b.2) : V.save key f = V.save key g := by
  refine LaneView.ext rfl (List.map_congr_left fun b hb => ?_)
  by_cases hkey : b.1 = key
  · rw [if_pos hkey, if_pos hkey, h b hb hkey]
  · rw [if_neg hkey, if_neg hkey]

theorem free_of_activeRequests {s : Store}
    (h : ∀ a ∈ s.activeRequests dto.employeeId dto.locationId,
      datesOverlap dto.startDate dto.endDate a.startDate a.endDate = false) :
    Free dto (s.view (lockKey dto)) := by
  intro r hr hemp hloc hactive
  obtain ⟨row, hrow, _, rfl⟩ := mem_view_requests.mp hr
  exact h ⟨row.id, row.startDate, row.endDate, row.status⟩
    (mem_activeRequests.mpr ⟨row, hrow, hemp, hloc, hactive, rfl⟩)

/-- The lane once the days are deducted from the balance and before the request is inserted. -/
def Deducted (start : Store) (dto : CreateTimeOffRequestDto) (V : LaneView) : Prop :=
  ∃ days V', calculateDaysRequested dto.startDate dto.endDate = some days ∧
    LaneGood (start.view (lockKey dto)) V' ∧ Free dto V' ∧ Covered dto.balanceKey days V' ∧
    V = V'.save dto.balanceKey (· - days)

theorem deducted_of_save {V : LaneView} {b : EmployeeBalance}
    (hgood : LaneGood (start.view (lockKey dto)) V) (hfree : Free dto V)
    (hloaded : ∀ x ∈ V.available, x.1 = dto.balanceKey → x.2 = b.availableBalance)
    (hshort : availableShortfall dto.balanceKey
      (calculateDaysRequested dto.startDate dto.endDate) b = none)
    (haccepted : (deductPatch (calculateDaysRequested dto.startDate dto.endDate) b).accepted) :
    Deducted start dto (V.save dto.balanceKey
      (amountOr (deductPatch (calculateDaysRequested dto.startDate dto.endDate)
        b).availableBalance)) := by
  -- `NaN` days would have been refused
  cases hdays : calculateDaysRequested dto.startDate dto.endDate with
  | none =>
    rw [hdays] at haccepted
    cases haccepted
  | some days =>
    rw [hdays] at hshort
    have henough : days ≤ b.availableBalance := by
      by_contra hlt
      have htrue : Num.lt (some b.availableBalance) (some days) = true :=
        decide_eq_true (not_le.mp hlt)
      rw [availableShortfall, if_pos htrue] at hshort
      cases hshort
    refine ⟨days, V, hdays, hgood, hfree, fun x hx hkey => ?_, save_congr fun x hx hkey => ?_⟩
    · rw [hloaded x hx hkey]
      exact henough
    · rw [hloaded x hx hkey]
      rfl

/-- The deduction: the lane does not change between the load of the balance and its save. -/
theorem lane_deduct {Q : Except Err Unit → World → Prop} (cfg : Config)
    (idempotencyKey : String)
    (hw : InLane i dto (fun V => LaneGood (start.view (lockKey dto)) V ∧ Free dto V) w)
    (herr : ∀ e t, t.locks.Holds i (lockKey dto) → Q (.error e) t)
    (hok : ∀ t, InLane i dto (Deducted start dto) t → Q (.ok ()) t) :
    (atomicDeduct dto.balanceKey (calculateDaysRequested dto.startDate dto.endDate)).Holds
      (fun o => LaneStep start i (.tx o)) (Spared i) (LanesKept start i) Q w := by
  have hfind : TxCallOp cfg (.create dto idempotencyKey) (.db (.findBalance dto.balanceKey)) :=
    .createBalance _ _
  refine Prog.Holds.bind (lane_db hfind hw herr ?_)
  intro t r ht hr
  dsimp only [Prog.after]
  -- the load, the check and the save of the deduction
  cases r with
  | none => exact herr _ _ ht.1
  | some b =>
    dsimp only
    cases hshort : availableShortfall dto.balanceKey
        (calculateDaysRequested dto.startDate dto.endDate) b with
    | some e => exact herr _ _ ht.1
    | none =>
      have hb : t.store.balance? dto.balanceKey = some b := Except.ok.inj hr
      have hloaded : InLane i dto (fun V => (LaneGood (start.view (lockKey dto)) V ∧ Free dto V) ∧
          ∀ x ∈ V.available, x.1 = dto.balanceKey → x.2 = b.availableBalance)
          ((t.db (.findBalance dto.balanceKey)).2.journaled
            (entryOf i (.findBalance dto.balanceKey) t)) := by
        refine ⟨ht.1, ht.2, fun x hx hkey => ?_⟩
        obtain ⟨row, hrow, _, rfl⟩ := mem_view_available.mp hx
        rw [Option.some.inj ((Store.balance?_eq_some.mpr ⟨hrow, hkey⟩).symm.trans hb)]
      have hsave : TxCallOp cfg (.create dto idempotencyKey) (.db (.saveBalance dto.balanceKey
          (deductPatch (calculateDaysRequested dto.startDate dto.endDate) b))) :=
        .createDeduct _ _ _
      refine lane_db hsave hloaded herr fun u _ hu hres => hok _ ⟨hu.1, ?_⟩
      rcases lane_saveBalance u dto.balanceKey (deductPatch
        (calculateDaysRequested dto.startDate dto.endDate) b) with ⟨e, herr, _⟩ |
          ⟨haccepted, hview⟩
      · rw [herr] at hres
        -- the row that was loaded is the one in the lane
        cases hres
      · change Deducted start dto ((u.db _).2.store.view (lockKey dto))
        rw [hview (lockKey dto)]
        exact deducted_of_save hu.2.1.1 hu.2.1.2 hu.2.2 hshort haccepted

/-- The insertion makes up for the deduction. -/
theorem inLane_of_insert {s : ℤ} {saved : TimeOffRequest} (hs : PlainDay dto.startDate s)
    (hs2000 : day2000 ≤ s) (hw : InLane i dto (Deducted start dto) w)
    {request : NewRequest} (hrequest : request = newRequest dto idempotencyKey
      (calculateDaysRequested dto.startDate dto.endDate))
    (hr : (w.db (.insertRequest request)).1 = .ok saved) :
    InLane i dto (LaneGood (start.view (lockKey dto)))
      ((w.db (.insertRequest request)).2.journaled (entryOf i (.insertRequest request) w)) := by
  refine ⟨hw.1, ?_⟩
  rcases lane_insertRequest w request with ⟨e, herr, _⟩ | ⟨row, hrow, _, hs'⟩
  · rw [herr] at hr
    cases hr
  obtain ⟨days, V, hdays, hgood, hfree, hcovered, hV⟩ := hw.2
  rw [hrequest, hdays] at hrow
  -- the new row is in the lane of the create
  have hlane : laneOf row.employeeId row.locationId = lockKey dto := by
    cases hrow
    rfl
  change LaneGood _ ((w.db (.insertRequest request)).2.store.view (lockKey dto))
  rw [view_insertRequest hs' hlane, hV]
  exact hgood.create hs hs2000 hfree hcovered hrow

/-- The callback: what it finds in its lane stays so until it is done. -/
theorem lane_body {s : ℤ} (hs : PlainDay dto.startDate s) (hs2000 : day2000 ≤ s)
    (hw : InLane i dto (LaneGood (start.view (lockKey dto))) w) (cfg : Config)
    (idempotencyKey : String) :
    (createTransaction cfg dto idempotencyKey (calculateDaysRequested dto.startDate dto.endDate)
      (cfg.hashObject dto)).Holds (fun o => LaneStep start i (.tx o)) (Spared i)
        (LanesKept start i) (BodyEnds start i dto) w := by
  have hbalances : TxCallOp cfg (.create dto idempotencyKey)
      (.db (.findBalances dto.employeeId dto.locationId)) := .createBalances _ _
  have hactive : TxCallOp cfg (.create dto idempotencyKey)
      (.db (.findActiveRequests dto.employeeId dto.locationId)) := .createActive _ _
  have hinsert : TxCallOp cfg (.create dto idempotencyKey) (.db (.insertRequest (newRequest dto
      idempotencyKey (calculateDaysRequested dto.startDate dto.endDate)))) := .createRequest _ _
  have hrecord (saved : TimeOffRequest) (now : ℕ) : TxCallOp cfg (.create dto idempotencyKey)
      (.db (.insertRecord (newRecord cfg dto idempotencyKey (cfg.hashObject dto) saved now))) :=
    .createRecord _ _ _ _
  -- steps 4 to 8, each with its own failure
  refine Prog.Holds.bind (Prog.Holds.bind (lane_db hbalances hw bodyEnds_error ?_))
  intro w₁ _ hw₁ _
  refine Prog.Holds.bind (Prog.Holds.bind (lane_db hactive hw₁ bodyEnds_error ?_))
  intro w₂ rows hw₂ hrows
  cases hrows
  dsimp only [Prog.after]
  rcases throwIfOverlap_cases dto.startDate dto.endDate
    (w₂.store.activeRequests dto.employeeId dto.locationId) with ⟨hfree, hret⟩ | ⟨e, hthrow⟩
  -- an overlap ends the callback before anything is written
  swap
  · rw [hthrow]
    exact bodyEnds_error _ _ hw₂.1
  rw [hret]
  refine Prog.Holds.bind (lane_deduct cfg idempotencyKey
    ⟨hw₂.1, hw₂.2, free_of_activeRequests hfree⟩ bodyEnds_error ?_)
  intro w₃ hw₃
  refine Prog.Holds.bind (lane_db hinsert hw₃ bodyEnds_error ?_)
  intro w₄ saved hw₄ hsaved
  have hinserted := inLane_of_insert hs hs2000 hw₄ rfl hsaved
  dsimp only [Prog.after]
  refine tx_now_bind ?_
  rintro w₅ hR r w₆ ⟨_, x, hx⟩
  cases hx
  refine ⟨lanesKept_refl start i _, ?_⟩
  refine Prog.Holds.bind (lane_db (hrecord saved _) (hinserted.spared hR) bodyEnds_error ?_)
  intro w₇ _ hw₇ _
  -- the record is in no lane
  refine ⟨fun _ _ => ⟨hw₇.1, ?_⟩, fun _ h => nomatch h⟩
  exact (view_insertRecord w₇ _ (lockKey dto)).symm ▸ hw₇.2

end Body

section Create

variable {start : Store} {cfg : Config} {dto : CreateTimeOffRequestDto} {idempotencyKey : String}
  {i : ℕ} {w w' : World}

def OutOfLane (i : ℕ) (w : World) : Prop := w.locks.lane i = none ∧ w.entriesOf i = []

def Waits (i : ℕ) (dto : CreateTimeOffRequestDto) (w : World) : Prop :=
  w.locks.lane i = some (lockKey dto) ∧ w.locks.released i = false ∧ w.entriesOf i = []

/-- The call holds its lane and has no transaction open. -/
def Rests (i : ℕ) (dto : CreateTimeOffRequestDto) (w : World) : Prop :=
  w.locks.Holds i (lockKey dto) ∧ w.entriesOf i = []

theorem OutOfLane.spared (h : OutOfLane i w) (hs : Spared i w w') : OutOfLane i w' :=
  ⟨hs.lane.trans h.1, hs.entries.trans h.2⟩

theorem Waits.spared (h : Waits i dto w) (hs : Spared i w w') : Waits i dto w' :=
  ⟨hs.lane.trans h.1, hs.released.trans h.2.1, hs.entries.trans h.2.2⟩

theorem Rests.spared (h : Rests i dto w) (hs : Spared i w w') : Rests i dto w' :=
  ⟨hs.holds.mpr h.1, hs.entries.trans h.2⟩

/-- The rule of one operation, from an assertion that no other call breaks. -/
theorem lane_perform {o : FlatOp} {A : World → Prop} {Q : Except Err o.Resp → World → Prop}
    (hA : ∀ w w', A w → Spared i w w' → A w')
    (h : ∀ w x r w', A w → Lanes start w → o.exec i x w = some (r, w') →
      LanesKept start i w w' ∧ Q r w') :
    Triple (LaneStep start i) (Spared i) (LanesKept start i) A (Prog.perform o) fun _ => Q := by
  intro w hw
  refine Prog.Holds.perform ?_
  rintro u hR r w' ⟨hlanes, x, hx⟩
  exact h u x r w' (hA w u hw hR) hlanes hx

theorem lane_transaction {s : ℤ} (hs : PlainDay dto.startDate s) (hs2000 : day2000 ≤ s)
    (cfg : Config) (idempotencyKey : String) :
    Triple (LaneStep start i) (Spared i) (LanesKept start i) (Rests i dto)
      (flatten (.transaction (createTransaction cfg dto idempotencyKey
        (calculateDaysRequested dto.startDate dto.endDate) (cfg.hashObject dto))))
      fun _ _ w => Rests i dto w := by
  intro w hw
  refine holds_flattenTransaction (InLane i dto (LaneGood (start.view (lockKey dto))))
    (fun _ => InLane i dto (LaneGood (start.view (lockKey dto))))
    (fun u => u.locks.Holds i (lockKey dto)) ?_
    (fun t ht => lane_body hs hs2000 ht cfg idempotencyKey) ?_ ?_
  -- the begin, the commit and the rollback of the transaction
  · rintro u hR r u' ⟨hlanes, x, hx⟩
    rw [begin_cases hx]
    have hu := hw.spared hR
    exact ⟨lanesKept_refl start i u, fun _ _ => ⟨hu.1, hlanes.good_of_holder hu.1 hu.2⟩,
      fun _ _ => hu.1⟩
  · rintro saved t ht u hR r u' ⟨_, x, hx⟩
    have hu := ht.spared hR
    rcases commit_cases hx with ⟨_, _, rfl, rfl⟩ | ⟨rfl, rfl⟩
    · exact ⟨lanesKept_refl start i u', fun _ h => (nomatch h), fun _ _ => hu.1⟩
    -- after the commit nothing is left to undo
    · exact ⟨commit_lanesKept hu.1 hu.2, fun _ _ => ⟨hu.1, entriesOf_closed rfl⟩,
        fun _ h => nomatch h⟩
  · rintro t ht u hR r u' ⟨hlanes, x, hx⟩
    have hu := hR.holds.mpr ht
    obtain ⟨_, rfl⟩ := rollback_cases hx
    exact ⟨rollback_lanesKept hlanes hu, fun _ => ⟨hu, entriesOf_closed rfl⟩⟩

/-- The operations of the create locks. -/
def BaseOp.queues : BaseOp → Bool
  | enterLock _ => true
  | awaitPrevious => true
  | releaseLock _ => true
  | _ => false

theorem baseExec_locks {o : BaseOp} {x : Choice} {r : Except Err o.Resp}
    (ho : o.queues = false) (h : o.exec i x w = some (r, w')) :
    w'.locks = w.locks ∧ w'.clock = w.clock := by
  cases o with
  | db o =>
    obtain ⟨⟨r', u⟩, hu, heq⟩ := Option.map_eq_some_iff.mp h
    cases heq
    rcases execDb_cases hu with ⟨_, _, _, rfl⟩ | ⟨_, rfl⟩ <;> exact ⟨rfl, rfl⟩
  | enterLock l => cases ho
  | awaitPrevious => cases ho
  -- the operations that queue are excluded
  | releaseLock l => cases ho
  | awaitPut message put =>
    obtain ⟨l, _, heq⟩ := Option.map_eq_some_iff.mp h
    cases heq
    cases r with
    | error e => exact ⟨rfl, rfl⟩
    | ok reply =>
      dsimp only [World.acknowledge]
      split <;> exact ⟨rfl, rfl⟩
  | validateRequest key days => cases x <;> cases h <;> exact ⟨rfl, rfl⟩
  | sendPut put => cases x <;> cases h <;> exact ⟨rfl, rfl⟩
  | _ =>
    cases h
    exact ⟨rfl, rfl⟩

theorem lanesKept_of_base {o : BaseOp} {x : Choice} {r : Except Err o.Resp}
    (ho : o.queues = false) (h : o.exec i x w = some (r, w'))
    (hviews : ∀ lane, w'.store.view lane = w.store.view lane) :
    LanesKept start i w w' ∧ Spared i w w' := by
  obtain ⟨hlocks, hclock⟩ := baseExec_locks ho h
  exact lanesKept_of_views hviews (baseExec_sameCalls h).journal hlocks hclock.ge
    (baseExec_effects h).puts.nextId i

/-- An operation of a create outside its transaction and the queues. -/
theorem lane_quiet {o : BaseOp} {A : World → Prop} (hA : ∀ w w', A w → Spared i w w' → A w')
    (ho : CreateOp cfg dto idempotencyKey (.base o)) (hqueues : o.queues = false) :
    Triple (LaneStep start i) (Spared i) (LanesKept start i) A (flatten (.base o))
      fun _ _ w => A w := by
  refine lane_perform hA fun w x r w' hw _ hx => ?_
  have hx : o.exec i x w = some (r, w') := hx
  have hstore : w'.store = w.store := by
    cases ho with
    | findRecord => rcases exec_db_cases hx with ⟨_, _, _, hs⟩ | ⟨_, hs⟩ <;> exact hs
    | findRequestByKey => rcases exec_db_cases hx with ⟨_, _, _, hs⟩ | ⟨_, hs⟩ <;> exact hs
    | _ => exact exec_store (by simp) hx
  obtain ⟨hkept, hspared⟩ : LanesKept start i w w' ∧ Spared i w w' :=
    lanesKept_of_base hqueues hx fun lane => by rw [hstore]
  exact ⟨hkept, hA w w' hw hspared⟩

theorem lane_enter (dto : CreateTimeOffRequestDto) :
    Triple (LaneStep start i) (Spared i) (LanesKept start i) (OutOfLane i)
      (flatten (.base (.enterLock (lockKey dto)))) fun _ r w =>
        (∃ u, r = .ok u) ∧ Waits i dto w := by
  refine lane_perform (fun _ _ => OutOfLane.spared) fun w x r w' hw hlanes hx => ?_
  cases hx
  refine ⟨lanesKept_of_locks hw.2 (fun hinv => hinv.enter _ hw.1) fun j hj => ?_, ⟨_, rfl⟩,
    ?_, ?_, hw.2⟩
  · exact ⟨Function.update_of_ne hj _ _, rfl, rfl⟩
  · exact Function.update_self _ _ _
  · exact (hlanes.locks.fresh i hw.1).2.2.1

theorem lane_await (dto : CreateTimeOffRequestDto) :
    Triple (LaneStep start i) (Spared i) (LanesKept start i) (Waits i dto)
      (flatten (.base .awaitPrevious)) fun _ r w => (∃ u, r = .ok u) ∧ Rests i dto w := by
  refine lane_perform (fun _ _ => Waits.spared) fun w x r w' hw _ hx => ?_
  obtain ⟨l, hl, heq⟩ := Option.map_eq_some_iff.mp hx
  cases heq
  obtain ⟨_, heq⟩ := Option.ite_none_right_eq_some.mp hl
  cases heq
  have hin : w.locks.lane i ≠ none := by simp [hw.1]
  refine ⟨lanesKept_of_locks hw.2.2 (fun hinv => hinv.awaitPrevious hl hin) fun j hj => ?_,
    ⟨_, rfl⟩, ⟨hw.1, Function.update_self _ _ _, hw.2.1⟩, hw.2.2⟩
  exact ⟨rfl, Function.update_of_ne hj _ _, rfl⟩

theorem lane_release (dto : CreateTimeOffRequestDto) :
    Triple (LaneStep start i) (Spared i) (LanesKept start i) (Rests i dto)
      (flatten (.base (.releaseLock (lockKey dto)))) fun _ _ _ => True := by
  refine lane_perform (fun _ _ => Rests.spared) fun w x r w' hw _ hx => ?_
  cases hx
  refine ⟨lanesKept_of_locks hw.2 (fun hinv => hinv.release hw.1) fun j hj => ?_, trivial⟩
  exact ⟨rfl, rfl, Function.update_of_ne hj _ _⟩

theorem lane_triples {s : ℤ} (hs : PlainDay dto.startDate s) (hs2000 : day2000 ≤ s)
    (start : Store) (i : ℕ) (cfg : Config) (idempotencyKey : String) :
    CreateTriples flatten (LaneStep start i) (Spared i) (LanesKept start i) cfg dto
      idempotencyKey (OutOfLane i) (Waits i dto) (Rests i dto) (Rests i dto) (fun _ => True)
      fun _ _ => True := by
  -- what an operation that neither queues nor writes keeps
  have hstay {A : World → Prop} (hA : ∀ w w', A w → Spared i w w' → A w') {o : BaseOp}
      (ho : CreateOp cfg dto idempotencyKey (.base o)) (hqueues : o.queues = false)
      {B : World → Except Err o.Resp → World → Prop} (hB : ∀ w r w', A w' → B w r w') :
      Triple (LaneStep start i) (Spared i) (LanesKept start i) A (flatten (.base o)) B :=
    fun w hw => Prog.Holds.mono (hB w) (lane_quiet hA ho hqueues w hw)
  have hout (w w' : World) : OutOfLane i w → Spared i w w' → OutOfLane i w' := .spared
  have hrest (w w' : World) : Rests i dto w → Spared i w w' → Rests i dto w' := .spared
  exact
    { out_end := fun _ _ => trivial
      now_out := hstay hout .now rfl fun _ _ _ h => ⟨h, fun _ => id⟩
      find_out := hstay hout .findRecord rfl fun _ _ _ h => ⟨h, fun _ _ _ => trivial⟩
      enter := lane_enter dto
      await := lane_await dto
      now_in := hstay hrest .now rfl fun _ _ _ h => ⟨h, fun _ => id⟩
      sleep_in := fun ms => hstay hrest (.sleep ms) rfl fun _ _ _ => id
      find_in := hstay hrest .findRecord rfl fun _ _ _ h => ⟨h, fun _ _ _ => trivial⟩
      row_in := hstay hrest .findRequestByKey rfl fun _ _ _ h => ⟨h, fun _ _ => trivial⟩
      transaction := fun w hw => Prog.Holds.mono
        (fun _ _ h => ⟨fun _ _ => ⟨h, trivial⟩, fun _ _ => h⟩)
        (lane_transaction hs hs2000 cfg idempotencyKey w hw)
      schedule := fun task w hw => by
        refine Prog.Holds.perform ?_
        rintro u hR r w' ⟨_, x, hx⟩
        cases hx
        obtain ⟨hkept, hspared⟩ := lanesKept_aside start i u (le_refl _)
          (u.immediates ++ [task]) u.hcm u.history
        exact ⟨hkept, ⟨_, rfl⟩, (hw.spared hR).spared hspared, fun _ => id⟩
      release_in := fun w hw => Prog.Holds.mono (fun _ _ _ => ⟨trivial, fun _ => id⟩)
        (lane_release dto w hw)
      release_done := fun w hw => Prog.Holds.mono (fun _ _ _ => ⟨trivial, fun _ => id⟩)
        (lane_release dto w hw) }

/-- A request for a start before 2000 is refused at once. -/
theorem lane_refused {s : ℤ} (hs : PlainDay dto.startDate s) (hs2000 : s < day2000)
    (cfg : Config) (idempotencyKey : String) (w : World) :
    ((createRequest cfg dto idempotencyKey).interp flatten).Holds (LaneStep start i) (Spared i)
      (LanesKept start i) (fun _ _ => True) w := by
  unfold createRequest
  split
  · trivial
  refine holds_now_bind (Prog.Holds.perform ?_)
  rintro u _ r u' ⟨hlanes, x, hx⟩
  cases hx
  refine ⟨lanesKept_refl start i _, ?_⟩
  -- a day before the clock's is in the past
  have hpast : isNotInPast dto.startDate u.clock = false := by
    apply Bool.eq_false_iff.mpr
    intro htrue
    have htoday := (isNotInPast_plain hs hlanes.clock).mp htrue
    have hclock := hlanes.clock
    omega
  dsimp only [Prog.after]
  rw [hpast]
  trivial

/-- A validator writes nothing that the lanes show. -/
theorem lane_sync {puts : PutBalance → Prop} {o : BaseOp} {r : Except Err o.Resp}
    (ho : SyncOp puts (.base o)) (h : LaneStep start i (.base o) w r w') :
    LanesKept start i w w' := by
  obtain ⟨_, x, hx⟩ := h
  have hx : o.exec i x w = some (r, w') := hx
  have hquiet (hqueues : o.queues = false) (hstore : w'.store = w.store) :
      LanesKept start i w w' := (lanesKept_of_base hqueues hx fun lane => by rw [hstore]).1
  cases ho with
  | saveRequest id patch hstatus =>
    refine (lanesKept_of_base rfl hx fun lane => ?_).1
    rcases exec_db_cases hx with ⟨_, _, _, hs⟩ | ⟨_, hs⟩
    · rw [hs]
    -- the retries change no status and no balance
    · rw [hs]
      exact view_saveRequest fun _ => hstatus
  | findPendingSync take =>
    refine hquiet rfl ?_
    rcases exec_db_cases hx with ⟨_, _, _, hs⟩ | ⟨_, hs⟩ <;> exact hs
  | _ => exact hquiet rfl (exec_store (by simp) hx)

end Create

section Runs

/-- Nothing but create calls with plain dates and their validators is started. -/
def plainCreates (_ : Pool Call FlatOp FlatOp.Resp Err (Option RequestBody) World) :
    Act Call Choice Env → Bool
  | .start (.create dto _) => (plainDate dto.startDate).isSome && (plainDate dto.endDate).isSome
  | .start c => c.creates
  | _ => true

variable {start : Store} {cfg : Config} {w w' : World} {i : ℕ}

theorem plainDay_of_isSome {str : String} (h : (plainDate str).isSome = true) :
    ∃ k, PlainDay str k := by
  obtain ⟨⟨y, m, d⟩, hplain⟩ := Option.isSome_iff_exists.mp h
  exact ⟨_, y, m, d, hplain, rfl⟩

theorem lane_code {P : Pool Call FlatOp FlatOp.Resp Err (Option RequestBody) World} {c : Call}
    (hc : plainCreates P (.start c) = true) (hw : OutOfLane i w) :
    ((c.svc cfg).interp flatten).Holds (LaneStep start i) (Spared i) (LanesKept start i)
      (fun _ _ => True) w := by
  cases c with
  | create dto idempotencyKey =>
    obtain ⟨s, hs⟩ := plainDay_of_isSome ((Bool.and_eq_true _ _).mp hc).1
    have hends : ((createRequest cfg dto idempotencyKey).interp flatten).Holds
        (LaneStep start i) (Spared i) (LanesKept start i) (fun _ _ => True) w := by
      -- a start before 2000 is refused, a later one is read as named
      rcases lt_or_ge s day2000 with hlt | hge
      · exact lane_refused hs hlt cfg idempotencyKey w
      · exact Prog.Holds.mono (fun _ _ _ => trivial)
          ((lane_triples hs hge start i cfg idempotencyKey).createRequest w hw)
    refine Prog.Holds.interp_bind (Prog.Holds.mono ?_ hends)
    rintro (e | body) u _ <;> trivial
  | task t =>
    cases t with
    | notifyHcm id key days =>
      have heach : (notifyHcmAsync id key days).Each (SyncOp fun _ => False) :=
        notifyHcmAsync_each id key days
      have hflat : ((notifyHcmAsync id key days).interp flatten).Each fun o =>
          ∃ b, o = .base b ∧ SyncOp (fun _ => False) (.base b) := by
        refine heach.interp fun o ho => ?_
        cases o with
        | base b => exact Prog.Each.perform ⟨b, rfl, ho⟩
        | transaction body => cases ho
      refine Prog.Holds.interp_bind (Prog.Holds.mono ?_ (Prog.Holds.of_each ?_ hflat w))
      · rintro (e | _) u _ <;> trivial
      · rintro o u r u' ⟨b, rfl, hb⟩ hstep
        exact lane_sync hb hstep
    | notifyApprovalToHcm request id => cases hc
  | _ => cases hc

theorem lanesKept_settle (start : Store) {l : CreateLocks} (h : w.locks.settle i = some l) (j : ℕ) :
    Spared j w { w with locks := l } ∧ (Lanes start w → Lanes start { w with locks := l }) := by
  have hsame : l.lane = w.locks.lane ∧ l.entered = w.locks.entered ∧
      l.released = w.locks.released := by
    obtain ⟨_, heq⟩ := Option.ite_none_right_eq_some.mp h
    cases heq
    exact ⟨rfl, rfl, rfl⟩
  obtain ⟨hlane, hentered, hreleased⟩ := hsame
  refine ⟨⟨rfl, congrFun hlane j, congrFun hentered j, congrFun hreleased j, fun _ _ => rfl⟩,
    fun hl => ⟨hl.locks.settle h, hl.clock, hl.good, fun e he u hu lane hno => ?_, hl.drawn⟩⟩
  refine hl.confined e he u hu lane fun hholds => hno ?_
  exact (holds_congr (congrFun hlane _) (congrFun hentered _) (congrFun hreleased _)).mpr hholds

theorem lanesKept_env (start : Store) {e : Env} (h : e.exec w = some w') (j : ℕ) :
    Spared j w w' ∧ (Lanes start w → Lanes start w') := by
  cases e with
  | tick ms =>
    cases h
    have hkept := lanesKept_aside start j w (Nat.le_add_right w.clock ms) w.immediates w.hcm
      w.history
    exact ⟨hkept.2, hkept.1.2⟩
  -- a settled gate changes no row and no lane of a call
  | settle i =>
    obtain ⟨l, hl, rfl⟩ := Option.map_eq_some_iff.mp h
    exact lanesKept_settle start hl j
  | deliver message =>
    obtain ⟨hcm, _, rfl⟩ := Option.map_eq_some_iff.mp h
    have hkept := lanesKept_aside start j w (le_refl _) w.immediates hcm w.history
    exact ⟨hkept.2, hkept.1.2⟩
  | drop message =>
    cases h
    have hkept := lanesKept_aside start j w (le_refl _) w.immediates (w.hcm.remove message)
      w.history
    exact ⟨hkept.2, hkept.1.2⟩

theorem lanesKept_accept (start : Store) {c : Call} (h : w.accept i c = some w') (j : ℕ) :
    Spared j w w' ∧ (Lanes start w → Lanes start w') := by
  rcases accept_cases h with rfl | ⟨t, _, _, rfl⟩
  · exact ⟨.refl j _, id⟩
  · have hkept := lanesKept_aside start j w (le_refl _) (w.immediates.erase t) w.hcm
      { w.history with running := (i, t) :: w.history.running }
    exact ⟨hkept.2, hkept.1.2⟩

/-- The calls that have not started hold and wrote nothing. -/
def concurrentCreates (start : Store) (cfg : Config) :
    RelyGuarantee (flatMachine cfg) fun P a => plainCreates P a = true where
  Inv n w := Lanes start w ∧ ∀ j, n ≤ j → OutOfLane j w
  stepRel i _ := LaneStep start i
  rely i _ := Spared i
  guar i _ := LanesKept start i
  post _ _ _ _ := True
  rely_refl := .refl _ _
  rely_trans := .trans
  step_of hI _ _ hx := ⟨hI.1, _, hx⟩
  guar_inv hi hI h := by
    refine ⟨h.2 hI.1, fun j hj => ?_⟩
    have hne := (lt_of_lt_of_le hi hj).ne'
    exact ⟨(h.1.lane j hne).trans (hI.2 j hj).1, (h.1.entries j hne).trans (hI.2 j hj).2⟩
  guar_rely hne hI h := h.1.spared hI.1.locks hne
  finish_guar {_ i c r w} _ _ :=
    (lanesKept_aside start i w (le_refl _) w.immediates w.hcm (World.finish i c r w).history).1
  accept_inv hI _ hs := by
    refine ⟨(lanesKept_accept start hs 0).2 hI.1, fun j hj => ?_⟩
    exact (hI.2 j (Nat.le_of_succ_le hj)).spared (lanesKept_accept start hs j).1
  accept_rely _ _ _ hs := (lanesKept_accept start hs _).1
  accept_holds {P c w'} hI hC hs := by
    refine lane_code hC ?_
    exact (hI.2 P.next (le_refl _)).spared (lanesKept_accept start hs _).1
  env_inv hI _ hs :=
    ⟨(lanesKept_env start hs 0).2 hI.1, fun j hj =>
      (hI.2 j hj).spared (lanesKept_env start hs j).1⟩
  env_rely _ _ hs := (lanesKept_env start hs _).1
  halt_inv hI _ := ⟨lanes_crash hI.1, fun _ _ => ⟨rfl, rfl⟩⟩

/-- No two active requests of the employee and location share a day. -/
def Store.NoOverlap (s : Store) (employeeId locationId : String) : Prop :=
  ∀ r ∈ s.requests, ∀ r' ∈ s.requests, r ≠ r' →
    r.employeeId = employeeId → r.locationId = locationId → isActive r = true →
    r'.employeeId = employeeId → r'.locationId = locationId → isActive r' = true →
      ∀ k, CoversDay r k → ¬ CoversDay r' k

/-- The requests of an employee and location, without the columns saved beside their status. -/
def Store.requestsOf (s : Store) (employeeId locationId : String) : List TimeOffRequest :=
  (s.requests.filter fun r => r.employeeId = employeeId && r.locationId = locationId).map
    TimeOffRequest.core

/-- Since the start, requests were accepted, and each balance has lost the days of those on it
and no more than it had. -/
def Store.SpentOnly (start s : Store) (employeeId locationId : String) : Prop :=
  ∃ accepted, s.requestsOf employeeId locationId =
      start.requestsOf employeeId locationId ++ accepted ∧
    ∀ b ∈ s.balances, b.key.employeeId = employeeId → b.key.locationId = locationId →
      0 ≤ b.availableBalance ∧ ∃ b₀ ∈ start.balances, b₀.key = b.key ∧
        b.availableBalance = b₀.availableBalance - daysOn accepted b.key

theorem lanes_init {clock nextId : ℕ} {hcm : MockHcm} (hclock : day2000 ≤ today clock)
    (hapart : ∀ employeeId locationId, start.NoOverlap employeeId locationId)
    (henough : ∀ b ∈ start.balances, 0 ≤ b.availableBalance) :
    Lanes start (World.init start clock nextId hcm) := by
  -- the requests of the start are apart as `hapart` says, and nothing was accepted yet
  refine ⟨CreateLocks.init_inv, hclock, fun lane => ⟨?_, ⟨[], ?_, ?_⟩, ?_⟩,
    fun _ he => (nomatch he), fun _ he => nomatch he⟩
  · refine List.Pairwise.map _ (fun r r' h => h) ?_
    have hnodup : (start.requests.filter fun r =>
        laneOf r.employeeId r.locationId = lane).Nodup :=
      (List.Nodup.of_map _ start.requestIds).filter _
    refine hnodup.pairwise_of_forall_ne fun r hr r' hr' hne => ?_
    intro hemp hloc hactive hactive'
    exact hapart _ _ r (List.mem_of_mem_filter hr) r' (List.mem_of_mem_filter hr') hne rfl rfl
      hactive hemp.symm hloc.symm hactive'
  · exact (List.append_nil _).symm
  · refine (List.map_id _).symm.trans (List.map_congr_left fun b _ => ?_)
    exact Prod.ext rfl (sub_zero _).symm
  · intro b hb
    obtain ⟨row, hrow, _, rfl⟩ := mem_view_available.mp hb
    exact henough row hrow

theorem noOverlap_of_good {V₀ : LaneView} {s : Store} {employeeId locationId : String}
    (h : LaneGood V₀ (s.view (laneOf employeeId locationId))) :
    s.NoOverlap employeeId locationId := by
  intro r hr r' hr' hne hemp hloc hactive hemp' hloc' hactive'
  have hmem {x : TimeOffRequest} (hx : x ∈ s.requests) (he : x.employeeId = employeeId)
      (hl : x.locationId = locationId) :
      x.core ∈ (s.view (laneOf employeeId locationId)).requests :=
    mem_view_requests.mpr ⟨x, hx, by rw [he, hl], rfl⟩
  have hcore : r.core ≠ r'.core := by
    intro heq
    have hid : r.core.id = r'.core.id := congrArg TimeOffRequest.id heq
    exact hne (List.inj_on_of_nodup_map s.requestIds hr hr' hid)
  have hapart : Apart r.core r'.core :=
    h.apart.forall (hmem hr hemp hloc) (hmem hr' hemp' hloc') hcore
  exact hapart (hemp.trans hemp'.symm) (hloc.trans hloc'.symm) hactive hactive'

theorem requestsOf_eq (s : Store) (employeeId locationId : String) :
    s.requestsOf employeeId locationId =
      (s.view (laneOf employeeId locationId)).requests.filter fun r =>
        r.employeeId = employeeId && r.locationId = locationId := by
  rw [Store.view, List.filter_map, List.filter_filter]
  refine congrArg (List.map _) (List.filter_congr fun r _ => ?_)
  by_cases he : r.employeeId = employeeId <;> by_cases hl : r.locationId = locationId <;>
    simp [TimeOffRequest.core, he, hl]

theorem daysOn_filter {accepted : List TimeOffRequest} {key : BalanceKey} :
    daysOn (accepted.filter fun r =>
      r.employeeId = key.employeeId && r.locationId = key.locationId) key =
        daysOn accepted key := by
  unfold daysOn
  rw [List.filter_filter]
  refine congrArg (fun l : List TimeOffRequest => (l.map (·.daysRequested)).sum)
    (List.filter_congr fun r _ => ?_)
  by_cases hkey : r.balanceKey = key
  · subst hkey
    simp [TimeOffRequest.balanceKey]
  · simp [hkey]

theorem spentOnly_of_good {s : Store} {employeeId locationId : String}
    (h : LaneGood (start.view (laneOf employeeId locationId))
      (s.view (laneOf employeeId locationId))) :
    start.SpentOnly s employeeId locationId := by
  obtain ⟨_, ⟨accepted, hrequests, havailable⟩, henough⟩ := h
  -- the requests of the employee among those accepted in the lane
  refine ⟨accepted.filter fun r => r.employeeId = employeeId && r.locationId = locationId,
    ?_, fun b hb hemp hloc => ?_⟩
  · rw [requestsOf_eq, requestsOf_eq, hrequests, List.filter_append]
  · subst hemp hloc
    have hmem : (b.key, b.availableBalance) ∈
        (s.view (laneOf b.key.employeeId b.key.locationId)).available :=
      mem_view_available.mpr ⟨b, hb, rfl, rfl⟩
    refine ⟨henough _ hmem, ?_⟩
    -- the amount in the lane is that of the start without the accepted days
    rw [havailable] at hmem
    obtain ⟨x, hx, heq⟩ := List.mem_map.mp hmem
    obtain ⟨b₀, hb₀, _, rfl⟩ := mem_view_available.mp hx
    obtain ⟨hkey, hdays⟩ := Prod.ext_iff.mp heq
    dsimp only at hkey hdays
    refine ⟨b₀, hb₀, hkey, ?_⟩
    rw [daysOn_filter, ← hdays, hkey]

/-- With a clock from 2000 on, in any interleaving of creates with plain dates: where no create
holds the lane of an employee and location, their active requests share no day, and each of
their balances has what it had less the days of the requests accepted on it, which it had. -/
theorem creates_keep_lanes (cfg : Config) (start : Store) (clock nextId : ℕ) (hcm : MockHcm)
    (hclock : day2000 ≤ today clock)
    (hapart : ∀ employeeId locationId, start.NoOverlap employeeId locationId)
    (henough : ∀ b ∈ start.balances, 0 ≤ b.availableBalance)
    {P : Pool Call FlatOp FlatOp.Resp Err (Option RequestBody) World}
    (hP : (flatMachine cfg).Reach (fun P a => plainCreates P a = true)
      (Pool.init (World.init start clock nextId hcm)) P)
    (employeeId locationId : String)
    (hidle : ∀ i < P.next, ¬ P.shared.locks.Holds i (laneOf employeeId locationId)) :
    P.shared.store.NoOverlap employeeId locationId ∧
      start.SpentOnly P.shared.store employeeId locationId := by
  have hinv : Lanes start (World.init start clock nextId hcm) ∧
      ∀ j, 0 ≤ j → OutOfLane j (World.init start clock nextId hcm) :=
    ⟨lanes_init hclock hapart henough, fun _ _ => ⟨rfl, rfl⟩⟩
  obtain ⟨hlanes, hout⟩ := ((concurrentCreates start cfg).good_of_reach hinv hP).inv
  have hgood : LaneGood (start.view (laneOf employeeId locationId))
      (P.shared.store.view (laneOf employeeId locationId)) := by
    -- an open transaction would be of a process that holds the lane
    apply hlanes.good_of_idle
    intro e _ hholds
    rcases lt_or_ge e.pid P.next with hlt | hge
    · exact hidle e.pid hlt hholds
    · have hnone := (hout e.pid hge).1
      rw [hholds.lane_eq] at hnone
      cases hnone
  exact ⟨noOverlap_of_good hgood, spentOnly_of_good hgood⟩

/-- A call for the 7th and 8th runs to its commit while one for the 8th and 9th waits for the
lane, which is refused then. -/
def twoForTheEighth : List (Act Call Choice Env) :=
  [.start (.create (plainDto "2030-01-07" "2030-01-08") "key-1"),
    .start (.create (plainDto "2030-01-08" "2030-01-09") "key-2")] ++
    List.replicate 3 (.step 0 .go) ++ List.replicate 3 (.step 1 .go) ++
    List.replicate 13 (.step 0 .go) ++ .env (.settle 0) :: List.replicate 7 (.step 1 .go)

theorem twoForTheEighth_runs :
    ((flatMachine plainConfig).run (fun P a => plainCreates P a = true)
      (Pool.init (tenDaysAt 1893456000000)) twoForTheEighth).isSome = true := by
  decide +kernel

theorem ten_days_noOverlap (employeeId locationId : String) :
    (tenDaysAt 0).store.NoOverlap employeeId locationId :=
  fun _ hr => nomatch hr

theorem ten_days_enough (b : EmployeeBalance) (hb : b ∈ (tenDaysAt 0).store.balances) :
    0 ≤ b.availableBalance := by
  obtain rfl := List.mem_singleton.mp hb
  decide +kernel

theorem twoForTheEighth_keeps_lane :
    ∃ P, (flatMachine plainConfig).run (fun P a => plainCreates P a = true)
        (Pool.init (tenDaysAt 1893456000000)) twoForTheEighth = some P ∧
      P.shared.store.NoOverlap "EMP123" "LOC1" ∧
        (tenDaysAt 0).store.SpentOnly P.shared.store "EMP123" "LOC1" := by
  have hrun := (Option.some_get twoForTheEighth_runs).symm
  refine ⟨_, hrun, ?_⟩
  exact creates_keep_lanes plainConfig (tenDaysAt 0).store 1893456000000 0 (.init [])
    (by decide +kernel) ten_days_noOverlap ten_days_enough (Machine.reach_of_run .refl hrun)
    "EMP123" "LOC1" (by decide +kernel)

/-- In 1997, two calls from a day of the year 98, one after the other. -/
def sameDayTwice : List (Act Call Choice Env) :=
  .start (.create (plainDto "0098-01-01" "0101-01-01") "key-1") ::
    List.replicate 16 (.step 0 .go) ++
    .start (.create (plainDto "0098-01-01" "0101-01-01") "key-2") ::
      List.replicate 16 (.step 1 .go)

theorem sameDayTwice_runs :
    ((flatMachine plainConfig).run (fun P a => plainCreates P a = true)
      (Pool.init (tenDaysAt 852076800000)) sameDayTwice).isSome = true := by
  decide +kernel

/-- Before 2000 the year 98 is taken for 1998, which is after the year 101: then a request that
overlaps itself is accepted twice. -/
theorem year_98_accepted_twice :
    ¬ ∀ (cfg : Config) (start : Store) (clock nextId : ℕ) (hcm : MockHcm)
      (_ : ∀ employeeId locationId, start.NoOverlap employeeId locationId)
      (_ : ∀ b ∈ start.balances, 0 ≤ b.availableBalance)
      (P : Pool Call FlatOp FlatOp.Resp Err (Option RequestBody) World),
      (flatMachine cfg).Reach (fun P a => plainCreates P a = true)
          (Pool.init (World.init start clock nextId hcm)) P →
        ∀ employeeId locationId,
          (∀ i < P.next, ¬ P.shared.locks.Holds i (laneOf employeeId locationId)) →
          P.shared.store.NoOverlap employeeId locationId ∧
            start.SpentOnly P.shared.store employeeId locationId := by
  -- both rows cover the first of January 98, and the check compared other years
  intro h
  have hkept := (h plainConfig (tenDaysAt 0).store 852076800000 0 (.init []) ten_days_noOverlap
    ten_days_enough _ (Machine.reach_of_run .refl (Option.some_get sameDayTwice_runs).symm)
    "EMP123" "LOC1" (by decide +kernel)).1
  have hrows : ∃ r r', (((flatMachine plainConfig).run (fun P a => plainCreates P a = true)
      (Pool.init (tenDaysAt 852076800000)) sameDayTwice).get
        sameDayTwice_runs).shared.store.requests = [r, r'] ∧ r ≠ r' ∧
      (r.employeeId = "EMP123" ∧ r.locationId = "LOC1" ∧ isActive r = true ∧
        r.startDate = "0098-01-01" ∧ r.endDate = "0101-01-01") ∧
      (r'.employeeId = "EMP123" ∧ r'.locationId = "LOC1" ∧ isActive r' = true ∧
        r'.startDate = "0098-01-01" ∧ r'.endDate = "0101-01-01") := by
    generalize hrequests : (((flatMachine plainConfig).run (fun P a => plainCreates P a = true)
      (Pool.init (tenDaysAt 852076800000)) sameDayTwice).get
        sameDayTwice_runs).shared.store.requests = rows
    have hlist : (rows.map fun r => (r.id, r.employeeId, r.locationId, isActive r, r.startDate,
        r.endDate)) = [(0, "EMP123", "LOC1", true, "0098-01-01", "0101-01-01"),
          (1, "EMP123", "LOC1", true, "0098-01-01", "0101-01-01")] := by
      rw [← hrequests]
      decide +kernel
    obtain ⟨r, l, rfl, hr, hl⟩ := List.map_eq_cons_iff.mp hlist
    obtain ⟨r', l', rfl, hr', hl'⟩ := List.map_eq_cons_iff.mp hl
    obtain rfl := List.map_eq_nil_iff.mp hl'
    simp only [Prod.mk.injEq] at hr hr'
    refine ⟨r, r', rfl, fun heq => ?_, hr.2, hr'.2⟩
    have hid : r.id = r'.id := congrArg TimeOffRequest.id heq
    rw [hr.1, hr'.1] at hid
    cases hid
  obtain ⟨r, r', hrequests, hne, ⟨hemp, hloc, hactive, hs, he⟩, hemp', hloc', hactive', hs', he'⟩ :=
    hrows
  have hfirst : PlainDay "0098-01-01" (-683733) :=
    ⟨98, 1, 1, by decide +kernel, by decide +kernel⟩
  have hlast : PlainDay "0101-01-01" (-682638) :=
    ⟨101, 1, 1, by decide +kernel, by decide +kernel⟩
  have hcovers {x : TimeOffRequest} (hs : x.startDate = "0098-01-01")
      (he : x.endDate = "0101-01-01") : CoversDay x (-683733) :=
    ⟨_, _, hs ▸ hfirst, he ▸ hlast, by decide, by decide⟩
  have hmem : r ∈ [r, r'] ∧ r' ∈ [r, r'] := by simp
  rw [← hrequests] at hmem
  exact hkept r hmem.1 r' hmem.2 hne hemp hloc hactive hemp' hloc' hactive' _ (hcovers hs he)
    (hcovers hs' he')

end Runs

end TimeOff
