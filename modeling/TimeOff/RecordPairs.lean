import TimeOff.DecidedOnce
import TimeOff.FaithfulResponse

/-! Requests and idempotency records come in pairs: a transaction inserts both or, however it
fails and whatever interleaves with it, neither is left. A transaction that fails is taken to undo
its own writes and no others. -/
namespace TimeOff

open Async

section Tables

/-- The rows of the requests, as they were asked for. -/
def Store.asks (s : Store) : List Asked := s.requests.map TimeOffRequest.asked

/-- The record that a creation writes for its row. -/
structure IdempotencyRecord.For (record : IdempotencyRecord) (a : Asked) : Prop where
  key : record.idempotencyKey = a.idempotencyKey
  employee : record.employeeId = a.balanceKey.employeeId
  body : record.responseBody.asked = a

variable {s s' : Store} {entries : List Entry}

theorem asks_saveRequest (id : ℕ) (patch : TimeOffRequest → RequestPatch) :
    (s.saveRequest id patch).asks = s.asks :=
  Store.map_ite_key TimeOffRequest.asked (·.id = id) (fun r => (patch r).apply r) (fun _ => rfl)
    s.requests

theorem eq_of_ask_key {a b : Asked} (ha : a ∈ s.asks) (hb : b ∈ s.asks)
    (h : a.idempotencyKey = b.idempotencyKey) : a = b := by
  have hkeys : (s.asks.map Asked.idempotencyKey).Nodup := by
    rw [Store.asks, List.map_map]
    exact s.requestKeys
  exact List.inj_on_of_nodup_map hkeys ha hb h

theorem eq_of_ask_id {a b : Asked} (ha : a ∈ s.asks) (hb : b ∈ s.asks) (h : a.id = b.id) :
    a = b := by
  have hids : (s.asks.map Asked.id).Nodup := by
    rw [Store.asks, List.map_map]
    exact s.requestIds
  exact List.inj_on_of_nodup_map hids ha hb h

/-- The rows that are left are those that no undone call inserted. -/
theorem mem_asks_undoAll {a : Asked} : a ∈ (undoAll entries s).asks ↔
    a ∈ s.asks ∧ ∀ e ∈ entries, e.undo ≠ some (.newRequest a.id) := by
  induction entries generalizing s with
  | nil => simp [undoAll]
  | cons e entries ih =>
    change a ∈ (undoAll entries (e.undo.elim s (·.run s))).asks ↔ _
    rw [ih, List.forall_mem_cons]
    -- of the things to undo only an insert takes a row away
    have hstep : a ∈ (e.undo.elim s (·.run s)).asks ↔
        a ∈ s.asks ∧ e.undo ≠ some (.newRequest a.id) := by
      cases hu : e.undo with
      | none => simp
      | some u =>
        cases u with
        | request id patch => simp [Undo.run, asks_saveRequest]
        | newRequest id =>
          simp only [Option.elim_some, Undo.run, Store.removeRequest, Store.asks, List.mem_map,
            List.mem_filter, decide_eq_true_eq, ne_eq, Option.some.injEq, Undo.newRequest.injEq]
          constructor
          · rintro ⟨r, ⟨hr, hne⟩, rfl⟩
            exact ⟨⟨r, hr, rfl⟩, fun h => hne h.symm⟩
          · rintro ⟨⟨r, hr, rfl⟩, hne⟩
            exact ⟨r, ⟨hr, fun h => hne h.symm⟩, rfl⟩
        | _ => simp [Undo.run, Store.saveBalance, Store.removeBalance, Store.removeRecord,
            Store.asks]
    rw [hstep, and_assoc]

theorem mem_records_undoAll {record : IdempotencyRecord} : record ∈ (undoAll entries s).records ↔
    record ∈ s.records ∧ ∀ e ∈ entries, e.undo ≠ some (.newRecord record.idempotencyKey) := by
  induction entries generalizing s with
  | nil => simp [undoAll]
  | cons e entries ih =>
    change record ∈ (undoAll entries (e.undo.elim s (·.run s))).records ↔ _
    rw [ih, List.forall_mem_cons]
    have hstep : record ∈ (e.undo.elim s (·.run s)).records ↔
        record ∈ s.records ∧ e.undo ≠ some (.newRecord record.idempotencyKey) := by
      cases hu : e.undo with
      | none => simp
      | some u =>
        cases u with
        | newRecord key =>
          simp only [Option.elim_some, Undo.run, Store.removeRecord, List.mem_filter,
            decide_eq_true_eq, ne_eq, Option.some.injEq, Undo.newRecord.injEq]
          exact and_congr_right fun _ => not_congr eq_comm
        | _ => simp [Undo.run, Store.saveBalance, Store.saveRequest, Store.removeBalance,
            Store.removeRequest]
    rw [hstep, and_assoc]

end Tables

section Journal

variable {w w' : World} {i j : ℕ} {u : Undo}

/-- The open transaction of process `i` has a call that `u` undoes. -/
def World.Wrote (w : World) (i : ℕ) (u : Undo) : Prop :=
  ∃ e ∈ w.journal, e.pid = i ∧ e.undo = some u

theorem wrote_of_entry {e : Entry} (h : w'.journal = e :: w.journal) :
    w'.Wrote j u ↔ w.Wrote j u ∨ e.pid = j ∧ e.undo = some u := by
  unfold World.Wrote
  rw [h, List.exists_mem_cons_iff, or_comm]

theorem wrote_of_entry_ne {e : Entry} (h : w'.journal = e :: w.journal) (hu : e.undo ≠ some u) :
    w'.Wrote j u ↔ w.Wrote j u :=
  (wrote_of_entry h).trans (or_iff_left fun hold => hu hold.2)

theorem wrote_of_close (h : w'.journal = w.journal.filter (·.pid ≠ i)) :
    w'.Wrote j u ↔ w.Wrote j u ∧ j ≠ i := by
  unfold World.Wrote
  rw [h]
  constructor
  · rintro ⟨e, he, rfl, hu⟩
    obtain ⟨hmem, hne⟩ := List.mem_filter.mp he
    exact ⟨⟨e, hmem, rfl, hu⟩, by simpa using hne⟩
  · rintro ⟨⟨e, hmem, rfl, hu⟩, hne⟩
    exact ⟨e, List.mem_filter.mpr ⟨hmem, by simpa using hne⟩, rfl, hu⟩

end Journal

section Invariant

/-- Each record has its row, each row its record or a transaction that has still to write it,
and both come from the same transaction. -/
structure Paired (w : World) : Prop where
  ids : ∀ a ∈ w.store.asks, a.id < w.nextId
  drawn : ∀ {i id}, w.Wrote i (.newRequest id) → id < w.nextId
  owner : ∀ {i j id}, w.Wrote i (.newRequest id) → w.Wrote j (.newRequest id) → i = j
  author : ∀ {i j key}, w.Wrote i (.newRecord key) → w.Wrote j (.newRecord key) → i = j
  present : ∀ {i key}, w.Wrote i (.newRecord key) →
    ∃ record ∈ w.store.records, record.idempotencyKey = key
  row : ∀ record ∈ w.store.records, ∃ a ∈ w.store.asks, record.For a
  record : ∀ a ∈ w.store.asks, (∃ record ∈ w.store.records, record.For a) ∨
    ∃ i, w.Wrote i (.newRequest a.id)
  together : ∀ record ∈ w.store.records, ∀ a ∈ w.store.asks, record.For a →
    ∀ i, w.Wrote i (.newRequest a.id) ↔ w.Wrote i (.newRecord record.idempotencyKey)

/-- Process `i` has written the record of each row that it has inserted. -/
def Filed (i : ℕ) (w : World) : Prop :=
  ∀ a ∈ w.store.asks, w.Wrote i (.newRequest a.id) → ∃ record ∈ w.store.records, record.For a

/-- Process `i` has inserted no row that is not committed. -/
def Unwritten (i : ℕ) (w : World) : Prop := ∀ id, ¬ w.Wrote i (.newRequest id)

/-- What process `j` relies on: its rows stay, and so do their records. -/
structure Steady (j : ℕ) (w w' : World) : Prop where
  wrote : ∀ id, w'.Wrote j (.newRequest id) ↔ w.Wrote j (.newRequest id)
  placed : ∀ a ∈ w.store.asks, w.Wrote j (.newRequest a.id) → a ∈ w'.store.asks
  filed : Filed j w → Filed j w'

variable {w w' w'' : World} {i j : ℕ}

theorem Steady.refl (j : ℕ) (w : World) : Steady j w w :=
  ⟨fun _ => .rfl, fun _ ha _ => ha, id⟩

theorem Steady.trans (h : Steady j w w') (h' : Steady j w' w'') : Steady j w w'' :=
  ⟨fun id => (h'.wrote id).trans (h.wrote id),
    fun a ha hw => h'.placed a (h.placed a ha hw) ((h.wrote a.id).mpr hw),
    fun hf => h'.filed (h.filed hf)⟩

/-- What process `i` guarantees. -/
def PairKept (i : ℕ) (w w' : World) : Prop := Paired w' ∧ ∀ j, j ≠ i → Steady j w w'

/-- A move that leaves the pairs and what the open transactions have done to them. -/
structure SamePairs (w w' : World) : Prop where
  asks : w'.store.asks = w.store.asks
  records : w'.store.records = w.store.records
  nextId : w.nextId ≤ w'.nextId
  newRequest : ∀ j id, w'.Wrote j (.newRequest id) ↔ w.Wrote j (.newRequest id)
  newRecord : ∀ j key, w'.Wrote j (.newRecord key) ↔ w.Wrote j (.newRecord key)

theorem SamePairs.steady (h : SamePairs w w') (j : ℕ) : Steady j w w' := by
  refine ⟨h.newRequest j, fun a ha _ => h.asks ▸ ha, fun hf a ha hw => ?_⟩
  rw [h.asks] at ha
  rw [h.records]
  exact hf a ha ((h.newRequest j a.id).mp hw)

theorem SamePairs.paired (h : SamePairs w w') (hp : Paired w) : Paired w' := by
  refine ⟨fun a ha => ?_, fun hw => ?_, fun hi hj => ?_, fun hi hj => ?_, fun hw => ?_,
    fun record hr => ?_, fun a ha => ?_, fun record hr a ha hfor i => ?_⟩
  · exact (hp.ids a (h.asks ▸ ha)).trans_le h.nextId
  · exact (hp.drawn ((h.newRequest _ _).mp hw)).trans_le h.nextId
  · exact hp.owner ((h.newRequest _ _).mp hi) ((h.newRequest _ _).mp hj)
  · exact hp.author ((h.newRecord _ _).mp hi) ((h.newRecord _ _).mp hj)
  · rw [h.records]
    exact hp.present ((h.newRecord _ _).mp hw)
  · rw [h.asks]
    exact hp.row record (h.records ▸ hr)
  · rw [h.records]
    refine (hp.record a (h.asks ▸ ha)).imp_right ?_
    rintro ⟨i, hw⟩
    exact ⟨i, (h.newRequest _ _).mpr hw⟩
  · rw [h.newRequest, h.newRecord]
    exact hp.together record (h.records ▸ hr) a (h.asks ▸ ha) hfor i

theorem SamePairs.kept (h : SamePairs w w') (hp : Paired w) : PairKept i w w' :=
  ⟨h.paired hp, fun j _ => h.steady j⟩

end Invariant

section Moves

variable {w w' : World} {i j : ℕ} {a : Asked}

/-- Process `i` has inserted the row `a`. -/
structure RowAdded (i : ℕ) (a : Asked) (w w' : World) : Prop where
  asks : w'.store.asks = w.store.asks ++ [a]
  records : w'.store.records = w.store.records
  fresh : a.id = w.nextId
  nextId : w'.nextId = w.nextId + 1
  key : ∀ b ∈ w.store.asks, b.idempotencyKey ≠ a.idempotencyKey
  newRequest : ∀ j id, w'.Wrote j (.newRequest id) ↔ w.Wrote j (.newRequest id) ∨ i = j ∧ id = a.id
  newRecord : ∀ j key, w'.Wrote j (.newRecord key) ↔ w.Wrote j (.newRecord key)

theorem RowAdded.kept (h : RowAdded i a w w') (hp : Paired w) : PairKept i w w' := by
  have hmem (b : Asked) : b ∈ w'.store.asks ↔ b ∈ w.store.asks ∨ b = a := by
    rw [h.asks, List.mem_append, List.mem_singleton]
  have hle : w.nextId ≤ w'.nextId := h.nextId ▸ Nat.le_succ _
  -- what was written before has an id from before
  have hold (b : Asked) (hb : b ∈ w.store.asks) (j : ℕ) :
      w'.Wrote j (.newRequest b.id) ↔ w.Wrote j (.newRequest b.id) := by
    rw [h.newRequest, or_iff_left]
    rintro ⟨_, hid⟩
    have := hp.ids b hb
    rw [hid, h.fresh] at this
    exact lt_irrefl _ this
  have hnone (j : ℕ) : ¬ w.Wrote j (.newRequest a.id) := fun hw =>
    lt_irrefl _ (h.fresh ▸ hp.drawn hw)
  have hfor (record : IdempotencyRecord) (hr : record ∈ w.store.records) : ¬ record.For a := by
    intro hfor
    obtain ⟨b, hb, hforb⟩ := hp.row record hr
    exact h.key b hb (hforb.key.symm.trans hfor.key)
  refine ⟨⟨fun b hb => ?_, fun hw => ?_, fun {i' j' id} hi hj => ?_, fun hi hj => ?_, fun hw => ?_,
    fun record hr => ?_, fun b hb => ?_, fun record hr b hb hforb j => ?_⟩, fun j hj => ?_⟩
  · rcases (hmem b).mp hb with hb | rfl
    · exact (hp.ids b hb).trans_le hle
    · rw [h.fresh, h.nextId]
      exact Nat.lt_succ_self _
  · rcases (h.newRequest _ _).mp hw with hw | ⟨_, rfl⟩
    · exact (hp.drawn hw).trans_le hle
    · rw [h.fresh, h.nextId]
      exact Nat.lt_succ_self _
  · rcases (h.newRequest _ _).mp hi with hi | ⟨rfl, rfl⟩ <;>
      rcases (h.newRequest _ _).mp hj with hj | ⟨rfl, hid⟩
    · exact hp.owner hi hj
    · exact absurd (hid ▸ hi) (hnone _)
    · exact absurd hj (hnone _)
    · rfl
  · exact hp.author ((h.newRecord _ _).mp hi) ((h.newRecord _ _).mp hj)
  · rw [h.records]
    exact hp.present ((h.newRecord _ _).mp hw)
  · obtain ⟨b, hb, hforb⟩ := hp.row record (h.records ▸ hr)
    exact ⟨b, (hmem b).mpr (.inl hb), hforb⟩
  · rcases (hmem b).mp hb with hb | rfl
    · rw [h.records]
      refine (hp.record b hb).imp_right ?_
      rintro ⟨j, hw⟩
      exact ⟨j, (hold b hb j).mpr hw⟩
    · exact .inr ⟨i, (h.newRequest _ _).mpr (.inr ⟨rfl, rfl⟩)⟩
  · rw [h.records] at hr
    rcases (hmem b).mp hb with hb | rfl
    · rw [hold b hb, h.newRecord]
      exact hp.together record hr b hb hforb j
    · exact absurd hforb (hfor record hr)
  · have hwrote (id : ℕ) : w'.Wrote j (.newRequest id) ↔ w.Wrote j (.newRequest id) := by
      rw [h.newRequest, or_iff_left]
      exact fun heq => hj heq.1.symm
    refine ⟨hwrote, fun b hb _ => (hmem b).mpr (.inl hb), fun hf b hb hw => ?_⟩
    rw [h.records]
    rcases (hmem b).mp hb with hb | rfl
    · exact hf b hb ((hwrote _).mp hw)
    · exact absurd ((hwrote _).mp hw) (hnone j)

/-- Process `i` has written the record of a row that it has inserted. -/
structure RecordAdded (i : ℕ) (record : IdempotencyRecord) (a : Asked) (w w' : World) : Prop where
  asks : w'.store.asks = w.store.asks
  records : w'.store.records = w.store.records ++ [record]
  nextId : w'.nextId = w.nextId
  fresh : ∀ r ∈ w.store.records, r.idempotencyKey ≠ record.idempotencyKey
  placed : a ∈ w.store.asks
  wrote : w.Wrote i (.newRequest a.id)
  pair : record.For a
  newRequest : ∀ j id, w'.Wrote j (.newRequest id) ↔ w.Wrote j (.newRequest id)
  newRecord : ∀ j key, w'.Wrote j (.newRecord key) ↔
    w.Wrote j (.newRecord key) ∨ i = j ∧ key = record.idempotencyKey

theorem RecordAdded.kept {record : IdempotencyRecord} (h : RecordAdded i record a w w')
    (hp : Paired w) : PairKept i w w' := by
  have hmem (r : IdempotencyRecord) :
      r ∈ w'.store.records ↔ r ∈ w.store.records ∨ r = record := by
    rw [h.records, List.mem_append, List.mem_singleton]
  -- nobody has written a record of this key
  have hnone (j : ℕ) : ¬ w.Wrote j (.newRecord record.idempotencyKey) := by
    intro hw
    obtain ⟨r, hr, hkey⟩ := hp.present hw
    exact h.fresh r hr hkey
  refine ⟨⟨fun b hb => ?_, fun hw => ?_, fun hi hj => ?_, fun {i' j' key} hi hj => ?_,
    fun {i' key} hw => ?_, fun r hr => ?_, fun b hb => ?_, fun r hr b hb hforb j => ?_⟩,
    fun j hj => ?_⟩
  · rw [h.nextId]
    exact hp.ids b (h.asks ▸ hb)
  · rw [h.nextId]
    exact hp.drawn ((h.newRequest _ _).mp hw)
  · exact hp.owner ((h.newRequest _ _).mp hi) ((h.newRequest _ _).mp hj)
  · rcases (h.newRecord _ _).mp hi with hi | ⟨rfl, rfl⟩ <;>
      rcases (h.newRecord _ _).mp hj with hj | ⟨rfl, hkey⟩
    · exact hp.author hi hj
    · exact absurd (hkey ▸ hi) (hnone _)
    · exact absurd hj (hnone _)
    · rfl
  · rcases (h.newRecord _ _).mp hw with hw | ⟨_, rfl⟩
    · obtain ⟨r, hr, hkey⟩ := hp.present hw
      exact ⟨r, (hmem r).mpr (.inl hr), hkey⟩
    · exact ⟨record, (hmem record).mpr (.inr rfl), rfl⟩
  · rw [h.asks]
    rcases (hmem r).mp hr with hr | rfl
    · exact hp.row r hr
    · exact ⟨a, h.placed, h.pair⟩
  · refine (hp.record b (h.asks ▸ hb)).imp ?_ ?_
    · rintro ⟨r, hr, hforb⟩
      exact ⟨r, (hmem r).mpr (.inl hr), hforb⟩
    · rintro ⟨j, hw⟩
      exact ⟨j, (h.newRequest _ _).mpr hw⟩
  · rw [h.asks] at hb
    rw [h.newRequest, h.newRecord]
    rcases (hmem r).mp hr with hr | rfl
    · rw [or_iff_left fun heq => h.fresh r hr heq.2]
      exact hp.together r hr b hb hforb j
    -- the row of this key is the one that the process has inserted
    · obtain rfl : b = a := eq_of_ask_key hb h.placed (hforb.key.symm.trans h.pair.key)
      constructor
      · exact fun hw => .inr ⟨hp.owner h.wrote hw, rfl⟩
      · rintro (hw | ⟨rfl, _⟩)
        · exact absurd hw (hnone j)
        · exact h.wrote
  · refine ⟨h.newRequest j, fun b hb _ => h.asks ▸ hb, fun hf b hb hw => ?_⟩
    rw [h.asks] at hb
    obtain ⟨r, hr, hforb⟩ := hf b hb ((h.newRequest _ _).mp hw)
    exact ⟨r, (hmem r).mpr (.inl hr), hforb⟩

/-- Process `i` has committed. -/
structure PairsClosed (i : ℕ) (w w' : World) : Prop where
  asks : w'.store.asks = w.store.asks
  records : w'.store.records = w.store.records
  nextId : w'.nextId = w.nextId
  wrote : ∀ j u, w'.Wrote j u ↔ w.Wrote j u ∧ j ≠ i

theorem PairsClosed.kept (h : PairsClosed i w w') (hp : Paired w) (hf : Filed i w) :
    PairKept i w w' := by
  refine ⟨⟨fun a ha => ?_, fun hw => ?_, fun hi hj => ?_, fun hi hj => ?_, fun hw => ?_,
    fun r hr => ?_, fun a ha => ?_, fun r hr a ha hfor j => ?_⟩, fun j hj => ?_⟩
  · rw [h.nextId]
    exact hp.ids a (h.asks ▸ ha)
  · rw [h.nextId]
    exact hp.drawn ((h.wrote _ _).mp hw).1
  · exact hp.owner ((h.wrote _ _).mp hi).1 ((h.wrote _ _).mp hj).1
  · exact hp.author ((h.wrote _ _).mp hi).1 ((h.wrote _ _).mp hj).1
  · rw [h.records]
    exact hp.present ((h.wrote _ _).mp hw).1
  · rw [h.asks]
    exact hp.row r (h.records ▸ hr)
  -- a row of the committed transaction has its record by now
  · rw [h.asks] at ha
    rw [h.records]
    rcases hp.record a ha with hr | ⟨j, hw⟩
    · exact .inl hr
    · rcases eq_or_ne j i with rfl | hne
      · exact .inl (hf a ha hw)
      · exact .inr ⟨j, (h.wrote _ _).mpr ⟨hw, hne⟩⟩
  · rw [h.wrote, h.wrote]
    exact and_congr_left fun _ => hp.together r (h.records ▸ hr) a (h.asks ▸ ha) hfor j
  · have hwrote (u : Undo) : w'.Wrote j u ↔ w.Wrote j u := by
      rw [h.wrote, and_iff_left hj]
    refine ⟨fun id => hwrote _, fun a ha _ => h.asks ▸ ha, fun hfj a ha hw => ?_⟩
    rw [h.asks] at ha
    rw [h.records]
    exact hfj a ha ((hwrote _).mp hw)

/-- The transactions of the processes in `p` have been undone. -/
structure Undone (p : ℕ → Prop) (w w' : World) : Prop where
  asks : ∀ a, a ∈ w'.store.asks ↔
    a ∈ w.store.asks ∧ ∀ j, p j → ¬ w.Wrote j (.newRequest a.id)
  records : ∀ r, r ∈ w'.store.records ↔
    r ∈ w.store.records ∧ ∀ j, p j → ¬ w.Wrote j (.newRecord r.idempotencyKey)
  nextId : w'.nextId = w.nextId
  wrote : ∀ j u, w'.Wrote j u ↔ w.Wrote j u ∧ ¬ p j

/-- A row and its record are undone together. -/
theorem Undone.stays {p : ℕ → Prop} (h : Undone p w w') (hp : Paired w) {r : IdempotencyRecord}
    (hr : r ∈ w.store.records) (ha : a ∈ w.store.asks) (hfor : r.For a) :
    a ∈ w'.store.asks ↔ r ∈ w'.store.records := by
  rw [h.asks, h.records, and_iff_right ha, and_iff_right hr]
  exact forall₂_congr fun j _ => not_congr (hp.together r hr a ha hfor j)

theorem Undone.paired {p : ℕ → Prop} (h : Undone p w w') (hp : Paired w) : Paired w' := by
  have hask {a : Asked} (ha : a ∈ w'.store.asks) : a ∈ w.store.asks := ((h.asks a).mp ha).1
  have hrec {r : IdempotencyRecord} (hr : r ∈ w'.store.records) : r ∈ w.store.records :=
    ((h.records r).mp hr).1
  have hwrote {j : ℕ} {u : Undo} (hw : w'.Wrote j u) : w.Wrote j u := ((h.wrote j u).mp hw).1
  refine ⟨fun a ha => ?_, fun hw => ?_, fun hi hj => hp.owner (hwrote hi) (hwrote hj),
    fun hi hj => hp.author (hwrote hi) (hwrote hj), fun {i key} hw => ?_, fun r hr => ?_,
    fun a ha => ?_, fun r hr a ha hfor j => ?_⟩
  · rw [h.nextId]
    exact hp.ids a (hask ha)
  · rw [h.nextId]
    exact hp.drawn (hwrote hw)
  -- the record of a transaction that is still open
  · obtain ⟨hw, hopen⟩ := (h.wrote _ _).mp hw
    obtain ⟨r, hr, rfl⟩ := hp.present hw
    refine ⟨r, (h.records r).mpr ⟨hr, fun j hj hwj => hopen ?_⟩, rfl⟩
    exact hp.author hwj hw ▸ hj
  · obtain ⟨a, ha, hfor⟩ := hp.row r (hrec hr)
    exact ⟨a, (h.stays hp (hrec hr) ha hfor).mpr hr, hfor⟩
  · rcases hp.record a (hask ha) with ⟨r, hr, hfor⟩ | ⟨j, hw⟩
    · exact .inl ⟨r, (h.stays hp hr (hask ha) hfor).mp ha, hfor⟩
    · refine .inr ⟨j, (h.wrote _ _).mpr ⟨hw, fun hj => ?_⟩⟩
      exact ((h.asks a).mp ha).2 j hj hw
  · rw [h.wrote, h.wrote]
    exact and_congr_left fun _ => hp.together r (hrec hr) a (hask ha) hfor j

theorem Undone.kept (h : Undone (· = i) w w') (hp : Paired w) : PairKept i w w' := by
  refine ⟨h.paired hp, fun j hj => ?_⟩
  have hwrote (u : Undo) : w'.Wrote j u ↔ w.Wrote j u := by
    rw [h.wrote, and_iff_left hj]
  -- a row of process `j` is of no other process
  have hstays {a : Asked} (ha : a ∈ w.store.asks) (hw : w.Wrote j (.newRequest a.id)) :
      a ∈ w'.store.asks := by
    refine (h.asks a).mpr ⟨ha, ?_⟩
    rintro k rfl hk
    exact hj (hp.owner hw hk)
  refine ⟨fun id => hwrote _, fun a => hstays, fun hf a ha hw => ?_⟩
  have hold := ((h.asks a).mp ha).1
  obtain ⟨r, hr, hfor⟩ := hf a hold ((hwrote _).mp hw)
  exact ⟨r, (h.stays hp hr hold hfor).mp ha, hfor⟩

end Moves

section Steps

variable {w w' : World} {i : ℕ}

/-- A call of the database that inserts neither a request nor a record. -/
def DbOp.Plain (d : DbOp) : Prop :=
  (∀ request, d ≠ .insertRequest request) ∧ ∀ record, d ≠ .insertRecord record

theorem db_plain {d : DbOp} (hd : d.Plain) :
    (w.db d).2.store.asks = w.store.asks ∧ (w.db d).2.store.records = w.store.records ∧
      w.nextId ≤ (w.db d).2.nextId := by
  cases d with
  | saveBalance key patch =>
    simp only [World.db, DbOp.run, DbOp.nextId]
    split <;> exact ⟨rfl, rfl, le_refl _⟩
  | insertBalance balance =>
    simp only [World.db, DbOp.run, DbOp.nextId]
    split
    · exact ⟨rfl, rfl, le_refl _⟩
    · split
      · exact ⟨rfl, rfl, le_refl _⟩
      · rename_i hs
        obtain ⟨_, _, hrequests, hrecords⟩ := Store.insertBalance_eq hs
        exact ⟨congrArg (List.map _) hrequests, hrecords, le_refl _⟩
  | saveRequest id patch => exact ⟨asks_saveRequest id _, rfl, le_refl _⟩
  | insertRequest request => exact absurd rfl (hd.1 request)
  | insertRecord record => exact absurd rfl (hd.2 record)
  | _ => exact ⟨rfl, rfl, le_refl _⟩

/-- What undoes such a call takes away neither. -/
theorem undo_plain {d : DbOp} (hd : d.Plain) :
    (∀ id, (entryOf i d w).undo ≠ some (.newRequest id)) ∧
      ∀ key, (entryOf i d w).undo ≠ some (.newRecord key) := by
  unfold entryOf
  dsimp only
  split
  · cases d with
    | insertRequest request => exact absurd rfl (hd.1 request)
    | insertRecord record => exact absurd rfl (hd.2 record)
    | _ => simp [DbOp.undo]
  · simp

/-- Every step but those that insert a row or a record and those that end a transaction. -/
def FlatOp.Plain : FlatOp → Prop
  | .base (.db d) => d.Plain
  | .tx (.db d) => d.Plain
  | .commit => False
  | .rollback => False
  | _ => True

theorem flatExec_plain {o : FlatOp} {x : Choice} {r : Except Err o.Resp} (ho : o.Plain)
    (h : o.exec i x w = some (r, w')) : SamePairs w w' := by
  have htables : w'.store.asks = w.store.asks ∧ w'.store.records = w.store.records ∧
      w.nextId ≤ w'.nextId := by
    cases flatExec_tables h with
    | same hstore hnext => exact ⟨by rw [hstore], by rw [hstore], hnext.ge⟩
    | db d hd hstore hnext =>
      rw [hstore, hnext]
      rcases hd with rfl | rfl <;> exact db_plain ho
    | undo hrollback => exact (hrollback ▸ ho : FlatOp.rollback.Plain).elim
  obtain ⟨hasks, hrecords, hnext⟩ := htables
  cases flatExec_journal h with
  | same hjournal =>
    have hwrote (j : ℕ) (u : Undo) : w'.Wrote j u ↔ w.Wrote j u := by
      unfold World.Wrote
      rw [hjournal]
    exact ⟨hasks, hrecords, hnext, fun j id => hwrote j _, fun j key => hwrote j _⟩
  | entry d hd hjournal =>
    subst hd
    obtain ⟨hid, hkey⟩ := undo_plain (i := i) (w := w) ho
    refine ⟨hasks, hrecords, hnext, fun j id => ?_, fun j key => ?_⟩
    · exact wrote_of_entry_ne hjournal (hid id)
    · exact wrote_of_entry_ne hjournal (hkey key)
  | close hend =>
    rcases hend with rfl | rfl <;> exact ho.elim

theorem wrote_same (h : w'.journal = w.journal) (j : ℕ) (u : Undo) :
    w'.Wrote j u ↔ w.Wrote j u := by
  unfold World.Wrote
  rw [h]

theorem commit_closed {x : Choice} {r : Except Err Unit}
    (h : FlatOp.commit.exec i x w = some (r, w')) :
    (SamePairs w w' ∧ ∃ e, r = .error e) ∨ PairsClosed i w w' := by
  rcases commit_cases h with ⟨code, message, rfl, rfl⟩ | ⟨_, rfl⟩
  · exact .inl ⟨⟨rfl, rfl, le_refl _, fun _ _ => .rfl, fun _ _ => .rfl⟩, _, rfl⟩
  · exact .inr ⟨rfl, rfl, rfl, fun j u => wrote_of_close rfl⟩

theorem rollback_undone {x : Choice} {r : Except Err Unit}
    (h : FlatOp.rollback.exec i x w = some (r, w')) : Undone (· = i) w w' := by
  obtain ⟨_, rfl⟩ := rollback_cases h
  have hentries (u : Undo) : (∀ e ∈ w.entriesOf i, e.undo ≠ some u) ↔
      ∀ j, j = i → ¬ w.Wrote j u := by
    constructor
    · rintro h _ rfl ⟨e, he, hpid, hu⟩
      exact h e (mem_entriesOf.mpr ⟨he, hpid⟩) hu
    · intro h e he hu
      obtain ⟨hmem, hpid⟩ := mem_entriesOf.mp he
      exact h i rfl ⟨e, hmem, hpid, hu⟩
  refine ⟨fun a => ?_, fun r => ?_, rfl, fun j u => wrote_of_close rfl⟩
  · rw [← hentries]
    exact mem_asks_undoAll
  · rw [← hentries]
    exact mem_records_undoAll

theorem crash_undone (w : World) : Undone (fun _ => True) w w.crash := by
  have hentries (u : Undo) : (∀ e ∈ w.journal, e.undo ≠ some u) ↔
      ∀ j, True → ¬ w.Wrote j u := by
    constructor
    · rintro h _ _ ⟨e, he, _, hu⟩
      exact h e he hu
    · intro h e he hu
      exact h e.pid trivial ⟨e, he, rfl, hu⟩
  refine ⟨fun a => ?_, fun r => ?_, rfl, fun j u => ?_⟩
  · rw [← hentries]
    exact mem_asks_undoAll
  · rw [← hentries]
    exact mem_records_undoAll
  · constructor
    · rintro ⟨e, he, _⟩
      cases he
    · exact fun h => absurd trivial h.2

/-- The insertion of the row of a creation. -/
theorem insertRequest_added {dto : CreateTimeOffRequestDto} {idempotencyKey : String} {days : Num}
    {x : Choice} {r : Except Err TimeOffRequest}
    (h : (FlatOp.tx (.db (.insertRequest (newRequest dto idempotencyKey days)))).exec i x w =
      some (r, w')) :
    (SamePairs w w' ∧ ∃ e, r = .error e) ∨ ∃ saved, r = .ok saved ∧
      saved.idempotencyKey = idempotencyKey ∧ saved.employeeId = dto.employeeId ∧
        RowAdded i saved.asked w w' := by
  rcases txDb_cases h with ⟨code, message, rfl, rfl⟩ | ⟨rfl, rfl⟩
  · exact .inl ⟨⟨rfl, rfl, le_refl _, fun _ _ => .rfl, fun _ _ => .rfl⟩, _, rfl⟩
  rcases World.db_insertRequest w (newRequest dto idempotencyKey days) with
    ⟨code, message, hdb⟩ | ⟨row, s', hrow, hs, hdb⟩
  -- an insert that fails leaves nothing to undo
  · have hundo :
        (entryOf i (.insertRequest (newRequest dto idempotencyKey days)) w).undo = none := by
      simp only [entryOf, hdb]
    rw [hdb]
    refine .inl ⟨⟨rfl, rfl, Nat.le_succ _, fun j id => ?_, fun j key => ?_⟩, _, rfl⟩
    · exact wrote_of_entry_ne rfl (by simp [hundo])
    · exact wrote_of_entry_ne rfl (by simp [hundo])
  · have hundo : (entryOf i (.insertRequest (newRequest dto idempotencyKey days)) w).undo =
        some (.newRequest w.nextId) := by
      simp only [entryOf, hdb, DbOp.undo]
    obtain ⟨charged, _, rfl⟩ := Option.map_eq_some_iff.mp hrow
    obtain ⟨_, hkey, hrequests, _, hrecords⟩ := Store.insertRequest_eq hs
    rw [hdb]
    refine .inr ⟨_, rfl, rfl, rfl, ?_, hrecords, rfl, rfl, fun b hb => ?_, fun j id => ?_,
      fun j key => ?_⟩
    · change List.map _ s'.requests = _
      rw [hrequests, List.map_append]
      rfl
    · obtain ⟨r, hr, rfl⟩ := List.mem_map.mp hb
      exact fun h => List.find?_eq_none.mp hkey r hr (decide_eq_true h)
    · rw [wrote_of_entry rfl, hundo]
      exact or_congr_right (and_congr_right fun _ => by simp [TimeOffRequest.asked, eq_comm])
    · exact wrote_of_entry_ne rfl (by simp [hundo])

/-- The insertion of its record. -/
theorem insertRecord_added {record : IdempotencyRecord} {a : Asked} {x : Choice}
    {r : Except Err Unit} (hplaced : a ∈ w.store.asks) (hwrote : w.Wrote i (.newRequest a.id))
    (hpair : record.For a)
    (h : (FlatOp.tx (.db (.insertRecord record))).exec i x w = some (r, w')) :
    (SamePairs w w' ∧ ∃ e, r = .error e) ∨ RecordAdded i record a w w' := by
  rcases txDb_cases h with ⟨code, message, rfl, rfl⟩ | ⟨rfl, rfl⟩
  · exact .inl ⟨⟨rfl, rfl, le_refl _, fun _ _ => .rfl, fun _ _ => .rfl⟩, _, rfl⟩
  rcases World.db_insertRecord w record with ⟨message, hdb⟩ | ⟨s', hs, hdb⟩
  · have hundo : (entryOf i (.insertRecord record) w).undo = none := by
      simp only [entryOf, hdb]
    rw [hdb]
    refine .inl ⟨⟨rfl, rfl, le_refl _, fun j id => ?_, fun j key => ?_⟩, _, rfl⟩
    · exact wrote_of_entry_ne rfl (by simp [hundo])
    · exact wrote_of_entry_ne rfl (by simp [hundo])
  · have hundo : (entryOf i (.insertRecord record) w).undo =
        some (.newRecord record.idempotencyKey) := by
      simp only [entryOf, hdb, DbOp.undo]
    obtain ⟨hkey, hrecords, _, hrequests⟩ := Store.insertRecord_eq hs
    rw [hdb]
    refine .inr ⟨congrArg (List.map _) hrequests, hrecords, rfl, fun r hr hsame => ?_, hplaced,
      hwrote, hpair, fun j id => ?_, fun j key => ?_⟩
    · simpa [hsame] using List.find?_eq_none.mp hkey r hr
    · exact wrote_of_entry_ne rfl (by simp [hundo])
    · rw [wrote_of_entry rfl, hundo]
      exact or_congr_right (and_congr_right fun _ => by simp [eq_comm])

end Steps

section Programs

variable {cfg : Config} {dto : CreateTimeOffRequestDto} {idempotencyKey : String} {i : ℕ}
  {w w' : World}

/-- A step of process `i` from paired tables. -/
structure PairStep (i : ℕ) (o : FlatOp) (w : World) (r : Except Err o.Resp) (w' : World) :
    Prop where
  before : Paired w
  exec : ∃ x, o.exec i x w = some (r, w')

/-- Process `i` has inserted the row `saved`, and no other that is not committed. -/
structure Placed (i : ℕ) (saved : TimeOffRequest) (w : World) : Prop where
  placed : saved.asked ∈ w.store.asks
  wrote : w.Wrote i (.newRequest saved.id)
  only : ∀ id, w.Wrote i (.newRequest id) → id = saved.id

theorem Unwritten.steady (h : Unwritten i w) (hs : Steady i w w') : Unwritten i w' :=
  fun id hw => h id ((hs.wrote id).mp hw)

theorem Placed.steady {saved : TimeOffRequest} (h : Placed i saved w) (hs : Steady i w w') :
    Placed i saved w' :=
  ⟨hs.placed _ h.placed h.wrote, (hs.wrote _).mpr h.wrote,
    fun id hw => h.only id ((hs.wrote id).mp hw)⟩

theorem pairStep_plain {o : FlatOp} {r : Except Err o.Resp} (ho : o.Plain)
    (h : PairStep i o w r w') : PairKept i w w' ∧ Steady i w w' := by
  obtain ⟨hp, x, hx⟩ := h
  have hsame := flatExec_plain ho hx
  exact ⟨hsame.kept hp, hsame.steady i⟩

theorem pairStep_rollback {r : Except Err Unit} (h : PairStep i .rollback w r w') :
    PairKept i w w' ∧ Unwritten i w' := by
  obtain ⟨hp, x, hx⟩ := h
  have hundone := rollback_undone hx
  exact ⟨hundone.kept hp, fun id hw => ((hundone.wrote _ _).mp hw).2 rfl⟩

theorem pairStep_commit {r : Except Err Unit} (hf : Filed i w) (h : PairStep i .commit w r w') :
    PairKept i w w' ∧ (((∃ e, r = .error e) ∧ Steady i w w') ∨ Unwritten i w') := by
  obtain ⟨hp, x, hx⟩ := h
  rcases commit_closed hx with ⟨hsame, herr⟩ | hclosed
  · exact ⟨hsame.kept hp, .inl ⟨herr, hsame.steady i⟩⟩
  · exact ⟨hclosed.kept hp hf, .inr fun id hw => ((hclosed.wrote _ _).mp hw).2 rfl⟩

/-- The part of a transaction that inserts nothing. -/
theorem pair_plain {β : Type} {p : Tx β} (hp : p.Each fun o => (FlatOp.tx o).Plain)
    (hw : Unwritten i w) : p.Holds (fun o => PairStep i (.tx o)) (Steady i) (PairKept i)
      (fun _ w => Unwritten i w) w := by
  refine Prog.Holds.of_each_inv (Unwritten i) (fun _ _ hs h => h.steady hs) ?_ hp hw
  intro o s r s' ho hs hstep
  obtain ⟨hkept, hsteady⟩ := pairStep_plain ho hstep
  exact ⟨hkept, hs.steady hsteady⟩

/-- When the callback resolves, the row that it has inserted has its record. -/
theorem pair_body (cfg : Config) (hw : Unwritten i w) :
    (createTransaction cfg dto idempotencyKey (calculateDaysRequested dto.startDate dto.endDate)
      (cfg.hashObject dto)).Holds (fun o => PairStep i (.tx o)) (Steady i) (PairKept i)
        (fun r u => (∀ saved, r = .ok saved → Filed i u) ∧ ∀ e, r = .error e → True) w := by
  -- a callback that throws is rolled back
  have herr {e : Err} {u : World} :
      (∀ saved, (Except.error e : Except Err TimeOffRequest) = .ok saved → Filed i u) ∧
        ∀ e', (Except.error e : Except Err TimeOffRequest) = .error e' → True :=
    ⟨fun _ h => (nomatch h), fun _ _ => trivial⟩
  refine Prog.Holds.bind (Prog.Holds.mono ?_
    (pair_plain (lockEmployeeBalances_each ⟨by simp, by simp⟩) hw))
  rintro (e | _) w₁ hw
  · exact herr
  refine Prog.Holds.bind (Prog.Holds.mono ?_
    (pair_plain (assertNoOverlap_each ⟨by simp, by simp⟩) hw))
  rintro (e | _) w₂ hw
  · exact herr
  refine Prog.Holds.bind (Prog.Holds.mono ?_
    (pair_plain (moveDays_each ⟨by simp, by simp⟩ fun _ => ⟨by simp, by simp⟩) hw))
  rintro (e | _) w₃ hw
  · exact herr
  dsimp only [Prog.after]
  refine tx_db_bind ?_
  intro w₄ hR r w₅ hstep
  have hw₄ : Unwritten i w₄ := Unwritten.steady hw hR
  obtain ⟨hp, x, hx⟩ := hstep
  rcases insertRequest_added hx with ⟨hsame, e, rfl⟩ | ⟨saved, rfl, hkey, hemployee, hadded⟩
  · exact ⟨hsame.kept hp, herr⟩
  refine ⟨hadded.kept hp, ?_⟩
  have hplaced : Placed i saved w₅ := by
    refine ⟨by rw [hadded.asks]; simp, (hadded.newRequest _ _).mpr (.inr ⟨rfl, rfl⟩), ?_⟩
    intro id hid
    rcases (hadded.newRequest _ _).mp hid with hid | ⟨_, hid⟩
    · exact absurd hid (hw₄ id)
    · exact hid
  dsimp only [Prog.after]
  refine tx_now_bind ?_
  intro w₆ hR r w₇ hstep
  obtain ⟨hkept, hsteady⟩ := pairStep_plain (by trivial) hstep
  have hplaced := (hplaced.steady hR).steady hsteady
  refine ⟨hkept, ?_⟩
  rcases r with e | now
  · exact herr
  dsimp only [Prog.after]
  refine tx_db_bind ?_
  intro w₈ hR r w₉ hstep
  have hplaced := hplaced.steady hR
  obtain ⟨hp, x, hx⟩ := hstep
  have hpair : (newRecord cfg dto idempotencyKey (cfg.hashObject dto) saved now).For saved.asked :=
    ⟨hkey.symm, hemployee.symm, rfl⟩
  rcases insertRecord_added hplaced.placed hplaced.wrote hpair hx with ⟨hsame, e, rfl⟩ | hadded
  · exact ⟨hsame.kept hp, herr⟩
  refine ⟨hadded.kept hp, ?_⟩
  rcases r with e | _
  · exact herr
  refine ⟨fun _ _ a ha hw => ?_, fun _ _ => trivial⟩
  rw [hadded.asks] at ha
  -- the only row that is not committed
  have hid : a.id = saved.asked.id := hplaced.only _ ((hadded.newRequest _ _).mp hw)
  obtain rfl : a = saved.asked := eq_of_ask_id ha hplaced.placed hid
  exact ⟨_, by rw [hadded.records]; simp, hpair⟩

theorem pair_transaction (cfg : Config) (hw : Unwritten i w) :
    (flattenTransaction (createTransaction cfg dto idempotencyKey
      (calculateDaysRequested dto.startDate dto.endDate) (cfg.hashObject dto))).Holds (PairStep i)
        (Steady i) (PairKept i) (fun _ u => Unwritten i u) w := by
  refine holds_flattenTransaction (Unwritten i) (fun _ => Filed i) (fun _ => True) ?_
    (fun t ht => pair_body cfg ht) ?_ ?_
  · intro w₁ hR r w₂ hstep
    obtain ⟨hkept, hsteady⟩ := pairStep_plain (by trivial) hstep
    exact ⟨hkept, fun _ _ => (hw.steady hR).steady hsteady, fun _ _ => trivial⟩
  · intro v t hf w₁ hR r w₂ hstep
    obtain ⟨hkept, hend⟩ := pairStep_commit (hR.filed hf) hstep
    refine ⟨hkept, fun u hu => ?_, fun _ _ => trivial⟩
    rcases hend with ⟨⟨e, rfl⟩, _⟩ | hw
    · cases hu
    · exact hw
  · intro t _ w₁ _ r w₂ hstep
    obtain ⟨hkept, hw⟩ := pairStep_rollback hstep
    exact ⟨hkept, fun _ => hw⟩

theorem pair_base {o : BaseOp} {B : World → Except Err o.Resp → World → Prop}
    (ho : (FlatOp.base o).Plain)
    (hB : ∀ u x r u' t, o.exec i x u = some (r, u') → Unwritten i u' → B t r u') :
    Triple (PairStep i) (Steady i) (PairKept i) (Unwritten i) (flatten (.base o)) B := by
  intro t ht
  refine Prog.Holds.perform ?_
  intro u hR r u' hstep
  obtain ⟨hkept, hsteady⟩ := pairStep_plain ho hstep
  obtain ⟨_, x, hx⟩ := hstep
  exact ⟨hkept, hB u x r u' t hx ((ht.steady hR).steady hsteady)⟩

theorem pair_triples (cfg : Config) (dto : CreateTimeOffRequestDto) (idempotencyKey : String)
    (i : ℕ) : CreateTriples flatten (PairStep i) (Steady i) (PairKept i) cfg dto idempotencyKey
      (Unwritten i) (Unwritten i) (Unwritten i) (Unwritten i) (Unwritten i) fun _ _ => True where
  out_end _ h := h
  now_out := pair_base trivial fun _ _ _ _ _ _ h => ⟨h, fun _ => id⟩
  find_out := pair_base ⟨by simp, by simp⟩ fun _ _ _ _ _ _ h => ⟨h, fun _ _ _ => trivial⟩
  enter := pair_base trivial fun _ _ _ _ _ hx h => by
    cases hx
    exact ⟨⟨_, rfl⟩, h⟩
  await := pair_base trivial fun _ _ _ _ _ hx h => by
    obtain ⟨l, _, heq⟩ := Option.map_eq_some_iff.mp hx
    cases heq
    exact ⟨⟨_, rfl⟩, h⟩
  now_in := pair_base trivial fun _ _ _ _ _ _ h => ⟨h, fun _ => id⟩
  sleep_in _ := pair_base trivial fun _ _ _ _ _ _ h => h
  find_in := pair_base ⟨by simp, by simp⟩ fun _ _ _ _ _ _ h => ⟨h, fun _ _ _ => trivial⟩
  row_in := pair_base ⟨by simp, by simp⟩ fun _ _ _ _ _ _ h => ⟨h, fun _ _ => trivial⟩
  transaction t ht := Prog.Holds.mono (fun _ _ h => ⟨fun _ _ => ⟨h, trivial⟩, fun _ _ => h⟩)
    (pair_transaction cfg ht)
  schedule _ := pair_base trivial fun _ _ _ _ _ hx h => by
    cases hx
    exact ⟨⟨_, rfl⟩, h, fun _ => id⟩
  release_in := pair_base trivial fun _ _ _ _ _ _ h => ⟨h, fun _ => id⟩
  release_done := pair_base trivial fun _ _ _ _ _ _ h => ⟨h, fun _ => id⟩

/-- The other calls insert neither. -/
theorem plain_of_each {c : Call} {o : FlatOp} (hc : ∀ dto key, c ≠ .create dto key)
    (h : FlatCallOp cfg c o) : o.Plain ∨ o = .commit ∨ o = .rollback := by
  have hrequest (request : NewRequest) :
      o ≠ .base (.db (.insertRequest request)) ∧ o ≠ .tx (.db (.insertRequest request)) := by
    constructor
    · rintro rfl
      obtain ⟨dto, key, hcreate, _⟩ := insertRequest_of_each h (.inl rfl)
      exact hc dto key hcreate
    · rintro rfl
      obtain ⟨dto, key, hcreate, _⟩ := insertRequest_of_each h (.inr rfl)
      exact hc dto key hcreate
  cases h with
  | base h =>
    rename_i b
    refine .inl ?_
    cases b with
    | db d =>
      refine ⟨fun request hd => (hrequest request).1 (hd ▸ rfl), ?_⟩
      rintro record rfl
      cases h with
      | create h => exact hc _ _ rfl
      | retrySyncs h => cases h
      | task t h => cases h
    | _ => trivial
  | tx h =>
    rename_i t
    refine .inl ?_
    cases t with
    | db d =>
      refine ⟨fun request hd => (hrequest request).2 (hd ▸ rfl), ?_⟩
      rintro record rfl
      cases h with
      | createRecord => exact hc _ _ rfl
      | approve _ _ h => cases h
      | reject _ _ _ h => cases h
      | cancel _ _ h => cases h
    | _ => trivial
  | begin => exact .inl trivial
  | commit => exact .inr (.inl rfl)
  | rollback => exact .inr (.inr rfl)

theorem pair_code (cfg : Config) (c : Call) (hw : Unwritten i w) :
    ((c.svc cfg).interp flatten).Holds (PairStep i) (Steady i) (PairKept i) (fun _ _ => True)
      w := by
  by_cases hc : ∃ dto key, c = .create dto key
  · obtain ⟨dto, key, rfl⟩ := hc
    refine Prog.Holds.interp_bind (Prog.Holds.mono ?_
      ((pair_triples cfg dto key i).createRequest w hw))
    rintro (e | body) u _ <;> trivial
  refine Prog.Holds.mono (fun _ _ _ => trivial) (Prog.Holds.of_each_inv (Unwritten i)
    (fun _ _ hs h => h.steady hs) ?_ (flat_each cfg c) hw)
  intro o u r u' ho hu hstep
  rcases plain_of_each (fun dto key h => hc ⟨dto, key, h⟩) ho with hplain | rfl | rfl
  · obtain ⟨hkept, hsteady⟩ := pairStep_plain hplain hstep
    exact ⟨hkept, hu.steady hsteady⟩
  · obtain ⟨hkept, hend⟩ := pairStep_commit (fun a _ h => absurd h (hu a.id)) hstep
    refine ⟨hkept, ?_⟩
    rcases hend with ⟨_, hsteady⟩ | hclosed
    · exact hu.steady hsteady
    · exact hclosed
  · exact pairStep_rollback hstep

end Programs

section Runs

variable {cfg : Config} {start : Store}

/-- Each record is that of a row, and each row has one. -/
def Store.InPairs (s : Store) : Prop :=
  (∀ record ∈ s.records, ∃ a ∈ s.asks, record.For a) ∧
    ∀ a ∈ s.asks, ∃ record ∈ s.records, record.For a

theorem Paired.inPairs {w : World} (h : Paired w) (hidle : w.journal = []) : w.store.InPairs := by
  refine ⟨h.row, fun a ha => (h.record a ha).resolve_right ?_⟩
  rintro ⟨i, e, he, _⟩
  rw [hidle] at he
  cases he

theorem samePairs_aside {w w' : World} (hstore : w'.store = w.store)
    (hjournal : w'.journal = w.journal) (hnext : w'.nextId = w.nextId) : SamePairs w w' :=
  ⟨by rw [hstore], by rw [hstore], hnext.ge, fun j id => wrote_same hjournal j _,
    fun j key => wrote_same hjournal j _⟩

theorem accept_pairs {w w' : World} {i : ℕ} {c : Call} (h : w.accept i c = some w') :
    SamePairs w w' := by
  rcases accept_cases h with rfl | ⟨_, _, _, rfl⟩ <;> exact samePairs_aside rfl rfl rfl

theorem env_pairs {w w' : World} {e : Env} (h : e.exec w = some w') : SamePairs w w' := by
  obtain ⟨clock, locks, hcm, rfl⟩ := env_eq h
  exact samePairs_aside rfl rfl rfl

/-- Every process guarantees the pairs to the others; those not started have written nothing. -/
def pairCalls (cfg : Config) : RelyGuarantee (flatMachine cfg) fun _ _ => True where
  Inv n w := Paired w ∧ ∀ j, n ≤ j → Unwritten j w
  stepRel i _ := PairStep i
  rely i _ := Steady i
  guar i _ := PairKept i
  post _ _ _ _ := True
  rely_refl := .refl _ _
  rely_trans := .trans
  step_of hI _ _ hx := ⟨hI.1, _, hx⟩
  guar_inv hi hI h := ⟨h.1, fun j hj => (hI.2 j hj).steady (h.2 j (lt_of_lt_of_le hi hj).ne')⟩
  guar_rely hne _ h := h.2 _ hne.symm
  finish_guar {n i c r w} hI _ := by
    have hsame : SamePairs w (World.finish i c r w) := samePairs_aside rfl rfl rfl
    exact hsame.kept hI.1
  accept_inv hI _ hs := by
    have hsame := accept_pairs hs
    exact ⟨hsame.paired hI.1, fun j hj =>
      (hI.2 j (Nat.le_of_succ_le hj)).steady (hsame.steady j)⟩
  accept_rely _ _ _ hs := (accept_pairs hs).steady _
  accept_holds {P c w} hI _ hs :=
    pair_code cfg c ((hI.2 P.next (le_refl _)).steady ((accept_pairs hs).steady P.next))
  env_inv hI _ hs := by
    have hsame := env_pairs hs
    exact ⟨hsame.paired hI.1, fun j hj => (hI.2 j hj).steady (hsame.steady j)⟩
  env_rely _ _ hs := (env_pairs hs).steady _
  -- a crash is a rollback of all transactions
  halt_inv {P} hI _ := by
    have hundone := crash_undone P.shared
    exact ⟨hundone.paired hI.1, fun j _ id hw => ((hundone.wrote _ _).mp hw).2 trivial⟩

/-- In every interleaving of calls whose transactions nothing isolates, a failed one undoing its
own writes alone, each idempotency record is that of a request of the same key; and when no
transaction is open, and after a crash at any moment, each request has its record as well. -/
theorem no_phantom_records (cfg : Config) (start : Store) (clock nextId : ℕ) (hcm : MockHcm)
    (hids : ∀ row ∈ start.requests, row.id < nextId) (hstart : start.InPairs)
    {P : Pool Call FlatOp FlatOp.Resp Err (Option RequestBody) World}
    (hP : (flatMachine cfg).Reach (fun _ _ => True)
      (Pool.init (World.init start clock nextId hcm)) P) :
    (∀ record ∈ P.shared.store.records, ∃ a ∈ P.shared.store.asks, record.For a) ∧
      (P.shared.journal = [] → P.shared.store.InPairs) ∧ P.shared.crash.store.InPairs := by
  have hwrote (j : ℕ) (u : Undo) : ¬ (World.init start clock nextId hcm).Wrote j u := by
    rintro ⟨e, he, _⟩
    cases he
  have hinit : Paired (World.init start clock nextId hcm) := by
    refine ⟨fun a ha => ?_, fun hw => absurd hw (hwrote _ _), fun hw _ => absurd hw (hwrote _ _),
      fun hw _ => absurd hw (hwrote _ _), fun hw => absurd hw (hwrote _ _), hstart.1,
      fun a ha => .inl (hstart.2 a ha), fun _ _ _ _ _ i => iff_of_false (hwrote _ _) (hwrote _ _)⟩
    obtain ⟨row, hrow, rfl⟩ := List.mem_map.mp ha
    exact hids row hrow
  have hpaired : Paired P.shared :=
    ((pairCalls cfg).good_of_reach ⟨hinit, fun j _ id => hwrote j _⟩ hP).inv.1
  exact ⟨hpaired.row, hpaired.inPairs, ((crash_undone P.shared).paired hpaired).inPairs rfl⟩

/-- A first creation commits, and a second has inserted its row and not yet its record. -/
def halfInserted : List (Act Call Choice Env) :=
  .start (.create (plainDto "2030-01-07" "2030-01-08") "key-1") ::
    List.replicate 16 (.step 0 .go) ++
      .start (.create (plainDto "2030-02-04" "2030-02-04") "key-2") ::
        List.replicate 11 (.step 1 .go)

theorem halfInserted_runs : ((flatMachine plainConfig).run (fun _ _ => True)
    (Pool.init (World.init ten 1000 0 (.init []))) halfInserted).isSome = true := by
  decide +kernel

/-- A crash at that moment leaves the first request and its record. -/
theorem halfInserted_pairs : ∃ P, (flatMachine plainConfig).run (fun _ _ => True)
      (Pool.init (World.init ten 1000 0 (.init []))) halfInserted = some P ∧
    P.shared.store.asks.map Asked.idempotencyKey = ["key-1", "key-2"] ∧
      P.shared.store.records.map IdempotencyRecord.idempotencyKey = ["key-1"] ∧
        P.shared.crash.store.asks.map Asked.idempotencyKey = ["key-1"] ∧
          P.shared.crash.store.InPairs := by
  have hrun := (Option.some_get halfInserted_runs).symm
  refine ⟨_, hrun, by decide +kernel, by decide +kernel, by decide +kernel, ?_⟩
  exact (no_phantom_records plainConfig ten 1000 0 (.init []) (fun _ h => nomatch h)
    ⟨fun _ h => (nomatch h), fun _ h => nomatch h⟩ (Machine.reach_of_run .refl hrun)).2.2

end Runs

end TimeOff
