import TimeOff.BatchGuard
import TimeOff.HcmSyncService
import TimeOff.PoolJournal

/-! The sync logs over whole runs of the batch: each run writes one log of its own and ends it at
most once, and what it writes there is what it has done. -/
namespace TimeOff

open Async

section Journals

/-- What a run has done so far. -/
structure RunJournal where
  log : Option ℕ
  startedAt : ℕ
  /-- The elements of the payload. -/
  records : ℕ
  /-- The elements that made, raised or flagged a row. -/
  written : ℕ
  /-- The rows that it went on to flag because the payload leaves them out. -/
  omitted : ℕ
  /-- What it has written in its log. -/
  entries : List SyncLogPatch
  /-- The store has refused its last entry. -/
  refused : Bool
  finished : Bool

def RunJournal.blank : RunJournal := ⟨none, 0, 0, 0, 0, [], false, false⟩

/-- The patch sets the amounts of a row, or its flag. -/
def BalancePatch.drifted (patch : BalancePatch) : Bool :=
  patch.totalBalance.isSome || patch.hasDiscrepancy == some true

def RunJournal.note : (o : BatchOp) → Except BatchErr o.Resp → RunJournal → RunJournal
  | .saveSyncLog log, .ok id, r => { r with log := some id, startedAt := log.startedAt }
  | .getBatchBalances, .ok (some (.array items)), r => { r with records := items.length }
  | .insertBalance .., .ok _, r => { r with written := r.written + 1 }
  | .updateBalance _ patch, res, r =>
    -- the pass over the local rows leaves the HCM's total as it is
    if patch.hcmTotalBalance.isNone then { r with omitted := r.omitted + 1 }
    else
      match res with
      | .ok _ => if patch.drifted then { r with written := r.written + 1 } else r
      | .error _ => r
  | .updateSyncLog _ patch, .ok _, r =>
    { r with entries := r.entries ++ [patch], refused := false }
  | .updateSyncLog _ _, .error _, r => { r with refused := true }
  | _, _, r => r

theorem note_omitted {key : BalanceKey} {patch : BalancePatch}
    (hpatch : patch.hcmTotalBalance.isNone = true) (res : Except BatchErr Unit) (r : RunJournal) :
    RunJournal.note (.updateBalance key patch) res r = { r with omitted := r.omitted + 1 } :=
  if_pos hpatch

/-- The journal after a record whose reconciliation ended so. -/
def RunJournal.reconciled (r : RunJournal) : Except BatchErr Bool → RunJournal
  | .ok true => { r with written := r.written + 1 }
  | _ => r

theorem note_reconciled {fl : ℚ → ℚ} {key : BalanceKey} (localBalance : EmployeeBalance)
    (hcmTotal : Num) (version : Option String) (now : ℕ) (res : Except BatchErr Unit)
    (r : RunJournal) :
    RunJournal.note
        (.updateBalance key (reconcilePatchIn fl localBalance hcmTotal version now).1) res r =
      r.reconciled
        (res.map fun _ => (reconcilePatchIn fl localBalance hcmTotal version now).2) := by
  -- a patch of any of the three branches has the HCM's total, and says whether the row drifted
  have htotal : (reconcilePatchIn fl localBalance hcmTotal version now).1.hcmTotalBalance.isNone =
      false := by
    unfold reconcilePatchIn
    dsimp only
    split
    · rfl
    · split <;> rfl
  have hdrifted : (reconcilePatchIn fl localBalance hcmTotal version now).1.drifted =
      (reconcilePatchIn fl localBalance hcmTotal version now).2 := by
    unfold reconcilePatchIn
    dsimp only
    split
    · rfl
    · split <;> rfl
  refine (if_neg (Bool.eq_false_iff.mp htotal)).trans ?_
  cases res with
  | error e => rfl
  | ok _ =>
    dsimp only
    rw [hdrifted]
    cases (reconcilePatchIn fl localBalance hcmTotal version now).2 <;> rfl

def batchScribe : Scribe BatchOp BatchOp.Resp BatchErr (Option TriggerReply) RunJournal where
  blank := .blank
  note := RunJournal.note
  close _ r := { r with finished := true }

/-- The batch, each run with its journal. -/
def journaledBatch (rt : Runtime) : Machine BatchCall BatchOp BatchOp.Resp BatchErr
    (Option TriggerReply) BatchChoice BatchEnv (Journaled RunJournal BatchState) :=
  (batchMachine rt).journaled batchScribe

abbrev BatchJournals := Journaled RunJournal BatchState

abbrev BatchJournalPool :=
  Pool BatchCall BatchOp BatchOp.Resp BatchErr (Option TriggerReply) BatchJournals

end Journals

section Truth

/-- The counters of an entry are those of the journal. The updated are the records that made, raised
or flagged a row, so two of one row count twice; a row left out is flagged and counted as failed. A
run that came through has taken up every record and every row left out; one that threw, at most
those. -/
structure Truthful (r : RunJournal) (entry : SyncLogPatch) : Prop where
  updated : entry.recordsUpdated = r.written
  omitted : r.omitted ≤ entry.recordsFailed
  counted : entry.recordsUpdated + entry.recordsFailed ≤ entry.recordsProcessed
  processed : entry.recordsProcessed ≤ r.records + r.omitted
  outcome :
    (entry.recordsProcessed = r.records + r.omitted ∧
      (entry.status = .completed ↔ entry.recordsFailed = 0) ∧
      (entry.status = .partialSync ↔
        0 < entry.recordsFailed ∧ entry.recordsFailed < entry.recordsProcessed) ∧
      ((entry.errorDetails.getD []).length = entry.recordsFailed)) ∨
    (entry.status = .failed ∧
      ∃ message, entry.errorDetails = some [⟨none, none, none, message⟩])

/-- The log of a run with this journal, at the time `clock`: as it was started, or ended by the
one entry of the run. -/
inductive LogOf (r : RunJournal) (clock : ℕ) : SyncLog → Prop
  | started (hentries : r.entries = []) : LogOf r clock (startedLog r.startedAt)
  | ended (entry : SyncLogPatch) (hentries : r.entries = [entry]) (htrue : Truthful r entry)
    (hfrom : r.startedAt ≤ entry.completedAt) (hto : entry.completedAt ≤ clock) :
    LogOf r clock (entry.apply (startedLog r.startedAt))

/-- The logs after the first `n` calls, from the logs `start`. -/
structure LogsKept (start : List SyncLog) (n : ℕ) (s : BatchJournals) : Prop where
  earlier : ∀ k, k < start.length → s.state.syncLogs[k]? = start[k]?
  blank : ∀ i, n ≤ i → s.journal i = .blank
  own : ∀ i k, (s.journal i).log = some k → start.length ≤ k ∧
    (s.journal i).startedAt ≤ s.state.clock ∧
    ∃ log, s.state.syncLogs[k]? = some log ∧ LogOf (s.journal i) s.state.clock log
  apart : ∀ i j k, (s.journal i).log = some k → (s.journal j).log = some k → i = j
  each : ∀ k, start.length ≤ k → k < s.state.syncLogs.length → ∃ i, (s.journal i).log = some k
  closed : ∀ i, (s.journal i).finished = true → (s.journal i).log ≠ none →
    (s.journal i).entries ≠ [] ∨ (s.journal i).refused = true

theorem LogOf.mono {r : RunJournal} {clock clock' : ℕ} {log : SyncLog} (hclock : clock ≤ clock')
    (h : LogOf r clock log) : LogOf r clock' log := by
  cases h with
  | started hentries => exact .started hentries
  | ended entry hentries htrue hfrom hto =>
    exact .ended entry hentries htrue hfrom (le_trans hto hclock)

theorem LogOf.eq_started {r : RunJournal} {clock : ℕ} {log : SyncLog} (h : LogOf r clock log)
    (hentries : r.entries = []) : log = startedLog r.startedAt := by
  cases h with
  | started => rfl
  | ended _ hentries' =>
    rw [hentries] at hentries'
    cases hentries'

end Truth

section Kept

variable {start : List SyncLog} {n i : ℕ} {s : BatchJournals}

theorem LogsKept.status_open (h : LogsKept start n s) {id : ℕ} {log : SyncLog}
    (hid : (s.journal i).log = some id) (hentries : (s.journal i).entries = [])
    (hget : s.state.syncLogs[id]? = some log) : log.status = .started := by
  obtain ⟨_, _, log', hget', hof⟩ := h.own i id hid
  obtain rfl : log' = log := Option.some.inj (hget'.symm.trans hget)
  rw [hof.eq_started hentries]
  rfl

/-- Run `i` goes on in its journal, and no log changes but its own. -/
theorem LogsKept.move (h : LogsKept start n s) (hi : i < n) {r : RunJournal} {st : BatchState}
    (hclock : s.state.clock ≤ st.clock)
    (hsame : ∀ k, r.log ≠ some k → st.syncLogs[k]? = s.state.syncLogs[k]?)
    (hlog : ∀ k, (s.journal i).log = some k → r.log = some k)
    (hown : ∀ k, r.log = some k → start.length ≤ k ∧ r.startedAt ≤ st.clock ∧
      ∃ log, st.syncLogs[k]? = some log ∧ LogOf r st.clock log)
    (hapart : ∀ j k, j ≠ i → (s.journal j).log = some k → r.log ≠ some k)
    (hclosed : r.finished = true → r.log ≠ none → r.entries ≠ [] ∨ r.refused = true) :
    LogsKept start n ⟨st, Function.update s.journal i r⟩ := by
  have hself : Function.update s.journal i r i = r := Function.update_self _ _ _
  have hother {j : ℕ} (hne : j ≠ i) : Function.update s.journal i r j = s.journal j :=
    Function.update_of_ne hne _ _
  constructor <;> dsimp only
  · intro k hk
    rw [hsame k fun hid => absurd (hown k hid).1 (by omega)]
    exact h.earlier k hk
  · intro j hj
    have hne : j ≠ i := by omega
    rw [hother hne]
    exact h.blank j hj
  · intro j k hk
    by_cases hj : j = i
    · rw [hj, hself] at hk ⊢
      exact hown k hk
    · rw [hother hj] at hk ⊢
      obtain ⟨hlate, hstarted, log, hget, hof⟩ := h.own j k hk
      rw [hsame k (hapart j k hj hk)]
      exact ⟨hlate, le_trans hstarted hclock, log, hget, hof.mono hclock⟩
  · intro j l k hj hl
    by_cases hji : j = i
    · by_cases hli : l = i
      · rw [hji, hli]
      · rw [hji, hself] at hj
        rw [hother hli] at hl
        exact absurd hj (hapart l k hli hl)
    · rw [hother hji] at hj
      by_cases hli : l = i
      · rw [hli, hself] at hl
        exact absurd hl (hapart j k hji hj)
      · rw [hother hli] at hl
        exact h.apart j l k hj hl
  · intro k hlate hk
    by_cases hid : r.log = some k
    · exact ⟨i, by rw [hself, hid]⟩
    -- a log that is not the run's was there before
    · have hget : s.state.syncLogs[k]? = some st.syncLogs[k] := by
        rw [← hsame k hid, List.getElem?_eq_getElem hk]
      obtain ⟨j, hj⟩ := h.each k hlate (List.getElem?_eq_some_iff.mp hget).1
      have hne : j ≠ i := by
        intro hji
        rw [hji] at hj
        exact hid (hlog k hj)
      exact ⟨j, by rw [hother hne, hj]⟩
  · intro j
    by_cases hj : j = i
    · rw [hj, hself]
      exact hclosed
    · rw [hother hj]
      exact h.closed j

/-- The logs stay. -/
theorem LogsKept.note (h : LogsKept start n s) (hi : i < n) {r : RunJournal} {st : BatchState}
    (hlogs : st.syncLogs = s.state.syncLogs) (hclock : s.state.clock ≤ st.clock)
    (hlog : r.log = (s.journal i).log) (hat : r.startedAt = (s.journal i).startedAt)
    (hof : ∀ log, LogOf (s.journal i) st.clock log → LogOf r st.clock log)
    (hclosed : r.finished = true → r.log ≠ none → r.entries ≠ [] ∨ r.refused = true) :
    LogsKept start n ⟨st, Function.update s.journal i r⟩ := by
  apply h.move hi hclock
  · intro k _
    rw [hlogs]
  · intro k hk
    rw [hlog, hk]
  · intro k hk
    rw [hlog] at hk
    obtain ⟨hlate, hstarted, log, hget, hlog'⟩ := h.own i k hk
    rw [hlogs, hat]
    exact ⟨hlate, le_trans hstarted hclock, log, hget, hof log (hlog'.mono hclock)⟩
  · intro j k hne hj hk
    rw [hlog] at hk
    exact hne (h.apart j i k hj hk)
  · exact hclosed

theorem LogsKept.length_le (h : LogsKept start n s) :
    start.length ≤ s.state.syncLogs.length := by
  by_contra hlt
  have hk : s.state.syncLogs.length < start.length := by omega
  have hget := h.earlier _ hk
  rw [List.getElem?_eq_none (le_refl _), List.getElem?_eq_getElem hk] at hget
  cases hget

/-- The run saves the log it begins with. -/
theorem LogsKept.save (h : LogsKept start n s) (hi : i < n) {startedAt : ℕ}
    (hnone : (s.journal i).log = none) (hentries : (s.journal i).entries = [])
    (hfinished : (s.journal i).finished = false) (hat : startedAt ≤ s.state.clock) :
    LogsKept start n
      ⟨{ s.state with syncLogs := s.state.syncLogs ++ [startedLog startedAt] },
        Function.update s.journal i { s.journal i with
          log := some s.state.syncLogs.length, startedAt := startedAt }⟩ := by
  apply h.move hi
  · exact le_refl _
  · intro k hk
    -- the new log has the number that was free
    by_cases hlt : k < s.state.syncLogs.length
    · exact List.getElem?_append_left hlt
    · have hne : k ≠ s.state.syncLogs.length := fun hk' => hk (congrArg some hk'.symm)
      have hlast : (s.state.syncLogs ++ [startedLog startedAt]).length ≤ k := by
        rw [List.length_append, List.length_singleton]
        omega
      exact (List.getElem?_eq_none hlast).trans (List.getElem?_eq_none (by omega)).symm
  · intro k hk
    rw [hnone] at hk
    cases hk
  · intro k hk
    cases hk
    refine ⟨h.length_le, hat, startedLog startedAt, ?_, ?_⟩
    · rw [List.getElem?_append_right (le_refl _), Nat.sub_self]
      rfl
    · exact LogOf.started (r := { s.journal i with log := _, startedAt := startedAt }) hentries
  · intro j k _ hj hk
    cases hk
    obtain ⟨_, _, log, hget, _⟩ := h.own j _ hj
    exact absurd (List.getElem?_eq_some_iff.mp hget).1 (lt_irrefl _)
  · intro hfinished'
    rw [hfinished] at hfinished'
    cases hfinished'

/-- The run ends its log. -/
theorem LogsKept.finish (h : LogsKept start n s) (hi : i < n) {id : ℕ} {entry : SyncLogPatch}
    (hid : (s.journal i).log = some id) (hentries : (s.journal i).entries = [])
    (htrue : Truthful (s.journal i) entry) (hfrom : (s.journal i).startedAt ≤ entry.completedAt)
    (hto : entry.completedAt ≤ s.state.clock) :
    LogsKept start n
      ⟨{ s.state with syncLogs := s.state.syncLogs.modify id entry.apply },
        Function.update s.journal i { s.journal i with entries := [entry], refused := false }⟩ := by
  apply h.move hi
  · exact le_refl _
  · intro k hk
    have hne : id ≠ k := fun hk' => hk (hid.trans (congrArg some hk'))
    exact List.getElem?_modify_ne _ _ hne
  · exact fun k hk => hk
  · intro k hk
    obtain ⟨hlate, hstarted, log, hget, hlog⟩ := h.own i k hk
    obtain rfl : id = k := Option.some.inj (hid.symm.trans hk)
    have hopen : log = startedLog (s.journal i).startedAt := hlog.eq_started hentries
    refine ⟨hlate, hstarted, entry.apply log, ?_, ?_⟩
    · rw [List.getElem?_modify_eq, hget]
      rfl
    · rw [hopen]
      exact LogOf.ended (r := { s.journal i with entries := [entry], refused := false }) entry rfl
        ⟨htrue.updated, htrue.omitted, htrue.counted, htrue.processed, htrue.outcome⟩ hfrom hto
  · exact fun j k hne hj hk => hne (h.apart j i k hj hk)
  · exact fun _ _ => .inl (List.cons_ne_nil _ _)

end Kept

section Stays

/-- The logs of `st` are in `st'`, and those that were ended are as they were. -/
def LogsStay (st st' : BatchState) : Prop :=
  ∀ (k : ℕ) (log : SyncLog), st.syncLogs[k]? = some log → ∃ log', st'.syncLogs[k]? = some log' ∧
    log'.syncType = log.syncType ∧ log'.startedAt = log.startedAt ∧
    (log.status ≠ .started → log' = log)

variable {st st' st'' : BatchState}

theorem LogsStay.of_eq (h : st'.syncLogs = st.syncLogs) : LogsStay st st' :=
  fun _ log hget => ⟨log, h ▸ hget, rfl, rfl, fun _ => rfl⟩

theorem LogsStay.trans (h : LogsStay st st') (h' : LogsStay st' st'') : LogsStay st st'' := by
  intro k log hget
  obtain ⟨log', hget', htype, hat, hended⟩ := h k log hget
  obtain ⟨log'', hget'', htype', hat', hended'⟩ := h' k log' hget'
  refine ⟨log'', hget'', htype'.trans htype, hat'.trans hat, fun hstatus => ?_⟩
  have hsame : log' = log := hended hstatus
  rw [← hsame] at hstatus ⊢
  exact hended' hstatus

theorem logsStay_save (log : SyncLog) :
    LogsStay st { st with syncLogs := st.syncLogs ++ [log] } := by
  intro k log' hget
  have hk : k < st.syncLogs.length := (List.getElem?_eq_some_iff.mp hget).1
  exact ⟨log', (List.getElem?_append_left hk).trans hget, rfl, rfl, fun _ => rfl⟩

theorem logsStay_entry {id : ℕ} {entry : SyncLogPatch}
    (hopen : ∀ log, st.syncLogs[id]? = some log → log.status = .started) :
    LogsStay st { st with syncLogs := st.syncLogs.modify id entry.apply } := by
  intro k log hget
  by_cases hk : id = k
  · subst hk
    refine ⟨entry.apply log, ?_, rfl, rfl, fun hstatus => absurd (hopen log hget) hstatus⟩
    exact (List.getElem?_modify_eq _ _ _).trans (by rw [hget]; rfl)
  · exact ⟨log, (List.getElem?_modify_ne _ _ hk).trans hget, rfl, rfl, fun _ => rfl⟩

end Stays

section Steps

variable {rt : Runtime} {start : List SyncLog} {i : ℕ} {s s' : BatchJournals} {o : BatchOp}
  {res : Except BatchErr o.Resp}

/-- A step of run `i`. -/
def SyncStep (rt : Runtime) (start : List SyncLog) (i : ℕ) (o : BatchOp) (s : BatchJournals)
    (res : Except BatchErr o.Resp) (s' : BatchJournals) : Prop :=
  (∃ n, LogsKept start n s) ∧ ∃ x, (journaledBatch rt).exec i o x s = some (res, s')

/-- What the others do to run `i`. -/
structure SyncSpared (i : ℕ) (s s' : BatchJournals) : Prop where
  journal : s'.journal i = s.journal i
  clock : s.state.clock ≤ s'.state.clock

/-- What run `i` does to the logs and the others. -/
structure SyncMoved (start : List SyncLog) (i : ℕ) (s s' : BatchJournals) : Prop where
  spares : ∀ j, j ≠ i → SyncSpared j s s'
  stays : LogsStay s.state s'.state
  kept : ∀ n, i < n → LogsKept start n s → LogsKept start n s'

/-- What run `i` comes to with `p`, whatever the others do meanwhile. -/
abbrev SyncHolds (rt : Runtime) (start : List SyncLog) (i : ℕ) {β : Type} (p : Batch β)
    (Q : Except BatchErr β → BatchJournals → Prop) (s : BatchJournals) : Prop :=
  p.Holds (SyncStep rt start i) (SyncSpared i) (SyncMoved start i) Q s

/-- The operation does not touch the logs. -/
def BatchOp.aside : BatchOp → Bool
  | saveSyncLog _ | updateSyncLog _ _ => false
  | _ => true

theorem SyncStep.out (h : SyncStep rt start i o s res s') : ∃ x st,
    o.exec rt x s.state = some (res, st) ∧
      s' = ⟨st, Function.update s.journal i (RunJournal.note o res (s.journal i))⟩ := by
  obtain ⟨_, x, hx⟩ := h
  obtain ⟨⟨r, st⟩, hexec, heq⟩ := Option.map_eq_some_iff.mp hx
  cases heq
  exact ⟨x, st, hexec, rfl⟩

theorem exec_aside (ho : o.aside = true) {x : BatchChoice} {st st' : BatchState}
    (h : o.exec rt x st = some (res, st')) :
    st'.syncLogs = st.syncLogs ∧ st'.clock = st.clock := by
  have hst' : some st' = (o.exec rt x st).map Prod.snd := by rw [h]; rfl
  cases o with
  | saveSyncLog log => cases ho
  | updateSyncLog id patch => cases ho
  | insertBalance columns hcmTotal now version =>
    cases x with
    | go =>
      cases hst'
      unfold BatchState.insertBalance
      split
      · exact ⟨rfl, rfl⟩
      · split <;> exact ⟨rfl, rfl⟩
    | fail e =>
      cases hst'
      exact ⟨rfl, rfl⟩
    | reply data => cases hst'
  | _ =>
    cases x <;> cases hst' <;> exact ⟨rfl, rfl⟩

/-- The journal of the same log. -/
structure RunJournal.SameLog (r r' : RunJournal) : Prop where
  log : r'.log = r.log
  startedAt : r'.startedAt = r.startedAt
  entries : r'.entries = r.entries
  refused : r'.refused = r.refused
  finished : r'.finished = r.finished

theorem note_aside (ho : o.aside = true) (res : Except BatchErr o.Resp) (r : RunJournal) :
    r.SameLog (RunJournal.note o res r) := by
  unfold RunJournal.note
  split
  · cases ho
  · exact ⟨rfl, rfl, rfl, rfl, rfl⟩
  · exact ⟨rfl, rfl, rfl, rfl, rfl⟩
  · split
    · exact ⟨rfl, rfl, rfl, rfl, rfl⟩
    · split
      · split <;> exact ⟨rfl, rfl, rfl, rfl, rfl⟩
      · exact ⟨rfl, rfl, rfl, rfl, rfl⟩
  · cases ho
  · cases ho
  · exact ⟨rfl, rfl, rfl, rfl, rfl⟩

theorem spares_update {st : BatchState} {r : RunJournal} (hclock : s.state.clock ≤ st.clock) :
    ∀ j, j ≠ i → SyncSpared j s ⟨st, Function.update s.journal i r⟩ :=
  fun _ hne => ⟨Function.update_of_ne hne _ _, hclock⟩

/-- An operation aside from the logs, before the run has ended its log or with nothing to note. -/
theorem SyncStep.aside (h : SyncStep rt start i o s res s') (ho : o.aside = true)
    (hnote : (s.journal i).entries = [] ∨
      RunJournal.note o res (s.journal i) = s.journal i) :
    SyncMoved start i s s' ∧ s'.journal i = RunJournal.note o res (s.journal i) := by
  obtain ⟨x, st, hexec, rfl⟩ := h.out
  obtain ⟨hlogs, hclock⟩ := exec_aside ho hexec
  have hsame := note_aside ho res (s.journal i)
  refine ⟨⟨spares_update hclock.ge, .of_eq hlogs, fun n hi hkept => ?_⟩,
    Function.update_self _ _ _⟩
  apply hkept.note hi hlogs hclock.ge hsame.log hsame.startedAt
  · intro log hlog
    rcases hnote with hentries | hsame'
    · cases hlog with
      | started _ =>
        rw [← hsame.startedAt]
        exact .started (hsame.entries.trans hentries)
      | ended _ hentries' =>
        rw [hentries] at hentries'
        cases hentries'
    · rw [hsame']
      exact hlog
  · intro hfinished hlog
    rw [hsame.finished] at hfinished
    rw [hsame.log] at hlog
    rw [hsame.entries, hsame.refused]
    exact hkept.closed i hfinished hlog

end Steps

section Calls

variable {rt : Runtime} {start : List SyncLog} {i : ℕ} {s : BatchJournals} {o : BatchOp}

theorem aside_holds (ho : o.aside = true) (hentries : (s.journal i).entries = [])
    {Q : Except BatchErr o.Resp → BatchJournals → Prop}
    (hQ : ∀ res s', s'.journal i = RunJournal.note o res (s.journal i) → Q res s') :
    SyncHolds rt start i (Batch.call o) Q s := by
  apply Prog.Holds.perform
  intro s₁ hspared res s₂ hstep
  have hentries₁ : (s₁.journal i).entries = [] := by rw [hspared.journal, hentries]
  obtain ⟨hmoved, hjournal⟩ := hstep.aside ho (.inl hentries₁)
  rw [hspared.journal] at hjournal
  exact ⟨hmoved, hQ res s₂ hjournal⟩

/-- The time that a run reads is after its beginning and not after what follows. -/
theorem now_holds (hentries : (s.journal i).entries = [])
    {Q : Except BatchErr ℕ → BatchJournals → Prop}
    (hQ : ∀ now s', s'.journal i = s.journal i → now = s'.state.clock →
      ((s.journal i).log ≠ none → (s.journal i).startedAt ≤ now) → Q (.ok now) s') :
    SyncHolds rt start i (Batch.call .now) Q s := by
  apply Prog.Holds.perform
  intro s₁ hspared res s₂ hstep
  have hentries₁ : (s₁.journal i).entries = [] := by rw [hspared.journal, hentries]
  obtain ⟨hmoved, hjournal⟩ := hstep.aside rfl (.inl hentries₁)
  obtain ⟨⟨n, hkept⟩, _⟩ := id hstep
  obtain ⟨x, st, hexec, rfl⟩ := hstep.out
  refine ⟨hmoved, ?_⟩
  cases x with
  | go =>
    cases hexec
    refine hQ _ _ (hjournal.trans hspared.journal) rfl fun hlog => ?_
    obtain ⟨id, hid⟩ := Option.ne_none_iff_exists'.mp hlog
    rw [← hspared.journal] at hid ⊢
    exact (hkept.own i id hid).2.1
  | fail e => cases hexec
  | reply data => cases hexec

/-- A run that has ended its log leaves it so. -/
theorem leave_holds {Q : Except BatchErr Unit → BatchJournals → Prop}
    (hQ : ∀ res s', s'.journal i = s.journal i → Q res s') :
    SyncHolds rt start i (Batch.call .leave) Q s := by
  apply Prog.Holds.perform
  intro s₁ hspared res s₂ hstep
  obtain ⟨hmoved, hjournal⟩ := hstep.aside rfl (.inr rfl)
  exact ⟨hmoved, hQ res s₂ (hjournal.trans hspared.journal)⟩

theorem save_holds {startedAt : ℕ} (hnone : (s.journal i).log = none)
    (hentries : (s.journal i).entries = []) (hfinished : (s.journal i).finished = false)
    (hat : startedAt ≤ s.state.clock) {Q : Except BatchErr ℕ → BatchJournals → Prop}
    (hok : ∀ id s', s'.journal i =
      { s.journal i with log := some id, startedAt := startedAt } → Q (.ok id) s')
    (herror : ∀ e s', s'.journal i = s.journal i → Q (.error e) s') :
    SyncHolds rt start i (Batch.call (.saveSyncLog (startedLog startedAt))) Q s := by
  apply Prog.Holds.perform
  intro s₁ hspared res s₂ hstep
  have hjournal := hspared.journal
  rw [← hjournal] at hnone hentries hfinished hok herror
  have hat₁ : startedAt ≤ s₁.state.clock := le_trans hat hspared.clock
  obtain ⟨x, st, hexec, rfl⟩ := hstep.out
  cases x with
  | go =>
    cases hexec
    exact ⟨⟨spares_update (le_refl _), logsStay_save _,
      fun n hi hkept => hkept.save hi hnone hentries hfinished hat₁⟩,
      hok _ _ (Function.update_self _ _ _)⟩
  | fail e =>
    cases hexec
    refine ⟨⟨spares_update (le_refl _), .of_eq rfl, fun n hi hkept => ?_⟩,
      herror _ _ (Function.update_self _ _ _)⟩
    exact hkept.note hi rfl (le_refl _) rfl rfl (fun _ h => h) (hkept.closed i)
  | reply data => cases hexec

/-- The journal shows an entry, or one that the store refused. -/
def RunJournal.Ended (r : RunJournal) : Prop := r.entries ≠ [] ∨ r.refused = true

/-- The one entry of a run; when the store refuses it the log is as before. -/
theorem entry_holds {id : ℕ} {entry : SyncLogPatch} (hid : (s.journal i).log = some id)
    (hentries : (s.journal i).entries = []) (htrue : Truthful (s.journal i) entry)
    (hfrom : (s.journal i).startedAt ≤ entry.completedAt) (hto : entry.completedAt ≤ s.state.clock)
    {Q : Except BatchErr Unit → BatchJournals → Prop}
    (hok : ∀ s', (s'.journal i).Ended → Q (.ok ()) s')
    (herror : ∀ e s', s'.journal i = { s.journal i with refused := true } → Q (.error e) s') :
    SyncHolds rt start i (Batch.call (.updateSyncLog id entry)) Q s := by
  apply Prog.Holds.perform
  intro s₁ hspared res s₂ hstep
  have hjournal := hspared.journal
  rw [← hjournal] at hid hentries htrue hfrom herror
  have hto₁ : entry.completedAt ≤ s₁.state.clock := le_trans hto hspared.clock
  have hopen : ∀ log, s₁.state.syncLogs[id]? = some log → log.status = .started := by
    intro log hlog
    obtain ⟨⟨n, hkept⟩, _⟩ := hstep
    exact hkept.status_open hid hentries hlog
  obtain ⟨x, st, hexec, rfl⟩ := hstep.out
  cases x with
  | go =>
    cases hexec
    have hnote : RunJournal.note (.updateSyncLog id entry) (.ok ()) (s₁.journal i) =
        { s₁.journal i with entries := [entry], refused := false } := by
      change { s₁.journal i with
        entries := (s₁.journal i).entries ++ [entry], refused := false } = _
      rw [hentries, List.nil_append]
    rw [hnote]
    refine ⟨⟨spares_update (le_refl _), logsStay_entry hopen, fun n hi hkept =>
      hkept.finish hi hid hentries htrue hfrom hto₁⟩, hok _ (.inl ?_)⟩
    dsimp only
    rw [Function.update_self]
    exact List.cons_ne_nil _ _
  | fail e =>
    cases hexec
    refine ⟨⟨spares_update (le_refl _), .of_eq rfl, fun n hi hkept => ?_⟩,
      herror _ _ (Function.update_self _ _ _)⟩
    refine hkept.note hi rfl (le_refl _) rfl rfl (fun log hlog => ?_) fun _ _ => .inr rfl
    cases hlog with
    | started _ =>
      exact LogOf.started (r := { s₁.journal i with refused := true }) hentries
    | ended _ hentries' =>
      rw [hentries] at hentries'
      cases hentries'
  | reply data => cases hexec

end Calls

end TimeOff
