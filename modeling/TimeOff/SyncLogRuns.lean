import TimeOff.BatchOrder
import TimeOff.SyncLogs

/-! A whole run of the batch writes its log truthfully, through every end that its loops, its
`catch` and its `finally` can come to; and so do all runs together. -/
namespace TimeOff

open Async

section Bodies

variable {rt : Runtime} {start : List SyncLog} {i id : ℕ} {s : BatchJournals} {t : Tally}
  {r : RunJournal}

/-- A run with this journal has not ended its log `id`, and its counters are the journal's. -/
structure Counting (id : ℕ) (t : Tally) (r : RunJournal) : Prop where
  log : r.log = some id
  entries : r.entries = []
  updated : t.recordsUpdated = r.written
  omitted : r.omitted ≤ t.recordsFailed
  counted : t.recordsUpdated + t.recordsFailed ≤ t.recordsProcessed
  processed : t.recordsProcessed ≤ r.records + r.omitted

/-- The same within the loops, with `left` records still to take up. -/
structure Tracking (id : ℕ) (t : Tally) (left : ℕ) (r : RunJournal) : Prop where
  log : r.log = some id
  entries : r.entries = []
  updated : t.recordsUpdated = r.written
  omitted : r.omitted ≤ t.recordsFailed
  counted : t.recordsUpdated + t.recordsFailed ≤ t.recordsProcessed
  errors : t.errors.length = t.recordsFailed
  taken : t.recordsProcessed + left = r.records + r.omitted

theorem Tracking.counting {left : ℕ} (h : Tracking id t left r) : Counting id t r where
  log := h.log
  entries := h.entries
  updated := h.updated
  omitted := h.omitted
  counted := h.counted
  processed := by
    have htaken := h.taken
    omega

theorem Tracking.omit (h : Tracking id t 0 r) (key : BalanceKey) :
    Tracking id (t.omit key) 0 { r with omitted := r.omitted + 1 } where
  log := h.log
  entries := h.entries
  updated := h.updated
  omitted := Nat.succ_le_succ h.omitted
  counted := by
    have hcounted := h.counted
    dsimp only [Tally.omit]
    omega
  errors := by
    dsimp only [Tally.omit]
    rw [List.length_append, h.errors]
    rfl
  taken := by
    have htaken := h.taken
    dsimp only [Tally.omit]
    omega

/-- One more record, reconciled or failed. -/
theorem Tracking.record {left : ℕ} (h : Tracking id t (left + 1) r) (hcmRecord : Json)
    {res : Except BatchErr Bool} {t' : Tally} (ht' : t.record hcmRecord res = .ok t') :
    Tracking id t' left (r.reconciled res) := by
  have homitted := h.omitted
  have hcounted := h.counted
  have htaken := h.taken
  cases res with
  | ok updated =>
    cases ht'
    cases updated with
    | true =>
      refine ⟨h.log, h.entries, congrArg Nat.succ h.updated, homitted, ?_, h.errors, ?_⟩
      · dsimp only
        rw [if_pos rfl]
        omega
      · dsimp only [RunJournal.reconciled]
        omega
    | false =>
      refine ⟨h.log, h.entries, h.updated, homitted, ?_, h.errors, ?_⟩
      · dsimp only
        rw [if_neg Bool.false_ne_true]
        omega
      · dsimp only [RunJournal.reconciled]
        omega
  | error err =>
    unfold Tally.record at ht'
    cases hfields : hcmRecord.fields with
    | error e =>
      rw [hfields] at ht'
      cases ht'
    | ok fields =>
      rw [hfields] at ht'
      cases ht'
      refine ⟨h.log, h.entries, h.updated, Nat.le_succ_of_le homitted, ?_, ?_, ?_⟩
      · dsimp only
        omega
      · dsimp only
        rw [List.length_append, h.errors]
        rfl
      · dsimp only [RunJournal.reconciled]
        omega

/-- A record that throws in the `catch` as well. -/
theorem Tracking.record_error {left : ℕ} (h : Tracking id t (left + 1) r) (hcmRecord : Json)
    {res : Except BatchErr Bool} {err : BatchErr} (ht' : t.record hcmRecord res = .error err) :
    Counting id
      { t with
        recordsProcessed := t.recordsProcessed + 1
        recordsFailed := t.recordsFailed + 1 } (r.reconciled res) := by
  have homitted := h.omitted
  have hcounted := h.counted
  have htaken := h.taken
  cases res with
  | ok updated => cases ht'
  | error _ =>
    refine ⟨h.log, h.entries, h.updated, Nat.le_succ_of_le homitted, ?_, ?_⟩
    · dsimp only
      omega
    · dsimp only [RunJournal.reconciled]
      omega

/-- What a run comes to after its log was saved. -/
abbrev EndsLog (rt : Runtime) (start : List SyncLog) (i : ℕ) (p : Batch Unit)
    (s : BatchJournals) : Prop :=
  SyncHolds rt start i p (fun _ s => (s.journal i).Ended) s

theorem batchFailed_holds (h : Counting id t (s.journal i)) (err : BatchErr) :
    EndsLog rt start i (batchFailed id t err) s := by
  apply Prog.Holds.bind
  apply now_holds h.entries
  intro now s' hs hnow hat
  rw [h.log] at hat
  rw [← hs] at h hat
  apply entry_holds h.log h.entries
  · exact ⟨h.updated, h.omitted, h.counted, h.processed, .inr ⟨rfl, _, rfl⟩⟩
  · exact hat nofun
  · exact hnow.le
  · exact fun _ hended => hended
  · intro _ s'' hs''
    rw [hs'']
    exact .inr rfl

theorem tryStep_holds {β : Type} {p : Batch β} {next : β → Batch Unit}
    (hp : SyncHolds rt start i p
      (fun res s => match res with
        | .ok v => EndsLog rt start i (next v) s
        | .error _ => Counting id t (s.journal i)) s) :
    EndsLog rt start i (tryStep id t p next) s := by
  apply Prog.Holds.bind
  apply Prog.Holds.attempt
  refine Prog.Holds.mono ?_ hp
  intro res s' hres
  cases res with
  | ok v => exact hres
  | error err => exact batchFailed_holds hres err

theorem finalStatus_truthful (h : t.recordsFailed ≤ t.recordsProcessed) :
    (t.finalStatus = .completed ↔ t.recordsFailed = 0) ∧
      (t.finalStatus = .partialSync ↔
        0 < t.recordsFailed ∧ t.recordsFailed < t.recordsProcessed) := by
  unfold Tally.finalStatus
  split
  · refine ⟨iff_of_true rfl ‹_›, iff_of_false nofun ?_⟩
    omega
  · split
    · refine ⟨iff_of_false nofun ‹_›, iff_of_true rfl ?_⟩
      omega
    · refine ⟨iff_of_false nofun ‹_›, iff_of_false nofun ?_⟩
      omega

theorem batchCompleted_holds (h : Tracking id t 0 (s.journal i)) :
    EndsLog rt start i (batchCompleted id t) s := by
  apply tryStep_holds
  apply Prog.Holds.bind
  apply now_holds h.entries
  intro now s' hs hnow hat
  rw [h.log] at hat
  rw [← hs] at h hat
  have hfailed : t.recordsFailed ≤ t.recordsProcessed :=
    le_trans (Nat.le_add_left _ _) h.counted
  apply entry_holds h.log h.entries
  · obtain ⟨hcompleted, hpartial⟩ := finalStatus_truthful hfailed
    refine ⟨h.updated, h.omitted, h.counted, h.counting.processed,
      .inl ⟨h.taken, hcompleted, hpartial, ?_⟩⟩
    dsimp only
    rw [← h.errors]
    cases t.errors <;> rfl
  · exact hat nofun
  · exact hnow.le
  · exact fun _ hended => hended
  -- the entry of the `catch` is a second try
  · intro _ s'' hs''
    have hcounting := h.counting
    rw [hs'']
    exact ⟨hcounting.log, hcounting.entries, hcounting.updated, hcounting.omitted,
      hcounting.counted, hcounting.processed⟩

theorem omitEach_holds {hcmKeySet : List String} (rows : List EmployeeBalance)
    (h : Tracking id t 0 (s.journal i)) :
    EndsLog rt start i (omitEach hcmKeySet id (batchCompleted id) rows t) s := by
  induction rows generalizing t s with
  | nil => exact batchCompleted_holds h
  | cons localBalance rest ih =>
    unfold omitEach
    split
    · exact ih h
    · apply tryStep_holds
      apply Prog.Holds.bind
      apply now_holds h.entries
      intro now s' hs _ _
      rw [← hs] at h
      apply aside_holds rfl h.entries
      intro res s'' hs''
      -- the row counts as taken up and failed before its update, whichever way that goes
      have hnext : Tracking id (t.omit localBalance.key) 0 (s''.journal i) := by
        rw [hs'', note_omitted rfl]
        exact h.omit localBalance.key
      cases res with
      | ok _ => exact ih hnext
      | error _ => exact hnext.counting

theorem bind_ofExcept_holds {β γ : Type} {x : Except BatchErr β} {k : β → Batch γ}
    {Q : Except BatchErr γ → BatchJournals → Prop} (herror : ∀ e, x = .error e → Q (.error e) s)
    (hok : ∀ v, x = .ok v → SyncHolds rt start i (k v) Q s) :
    SyncHolds rt start i ((Prog.ofExcept x).bind k) Q s := by
  cases x with
  | error e => exact herror e rfl
  | ok v => exact hok v rfl

theorem reconcileElement_holds (hcmRecord : Json) (hentries : (s.journal i).entries = []) :
    SyncHolds rt start i (reconcileElement rt hcmRecord)
      (fun res s' => s'.journal i = (s.journal i).reconciled res) s := by
  have hthrow {e : BatchErr} {s' : BatchJournals} (hs : s'.journal i = s.journal i) :
      s'.journal i = (s.journal i).reconciled (.error e) := hs
  -- what the record throws before its row is written leaves no trace
  apply bind_ofExcept_holds (fun _ _ => hthrow rfl)
  intro r _
  apply bind_ofExcept_holds (fun _ _ => hthrow rfl)
  intro hcmTotal _
  apply bind_ofExcept_holds (fun _ _ => hthrow rfl)
  intro columns _
  apply Prog.Holds.bind
  apply aside_holds rfl hentries
  intro found s₁ hs₁
  have hs₁' : s₁.journal i = s.journal i := hs₁
  cases found with
  | error e => exact hthrow hs₁'
  | ok localBalance =>
    apply bind_ofExcept_holds (fun _ _ => hthrow hs₁')
    intro version _
    apply Prog.Holds.bind
    apply now_holds (by rw [hs₁', hentries])
    intro now s₂ hs₂ _ _
    have hs₂' : s₂.journal i = s.journal i := hs₂.trans hs₁'
    have hentries₂ : (s₂.journal i).entries = [] := by rw [hs₂', hentries]
    cases localBalance with
    | none =>
      apply Prog.Holds.bind
      apply aside_holds rfl hentries₂
      intro res s₃ hs₃
      rw [hs₂'] at hs₃
      cases res <;> exact hs₃
    | some localBalance =>
      apply Prog.Holds.bind
      apply aside_holds rfl hentries₂
      intro res s₃ hs₃
      rw [hs₂', note_reconciled] at hs₃
      cases res <;> exact hs₃

theorem reconcileEach_holds {next : Tally → Batch Unit} (records : List Json)
    (hnext : ∀ {t s}, Tracking id t 0 (s.journal i) → EndsLog rt start i (next t) s)
    (h : Tracking id t records.length (s.journal i)) :
    EndsLog rt start i (reconcileEach rt id next records t) s := by
  induction records generalizing t s with
  | nil => exact hnext h
  | cons hcmRecord rest ih =>
    apply Prog.Holds.bind
    apply Prog.Holds.attempt
    refine Prog.Holds.mono ?_ (reconcileElement_holds hcmRecord h.entries)
    intro res s' hs'
    dsimp only [Prog.after]
    cases ht' : t.record hcmRecord res with
    | ok t' =>
      apply ih
      rw [hs']
      exact h.record hcmRecord ht'
    | error err =>
      apply batchFailed_holds
      rw [hs']
      exact h.record_error hcmRecord ht'

/-- A run that has saved its log and done nothing else. -/
structure RunJournal.Fresh (r : RunJournal) : Prop where
  entries : r.entries = []
  records : r.records = 0
  written : r.written = 0
  omitted : r.omitted = 0

theorem RunJournal.Fresh.counting (h : r.Fresh) (hid : r.log = some id)
    {res : Except BatchErr (Option Json)} :
    Counting id .zero (RunJournal.note .getBatchBalances res r) := by
  have hsame : r.SameLog (RunJournal.note .getBatchBalances res r) :=
    note_aside (o := .getBatchBalances) rfl res r
  have hwritten : (RunJournal.note .getBatchBalances res r).written = 0 ∧
      (RunJournal.note .getBatchBalances res r).omitted = 0 := by
    unfold RunJournal.note
    split <;> first | exact ⟨h.written, h.omitted⟩ | contradiction
  refine ⟨hsame.log.trans hid, hsame.entries.trans h.entries, hwritten.1.symm, hwritten.2.le,
    le_refl _, Nat.zero_le _⟩

theorem syncBalances_holds (hid : (s.journal i).log = some id) (hfresh : (s.journal i).Fresh) :
    EndsLog rt start i (syncBalances rt id) s := by
  apply tryStep_holds
  apply Prog.Holds.bind
  apply aside_holds rfl hfresh.entries
  intro res s₁ hs₁
  have hcounting : Counting id .zero (s₁.journal i) := by
    rw [hs₁]
    exact hfresh.counting hid
  cases res with
  | error e => exact hcounting
  | ok hcmBalances =>
    apply bind_ofExcept_holds (fun _ _ => hcounting)
    intro records hrecords
    apply bind_ofExcept_holds (fun _ _ => hcounting)
    intro hcmKeySet _
    -- both loops, from the counters at zero
    apply reconcileEach_holds
    · intro t s₂ h
      apply tryStep_holds
      apply aside_holds rfl h.entries
      intro rows s₃ hs₃
      have h' : Tracking id t 0 (s₃.journal i) := by
        rw [hs₃]
        exact h
      cases rows with
      | error e => exact h'.counting
      | ok localBalances => exact omitEach_holds localBalances h'
    · have hdata : hcmBalances = some (.array records) := by
        unfold payloadRecords at hrecords
        split at hrecords
        · cases hrecords
          rfl
        · cases hrecords
      rw [hdata] at hs₁
      rw [hs₁]
      exact ⟨hid, hfresh.entries, hfresh.written.symm, hfresh.omitted.le, le_refl _, rfl, by
        dsimp only [RunJournal.note, Tally.zero]
        rw [hfresh.omitted, Nat.zero_add]; rfl⟩

/-- What a call ends with: a log that it has saved is ended. -/
def EndedIfLogged (i : ℕ) (s : BatchJournals) : Prop :=
  (s.journal i).log ≠ none → (s.journal i).Ended

theorem runBatchSync_holds (hblank : s.journal i = .blank) :
    SyncHolds rt start i (runBatchSync rt) (fun _ s => EndedIfLogged i s) s := by
  have hunlogged {s' : BatchJournals} (hs : s'.journal i = .blank) : EndedIfLogged i s' := by
    intro hlog
    rw [hs] at hlog
    exact absurd rfl hlog
  have hentries {s' : BatchJournals} (hs : s'.journal i = .blank) :
      (s'.journal i).entries = [] := by rw [hs]; rfl
  apply Prog.Holds.bind
  apply aside_holds rfl (hentries hblank)
  intro entered s₁ hs₁
  have hs₁' : s₁.journal i = .blank := hs₁.trans hblank
  cases entered with
  | error e => exact hunlogged hs₁'
  | ok entered =>
    cases entered with
    | false => exact hunlogged hs₁'
    | true =>
      apply Prog.Holds.bind
      apply now_holds (hentries hs₁')
      intro startedAt s₂ hs₂ hnow _
      have hs₂' : s₂.journal i = .blank := hs₂.trans hs₁'
      apply Prog.Holds.bind
      apply save_holds (by rw [hs₂']; rfl) (hentries hs₂') (by rw [hs₂']; rfl) hnow.le
      · intro id s₃ hs₃
        have hsync : EndsLog rt start i (syncBalances rt id) s₃ := by
          apply syncBalances_holds
          · rw [hs₃]
          · rw [hs₃, hs₂']
            exact ⟨rfl, rfl, rfl, rfl⟩
        apply Prog.Holds.ensuring
        refine Prog.Holds.mono ?_ hsync
        intro res s₄ hended
        -- the `finally` block adds nothing to the journal
        apply leave_holds
        intro left s₅ hs₅
        have hended' : EndedIfLogged i s₅ := by
          intro _
          rw [hs₅]
          exact hended
        cases left <;> exact hended'
      · intro e s₃ hs₃
        exact hunlogged (hs₃.trans hs₂')

theorem triggerManualBatchSync_holds (hblank : s.journal i = .blank) :
    SyncHolds rt start i triggerManualBatchSync (fun _ s => EndedIfLogged i s) s := by
  have hunlogged {s' : BatchJournals} (hs : s'.journal i = .blank) : EndedIfLogged i s' := by
    intro hlog
    rw [hs] at hlog
    exact absurd rfl hlog
  apply Prog.Holds.bind
  apply aside_holds rfl (by rw [hblank]; rfl)
  intro running s₁ hs₁
  have hs₁' : s₁.journal i = .blank := hs₁.trans hblank
  cases running with
  | error e => exact hunlogged hs₁'
  | ok running =>
    cases running with
    | true => exact hunlogged hs₁'
    | false =>
      apply Prog.Holds.bind
      apply aside_holds rfl (by rw [hs₁']; rfl)
      intro res s₂ hs₂
      have hs₂' : s₂.journal i = .blank := hs₂.trans hs₁'
      cases res <;> exact hunlogged hs₂'

theorem bind_ret_holds {β γ : Type} {p : Batch β} (f : β → γ)
    (h : SyncHolds rt start i p (fun _ s => EndedIfLogged i s) s) :
    SyncHolds rt start i (p.bind fun v => (.ret (f v) : Batch γ)) (fun _ s => EndedIfLogged i s)
      s := by
  apply Prog.Holds.bind
  refine Prog.Holds.mono ?_ h
  intro res s' hs'
  cases res <;> exact hs'

theorem code_holds (c : BatchCall) (hblank : s.journal i = .blank) :
    SyncHolds rt start i (c.code rt) (fun _ s => EndedIfLogged i s) s := by
  cases c with
  | run => exact bind_ret_holds _ (runBatchSync_holds hblank)
  | immediate => exact bind_ret_holds _ (runBatchSync_holds hblank)
  | trigger => exact bind_ret_holds _ (triggerManualBatchSync_holds hblank)

end Bodies

section Runs

variable {rt : Runtime} {start : List SyncLog} {n i : ℕ} {s : BatchJournals}

theorem LogsKept.aside (h : LogsKept start n s) {st : BatchState}
    (hlogs : st.syncLogs = s.state.syncLogs) (hclock : s.state.clock ≤ st.clock) :
    LogsKept start n { s with state := st } := by
  refine ⟨?_, h.blank, fun i k hk => ?_, h.apart, ?_, h.closed⟩
  · rw [hlogs]
    exact h.earlier
  · obtain ⟨hlate, hstarted, log, hget, hlog⟩ := h.own i k hk
    dsimp only
    rw [hlogs]
    exact ⟨hlate, le_trans hstarted hclock, log, hget, hlog.mono hclock⟩
  · rw [hlogs]
    exact h.each

theorem accept_logs {c : BatchCall} {st st' : BatchState}
    (h : (batchMachine rt).accept i c st = some st') :
    st'.syncLogs = st.syncLogs ∧ st'.clock = st.clock := by
  cases c with
  | immediate =>
    obtain ⟨_, h⟩ := Option.ite_none_left_eq_some.mp h
    cases h
    exact ⟨rfl, rfl⟩
  | run =>
    cases h
    exact ⟨rfl, rfl⟩
  | trigger =>
    cases h
    exact ⟨rfl, rfl⟩

theorem env_logs {e : BatchEnv} {st st' : BatchState} (h : (batchMachine rt).env e st = some st') :
    st'.syncLogs = st.syncLogs ∧ st.clock ≤ st'.clock := by
  cases e with
  | tick ms =>
    cases h
    exact ⟨rfl, Nat.le_add_right _ _⟩
  | write store =>
    cases h
    exact ⟨rfl, le_refl _⟩

/-- Every call of the batch keeps the logs of all. -/
def logCalls (rt : Runtime) (start : List SyncLog) :
    RelyGuarantee (journaledBatch rt) fun _ _ => True where
  Inv := LogsKept start
  stepRel i _ := SyncStep rt start i
  rely i _ := SyncSpared i
  guar i _ := SyncMoved start i
  post i _ _ := EndedIfLogged i
  rely_refl := ⟨rfl, le_refl _⟩
  rely_trans h h' := ⟨h'.journal.trans h.journal, le_trans h.clock h'.clock⟩
  step_of hI _ _ hx := ⟨⟨_, hI⟩, _, hx⟩
  guar_inv hi hI h := h.kept _ hi hI
  guar_rely hne _ h := h.spares _ hne.symm
  finish_guar {n i c r s} _ hended := by
    refine ⟨spares_update (le_refl _), .of_eq rfl, fun n hi hkept => ?_⟩
    refine hkept.note hi rfl (le_refl _) rfl rfl (fun log hlog => ?_) fun _ => hended
    cases hlog with
    | started hentries => exact .started hentries
    | ended entry hentries htrue hfrom hto =>
      exact .ended entry hentries
        ⟨htrue.updated, htrue.omitted, htrue.counted, htrue.processed, htrue.outcome⟩ hfrom hto
  accept_inv {P c s'} hI _ hs := by
    obtain ⟨st, hst, rfl⟩ := Option.map_eq_some_iff.mp hs
    obtain ⟨hlogs, hclock⟩ := accept_logs hst
    have hkept := hI.aside hlogs hclock.ge
    exact ⟨hkept.earlier, fun i hi => hkept.blank i (Nat.le_of_succ_le hi), hkept.own, hkept.apart,
      hkept.each, hkept.closed⟩
  accept_rely _ _ _ hs := by
    obtain ⟨st, hst, rfl⟩ := Option.map_eq_some_iff.mp hs
    exact ⟨rfl, (accept_logs hst).2.ge⟩
  accept_holds {P c s'} hI _ hs := by
    obtain ⟨st, hst, rfl⟩ := Option.map_eq_some_iff.mp hs
    exact code_holds c (hI.blank _ (le_refl _))
  env_inv {P e s'} hI _ hs := by
    obtain ⟨st, hst, rfl⟩ := Option.map_eq_some_iff.mp hs
    obtain ⟨hlogs, hclock⟩ := env_logs hst
    exact hI.aside hlogs hclock
  env_rely _ _ hs := by
    obtain ⟨st, hst, rfl⟩ := Option.map_eq_some_iff.mp hs
    exact ⟨rfl, (env_logs hst).2⟩
  halt_inv hI _ := hI.aside rfl (le_refl _)

theorem logsKept_start (st : BatchState) :
    LogsKept st.syncLogs 0 (batchScribe.start st) := by
  refine ⟨fun _ _ => rfl, fun _ _ => rfl, fun _ _ hk => (nomatch hk), fun _ _ _ hk => (nomatch hk),
    fun k hlate hk => ?_, fun _ hfinished => nomatch hfinished⟩
  exact absurd hlate (Nat.not_le_of_lt hk)

/-- The logs along every run of the batch, whatever interleaves, fails or crashes. After any part
of it the logs that were there before are as they were, and each other log is that of one run,
`STARTED` or ended by the one entry of that run, which says what the run has done. From there on no
log is lost, and one that is ended stays as it is. -/
theorem sync_logs_truthful (rt : Runtime) (st : BatchState) {acts acts' : List BatchAct}
    {P P' : BatchPool} (hP : Transitions.run (batchMachine rt).step (Pool.init st) acts = some P)
    (hP' : Transitions.run (batchMachine rt).step P acts' = some P') :
    (∃ Q : BatchJournalPool,
      Transitions.run (journaledBatch rt).step (Pool.init (batchScribe.start st)) acts = some Q ∧
        Q.seen Journaled.state = P ∧ LogsKept st.syncLogs Q.next Q.shared) ∧
    LogsStay P.shared P'.shared := by
  have hprojects := (batchMachine rt).journaled_projects batchScribe
  -- the runs with their journals
  obtain ⟨Q, hQ, rfl⟩ := hprojects.run (P := Pool.init (batchScribe.start st)) hP
  obtain ⟨Q', hQ', rfl⟩ := hprojects.run hP'
  have hgood : (logCalls rt st.syncLogs).Good Q :=
    (logCalls rt st.syncLogs).good_of_reach (logsKept_start st) (Machine.reach_of_steps hQ)
  refine ⟨⟨Q, hQ, rfl, hgood.inv⟩, ?_⟩
  have hmoves := hgood.moves (R := fun s s' => LogsStay s.state s'.state)
    (fun _ => .of_eq rfl) .trans SyncMoved.stays (fun hs => ?_) (fun hs => ?_) (fun _ => .of_eq rfl)
    (Machine.reach_of_steps hQ')
  · exact hmoves.1
  · obtain ⟨st', hst', rfl⟩ := Option.map_eq_some_iff.mp hs
    exact .of_eq (accept_logs hst').1
  · obtain ⟨st', hst', rfl⟩ := Option.map_eq_some_iff.mp hs
    exact .of_eq (env_logs hst').1

/-- A run whose payload makes a row, fails on a number, and leaves out the row that there was. -/
def partialRun : List BatchAct :=
  [.start .run, .step 0 .go, .step 0 .go, .env (.tick 5), .step 0 .go,
    .step 0 (.reply (some (.array [recordJson ⟨"EMP9", "LOC1", "SICK"⟩ 12, .number 3])))] ++
    List.replicate 12 (.step 0 .go)

/-- A second run, and a crash while its snapshot is under way. -/
def crashedRun : List BatchAct :=
  [.start .run, .step 1 .go, .step 1 .go, .step 1 .go, .halt, .env (.tick 5)]

/-- The status and the counters of a log. -/
def SyncLog.brief (log : SyncLog) : SyncLogStatus × List ℕ :=
  (log.status, [log.recordsProcessed, log.recordsUpdated, log.recordsFailed])

/-- The first log counts three, one written and two failed; the second stays `STARTED`. -/
theorem partialRun_truthful : ∃ (P P' : BatchPool) (Q : BatchJournalPool),
    Transitions.run (batchMachine plainRuntime).step (Pool.init (batchOfTen plainKey)) partialRun =
        some P ∧
      Transitions.run (batchMachine plainRuntime).step P crashedRun = some P' ∧
      P'.shared.syncLogs.map SyncLog.brief =
        [(.partialSync, [3, 1, 2]), (.started, [0, 0, 0])] ∧
      Q.seen Journaled.state = P ∧ LogsKept [] Q.next Q.shared ∧ LogsStay P.shared P'.shared := by
  have hruns : ((Transitions.run (batchMachine plainRuntime).step (Pool.init (batchOfTen plainKey))
      partialRun).bind fun P => (Transitions.run (batchMachine plainRuntime).step P crashedRun).map
        fun P' => P'.shared.syncLogs.map SyncLog.brief) =
      some [(.partialSync, [3, 1, 2]), (.started, [0, 0, 0])] := by
    decide +kernel
  obtain ⟨P, hP, hrest⟩ := Option.bind_eq_some_iff.mp hruns
  obtain ⟨P', hP', hlogs⟩ := Option.map_eq_some_iff.mp hrest
  obtain ⟨⟨Q, _, hseen, hkept⟩, hstay⟩ :=
    sync_logs_truthful plainRuntime (batchOfTen plainKey) hP hP'
  exact ⟨P, P', Q, hP, hP', hlogs, hseen, hkept, hstay⟩

end Runs

end TimeOff
