import TimeOff.HcmTraffic
import TimeOff.ReplyClasses
import Mathlib.Algebra.Order.BigOperators.Group.List

/-! The queue of the retry worker when nothing else runs and no call of the database fails: each
pass retires the requests it takes or counts an attempt of theirs, whatever the HCM does. -/
namespace TimeOff

open Async

section Worker

/-- How long an operation of the worker is waited for, and how it turns out. -/
structure Turn where
  ms : ℕ
  choice : Choice

/-- The process of the worker with what its pass has done so far: whether the HCM was called
since the last update of a request, and the requests whose update came after such calls. -/
structure WorkerState where
  world : World
  calling : Bool
  callers : List ℕ

/-- What is remembered of an operation. -/
def WorkerState.note (s : WorkerState) (w : World) : Op → WorkerState
  | .base (.validateRequest _ _) => ⟨w, true, s.callers⟩
  | .base (.sendPut _) => ⟨w, true, s.callers⟩
  | .base (.awaitPut _ _) => ⟨w, true, s.callers⟩
  | .base (.db (.saveRequest id _)) =>
    ⟨w, false, if s.calling then id :: s.callers else s.callers⟩
  | _ => ⟨w, s.calling, s.callers⟩

/-- The calls of the database succeed. -/
def Turn.suits (t : Turn) : Op → Prop
  | .base (.db _) => t.choice = .go
  | _ => True

instance (t : Turn) (o : Op) : Decidable (t.suits o) := by
  cases o with
  | base b =>
    cases b with
    | db d => exact inferInstanceAs (Decidable (t.choice = .go))
    | _ => exact inferInstanceAs (Decidable True)
  | transaction body => exact inferInstanceAs (Decidable True)

def World.later (w : World) (ms : ℕ) : World := { w with clock := w.clock + ms }

def WorkerState.exec (o : Op) (t : Turn) (s : WorkerState) :
    Option (Except Err o.Resp × WorkerState) :=
  if t.suits o then
    (o.exec 0 (.op t.choice) (s.world.later t.ms)).map fun r =>
      (r.1, s.note r.2 o)
  else none

/-- One run of `retryPendingHcmSyncs`, in which the HCM was called for `callers`. -/
def Pass (cfg : Config) (w : World) (callers : List ℕ) (w' : World) : Prop :=
  ∃ turns r calling, (retryPendingHcmSyncs cfg).play WorkerState.exec turns ⟨w, false, []⟩ =
    some (r, ⟨w', calling, callers⟩)

/-- An HCM that chooses its answers with all that the pass has done before it: `validates` is none
where the validation throws, `sends` is why a PUT does not get through, and `takes` how long an
operation is waited for. -/
structure HcmBehaviour where
  validates : WorkerState → Option (Option ValidateReply)
  sends : WorkerState → Option HcmError
  replies : WorkerState → Except HcmError PutReply
  takes : WorkerState → ℕ

def HcmBehaviour.choice (hcm : HcmBehaviour) (s : WorkerState) : Op → Choice
  | .base (.validateRequest _ _) =>
    match hcm.validates s with
    | some reply => .validated reply
    | none => .broken
  | .base (.sendPut _) =>
    match hcm.sends s with
    | some e => .lost e
    | none => .go
  | .base (.awaitPut _ _) =>
    match hcm.replies s with
    | .ok reply => .replied reply
    | .error e => .lost e
  | _ => .go

def HcmBehaviour.exec (hcm : HcmBehaviour) (o : Op) (s : WorkerState) :
    Option (Except Err o.Resp × WorkerState) :=
  WorkerState.exec o ⟨hcm.takes s, hcm.choice s o⟩ s

/-- A pass as this HCM has it. -/
def HcmBehaviour.Pass (hcm : HcmBehaviour) (cfg : Config) (w : World) (callers : List ℕ)
    (w' : World) : Prop :=
  ∃ r calling, (retryPendingHcmSyncs cfg).eval hcm.exec ⟨w, false, []⟩ =
    some (r, ⟨w', calling, callers⟩)

/-- Passes one after the other; between them the requests stay as they are. -/
def Passes (cfg : Config) : World → List (List ℕ) → World → Prop
  | w, [], w' => w'.store.requests = w.store.requests
  | w, callers :: rest, w' => ∃ w₁ w₂, w₁.store.requests = w.store.requests ∧
      Pass cfg w₁ callers w₂ ∧ Passes cfg w₂ rest w'

/-- What a request adds to the work that is left. -/
def syncDebtOf (r : TimeOffRequest) : ℕ :=
  if r.hcmSyncStatus = .pending then 11 - min r.hcmSyncAttempts 10 else 0

def syncDebt (s : Store) : ℕ := (s.requests.map syncDebtOf).sum

theorem HcmBehaviour.answers (hcm : HcmBehaviour) (o : Op) (s : WorkerState)
    (ho : SyncOp (fun _ => True) o) : (hcm.exec o s).isSome = true := by
  unfold HcmBehaviour.exec WorkerState.exec HcmBehaviour.choice
  cases ho with
  | validateRequest key days => cases hcm.validates s <;> rfl
  | sendPut put h => cases hcm.sends s <;> rfl
  | awaitPut message put => cases hcm.replies s <;> rfl
  | _ => rfl

/-- Whatever the HCM does, a pass comes to its end. -/
theorem HcmBehaviour.pass_exists (hcm : HcmBehaviour) (cfg : Config) (w : World) :
    ∃ callers w', hcm.Pass cfg w callers w' := by
  have hends := Prog.eval_isSome hcm.answers (retryPendingHcmSyncs_each cfg) ⟨w, false, []⟩
  obtain ⟨⟨r, w', calling, callers⟩, heval⟩ := Option.isSome_iff_exists.mp hends
  exact ⟨callers, w', r, calling, heval⟩

theorem HcmBehaviour.Pass.pass {hcm : HcmBehaviour} {cfg : Config} {w w' : World}
    {callers : List ℕ} (h : hcm.Pass cfg w callers w') : TimeOff.Pass cfg w callers w' := by
  obtain ⟨r, calling, heval⟩ := h
  have hexec (o : Op) (s : WorkerState) (r : Except Err o.Resp × WorkerState)
      (hr : hcm.exec o s = some r) : ∃ t, WorkerState.exec o t s = some r := ⟨_, hr⟩
  obtain ⟨turns, hplay⟩ := Prog.play_of_eval hexec heval
  exact ⟨turns, r, calling, hplay⟩

end Worker

section Requests

/-- The worker retires a request, or counts one of ten attempts. -/
structure Tried (row row' : TimeOffRequest) : Prop where
  id : row'.id = row.id
  counted : row'.hcmSyncStatus = .pending →
    row.hcmSyncAttempts < 10 ∧ row'.hcmSyncAttempts = row.hcmSyncAttempts + 1

theorem Tried.debt_lt {row row' : TimeOffRequest} (h : Tried row row')
    (hpending : row.hcmSyncStatus = .pending) : syncDebtOf row' < syncDebtOf row := by
  unfold syncDebtOf
  rw [if_pos hpending]
  by_cases hs : row'.hcmSyncStatus = .pending
  · obtain ⟨hlt, hcount⟩ := h.counted hs
    rw [if_pos hs, hcount]
    omega
  · rw [if_neg hs]
    omega

/-- What a pass that loaded `rows` does to the requests. -/
structure PassEffect (rows : List TimeOffRequest) (s s' : WorkerState)
    (f : TimeOffRequest → TimeOffRequest) : Prop where
  requests : s'.world.store.requests = s.world.store.requests.map f
  taken : ∀ row ∈ rows, Tried row (f row)
  others : ∀ row ∈ s.world.store.requests, row ∉ rows → f row = row
  callers : ∀ id ∈ s'.callers, id ∈ s.callers ∨
    ∃ row ∈ rows, row.id = id ∧ row.hcmSyncAttempts < 10
  calling : s'.calling = false

end Requests

section Programs

abbrev WorkerStep (o : Op) (s : WorkerState) (r : Except Err o.Resp) (s' : WorkerState) : Prop :=
  ∃ t, WorkerState.exec o t s = some (r, s')

/-- Run alone by the worker, the program ends with `Q`. -/
abbrev WorkerEnds {β : Type} (Q : Except Err β → WorkerState → Prop) (p : Svc β)
    (s : WorkerState) : Prop :=
  p.Holds WorkerStep Eq (fun _ _ => True) Q s

variable {β : Type} {s s' : WorkerState} {row : TimeOffRequest}

theorem exec_some {o : Op} {t : Turn} {r : Except Err o.Resp}
    (h : WorkerState.exec o t s = some (r, s')) :
    t.suits o ∧ ∃ w, o.exec 0 (.op t.choice) (s.world.later t.ms) =
      some (r, w) ∧ s' = s.note w o := by
  obtain ⟨hsuits, h⟩ := Option.ite_none_right_eq_some.mp h
  obtain ⟨⟨r', w⟩, hexec, heq⟩ := Option.map_eq_some_iff.mp h
  cases heq
  exact ⟨hsuits, w, hexec, rfl⟩

/-- An operation that is neither a call of the database nor a transaction. -/
def Outside : Op → Prop
  | .base (.db _) => False
  | .base _ => True
  | .transaction _ => False

/-- In the middle of a try for a request: nothing is written yet. -/
structure Trying (s s' : WorkerState) : Prop where
  store : s'.world.store = s.world.store
  callers : s'.callers = s.callers

theorem outside_keeps {o : Op} {r : Except Err o.Resp} {s₀ : WorkerState} (ho : Outside o)
    (hs : Trying s₀ s) (h : WorkerStep o s r s') : Trying s₀ s' := by
  obtain ⟨t, h⟩ := h
  obtain ⟨_, w, hexec, rfl⟩ := exec_some h
  cases o with
  | transaction body => exact ho.elim
  | base b =>
    have hb : ∀ d, b ≠ .db d := by
      rintro d rfl
      exact ho
    have hstore : w.store = (s.world.later t.ms).store := exec_store hb hexec
    have hnote : (s.note w (.base b)).world = w ∧ (s.note w (.base b)).callers = s.callers := by
      cases b with
      | db d => exact ho.elim
      | _ => exact ⟨rfl, rfl⟩
    exact ⟨(congrArg World.store hnote.1).trans (hstore.trans hs.store),
      hnote.2.trans hs.callers⟩

/-- What becomes of a request that the worker has served. -/
structure Settled (row : TimeOffRequest) (s s' : WorkerState)
    (f : TimeOffRequest → TimeOffRequest) : Prop where
  requests : s'.world.store.requests = s.world.store.requests.map f
  tried : Tried row (f row)
  others : ∀ other, other.id ≠ row.id → f other = other
  callers : ∀ id ∈ s'.callers, id ∈ s.callers ∨ id = row.id ∧ row.hcmSyncAttempts < 10
  calling : s'.calling = false

/-- The program serves the request. -/
def Serves (row : TimeOffRequest) (s₀ : WorkerState) (r : Except Err Unit)
    (s : WorkerState) : Prop :=
  r = .ok () ∧ ∃ f, Settled row s₀ s f

/-- The body of the worker's `try` serves the request, or throws before it writes. -/
def ServesOrThrows (row : TimeOffRequest) (s₀ : WorkerState) (r : Except Err Unit)
    (s : WorkerState) : Prop :=
  Serves row s₀ r s ∨ ∃ e, r = .error e ∧ Trying s₀ s

section Serve

variable {s₀ : WorkerState}

/-- What an update writes. -/
def writtenBy (id : ℕ) (patch : RequestPatch) (now : ℕ) (r : TimeOffRequest) : TimeOffRequest :=
  if r.id = id then
    { patch with version := some (r.version + 1), updatedAt := some now }.apply r
  else r

/-- The update that a try ends with retires the request or counts the attempt. -/
theorem serves_updateRequest {patch : RequestPatch} {status : HcmSyncStatus}
    (hs : Trying s₀ s) (hcalling : s.calling = true → row.hcmSyncAttempts < 10)
    (hstatus : patch.hcmSyncStatus = some status)
    (hcounted : status = .pending → row.hcmSyncAttempts < 10 ∧
      patch.hcmSyncAttempts = some (row.hcmSyncAttempts + 1)) :
    WorkerEnds (Serves row s₀) (updateRequest row.id patch) s := by
  refine Prog.Holds.bind (Prog.Holds.perform (o := Op.base (.db (.saveRequest row.id patch))) ?_)
  intro s₁ heq r s₂ hstep
  obtain rfl : s = s₁ := heq
  obtain ⟨t, h⟩ := hstep
  obtain ⟨hsuits, w, hexec, rfl⟩ := exec_some h
  have hgo : t.choice = .go := hsuits
  rw [hgo] at hexec
  cases hexec
  have hrow : writtenBy row.id patch (s.world.later t.ms).clock row =
      { patch with
        version := some (row.version + 1)
        updatedAt := some (s.world.later t.ms).clock }.apply row := if_pos rfl
  refine ⟨trivial, rfl, writtenBy row.id patch (s.world.later t.ms).clock, ?_, ⟨?_, ?_⟩, ?_, ?_,
    rfl⟩
  · rw [← hs.store]
    rfl
  · rw [hrow]
    rfl
  -- a status left pending comes with the attempt counted
  · rw [hrow]
    intro hpending
    have hnow : status = .pending := by
      simpa only [RequestPatch.apply, hstatus, Option.getD_some] using hpending
    obtain ⟨hlt, hcount⟩ := hcounted hnow
    refine ⟨hlt, ?_⟩
    show patch.hcmSyncAttempts.getD _ = _
    rw [hcount, Option.getD_some]
  · intro other hne
    exact if_neg hne
  · intro id hid
    -- the caller is noted with the write that ends its try
    have hid' : id ∈ if s.calling then row.id :: s.callers else s.callers := hid
    rw [hs.callers] at hid'
    split at hid'
    · next hc =>
      rcases List.mem_cons.mp hid' with hrow | hbefore
      · exact .inr ⟨hrow, hcalling hc⟩
      · exact .inl hbefore
    · exact .inl hid'

/-- Reading the clock changes nothing that is remembered. -/
theorem ends_now {f : ℕ → Svc β} {Q : Except Err β → WorkerState → Prop} (hs : Trying s₀ s)
    (h : ∀ now s', Trying s₀ s' → s'.calling = s.calling → WorkerEnds Q (f now) s') :
    WorkerEnds Q (Svc.now.bind f) s := by
  refine Prog.Holds.bind (Prog.Holds.perform (o := Op.base .now) ?_)
  intro s₁ heq r s₂ hstep
  obtain rfl : s = s₁ := heq
  have hkept := outside_keeps (o := .base .now) trivial hs hstep
  obtain ⟨t, ht⟩ := hstep
  obtain ⟨_, w, hexec, rfl⟩ := exec_some ht
  cases hexec
  exact ⟨trivial, h _ _ hkept rfl⟩

theorem serves_updateSyncAttempt {patch : RequestPatch} {status : HcmSyncStatus}
    (hs : Trying s₀ s) (hlt : row.hcmSyncAttempts < 10)
    (hstatus : patch.hcmSyncStatus = some status) :
    WorkerEnds (Serves row s₀) (updateSyncAttempt row patch) s := by
  apply ends_now hs
  intro now s' hs' _
  exact serves_updateRequest hs' (fun _ => hlt) hstatus (fun _ => ⟨hlt, rfl⟩)

/-- Whatever the HCM does, a call of it leaves the try where it was. -/
theorem ends_outside_bind {p : Svc β} {f : β → Svc Unit} (hp : p.Each Outside)
    (hs : Trying s₀ s)
    (hf : ∀ b s', Trying s₀ s' → WorkerEnds (ServesOrThrows row s₀) (f b) s') :
    WorkerEnds (ServesOrThrows row s₀) (p.bind f) s := by
  have hend : WorkerEnds (fun _ s' => Trying s₀ s') p s := by
    have hsame : ∀ s₁ s₂ : WorkerState, s₁ = s₂ → Trying s₀ s₁ → Trying s₀ s₂ := by
      rintro s₁ _ rfl h
      exact h
    refine Prog.Holds.of_each_inv (Trying s₀) hsame ?_ hp hs
    intro o s₁ r s₂ ho h₁ hstep
    exact ⟨trivial, outside_keeps ho h₁ hstep⟩
  apply Prog.Holds.bind
  refine Prog.Holds.mono ?_ hend
  intro r s' hs'
  cases r with
  | ok b => exact hf b s' hs'
  | error e => exact .inr ⟨e, rfl, hs'⟩

theorem tries_updateSyncAttempt {patch : RequestPatch} {status : HcmSyncStatus}
    (hs : Trying s₀ s) (hlt : row.hcmSyncAttempts < 10)
    (hstatus : patch.hcmSyncStatus = some status) :
    WorkerEnds (ServesOrThrows row s₀) (updateSyncAttempt row patch) s :=
  Prog.Holds.mono (fun _ _ h => .inl h) (serves_updateSyncAttempt hs hlt hstatus)

theorem validateRequest_outside (key : BalanceKey) (days : Num) :
    (validateRequest key days).Each Outside :=
  Prog.Each.perform (o := Op.base (.validateRequest key days)) trivial

theorem notifyApproval_outside (cfg : Config) (key : BalanceKey) (days : ℚ) (requestId : ℕ) :
    (notifyApproval cfg key days requestId).Each Outside := by
  have hput : (putBalance ⟨key, days, requestId⟩).Each Outside :=
    Prog.Each.bind (Prog.Each.perform (o := Op.base (.sendPut _)) trivial) fun message =>
      Prog.Each.perform (o := Op.base (.awaitPut message _)) trivial
  have hretry : (retryFrom cfg (putBalance ⟨key, days, requestId⟩) 1 cfg.retryMaxAttempts).Each
      Outside :=
    retryFrom_each hput (fun _ => trivial) 1 cfg.retryMaxAttempts
  refine Prog.Each.handle (Prog.Each.bind hretry fun _ => trivial) fun err => ?_
  split
  · trivial
  · trivial

theorem tries_retryApproval (cfg : Config) (isValidated : Bool) (hs : Trying s₀ s)
    (hlt : row.hcmSyncAttempts < 10) :
    WorkerEnds (ServesOrThrows row s₀) (retryApproval cfg row isValidated) s := by
  apply ends_outside_bind (notifyApproval_outside cfg _ _ _) hs
  intro approval s' hs'
  split
  · exact tries_updateSyncAttempt hs' hlt rfl
  · exact tries_updateSyncAttempt hs' hlt rfl

theorem tries_retryByStatus (cfg : Config) (hs : Trying s₀ s)
    (hlt : row.hcmSyncAttempts < 10) :
    WorkerEnds (ServesOrThrows row s₀) (retryByStatus cfg row) s := by
  unfold retryByStatus
  split
  · exact tries_updateSyncAttempt hs hlt rfl
  · exact tries_updateSyncAttempt hs hlt rfl
  -- a row already validated is not sent again
  · have hvalidation : (if row.hcmValidated then pure (some ⟨some true⟩)
        else validateRequest row.balanceKey (some row.daysRequested) :
          Svc (Option ValidateReply)).Each Outside := by
      split
      · trivial
      · exact validateRequest_outside _ _
    apply ends_outside_bind hvalidation hs
    intro validation s' hs'
    cases validation with
    | none => exact tries_updateSyncAttempt hs' hlt rfl
    | some validation =>
      dsimp only
      split
      · exact tries_updateSyncAttempt hs' hlt rfl
      · exact tries_updateSyncAttempt hs' hlt rfl
  · unfold retryApprovalFlow
    split
    · exact tries_retryApproval cfg true hs hlt
    · apply ends_outside_bind (validateRequest_outside _ _) hs
      intro validation s' hs'
      cases validation with
      | none => exact tries_updateSyncAttempt hs' hlt rfl
      | some validation =>
        dsimp only
        split
        · exact tries_updateSyncAttempt hs' hlt rfl
        · exact tries_retryApproval cfg true hs' hlt

/-- Every branch of the worker retires the request or counts the attempt, also the one for an
exception half-way. -/
theorem serves_retryRequest (cfg : Config) (hcalling : s.calling = false) :
    WorkerEnds (Serves row s) (retryRequest cfg row) s := by
  have hs : Trying s s := ⟨rfl, rfl⟩
  unfold retryRequest
  split
  · apply ends_now hs
    intro now s' hs' hsame
    rw [hcalling] at hsame
    apply serves_updateRequest hs' _ (show some HcmSyncStatus.failed = some .failed from rfl)
    · intro hpending
      cases hpending
    · intro hc
      rw [hsame] at hc
      cases hc
  · next hattempts =>
    have hlt : row.hcmSyncAttempts < 10 := not_le.mp hattempts
    -- an exception half-way is caught, and the attempt is counted all the same
    apply Prog.Holds.handle
    refine Prog.Holds.mono ?_ (tries_retryByStatus cfg hs hlt)
    intro r s' h
    rcases h with h | ⟨e, rfl, hs'⟩
    · obtain ⟨rfl, hf⟩ := h
      exact ⟨rfl, hf⟩
    · exact serves_updateSyncAttempt hs' hlt rfl

end Serve

/-- The worker takes the requests one by one; none of them meets the update of another. -/
theorem serves_retryEach (cfg : Config) {rows : List TimeOffRequest}
    (hcalling : s.calling = false) (hmem : ∀ r ∈ rows, r ∈ s.world.store.requests)
    (hnodup : (rows.map (·.id)).Nodup) :
    WorkerEnds (fun r s' => r = .ok () ∧ ∃ f, PassEffect rows s s' f) (retryEach cfg rows) s := by
  induction rows generalizing s with
  | nil =>
    refine ⟨rfl, id, ?_, fun _ h => (nomatch h), fun _ _ _ => rfl, fun _ h => .inl h, hcalling⟩
    exact (List.map_id _).symm
  | cons row rest ih =>
    obtain ⟨hrow, hrest⟩ := List.forall_mem_cons.mp hmem
    obtain ⟨hfresh, hnodupRest⟩ := List.nodup_cons.mp hnodup
    have hne : ∀ r ∈ rest, r.id ≠ row.id := by
      intro r hr heq
      exact hfresh (List.mem_map.mpr ⟨r, hr, heq⟩)
    apply Prog.Holds.bind
    refine Prog.Holds.mono ?_ (serves_retryRequest cfg hcalling)
    intro r s₁ hserved
    obtain ⟨rfl, f₁, h₁⟩ := hserved
    have hmem₁ : ∀ r ∈ rest, r ∈ s₁.world.store.requests := by
      intro r hr
      rw [h₁.requests]
      exact List.mem_map.mpr ⟨r, hrest r hr, h₁.others r (hne r hr)⟩
    refine Prog.Holds.mono ?_ (ih h₁.calling hmem₁ hnodupRest)
    intro r s₂ hrun
    obtain ⟨rfl, f₂, h₂⟩ := hrun
    -- an image of the first update that is not in the rest stays what it is
    have hthen : ∀ r ∈ s.world.store.requests, f₁ r ∉ rest → f₂ (f₁ r) = f₁ r := by
      intro r hr hnot
      apply h₂.others _ _ hnot
      rw [h₁.requests]
      exact List.mem_map_of_mem hr
    refine ⟨rfl, f₂ ∘ f₁, ?_, ?_, ?_, ?_, h₂.calling⟩
    · rw [h₂.requests, h₁.requests, List.map_map]
    · intro r hr
      rcases List.mem_cons.mp hr with rfl | hr
      · have hlast : f₂ (f₁ r) = f₁ r :=
          hthen r hrow fun hin => hne _ hin h₁.tried.id
        show Tried r (f₂ (f₁ r))
        rw [hlast]
        exact h₁.tried
      · show Tried r (f₂ (f₁ r))
        rw [h₁.others r (hne r hr)]
        exact h₂.taken r hr
    · intro r hr hnot
      have hid : r.id ≠ row.id := by
        intro heq
        have hsame : r = row := List.inj_on_of_nodup_map s.world.store.requestIds hr hrow heq
        exact hnot (List.mem_cons.mpr (.inl hsame))
      have hfirst : f₁ r = r := h₁.others r hid
      have hnot' : f₁ r ∉ rest := by
        rw [hfirst]
        exact fun hin => hnot (List.mem_cons_of_mem _ hin)
      exact (hthen r hr hnot').trans hfirst
    · intro id hid
      rcases h₂.callers id hid with hid | ⟨r, hr, heq⟩
      · rcases h₁.callers id hid with hid | ⟨heq, hlt⟩
        · exact .inl hid
        · exact .inr ⟨row, List.mem_cons_self, heq.symm, hlt⟩
      · exact .inr ⟨r, List.mem_cons_of_mem _ hr, heq⟩

end Programs

section Passes

variable {cfg : Config} {w w' : World} {callers : List ℕ}

/-- The requests that a pass takes. -/
def Store.pendingSync (s : Store) : List TimeOffRequest :=
  ((s.requests.filter (·.hcmSyncStatus = .pending)).insertionSort syncOrder).take 50

theorem mem_pendingSync {s : Store} {row : TimeOffRequest} (h : row ∈ s.pendingSync) :
    row ∈ s.requests ∧ row.hcmSyncStatus = .pending :=
  mem_of_pendingSync (w := World.init s 0 0 (.init [])) rfl h

theorem pendingSync_nodup (s : Store) : (s.pendingSync.map (·.id)).Nodup := by
  have hfilter : ((s.requests.filter (·.hcmSyncStatus = .pending)).map (·.id)).Nodup :=
    s.requestIds.sublist (List.filter_sublist.map _)
  have hsorted := ((List.perm_insertionSort syncOrder _).map (·.id)).nodup_iff.mpr hfilter
  exact hsorted.sublist ((List.take_sublist 50 _).map _)

/-- A pass that finds something pending takes something. -/
theorem pendingSync_ne_nil {s : Store} {row : TimeOffRequest} (hrow : row ∈ s.requests)
    (hpending : row.hcmSyncStatus = .pending) : ∃ r, r ∈ s.pendingSync := by
  have hmem : row ∈ s.requests.filter (·.hcmSyncStatus = .pending) :=
    List.mem_filter.mpr ⟨hrow, decide_eq_true hpending⟩
  have hlength : 0 < s.pendingSync.length := by
    have hpos := List.length_pos_of_mem hmem
    rw [Store.pendingSync, List.length_take, List.length_insertionSort]
    omega
  exact ⟨_, List.getElem_mem hlength⟩

theorem Pass.effect (h : Pass cfg w callers w') :
    ∃ f calling, PassEffect w.store.pendingSync ⟨w, false, []⟩ ⟨w', calling, callers⟩ f := by
  obtain ⟨turns, r, calling, hplay⟩ := h
  have hends : WorkerEnds
      (fun _ s' => ∃ f, PassEffect w.store.pendingSync ⟨w, false, []⟩ s' f)
      (retryPendingHcmSyncs cfg) ⟨w, false, []⟩ := by
    refine Prog.Holds.bind (Prog.Holds.perform (o := Op.base (.db (.findPendingSync 50))) ?_)
    intro s₁ heq r s₂ hstep
    obtain rfl : (⟨w, false, []⟩ : WorkerState) = s₁ := heq
    obtain ⟨t, ht⟩ := hstep
    obtain ⟨hsuits, u, hexec, rfl⟩ := exec_some ht
    have hgo : t.choice = .go := hsuits
    rw [hgo] at hexec
    cases hexec
    refine ⟨trivial, Prog.Holds.mono ?_ (serves_retryEach cfg rfl
      (fun r hr => (mem_pendingSync hr).1) (pendingSync_nodup w.store))⟩
    intro r s' hrun
    obtain ⟨_, f, hf⟩ := hrun
    exact ⟨f, hf.requests, hf.taken, hf.others, hf.callers, hf.calling⟩
  have hstep : ∀ (o : Op) t s (r : Except Err o.Resp) s', WorkerState.exec o t s = some (r, s') →
      WorkerStep o s r s' := fun _ t _ _ _ h => ⟨t, h⟩
  obtain ⟨f, hf⟩ := Prog.Holds.play (fun _ => rfl) hstep hends hplay
  exact ⟨f, calling, hf⟩

/-- A pass that finds something pending leaves less to do. -/
theorem Pass.debt_lt (h : Pass cfg w callers w')
    (hpending : ∃ row ∈ w.store.requests, row.hcmSyncStatus = .pending) :
    syncDebt w'.store < syncDebt w.store := by
  obtain ⟨f, calling, hf⟩ := h.effect
  obtain ⟨row, hrow, hs⟩ := hpending
  obtain ⟨taken, htaken⟩ := pendingSync_ne_nil hrow hs
  have hle : ∀ r ∈ w.store.requests, syncDebtOf (f r) ≤ syncDebtOf r := by
    -- the debt of a row the pass took falls, and the other rows are left alone
    intro r hr
    by_cases hin : r ∈ w.store.pendingSync
    · exact ((hf.taken r hin).debt_lt (mem_pendingSync hin).2).le
    · rw [hf.others r hr hin]
  have hrequests : w'.store.requests = w.store.requests.map f := hf.requests
  show (w'.store.requests.map syncDebtOf).sum < (w.store.requests.map syncDebtOf).sum
  rw [hrequests, List.map_map]
  exact List.sum_lt_sum (syncDebtOf ∘ f) syncDebtOf hle
    ⟨taken, (mem_pendingSync htaken).1, (hf.taken taken htaken).debt_lt (mem_pendingSync htaken).2⟩

theorem syncDebtOf_pos {r : TimeOffRequest} (h : r.hcmSyncStatus = .pending) :
    0 < syncDebtOf r := by
  rw [syncDebtOf, if_pos h]
  omega

theorem not_pending_of_syncDebt {s : Store} (h : syncDebt s = 0) :
    ∀ r ∈ s.requests, r.hcmSyncStatus ≠ .pending := by
  intro r hr hpending
  have hzero : syncDebtOf r = 0 := List.sum_eq_zero_iff.mp h _ (List.mem_map_of_mem hr)
  exact absurd hzero (syncDebtOf_pos hpending).ne'

theorem syncDebt_of_not_pending {s : Store}
    (h : ∀ r ∈ s.requests, r.hcmSyncStatus ≠ .pending) : syncDebt s = 0 := by
  apply List.sum_eq_zero_iff.mpr
  intro n hn
  obtain ⟨r, hr, rfl⟩ := List.mem_map.mp hn
  exact if_neg (h r hr)

/-- A pass that finds nothing pending does nothing. -/
theorem Pass.idle (h : Pass cfg w callers w')
    (hnone : ∀ r ∈ w.store.requests, r.hcmSyncStatus ≠ .pending) :
    w'.store.requests = w.store.requests := by
  obtain ⟨f, calling, hf⟩ := h.effect
  have hrequests : w'.store.requests = w.store.requests.map f := hf.requests
  have hsame : ∀ r ∈ w.store.requests, f r = r := by
    intro r hr
    exact hf.others r hr fun hin => hnone r hr (mem_pendingSync hin).2
  rw [hrequests]
  calc w.store.requests.map f = w.store.requests.map id := List.map_congr_left hsame
    _ = w.store.requests := List.map_id _

/-- A request that is not pending is not taken. -/
theorem Pass.untouched (h : Pass cfg w callers w') {row : TimeOffRequest}
    (hrow : row ∈ w.store.requests) (hs : row.hcmSyncStatus ≠ .pending) :
    row ∈ w'.store.requests ∧ row.id ∉ callers := by
  obtain ⟨f, calling, hf⟩ := h.effect
  have hnot : row ∉ w.store.pendingSync := fun hin => hs (mem_pendingSync hin).2
  constructor
  · have hrequests : w'.store.requests = w.store.requests.map f := hf.requests
    rw [hrequests, ← hf.others row hrow hnot]
    exact List.mem_map_of_mem hrow
  · intro hid
    rcases hf.callers row.id hid with hin | ⟨r, hr, heq, _⟩
    · cases hin
    · have hsame : r = row :=
        List.inj_on_of_nodup_map w.store.requestIds (mem_pendingSync hr).1 hrow heq
      exact hnot (hsame ▸ hr)

/-- The rows of a pass are found again under their ids. -/
theorem request?_of_map {s s' : Store} {f : TimeOffRequest → TimeOffRequest}
    (hrequests : s'.requests = s.requests.map f) (hid : ∀ r ∈ s.requests, (f r).id = r.id)
    (id : ℕ) : s'.request? id = (s.request? id).map f := by
  cases h : s.request? id with
  | some r =>
    obtain ⟨hr, rfl⟩ := Store.request?_eq_some.mp h
    refine Store.request?_eq_some.mpr ⟨?_, hid r hr⟩
    rw [hrequests]
    exact List.mem_map_of_mem hr
  | none =>
    cases h' : s'.request? id with
    | none => rfl
    -- every row of the result is the image of a row with its id
    | some r' =>
      obtain ⟨hr', heq⟩ := Store.request?_eq_some.mp h'
      rw [hrequests] at hr'
      obtain ⟨r, hr, rfl⟩ := List.mem_map.mp hr'
      have hfound : s.request? id = some r :=
        Store.request?_eq_some.mpr ⟨hr, (hid r hr).symm.trans heq⟩
      rw [h] at hfound
      cases hfound

def attemptsLeftOf (r : TimeOffRequest) : ℕ :=
  if r.hcmSyncStatus = .pending then 10 - r.hcmSyncAttempts else 0

/-- The attempts that a request has left. -/
def attemptsLeft (s : Store) (id : ℕ) : ℕ := (s.request? id).elim 0 attemptsLeftOf

/-- A try takes an attempt, if there is one. -/
theorem Tried.attemptsLeft_le {row row' : TimeOffRequest} (h : Tried row row')
    (hpending : row.hcmSyncStatus = .pending) :
    attemptsLeftOf row' + (if row.hcmSyncAttempts < 10 then 1 else 0) ≤ attemptsLeftOf row := by
  unfold attemptsLeftOf
  rw [if_pos hpending]
  by_cases hs : row'.hcmSyncStatus = .pending
  · obtain ⟨hlt, hcount⟩ := h.counted hs
    rw [if_pos hs, if_pos hlt, hcount]
    omega
  · rw [if_neg hs]
    split <;> omega

/-- A pass takes an attempt of each request that it calls the HCM for, and gives none back. -/
theorem Pass.attemptsLeft_le (h : Pass cfg w callers w') (id : ℕ) :
    attemptsLeft w'.store id + (if id ∈ callers then 1 else 0) ≤ attemptsLeft w.store id := by
  obtain ⟨f, calling, hf⟩ := h.effect
  have hid : ∀ r ∈ w.store.requests, (f r).id = r.id := by
    intro r hr
    by_cases hin : r ∈ w.store.pendingSync
    · exact (hf.taken r hin).id
    · rw [hf.others r hr hin]
  -- who calls the HCM is a pending row with attempts left
  have hcaller : id ∈ callers → ∃ r ∈ w.store.pendingSync, r.id = id ∧
      r.hcmSyncAttempts < 10 := by
    intro hin
    rcases hf.callers id hin with hin | hr
    · cases hin
    · exact hr
  have hfound : w'.store.request? id = (w.store.request? id).map f :=
    request?_of_map hf.requests hid id
  unfold attemptsLeft
  rw [hfound]
  cases hrow : w.store.request? id with
  | none =>
    have hnot : id ∉ callers := by
      intro hin
      obtain ⟨r, hr, heq, _⟩ := hcaller hin
      rw [Store.request?_eq_some.mpr ⟨(mem_pendingSync hr).1, heq⟩] at hrow
      cases hrow
    rw [if_neg hnot]
    exact le_rfl
  | some row =>
    obtain ⟨hmem, hrowId⟩ := Store.request?_eq_some.mp hrow
    show attemptsLeftOf (f row) + _ ≤ attemptsLeftOf row
    -- a row that the pass takes loses an attempt if it calls; another one keeps its attempts
    by_cases hin : row ∈ w.store.pendingSync
    · have htried := (hf.taken row hin).attemptsLeft_le (mem_pendingSync hin).2
      refine le_trans (Nat.add_le_add_left ?_ _) htried
      by_cases hcall : id ∈ callers
      · obtain ⟨r, hr, heq, hlt⟩ := hcaller hcall
        have hsame : r = row := List.inj_on_of_nodup_map w.store.requestIds
          (mem_pendingSync hr).1 hmem (heq.trans hrowId.symm)
        rw [if_pos hcall, if_pos (hsame ▸ hlt)]
      · rw [if_neg hcall]
        exact Nat.zero_le _
    · have hnot : id ∉ callers := by
        intro hcall
        obtain ⟨r, hr, heq, _⟩ := hcaller hcall
        have hsame : r = row := List.inj_on_of_nodup_map w.store.requestIds
          (mem_pendingSync hr).1 hmem (heq.trans hrowId.symm)
        exact hin (hsame ▸ hr)
      rw [hf.others row hmem hin, if_neg hnot]
      exact le_rfl

end Passes

section Drain

variable {cfg : Config} {w w' : World} {passes : List (List ℕ)}

theorem syncDebt_of_requests {s s' : Store} (h : s'.requests = s.requests) :
    syncDebt s' = syncDebt s :=
  congrArg (fun rows => (rows.map syncDebtOf).sum) h

theorem attemptsLeft_of_requests {s s' : Store} (h : s'.requests = s.requests) (id : ℕ) :
    attemptsLeft s' id = attemptsLeft s id :=
  congrArg (fun rows => (rows.find? (·.id = id)).elim 0 attemptsLeftOf) h

/-- As many passes as there is debt leave none. -/
theorem Passes.drained (h : Passes cfg w passes w') (hdebt : syncDebt w.store ≤ passes.length) :
    syncDebt w'.store = 0 := by
  induction passes generalizing w with
  | nil => exact (syncDebt_of_requests h).trans (Nat.le_zero.mp hdebt)
  | cons callers rest ih =>
    obtain ⟨w₁, w₂, hidle, hpass, hrest⟩ := h
    have hsame : syncDebt w₁.store = syncDebt w.store := syncDebt_of_requests hidle
    apply ih hrest
    rw [List.length_cons] at hdebt
    by_cases hpending : ∃ row ∈ w₁.store.requests, row.hcmSyncStatus = .pending
    -- a pass over a queue that is not empty lowers the debt, so the rest of the passes suffices
    · have hlt := hpass.debt_lt hpending
      omega
    · have hzero : syncDebt w₁.store = 0 := syncDebt_of_not_pending fun r hr hs =>
        hpending ⟨r, hr, hs⟩
      have hidle₂ : w₂.store.requests = w₁.store.requests :=
        hpass.idle fun r hr hs => hpending ⟨r, hr, hs⟩
      rw [syncDebt_of_requests hidle₂, hzero]
      exact Nat.zero_le _

theorem Passes.untouched (h : Passes cfg w passes w') {row : TimeOffRequest}
    (hrow : row ∈ w.store.requests) (hs : row.hcmSyncStatus ≠ .pending) :
    row ∈ w'.store.requests ∧ ∀ callers ∈ passes, row.id ∉ callers := by
  induction passes generalizing w with
  | nil =>
    have hrequests : w'.store.requests = w.store.requests := h
    rw [hrequests]
    exact ⟨hrow, fun _ hin => (nomatch hin)⟩
  | cons callers rest ih =>
    obtain ⟨w₁, w₂, hidle, hpass, hrest⟩ := h
    obtain ⟨hkept, hnot⟩ := hpass.untouched (hidle ▸ hrow) hs
    obtain ⟨hlast, hnone⟩ := ih hrest hkept
    exact ⟨hlast, List.forall_mem_cons.mpr ⟨hnot, hnone⟩⟩

theorem Passes.callers_le (h : Passes cfg w passes w') (id : ℕ) :
    passes.countP (id ∈ ·) ≤ attemptsLeft w.store id := by
  induction passes generalizing w with
  | nil => exact Nat.zero_le _
  | cons callers rest ih =>
    obtain ⟨w₁, w₂, hidle, hpass, hrest⟩ := h
    have hpassed := hpass.attemptsLeft_le id
    have hafter := ih hrest
    rw [attemptsLeft_of_requests hidle] at hpassed
    rw [List.countP_cons]
    simp only [decide_eq_true_eq]
    omega

theorem attemptsLeft_le_ten (s : Store) (id : ℕ) : attemptsLeft s id ≤ 10 := by
  unfold attemptsLeft
  cases s.request? id with
  | none => exact Nat.zero_le _
  | some r =>
    show attemptsLeftOf r ≤ 10
    unfold attemptsLeftOf
    split <;> omega

end Drain

/-- The queue of the worker drains: whatever the HCM does a pass comes to its end, one that finds a
pending request leaves less debt, as many passes as there was debt leave nothing pending, a
request that is not pending is never touched again, and no request causes calls of the HCM in more
than ten passes. -/
theorem worker_drains_queue (cfg : Config) (w w' : World) (passes : List (List ℕ))
    (h : Passes cfg w passes w') :
    (∀ hcm : HcmBehaviour, ∃ callers w₁, hcm.Pass cfg w callers w₁ ∧ Pass cfg w callers w₁) ∧
    (∀ callers w₁, Pass cfg w callers w₁ →
      (∃ row ∈ w.store.requests, row.hcmSyncStatus = .pending) →
      syncDebt w₁.store < syncDebt w.store) ∧
    (syncDebt w.store ≤ passes.length →
      ∀ row ∈ w'.store.requests, row.hcmSyncStatus ≠ .pending) ∧
    (∀ row ∈ w.store.requests, row.hcmSyncStatus ≠ .pending →
      row ∈ w'.store.requests ∧ ∀ callers ∈ passes, row.id ∉ callers) ∧
    ∀ id, passes.countP (id ∈ ·) ≤ 10 := by
  refine ⟨?_, ?_, ?_, ?_, ?_⟩
  · intro hcm
    obtain ⟨callers, w₁, hpass⟩ := hcm.pass_exists cfg w
    exact ⟨callers, w₁, hpass, hpass.pass⟩
  · intro callers w₁ hpass hpending
    exact hpass.debt_lt hpending
  · intro hdebt
    exact not_pending_of_syncDebt (h.drained hdebt)
  · intro row hrow hs
    exact h.untouched hrow hs
  · intro id
    exact (h.callers_le id).trans (attemptsLeft_le_ten w.store id)

/-- A pass with a silent HCM takes one of the eleven off the debt of a new request. -/
theorem silent_pass_drains :
    ∃ w', Passes plainConfig announcedWorld [[0]] w' ∧
      syncDebt w'.store < syncDebt announcedWorld.store ∧
      [[0]].countP (0 ∈ ·) ≤ 10 := by
  obtain ⟨w', hpass⟩ : ∃ w', Pass plainConfig announcedWorld [0] w' :=
    ⟨_, [⟨0, .go⟩, ⟨5000, .validated none⟩, ⟨0, .go⟩, ⟨0, .go⟩], _, _, rfl⟩
  have hpasses : Passes plainConfig announcedWorld [[0]] w' := ⟨_, _, rfl, hpass, rfl⟩
  obtain ⟨_, hdecreases, _, _, hcalls⟩ := worker_drains_queue _ _ _ _ hpasses
  exact ⟨w', hpasses, hdecreases [0] w' hpass ⟨announced .pending, List.mem_singleton.mpr rfl, rfl⟩,
    hcalls 0⟩

end TimeOff
