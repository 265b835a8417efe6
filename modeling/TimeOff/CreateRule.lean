import TimeOff.World

/-! The proof rule of `createRequest`: what must be shown of each of its operations, for the
whole call to end as it should. The operations may be atomic or programs of their own. -/
namespace TimeOff

open Async

universe u

section Triples

variable {Op' : Type u} {Resp' : Op' → Type} {σ α β : Type}
  (f : (o : Op) → Prog Op' Resp' Err o.Resp)
  (step : (o : Op') → σ → Except Err (Resp' o) → σ → Prop) (R G : σ → σ → Prop)

/-- From a state that satisfies `A`, the program ends with `B`, which may name that state. -/
def Triple (A : σ → Prop) (p : Prog Op' Resp' Err α) (B : σ → Except Err α → σ → Prop) : Prop :=
  ∀ s, A s → p.Holds step R G (B s) s

variable {f step R G}

variable {Q : Except Err β → σ → Prop} {s : σ}

theorem holds_base (o : BaseOp) {Q : Except Err o.Resp → σ → Prop}
    (h : (f (.base o)).Holds step R G Q s) : ((Svc.base o).interp f).Holds step R G Q s := by
  rw [Svc.base, Prog.interp_perform]
  exact h

theorem holds_db_bind (o : DbOp) {k : o.Resp → Svc β}
    (h : (f (.base (.db o))).Holds step R G
      (Prog.after (fun v t => ((k v).interp f).Holds step R G Q t) Q) s) :
    (((Svc.db o).bind k).interp f).Holds step R G Q s :=
  Prog.Holds.interp_bind (holds_base (.db o) h)

theorem holds_now_bind {k : ℕ → Svc β}
    (h : (f (.base .now)).Holds step R G
      (Prog.after (fun v t => ((k v).interp f).Holds step R G Q t) Q) s) :
    ((Svc.now.bind k).interp f).Holds step R G Q s :=
  Prog.Holds.interp_bind (holds_base .now h)

end Triples

/-- The states a call passes: `Out` before it asks for the lock, `Wait` while it waits, `In`
while it holds the lock, `Done` once its transaction is committed, `End` after the release.
`Good` is what must be true of the body it returns. -/
structure CreateTriples {Op' : Type u} {Resp' : Op' → Type} {σ : Type}
    (f : (o : Op) → Prog Op' Resp' Err o.Resp)
    (step : (o : Op') → σ → Except Err (Resp' o) → σ → Prop) (R G : σ → σ → Prop)
    (cfg : Config) (dto : CreateTimeOffRequestDto) (idempotencyKey : String)
    (Out Wait In Done End : σ → Prop) (Good : RequestBody → σ → Prop) : Prop where
  out_end : ∀ s, Out s → End s
  now_out : Triple step R G Out (f (.base .now)) fun s _ t =>
    Out t ∧ ∀ b, Good b s → Good b t
  find_out : Triple step R G Out (f (.base (.db (.findRecord idempotencyKey)))) fun _ r t =>
    Out t ∧ ∀ record, r = .ok (some record) → record.requestHash = cfg.hashObject dto →
      Good record.responseBody t
  enter : Triple step R G Out (f (.base (.enterLock (lockKey dto)))) fun _ r t =>
    (∃ u, r = .ok u) ∧ Wait t
  await : Triple step R G Wait (f (.base .awaitPrevious)) fun _ r t => (∃ u, r = .ok u) ∧ In t
  now_in : Triple step R G In (f (.base .now)) fun s _ t => In t ∧ ∀ b, Good b s → Good b t
  sleep_in : ∀ ms, Triple step R G In (f (.base (.sleep ms))) fun _ _ t => In t
  find_in : Triple step R G In (f (.base (.db (.findRecord idempotencyKey)))) fun _ r t =>
    In t ∧ ∀ record, r = .ok (some record) → record.requestHash = cfg.hashObject dto →
      Good record.responseBody t
  row_in : Triple step R G In (f (.base (.db (.findRequestByKey idempotencyKey)))) fun _ r t =>
    In t ∧ ∀ row, r = .ok (some row) → Good (serializeRequest row) t
  transaction : Triple step R G In
    (f (.transaction (createTransaction cfg dto idempotencyKey
      (calculateDaysRequested dto.startDate dto.endDate) (cfg.hashObject dto)))) fun _ r t =>
    (∀ saved, r = .ok saved → Done t ∧ Good (serializeRequest saved) t) ∧
      ∀ e, r = .error e → In t
  schedule : ∀ task, Triple step R G Done (f (.base (.setImmediate task))) fun s r t =>
    (∃ u, r = .ok u) ∧ Done t ∧ ∀ b, Good b s → Good b t
  release_in : Triple step R G In (f (.base (.releaseLock (lockKey dto)))) fun s _ t =>
    End t ∧ ∀ b, Good b s → Good b t
  release_done : Triple step R G Done (f (.base (.releaseLock (lockKey dto)))) fun s _ t =>
    End t ∧ ∀ b, Good b s → Good b t

namespace CreateTriples

variable {Op' : Type u} {Resp' : Op' → Type} {σ : Type}
  {f : (o : Op) → Prog Op' Resp' Err o.Resp}
  {step : (o : Op') → σ → Except Err (Resp' o) → σ → Prop} {R G : σ → σ → Prop}
  {cfg : Config} {dto : CreateTimeOffRequestDto} {idempotencyKey : String}
  {Out Wait In Done End : σ → Prop} {Good : RequestBody → σ → Prop}

/-- `checkIdempotency` in either place. -/
theorem check {A : σ → Prop} {employeeId : String}
    (hnow : Triple step R G A (f (.base .now)) fun s _ t => A t ∧ ∀ b, Good b s → Good b t)
    (hfind : Triple step R G A (f (.base (.db (.findRecord idempotencyKey)))) fun _ r t =>
      A t ∧ ∀ record, r = .ok (some record) → record.requestHash = cfg.hashObject dto →
        Good record.responseBody t) :
    Triple step R G A
      ((checkIdempotency idempotencyKey employeeId (cfg.hashObject dto)).interp f)
      fun _ r t => A t ∧ ∀ b, r = .ok (some b) → Good b t := by
  intro s hs
  refine holds_db_bind _ (Prog.Holds.mono ?_ (hfind s hs))
  -- a rejected read ends the check with the state it found
  rintro (e | record) t ⟨ht, hgood⟩
  · exact ⟨ht, fun b hb => nomatch hb⟩
  cases record with
  | none => exact ⟨ht, fun b hb => nomatch hb⟩
  | some existing =>
    refine holds_now_bind (Prog.Holds.mono ?_ (hnow t ht))
    rintro (e | now) u ⟨hu, hkeep⟩
    · exact ⟨hu, fun b hb => nomatch hb⟩
    dsimp only [Prog.after]
    -- expired, another hash, or the answer of the record
    split
    · exact ⟨hu, fun b hb => nomatch hb⟩
    · split
      · exact ⟨hu, fun b hb => nomatch hb⟩
      · rename_i hhash
        refine ⟨hu, fun b hb => ?_⟩
        cases hb
        exact hkeep _ (hgood existing rfl (not_not.mp hhash))

variable (h : CreateTriples f step R G cfg dto idempotencyKey Out Wait In Done End Good)

include h

theorem recover {employeeId : String} : Triple step R G In
    ((recoverAfterConstraint idempotencyKey employeeId (cfg.hashObject dto)).interp f)
    fun _ r t => In t ∧ ∀ b, r = .ok (some b) → Good b t := by
  intro s hs
  refine Prog.Holds.interp_bind (Prog.Holds.mono ?_ (check h.now_in h.find_in s hs))
  rintro (e | cached) t ⟨ht, hgood⟩
  · exact ⟨ht, fun b hb => nomatch hb⟩
  cases cached with
  | some b =>
    refine ⟨ht, fun b' hb => ?_⟩
    cases hb
    exact hgood b rfl
  -- no answer in the record, perhaps in the row
  | none =>
    refine holds_db_bind _ (Prog.Holds.mono ?_ (h.row_in t ht))
    rintro (e | row) u ⟨hu, hrow⟩
    · exact ⟨hu, fun b hb => nomatch hb⟩
    cases row with
    | none => exact ⟨hu, fun b hb => nomatch hb⟩
    | some row =>
      refine ⟨hu, fun b hb => ?_⟩
      cases hb
      exact hrow row rfl

theorem failed (err : Err) : Triple step R G In
    ((createFailed dto idempotencyKey (cfg.hashObject dto) err).interp f)
    fun _ r t => In t ∧ ∀ b, r = .ok b → Good b t := by
  intro s hs
  refine Prog.Holds.interp_bind ?_
  have hrecovered : ((if isSqliteConstraintError err = true then
        recoverAfterConstraint idempotencyKey dto.employeeId (cfg.hashObject dto)
      else pure none : Svc (Option RequestBody)).interp f).Holds step R G
        -- without a constraint violation nothing is recovered here
        (fun r t => In t ∧ ∀ b, r = .ok (some b) → Good b t) s := by
    split
    · exact h.recover s hs
    · exact ⟨hs, fun b hb => nomatch hb⟩
  refine Prog.Holds.mono ?_ hrecovered
  rintro (e | recovered) t ⟨ht, hgood⟩
  · exact ⟨ht, fun b hb => nomatch hb⟩
  cases recovered with
  | some b =>
    refine ⟨ht, fun b' hb => ?_⟩
    cases hb
    exact hgood b rfl
  | none =>
    -- contention is looked into once more, other errors are thrown on
    dsimp only [Prog.after]
    split
    · refine Prog.Holds.interp_bind (Prog.Holds.mono ?_ (h.recover t ht))
      rintro (e | recovered) u ⟨hu, hgood⟩
      · exact ⟨hu, fun b hb => nomatch hb⟩
      cases recovered with
      | none => exact ⟨hu, fun b hb => nomatch hb⟩
      | some b =>
        refine ⟨hu, fun b' hb => ?_⟩
        cases hb
        exact hgood b rfl
    · exact ⟨ht, fun b hb => nomatch hb⟩

/-- The attempts of the transaction: each failed one leaves the call where it was. -/
theorem attempts (attempt left : ℕ) : Triple step R G In
    ((runAttempts (Svc.transaction (createTransaction cfg dto idempotencyKey
      (calculateDaysRequested dto.startDate dto.endDate) (cfg.hashObject dto)))
      attempt left).interp f)
    fun _ r t => (∀ saved, r = .ok saved → Done t ∧ Good (serializeRequest saved) t) ∧
      ∀ e, r = .error e → In t := by
  -- one attempt alone; the induction is on those left
  have hone : Triple step R G In ((Svc.transaction (createTransaction cfg dto idempotencyKey
      (calculateDaysRequested dto.startDate dto.endDate) (cfg.hashObject dto))).interp f)
      fun _ r t => (∀ saved, r = .ok saved → Done t ∧ Good (serializeRequest saved) t) ∧
        ∀ e, r = .error e → In t := by
    intro s hs
    rw [Svc.transaction, Prog.interp_perform]
    exact h.transaction s hs
  induction left generalizing attempt with
  | zero => exact hone
  | succ left ih =>
    intro s hs
    refine Prog.Holds.interp_handle (Prog.Holds.mono ?_ (hone s hs))
    rintro (e | saved) t ⟨hok, herr⟩
    · dsimp only [Prog.caught]
      split
      · refine Prog.Holds.interp_bind (holds_base (.sleep (5 * attempt)) (Prog.Holds.mono ?_
          (h.sleep_in _ t (herr e rfl))))
        rintro (e' | _) u hu
        · exact ⟨fun _ hb => (nomatch hb), fun _ _ => hu⟩
        · exact ih (attempt + 1) u hu
      · exact ⟨fun _ hb => (nomatch hb), fun _ _ => herr e rfl⟩
    · exact ⟨hok, fun _ he => nomatch he⟩

theorem locked : Triple step R G In
    ((createLocked cfg dto idempotencyKey (calculateDaysRequested dto.startDate dto.endDate)
      (cfg.hashObject dto)).interp f)
    fun _ r t => (In t ∨ Done t) ∧ ∀ b, r = .ok b → Good b t := by
  intro s hs
  refine Prog.Holds.interp_bind (Prog.Holds.mono ?_ (check h.now_in h.find_in s hs))
  -- the check under the lock throws, answers, or leaves the create to do
  rintro (e | cached) t ⟨ht, hgood⟩
  · exact ⟨.inl ht, fun b hb => nomatch hb⟩
  cases cached with
  | some b =>
    refine ⟨.inl ht, fun b' hb => ?_⟩
    cases hb
    exact hgood b rfl
  | none =>
    refine Prog.Holds.interp_handle
      (Prog.Holds.interp_bind (Prog.Holds.mono ?_ (h.attempts 1 2 t ht)))
    -- the `catch` begins where the last attempt left the state
    rintro (e | saved) u ⟨hok, herr⟩
    · refine Prog.Holds.mono ?_ (h.failed e u (herr e rfl))
      exact fun r v hv => ⟨.inl hv.1, hv.2⟩
    · obtain ⟨hdone, hsaved⟩ := hok saved rfl
      refine Prog.Holds.interp_bind
        (holds_base (.setImmediate _) (Prog.Holds.mono ?_ (h.schedule _ u hdone)))
      rintro r v ⟨⟨_, rfl⟩, hv, hkeep⟩
      refine ⟨.inr hv, fun b hb => ?_⟩
      cases hb
      exact hkeep _ hsaved

/-- The rule: every way `createRequest` can end leaves `End`, and what it returns is good. -/
theorem createRequest : Triple step R G Out ((createRequest cfg dto idempotencyKey).interp f)
    fun _ r t => End t ∧ ∀ b, r = .ok b → Good b t := by
  intro s hs
  unfold TimeOff.createRequest
  -- the three refusals before any read
  split
  · exact ⟨h.out_end s hs, fun b hb => nomatch hb⟩
  refine holds_now_bind (Prog.Holds.mono ?_ (h.now_out s hs))
  rintro (e | now) t ⟨ht, _⟩
  · exact ⟨h.out_end t ht, fun b hb => nomatch hb⟩
  dsimp only [Prog.after]
  split
  · exact ⟨h.out_end t ht, fun b hb => nomatch hb⟩
  split
  · exact ⟨h.out_end t ht, fun b hb => nomatch hb⟩
  refine Prog.Holds.interp_bind (Prog.Holds.mono ?_ (check h.now_out h.find_out t ht))
  rintro (e | cached) u ⟨hu, hgood⟩
  · exact ⟨h.out_end u hu, fun b hb => nomatch hb⟩
  cases cached with
  | some b =>
    refine ⟨h.out_end u hu, fun b' hb => ?_⟩
    cases hb
    exact hgood b rfl
  | none =>
    -- enter the lane, wait, and release it whatever the body ends with
    refine Prog.Holds.interp_bind (holds_base (.enterLock _) (Prog.Holds.mono ?_ (h.enter u hu)))
    rintro r v ⟨⟨_, rfl⟩, hv⟩
    refine Prog.Holds.interp_bind (holds_base .awaitPrevious (Prog.Holds.mono ?_ (h.await v hv)))
    rintro r w ⟨⟨_, rfl⟩, hw⟩
    refine Prog.Holds.interp_ensuring (Prog.Holds.mono ?_ (h.locked w hw))
    rintro r x ⟨hx, hgood⟩
    -- the body ends before the transaction committed or after it
    have hrelease : (f (.base (.releaseLock (lockKey dto)))).Holds step R G
        (fun _ t => End t ∧ ∀ b, Good b x → Good b t) x := by
      rcases hx with hx | hx
      · exact h.release_in x hx
      · exact h.release_done x hx
    refine holds_base (.releaseLock _) (Prog.Holds.mono ?_ hrelease)
    rintro (e | _) y ⟨hy, hkeep⟩
    · exact ⟨hy, fun b hb => nomatch hb⟩
    · exact ⟨hy, fun b hb => hkeep b (hgood b hb)⟩

end CreateTriples

end TimeOff
