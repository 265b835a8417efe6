import TimeOff.AsyncEval
import TimeOff.BatchSync

/-! A run of the batch alone, while every store operation succeeds and the HCM answers with a
given payload: what it writes, row by row, and what its log counts. -/
namespace TimeOff

open Async

section Quiet

/-- How the operations turn out. -/
def BatchOp.outcome (data : Option Json) : BatchOp → BatchChoice
  | getBatchBalances => .reply data
  | _ => .go

def BatchOp.quiet (rt : Runtime) (data : Option Json) (o : BatchOp) (s : BatchState) :
    Option (Except BatchErr o.Resp × BatchState) :=
  o.exec rt (o.outcome data) s

/-- `runBatchSync` with this payload leads from `s` to `s'`. -/
def BatchRun (rt : Runtime) (data : Option Json) (s s' : BatchState) : Prop :=
  (runBatchSync rt).eval (BatchOp.quiet rt data) s = some (.ok (), s')

variable {rt : Runtime} {data : Option Json} {α β : Type} {s s' : BatchState}

theorem BatchRun.unique {s₁ s₂ : BatchState} (h₁ : BatchRun rt data s s₁)
    (h₂ : BatchRun rt data s s₂) : s₁ = s₂ := by
  have h := h₁.symm.trans h₂
  cases h
  rfl

theorem eval_ofExcept_ok {r : Except BatchErr α} {v : α} {f : α → Batch β} (h : r = .ok v) :
    ((Prog.ofExcept r).bind f).eval (BatchOp.quiet rt data) s =
      (f v).eval (BatchOp.quiet rt data) s := by
  subst h
  rfl

theorem eval_ofExcept_error {r : Except BatchErr α} {e : BatchErr} {f : α → Batch β}
    (h : r = .error e) :
    ((Prog.ofExcept r).bind f).eval (BatchOp.quiet rt data) s = some (.error e, s) := by
  subst h
  rfl

theorem eval_call {o : BatchOp} {v : o.Resp} {f : o.Resp → Batch β}
    (h : o.quiet rt data s = some (.ok v, s')) :
    ((Batch.call o).bind f).eval (BatchOp.quiet rt data) s =
      (f v).eval (BatchOp.quiet rt data) s' :=
  Prog.eval_bind_ok (Prog.eval_perform h)

end Quiet

section Element

variable (rt : Runtime)

/-- What an element asks of the tables, when its fields have texts and its total is a number. -/
structure Demand where
  columns : Columns
  total : ℚ
  version : Option String

def HcmFields.demand (r : HcmFields) : Option Demand :=
  match hcmTotalOf rt r.totalBalance, r.columns rt, versionOf rt r.version with
  | .ok (some total), .ok columns, .ok version => some ⟨columns, total, version⟩
  | _, _, _ => none

def Json.demand (j : Json) : Option Demand :=
  match j.fields with
  | .ok r => r.demand rt
  | .error _ => none

def Store.rowFor (s : Store) (columns : Columns) : Option EmployeeBalance :=
  rt.pick (s.balances.filter (columns.admits ·.key))

/-- The tables after the write of a patch. -/
def Store.patched (s : Store) (key : BalanceKey) (patch : BalancePatch) : Store :=
  s.saveBalance key fun b => { patch with version := some (b.version + 1) }

/-- What a demand writes, and the answer of `_reconcileRecord`; `none` when it is rejected. -/
def Demand.write (now : ℕ) (d : Demand) (s : Store) : Option (Store × Bool) :=
  match s.rowFor rt d.columns with
  | some row =>
    let patch := reconcilePatchIn rt.round row (some d.total) d.version now
    some (s.patched row.key patch.1, patch.2)
  | none =>
    d.columns.key?.bind fun key =>
      if rt.takes key then
        ((BatchState.newBalance key (some d.total) now d.version).row.bind s.insertBalance).map
          fun s' => (s', true)
      else none

def Json.write (now : ℕ) (j : Json) (s : Store) : Option (Store × Bool) :=
  (j.demand rt).bind fun d => d.write rt now s

variable {rt} {data : Option Json} {s : BatchState}

theorem db_saveBalance {key : BalanceKey} {patch : BalancePatch} (h : patch.accepted = true) :
    s.db (.saveBalance key patch) = (.ok (), { s with store := s.store.patched key patch }) := by
  have hrun : (DbOp.saveBalance key patch).run s.clock 0 s.store =
      (.ok (), s.store.patched key patch) := if_pos h
  unfold BatchState.db
  rw [hrun]
  rfl

theorem quiet_updateBalance {key : BalanceKey} {patch : BalancePatch}
    (h : patch.accepted = true) :
    (BatchOp.updateBalance key patch).quiet rt data s =
      some (.ok (), { s with store := s.store.patched key patch }) :=
  congrArg some (db_saveBalance h)

theorem quiet_updateBalance_rejected {key : BalanceKey} {patch : BalancePatch}
    (h : patch.accepted = false) :
    ∃ e, (BatchOp.updateBalance key patch).quiet rt data s = some (.error e, s) := by
  have hrun : (DbOp.saveBalance key patch).run s.clock 0 s.store =
      (.error nanError, s.store) :=
    if_neg (Bool.eq_false_iff.mp h)
  have hdb : s.db (.saveBalance key patch) = (.error (.driver nanError), s) := by
    unfold BatchState.db
    rw [hrun]
    rfl
  exact ⟨_, congrArg some hdb⟩

theorem quiet_insertBalance {columns : Columns} {total : ℚ} {now : ℕ} {version : Option String}
    {key : BalanceKey} {row : EmployeeBalance} {store : Store} (hkey : columns.key? = some key)
    (htakes : rt.takes key = true)
    (hrow : (BatchState.newBalance key (some total) now version).row = some row)
    (hinsert : s.store.insertBalance row = some store) :
    (BatchOp.insertBalance columns (some total) now version).quiet rt data s =
      some (.ok (), { s with store := store }) := by
  refine congrArg some ?_
  unfold BatchState.insertBalance BatchState.db DbOp.run
  simp only [hkey, htakes, if_true, hrow, hinsert]
  rfl

theorem insertBalance_rejected {columns : Columns} {hcmTotal : Num} {now : ℕ}
    {version : Option String}
    (h : columns.key?.bind (fun key => if rt.takes key then
      (BatchState.newBalance key hcmTotal now version).row.bind s.store.insertBalance
      else none) = none) :
    ∃ e, s.insertBalance rt columns hcmTotal now version = (.error e, s) := by
  unfold BatchState.insertBalance
  cases hkey : columns.key? with
  | none => exact ⟨_, rfl⟩
  | some key =>
    rw [hkey, Option.bind_some] at h
    -- refused by the `CHECK` of the column, by a column that takes no `NaN`, or by the unique key
    cases htakes : rt.takes key with
    | false =>
      dsimp only
      rw [htakes]
      exact ⟨_, rfl⟩
    | true =>
      rw [htakes, if_pos rfl] at h
      dsimp only
      rw [htakes, if_pos rfl]
      unfold BatchState.db DbOp.run
      dsimp only
      cases hrow : (BatchState.newBalance key hcmTotal now version).row with
      | none => exact ⟨_, rfl⟩
      | some row =>
        rw [hrow, Option.bind_some] at h
        dsimp only
        rw [h]
        exact ⟨_, rfl⟩

theorem demand_eq {r : HcmFields} {d : Demand} (h : r.demand rt = some d) :
    hcmTotalOf rt r.totalBalance = .ok (some d.total) ∧ r.columns rt = .ok d.columns ∧
      versionOf rt r.version = .ok d.version := by
  unfold HcmFields.demand at h
  split at h
  · next htotal hcolumns hversion =>
    cases h
    exact ⟨htotal, hcolumns, hversion⟩
  · cases h

/-- `_reconcileRecord` up to its write. -/
theorem reconcileElement_reads {j : Json} {r : HcmFields} {hcmTotal : Num} {columns : Columns}
    {version : Option String} (hr : j.fields = .ok r)
    (htotal : hcmTotalOf rt r.totalBalance = .ok hcmTotal) (hcolumns : r.columns rt = .ok columns)
    (hversion : versionOf rt r.version = .ok version) :
    (reconcileElement rt j).eval (BatchOp.quiet rt data) s =
      Prog.eval (BatchOp.quiet rt data)
        (match s.store.rowFor rt columns with
        | none =>
          (Batch.call (.insertBalance columns hcmTotal s.clock version)).bind fun _ =>
            (.ret true : Batch Bool)
        | some row =>
          (Batch.call (.updateBalance row.key
            (reconcilePatchIn rt.round row hcmTotal version s.clock).1)).bind fun _ =>
              .ret (reconcilePatchIn rt.round row hcmTotal version s.clock).2) s := by
  refine (eval_ofExcept_ok hr).trans ((eval_ofExcept_ok htotal).trans
    ((eval_ofExcept_ok hcolumns).trans ((eval_call rfl).trans
      -- the record is read in the order of the source: total, key, version, clock
      ((eval_ofExcept_ok hversion).trans ((eval_call rfl).trans ?_)))))
  unfold Store.rowFor
  cases rt.pick (s.store.balances.filter (columns.admits ·.key)) <;> rfl

theorem reconcileElement_writes {j : Json} {store : Store} {updated : Bool}
    (h : j.write rt s.clock s.store = some (store, updated)) :
    (reconcileElement rt j).eval (BatchOp.quiet rt data) s =
      some (.ok updated, { s with store := store }) := by
  obtain ⟨d, hd, hwrite⟩ := Option.bind_eq_some_iff.mp h
  -- the demand is what the record asks for when all of it can be read
  unfold Json.demand at hd
  cases hr : j.fields with
  | error e =>
    rw [hr] at hd
    cases hd
  | ok r =>
    rw [hr] at hd
    obtain ⟨htotal, hcolumns, hversion⟩ := demand_eq hd
    rw [reconcileElement_reads hr htotal hcolumns hversion]
    unfold Demand.write at hwrite
    -- a row is patched, a missing one inserted
    cases hrow : s.store.rowFor rt d.columns with
    | some row =>
      rw [hrow] at hwrite
      cases hwrite
      exact eval_call (quiet_updateBalance
        (reconcilePatchIn_accepted rt.round row (some d.total) d.version s.clock))
    | none =>
      rw [hrow] at hwrite
      obtain ⟨key, hkey, hwrite⟩ := Option.bind_eq_some_iff.mp hwrite
      obtain ⟨htakes, hwrite⟩ := Option.ite_none_right_eq_some.mp hwrite
      obtain ⟨store', hinsert, heq⟩ := Option.map_eq_some_iff.mp hwrite
      obtain ⟨new, hnew, hinsert⟩ := Option.bind_eq_some_iff.mp hinsert
      cases heq
      exact eval_call (quiet_insertBalance hkey htakes hnew hinsert)

/-- Once every field is read, a record is rejected when its total is `NaN`, or when it has no
row and cannot have one. -/
theorem reconcileElement_rejects {j : Json} {r : HcmFields} {hcmTotal : Num} {columns : Columns}
    {version : Option String} (hr : j.fields = .ok r)
    (htotal : hcmTotalOf rt r.totalBalance = .ok hcmTotal) (hcolumns : r.columns rt = .ok columns)
    (hversion : versionOf rt r.version = .ok version)
    (hrow : hcmTotal = none ∨ s.store.rowFor rt columns = none)
    (hnew : columns.key?.bind (fun key => if rt.takes key then
      (BatchState.newBalance key hcmTotal s.clock version).row.bind s.store.insertBalance
      else none) = none) :
    ∃ e, (reconcileElement rt j).eval (BatchOp.quiet rt data) s = some (.error e, s) := by
  rw [reconcileElement_reads hr htotal hcolumns hversion]
  -- on a row only a total that is `NaN` is refused
  cases hfound : s.store.rowFor rt columns with
  | some row =>
    obtain rfl : hcmTotal = none := hrow.resolve_right (by rw [hfound]; exact nofun)
    obtain ⟨e, he⟩ : ∃ e, (BatchOp.updateBalance row.key
        (reconcilePatchIn rt.round row none version s.clock).1).quiet rt data s =
          some (.error e, s) :=
      quiet_updateBalance_rejected (reconcilePatchIn_accepted rt.round row none version s.clock)
    exact ⟨e, Prog.eval_bind_error (Prog.eval_perform he)⟩
  | none =>
    obtain ⟨e, he⟩ := insertBalance_rejected hnew
    have hquiet : (BatchOp.insertBalance columns hcmTotal s.clock version).quiet rt data s =
        some (.error e, s) := congrArg some he
    exact ⟨e, Prog.eval_bind_error (Prog.eval_perform hquiet)⟩

theorem reconcileElement_rejected {j : Json} (h : j.write rt s.clock s.store = none) :
    ∃ e, (reconcileElement rt j).eval (BatchOp.quiet rt data) s = some (.error e, s) := by
  -- in the order of the source: each conversion may throw, then the row may refuse the values
  cases hr : j.fields with
  | error e => exact ⟨e, eval_ofExcept_error hr⟩
  | ok r =>
    cases htotal : hcmTotalOf rt r.totalBalance with
    | error e => exact ⟨e, (eval_ofExcept_ok hr).trans (eval_ofExcept_error htotal)⟩
    | ok hcmTotal =>
      cases hcolumns : r.columns rt with
      | error e =>
        exact ⟨e, (eval_ofExcept_ok hr).trans
          ((eval_ofExcept_ok htotal).trans (eval_ofExcept_error hcolumns))⟩
      | ok columns =>
        cases hversion : versionOf rt r.version with
        | error e =>
          exact ⟨e, (eval_ofExcept_ok hr).trans ((eval_ofExcept_ok htotal).trans
            ((eval_ofExcept_ok hcolumns).trans ((eval_call rfl).trans
              (eval_ofExcept_error hversion))))⟩
        | ok version =>
          cases hcmTotal with
          | none =>
            refine reconcileElement_rejects hr htotal hcolumns hversion (.inl rfl) ?_
            cases columns.key? with
            | none => rfl
            | some key =>
              rw [Option.bind_some]
              split <;> rfl
          | some total =>
            have hd : j.demand rt = some ⟨columns, total, version⟩ := by
              unfold Json.demand HcmFields.demand
              rw [hr]
              dsimp only
              rw [htotal, hcolumns, hversion]
            rw [Json.write, hd, Option.bind_some] at h
            unfold Demand.write at h
            -- an existing row takes any total, so that only an insertion can fail
            cases hrow : s.store.rowFor rt columns with
            | some row =>
              rw [hrow] at h
              cases h
            | none =>
              rw [hrow] at h
              refine reconcileElement_rejects hr htotal hcolumns hversion (.inr hrow) ?_
              cases hkey : columns.key? with
              | none => rfl
              | some key =>
                rw [hkey, Option.bind_some] at h
                rw [Option.bind_some]
                split
                · next htakes =>
                  rw [if_pos htakes] at h
                  exact Option.map_eq_none_iff.mp h
                · rfl

end Element

section Loops

variable {rt : Runtime} {data : Option Json} {s s' : BatchState} {syncLog : ℕ}

/-- The tables after the loop over the records, how many of them changed an amount, a flag or
the set of rows, and how many failed. -/
structure LoopEnd where
  store : Store
  updated : ℕ
  failed : ℕ

def batchLoop (rt : Runtime) (now : ℕ) : List Json → Store → LoopEnd
  | [], store => ⟨store, 0, 0⟩
  | hcmRecord :: rest, store =>
    match hcmRecord.write rt now store with
    | some (store', updated) =>
      let e := batchLoop rt now rest store'
      { e with updated := if updated then e.updated + 1 else e.updated }
    | none =>
      let e := batchLoop rt now rest store
      { e with failed := e.failed + 1 }

/-- The tables after the loop over the local rows, and how many the payload leaves out. -/
def omitRows (now : ℕ) (hcmKeySet : List String) : List EmployeeBalance → Store → Store × ℕ
  | [], store => (store, 0)
  | row :: rest, store =>
    if row.key.joined ∈ hcmKeySet then omitRows now hcmKeySet rest store
    else
      let e := omitRows now hcmKeySet rest (store.patched row.key (omittedPatch row now))
      (e.1, e.2 + 1)

theorem eval_tryStep_ok {β : Type} {t : Tally} {p : Batch β} {next : β → Batch Unit} {v : β}
    (h : p.eval (BatchOp.quiet rt data) s = some (.ok v, s')) :
    (tryStep syncLog t p next).eval (BatchOp.quiet rt data) s =
      (next v).eval (BatchOp.quiet rt data) s' :=
  Prog.eval_bind_ok (Prog.eval_attempt h)

theorem eval_tryStep_error {β : Type} {t : Tally} {p : Batch β} {next : β → Batch Unit}
    {err : BatchErr} (h : p.eval (BatchOp.quiet rt data) s = some (.error err, s')) :
    (tryStep syncLog t p next).eval (BatchOp.quiet rt data) s =
      (batchFailed syncLog t err).eval (BatchOp.quiet rt data) s' :=
  Prog.eval_bind_ok (Prog.eval_attempt h)

/-- The counters `t'` are those of `t` with these added. -/
structure TallyAdds (t t' : Tally) (processed updated failed : ℕ) : Prop where
  processed : t'.recordsProcessed = t.recordsProcessed + processed
  updated : t'.recordsUpdated = t.recordsUpdated + updated
  failed : t'.recordsFailed = t.recordsFailed + failed

theorem TallyAdds.trans {t t₁ t₂ : Tally} {p u f p' u' f' : ℕ} (h : TallyAdds t t₁ p u f)
    (h' : TallyAdds t₁ t₂ p' u' f') : TallyAdds t t₂ (p + p') (u + u') (f + f') :=
  ⟨by rw [h'.processed, h.processed, Nat.add_assoc],
    by rw [h'.updated, h.updated, Nat.add_assoc], by rw [h'.failed, h.failed, Nat.add_assoc]⟩

theorem TallyAdds.congr {t t' : Tally} {p u f p' u' f' : ℕ} (h : TallyAdds t t' p u f) (hp : p = p')
    (hu : u = u') (hf : f = f') : TallyAdds t t' p' u' f' := by
  subst hp hu hf
  exact h

theorem reconcileEach_eval (rt : Runtime) (data : Option Json) (syncLog : ℕ)
    (next : Tally → Batch Unit) {records : List Json} (s : BatchState) (t : Tally)
    (hfields : ∀ j ∈ records, ∃ r, j.fields = .ok r) :
    ∃ t', TallyAdds t t' records.length (batchLoop rt s.clock records s.store).updated
        (batchLoop rt s.clock records s.store).failed ∧
      (reconcileEach rt syncLog next records t).eval (BatchOp.quiet rt data) s =
        (next t').eval (BatchOp.quiet rt data)
          { s with store := (batchLoop rt s.clock records s.store).store } := by
  -- by induction on the records: a failed one is counted and leaves the tables as they are
  induction records generalizing s t with
  | nil => exact ⟨t, ⟨rfl, rfl, rfl⟩, rfl⟩
  | cons j rest ih =>
    obtain ⟨⟨r, hr⟩, hrest⟩ := List.forall_mem_cons.mp hfields
    cases hwrite : j.write rt s.clock s.store with
    | some e =>
      obtain ⟨store, updated⟩ := e
      let t₁ : Tally :=
        { t with
          recordsProcessed := t.recordsProcessed + 1
          recordsUpdated := if updated then t.recordsUpdated + 1 else t.recordsUpdated }
      obtain ⟨t', hcounts, heval⟩ := ih { s with store := store } t₁ hrest
      have hone : TallyAdds t t₁ 1 (if updated then 1 else 0) 0 := by
        refine ⟨rfl, ?_, rfl⟩
        cases updated <;> rfl
      have hloop : batchLoop rt s.clock (j :: rest) s.store =
          { batchLoop rt s.clock rest store with
            updated :=
              if updated then (batchLoop rt s.clock rest store).updated + 1
              else (batchLoop rt s.clock rest store).updated } := by
        rw [batchLoop, hwrite]
      rw [hloop]
      refine ⟨t', (hone.trans hcounts).congr ?_ ?_ ?_, ?_⟩
      · rw [List.length_cons, Nat.add_comm]
      · cases updated
        · exact Nat.zero_add _
        · exact Nat.add_comm _ _
      · exact Nat.zero_add _
      · exact (Prog.eval_bind_ok (Prog.eval_attempt (reconcileElement_writes hwrite))).trans heval
    | none =>
      obtain ⟨err, herr⟩ : ∃ err, (reconcileElement rt j).eval (BatchOp.quiet rt data) s =
          some (.error err, s) := reconcileElement_rejected hwrite
      let t₁ : Tally :=
        { t with
          recordsProcessed := t.recordsProcessed + 1
          recordsFailed := t.recordsFailed + 1
          errors := t.errors ++ [⟨r.employeeId, r.locationId, r.leaveType, err.message⟩] }
      obtain ⟨t', hcounts, heval⟩ := ih s t₁ hrest
      have hone : TallyAdds t t₁ 1 0 1 := ⟨rfl, rfl, rfl⟩
      have hrecord : t.record j (.error err) = .ok t₁ := by
        unfold Tally.record
        rw [hr]
        rfl
      have hloop : batchLoop rt s.clock (j :: rest) s.store =
          { batchLoop rt s.clock rest s.store with
            failed := (batchLoop rt s.clock rest s.store).failed + 1 } := by
        rw [batchLoop, hwrite]
      rw [hloop]
      refine ⟨t', (hone.trans hcounts).congr ?_ ?_ ?_, ?_⟩
      · rw [List.length_cons, Nat.add_comm]
      · exact Nat.zero_add _
      · exact Nat.add_comm _ _
      · refine (Prog.eval_bind_ok (Prog.eval_attempt herr)).trans ?_
        dsimp only
        rw [hrecord]
        exact heval

theorem omitEach_eval (rt : Runtime) (data : Option Json) (syncLog : ℕ)
    (next : Tally → Batch Unit) (hcmKeySet : List String) (rows : List EmployeeBalance)
    (s : BatchState) (t : Tally) :
    ∃ t', TallyAdds t t' (omitRows s.clock hcmKeySet rows s.store).2 0
        (omitRows s.clock hcmKeySet rows s.store).2 ∧
      (omitEach hcmKeySet syncLog next rows t).eval (BatchOp.quiet rt data) s =
        (next t').eval (BatchOp.quiet rt data)
          { s with store := (omitRows s.clock hcmKeySet rows s.store).1 } := by
  induction rows generalizing s t with
  | nil => exact ⟨t, ⟨rfl, rfl, rfl⟩, rfl⟩
  | cons row rest ih =>
    unfold omitEach omitRows
    -- the induction is on the rows as they were read, while the store changes under it
    by_cases hkey : row.key.joined ∈ hcmKeySet
    · rw [if_pos hkey, if_pos hkey]
      exact ih s t
    · rw [if_neg hkey, if_neg hkey]
      let s₁ : BatchState :=
        { s with store := s.store.patched row.key (omittedPatch row s.clock) }
      obtain ⟨t', hcounts, heval⟩ := ih s₁ (t.omit row.key)
      -- one more processed, none updated, one more failed
      have hone : TallyAdds t (t.omit row.key) 1 0 1 := ⟨rfl, rfl, rfl⟩
      have hwrite : ((Batch.call .now).bind fun now =>
          Batch.call (.updateBalance row.key (omittedPatch row now))).eval
            (BatchOp.quiet rt data) s = some (.ok (), s₁) :=
        (eval_call rfl).trans (Prog.eval_perform (quiet_updateBalance rfl))
      refine ⟨t', (hone.trans hcounts).congr (Nat.add_comm _ _) (Nat.zero_add _)
        (Nat.add_comm _ _), ?_⟩
      exact (eval_tryStep_ok hwrite).trans heval

theorem batchCompleted_eval (t : Tally) :
    (batchCompleted syncLog t).eval (BatchOp.quiet rt data) s =
      some (.ok (), { s with syncLogs := s.syncLogs.modify syncLog (SyncLogPatch.apply
        { status := t.finalStatus
          recordsProcessed := t.recordsProcessed
          recordsUpdated := t.recordsUpdated
          recordsFailed := t.recordsFailed
          errorDetails := if t.errors.isEmpty then none else some t.errors
          completedAt := s.clock }) }) :=
  eval_tryStep_ok ((eval_call rfl).trans (Prog.eval_perform rfl))

theorem batchFailed_eval (t : Tally) (err : BatchErr) :
    (batchFailed syncLog t err).eval (BatchOp.quiet rt data) s =
      some (.ok (), { s with syncLogs := s.syncLogs.modify syncLog (SyncLogPatch.apply
        { status := .failed
          recordsProcessed := t.recordsProcessed
          recordsUpdated := t.recordsUpdated
          recordsFailed := t.recordsFailed
          errorDetails := some [⟨none, none, none, err.message⟩]
          completedAt := s.clock }) }) :=
  (eval_call rfl).trans (Prog.eval_perform rfl)

end Loops

section Run

variable {rt : Runtime} {s : BatchState}

theorem fields_of_keySet {records : List Json} {hcmKeySet : List String}
    (h : hcmKeySetOf rt records = .ok hcmKeySet) : ∀ j ∈ records, ∃ r, j.fields = .ok r := by
  induction records generalizing hcmKeySet with
  | nil => exact fun j hj => absurd hj List.not_mem_nil
  -- the map stops at the first element without fields, so they all have them
  | cons j rest ih =>
    unfold hcmKeySetOf at h
    cases hkey : j.joinedKey rt with
    | error e =>
      rw [hkey] at h
      cases h
    | ok key =>
      cases hkeys : hcmKeySetOf rt rest with
      | error e =>
        rw [hkey, hkeys] at h
        cases h
      | ok keys =>
        refine List.forall_mem_cons.mpr ⟨?_, ih hkeys⟩
        cases hr : j.fields with
        | ok r => exact ⟨r, rfl⟩
        | error e =>
          unfold Json.joinedKey at hkey
          rw [hr] at hkey
          cases hkey

theorem modify_last {α : Type} (l : List α) (a : α) (f : α → α) :
    (l ++ [a]).modify l.length f = l ++ [f a] := by
  induction l with
  | nil => rfl
  | cons b l ih => exact congrArg (b :: ·) ih

/-- What a run leaves, whatever it met. -/
structure Ended (s s' : BatchState) (log : SyncLog) : Prop where
  clock : s'.clock = s.clock
  free : s'.batchRunning = false
  logged : s'.syncLogs = s.syncLogs ++ [log]

/-- The tables after a whole run with these elements, and how many rows they leave out. -/
def batchRows (rt : Runtime) (now : ℕ) (records : List Json) (hcmKeySet : List String)
    (store : Store) : Store × ℕ :=
  let e := batchLoop rt now records store
  omitRows now hcmKeySet e.store.balances e.store

/-- A run around its `try` and `catch` blocks. -/
theorem batchRun_of_sync {data : Option Json} {s' : BatchState} (hs : s.batchRunning = false)
    (h : (syncBalances rt s.syncLogs.length).eval (BatchOp.quiet rt data)
      { s with batchRunning := true, syncLogs := s.syncLogs ++ [startedLog s.clock] } =
        some (.ok (), s')) : BatchRun rt data s { s' with batchRunning := false } := by
  have henter : BatchOp.enter.quiet rt data s =
      some (.ok true, { s with batchRunning := true }) := by
    change some (Except.ok (!s.batchRunning), _) = _
    rw [hs]
    rfl
  have hleave : (Batch.call .leave).eval (BatchOp.quiet rt data) s' =
      some (.ok (), { s' with batchRunning := false }) := Prog.eval_perform rfl
  exact (eval_call henter).trans ((eval_call rfl).trans
    ((eval_call rfl).trans (Prog.eval_ensuring h hleave)))

theorem payloadRecords_array (records : List Json) :
    payloadRecords (some (.array records)) = .ok records := rfl

theorem runBatchSync_eval (hs : s.batchRunning = false) {records : List Json}
    {hcmKeySet : List String} (hkeys : hcmKeySetOf rt records = .ok hcmKeySet) :
    ∃ s' log, BatchRun rt (some (.array records)) s s' ∧ Ended s s' log ∧
      s'.store = (batchRows rt s.clock records hcmKeySet s.store).1 ∧
      log.recordsProcessed =
        records.length + (batchRows rt s.clock records hcmKeySet s.store).2 ∧
      log.recordsUpdated = (batchLoop rt s.clock records s.store).updated ∧
      log.recordsFailed = (batchLoop rt s.clock records s.store).failed +
        (batchRows rt s.clock records hcmKeySet s.store).2 := by
  -- the state after the flag and the first save
  let s₁ : BatchState :=
    { s with batchRunning := true, syncLogs := s.syncLogs ++ [startedLog s.clock] }
  -- the three parts of the `try`: the load, the two loops, the last entry
  let loop := batchLoop rt s.clock records s.store
  have hload : ((Batch.call .getBatchBalances).bind fun hcmBalances =>
      (Prog.ofExcept (payloadRecords hcmBalances)).bind fun records =>
        (Prog.ofExcept (hcmKeySetOf rt records)).bind fun hcmKeySet =>
          (.ret (records, hcmKeySet) : Batch (List Json × List String))).eval
      (BatchOp.quiet rt (some (.array records))) s₁ = some (.ok (records, hcmKeySet), s₁) :=
    (eval_call rfl).trans ((eval_ofExcept_ok (payloadRecords_array records)).trans
      (eval_ofExcept_ok hkeys))
  let rows := fun t => tryStep s.syncLogs.length t (Batch.call .findBalances) fun localBalances =>
    omitEach hcmKeySet s.syncLogs.length (batchCompleted s.syncLogs.length) localBalances t
  obtain ⟨t₁, hcounts₁, heval₁⟩ := reconcileEach_eval rt (some (.array records))
    s.syncLogs.length rows s₁ .zero (fields_of_keySet hkeys)
  obtain ⟨t₂, hcounts₂, heval₂⟩ := omitEach_eval rt (some (.array records)) s.syncLogs.length
    (batchCompleted s.syncLogs.length) hcmKeySet loop.store.balances
    { s₁ with store := loop.store } t₁
  have hfind : (Batch.call .findBalances).eval (BatchOp.quiet rt (some (.array records)))
      { s₁ with store := loop.store } =
        some (.ok loop.store.balances, { s₁ with store := loop.store }) :=
    Prog.eval_perform rfl
  have hsync : (syncBalances rt s.syncLogs.length).eval
      (BatchOp.quiet rt (some (.array records))) s₁ = _ :=
    (eval_tryStep_ok hload).trans
      (heval₁.trans ((eval_tryStep_ok hfind).trans (heval₂.trans (batchCompleted_eval t₂))))
  -- the counters of both loops, from zero
  have hsum := hcounts₁.trans hcounts₂
  refine ⟨_, _, batchRun_of_sync hs hsync, ⟨rfl, rfl, modify_last _ _ _⟩, rfl, ?_, ?_, ?_⟩
  · exact hsum.processed.trans (Nat.zero_add _)
  · exact hsum.updated.trans (Nat.zero_add _)
  · exact hsum.failed.trans (Nat.zero_add _)

/-- A payload whose keys cannot be built stops the run before its first record. -/
theorem runBatchSync_eval_stopped (hs : s.batchRunning = false) {records : List Json}
    {err : BatchErr} (hkeys : hcmKeySetOf rt records = .error err) :
    ∃ s' log, BatchRun rt (some (.array records)) s s' ∧ Ended s s' log ∧ s'.store = s.store ∧
      log.recordsProcessed = 0 ∧ log.recordsUpdated = 0 ∧ log.recordsFailed = 0 := by
  let s₁ : BatchState :=
    { s with batchRunning := true, syncLogs := s.syncLogs ++ [startedLog s.clock] }
  have hload : ((Batch.call .getBatchBalances).bind fun hcmBalances =>
      (Prog.ofExcept (payloadRecords hcmBalances)).bind fun records =>
        (Prog.ofExcept (hcmKeySetOf rt records)).bind fun hcmKeySet =>
          (.ret (records, hcmKeySet) : Batch (List Json × List String))).eval
      (BatchOp.quiet rt (some (.array records))) s₁ = some (.error err, s₁) :=
    (eval_call rfl).trans ((eval_ofExcept_ok (payloadRecords_array records)).trans
      (eval_ofExcept_error hkeys))
  have hsync : (syncBalances rt s.syncLogs.length).eval
      (BatchOp.quiet rt (some (.array records))) s₁ = _ :=
    (eval_tryStep_error hload).trans (batchFailed_eval Tally.zero err)
  exact ⟨_, _, batchRun_of_sync hs hsync, ⟨rfl, rfl, modify_last _ _ _⟩, rfl, rfl, rfl, rfl⟩

end Run

end TimeOff
