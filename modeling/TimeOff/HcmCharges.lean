import TimeOff.HcmTraffic
import TimeOff.KeptColumns
import TimeOff.Ledger

/-! What the HCM has subtracted from its totals, and whose requests it was subtracted for, when
each PUT carries the key and the days of its request. -/
namespace TimeOff

open Async

section Puts

/-- The PUT that tells the HCM of the approval of a request. -/
def TimeOffRequest.put (r : TimeOffRequest) : PutBalance := ⟨r.balanceKey, r.daysRequested, r.id⟩

/-- The PUT is that of the request of its id. -/
abbrev PutKnown (w : World) (put : PutBalance) : Prop :=
  KnownAs TimeOffRequest.put w put.referenceId put

/-- Rows keep their key and days. -/
abbrev PutsKept (w w' : World) : Prop := ColumnsKept TimeOffRequest.put (fun _ => True) w w'

variable {w w' : World} {put : PutBalance}

theorem execDb_putsKept {o : DbOp} {x : Choice} {r : Except Err o.Resp}
    (h : execDb o w x = some (r, w')) : PutsKept w w' := by
  rcases execDb_cases h with ⟨_, _, _, rfl⟩ | ⟨_, rfl⟩
  · exact columnsKept_of_eq rfl (le_refl _)
  · exact columnsKept_db rfl rfl (fun _ _ => rfl) fun _ _ _ _ => trivial

end Puts

section Steps

variable {w w' : World} {i : ℕ}

/-- What a step does beside the tables: it may hand on a task or send a PUT. -/
structure SideEffects (task : Task → Prop) (sent : PutBalance → Prop) (w w' : World) : Prop where
  puts : PutsKept w w'
  journal : w'.journal = w.journal
  tasks : ∀ t ∈ w'.immediates, t ∈ w.immediates ∨ task t
  hcm : w'.hcm = w.hcm ∨ ∃ put, sent put ∧ w'.hcm = (w.hcm.send put).2

theorem sideEffects_refl {task : Task → Prop} {sent : PutBalance → Prop} (w : World) :
    SideEffects task sent w w :=
  ⟨columnsKept_of_eq rfl (le_refl _), rfl, fun _ => .inl, .inl rfl⟩

theorem baseExec_effects {o : BaseOp} {x : Choice} {r : Except Err o.Resp}
    (h : o.exec i x w = some (r, w')) :
    SideEffects (fun t => o = .setImmediate t) (fun put => o = .sendPut put) w w' := by
  have hjournal := (baseExec_sameCalls h).journal
  have hsame {u : World} (hstore : u.store = w.store) (hnext : u.nextId = w.nextId) :
      PutsKept w u := columnsKept_of_eq (congrArg _ hstore) hnext.ge
  cases o with
  | db o =>
    obtain ⟨⟨r', u⟩, hu, heq⟩ := Option.map_eq_some_iff.mp h
    -- a rejected query and one that is made have the same effects
    cases heq
    have hputs := execDb_putsKept hu
    rcases execDb_cases hu with ⟨_, _, _, rfl⟩ | ⟨_, rfl⟩ <;>
      exact ⟨⟨hputs.nextId, hputs.rows⟩, hjournal, fun _ => .inl, .inl rfl⟩
  | setImmediate task =>
    cases h
    refine ⟨hsame rfl rfl, hjournal, fun t ht => ?_, .inl rfl⟩
    rcases List.mem_append.mp ht with hold | hnew
    · exact .inl hold
    · rw [List.mem_singleton.mp hnew]
      exact .inr rfl
  | awaitPrevious =>
    obtain ⟨l, _, heq⟩ := Option.map_eq_some_iff.mp h
    cases heq
    exact ⟨hsame rfl rfl, hjournal, fun _ => .inl, .inl rfl⟩
  | validateRequest key days =>
    cases x <;> cases h <;> exact ⟨hsame rfl rfl, hjournal, fun _ => .inl, .inl rfl⟩
  | sendPut put =>
    cases x with
    -- lost before it left or sent: the message is what the HCM may see
    | go =>
      cases h
      exact ⟨hsame rfl rfl, hjournal, fun _ => .inl, .inr ⟨put, rfl, rfl⟩⟩
    | lost e =>
      cases h
      exact ⟨hsame rfl rfl, hjournal, fun _ => .inl, .inl rfl⟩
    | _ => cases h
  | awaitPut message put =>
    obtain ⟨l, _, heq⟩ := Option.map_eq_some_iff.mp h
    cases heq
    obtain ⟨hstore, hnext⟩ := World.acknowledge_tables (w := w) put.referenceId r
    obtain ⟨hhcm, himmediates⟩ := World.acknowledge_hcm (w := w) put.referenceId r
    exact ⟨hsame hstore hnext, hjournal, fun t ht => .inl (himmediates ▸ ht), .inl hhcm⟩
  | _ =>
    cases h
    exact ⟨hsame rfl rfl, hjournal, fun _ => .inl, .inl rfl⟩

/-- What a callback has done beside the tables, alone from `w`. -/
abbrev TxEffects (task : Task → Prop) : World → World → Prop := SideEffects task fun _ => False

theorem txExec_effects {task : Task → Prop} {o : TxOp} {x : Choice} {r : Except Err o.Resp}
    {w₀ : World} (htask : ∀ t, o = .setImmediate t → task t) (hw : TxEffects task w₀ w)
    (h : o.exec x w = some (r, w')) : TxEffects task w₀ w' := by
  obtain ⟨hputs, hjournal, htasks, hhcm⟩ := hw
  have hjournal' := (txExec_sameCalls h).journal.trans hjournal
  cases o with
  | db o =>
    have hputs' := hputs.trans (execDb_putsKept h)
    rcases execDb_cases h with ⟨_, _, _, rfl⟩ | ⟨_, rfl⟩ <;>
      exact ⟨hputs', hjournal', htasks, hhcm⟩
  | now =>
    cases h
    exact ⟨hputs, hjournal', htasks, hhcm⟩
  | setImmediate t =>
    cases h
    refine ⟨⟨hputs.nextId, hputs.rows⟩, hjournal', fun t' ht' => ?_, hhcm⟩
    rcases List.mem_append.mp ht' with hold | hnew
    · exact htasks t' hold
    · rw [List.mem_singleton.mp hnew]
      exact .inr (htask t rfl)

/-- A transaction that ends, however it does, has kept the rows and handed on its tasks: a
rollback takes back the tables only. -/
theorem transaction_effects {β : Type} {task : Task → Prop} {body : Tx β} {x : AtomicChoice}
    {r : Except Err β} (hbody : TxEnds (fun _ u => TxEffects task w u) body w)
    (h : (Op.transaction body).exec i x w = some (r, w')) : TxEffects task w w' := by
  rcases exec_transaction h with ⟨_, _, _, rfl⟩ | ⟨xs, commit, hx⟩
  · exact sideEffects_refl _
  obtain ⟨⟨y, u⟩, hplay, hr⟩ := Option.bind_eq_some_iff.mp hx
  -- the callback's effects, which a rollback leaves but for the rows
  have hu : TxEffects task w u :=
    Prog.Holds.play (fun _ => rfl) (fun o c s r s' hs => ⟨c, hs⟩) hbody hplay
  have hback : TxEffects task w { u with store := w.store } :=
    ⟨columnsKept_of_eq rfl hu.puts.nextId, hu.journal, hu.tasks, hu.hcm⟩
  dsimp only at hr
  split at hr <;> cases hr
  · exact hu
  · exact hback
  · exact hback

end Steps

section Totals

/-- What these PUTs take from the record of a key. -/
def takenBy (puts : List PutBalance) (key : BalanceKey) : ℚ :=
  ((puts.filter fun p => getBalanceKey p.key = getBalanceKey key).map (·.daysRequested)).sum

/-- The HCM was `h₀` and has subtracted these PUTs since. -/
structure Subtracted (h₀ h : MockHcm) (puts : List PutBalance) : Prop where
  deducted : h.deducted = puts.map fun p => (p.referenceId, p.daysRequested)
  totals : ∀ key, (h.balance key).totalBalance = (h₀.balance key).totalBalance - takenBy puts key

variable {h₀ h h' : MockHcm} {puts : List PutBalance} {key k : BalanceKey} {b : HcmBalance}

theorem takenBy_cons (p : PutBalance) :
    takenBy (p :: puts) key =
      (if getBalanceKey p.key = getBalanceKey key then p.daysRequested else 0) +
        takenBy puts key := by
  unfold takenBy
  by_cases hp : getBalanceKey p.key = getBalanceKey key
  · rw [List.filter_cons_of_pos (by simpa using hp), List.map_cons, List.sum_cons, if_pos hp]
  · rw [List.filter_cons_of_neg (by simpa using hp), if_neg hp, zero_add]

theorem lookup_filter_ne {α β : Type} [DecidableEq α] {l : List (α × β)} {a c : α} (h : a ≠ c) :
    (l.filter fun e => e.1 ≠ c).lookup a = l.lookup a := by
  induction l with
  | nil => rfl
  | cons e l ih =>
    obtain ⟨x, v⟩ := e
    by_cases hx : x = c
    · rw [List.filter_cons_of_neg (by simpa using hx), ih, hx, List.lookup_cons,
        beq_eq_false_iff_ne.mpr h]
    · rw [List.filter_cons_of_pos (by simpa using hx), List.lookup_cons, List.lookup_cons, ih]

theorem balance_setBalance :
    (h.setBalance key b).balance k =
      if getBalanceKey k = getBalanceKey key then b else h.balance k := by
  unfold MockHcm.balance MockHcm.setBalance
  dsimp only
  by_cases hk : getBalanceKey k = getBalanceKey key
  · rw [if_pos hk, List.lookup_cons, beq_iff_eq.mpr hk]
    rfl
  · rw [if_neg hk, List.lookup_cons, beq_eq_false_iff_ne.mpr hk]
    dsimp only
    rw [lookup_filter_ne hk]

theorem balance_congr (hk : getBalanceKey k = getBalanceKey key) : h.balance k = h.balance key := by
  unfold MockHcm.balance
  rw [hk]

/-- A PUT is refused, and then nothing is subtracted, or taken from its record. -/
theorem Subtracted.putBalance (put : PutBalance) (hs : Subtracted h₀ h puts) :
    Subtracted h₀ (h.putBalance put).2 puts ∨ Subtracted h₀ (h.putBalance put).2 (put :: puts) := by
  unfold MockHcm.putBalance
  dsimp only
  split
  -- refused: the totals stay
  · left
    refine ⟨hs.deducted, fun key => ?_⟩
    rw [balance_setBalance, ← hs.totals]
    split
    · next hk => rw [balance_congr hk]
    · rfl
  · right
    refine ⟨congrArg _ hs.deducted, fun key => ?_⟩
    change ((h.setBalance put.key _).balance key).totalBalance = _
    rw [balance_setBalance, takenBy_cons]
    -- the balance of the put is the one that is charged
    by_cases hk : getBalanceKey key = getBalanceKey put.key
    · have htotal := hs.totals key
      rw [balance_congr hk] at htotal
      rw [if_pos hk, if_pos hk.symm]
      dsimp only
      rw [htotal]
      ring
    · rw [if_neg hk, if_neg (Ne.symm hk), hs.totals, zero_add]

theorem Subtracted.congr (hs : Subtracted h₀ h puts) (hdeducted : h'.deducted = h.deducted)
    (hbalances : h'.hcmBalances = h.hcmBalances) : Subtracted h₀ h' puts := by
  refine ⟨hdeducted.trans hs.deducted, fun key => ?_⟩
  rw [← hs.totals]
  unfold MockHcm.balance
  rw [hbalances]

theorem Subtracted.deliver {message : ℕ} (hs : Subtracted h₀ h puts)
    (hd : h.deliver message = some h') :
    ∃ put, (message, put) ∈ h.inTransit ∧
      (Subtracted h₀ h' puts ∨ Subtracted h₀ h' (put :: puts)) := by
  obtain ⟨put, hput, rfl⟩ := Option.map_eq_some_iff.mp hd
  refine ⟨put, ?_, ?_⟩
  · obtain ⟨l₁, l₂, hl, _⟩ := List.lookup_eq_some_iff.mp hput
    rw [hl]
    exact List.mem_append_right _ List.mem_cons_self
  · have hremoved : Subtracted h₀ (h.remove message) puts := hs.congr rfl rfl
    exact (hremoved.putBalance put).imp (·.congr rfl rfl) (·.congr rfl rfl)

end Totals

end TimeOff
