import TimeOff.CreateAlone
import TimeOff.DriftRounding

/-! The two reconciliations of a balance with the HCM's total, `applyHcmRealTimeUpdate` and
`_reconcileRecord`, on the same row and in the doubles of the code: they part where the drift is
between the two tolerances, which only the second takes for noise. -/
namespace TimeOff

open Async

/-- The columns that both reconciliations decide. -/
structure ReconciledColumns where
  totalBalance : ℚ
  availableBalance : ℚ
  pendingBalance : ℚ
  usedBalance : ℚ
  hcmTotalBalance : ℚ
  hasDiscrepancy : Bool
  discrepancyAmount : Option ℚ
deriving DecidableEq

section Outcomes

variable (fl : ℚ → ℚ) (b : EmployeeBalance) (hcmTotal : ℚ)

/-- The columns as they are read. -/
def EmployeeBalance.reconciledIn : ReconciledColumns where
  totalBalance := fl b.totalBalance
  availableBalance := fl b.availableBalance
  pendingBalance := fl b.pendingBalance
  usedBalance := fl b.usedBalance
  hcmTotalBalance := fl b.hcmTotalBalance
  hasDiscrepancy := b.hasDiscrepancy
  discrepancyAmount := b.discrepancyAmount.map fl

/-! The three outcomes of a reconciliation. -/

def settledAt : ReconciledColumns :=
  { b.reconciledIn fl with
    hcmTotalBalance := fl hcmTotal, hasDiscrepancy := false, discrepancyAmount := none }

def raisedTo : ReconciledColumns :=
  { settledAt fl b hcmTotal with
    totalBalance := fl hcmTotal
    availableBalance := fl (fl (fl b.availableBalance + b.driftIn fl hcmTotal)) }

def flaggedFor : ReconciledColumns :=
  { settledAt fl b hcmTotal with
    hasDiscrepancy := true, discrepancyAmount := some (fl |b.driftIn fl hcmTotal|) }

/-- The surplus is lost in the rounding, and the row has the HCM's total already. -/
def RaisesNothing : Prop :=
  0 < b.driftIn fl hcmTotal ∧ raisedTo fl b hcmTotal = settledAt fl b hcmTotal

variable {fl b hcmTotal}

theorem flaggedFor_ne_settledAt : flaggedFor fl b hcmTotal ≠ settledAt fl b hcmTotal := by
  intro heq
  cases congrArg ReconciledColumns.hasDiscrepancy heq

theorem realTimePatchIn_reconciled (version : Option String) (now : ℕ) :
    ((realTimePatchIn fl b (some hcmTotal) version now).apply b).reconciledIn fl =
      if fl realTimeTolerance < b.driftIn fl hcmTotal then raisedTo fl b hcmTotal
      else if b.driftIn fl hcmTotal < -fl realTimeTolerance then flaggedFor fl b hcmTotal
      else settledAt fl b hcmTotal := by
  have hdrift : driftIn fl b (some hcmTotal) = some (b.driftIn fl hcmTotal) := rfl
  simp only [realTimePatchIn, hdrift, Num.lt, decide_eq_true_eq]
  split
  · rfl
  · split <;> rfl

theorem reconcilePatchIn_reconciled (version : Option String) (now : ℕ) :
    ((reconcilePatchIn fl b (some hcmTotal) version now).1.apply b).reconciledIn fl =
      if |b.driftIn fl hcmTotal| ≤ fl driftTolerance then settledAt fl b hcmTotal
      else if fl driftTolerance < b.driftIn fl hcmTotal then raisedTo fl b hcmTotal
      else flaggedFor fl b hcmTotal := by
  have hdrift : driftIn fl b (some hcmTotal) = some (b.driftIn fl hcmTotal) := rfl
  simp only [reconcilePatchIn, hdrift, Num.abs, Num.le, Num.lt, decide_eq_true_eq]
  split
  · rfl
  · split <;> rfl

/-- The outcomes differ where the drift is between the tolerances and anything is raised. -/
theorem patches_agree_iff (hpos : 0 < fl realTimeTolerance)
    (htol : fl realTimeTolerance < fl driftTolerance) (version version' : Option String) (now : ℕ) :
    ((realTimePatchIn fl b (some hcmTotal) version now).apply b).reconciledIn fl =
        ((reconcilePatchIn fl b (some hcmTotal) version' now).1.apply b).reconciledIn fl ↔
      ¬ PartsTolerances fl b hcmTotal ∨ RaisesNothing fl b hcmTotal := by
  rw [realTimePatchIn_reconciled, reconcilePatchIn_reconciled]
  unfold PartsTolerances RaisesNothing
  by_cases hbatch : |b.driftIn fl hcmTotal| ≤ fl driftTolerance
  · rw [if_pos hbatch]
    by_cases hup : fl realTimeTolerance < b.driftIn fl hcmTotal
    · -- raised by the first, left alone by the second
      have hdrift : 0 < b.driftIn fl hcmTotal := hpos.trans hup
      have hparts : fl realTimeTolerance < |b.driftIn fl hcmTotal| := by
        rwa [abs_of_pos hdrift]
      rw [if_pos hup]
      constructor
      · intro heq
        exact Or.inr ⟨hdrift, heq⟩
      · intro h
        rcases h with hnot | hnothing
        · exact absurd ⟨hparts, hbatch⟩ hnot
        · exact hnothing.2
    rw [if_neg hup]
    by_cases hdown : b.driftIn fl hcmTotal < -fl realTimeTolerance
    · -- flagged by the first, cleared by the second
      have hparts : fl realTimeTolerance < |b.driftIn fl hcmTotal| := by
        have habs := neg_le_abs (b.driftIn fl hcmTotal)
        linarith
      rw [if_pos hdown]
      apply iff_of_false flaggedFor_ne_settledAt
      intro h
      rcases h with hnot | hnothing
      · exact hnot ⟨hparts, hbatch⟩
      · linarith [hnothing.1]
    · rw [if_neg hdown]
      apply iff_of_true rfl
      left
      intro hparts
      have hsmall : |b.driftIn fl hcmTotal| ≤ fl realTimeTolerance :=
        abs_le.mpr ⟨not_lt.mp hdown, not_lt.mp hup⟩
      linarith [hparts.1]
  · rw [if_neg hbatch]
    apply iff_of_true
    · rcases lt_abs.mp (not_le.mp hbatch) with hup | hdown
      · rw [if_pos (by linarith), if_pos hup]
      · rw [if_neg (by linarith), if_pos (by linarith), if_neg (by linarith)]
    · left
      intro hparts
      exact hbatch hparts.2

/-- In the columns no surplus is lost. -/
theorem not_raisesNothing (hb : b.InColumns)
    (hparts : PartsTolerances Double.round b hcmTotal) :
    ¬ RaisesNothing Double.round b hcmTotal := by
  intro hnothing
  have hdrift : 0 < b.driftIn Double.round hcmTotal := hnothing.1
  have heq : Double.round (Double.round (Double.round b.availableBalance +
      b.driftIn Double.round hcmTotal)) = Double.round b.availableBalance :=
    congrArg ReconciledColumns.availableBalance hnothing.2
  obtain ⟨hlarge, hsmall⟩ := hparts
  rw [abs_of_pos hdrift] at hlarge hsmall
  obtain ⟨hreal, _⟩ := abs_le.mp realTimeTolerance_near
  obtain ⟨_, hbatch⟩ := abs_le.mp driftTolerance_near
  obtain ⟨has, has'⟩ := abs_lt.mp hb.available.small
  obtain ⟨ha, ha'⟩ := abs_le.mp (round_near (hb.available.small.trans (by norm_num)))
  obtain ⟨hs, hs'⟩ := abs_le.mp (round_near
    (x := Double.round b.availableBalance + b.driftIn Double.round hcmTotal)
    (abs_lt.mpr ⟨by linarith, by linarith⟩))
  obtain ⟨hr, hr'⟩ := abs_le.mp (round_near
    (x := Double.round (Double.round b.availableBalance + b.driftIn Double.round hcmTotal))
    (abs_lt.mpr ⟨by linarith, by linarith⟩))
  -- more than a thousandth is added, and three roundings take off less
  linarith

end Outcomes

section Runs

variable {w : World} {key : BalanceKey} {b : EmployeeBalance}

/-- The row of `key` after the program has run alone and no statement failed. -/
def rowAfter {β : Type} (p : Svc β) (w : World) (key : BalanceKey) : Option EmployeeBalance :=
  (p.eval (Op.quiet 0) w).bind fun r => r.2.store.balance? key

theorem realTimePatchIn_accepted (fl : ℚ → ℚ) (hcmTotal : ℚ) (version : Option String) (now : ℕ) :
    (realTimePatchIn fl b (some hcmTotal) version now).accepted = true := by
  unfold realTimePatchIn
  dsimp only
  split
  · rfl
  · split <;> rfl

/-- What the columns of the row are once an accepted patch was saved. -/
theorem reconciledIn_saveBalance (fl : ℚ → ℚ) {patch : BalancePatch}
    (hb : w.store.balance? key = some b) (hpatch : patch.accepted = true) :
    ∃ w' b', w.db (.saveBalance key patch) = (.ok (), w') ∧ w'.store.balance? key = some b' ∧
      b'.reconciledIn fl = (patch.apply b).reconciledIn fl := by
  refine ⟨_, { patch with version := some (b.version + 1) }.apply b,
    World.db_saveBalance hpatch, ?_, rfl⟩
  rw [Store.balance?_saveBalance, hb]
  exact congrArg some (if_pos (Store.balance?_eq_some.mp hb).2)

theorem rowAfter_realTime (fl : ℚ → ℚ) (hb : w.store.balance? key = some b) (hcmTotal : ℚ)
    (version : Option String) :
    ∃ b', rowAfter (Svc.transaction (applyHcmRealTimeUpdateIn fl key (some hcmTotal) version)) w
        key = some b' ∧
      b'.reconciledIn fl =
        ((realTimePatchIn fl b (some hcmTotal) version w.clock).apply b).reconciledIn fl := by
  obtain ⟨w', b', hsave, hb', hcolumns⟩ :=
    reconciledIn_saveBalance fl hb (realTimePatchIn_accepted fl hcmTotal version w.clock)
  refine ⟨b', ?_, hcolumns⟩
  have hfind : w.db (.findBalance key) = (.ok (some b), w) :=
    Prod.ext (congrArg Except.ok hb) rfl
  have hbody : (applyHcmRealTimeUpdateIn fl key (some hcmTotal) version).eval TxOp.quiet w =
      some (.ok true, w') :=
    (tx_eval_db hfind).trans (tx_eval_now.trans (tx_eval_db hsave))
  have hquiet : quietly (applyHcmRealTimeUpdateIn fl key (some hcmTotal) version) w =
      some (.ok true, w') := congrArg (Option.map (rolledBack w)) hbody
  rw [rowAfter, svc_eval_transaction hquiet]
  exact hb'

theorem rowAfter_reconcile (fl : ℚ → ℚ) (hb : w.store.balance? key = some b) (hcmTotal : ℚ)
    (version : Option String) :
    ∃ b', rowAfter (reconcileRecordIn fl ⟨key, some hcmTotal, version⟩) w key = some b' ∧
      b'.reconciledIn fl =
        ((reconcilePatchIn fl b (some hcmTotal) version w.clock).1.apply b).reconciledIn fl := by
  obtain ⟨w', b', hsave, hb', hcolumns⟩ :=
    reconciledIn_saveBalance fl hb (reconcilePatchIn_accepted fl b (some hcmTotal) version w.clock)
  refine ⟨b', ?_, hcolumns⟩
  have hfind : w.db (.findBalance key) = (.ok (some b), w) :=
    Prod.ext (congrArg Except.ok hb) rfl
  have hrun : (reconcileRecordIn fl ⟨key, some hcmTotal, version⟩).eval (Op.quiet 0) w =
      some (.ok (reconcilePatchIn fl b (some hcmTotal) version w.clock).2, w') := by
    have hread : ∀ take, DbOp.findBalance key ≠ .findPendingSync take := fun _ h => nomatch h
    have hwrite : ∀ take patch, DbOp.saveBalance key patch ≠ .findPendingSync take :=
      fun _ _ h => nomatch h
    refine (svc_eval_db hread hfind).trans ?_
    exact svc_eval_db (fun take => hwrite take _) hsave
  rw [rowAfter, hrun]
  exact hb'

end Runs

/-- Both reconciliations leave an existing row with the same columns exactly if the drift, in the
doubles of the code, is not between the two tolerances, or raising the row would change nothing.
In columns of two decimals only a total one hundredth off can part them. -/
theorem reconciliations_agree_iff (w : World) (key : BalanceKey) (b : EmployeeBalance)
    (hcmTotal : ℚ) (version version' : Option String) (hb : w.store.balance? key = some b) :
    ∃ b₁ b₂, rowAfter (Svc.transaction
          (applyHcmRealTimeUpdateIn Double.round key (some hcmTotal) version)) w key = some b₁ ∧
      rowAfter (reconcileRecordIn Double.round ⟨key, some hcmTotal, version'⟩) w key = some b₂ ∧
      (b₁.reconciledIn Double.round = b₂.reconciledIn Double.round ↔
        ¬ PartsTolerances Double.round b hcmTotal ∨ RaisesNothing Double.round b hcmTotal) ∧
      (b.InColumns ∧ InColumn hcmTotal →
        (b₁.reconciledIn Double.round = b₂.reconciledIn Double.round ↔
          ¬ (|hcmTotal - b.localTotal| = 1 / 100 ∧
            |b.driftIn Double.round hcmTotal| ≤ Double.round driftTolerance))) := by
  obtain ⟨b₁, h₁, hcolumns₁⟩ := rowAfter_realTime Double.round hb hcmTotal version
  obtain ⟨b₂, h₂, hcolumns₂⟩ := rowAfter_reconcile Double.round hb hcmTotal version'
  have hagree : b₁.reconciledIn Double.round = b₂.reconciledIn Double.round ↔
      ¬ PartsTolerances Double.round b hcmTotal ∨ RaisesNothing Double.round b hcmTotal := by
    rw [hcolumns₁, hcolumns₂]
    exact patches_agree_iff roundedTolerances.1 roundedTolerances.2 version version' w.clock
  refine ⟨b₁, b₂, h₁, h₂, hagree, ?_⟩
  intro ⟨hcolumns, htotal⟩
  rw [hagree, ← partsTolerances_iff hcolumns htotal]
  constructor
  · intro h hparts
    rcases h with hnot | hnothing
    · exact hnot hparts
    · exact not_raisesNothing hcolumns hparts hnothing
  · intro hnot
    exact Or.inl hnot

/-- A process whose only row has `available` days and nothing else. -/
def soleBalance (available : ℚ) : EmployeeBalance where
  key := plainKey
  totalBalance := available
  availableBalance := available
  pendingBalance := 0
  usedBalance := 0
  hcmTotalBalance := available
  hcmLastSync := none
  hcmVersion := none
  hasDiscrepancy := false
  discrepancyAmount := none
  version := 1

def soleWorld (available : ℚ) : World :=
  World.init ⟨[soleBalance available], [], [], List.nodup_singleton _, List.nodup_nil,
    List.nodup_nil, List.nodup_nil⟩ 0 0 (.init [])

theorem inColumn_natCast {n : ℕ} (hn : n < 10000) : InColumn n where
  cents := by
    refine ⟨100 * n, ?_⟩
    push_cast
    ring
  small := by
    rw [abs_of_nonneg n.cast_nonneg]
    exact_mod_cast hn

/-- One hundredth more than one day is one hundredth and a little in doubles, and raised by
both. -/
theorem raised_alike :
    (soleWorld 1).store.balance? plainKey = some (soleBalance 1) ∧
      ∃ b₁ b₂, rowAfter (Svc.transaction
            (applyHcmRealTimeUpdateIn Double.round plainKey (some (101 / 100)) none))
          (soleWorld 1) plainKey = some b₁ ∧
        rowAfter (reconcileRecordIn Double.round ⟨plainKey, some (101 / 100), none⟩)
          (soleWorld 1) plainKey = some b₂ ∧
        b₁.reconciledIn Double.round = b₂.reconciledIn Double.round := by
  have htotal : InColumn (101 / 100) :=
    ⟨⟨101, by norm_num⟩, by norm_num [abs_of_pos]⟩
  have hcolumns : (soleBalance 1).InColumns :=
    ⟨inColumn_natCast (n := 0) (by omega), inColumn_natCast (n := 0) (by omega),
      inColumn_natCast (n := 1) (by omega)⟩
  obtain ⟨b₁, b₂, h₁, h₂, _, hagree⟩ := reconciliations_agree_iff (soleWorld 1) plainKey
    (soleBalance 1) (101 / 100) none none rfl
  refine ⟨rfl, b₁, b₂, h₁, h₂, (hagree ⟨hcolumns, htotal⟩).mpr ?_⟩
  decide +kernel

/-- One hundredth of a day more is taken over by one reconciliation and not by the other. -/
theorem hundredth_parts_them :
    (soleWorld 0).store.balance? plainKey = some (soleBalance 0) ∧
      ∃ b₁ b₂, rowAfter (Svc.transaction
            (applyHcmRealTimeUpdateIn Double.round plainKey (some (1 / 100)) none))
          (soleWorld 0) plainKey = some b₁ ∧
        rowAfter (reconcileRecordIn Double.round ⟨plainKey, some (1 / 100), none⟩) (soleWorld 0)
          plainKey = some b₂ ∧
        b₁.reconciledIn Double.round ≠ b₂.reconciledIn Double.round := by
  have hrealTime : (rowAfter (Svc.transaction
      (applyHcmRealTimeUpdateIn Double.round plainKey (some (1 / 100)) none)) (soleWorld 0)
        plainKey).map (fun b => (b.availableBalance, b.totalBalance)) =
          some (Double.round (1 / 100), 1 / 100) := by
    decide +kernel
  have hbatch : (rowAfter (reconcileRecordIn Double.round ⟨plainKey, some (1 / 100), none⟩)
      (soleWorld 0) plainKey).map (fun b => (b.availableBalance, b.totalBalance)) =
        some (0, 0) := by
    decide +kernel
  obtain ⟨b₁, h₁, hcolumns₁⟩ := Option.map_eq_some_iff.mp hrealTime
  obtain ⟨b₂, h₂, hcolumns₂⟩ := Option.map_eq_some_iff.mp hbatch
  refine ⟨rfl, b₁, b₂, h₁, h₂, ?_⟩
  intro heq
  have havailable : Double.round b₁.availableBalance = Double.round b₂.availableBalance :=
    congrArg ReconciledColumns.availableBalance heq
  have hraised : b₁.availableBalance = Double.round (1 / 100) := congrArg Prod.fst hcolumns₁
  have hleft : b₂.availableBalance = 0 := congrArg Prod.fst hcolumns₂
  rw [hraised, hleft] at havailable
  exact absurd havailable (by decide +kernel)

end TimeOff
