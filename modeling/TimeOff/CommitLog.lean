import TimeOff.FlatOps
import TimeOff.LoggedPool
import TimeOff.SerialOrder

/-! The calls on the machine that isolates nothing, with a log of those whose transaction has been
committed: no decision answers before it is in the log. -/
namespace TimeOff

open Async

section Steps

/-- The operation that the log marks. -/
def commits : FlatOp → Choice → Bool
  | .commit, .go => true
  | _, _ => false

def LogStep (i : ℕ) (o : FlatOp) (L : Logged Call World) (r : Except Err o.Resp)
    (L' : Logged Call World) : Prop :=
  ∃ x w, o.exec i x L.state = some (r, w) ∧
    L' = { L with
      state := w
      log := if commits o x then L.log ++ (L.calls i).toList else L.log }

variable {cfg : Config} {i : ℕ} {c : Call} {o : FlatOp} {L L' L'' : Logged Call World}

/-- Every decision that has answered is in the log. -/
def Answered (L : Logged Call World) : Prop :=
  ∀ c body, (c, body) ∈ L.state.history.returned → c.decides ≠ none → c ∈ L.log

/-- The log grows, and the call of process `i` stays what it is. -/
def LogGrown (i : ℕ) (L L' : Logged Call World) : Prop :=
  L.log ⊆ L'.log ∧ L'.calls i = L.calls i

def LogKept (i : ℕ) (L L' : Logged Call World) : Prop :=
  -- no step of another call takes anything from the log
  (Answered L → Answered L') ∧ ∀ j, j ≠ i → LogGrown j L L'

theorem LogGrown.trans (h : LogGrown i L L') (h' : LogGrown i L' L'') : LogGrown i L L'' :=
  ⟨List.Subset.trans h.1 h'.1, h'.2.trans h.2⟩

theorem logStep_grown {r : Except Err o.Resp} (h : LogStep i o L r L') (j : ℕ) :
    LogGrown j L L' := by
  obtain ⟨x, w, _, rfl⟩ := h
  refine ⟨?_, rfl⟩
  dsimp only
  split
  · exact List.subset_append_left _ _
  · exact List.Subset.refl _

theorem Answered.grown (h : Answered L) (hlog : L.log ⊆ L'.log)
    (hreturned : L'.state.history.returned = L.state.history.returned) : Answered L' := by
  intro c body hmem hc
  rw [hreturned] at hmem
  exact hlog (h c body hmem hc)

theorem logStep_kept {r : Except Err o.Resp} (h : LogStep i o L r L') : LogKept i L L' := by
  refine ⟨fun ha => ha.grown (logStep_grown h i).1 ?_, fun j _ => logStep_grown h j⟩
  obtain ⟨x, w, hx, rfl⟩ := h
  exact (flatExec_history hx).1

end Steps

section Answers

variable {cfg : Config} {i : ℕ} {c : Call} {L L' : Logged Call World}

/-- A decision is one transaction, so that it succeeds with its commit or not at all. -/
theorem decision_logged {body : Tx RequestBody}
    (hsvc : c.svc cfg = (Svc.transaction body).bind fun v => .ret (some v))
    (hbody : body.Each (TxCallOp cfg c)) (hL : L.calls i = some c) :
    ((c.svc cfg).interp flatten).Holds (LogStep i) (LogGrown i) (LogKept i)
      (fun r t => ∀ v, r = .ok v → c ∈ t.log) L := by
  -- the process keeps its call, whoever else steps
  have hcall (t t' : Logged Call World) (h : LogGrown i t t') (ht : t.calls i = some c) :
      t'.calls i = some c := h.2.trans ht
  rw [hsvc]
  refine holds_transaction (Prog.Holds.mono ?_ (holds_flattenTransaction (β := RequestBody)
    (Q := fun r t => ∀ v, r = .ok v → c ∈ t.log) (fun t => t.calls i = some c)
    (fun _ t => t.calls i = some c) (fun _ => True) ?_ ?_ ?_ ?_))
  -- either end of the transaction: nothing to show for a throw, the entry for an answer
  · rintro (e | v) t ht
    · exact fun _ h => nomatch h
    · exact fun _ _ => ht v rfl
  · intro t hR r t' hs
    refine ⟨logStep_kept hs, fun _ _ => ?_, fun _ _ => trivial⟩
    exact hcall t t' (logStep_grown hs i) (hcall L t hR hL)
  · intro t ht
    refine Prog.Holds.mono (fun r u hu => ⟨fun _ _ => hu, fun _ _ => trivial⟩)
      -- inside the callback nothing is committed
      (Prog.Holds.of_each_inv (fun u : Logged Call World => u.calls i = some c) hcall ?_ hbody ht)
    intro o u r u' _ hu hs
    exact ⟨logStep_kept hs, hcall u u' (logStep_grown hs i) hu⟩
  · intro v t ht u hR r u' hs
    have hu := hcall t u hR ht
    refine ⟨logStep_kept hs, fun _ hr _ _ => ?_, fun _ _ => trivial⟩
    obtain ⟨x, w, hx, rfl⟩ := hs
    subst hr
    -- only a commit that is made answers
    cases x with
    | go =>
      rw [hu]
      exact List.mem_append_right _ (List.mem_singleton_self c)
    | _ => cases hx
  · intro t _ u _ r u' hs
    exact ⟨logStep_kept hs, fun _ _ h => nomatch h⟩

theorem answer_logged (cfg : Config) (hL : L.calls i = some c) :
    ((c.svc cfg).interp flatten).Holds (LogStep i) (LogGrown i) (LogKept i)
      (fun r t => ∀ v, r = .ok v → c.decides ≠ none → c ∈ t.log) L := by
  have hdecides {body : Tx RequestBody}
      (hsvc : c.svc cfg = (Svc.transaction body).bind fun v => .ret (some v))
      (hbody : body.Each (TxCallOp cfg c)) :
      ((c.svc cfg).interp flatten).Holds (LogStep i) (LogGrown i) (LogKept i)
        (fun r t => ∀ v, r = .ok v → c.decides ≠ none → c ∈ t.log) L :=
    Prog.Holds.mono (fun _ _ h v hv _ => h v hv) (decision_logged hsvc hbody hL)
  -- the calls that are no decisions owe no entry
  have hother (hc : c.decides = none) : ((c.svc cfg).interp flatten).Holds (LogStep i)
      (LogGrown i) (LogKept i) (fun r t => ∀ v, r = .ok v → c.decides ≠ none → c ∈ t.log) L :=
    Prog.Holds.mono (fun _ _ _ _ _ hne => absurd hc hne)
      (Prog.Holds.of_each (fun _ _ _ _ _ hs => logStep_kept hs) (flat_each cfg c) L)
  cases c with
  | approve id approver => exact hdecides rfl (approveTransaction_each cfg id approver)
  | reject id approver reason => exact hdecides rfl (rejectTransaction_each cfg id approver reason)
  | cancel id reason => exact hdecides rfl (cancelTransaction_each cfg id reason)
  | _ => exact hother rfl

def answeredCalls (cfg : Config)
    (C : Pool Call FlatOp FlatOp.Resp Err (Option RequestBody) (Logged Call World) →
      Act Call Choice Env → Prop) : RelyGuarantee ((flatMachine cfg).logged commits) C where
  Inv _ L := Answered L
  stepRel i _ := LogStep i
  rely i _ := LogGrown i
  guar i _ := LogKept i
  post _ c r L := ∀ v, r = .ok v → c.decides ≠ none → c ∈ L.log
  rely_refl := ⟨List.Subset.refl _, rfl⟩
  rely_trans := .trans
  step_of _ _ _ hx := by
    obtain ⟨⟨r, w⟩, hexec, heq⟩ := Option.map_eq_some_iff.mp hx
    cases heq
    exact ⟨_, w, hexec, rfl⟩
  guar_inv _ hI h := h.1 hI
  guar_rely hne _ h := h.2 _ hne.symm
  finish_guar {_ i c r L} _ hpost := by
    refine ⟨fun ha c' body hmem hc => ?_, fun _ _ => ⟨List.Subset.refl _, rfl⟩⟩
    rcases mem_returned_finish hmem with hmem | ⟨rfl, hr⟩
    · exact ha c' body hmem hc
    · exact hpost _ hr hc
  accept_inv {P c L'} hI _ hs := by
    obtain ⟨w, hw, rfl⟩ := Option.map_eq_some_iff.mp hs
    exact hI.grown (List.Subset.refl _) (accept_frame hw).2.2
  accept_rely {P c L' j d} hj _ _ hs := by
    obtain ⟨w, _, rfl⟩ := Option.map_eq_some_iff.mp hs
    exact ⟨List.Subset.refl _, Function.update_of_ne hj.ne _ _⟩
  accept_holds {P c L'} _ _ hs := by
    obtain ⟨w, _, rfl⟩ := Option.map_eq_some_iff.mp hs
    exact answer_logged cfg (Function.update_self _ _ _)
  env_inv {P e L'} hI _ hs := by
    obtain ⟨w, hw, rfl⟩ := Option.map_eq_some_iff.mp hs
    exact hI.grown (List.Subset.refl _) (env_sameCalls hw).2.returned
  env_rely {P e L' j d} _ _ hs := by
    obtain ⟨w, _, rfl⟩ := Option.map_eq_some_iff.mp hs
    exact ⟨List.Subset.refl _, rfl⟩
  halt_inv hI _ := hI

end Answers

end TimeOff
