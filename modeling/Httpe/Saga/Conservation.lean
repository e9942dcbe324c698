/-
Httpe.Saga.Conservation — the ledger under any number of sagas.

The sagas of `Interleaved` move one additive ledger in turns. A step of a
saga is in effect from its action's success to its compensation's: while
it is SUCCESS, and for good if it is left in COMPENSATION_ERROR. At any
moment, in the middle of transfers and rollbacks too, the ledger is what
it was plus the amounts in effect (`sagas_conserve`).

`ProcInv` says of one saga which statuses its steps have where it stands;
`ProcMove.own_eq` is what one step does to the ledger.
-/
import Httpe.Saga.Interleaved
import Mathlib.Algebra.BigOperators.Group.Finset.Basic

namespace Httpe.Saga

variable {ι ρ W G : Type*} [AddCommGroup G]

/-- A step with this status has moved the ledger and not moved it back. -/
def StepStatus.inEffect : StepStatus → Bool
  | success | compensationError => true
  | notStarted | failed | compensated => false

/-- The amounts of the steps in effect. -/
def inEffect (δ : ρ → G) (steps : List ρ) (state : ρ → StepState) : G :=
  (steps.map fun r => if (state r).status.inEffect then δ r else 0).sum

section InEffect

variable {δ : ρ → G} {steps : List ρ} {state state' : ρ → StepState} {r : ρ}

theorem inEffect_congr (h : ∀ q ∈ steps, (state' q).status = (state q).status) :
    inEffect δ steps state' = inEffect δ steps state := by
  unfold inEffect
  congr 1
  exact List.map_congr_left fun q hq => by rw [h q hq]

/-- One step's status changes. -/
theorem inEffect_update : ∀ {steps : List ρ}, steps.Nodup → r ∈ steps →
    (∀ q, q ≠ r → (state' q).status = (state q).status) →
    inEffect δ steps state' = inEffect δ steps state
      + ((if (state' r).status.inEffect then δ r else 0)
        - if (state r).status.inEffect then δ r else 0)
  | [], _, h, _ => absurd h List.not_mem_nil
  | q :: steps, hnd, hr, hother => by
      obtain ⟨hq, hnd⟩ := List.nodup_cons.mp hnd
      rcases List.mem_cons.mp hr with rfl | hr
      · have hrest : inEffect δ steps state' = inEffect δ steps state :=
          inEffect_congr fun p hp => hother p fun heq => hq (heq ▸ hp)
        simp only [inEffect, List.map_cons, List.sum_cons] at hrest ⊢
        rw [hrest]
        abel
      · have hne : q ≠ r := fun heq => hq (heq ▸ hr)
        have hrest := inEffect_update hnd hr hother
        simp only [inEffect, List.map_cons, List.sum_cons, hother q hne] at hrest ⊢
        rw [hrest]
        abel

/-- Nothing is in effect before the first step. -/
theorem inEffect_of_notStarted (h : ∀ r ∈ steps, (state r).status = .notStarted) :
    inEffect δ steps state = 0 := by
  have hzero : steps.map (fun r => if (state r).status.inEffect then δ r else 0)
      = steps.map fun _ => 0 :=
    List.map_congr_left fun r hr => by rw [h r hr]; rfl
  rw [inEffect, hzero]
  simp

/-- Where no step is SUCCESS, those in COMPENSATION_ERROR are in effect. -/
theorem inEffect_eq_uncompensated (h : ∀ r ∈ steps, (state r).status ≠ .success) :
    inEffect δ steps state = uncompensated δ steps state := by
  induction steps with
  | nil => rfl
  | cons r steps ih =>
      have hrest := ih fun q hq => h q (List.mem_cons_of_mem _ hq)
      have hr := h r List.mem_cons_self
      unfold inEffect uncompensated at hrest ⊢
      rw [List.map_cons, List.sum_cons, hrest, List.filter_cons]
      cases hstatus : (state r).status with
      | success => exact absurd hstatus hr
      | compensationError => simp [StepStatus.inEffect]
      | notStarted | failed | compensated => simp [StepStatus.inEffect]

end InEffect

/-! ## Where a saga stands and what its steps' statuses are -/

def Undone (status : StepStatus) : Prop := status = .compensated ∨ status = .compensationError

def ProcInv (steps : List ρ) (state : ρ → StepState) : SagaPc ρ → Prop
  | .idle => ∀ r ∈ steps, (state r).status = .notStarted
  | .forward rest executed => steps = executed ++ rest ∧
      (∀ r ∈ executed, (state r).status = .success) ∧
      ∀ r ∈ rest, (state r).status = .notStarted
  | .rollback rest => ∃ before f after undone, steps = before ++ f :: after ∧
      before.reverse = undone ++ rest ∧ (∀ r ∈ undone, Undone (state r).status) ∧
      (∀ r ∈ rest, (state r).status = .success) ∧ (state f).status = .failed ∧
      ∀ r ∈ after, (state r).status = .notStarted
  | .done true => ∀ r ∈ steps, (state r).status = .success
  | .done false => ∃ before f after, steps = before ++ f :: after ∧
      (∀ r ∈ before, Undone (state r).status) ∧ (state f).status = .failed ∧
      ∀ r ∈ after, (state r).status = .notStarted

/-- No step of a saga that is done with its rollback is SUCCESS. -/
theorem ProcInv.ne_success {steps : List ρ} {state : ρ → StepState}
    (h : ProcInv steps state (.done false)) : ∀ r ∈ steps, (state r).status ≠ .success := by
  obtain ⟨before, f, after, rfl, hbefore, hf, hafter⟩ := h
  intro r hr
  rcases List.mem_append.mp hr with hr | hr
  · rcases hbefore r hr with h | h <;> simp [h]
  · rcases List.mem_cons.mp hr with rfl | hr
    · simp [hf]
    · simp [hafter r hr]

section Proc

variable [DecidableEq ρ] {o : SagaOrchestrator ρ W} {pc pc' : SagaPc ρ} {x x' : Execution ρ W}
  {δ : ρ → G} {ledger foreign : W → G}

theorem undone_compensationStatus (result : CallResult) : Undone (compensationStatus result) := by
  unfold compensationStatus
  split
  · exact .inl rfl
  · exact .inr rfl

theorem ProcInv.step (hnd : o.steps.Nodup) (h : ProcInv o.steps x.state pc)
    (hmove : ProcMove o pc x pc' x') : ProcInv o.steps x'.state pc' := by
  cases hmove with
  | started => exact ⟨rfl, by simp, h⟩
  | completed =>
      obtain ⟨hsteps, hexecuted, -⟩ := h
      intro r hr
      rw [hsteps, List.append_nil] at hr
      exact hexecuted r hr
  | @acted _ r rest executed hok =>
      obtain ⟨hsteps, hexecuted, hrest⟩ := h
      rw [hsteps] at hnd
      have hr : r ∉ rest := (List.nodup_cons.mp hnd.of_append_right).1
      refine ⟨by simp [hsteps], fun q hq => ?_, fun q hq => ?_⟩
      · rw [stepCompleted_status]
        split_ifs with heq
        · rfl
        · rcases List.mem_append.mp hq with hq | hq
          · exact hexecuted q hq
          · exact absurd (List.mem_singleton.mp hq) heq
      · have hne : q ≠ r := fun heq => hr (heq ▸ hq)
        rw [stepCompleted_status, if_neg hne]
        exact hrest q (List.mem_cons_of_mem _ hq)
  | @failed _ r rest executed hok =>
      obtain ⟨hsteps, hexecuted, hrest⟩ := h
      rw [hsteps] at hnd
      have hr : r ∉ rest := (List.nodup_cons.mp hnd.of_append_right).1
      have hr' : r ∉ executed := fun hmem =>
        (List.nodup_append.mp hnd).2.2 r hmem r List.mem_cons_self rfl
      refine ⟨executed, r, rest, [], hsteps, rfl, by simp, fun q hq => ?_, ?_, fun q hq => ?_⟩
      · have hne : q ≠ r := fun heq => hr' (heq ▸ List.mem_reverse.mp hq)
        rw [stepFailed_status, if_neg hne]
        exact hexecuted q (List.mem_reverse.mp hq)
      · rw [stepFailed_status, if_pos rfl]
      · have hne : q ≠ r := fun heq => hr (heq ▸ hq)
        rw [stepFailed_status, if_neg hne]
        exact hrest q (List.mem_cons_of_mem _ hq)
  | @compensated _ r rest =>
      obtain ⟨before, f, after, undone, hsteps, hbefore, hundone, hrest, hf, hafter⟩ := h
      have hr : r ∈ before := List.mem_reverse.mp (hbefore ▸ by simp)
      rw [hsteps] at hnd
      have hnd' : (undone ++ r :: rest).Nodup :=
        hbefore ▸ List.nodup_reverse.mpr hnd.of_append_left
      have hlater : ∀ q ∈ f :: after, q ≠ r :=
        fun q hq heq => (List.nodup_append.mp hnd).2.2 r hr q hq heq.symm
      have hkeep : ∀ q, q ≠ r → ((x.compensate o.step r).state q).status = (x.state q).status :=
        fun q hq => by rw [compensate_status, if_neg hq]
      refine ⟨before, f, after, undone ++ [r], hsteps, by simp [hbefore], fun q hq => ?_,
        fun q hq => ?_, ?_, fun q hq => ?_⟩
      · rcases List.mem_append.mp hq with hq | hq
        · have hne : q ≠ r := (List.nodup_append.mp hnd').2.2 q hq r List.mem_cons_self
          rw [hkeep q hne]
          exact hundone q hq
        · rw [List.mem_singleton.mp hq, compensate_status, if_pos rfl]
          exact undone_compensationStatus _
      · have hne : q ≠ r := fun heq => (List.nodup_cons.mp hnd'.of_append_right).1 (heq ▸ hq)
        rw [hkeep q hne]
        exact hrest q (List.mem_cons_of_mem _ hq)
      · rw [hkeep f (hlater f List.mem_cons_self)]
        exact hf
      · rw [hkeep q (hlater q (List.mem_cons_of_mem _ hq))]
        exact hafter q hq
  | rolledBack =>
      obtain ⟨before, f, after, undone, hsteps, hbefore, hundone, -, hf, hafter⟩ := h
      rw [List.append_nil] at hbefore
      exact ⟨before, f, after, hsteps, fun q hq => hundone q (hbefore ▸ List.mem_reverse.mpr hq),
        hf, hafter⟩

/-- A step moves the ledger by what comes into effect or goes out of it. -/
theorem ProcMove.own_eq (hnd : o.steps.Nodup)
    (hadd : ∀ r ∈ o.steps, AdditiveStep ledger foreign (o.step r) (δ r))
    (h : ProcInv o.steps x.state pc) (hmove : ProcMove o pc x pc' x') :
    own ledger foreign x'.world = own ledger foreign x.world
      + (inEffect δ o.steps x'.state - inEffect δ o.steps x.state) := by
  cases hmove with
  | started | completed | rolledBack =>
      show own ledger foreign x.world = own ledger foreign x.world
        + (inEffect δ o.steps x.state - inEffect δ o.steps x.state)
      abel
  | @acted _ r rest executed hok =>
      obtain ⟨hsteps, -, hrest⟩ := h
      have hr : r ∈ o.steps := by simp [hsteps]
      have hbefore : (x.state r).status = .notStarted := hrest r List.mem_cons_self
      have hother : ∀ q, q ≠ r → (((x.callAction o.step r).2.stepCompleted o.step r
          (executed.length + 1)).state q).status = (x.state q).status := by
        intro q hq
        rw [stepCompleted_status, if_neg hq, callAction_state]
      rw [inEffect_update hnd hr hother, stepCompleted_status, if_pos rfl, hbefore]
      show own ledger foreign (act o.step r x.world).2 = _
      have hown : own ledger foreign (act o.step r x.world).2 = _ :=
        (hadd r hr).own_action x.world
      have hok' : ((o.step r).action x.world).1.ok = true := hok
      simp only [hown, hok', StepStatus.inEffect, if_true, Bool.false_eq_true, if_false]
      abel
  | @failed _ r rest executed hok =>
      obtain ⟨hsteps, -, hrest⟩ := h
      have hr : r ∈ o.steps := by simp [hsteps]
      have hbefore : (x.state r).status = .notStarted := hrest r List.mem_cons_self
      have hother : ∀ q, q ≠ r → (((x.callAction o.step r).2.stepFailed o.step r
          (errorText o.step r (act o.step r x.world).1)).state q).status
            = (x.state q).status := by
        intro q hq
        rw [stepFailed_status, if_neg hq, callAction_state]
      rw [inEffect_update hnd hr hother, stepFailed_status, if_pos rfl, hbefore]
      show own ledger foreign (act o.step r x.world).2 = _
      have hown : own ledger foreign (act o.step r x.world).2 = _ :=
        (hadd r hr).own_action x.world
      have hok' : ((o.step r).action x.world).1.ok = false := hok
      simp only [hown, hok', StepStatus.inEffect, Bool.false_eq_true, if_false]
      abel
  | @compensated _ r rest =>
      obtain ⟨before, f, after, undone, hsteps, hrev, -, hrest, -, -⟩ := h
      have hmem : r ∈ before := List.mem_reverse.mp (hrev ▸ by simp)
      have hr : r ∈ o.steps := hsteps ▸ List.mem_append_left _ hmem
      have hbefore := hrest r List.mem_cons_self
      have hother : ∀ q, q ≠ r →
          ((x.compensate o.step r).state q).status = (x.state q).status := by
        intro q hq
        rw [compensate_status, if_neg hq]
      rw [inEffect_update hnd hr hother, compensate_status, if_pos rfl, hbefore, compensate_world]
      have hown : own ledger foreign (comp o.step r x.world).2 = _ :=
        (hadd r hr).own_compensation x.world
      rw [hown]
      show _ + (if (comp o.step r x.world).1.ok then -δ r else 0) = _
      cases hok : (comp o.step r x.world).1.ok <;>
        simp only [compensationStatus, hok, StepStatus.inEffect, if_true, Bool.false_eq_true,
          if_false] <;> abel

end Proc

/-! ## All sagas -/

section Sagas

variable [DecidableEq ρ] [DecidableEq ι] {os : ι → SagaOrchestrator ρ W} {s : SagaSystem ι ρ W}
  {w₀ : W} {tr : List (SagaTransition ι ρ W)} {ledger foreign : W → G} {δ : ι → ρ → G}

theorem procInv_of_run (hnd : ∀ i, (os i).steps.Nodup)
    (hfresh : ∀ i, ∀ r ∈ (os i).steps, ((os i).state r).status = .notStarted)
    (hrun : Run (sagaStep os) (.start os w₀) tr s) (i : ι) :
    ProcInv (os i).steps (s.proc i).state (s.proc i).pc := by
  refine hrun.invariant (fun _ s => ProcInv (os i).steps (s.proc i).state (s.proc i).pc) ?_ ?_
  · exact hfresh i
  intro tr s e s' _ ih hstep
  obtain ⟨pc, x, hmove, rfl⟩ := sagaStep_cases hstep
  by_cases he : i = e
  · subst he
    rw [SagaSystem.moved_proc]
    exact ProcInv.step (hnd i) ih hmove
  · rw [SagaSystem.moved_proc_of_ne he]
    exact ih

variable [Fintype ι]

/-- A sum over all sagas when one of them moves. -/
theorem sum_eq_add_sub_of_moved {f g : ι → G} {i : ι} (h : ∀ j, j ≠ i → g j = f j) :
    ∑ j, g j = ∑ j, f j + (g i - f i) := by
  have hrest : ∑ j ∈ Finset.univ.erase i, g j = ∑ j ∈ Finset.univ.erase i, f j :=
    Finset.sum_congr rfl fun j hj => h j (Finset.ne_of_mem_erase hj)
  rw [← Finset.add_sum_erase _ g (Finset.mem_univ i),
    ← Finset.add_sum_erase _ f (Finset.mem_univ i), hrest]
  abel

omit [DecidableEq ρ] in
/-- What a saga that is done has in effect. -/
theorem inEffect_of_done {o : SagaOrchestrator ρ W} {p : SagaProc ρ} {δ : ρ → G} {result : Bool}
    (h : ProcInv o.steps p.state p.pc) (hdone : p.pc = .done result) :
    inEffect δ o.steps p.state
      = if result then (o.steps.map δ).sum else uncompensated δ o.steps p.state := by
  rw [hdone] at h
  cases result with
  | true =>
      rw [if_pos rfl, inEffect]
      congr 1
      exact List.map_congr_left fun r hr => by rw [h r hr]; rfl
  | false =>
      rw [if_neg Bool.false_ne_true]
      exact inEffect_eq_uncompensated h.ne_success

/-- What the sagas did to the ledger is what is in effect. -/
theorem own_of_run (hnd : ∀ i, (os i).steps.Nodup)
    (hfresh : ∀ i, ∀ r ∈ (os i).steps, ((os i).state r).status = .notStarted)
    (hadd : ∀ i, ∀ r ∈ (os i).steps, AdditiveStep ledger foreign ((os i).step r) (δ i r))
    (hrun : Run (sagaStep os) (.start os w₀) tr s) :
    own ledger foreign s.world
      = own ledger foreign w₀ + ∑ i, inEffect (δ i) (os i).steps (s.proc i).state := by
  refine hrun.invariant (fun _ s => own ledger foreign s.world
    = own ledger foreign w₀ + ∑ i, inEffect (δ i) (os i).steps (s.proc i).state) ?_ ?_
  · have hnone : ∀ i, inEffect (δ i) (os i).steps ((os i).proc).state = 0 :=
      fun i => inEffect_of_notStarted (hfresh i)
    simp only [SagaSystem.start, hnone, Finset.sum_const_zero, add_zero]
  · intro tr s i s' hreached ih hstep
    have hinv := procInv_of_run hnd hfresh hreached i
    obtain ⟨pc, x, hmove, rfl⟩ := sagaStep_cases hstep
    have hown := hmove.own_eq (hnd i) (hadd i) hinv
    have hsum : ∑ j, inEffect (δ j) (os j).steps ((s.moved i pc x).proc j).state = _ :=
      sum_eq_add_sub_of_moved (i := i) fun j hj => by rw [SagaSystem.moved_proc_of_ne hj]
    rw [hsum, SagaSystem.moved_proc, SagaSystem.moved_world, hown, ← add_assoc, ← ih]
    rfl

/-- **The ledger at any moment.** Any number of sagas, each of distinct
fresh steps that move only their own amounts, take turns in any order and
with any answers, while others move the ledger too. In every state they
reach, in the middle of transfers and of rollbacks, what they did to the
ledger is the sum of the amounts in effect; and once all are done it is
all the amounts of those that returned true, and of the others the ones
left in COMPENSATION_ERROR. -/
theorem sagas_conserve (hnd : ∀ i, (os i).steps.Nodup)
    (hfresh : ∀ i, ∀ r ∈ (os i).steps, ((os i).state r).status = .notStarted)
    (hadd : ∀ i, ∀ r ∈ (os i).steps, AdditiveStep ledger foreign ((os i).step r) (δ i r))
    (hrun : Run (sagaStep os) (.start os w₀) tr s) :
    own ledger foreign s.world
      = own ledger foreign w₀ + ∑ i, inEffect (δ i) (os i).steps (s.proc i).state ∧
    ∀ result : ι → Bool, (∀ i, (s.proc i).pc = .done (result i)) →
      own ledger foreign s.world = own ledger foreign w₀ + ∑ i,
        if result i then ((os i).steps.map (δ i)).sum
        else uncompensated (δ i) (os i).steps (s.proc i).state := by
  have hledger := own_of_run hnd hfresh hadd hrun
  refine ⟨hledger, fun result hdone => ?_⟩
  rw [hledger]
  congr 1
  exact Finset.sum_congr rfl fun i _ =>
    inEffect_of_done (procInv_of_run hnd hfresh hrun i) (hdone i)

end Sagas

/-- Two transfers take turns, and both lose their refund. -/
theorem sagas_conserve_lostRefunds :
    let run := exec (sagaStep fun _ : Bool => lostRefund)
      (.start (fun _ => lostRefund) ((2000, 200), 0))
      [false, true, false, true, true, false, true, false, false, true]
    own Prod.fst Prod.snd run.2.world = (1000, 200) := by
  intro run
  have hend := (sagas_conserve (δ := fun _ => lostRefundAmount) (fun _ => by decide)
    (fun _ => by decide) (fun _ r _ => lostRefund_additive r)
    (run_exec (sagaStep fun _ : Bool => lostRefund) _ _)).2 (fun _ => false)
    (show ∀ i, (run.2.proc i).pc = .done false by decide +kernel)
  exact hend.trans (by decide +kernel)

end Httpe.Saga
