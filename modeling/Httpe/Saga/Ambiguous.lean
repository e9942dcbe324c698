/-
Httpe.Saga.Ambiguous — actions that apply their amount and then raise.

A timeout leaves it open whether the remote shard committed. `landed`
says of a call whether its amount was applied, whatever it answered, and
`standing r w` is what step `r` has applied so far and not taken back,
which is what its compensation cancels. The ledger is any commutative
group and may be the part of it this saga alone moves, as in
`Httpe.Saga.Ledger`.

The rollback compensates the steps that returned true and never the one
that failed. `net_zero_iff_failedUnapplied` is the exact condition: the
first action that fails must not have landed, unless its amount is zero
or the same step already stands among those compensated.
-/
import Httpe.Saga.Passes
import Mathlib.Algebra.BigOperators.Group.Finset.Basic
import Mathlib.Algebra.BigOperators.Group.Finset.Piecewise
import Mathlib.Algebra.Group.Prod

namespace Httpe.Saga

open Compensation

variable {ρ W G : Type*} [DecidableEq ρ] [AddCommGroup G]

/-- A step whose action may land and still raise, and whose compensation
always returns true and takes back exactly what the step has standing. -/
structure AmbiguousStep (ledger : W → G) (standing : ρ → W → G) (landed : ρ → W → Bool)
    (δ : ρ → G) (s : SagaStep W) (r : ρ) : Prop where
  landed_true : ∀ w, (s.action w).1 = .returned true → landed r w = true
  landed_false : ∀ w, (s.action w).1 = .returned false → landed r w = false
  action_ledger : ∀ w, ledger (s.action w).2 = ledger w + if landed r w then δ r else 0
  action_standing : ∀ q w, standing q (s.action w).2
    = standing q w + if q = r then if landed r w then δ r else 0 else 0
  compensation_result : ∀ w, (s.compensation w).1 = .returned true
  compensation_ledger : ∀ w, ledger (s.compensation w).2 = ledger w - standing r w
  compensation_standing : ∀ q w, standing q (s.compensation w).2
    = if q = r then 0 else standing q w

/-- If the saga returns false with COMPENSATED_FAILED, it has moved nothing. -/
def NetZero (ledger : W → G) (o : SagaOrchestrator ρ W) (w : W) : Prop :=
  (o.execute w).1 = false → (o.execute w).2.ctx.status = .compensatedFailed →
    ledger (o.execute w).2.world - ledger w = 0

/-- The first action that fails has not landed, or moved nothing when it
did, or belongs to a step that had succeeded before. -/
def FailedUnapplied (landed : ρ → W → Bool) (δ : ρ → G) (o : SagaOrchestrator ρ W) (w : W) :
    Prop :=
  ∀ before f after w₁, o.steps = before ++ f :: after →
    forward CallResult.ok (act o.step) before w = some w₁ → (act o.step f w₁).1.ok = false →
    landed f w₁ = true → δ f = 0 ∨ f ∈ before

variable {ledger : W → G} {standing : ρ → W → G} {landed : ρ → W → Bool} {δ : ρ → G}
  {s : SagaStep W} {o : SagaOrchestrator ρ W} {w w₁ : W} {before after : List ρ} {f q r : ρ}
  {S : Finset ρ}

/-! ## What no call of a step changes -/

/-- The ledger without what the steps of `S` have standing. -/
def residual (ledger : W → G) (standing : ρ → W → G) (S : Finset ρ) (w : W) : G :=
  ledger w - ∑ q ∈ S, standing q w

theorem AmbiguousStep.residual_action (h : AmbiguousStep ledger standing landed δ s r)
    (hr : r ∈ S) (w : W) :
    residual ledger standing S (s.action w).2 = residual ledger standing S w := by
  have hsum : ∑ q ∈ S, standing q (s.action w).2
      = ∑ q ∈ S, standing q w + if landed r w then δ r else 0 := by
    rw [Finset.sum_congr rfl fun q _ => h.action_standing q w, Finset.sum_add_distrib,
      Finset.sum_ite_eq' S r, if_pos hr]
  unfold residual
  rw [hsum, h.action_ledger w]
  abel

theorem AmbiguousStep.residual_compensation (h : AmbiguousStep ledger standing landed δ s r)
    (hr : r ∈ S) (w : W) :
    residual ledger standing S (s.compensation w).2 = residual ledger standing S w := by
  have hsum : ∑ q ∈ S, standing q (s.compensation w).2
      = ∑ q ∈ S, standing q w - standing r w := by
    have hsplit : ∀ q ∈ S, standing q (s.compensation w).2
        = standing q w - if q = r then standing r w else 0 := by
      intro q _
      rw [h.compensation_standing q w]
      by_cases hqr : q = r
      · rw [if_pos hqr, if_pos hqr, hqr, sub_self]
      · rw [if_neg hqr, if_neg hqr, sub_zero]
    rw [Finset.sum_congr rfl hsplit, Finset.sum_sub_distrib, Finset.sum_ite_eq' S r, if_pos hr]
  unfold residual
  rw [hsum, h.compensation_ledger w]
  abel

theorem AmbiguousStep.standing_action_of_ne (h : AmbiguousStep ledger standing landed δ s r)
    (hq : q ≠ r) (w : W) : standing q (s.action w).2 = standing q w := by
  rw [h.action_standing q w, if_neg hq, add_zero]

theorem AmbiguousStep.standing_compensation_of_ne
    (h : AmbiguousStep ledger standing landed δ s r) (hq : q ≠ r) (w : W) :
    standing q (s.compensation w).2 = standing q w := by
  rw [h.compensation_standing q w, if_neg hq]

/-! ## What a rolled back saga leaves standing -/

section Failed

variable (hadd : ∀ r ∈ o.steps, AmbiguousStep ledger standing landed δ (o.step r) r)
  (hfresh : ∀ r ∈ o.steps, standing r w = 0)
  (hsteps : o.steps = before ++ f :: after)
  (h : forward CallResult.ok (act o.step) before w = some w₁)
include hadd hsteps h

/-- The residual is the same before the saga and after its rollback. -/
theorem residual_rollback :
    residual ledger standing o.steps.toFinset
        ((failedAt o before f w w₁).rollback o.step before).world
      = residual ledger standing o.steps.toFinset w := by
  have hstep : ∀ r ∈ before, r ∈ o.steps := fun r hr => by simp [hsteps, hr]
  have hfmem : f ∈ o.steps := by simp [hsteps]
  have hacts : residual ledger standing o.steps.toFinset w₁
      = residual ledger standing o.steps.toFinset w :=
    forward_invariant (P := fun v => residual ledger standing o.steps.toFinset v
        = residual ledger standing o.steps.toFinset w)
      (fun r hr v hv => ((hadd r (hstep r hr)).residual_action
        (List.mem_toFinset.mpr (hstep r hr)) v).trans hv) h rfl
  have hfail : residual ledger standing o.steps.toFinset (act o.step f w₁).2
      = residual ledger standing o.steps.toFinset w :=
    ((hadd f hfmem).residual_action (List.mem_toFinset.mpr hfmem) w₁).trans hacts
  rw [rollback_world h]
  refine backward_invariant (P := fun v => residual ledger standing o.steps.toFinset v
    = residual ledger standing o.steps.toFinset w) (fun r hr v hv => ?_) hfail
  have hr := hstep r (List.mem_reverse.mp hr)
  exact ((hadd r hr).residual_compensation (List.mem_toFinset.mpr hr) v).trans hv

/-- A compensated step has nothing standing. -/
theorem standing_rollback_of_mem (hq : q ∈ before) :
    standing q ((failedAt o before f w w₁).rollback o.step before).world = 0 := by
  have hstep : ∀ r ∈ before.reverse, r ∈ o.steps :=
    fun r hr => by simp [hsteps, List.mem_reverse.mp hr]
  rw [rollback_world h]
  refine backward_establishes (P := fun v => standing q v = 0) (List.mem_reverse.mpr hq)
    (fun v => ?_) (fun r hr v hv => ?_)
  · have hqmem := hstep q (List.mem_reverse.mpr hq)
    exact ((hadd q hqmem).compensation_standing q v).trans (if_pos rfl)
  · by_cases hqr : q = r
    · subst hqr
      exact ((hadd q (hstep q hr)).compensation_standing q v).trans (if_pos rfl)
    · exact ((hadd r (hstep r hr)).standing_compensation_of_ne hqr v).trans hv

include hfresh

/-- A step that did not succeed has standing what its failing call
applied, and nothing if it was not called. -/
theorem standing_rollback_of_notMem (hqmem : q ∈ o.steps) (hq : q ∉ before) :
    standing q ((failedAt o before f w w₁).rollback o.step before).world
      = if q = f then if landed f w₁ then δ f else 0 else 0 := by
  have hstep : ∀ r ∈ before, r ∈ o.steps := fun r hr => by simp [hsteps, hr]
  have hne : ∀ r ∈ before, q ≠ r := fun r hr heq => hq (heq ▸ hr)
  have hacts : standing q w₁ = 0 :=
    forward_invariant (P := fun v => standing q v = 0)
      (fun r hr v hv => ((hadd r (hstep r hr)).standing_action_of_ne (hne r hr) v).trans hv) h
      (hfresh q hqmem)
  have hfail : standing q (act o.step f w₁).2
      = if q = f then if landed f w₁ then δ f else 0 else 0 := by
    have hact := (hadd f (by simp [hsteps])).action_standing q w₁
    rw [hacts, zero_add] at hact
    exact hact
  rw [rollback_world h]
  refine backward_invariant (P := fun v => standing q v
    = if q = f then if landed f w₁ then δ f else 0 else 0) (fun r hr v hv => ?_) hfail
  have hr := List.mem_reverse.mp hr
  exact ((hadd r (hstep r hr)).standing_compensation_of_ne (hne r hr) v).trans hv

/-- The net effect of a saga rolled back because `f` failed. -/
theorem net_rollback :
    ledger ((failedAt o before f w w₁).rollback o.step before).world - ledger w
      = if f ∈ before then 0 else if landed f w₁ then δ f else 0 := by
  set final := ((failedAt o before f w w₁).rollback o.step before).world with hfinal
  have hstart : ∑ q ∈ o.steps.toFinset, standing q w = 0 :=
    Finset.sum_eq_zero fun q hq => hfresh q (List.mem_toFinset.mp hq)
  have hnet : ledger final - ledger w = ∑ q ∈ o.steps.toFinset, standing q final := by
    have hres := residual_rollback hadd hsteps h
    rw [residual, residual, hstart, ← hfinal] at hres
    rw [← sub_eq_zero] at hres ⊢
    rw [← hres]
    abel
  have hstanding : ∀ q ∈ o.steps.toFinset, standing q final
      = if q = f then if f ∈ before then 0 else if landed f w₁ then δ f else 0 else 0 := by
    intro q hq
    by_cases hqb : q ∈ before
    · rw [hfinal, standing_rollback_of_mem hadd hsteps h hqb]
      by_cases hqf : q = f
      · rw [if_pos hqf, if_pos (hqf ▸ hqb)]
      · rw [if_neg hqf]
    · rw [hfinal, standing_rollback_of_notMem hadd hfresh hsteps h (List.mem_toFinset.mp hq) hqb]
      by_cases hqf : q = f
      · have hfb : f ∉ before := hqf ▸ hqb
        rw [if_pos hqf, if_pos hqf, if_neg hfb]
      · rw [if_neg hqf, if_neg hqf]
  rw [hnet, Finset.sum_congr rfl hstanding, Finset.sum_ite_eq', if_pos (by simp [hsteps])]

end Failed

/-- **Exactly when an ambiguous failure moves no money.** -/
theorem net_zero_iff_failedUnapplied (ledger : W → G) (standing : ρ → W → G)
    (landed : ρ → W → Bool) (δ : ρ → G) (o : SagaOrchestrator ρ W) (w : W)
    (hadd : ∀ r ∈ o.steps, AmbiguousStep ledger standing landed δ (o.step r) r)
    (hfresh : ∀ r ∈ o.steps, standing r w = 0) :
    NetZero ledger o w ↔ FailedUnapplied landed δ o w := by
  constructor
  · intro hzero before f after w₁ hsteps h hf hlanded
    rw [NetZero, execute_of_failure hsteps h hf] at hzero
    have hnet := (net_rollback hadd hfresh hsteps h).symm.trans (hzero rfl rfl)
    by_cases hfb : f ∈ before
    · exact .inr hfb
    · rw [if_neg hfb, hlanded, if_pos rfl] at hnet
      exact .inl hnet
  · intro hcond
    rcases forward_cases CallResult.ok (act o.step) o.steps w with
      ⟨w', hall⟩ | ⟨before, f, after, w₁, hsteps, h, hf⟩
    · rw [NetZero, execute_of_forward hall]
      exact fun hfalse => absurd hfalse (by simp)
    · rw [NetZero, execute_of_failure hsteps h hf]
      intro _ _
      rw [net_rollback hadd hfresh hsteps h]
      by_cases hfb : f ∈ before
      · rw [if_pos hfb]
      · rw [if_neg hfb]
        cases hlanded : landed f w₁ with
        | false => simp
        | true =>
            rw [if_pos rfl]
            exact (hcond before f after w₁ hsteps h hf hlanded).resolve_right hfb

/-! ## A credit that lands and times out -/

/-- A transfer of 500 whose credit commits on the receiver's shard and
then times out. A world is what the two steps have standing. -/
def timedOutCredit : SagaOrchestrator Bool (ℤ × ℤ) where
  ctx := { sagaId := "saga-1", txnId := "txn-102" }
  step
    | false => ⟨"DEBIT_SENDER", fun w => (.returned true, (w.1 - 500, w.2)),
        fun w => (.returned true, (0, w.2))⟩
    | true => ⟨"CREDIT_RECEIVER", fun w => (.raised "shard 3 timeout", (w.1, w.2 + 500)),
        fun w => (.returned true, (w.1, 0))⟩
  state := fun _ => {}
  steps := [false, true]

/-- The two accounts, sender and receiver. -/
def transferLedger (w : ℤ × ℤ) : ℤ × ℤ := (1000 + w.1, 200 + w.2)

def transferStanding : Bool → ℤ × ℤ → ℤ × ℤ
  | false, w => (w.1, 0)
  | true, w => (0, w.2)

def transferAmount : Bool → ℤ × ℤ
  | false => (-500, 0)
  | true => (0, 500)

theorem timedOutCredit_ambiguous (r : Bool) :
    AmbiguousStep transferLedger transferStanding (fun _ _ => true) transferAmount
      (timedOutCredit.step r) r := by
  refine ⟨fun _ _ => rfl, ?_, fun w => ?_, fun q w => ?_, ?_, fun w => ?_, fun q w => ?_⟩
  · cases r <;> simp [timedOutCredit]
  · cases r <;> ext <;> simp [timedOutCredit, transferLedger, transferAmount] <;> omega
  · cases r <;> cases q <;>
      simp [timedOutCredit, transferStanding, transferAmount, sub_eq_add_neg]
  · cases r <;> simp [timedOutCredit]
  · cases r <;> simp [timedOutCredit, transferLedger, transferStanding]
  · cases r <;> cases q <;> simp [timedOutCredit, transferStanding]

/-- The receiver keeps 500 that nobody paid. -/
theorem not_net_zero_timedOutCredit :
    (∀ r ∈ timedOutCredit.steps, AmbiguousStep transferLedger transferStanding
      (fun _ _ => true) transferAmount (timedOutCredit.step r) r) ∧
    (∀ r ∈ timedOutCredit.steps, transferStanding r (0, 0) = 0) ∧
    (timedOutCredit.execute (0, 0)).2.ctx.status = .compensatedFailed ∧
    transferLedger (timedOutCredit.execute (0, 0)).2.world - transferLedger (0, 0) = (0, 500) ∧
    ¬ NetZero transferLedger timedOutCredit (0, 0) := by
  have hstatus : (timedOutCredit.execute (0, 0)).2.ctx.status = .compensatedFailed := by
    decide +kernel
  have hnet : transferLedger (timedOutCredit.execute (0, 0)).2.world - transferLedger (0, 0)
      = (0, 500) := by decide +kernel
  refine ⟨fun r _ => timedOutCredit_ambiguous r, by decide +kernel, hstatus, hnet, fun h => ?_⟩
  have hzero := h (by decide +kernel) hstatus
  rw [hnet] at hzero
  exact absurd hzero (by decide)

theorem net_zero_iff_failedUnapplied_timedOutCredit :
    NetZero transferLedger timedOutCredit (0, 0) ↔
      FailedUnapplied (fun _ _ => true) transferAmount timedOutCredit (0, 0) :=
  net_zero_iff_failedUnapplied transferLedger transferStanding (fun _ _ => true) transferAmount
    timedOutCredit (0, 0) (fun r _ => timedOutCredit_ambiguous r) (by decide +kernel)

end Httpe.Saga
