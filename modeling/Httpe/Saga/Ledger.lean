/-
Httpe.Saga.Ledger — what one execution does to an additive ledger while
others move it too.

The ledger is any commutative group (amounts, or functions from accounts
to amounts). `ledger w` is what it reads in world `w` and `foreign w` is
what everyone but this saga has added so far; both may change during any
call, so updates between two calls are part of the second one. An
`AdditiveStep` moves the difference by its own amount when its action
returns true, back by the same amount when its compensation does, and
not at all otherwise.

`saga_net_effect` reads the residue off the final statuses: all amounts
if the saga completed, and otherwise exactly those of the steps left in
COMPENSATION_ERROR.
-/
import Httpe.Saga.Passes
import Mathlib.Algebra.Group.Prod
import Mathlib.Data.List.Nodup

namespace Httpe.Saga

open Compensation

variable {ρ W G : Type*} [DecidableEq ρ] [AddCommGroup G]

/-- A step that moves only its own amount `δ`, and only by calls that
return true; what `foreign` gains meanwhile is the others' doing. -/
structure AdditiveStep (ledger foreign : W → G) (s : SagaStep W) (δ : G) : Prop where
  action : ∀ w, ledger (s.action w).2 = ledger w + (foreign (s.action w).2 - foreign w) +
    if (s.action w).1 = .returned true then δ else 0
  compensation : ∀ w, ledger (s.compensation w).2
    = ledger w + (foreign (s.compensation w).2 - foreign w) +
      if (s.compensation w).1 = .returned true then -δ else 0

section Net

variable {ledger foreign : W → G} {s : SagaStep W} {δ : G}

/-- What is left of the ledger when the others' updates are taken out. -/
def own (ledger foreign : W → G) (w : W) : G := ledger w - foreign w

theorem AdditiveStep.own_action (h : AdditiveStep ledger foreign s δ) (w : W) :
    own ledger foreign (s.action w).2
      = own ledger foreign w + if (s.action w).1.ok then δ else 0 := by
  simp only [own, h.action w, CallResult.ok_iff]
  abel

theorem AdditiveStep.own_compensation (h : AdditiveStep ledger foreign s δ) (w : W) :
    own ledger foreign (s.compensation w).2
      = own ledger foreign w + if (s.compensation w).1.ok then -δ else 0 := by
  simp only [own, h.compensation w, CallResult.ok_iff]
  abel

end Net

variable {ledger foreign : W → G} {δ : ρ → G} {o : SagaOrchestrator ρ W} {w w₁ : W}
  {before after : List ρ} {f : ρ}

/-- The amounts of the steps whose final status is COMPENSATION_ERROR. -/
def uncompensated (δ : ρ → G) (steps : List ρ) (state : ρ → StepState) : G :=
  ((steps.filter fun r => (state r).status = .compensationError).map δ).sum

/-- A saga that went through leaves no step in COMPENSATION_ERROR. -/
theorem uncompensated_completeAll {x : Execution ρ W} {steps : List ρ} :
    uncompensated δ steps (completeAll o.step steps 0 x).sagaCompleted.state = 0 := by
  have hnone : steps.filter (fun r =>
      ((completeAll o.step steps 0 x).sagaCompleted.state r).status = .compensationError) = [] := by
    refine List.filter_eq_nil_iff.mpr fun q hq => ?_
    have hsuccess : ((completeAll o.step steps 0 x).sagaCompleted.state q).status = .success :=
      completeAll_status_of_mem hq
    simp [hsuccess]
  rw [uncompensated, hnone, List.map_nil, List.sum_nil]

/-- After a rollback of distinct fresh steps, the ones in
COMPENSATION_ERROR are those whose compensation did not return true. -/
theorem uncompensated_rollback (hnd : o.steps.Nodup)
    (hfresh : ∀ r ∈ o.steps, (o.state r).status = .notStarted)
    (hsteps : o.steps = before ++ f :: after)
    (h : forward CallResult.ok (act o.step) before w = some w₁) :
    uncompensated δ o.steps ((failedAt o before f w w₁).rollback o.step before).state
      = (((backward (comp o.step) before.reverse (act o.step f w₁).2).1.filter fun p =>
          !p.2.ok).map fun p => δ p.1).sum := by
  set final := (failedAt o before f w w₁).rollback o.step before with hfinal
  set log := (backward (comp o.step) before.reverse (act o.step f w₁).2).1 with hlog
  rw [hsteps] at hnd hfresh
  have hndb : before.Nodup := hnd.of_append_left
  have hlogfst : log.map Prod.fst = before.reverse := backward_map_fst _ _ _
  -- what is at or after the failing step never reaches a compensation
  have hrest : ∀ q ∈ f :: after, (final.state q).status ≠ .compensationError := by
    intro q hq
    have hnot : q ∉ before := fun hqb => (List.nodup_append.mp hnd).2.2 q hqb q hq rfl
    rw [hfinal, rollback_status_of_notMem hnot, hfresh q (List.mem_append_right _ hq)]
    split <;> simp
  have hstatus : ∀ p ∈ log, (final.state p.1).status = compensationStatus p.2 := by
    rw [hlog, ← failedAt_world (f := f) h]
    exact undoAll_status_of_mem (List.nodup_reverse.mpr hndb)
  have hdrop : (f :: after).filter (fun r => (final.state r).status = .compensationError) = [] :=
    List.filter_eq_nil_iff.mpr fun q hq => by simpa using hrest q hq
  calc uncompensated δ o.steps final.state
      = ((before.filter fun r => (final.state r).status = .compensationError).map δ).sum := by
        rw [uncompensated, hsteps, List.filter_append, hdrop, List.append_nil]
    _ = ((before.reverse.filter fun r =>
          (final.state r).status = .compensationError).map δ).sum := by
        rw [List.filter_reverse, List.map_reverse, List.sum_reverse]
    _ = ((log.filter fun p => (final.state p.1).status = .compensationError).map
          fun p => δ p.1).sum := by
        rw [← hlogfst, List.filter_map, List.map_map]; rfl
    _ = ((log.filter fun p => !p.2.ok).map fun p => δ p.1).sum := by
        congr 2
        refine List.filter_congr fun p hp => ?_
        rw [hstatus p hp, compensationStatus]
        cases p.2.ok <;> simp

/-- **Money accounting of one execution.** Under any foreign updates and
any answers, the saga's own effect on the ledger is the sum of all
amounts if it returned true, and otherwise exactly the amounts of the
steps left in COMPENSATION_ERROR. A two-step transfer whose amounts
cancel, in whatever total `total`, therefore moves that total only by the
steps in COMPENSATION_ERROR. -/
theorem saga_net_effect {H : Type*} [AddCommGroup H] (o : SagaOrchestrator ρ W)
    (ledger foreign : W → G) (δ : ρ → G) (hnd : o.steps.Nodup)
    (hfresh : ∀ r ∈ o.steps, (o.state r).status = .notStarted)
    (hadd : ∀ r ∈ o.steps, AdditiveStep ledger foreign (o.step r) (δ r)) (w : W) :
    (ledger (o.execute w).2.world - ledger w
        - (foreign (o.execute w).2.world - foreign w)
      = if (o.execute w).1 then (o.steps.map δ).sum
        else uncompensated δ o.steps (o.execute w).2.state) ∧
    (∀ (total : G →+ H) (debit credit : ρ), o.steps = [debit, credit] →
      total (δ debit) + total (δ credit) = 0 →
      total (ledger (o.execute w).2.world - ledger w
          - (foreign (o.execute w).2.world - foreign w))
        = total (uncompensated δ o.steps (o.execute w).2.state)) := by
  have hact : ∀ r ∈ o.steps, ∀ w, own ledger foreign (act o.step r w).2
      = own ledger foreign w + if (act o.step r w).1.ok then δ r else 0 :=
    fun r hr => (hadd r hr).own_action
  have hcomp : ∀ r ∈ o.steps, ∀ w, own ledger foreign (comp o.step r w).2
      = own ledger foreign w + if (comp o.step r w).1.ok then -δ r else 0 :=
    fun r hr => (hadd r hr).own_compensation
  have hown : ∀ v, ledger v - ledger w - (foreign v - foreign w)
      = own ledger foreign v - own ledger foreign w := by
    intro v; simp only [own]; abel
  simp only [hown]
  rcases forward_cases CallResult.ok (act o.step) o.steps w with
    ⟨w', hall⟩ | ⟨before, f, after, w₁, hsteps, h, hf⟩
  · rw [execute_of_forward hall]
    have hworld : ((completeAll o.step o.steps 0 (o.begin w)).sagaCompleted).world = w' :=
      completeAll_world (w := w') hall
    have hnet : own ledger foreign w' - own ledger foreign w = (o.steps.map δ).sum := by
      rw [net_forward hact hall]; abel
    rw [hworld, hnet]
    refine ⟨rfl, fun total debit credit hsteps hcancel => ?_⟩
    rw [uncompensated_completeAll, map_zero, hsteps]
    simpa using hcancel
  · rw [execute_of_failure hsteps h hf]
    have hnet : own ledger foreign ((failedAt o before f w w₁).rollback o.step before).world
        - own ledger foreign w
        = uncompensated δ o.steps ((failedAt o before f w w₁).rollback o.step before).state := by
      have hsub : ∀ r ∈ before, r ∈ o.steps := fun r hr => by simp [hsteps, hr]
      have hfmem : f ∈ o.steps := by simp [hsteps]
      have hw₁ : own ledger foreign (act o.step f w₁).2
          = own ledger foreign w + (before.map δ).sum := by
        rw [hact f hfmem, hf, net_forward (fun r hr => hact r (hsub r hr)) h]
        simp
      rw [uncompensated_rollback hnd hfresh hsteps h, rollback_world h,
        net_backward_of_forward hw₁ fun r hr => hcomp r (hsub r hr)]
      abel
    exact ⟨by simpa using hnet, fun total debit credit _ _ => by rw [hnet]⟩

/-- A transfer of 500 whose credit fails and whose refund raises, while
others move 7, 3 and 11. A world is the pair of the ledger (sender,
receiver) and of what the others have added to it. -/
def lostRefund : SagaOrchestrator Bool ((ℤ × ℤ) × (ℤ × ℤ)) where
  ctx := { sagaId := "saga-1", txnId := "txn-102" }
  step
    | false =>
        ⟨"DEBIT_SENDER",
          fun w => (.returned true, (w.1 + (7, 0) + (-500, 0), w.2 + (7, 0))),
          fun w => (.raised "shard timeout", (w.1 + (0, 11), w.2 + (0, 11)))⟩
    | true =>
        ⟨"CREDIT_RECEIVER",
          fun w => (.returned false, (w.1 + (0, 3), w.2 + (0, 3))),
          fun w => (.returned true, (w.1 + -(0, 500), w.2))⟩
  state := fun _ => {}
  steps := [false, true]

def lostRefundAmount : Bool → ℤ × ℤ
  | false => (-500, 0)
  | true => (0, 500)

theorem lostRefund_additive (r : Bool) :
    AdditiveStep Prod.fst Prod.snd (lostRefund.step r) (lostRefundAmount r) := by
  cases r <;> constructor <;> intro w <;> ext <;>
    simp [lostRefund, lostRefundAmount]

theorem saga_net_effect_lostRefund :
    (lostRefund.execute ((1000, 200), 0)).2.world.1 - (1000, 200)
        - ((lostRefund.execute ((1000, 200), 0)).2.world.2 - 0)
      = (-500, 0) ∧
    (AddMonoidHom.fst ℤ ℤ + AddMonoidHom.snd ℤ ℤ)
        ((lostRefund.execute ((1000, 200), 0)).2.world.1 - (1000, 200)
          - ((lostRefund.execute ((1000, 200), 0)).2.world.2 - 0))
      = -500 := by
  have h := saga_net_effect (H := ℤ) lostRefund Prod.fst Prod.snd lostRefundAmount
    (by decide) (by decide) (fun r _ => lostRefund_additive r) ((1000, 200), 0)
  exact ⟨h.1.trans (by decide +kernel),
    (h.2 (AddMonoidHom.fst ℤ ℤ + AddMonoidHom.snd ℤ ℤ) false true rfl (by decide)).trans
      (by decide +kernel)⟩

end Httpe.Saga
