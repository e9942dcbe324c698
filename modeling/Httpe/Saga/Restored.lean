/-
Httpe.Saga.Restored — when COMPENSATED_FAILED means what its event says.

The rollback records "account states restored" whatever the
compensations answered. `Restored` is the promise: each step whose
action succeeded ends COMPENSATED and its compensation returned true.
`restored_iff` is the exact condition, on the steps' behaviour alone:
either no action fails, or every compensation of the steps before the
first failing one returns true when they are called in reverse from the
world that failure left.
-/
import Httpe.Saga.Passes

namespace Httpe.Saga

open Compensation

variable {ρ W : Type*} [DecidableEq ρ]

/-- If the saga ends COMPENSATED_FAILED, every step whose action
succeeded has been successfully compensated. -/
def Restored (o : SagaOrchestrator ρ W) (w : W) : Prop :=
  (o.execute w).2.ctx.status = .compensatedFailed →
    ∀ r, ⟨r, .action, .returned true⟩ ∈ (o.execute w).2.calls →
      ((o.execute w).2.state r).status = .compensated ∧
      ⟨r, .compensation, .returned true⟩ ∈ (o.execute w).2.calls ∧
      ∀ c ∈ (o.execute w).2.calls, c.step = r → c.kind = .compensation →
        c.result = .returned true

/-- The compensations the first failing step calls for all return true. -/
def CompensationsSucceed (o : SagaOrchestrator ρ W) (w : W) : Prop :=
  ∀ before f after w₁, o.steps = before ++ f :: after →
    forward CallResult.ok (act o.step) before w = some w₁ → (act o.step f w₁).1.ok = false →
    ∀ p ∈ (backward (comp o.step) before.reverse (act o.step f w₁).2).1, p.2.ok = true

variable {o : SagaOrchestrator ρ W} {w w₁ : W} {before after : List ρ} {f r : ρ}

/-- In a rolled back saga the steps whose action succeeded are the ones
before the failing step. -/
theorem action_mem_rollback_calls (h : forward CallResult.ok (act o.step) before w = some w₁)
    (hf : (act o.step f w₁).1.ok = false) :
    ⟨r, .action, .returned true⟩ ∈ ((failedAt o before f w w₁).rollback o.step before).calls
      ↔ r ∈ before := by
  have hne : (act o.step f w₁).1 ≠ .returned true := CallResult.ne_of_not_ok hf
  rw [rollback_calls h]
  simp [hne.symm]

theorem compensation_mem_rollback_calls
    (h : forward CallResult.ok (act o.step) before w = some w₁) {result : CallResult} :
    ⟨r, .compensation, result⟩ ∈ ((failedAt o before f w w₁).rollback o.step before).calls
      ↔ (r, result) ∈ (backward (comp o.step) before.reverse (act o.step f w₁).2).1 := by
  rw [rollback_calls h]
  simp

/-- **Exactly when a compensated saga is restored.** -/
theorem restored_iff_compensationsSucceed (o : SagaOrchestrator ρ W) (w : W) :
    Restored o w ↔ CompensationsSucceed o w := by
  constructor
  · intro hres before f after w₁ hsteps h hf p hp
    rw [Restored, execute_of_failure hsteps h hf] at hres
    have hmem : p.1 ∈ before := by
      have := List.mem_map_of_mem (f := Prod.fst) hp
      simpa using this
    have hcall := (compensation_mem_rollback_calls h).mpr hp
    exact CallResult.ok_iff.mpr
      ((hres rfl p.1 ((action_mem_rollback_calls h hf).mpr hmem)).2.2 _ hcall rfl rfl)
  · intro hcond
    rcases forward_cases CallResult.ok (act o.step) o.steps w with
      ⟨w', hall⟩ | ⟨before, f, after, w₁, hsteps, h, hf⟩
    · rw [Restored, execute_of_forward hall]
      exact fun hstatus => nomatch hstatus
    · have hok := hcond before f after w₁ hsteps h hf
      rw [Restored, execute_of_failure hsteps h hf]
      intro _ r hr
      have hmem := (action_mem_rollback_calls h hf).mp hr
      refine ⟨?_, ?_, ?_⟩
      · rw [← failedAt_world (f := f) h] at hok
        exact undoAll_status_of_forall (List.mem_reverse.mpr hmem) fun p hp _ => hok p hp
      · have hfst : r ∈ (backward (comp o.step) before.reverse (act o.step f w₁).2).1.map
            Prod.fst := by simpa using hmem
        obtain ⟨p, hp, rfl⟩ := List.mem_map.mp hfst
        rw [compensation_mem_rollback_calls h, ← CallResult.ok_iff.mp (hok p hp)]
        exact hp
      · rintro ⟨q, kind, result⟩ hc rfl rfl
        exact CallResult.ok_iff.mp (hok _ ((compensation_mem_rollback_calls h).mp hc))

/-- The transfer of the source's failure test, with a refund that
returns false. -/
def failingRefund : SagaOrchestrator Bool Unit where
  ctx := { sagaId := "saga-1", txnId := "txn-102" }
  step
    | false => ⟨"DEBIT_SENDER", fun w => (.returned true, w), fun w => (.returned false, w)⟩
    | true => ⟨"CREDIT_RECEIVER", fun w => (.returned false, w), fun w => (.returned true, w)⟩
  state := fun _ => {}
  steps := [false, true]

/-- The sender stays debited under a status that says the states were
restored. -/
theorem not_restored_failingRefund :
    (failingRefund.execute ()).2.ctx.status = .compensatedFailed ∧
    ((failingRefund.execute ()).2.ctx.eventsLog.getLast?.map (·.details))
      = some "Compensating rollbacks completed; account states restored." ∧
    ((failingRefund.execute ()).2.state false).status = .compensationError ∧
    ¬ Restored failingRefund () := by
  refine ⟨by decide +kernel, by decide +kernel, by decide +kernel, fun h => ?_⟩
  have hcomp := (h (by decide +kernel) false (by decide +kernel)).1
  exact absurd hcomp (by decide +kernel)

end Httpe.Saga
