/-
Httpe.Saga.Undo — the rollback is an exact undo.

`ExactUndo` is what a well behaved step promises: an action that does not
return true leaves the world as it was, and after one that does the
compensation returns true and gives back the world the action started
from. Nothing is asked of two different steps, so their actions need not
commute; what restores the world is that `execute` compensates the
successful prefix only, each step once, in reverse.
-/
import Httpe.Saga.Passes

namespace Httpe.Saga

open Compensation

variable {ρ W : Type*} [DecidableEq ρ]

/-- The step's compensation is the inverse of its action. -/
structure ExactUndo (s : SagaStep W) : Prop where
  unchanged : ∀ w, (s.action w).1 ≠ .returned true → (s.action w).2 = w
  undone : ∀ w, (s.action w).1 = .returned true →
    s.compensation (s.action w).2 = (.returned true, w)

variable {o : SagaOrchestrator ρ W} {w w₁ : W} {before after : List ρ} {f : ρ}

/-- A failing step that changed nothing and exact inverses before it:
the rollback ends where the saga began. -/
theorem rollback_world_of_exactUndo (hundo : ∀ r ∈ before, ExactUndo (o.step r))
    (hfail : ExactUndo (o.step f)) (h : forward CallResult.ok (act o.step) before w = some w₁)
    (hf : (act o.step f w₁).1.ok = false) :
    ((failedAt o before f w w₁).rollback o.step before).world = w := by
  have hsame : (act o.step f w₁).2 = w₁ := hfail.unchanged w₁ (CallResult.ne_of_not_ok hf)
  have hback : ∀ r ∈ before, ∀ v, (act o.step r v).1.ok = true →
      (comp o.step r (act o.step r v).2).2 = v := by
    intro r hr v hv
    have hcomp : comp o.step r (act o.step r v).2 = (.returned true, v) :=
      (hundo r hr).undone v (CallResult.ok_iff.mp hv)
    rw [hcomp]
  rw [rollback_world h, hsame]
  exact backward_undo hback h

/-- **Rollback is an exact undo.** If every step's compensation is the
inverse of its action, a saga that returns false leaves the world it
started from, and one that returns true the composition of its actions
in list order. -/
theorem execute_world_of_exactUndo (o : SagaOrchestrator ρ W) (w : W)
    (hundo : ∀ r ∈ o.steps, ExactUndo (o.step r)) :
    ((o.execute w).1 = false → (o.execute w).2.world = w) ∧
    ((o.execute w).1 = true →
      (o.execute w).2.world = o.steps.foldl (fun v r => ((o.step r).action v).2) w) := by
  rcases forward_cases CallResult.ok (act o.step) o.steps w with
    ⟨w', hall⟩ | ⟨before, f, after, w₁, hsteps, h, hf⟩
  · rw [execute_of_forward hall]
    refine ⟨fun hfalse => absurd hfalse (by simp), fun _ => ?_⟩
    have hworld : (completeAll o.step o.steps 0 (o.begin w)).sagaCompleted.world = w' :=
      completeAll_world (w := w') hall
    rw [hworld]
    exact forward_eq_foldl hall
  · rw [execute_of_failure hsteps h hf]
    refine ⟨fun _ => ?_, fun htrue => absurd htrue (by simp)⟩
    exact rollback_world_of_exactUndo (fun r hr => hundo r (by simp [hsteps, hr]))
      (hundo f (by simp [hsteps])) h hf

/-- Two actions that do not commute, add 3 and double, and a last one
that raises or returns false. The world is the number. -/
def addThenDouble (failure : CallResult) : SagaOrchestrator (Fin 3) ℤ where
  ctx := { sagaId := "saga-1", txnId := "txn-102" }
  step
    | 0 => ⟨"ADD", fun w => (.returned true, w + 3), fun w => (.returned true, w - 3)⟩
    | 1 => ⟨"DOUBLE", fun w => (.returned true, 2 * w), fun w => (.returned true, w / 2)⟩
    | 2 => ⟨"LAST", fun w => (failure, w), fun w => (.returned true, w)⟩
  state := fun _ => {}
  steps := [0, 1, 2]

theorem addThenDouble_exactUndo (failure : CallResult) (r : Fin 3) :
    ExactUndo ((addThenDouble failure).step r) := by
  match r with
  | 0 => exact ⟨fun w h => absurd rfl h, fun w _ => by simp [addThenDouble]⟩
  | 1 => exact ⟨fun w h => absurd rfl h, fun w _ => by simp [addThenDouble]⟩
  | 2 => exact ⟨fun w _ => rfl, fun w _ => rfl⟩

theorem execute_world_of_exactUndo_addThenDouble :
    ((addThenDouble (.raised "timeout")).execute 5).2.world = 5 ∧
    ((addThenDouble (.returned false)).execute 5).2.world = 5 ∧
    ((addThenDouble (.returned true)).execute 5).2.world = 16 :=
  ⟨(execute_world_of_exactUndo (addThenDouble (.raised "timeout")) 5
      fun r _ => addThenDouble_exactUndo _ r).1 (by decide +kernel),
    (execute_world_of_exactUndo (addThenDouble (.returned false)) 5
      fun r _ => addThenDouble_exactUndo _ r).1 (by decide +kernel),
    (execute_world_of_exactUndo (addThenDouble (.returned true)) 5
      fun r _ => addThenDouble_exactUndo _ r).2 (by decide +kernel)⟩

end Httpe.Saga
