/-
Httpe.Saga.Passes — `execute` is a forward pass and, if a step fails, a
backward pass over the steps that succeeded.

`execute_of_forward` and `execute_of_failure` are the two equations; no
later proof looks inside the loops. `completeAll` and `undoAll` are the
executions the two passes build, and for each there is one lemma per
thing observed of it: the world, the calls, the context, the step
states.
-/
import Httpe.Lib.Compensation
import Httpe.Saga.Orchestrator

namespace Httpe.Saga

open Compensation

variable {ρ W : Type*} {step : ρ → SagaStep W} {x : Execution ρ W} {r q : ρ}

/-- The world-level effect of a step's action. -/
def act (step : ρ → SagaStep W) (r : ρ) : W → CallResult × W := (step r).action

/-- The world-level effect of a step's compensation. -/
def comp (step : ρ → SagaStep W) (r : ρ) : W → CallResult × W := (step r).compensation

/-- The error text a failing action leaves: its exception's, or the one
the loop raises for it. -/
def errorText (step : ρ → SagaStep W) (r : ρ) : CallResult → String
  | .returned _ => s!"Action failed for step: {(step r).name}"
  | .raised e => e

/-- The status a compensation's answer gives its step. -/
def compensationStatus (result : CallResult) : StepStatus :=
  if result.ok then .compensated else .compensationError

/-! ## One step -/

theorem callAction_fst : (x.callAction step r).1 = (act step r x.world).1 := rfl
@[simp] theorem callAction_world : (x.callAction step r).2.world = (act step r x.world).2 := rfl
@[simp] theorem callAction_calls : (x.callAction step r).2.calls
    = x.calls ++ [⟨r, .action, (act step r x.world).1⟩] := rfl
@[simp] theorem callAction_state : (x.callAction step r).2.state = x.state := rfl

variable [DecidableEq ρ]

theorem setStatus_status {st : StepStatus} :
    ((x.setStatus r st).state q).status = if q = r then st else (x.state q).status := by
  by_cases h : q = r
  · subst h; simp [Execution.setStatus]
  · simp [Execution.setStatus, h]

@[simp] theorem setErrorMessage_status {message : String} :
    ((x.setErrorMessage r message).state q).status = (x.state q).status := by
  by_cases h : q = r
  · subst h; simp [Execution.setErrorMessage]
  · simp [Execution.setErrorMessage, h]

@[simp] theorem stepCompleted_calls {k : ℕ} : (x.stepCompleted step r k).calls = x.calls := rfl
@[simp] theorem stepFailed_world {e : String} : (x.stepFailed step r e).world = x.world := rfl
@[simp] theorem stepFailed_calls {e : String} : (x.stepFailed step r e).calls = x.calls := rfl

theorem stepCompleted_status {k : ℕ} : ((x.stepCompleted step r k).state q).status
    = if q = r then .success else (x.state q).status :=
  setStatus_status

theorem stepFailed_status {e : String} : ((x.stepFailed step r e).state q).status
    = if q = r then .failed else (x.state q).status := by
  simp only [Execution.stepFailed, Execution.recordEvent, setErrorMessage_status,
    setStatus_status]

theorem compensate_world : (x.compensate step r).world = (comp step r x.world).2 := by
  rcases hc : (step r).compensation x.world with ⟨(_ | _) | e, w⟩ <;>
    simp [Execution.compensate, Execution.callCompensation, comp, hc, Execution.setStatus,
      Execution.setErrorMessage]

theorem compensate_calls : (x.compensate step r).calls
    = x.calls ++ [⟨r, .compensation, (comp step r x.world).1⟩] := by
  rcases hc : (step r).compensation x.world with ⟨(_ | _) | e, w⟩ <;>
    simp [Execution.compensate, Execution.callCompensation, comp, hc, Execution.setStatus,
      Execution.setErrorMessage]

theorem compensate_status : ((x.compensate step r).state q).status
    = if q = r then compensationStatus (comp step r x.world).1 else (x.state q).status := by
  rcases hc : (step r).compensation x.world with ⟨(_ | _) | e, w⟩ <;>
    simp [Execution.compensate, Execution.callCompensation, comp, hc, setStatus_status,
      compensationStatus, CallResult.ok]

/-! ## The backward pass -/

/-- The execution after the compensations of `l`, in order. -/
def undoAll (step : ρ → SagaStep W) (l : List ρ) (x : Execution ρ W) : Execution ρ W :=
  l.foldl (Execution.compensate step) x

section Undo

variable {l : List ρ}

theorem undoAll_world : ∀ {l : List ρ} {x : Execution ρ W},
    (undoAll step l x).world = (backward (comp step) l x.world).2
  | [], _ => rfl
  | r :: l, x => by
      rw [undoAll, List.foldl_cons, ← undoAll, undoAll_world, compensate_world]
      rfl

theorem undoAll_calls : ∀ {l : List ρ} {x : Execution ρ W},
    (undoAll step l x).calls = x.calls ++
      (backward (comp step) l x.world).1.map fun p => ⟨p.1, .compensation, p.2⟩
  | [], x => by simp [undoAll, backward]
  | r :: l, x => by
      rw [undoAll, List.foldl_cons, ← undoAll, undoAll_calls, compensate_world, compensate_calls]
      simp [backward]

theorem undoAll_status_of_notMem : ∀ {l : List ρ} {x : Execution ρ W}, q ∉ l →
    ((undoAll step l x).state q).status = (x.state q).status
  | [], _, _ => rfl
  | r :: l, x, h => by
      rw [undoAll, List.foldl_cons, ← undoAll,
        undoAll_status_of_notMem (List.not_mem_of_not_mem_cons h), compensate_status,
        if_neg (List.ne_of_not_mem_cons h)]

/-- A step all of whose compensations returned true ends up compensated. -/
theorem undoAll_status_of_forall : ∀ {l : List ρ} {x : Execution ρ W}, q ∈ l →
    (∀ p ∈ (backward (comp step) l x.world).1, p.1 = q → p.2.ok = true) →
    ((undoAll step l x).state q).status = .compensated
  | [], _, h, _ => absurd h List.not_mem_nil
  | r :: l, x, h, hall => by
      rw [undoAll, List.foldl_cons, ← undoAll]
      by_cases hq : q ∈ l
      · refine undoAll_status_of_forall hq fun p hp => hall p ?_
        rw [compensate_world] at hp
        exact List.mem_cons_of_mem _ hp
      · obtain rfl : q = r := (List.mem_cons.mp h).resolve_right hq
        have hok : (comp step q x.world).1.ok = true :=
          hall (q, (comp step q x.world).1) (by simp [backward]) rfl
        rw [undoAll_status_of_notMem hq, compensate_status, if_pos rfl, compensationStatus, hok,
          if_pos rfl]

/-- With distinct steps, each one's status is what its own compensation
answered. -/
theorem undoAll_status_of_mem : ∀ {l : List ρ} {x : Execution ρ W}, l.Nodup →
    ∀ p ∈ (backward (comp step) l x.world).1,
      ((undoAll step l x).state p.1).status = compensationStatus p.2
  | [], _, _, p, hp => by simp [backward] at hp
  | r :: l, x, hnd, p, hp => by
      obtain ⟨hr, hnd⟩ := List.nodup_cons.mp hnd
      rw [undoAll, List.foldl_cons, ← undoAll]
      rcases List.mem_cons.mp hp with rfl | hp
      · rw [undoAll_status_of_notMem hr, compensate_status, if_pos rfl]
      · exact undoAll_status_of_mem hnd p (by rwa [compensate_world])

end Undo

/-! ## The forward pass -/

/-- The execution after the actions of `l` all succeeded, when `k` steps
had been executed before them. -/
def completeAll (step : ρ → SagaStep W) : List ρ → ℕ → Execution ρ W → Execution ρ W
  | [], _, x => x
  | r :: rest, k, x =>
      completeAll step rest (k + 1) ((x.callAction step r).2.stepCompleted step r (k + 1))

theorem completeAll_world : ∀ {l : List ρ} {k : ℕ} {x : Execution ρ W} {w : W},
    forward CallResult.ok (act step) l x.world = some w → (completeAll step l k x).world = w
  | [], _, _, _, h => by cases h; rfl
  | r :: l, k, x, w, h => by
      rw [completeAll, completeAll_world (w := w)]
      exact (forward_cons_eq_some h).2

theorem completeAll_calls : ∀ {l : List ρ} {k : ℕ} {x : Execution ρ W} {w : W},
    forward CallResult.ok (act step) l x.world = some w →
    (completeAll step l k x).calls = x.calls ++ l.map fun r => ⟨r, .action, .returned true⟩
  | [], _, _, _, _ => by simp [completeAll]
  | r :: l, k, x, w, h => by
      obtain ⟨hok, htail⟩ := forward_cons_eq_some h
      rw [completeAll, completeAll_calls (w := w) htail]
      simp [CallResult.ok_iff.mp hok]

theorem completeAll_status_of_notMem : ∀ {l : List ρ} {k : ℕ} {x : Execution ρ W}, q ∉ l →
    ((completeAll step l k x).state q).status = (x.state q).status
  | [], _, _, _ => rfl
  | r :: l, k, x, h => by
      rw [completeAll, completeAll_status_of_notMem (List.not_mem_of_not_mem_cons h),
        stepCompleted_status, if_neg (List.ne_of_not_mem_cons h)]
      rfl

theorem completeAll_status_of_mem : ∀ {l : List ρ} {k : ℕ} {x : Execution ρ W}, q ∈ l →
    ((completeAll step l k x).state q).status = .success
  | [], _, _, h => absurd h List.not_mem_nil
  | r :: l, k, x, h => by
      rw [completeAll]
      by_cases hq : q ∈ l
      · exact completeAll_status_of_mem hq
      · rw [completeAll_status_of_notMem hq, stepCompleted_status,
          if_pos ((List.mem_cons.mp h).resolve_right hq)]

/-! ## The loop of `execute` -/

theorem runSteps_cons_of_ok {rest executed : List ρ} (h : (act step r x.world).1.ok = true) :
    Execution.runSteps step (r :: rest) executed x
      = Execution.runSteps step rest (executed ++ [r])
          ((x.callAction step r).2.stepCompleted step r (executed.length + 1)) := by
  have hres : ((step r).action x.world).1 = .returned true := CallResult.ok_iff.mp h
  simp [Execution.runSteps, Execution.callAction, hres]

theorem runSteps_cons_of_not_ok {rest executed : List ρ}
    (h : (act step r x.world).1.ok = false) :
    Execution.runSteps step (r :: rest) executed x
      = (false, Execution.rollback step ((x.callAction step r).2.stepFailed step r
          (errorText step r (act step r x.world).1)) executed) := by
  rw [Execution.runSteps, ← callAction_fst] at *
  generalize x.callAction step r = call at h ⊢
  obtain ⟨result, y⟩ := call
  rcases result with (_ | _) | e
  · rfl
  · cases h
  · rfl

theorem runSteps_of_forward {l executed : List ρ} {w : W}
    (h : forward CallResult.ok (act step) l x.world = some w) :
    Execution.runSteps step l executed x
      = (true, (completeAll step l executed.length x).sagaCompleted) := by
  induction l generalizing executed x with
  | nil => rfl
  | cons r l ih =>
      obtain ⟨hok, htail⟩ := forward_cons_eq_some h
      rw [runSteps_cons_of_ok hok, ih htail, completeAll, List.length_append,
        List.length_singleton]

theorem runSteps_of_failure {before executed after : List ρ} {f : ρ} {w₁ : W}
    (h : forward CallResult.ok (act step) before x.world = some w₁)
    (hf : (act step f w₁).1.ok = false) :
    Execution.runSteps step (before ++ f :: after) executed x
      = (false, Execution.rollback step
          (((completeAll step before executed.length x).callAction step f).2.stepFailed step f
            (errorText step f (act step f w₁).1))
          (executed ++ before)) := by
  induction before generalizing executed x with
  | nil =>
      cases h
      rw [List.nil_append, List.append_nil, runSteps_cons_of_not_ok hf, completeAll]
  | cons r before ih =>
      obtain ⟨hok, htail⟩ := forward_cons_eq_some h
      rw [List.cons_append, runSteps_cons_of_ok hok, ih htail, completeAll, List.length_append,
        List.length_singleton, List.append_assoc, List.singleton_append]

/-! ## The two equations of `execute` -/

variable {o : SagaOrchestrator ρ W} {w w₁ : W} {before after : List ρ} {f : ρ}

/-- Every action succeeded. -/
theorem execute_of_forward (h : forward CallResult.ok (act o.step) o.steps w = some w₁) :
    o.execute w = (true, (completeAll o.step o.steps 0 (o.begin w)).sagaCompleted) :=
  runSteps_of_forward (x := o.begin w) h

/-- The execution when step `f` has failed after `before` succeeded,
just before the rollback. -/
def failedAt (o : SagaOrchestrator ρ W) (before : List ρ) (f : ρ) (w w₁ : W) : Execution ρ W :=
  ((completeAll o.step before 0 (o.begin w)).callAction o.step f).2.stepFailed o.step f
    (errorText o.step f (act o.step f w₁).1)

/-- The first step that fails sends the ones before it to the rollback. -/
theorem execute_of_failure (hsteps : o.steps = before ++ f :: after)
    (h : forward CallResult.ok (act o.step) before w = some w₁)
    (hf : (act o.step f w₁).1.ok = false) :
    o.execute w = (false, (failedAt o before f w w₁).rollback o.step before) := by
  rw [SagaOrchestrator.execute, hsteps]
  exact runSteps_of_failure (x := o.begin w) h hf

/-- A step that was not executed keeps its status, the failed one apart. -/
theorem rollback_status_of_notMem (hq : q ∉ before) :
    (((failedAt o before f w w₁).rollback o.step before).state q).status
      = if q = f then .failed else (o.state q).status := by
  show ((undoAll o.step before.reverse (failedAt o before f w w₁)).state q).status = _
  rw [undoAll_status_of_notMem (by simpa using hq), failedAt, stepFailed_status, callAction_state,
    completeAll_status_of_notMem hq]
  rfl

section Failed

variable (h : forward CallResult.ok (act o.step) before w = some w₁)
include h

theorem failedAt_world : (failedAt o before f w w₁).world = (act o.step f w₁).2 := by
  rw [failedAt, stepFailed_world, callAction_world, completeAll_world (w := w₁)]
  exact h

theorem failedAt_calls : (failedAt o before f w w₁).calls
    = (before.map fun r => ⟨r, .action, .returned true⟩) ++
        [⟨f, .action, (act o.step f w₁).1⟩] := by
  rw [failedAt, stepFailed_calls, callAction_calls, completeAll_calls (w := w₁) h,
    completeAll_world (w := w₁) h]
  rfl

theorem rollback_world : ((failedAt o before f w w₁).rollback o.step before).world
    = (backward (comp o.step) before.reverse (act o.step f w₁).2).2 := by
  rw [← failedAt_world h, ← undoAll_world]
  rfl

theorem rollback_calls : ((failedAt o before f w w₁).rollback o.step before).calls
    = (before.map fun r => ⟨r, .action, .returned true⟩) ++
        [⟨f, .action, (act o.step f w₁).1⟩] ++
        (backward (comp o.step) before.reverse (act o.step f w₁).2).1.map fun p =>
          ⟨p.1, .compensation, p.2⟩ := by
  rw [← failedAt_world h, ← failedAt_calls h, ← undoAll_calls]
  rfl

end Failed

end Httpe.Saga
