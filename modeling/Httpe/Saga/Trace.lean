/-
Httpe.Saga.Trace — everything one `execute` leaves behind.

For distinct fresh steps and a fresh context the answers of the calls
decide it all: which calls are made and in which order, the result, the
context's status, the status of every step, the events log.

`LogInv` is what the forward pass keeps of the log: it is a path from
PENDING to the context's status, and its event types are those of the
steps executed so far. Compensations record nothing, so the backward
pass cannot disturb it.
-/
import Httpe.Saga.Passes
import Mathlib.Data.List.Nodup

namespace Httpe.Saga

open Compensation

variable {ρ W : Type*}

/-- The events lead from one state to the other without a gap. -/
def Connected : SagaState → List SagaEvent → SagaState → Prop
  | source, [], target => source = target
  | source, e :: log, target => e.fromState = source ∧ Connected e.toState log target

theorem Connected.snoc : ∀ {source target : SagaState} {log : List SagaEvent} {e : SagaEvent},
    Connected source log target → e.fromState = target → Connected source (log ++ [e]) e.toState
  | _, _, [], _, h, he => ⟨he.trans h.symm, rfl⟩
  | _, _, _ :: _, _, h, he => ⟨h.1, h.2.snoc he⟩

def eventTypes (ctx : P2PTransferContext) : List String := ctx.eventsLog.map (·.eventType)

def isStepCompleted (eventType : String) : Bool :=
  "STEP_COMPLETED_".toList.isPrefixOf eventType.toList

/-- The type of the event a step's success records. -/
def stepCompletedType (step : ρ → SagaStep W) (r : ρ) : String :=
  "STEP_COMPLETED_" ++ (step r).name

theorem isStepCompleted_stepCompletedType (step : ρ → SagaStep W) (r : ρ) :
    isStepCompleted (stepCompletedType step r) = true :=
  List.isPrefixOf_iff_prefix.mpr ⟨(step r).name.toList, String.toList_append.symm⟩

/-- Of the events of a log only those of the executed steps are of the
STEP_COMPLETED kind. -/
theorem filter_stepCompletedType (step : ρ → SagaStep W) (executed : List ρ) :
    (executed.map (stepCompletedType step)).filter isStepCompleted
      = executed.map (stepCompletedType step) := by
  rw [List.filter_eq_self]
  intro eventType h
  obtain ⟨r, -, rfl⟩ := List.mem_map.mp h
  exact isStepCompleted_stepCompletedType step r

/-- What a log holds in the end: a path to the context's status, and one
STEP_COMPLETED event for each step executed, in order. -/
structure LogOf (step : ρ → SagaStep W) (executed : List ρ) (ending : List String)
    (ctx : P2PTransferContext) : Prop where
  connected : Connected .pending ctx.eventsLog ctx.status
  types : eventTypes ctx = "SAGA_STARTED" :: executed.map (stepCompletedType step) ++ ending
  completed : (eventTypes ctx).filter isStepCompleted = executed.map (stepCompletedType step)

theorem filter_of_types {step : ρ → SagaStep W} {executed : List ρ} {ending : List String}
    {ctx : P2PTransferContext}
    (h : eventTypes ctx = "SAGA_STARTED" :: executed.map (stepCompletedType step) ++ ending)
    (hending : ending.filter isStepCompleted = []) :
    (eventTypes ctx).filter isStepCompleted = executed.map (stepCompletedType step) := by
  have hstarted : isStepCompleted "SAGA_STARTED" = false := rfl
  rw [h, List.filter_append, hending, List.append_nil, List.filter_cons_of_neg (by simp [hstarted]),
    filter_stepCompletedType]

/-! ## The log along the forward pass -/

structure LogInv (step : ρ → SagaStep W) (executed : List ρ) (ctx : P2PTransferContext) : Prop where
  connected : Connected .pending ctx.eventsLog ctx.status
  types : eventTypes ctx = "SAGA_STARTED" :: executed.map (stepCompletedType step)

section Record

variable {x : Execution ρ W} {target : SagaState} {eventType details : String}

/-- An event that starts at the context's status prolongs the path. -/
theorem connected_recordEvent (h : Connected .pending x.ctx.eventsLog x.ctx.status) :
    Connected .pending (x.recordEvent x.ctx.status target eventType details).ctx.eventsLog
      (x.recordEvent x.ctx.status target eventType details).ctx.status :=
  h.snoc rfl

theorem eventTypes_recordEvent {source : SagaState} :
    eventTypes (x.recordEvent source target eventType details).ctx
      = eventTypes x.ctx ++ [eventType] :=
  List.map_append

end Record

theorem LogInv.begin {o : SagaOrchestrator ρ W} {w : W} (hlog : o.ctx.eventsLog = []) :
    LogInv o.step [] (o.begin w).ctx := by
  have hbegin : (o.begin w).ctx.eventsLog = [] ++ [_] :=
    congrArg (· ++ [_]) hlog
  constructor
  · rw [hbegin]
    exact ⟨rfl, rfl⟩
  · rw [eventTypes, hbegin]
    rfl

variable [DecidableEq ρ] {step : ρ → SagaStep W} {x : Execution ρ W} {r : ρ}

theorem LogInv.stepCompleted {executed : List ρ} (h : LogInv step executed x.ctx) (k : ℕ) :
    LogInv step (executed ++ [r]) (x.stepCompleted step r k).ctx := by
  constructor
  · exact connected_recordEvent (x := x.setStatus r .success) h.connected
  · rw [Execution.stepCompleted, eventTypes_recordEvent, List.map_append]
    exact congrArg (· ++ [stepCompletedType step r]) h.types

theorem LogInv.completeAll : ∀ {l executed : List ρ} {k : ℕ} {x : Execution ρ W},
    LogInv step executed x.ctx → LogInv step (executed ++ l) (completeAll step l k x).ctx
  | [], executed, _, _, h => by rw [List.append_nil]; exact h
  | r :: l, executed, k, x, h => by
      have hr : LogInv step (executed ++ [r])
          ((x.callAction step r).2.stepCompleted step r (k + 1)).ctx :=
        LogInv.stepCompleted (x := (x.callAction step r).2) h (k + 1)
      have hl := hr.completeAll (l := l) (k := k + 1)
      rw [List.append_assoc] at hl
      exact hl

/-! ## The log at the end -/

theorem compensate_ctx : (x.compensate step r).ctx = x.ctx := by
  rcases hc : (step r).compensation x.world with ⟨(_ | _) | e, w⟩ <;>
    simp [Execution.compensate, Execution.callCompensation, hc, Execution.setStatus,
      Execution.setErrorMessage]

theorem undoAll_ctx : ∀ {l : List ρ} {x : Execution ρ W}, (undoAll step l x).ctx = x.ctx
  | [], _ => rfl
  | r :: l, x => by
      rw [undoAll, List.foldl_cons, ← undoAll, undoAll_ctx, compensate_ctx]

variable {o : SagaOrchestrator ρ W} {w w₁ : W} {before after : List ρ} {f : ρ}

theorem sagaCompleted_log (hlog : o.ctx.eventsLog = []) :
    LogOf o.step o.steps ["SAGA_COMPLETED"]
      (completeAll o.step o.steps 0 (o.begin w)).sagaCompleted.ctx := by
  have hinv := (LogInv.begin (w := w) hlog).completeAll (l := o.steps) (k := 0)
  rw [List.nil_append] at hinv
  have htypes : eventTypes (completeAll o.step o.steps 0 (o.begin w)).sagaCompleted.ctx
      = "SAGA_STARTED" :: o.steps.map (stepCompletedType o.step) ++ ["SAGA_COMPLETED"] := by
    rw [Execution.sagaCompleted, eventTypes_recordEvent, hinv.types]
  constructor
  · exact connected_recordEvent hinv.connected
  · exact htypes
  · exact filter_of_types htypes rfl

/-- The rollback starts at COMPENSATING, where the failed step left the
context. -/
theorem rollback_log (hlog : o.ctx.eventsLog = []) :
    LogOf o.step before ["COMPENSATION_TRIGGERED", "SAGA_COMPENSATED"]
      ((failedAt o before f w w₁).rollback o.step before).ctx := by
  have hinv := (LogInv.begin (w := w) hlog).completeAll (l := before) (k := 0)
  rw [List.nil_append] at hinv
  have hfailed : Connected .pending (failedAt o before f w w₁).ctx.eventsLog .compensating :=
    Connected.snoc hinv.connected rfl
  have hctx : (undoAll o.step before.reverse (failedAt o before f w w₁)).ctx
      = (failedAt o before f w w₁).ctx := undoAll_ctx
  have htypes : eventTypes ((failedAt o before f w w₁).rollback o.step before).ctx
      = "SAGA_STARTED" :: before.map (stepCompletedType o.step) ++
        ["COMPENSATION_TRIGGERED", "SAGA_COMPENSATED"] := by
    have hfailed : eventTypes (failedAt o before f w w₁).ctx
        = eventTypes (completeAll o.step before 0 (o.begin w)).ctx ++ ["COMPENSATION_TRIGGERED"] :=
      eventTypes_recordEvent
    rw [Execution.rollback, eventTypes_recordEvent, ← undoAll, hctx, hfailed, hinv.types,
      List.append_assoc]
    rfl
  constructor
  · rw [← hctx] at hfailed
    exact hfailed.snoc rfl
  · exact htypes
  · exact filter_of_types htypes rfl

/-- Distinct steps nobody has touched, and a context nobody has. -/
structure SagaOrchestrator.Fresh (o : SagaOrchestrator ρ W) : Prop where
  nodup : o.steps.Nodup
  notStarted : ∀ r ∈ o.steps, o.state r = {}
  pending : o.ctx.status = .pending
  noEvents : o.ctx.eventsLog = []

/-- **The exact trace of one `execute`.** For distinct fresh steps and a
fresh context, either every action succeeds or there is a first step `f`
whose action does not, and that decides the calls in order, the result,
the context's status, each step's status and the log. -/
theorem execute_exact_trace (hfresh : o.Fresh) :
    let result := o.execute w
    ((∃ w₁, forward CallResult.ok (act o.step) o.steps w = some w₁) ∨
      ∃ before f after w₁, o.steps = before ++ f :: after ∧
        forward CallResult.ok (act o.step) before w = some w₁ ∧
        (act o.step f w₁).1.ok = false) ∧
    (∀ w₁, forward CallResult.ok (act o.step) o.steps w = some w₁ →
      result.1 = true ∧ result.2.ctx.status = .completed ∧
      result.2.calls = o.steps.map (fun r => ⟨r, .action, .returned true⟩) ∧
      (∀ r ∈ o.steps, (result.2.state r).status = .success) ∧
      LogOf o.step o.steps ["SAGA_COMPLETED"] result.2.ctx) ∧
    (∀ before f after w₁, o.steps = before ++ f :: after →
      forward CallResult.ok (act o.step) before w = some w₁ →
      (act o.step f w₁).1.ok = false →
      let answers := (backward (comp o.step) before.reverse (act o.step f w₁).2).1
      result.1 = false ∧ result.2.ctx.status = .compensatedFailed ∧
      result.2.calls = before.map (fun r => ⟨r, .action, .returned true⟩) ++
        [⟨f, .action, (act o.step f w₁).1⟩] ++
        answers.map (fun p => ⟨p.1, .compensation, p.2⟩) ∧
      answers.map Prod.fst = before.reverse ∧
      (result.2.state f).status = .failed ∧
      (∀ p ∈ answers, (result.2.state p.1).status
        = if p.2.ok then .compensated else .compensationError) ∧
      (∀ r ∈ after, (result.2.state r).status = .notStarted) ∧
      LogOf o.step before ["COMPENSATION_TRIGGERED", "SAGA_COMPENSATED"] result.2.ctx) := by
  intro result
  refine ⟨forward_cases _ _ _ _, ?_, ?_⟩
  · intro w₁ hall
    have hresult : result = _ := execute_of_forward hall
    rw [hresult]
    refine ⟨rfl, rfl, ?_, ?_, sagaCompleted_log hfresh.noEvents⟩
    · exact completeAll_calls (w := w₁) hall
    · exact fun r hr => completeAll_status_of_mem hr
  · intro before f after w₁ hsteps hbefore hf answers
    have hresult : result = _ := execute_of_failure hsteps hbefore hf
    have hnodup := hfresh.nodup
    have hnotStarted := hfresh.notStarted
    rw [hsteps] at hnodup hnotStarted
    obtain ⟨hndBefore, hndAfter, hdisjoint⟩ := List.nodup_append.mp hnodup
    obtain ⟨hfAfter, -⟩ := List.nodup_cons.mp hndAfter
    rw [hresult]
    refine ⟨rfl, rfl, rollback_calls hbefore, backward_map_fst .., ?_, ?_, ?_,
      rollback_log hfresh.noEvents⟩
    · rw [rollback_status_of_notMem fun hmem => hdisjoint f hmem f (by simp) rfl, if_pos rfl]
    · intro p hp
      have hanswers : p ∈ (backward (comp o.step) before.reverse
          (failedAt o before f w w₁).world).1 := by
        rw [failedAt_world hbefore]
        exact hp
      exact undoAll_status_of_mem (List.nodup_reverse.mpr hndBefore) p hanswers
    · intro r hr
      have hne : r ≠ f := fun heq => hfAfter (heq ▸ hr)
      rw [rollback_status_of_notMem fun hmem => hdisjoint r hmem r (by simp [hr]) rfl, if_neg hne,
        hnotStarted r (by simp [hr])]

/-- Two steps succeed and the third raises; the first step's compensation
raises too. -/
def settleTransfer : SagaOrchestrator (Fin 4) Unit where
  ctx := { sagaId := "saga-2", txnId := "txn-102" }
  step
    | 0 => ⟨"DEBIT_SENDER", fun w => (.returned true, w), fun w => (.raised "timeout", w)⟩
    | 1 => ⟨"CREDIT_RECEIVER", fun w => (.returned true, w), fun w => (.returned true, w)⟩
    | 2 => ⟨"SETTLE", fun w => (.raised "shard 3 down", w), fun w => (.returned true, w)⟩
    | 3 => ⟨"NOTIFY", fun w => (.returned true, w), fun w => (.returned true, w)⟩
  state := fun _ => {}
  steps := [0, 1, 2, 3]

theorem execute_exact_trace_settleTransfer :
    let result := settleTransfer.execute ()
    result.2.calls = [⟨0, .action, .returned true⟩, ⟨1, .action, .returned true⟩,
      ⟨2, .action, .raised "shard 3 down"⟩, ⟨1, .compensation, .returned true⟩,
      ⟨0, .compensation, .raised "timeout"⟩] ∧
    (result.2.state 3).status = .notStarted ∧
    (eventTypes result.2.ctx).filter isStepCompleted
      = ["STEP_COMPLETED_DEBIT_SENDER", "STEP_COMPLETED_CREDIT_RECEIVER"] := by
  intro result
  have hfresh : settleTransfer.Fresh := ⟨by decide, fun _ _ => rfl, rfl, rfl⟩
  have hfailure := (execute_exact_trace (w := ()) hfresh).2.2 [0, 1] 2 [3] () rfl rfl rfl
  exact ⟨hfailure.2.2.1, hfailure.2.2.2.2.2.2.1 3 (by simp), hfailure.2.2.2.2.2.2.2.completed⟩

end Httpe.Saga
