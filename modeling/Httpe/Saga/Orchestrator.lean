/-
Httpe.Saga.Orchestrator — `SagaOrchestrator` of
`pseudocode/saga-orchestrator.py`.

The actions and compensations are callables with side effects: each is a
function of the world `W` that returns its answer and the world it
leaves, so it may do anything to the world, including letting others
move in between. A call answers true or false, or raises an `Exception`.

Steps are objects, and the same object may be added twice, so a list of
steps is a list of references `ρ`. `SagaStep` holds the attributes the
code never assigns, `StepState` the two it does (`status`,
`error_message`). `executed_at`, the event ids and the timestamps are
written and never read; they are left out.

`Execution` is what `execute` works on: the context, the step states and
the world, and with them the calls made so far, in order, each with its
answer.
-/
import Mathlib.Data.Nat.Notation
import Mathlib.Logic.Function.Basic

namespace Httpe.Saga

inductive SagaState where
  | pending
  | started
  | step1DebitSuccess
  | step2CreditSuccess
  | completed
  | compensating
  | compensatedFailed
  deriving DecidableEq, Repr

inductive StepStatus where
  | notStarted
  | success
  | failed
  | compensated
  | compensationError
  deriving DecidableEq, Repr

/-- How a call of an action or a compensation ends. -/
inductive CallResult where
  | returned (value : Bool)
  | raised (error : String)
  deriving DecidableEq, Repr

/-- The call returned true. -/
def CallResult.ok : CallResult → Bool
  | returned b => b
  | raised _ => false

theorem CallResult.ok_iff {result : CallResult} :
    result.ok = true ↔ result = .returned true := by
  cases result <;> simp [ok]

theorem CallResult.ne_of_not_ok {result : CallResult} (h : result.ok = false) :
    result ≠ .returned true := by
  rintro rfl
  cases h

structure SagaStep (W : Type*) where
  name : String
  action : W → CallResult × W
  compensation : W → CallResult × W

structure StepState where
  status : StepStatus := .notStarted
  errorMessage : Option String := none
  deriving DecidableEq, Repr

structure SagaEvent where
  sagaId : String
  txnId : String
  fromState : SagaState
  toState : SagaState
  eventType : String
  details : String
  deriving DecidableEq, Repr

structure P2PTransferContext where
  sagaId : String
  txnId : String
  status : SagaState := .pending
  eventsLog : List SagaEvent := []
  deriving DecidableEq, Repr

inductive CallKind where
  | action
  | compensation
  deriving DecidableEq, Repr

/-- One call the orchestrator made on a step, and its answer. -/
structure SagaCall (ρ : Type*) where
  step : ρ
  kind : CallKind
  result : CallResult
  deriving DecidableEq

structure SagaOrchestrator (ρ W : Type*) where
  ctx : P2PTransferContext
  step : ρ → SagaStep W
  state : ρ → StepState
  steps : List ρ

structure Execution (ρ W : Type*) where
  ctx : P2PTransferContext
  state : ρ → StepState
  world : W
  calls : List (SagaCall ρ)

variable {ρ W : Type*}

namespace Execution

def recordEvent (x : Execution ρ W) (fromState toState : SagaState)
    (eventType details : String) : Execution ρ W :=
  { x with ctx :=
    { x.ctx with
      status := toState
      eventsLog := x.ctx.eventsLog ++
        [⟨x.ctx.sagaId, x.ctx.txnId, fromState, toState, eventType, details⟩] } }

/-- `step.action()`. -/
def callAction (step : ρ → SagaStep W) (x : Execution ρ W) (r : ρ) :
    CallResult × Execution ρ W :=
  let (result, world) := (step r).action x.world
  (result, { x with world := world, calls := x.calls ++ [⟨r, .action, result⟩] })

/-- `step.compensation()`. -/
def callCompensation (step : ρ → SagaStep W) (x : Execution ρ W) (r : ρ) :
    CallResult × Execution ρ W :=
  let (result, world) := (step r).compensation x.world
  (result, { x with world := world, calls := x.calls ++ [⟨r, .compensation, result⟩] })

variable [DecidableEq ρ]

def setStatus (x : Execution ρ W) (r : ρ) (status : StepStatus) : Execution ρ W :=
  { x with state := Function.update x.state r { x.state r with status := status } }

def setErrorMessage (x : Execution ρ W) (r : ρ) (message : String) : Execution ρ W :=
  { x with state := Function.update x.state r { x.state r with errorMessage := some message } }

/-- The branch of a successful action; `executed` counts it in. -/
def stepCompleted (step : ρ → SagaStep W) (x : Execution ρ W) (r : ρ) (executed : ℕ) :
    Execution ρ W :=
  let x := x.setStatus r .success
  x.recordEvent x.ctx.status
    (if executed = 1 then .step1DebitSuccess else .step2CreditSuccess)
    s!"STEP_COMPLETED_{(step r).name}" s!"Successfully executed step: {(step r).name}"

/-- The handler of a failed action, up to the rollback. -/
def stepFailed (step : ρ → SagaStep W) (x : Execution ρ W) (r : ρ) (error : String) :
    Execution ρ W :=
  let x := (x.setStatus r .failed).setErrorMessage r error
  x.recordEvent x.ctx.status .compensating "COMPENSATION_TRIGGERED"
    s!"Step '{(step r).name}' failed with error: {error}. Triggering rollback."

/-- The body of the rollback loop. -/
def compensate (step : ρ → SagaStep W) (x : Execution ρ W) (r : ρ) : Execution ρ W :=
  match x.callCompensation step r with
  | (.returned true, x) => x.setStatus r .compensated
  | (.returned false, x) => x.setStatus r .compensationError
  | (.raised e, x) =>
      (x.setStatus r .compensationError).setErrorMessage r s!"Compensation failed: {e}"

def rollback (step : ρ → SagaStep W) (x : Execution ρ W) (executedSteps : List ρ) :
    Execution ρ W :=
  (executedSteps.reverse.foldl (compensate step) x).recordEvent .compensating .compensatedFailed
    "SAGA_COMPENSATED" "Compensating rollbacks completed; account states restored."

def sagaCompleted (x : Execution ρ W) : Execution ρ W :=
  x.recordEvent x.ctx.status .completed "SAGA_COMPLETED" "P2P transfer completed successfully"

/-- The loop of `execute` over the steps still to come. -/
def runSteps (step : ρ → SagaStep W) :
    List ρ → List ρ → Execution ρ W → Bool × Execution ρ W
  | [], _, x => (true, x.sagaCompleted)
  | r :: rest, executedSteps, x =>
      match x.callAction step r with
      | (.returned true, x) =>
          runSteps step rest (executedSteps ++ [r])
            (x.stepCompleted step r (executedSteps.length + 1))
      | (.returned false, x) =>
          (false, (x.stepFailed step r
            s!"Action failed for step: {(step r).name}").rollback step executedSteps)
      | (.raised e, x) => (false, (x.stepFailed step r e).rollback step executedSteps)

end Execution

namespace SagaOrchestrator

/-- What `execute` starts the loop with. -/
def begin (o : SagaOrchestrator ρ W) (w : W) : Execution ρ W :=
  Execution.recordEvent ⟨o.ctx, o.state, w, []⟩ .pending .started "SAGA_STARTED"
    "Starting P2P transfer saga"

def execute [DecidableEq ρ] (o : SagaOrchestrator ρ W) (w : W) : Bool × Execution ρ W :=
  Execution.runSteps o.step o.steps [] (o.begin w)

end SagaOrchestrator

end Httpe.Saga
