/-
Httpe.Saga.Interleaved — any number of sagas over one world.

`execute` as a machine that makes one call of an action or a compensation
per step; what it does between two calls touches only its own context and
steps. `SagaPc` is where it stands. The world is shared: any number of
orchestrators move it in turns.

Alone, the machine computes `execute` (`execute_of_alone`): a step never
changes what the rest of the code will return (`ProcMove.outcome_eq`).
Among others it ends after a bounded number of its own steps.

`ProcMove` lists every step, once; `sagaStep_cases` is what later modules
use of it.
-/
import Httpe.Lib.Run
import Httpe.Saga.Ledger

namespace Httpe.Saga

variable {ι ρ W : Type*}

/-- Where one `execute` stands. -/
inductive SagaPc (ρ : Type*) where
  | idle
  | forward (rest executedSteps : List ρ)
  /-- The compensations still to be called, in order. -/
  | rollback (rest : List ρ)
  | done (result : Bool)
  deriving DecidableEq

/-- What is an orchestrator's own. -/
structure SagaProc (ρ : Type*) where
  pc : SagaPc ρ
  ctx : P2PTransferContext
  state : ρ → StepState
  calls : List (SagaCall ρ)

def SagaProc.inWorld (p : SagaProc ρ) (w : W) : Execution ρ W := ⟨p.ctx, p.state, w, p.calls⟩

def Execution.proc (x : Execution ρ W) (pc : SagaPc ρ) : SagaProc ρ :=
  ⟨pc, x.ctx, x.state, x.calls⟩

def SagaOrchestrator.proc (o : SagaOrchestrator ρ W) : SagaProc ρ := ⟨.idle, o.ctx, o.state, []⟩

namespace Execution

def sagaStarted (x : Execution ρ W) : Execution ρ W :=
  x.recordEvent .pending .started "SAGA_STARTED" "Starting P2P transfer saga"

def sagaCompensated (x : Execution ρ W) : Execution ρ W :=
  x.recordEvent .compensating .compensatedFailed "SAGA_COMPENSATED"
    "Compensating rollbacks completed; account states restored."

end Execution

structure SagaSystem (ι ρ W : Type*) where
  world : W
  proc : ι → SagaProc ρ

def SagaSystem.start (o : ι → SagaOrchestrator ρ W) (w : W) : SagaSystem ι ρ W :=
  ⟨w, fun i => (o i).proc⟩

section Moved

variable [DecidableEq ι] {s : SagaSystem ι ρ W} {i j : ι} {pc : SagaPc ρ} {x : Execution ρ W}

/-- Orchestrator `i` has come to `pc` with execution `x`. -/
def SagaSystem.moved (s : SagaSystem ι ρ W) (i : ι) (pc : SagaPc ρ) (x : Execution ρ W) :
    SagaSystem ι ρ W :=
  ⟨x.world, Function.update s.proc i (x.proc pc)⟩

@[simp] theorem SagaSystem.moved_world : (s.moved i pc x).world = x.world := rfl
@[simp] theorem SagaSystem.moved_proc : (s.moved i pc x).proc i = x.proc pc :=
  Function.update_self ..
@[simp] theorem SagaSystem.moved_proc_of_ne (h : j ≠ i) : (s.moved i pc x).proc j = s.proc j :=
  Function.update_of_ne h ..

end Moved

variable [DecidableEq ρ]

/-- The code of `execute` up to and including its next call. -/
def procStep (o : SagaOrchestrator ρ W) :
    SagaPc ρ → Execution ρ W → Option (SagaPc ρ × Execution ρ W)
  | .idle, x => some (.forward o.steps [], x.sagaStarted)
  | .forward [] _, x => some (.done true, x.sagaCompleted)
  | .forward (r :: rest) executedSteps, x =>
      match x.callAction o.step r with
      | (.returned true, x) => some
          (.forward rest (executedSteps ++ [r]),
            x.stepCompleted o.step r (executedSteps.length + 1))
      | (.returned false, x) => some
          (.rollback executedSteps.reverse,
            x.stepFailed o.step r s!"Action failed for step: {(o.step r).name}")
      | (.raised e, x) => some (.rollback executedSteps.reverse, x.stepFailed o.step r e)
  | .rollback [], x => some (.done false, x.sagaCompensated)
  | .rollback (r :: rest), x => some (.rollback rest, x.compensate o.step r)
  | .done _, _ => none

/-- One step of orchestrator `i`. -/
def sagaStep [DecidableEq ι] (o : ι → SagaOrchestrator ρ W) (s : SagaSystem ι ρ W) (i : ι) :
    Option (SagaSystem ι ρ W) :=
  (procStep (o i) (s.proc i).pc ((s.proc i).inWorld s.world)).map fun (pc, x) => s.moved i pc x

abbrev SagaTransition (ι ρ W : Type*) := Transition (SagaSystem ι ρ W) ι

/-- Two orchestrators that run the same steps and whose calls, made in the
world `w`, come to the same. -/
structure SagaOrchestrator.AgreeAt (o o' : SagaOrchestrator ρ W) (w : W) : Prop where
  steps : o.steps = o'.steps
  name : ∀ r, (o.step r).name = (o'.step r).name
  action : ∀ r, (o.step r).action w = (o'.step r).action w
  compensation : ∀ r, (o.step r).compensation w = (o'.step r).compensation w

theorem procStep_congr {o o' : SagaOrchestrator ρ W} {x : Execution ρ W}
    (h : o.AgreeAt o' x.world) (pc : SagaPc ρ) : procStep o pc x = procStep o' pc x := by
  have hcompleted : ∀ (y : Execution ρ W) r n,
      y.stepCompleted o.step r n = y.stepCompleted o'.step r n := fun y r n => by
    simp only [Execution.stepCompleted, h.name]
  have hfailed : ∀ (y : Execution ρ W) r e,
      y.stepFailed o.step r e = y.stepFailed o'.step r e := fun y r e => by
    simp only [Execution.stepFailed, h.name]
  cases pc with
  | idle => simp only [procStep, h.steps]
  | forward rest executed =>
      cases rest with
      | nil => rfl
      | cons r rest =>
          have hcall : x.callAction o.step r = x.callAction o'.step r := by
            simp only [Execution.callAction, h.action]
          simp only [procStep, hcall, hcompleted, hfailed, h.name]
  | rollback rest =>
      cases rest with
      | nil => rfl
      | cons r rest =>
          have hcall : x.callCompensation o.step r = x.callCompensation o'.step r := by
            simp only [Execution.callCompensation, h.compensation]
          simp only [procStep, Execution.compensate, hcall]
  | done result => rfl

theorem sagaStep_congr [DecidableEq ι] {o o' : ι → SagaOrchestrator ρ W}
    {s : SagaSystem ι ρ W} {i : ι} (h : (o i).AgreeAt (o' i) s.world) :
    sagaStep o s i = sagaStep o' s i := by
  unfold sagaStep
  rw [procStep_congr (x := (s.proc i).inWorld s.world) h]

/-! ## Every step -/

inductive ProcMove (o : SagaOrchestrator ρ W) :
    SagaPc ρ → Execution ρ W → SagaPc ρ → Execution ρ W → Prop
  | started {x : Execution ρ W} : ProcMove o .idle x (.forward o.steps []) x.sagaStarted
  | completed {x : Execution ρ W} {executed : List ρ} :
      ProcMove o (.forward [] executed) x (.done true) x.sagaCompleted
  | acted {x : Execution ρ W} {r : ρ} {rest executed : List ρ}
      (hok : (act o.step r x.world).1.ok = true) :
      ProcMove o (.forward (r :: rest) executed) x (.forward rest (executed ++ [r]))
        ((x.callAction o.step r).2.stepCompleted o.step r (executed.length + 1))
  | failed {x : Execution ρ W} {r : ρ} {rest executed : List ρ}
      (hok : (act o.step r x.world).1.ok = false) :
      ProcMove o (.forward (r :: rest) executed) x (.rollback executed.reverse)
        ((x.callAction o.step r).2.stepFailed o.step r
          (errorText o.step r (act o.step r x.world).1))
  | compensated {x : Execution ρ W} {r : ρ} {rest : List ρ} :
      ProcMove o (.rollback (r :: rest)) x (.rollback rest) (x.compensate o.step r)
  | rolledBack {x : Execution ρ W} : ProcMove o (.rollback []) x (.done false) x.sagaCompensated

variable {o : SagaOrchestrator ρ W} {pc pc' : SagaPc ρ} {x x' : Execution ρ W}

theorem procMove_of_step (h : procStep o pc x = some (pc', x')) : ProcMove o pc x pc' x' := by
  cases pc with
  | idle => cases h; exact .started
  | forward rest executed =>
      cases rest with
      | nil => cases h; exact .completed
      | cons r rest =>
          have hacted : _ → ProcMove o (.forward (r :: rest) executed) x _ _ := .acted
          have hfailed : _ → ProcMove o (.forward (r :: rest) executed) x _ _ := .failed
          rw [← callAction_fst] at hacted hfailed
          simp only [procStep] at h
          generalize x.callAction o.step r = call at h hacted hfailed
          obtain ⟨result, y⟩ := call
          rcases result with (_ | _) | e
          · cases h; exact hfailed rfl
          · cases h; exact hacted rfl
          · cases h; exact hfailed rfl
  | rollback rest =>
      cases rest with
      | nil => cases h; exact .rolledBack
      | cons r rest => cases h; exact .compensated
  | done result => cases h

/-- Only the call of an action or of a compensation moves the world. -/
theorem ProcMove.world_cases (h : ProcMove o pc x pc' x') : x'.world = x.world ∨
    ∃ r, x'.world = (act o.step r x.world).2 ∨ x'.world = (comp o.step r x.world).2 := by
  cases h with
  | started | completed | rolledBack => exact .inl rfl
  | @acted _ r => exact .inr ⟨r, .inl rfl⟩
  | @failed _ r => exact .inr ⟨r, .inl rfl⟩
  | @compensated _ r => exact .inr ⟨r, .inr compensate_world⟩

/-! ## A saga alone -/

/-- What `execute` returns from where it stands. -/
def SagaPc.outcome (o : SagaOrchestrator ρ W) : SagaPc ρ → Execution ρ W → Bool × Execution ρ W
  | idle, x => Execution.runSteps o.step o.steps [] x.sagaStarted
  | forward rest executed, x => Execution.runSteps o.step rest executed x
  | rollback rest, x => (false, (undoAll o.step rest x).sagaCompensated)
  | done result, x => (result, x)

/-- No step changes it. -/
theorem ProcMove.outcome_eq (h : ProcMove o pc x pc' x') : pc'.outcome o x' = pc.outcome o x := by
  cases h with
  | started => rfl
  | completed => rfl
  | acted hok => exact (runSteps_cons_of_ok hok).symm
  | failed hok =>
      rw [SagaPc.outcome, SagaPc.outcome, runSteps_cons_of_not_ok hok]
      rfl
  | compensated => rfl
  | rolledBack => rfl

/-- An upper bound on the steps a saga has left. -/
def SagaPc.stepsLeft (o : SagaOrchestrator ρ W) : SagaPc ρ → ℕ
  | idle => 2 * o.steps.length + 2
  | forward rest executed => 2 * rest.length + executed.length + 1
  | rollback rest => rest.length + 1
  | done _ => 0

theorem ProcMove.stepsLeft_lt (h : ProcMove o pc x pc' x') : pc'.stepsLeft o < pc.stepsLeft o := by
  cases h <;> simp only [SagaPc.stepsLeft, List.length_append, List.length_cons, List.length_nil,
    List.length_reverse] <;> omega

theorem procStep_isSome (h : ∀ result, pc ≠ .done result) : (procStep o pc x).isSome := by
  cases pc with
  | idle => rfl
  | forward rest executed =>
      cases rest with
      | nil => rfl
      | cons r rest => simp only [procStep]; split <;> rfl
  | rollback rest => cases rest <;> rfl
  | done result => exact absurd rfl (h result)

variable [DecidableEq ι] {os : ι → SagaOrchestrator ρ W} {s s' : SagaSystem ι ρ W} {i j : ι}
  {w₀ : W} {tr : List (SagaTransition ι ρ W)}

/-- A step of orchestrator `i` moves it and the world, and no other. -/
theorem sagaStep_cases (h : sagaStep os s i = some s') :
    ∃ pc x, ProcMove (os i) (s.proc i).pc ((s.proc i).inWorld s.world) pc x ∧
      s' = s.moved i pc x := by
  simp only [sagaStep, Option.map_eq_some_iff] at h
  obtain ⟨⟨pc, x⟩, hstep, rfl⟩ := h
  exact ⟨pc, x, procMove_of_step hstep, rfl⟩

/-- What all actions and compensations keep of the world, every run does. -/
theorem world_of_run {P : W → Prop} (h0 : P w₀)
    (hact : ∀ i r w, P w → P (act (os i).step r w).2)
    (hcomp : ∀ i r w, P w → P (comp (os i).step r w).2)
    (hrun : Run (sagaStep os) (.start os w₀) tr s) : P s.world := by
  refine hrun.invariant (fun _ s => P s.world) h0 ?_
  intro tr s i s' _ ih hstep
  obtain ⟨pc, x, hmove, rfl⟩ := sagaStep_cases hstep
  rw [SagaSystem.moved_world]
  rcases hmove.world_cases with hworld | ⟨r, hworld | hworld⟩
  · rw [hworld]
    exact ih
  · rw [hworld]
    exact hact i r _ ih
  · rw [hworld]
    exact hcomp i r _ ih

theorem outcome_of_alone (hrun : Run (sagaStep os) (.start os w₀) tr s)
    (halone : ∀ t ∈ tr, t.event = i) :
    (s.proc i).pc.outcome (os i) ((s.proc i).inWorld s.world) = (os i).execute w₀ := by
  refine hrun.invariant_of_forall (fun t => t.event = i)
    (fun _ s => (s.proc i).pc.outcome (os i) ((s.proc i).inWorld s.world) = (os i).execute w₀)
    rfl ?_ halone
  intro tr s e s' _ ih hstep he
  obtain rfl : e = i := he
  obtain ⟨pc, x, hmove, rfl⟩ := sagaStep_cases hstep
  rw [SagaSystem.moved_proc, ← ih]
  exact hmove.outcome_eq

theorem ownSteps_add_stepsLeft_le (hrun : Run (sagaStep os) (.start os w₀) tr s) (i : ι) :
    tr.countP (fun t => t.event = i) + (s.proc i).pc.stepsLeft (os i)
      ≤ 2 * (os i).steps.length + 2 := by
  refine hrun.invariant (fun tr s => tr.countP (fun t => t.event = i) +
    (s.proc i).pc.stepsLeft (os i) ≤ 2 * (os i).steps.length + 2) ?_ ?_
  · simp [SagaSystem.start, SagaOrchestrator.proc, SagaPc.stepsLeft]
  · intro tr s e s' _ ih hstep
    rw [List.countP_append, List.countP_singleton]
    obtain ⟨pc, x, hmove, rfl⟩ := sagaStep_cases hstep
    by_cases he : e = i
    · subst he
      have hlt := hmove.stepsLeft_lt
      rw [SagaSystem.moved_proc]
      simp only [decide_true, if_true, Execution.proc]
      omega
    · rw [SagaSystem.moved_proc_of_ne (Ne.symm he)]
      simpa [he] using ih

/-- **The machine is `execute`.** A saga's own steps are bounded, however
they interleave with others', and it can always make the next one until
it is done; and if nobody else moves, what it ends with is what `execute`
returns. -/
theorem execute_of_alone (hrun : Run (sagaStep os) (.start os w₀) tr s) (i : ι) :
    tr.countP (fun t => t.event = i) ≤ 2 * (os i).steps.length + 2 ∧
    ((∀ result, (s.proc i).pc ≠ .done result) → (sagaStep os s i).isSome) ∧
    ((∀ t ∈ tr, t.event = i) → ∀ result, (s.proc i).pc = .done result →
      (os i).execute w₀ = (result, (s.proc i).inWorld s.world)) := by
  constructor
  · have hbound := ownSteps_add_stepsLeft_le hrun i
    omega
  constructor
  · intro hpc
    rw [sagaStep, Option.isSome_map]
    exact procStep_isSome hpc
  · intro halone result hdone
    rw [← outcome_of_alone hrun halone, hdone]
    rfl

/-- The transfer whose refund raises, once more as a machine. -/
theorem execute_of_alone_lostRefund :
    let run := exec (sagaStep fun _ : Unit => lostRefund)
      (.start (fun _ => lostRefund) ((1000, 200), 0)) [(), (), (), (), ()]
    run.1.countP (fun t => t.event = ()) ≤ 6 ∧
    lostRefund.execute ((1000, 200), 0) = (false, (run.2.proc ()).inWorld run.2.world) := by
  intro run
  obtain ⟨hbound, -, hdone⟩ := execute_of_alone
    (run_exec (sagaStep fun _ : Unit => lostRefund) [(), (), (), (), ()] (.start _ _)) ()
  exact ⟨hbound, hdone (fun _ _ => rfl) false (by decide +kernel)⟩

end Httpe.Saga
