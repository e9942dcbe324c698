/-
Httpe.Breaker.CircuitBreaker — `CircuitBreaker` of
`pseudocode/circuit-breaker.py`, and the system in which any number of
`execute` calls overlap.

A call takes the lock twice: in the prologue of `execute`, which admits
or refuses it, and in `_on_success` or `_on_failure`, which records how
its action ended. The action runs between the two, outside the lock, for
as long as it likes. Each of the two is one step here; a step reads the
clock at most twice, first for its own use (`time`) and then for the
transition it makes (`later`).

`success_count` and `last_failure_time` are never read; they are left
out. So are the values the action and the fallback return: `CallEnd`
says which of the two a call's answer comes from.
-/
import Httpe.Lib.Run
import Mathlib.Algebra.Order.Ring.Rat
import Mathlib.Logic.Function.Basic

namespace Httpe.Breaker

inductive CircuitState where
  | closed
  | opened
  | halfOpen
  deriving DecidableEq, Repr

/-- The constructor's arguments; of the fallback, whether there is one. -/
structure BreakerConfig where
  name : String
  failureThreshold : ℤ := 3
  recoveryTimeSeconds : ℚ := 15
  halfOpenMaxProbes : ℤ := 2
  fallback : Bool := false
  deriving DecidableEq, Repr

structure CircuitBreaker where
  state : CircuitState := .closed
  failureCount : ℕ := 0
  consecutiveHalfOpenSuccesses : ℕ := 0
  lastStateChangeTime : ℚ
  deriving DecidableEq, Repr

/-- How an action ends: it returns, or it raises an `Exception`. -/
inductive Outcome where
  | success
  | failure
  deriving DecidableEq, Repr

/-- What `execute` answers with. -/
inductive CallEnd where
  | result
  | fallback
  | reraised
  | circuitOpen (message : String)
  deriving DecidableEq, Repr

def BreakerConfig.handleOpenCircuit (c : BreakerConfig) : CallEnd :=
  if c.fallback then .fallback
  else .circuitOpen s!"Circuit Breaker '{c.name}' is OPEN. Fast-failing request."

/-- The end of `execute` once the outcome is recorded. -/
def BreakerConfig.afterOutcome (c : BreakerConfig) : Outcome → CallEnd
  | .success => .result
  | .failure => if c.fallback then .fallback else .reraised

namespace CircuitBreaker

def transitionTo (cb : CircuitBreaker) (newState : CircuitState) (time : ℚ) : CircuitBreaker :=
  let cb := { cb with state := newState, lastStateChangeTime := time }
  match newState with
  | .closed => { cb with failureCount := 0, consecutiveHalfOpenSuccesses := 0 }
  | .halfOpen => { cb with consecutiveHalfOpenSuccesses := 0 }
  | .opened => cb

/-- The locked prologue of `execute`: whether the action is run. The
probe count is looked at in HALF_OPEN, but nothing follows from it. -/
def prologue (c : BreakerConfig) (cb : CircuitBreaker) (currentTime later : ℚ) :
    Bool × CircuitBreaker :=
  if cb.state = .opened then
    if c.recoveryTimeSeconds ≤ currentTime - cb.lastStateChangeTime then
      (true, cb.transitionTo .halfOpen later)
    else (false, cb)
  else (true, cb)

def onSuccess (c : BreakerConfig) (cb : CircuitBreaker) (later : ℚ) : CircuitBreaker :=
  match cb.state with
  | .halfOpen =>
      let cb := { cb with consecutiveHalfOpenSuccesses := cb.consecutiveHalfOpenSuccesses + 1 }
      if c.halfOpenMaxProbes ≤ cb.consecutiveHalfOpenSuccesses then cb.transitionTo .closed later
      else cb
  | .closed => { cb with failureCount := 0 }
  | .opened => cb

def onFailure (c : BreakerConfig) (cb : CircuitBreaker) (later : ℚ) : CircuitBreaker :=
  let cb := { cb with failureCount := cb.failureCount + 1 }
  match cb.state with
  | .halfOpen => cb.transitionTo .opened later
  | .closed =>
      if c.failureThreshold ≤ cb.failureCount then cb.transitionTo .opened later else cb
  | .opened => cb

def record (c : BreakerConfig) (cb : CircuitBreaker) (later : ℚ) : Outcome → CircuitBreaker
  | .success => cb.onSuccess c later
  | .failure => cb.onFailure c later

end CircuitBreaker

/-! ## The system -/

inductive CallPc where
  | entry
  | running
  | done (answer : CallEnd)
  deriving DecidableEq, Repr

structure BreakerSystem (ι : Type*) where
  breaker : CircuitBreaker
  now : ℚ
  pc : ι → CallPc

/-- A new breaker made at time `t₀`, and no call yet. -/
def BreakerSystem.start {ι : Type*} (t₀ : ℚ) : BreakerSystem ι :=
  ⟨{ lastStateChangeTime := t₀ }, t₀, fun _ => .entry⟩

inductive CallOp where
  | prologue
  | record (outcome : Outcome)
  deriving DecidableEq, Repr

/-- The outcome an operation records. -/
def CallOp.outcome : CallOp → Option Outcome
  | prologue => none
  | record outcome => some outcome

structure BreakerEvent (ι : Type*) where
  call : ι
  op : CallOp
  time : ℚ
  later : ℚ
  deriving DecidableEq

variable {ι : Type*} [DecidableEq ι]

/-- One locked section of one call; no clock reading is before an
earlier one. -/
def breakerStep (c : BreakerConfig) (s : BreakerSystem ι) (e : BreakerEvent ι) :
    Option (BreakerSystem ι) :=
  if s.now ≤ e.time ∧ e.time ≤ e.later then
    match e.op, s.pc e.call with
    | .prologue, .entry =>
        match s.breaker.prologue c e.time e.later with
        | (true, breaker) => some ⟨breaker, e.later, Function.update s.pc e.call .running⟩
        | (false, breaker) => some
            ⟨breaker, e.later, Function.update s.pc e.call (.done c.handleOpenCircuit)⟩
    | .record outcome, .running => some
        ⟨s.breaker.record c e.later outcome, e.later,
          Function.update s.pc e.call (.done (c.afterOutcome outcome))⟩
    | _, _ => none
  else none

abbrev BreakerTransition (ι : Type*) := Transition (BreakerSystem ι) (BreakerEvent ι)

/-! ## Every step -/

/-- What a step does, by the state the breaker was in. -/
inductive BreakerMove (c : BreakerConfig) (s : BreakerSystem ι) :
    BreakerEvent ι → BreakerSystem ι → Prop
  | admitted {i : ι} {t u : ℚ} (hpc : s.pc i = .entry) (hstate : s.breaker.state ≠ .opened) :
      BreakerMove c s ⟨i, .prologue, t, u⟩ ⟨s.breaker, u, Function.update s.pc i .running⟩
  | recovered {i : ι} {t u : ℚ} (hpc : s.pc i = .entry) (hstate : s.breaker.state = .opened)
      (hlate : c.recoveryTimeSeconds ≤ t - s.breaker.lastStateChangeTime) :
      BreakerMove c s ⟨i, .prologue, t, u⟩
        ⟨s.breaker.transitionTo .halfOpen u, u, Function.update s.pc i .running⟩
  | refused {i : ι} {t u : ℚ} (hpc : s.pc i = .entry) (hstate : s.breaker.state = .opened)
      (hearly : t - s.breaker.lastStateChangeTime < c.recoveryTimeSeconds) :
      BreakerMove c s ⟨i, .prologue, t, u⟩
        ⟨s.breaker, u, Function.update s.pc i (.done c.handleOpenCircuit)⟩
  | recorded {i : ι} {outcome : Outcome} {t u : ℚ} (hpc : s.pc i = .running) :
      BreakerMove c s ⟨i, .record outcome, t, u⟩
        ⟨s.breaker.record c u outcome, u,
          Function.update s.pc i (.done (c.afterOutcome outcome))⟩

theorem breakerMove_of_step {c : BreakerConfig} {s s' : BreakerSystem ι} {e : BreakerEvent ι}
    (h : breakerStep c s e = some s') : BreakerMove c s e s' := by
  obtain ⟨i, op, t, u⟩ := e
  simp only [breakerStep] at h
  split_ifs at h
  cases op with
  | prologue =>
      cases hpc : s.pc i with
      | entry =>
          simp only [hpc, CircuitBreaker.prologue] at h
          split_ifs at h with hstate hlate <;> cases h
          · exact .recovered hpc hstate hlate
          · exact .refused hpc hstate (not_le.mp hlate)
          · exact .admitted hpc hstate
      | running => simp [hpc] at h
      | done answer => simp [hpc] at h
  | record outcome =>
      cases hpc : s.pc i with
      | entry => simp [hpc] at h
      | running =>
          simp only [hpc] at h
          cases h
          exact .recorded hpc
      | done answer => simp [hpc] at h

end Httpe.Breaker
