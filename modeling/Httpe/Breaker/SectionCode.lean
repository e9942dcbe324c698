/-
Httpe.Breaker.SectionCode — the locked sections of a breaker, one access
at a time.

`Httpe.Breaker.CircuitBreaker` says what a section makes of a breaker.
Here a section is the code of `execute`, `_on_success`, `_on_failure` and
`_transition_to` as a `SectionCode`: every attribute it reads or assigns
and every reading of the clock in turn, with what is left of the code as a
function of what was read. `SectionCode.run` runs it alone, and then it
does what the section is said to do: `prologue_of_run`, `record_of_run`.
-/
import Httpe.Breaker.CircuitBreaker

namespace Httpe.Breaker

/-- The attributes of a breaker that change. -/
inductive Attribute where
  | state
  | failureCount
  | consecutiveHalfOpenSuccesses
  | lastStateChangeTime
  deriving DecidableEq, Repr

abbrev Attribute.Value : Attribute → Type
  | state => CircuitState
  | failureCount => ℕ
  | consecutiveHalfOpenSuccesses => ℕ
  | lastStateChangeTime => ℚ

namespace CircuitBreaker

def get (cb : CircuitBreaker) : (a : Attribute) → a.Value
  | .state => cb.state
  | .failureCount => cb.failureCount
  | .consecutiveHalfOpenSuccesses => cb.consecutiveHalfOpenSuccesses
  | .lastStateChangeTime => cb.lastStateChangeTime

def set (cb : CircuitBreaker) : (a : Attribute) → a.Value → CircuitBreaker
  | .state, v => { cb with state := v }
  | .failureCount, v => { cb with failureCount := v }
  | .consecutiveHalfOpenSuccesses, v => { cb with consecutiveHalfOpenSuccesses := v }
  | .lastStateChangeTime, v => { cb with lastStateChangeTime := v }

end CircuitBreaker

/-- What is left to do inside `with self._lock`. -/
inductive SectionCode where
  /-- The end of the block, or `return self._handle_open_circuit` in it. -/
  | leave (refused : Bool)
  | read (a : Attribute) (next : a.Value → SectionCode)
  | write (a : Attribute) (v : a.Value) (next : SectionCode)
  /-- `time.time()` -/
  | clock (next : ℚ → SectionCode)

namespace SectionCode

def transitionTo (newState : CircuitState) (next : SectionCode) : SectionCode :=
  .write .state newState <| .clock fun time => .write .lastStateChangeTime time <|
    match newState with
    | .closed => .write .failureCount (0 : ℕ) <| .write .consecutiveHalfOpenSuccesses (0 : ℕ) next
    | .halfOpen => .write .consecutiveHalfOpenSuccesses (0 : ℕ) next
    | .opened => next

/-- The probe count is looked at in HALF_OPEN, and nothing follows. -/
def checkProbes : SectionCode :=
  .read .state fun (state : CircuitState) =>
    if state = .halfOpen then .read .consecutiveHalfOpenSuccesses fun _ => .leave false
    else .leave false

def prologue (c : BreakerConfig) : SectionCode :=
  .clock fun currentTime => .read .state fun (state : CircuitState) =>
    if state = .opened then
      .read .lastStateChangeTime fun (lastStateChangeTime : ℚ) =>
        if c.recoveryTimeSeconds ≤ currentTime - lastStateChangeTime then
          transitionTo .halfOpen checkProbes
        else .leave true
    else checkProbes

def onSuccess (c : BreakerConfig) : SectionCode :=
  .read .state fun (state : CircuitState) =>
    if state = .halfOpen then
      .read .consecutiveHalfOpenSuccesses fun (successes : ℕ) =>
        .write .consecutiveHalfOpenSuccesses (successes + 1) <|
          .read .consecutiveHalfOpenSuccesses fun (successes : ℕ) =>
            if c.halfOpenMaxProbes ≤ successes then transitionTo .closed (.leave false)
            else .leave false
    else
      .read .state fun (state : CircuitState) =>
        if state = .closed then .write .failureCount (0 : ℕ) (.leave false) else .leave false

/-- The first reading of the clock goes into `last_failure_time`. -/
def onFailure (c : BreakerConfig) : SectionCode :=
  .clock fun _ => .read .failureCount fun (failures : ℕ) =>
    .write .failureCount (failures + 1) <| .read .state fun (state : CircuitState) =>
      if state = .halfOpen then transitionTo .opened (.leave false)
      else
        .read .state fun (state : CircuitState) =>
          if state = .closed then
            .read .failureCount fun (failures : ℕ) =>
              if c.failureThreshold ≤ failures then transitionTo .opened (.leave false)
              else .leave false
          else .leave false

def record (c : BreakerConfig) : Outcome → SectionCode
  | .success => onSuccess c
  | .failure => onFailure c

/-- The code alone on a breaker, with these readings of the clock. -/
def run : SectionCode → CircuitBreaker → List ℚ → Option (Bool × CircuitBreaker)
  | leave refused, cb, [] => some (refused, cb)
  | leave _, _, _ :: _ => none
  | read a next, cb, ts => (next (cb.get a)).run cb ts
  | write a v next, cb, ts => next.run (cb.set a v) ts
  | clock _, _, [] => none
  | clock next, cb, t :: ts => (next t).run cb ts

/-! ### Alone, the code does what the section is said to do -/

section Run

variable {c : BreakerConfig} {cb cb' : CircuitBreaker} {ts : List ℚ} {t : ℚ} {refused : Bool}

@[simp] theorem run_clock_cons {next : ℚ → SectionCode} :
    (clock next).run cb (t :: ts) = (next t).run cb ts := rfl

@[simp] theorem run_readState {next : CircuitState → SectionCode} :
    (read .state next).run cb ts = (next cb.state).run cb ts := rfl
@[simp] theorem run_readFailureCount {next : ℕ → SectionCode} :
    (read .failureCount next).run cb ts = (next cb.failureCount).run cb ts := rfl
@[simp] theorem run_readSuccesses {next : ℕ → SectionCode} :
    (read .consecutiveHalfOpenSuccesses next).run cb ts
      = (next cb.consecutiveHalfOpenSuccesses).run cb ts := rfl
@[simp] theorem run_readChangeTime {next : ℚ → SectionCode} :
    (read .lastStateChangeTime next).run cb ts = (next cb.lastStateChangeTime).run cb ts := rfl

@[simp] theorem run_writeFailureCount {n : ℕ} {next : SectionCode} :
    (write .failureCount n next).run cb ts = next.run { cb with failureCount := n } ts := rfl
@[simp] theorem run_writeSuccesses {n : ℕ} {next : SectionCode} :
    (write .consecutiveHalfOpenSuccesses n next).run cb ts
      = next.run { cb with consecutiveHalfOpenSuccesses := n } ts := rfl

theorem run_leave_eq_some {left : Bool} : (leave left).run cb ts = some (refused, cb') ↔
    ts = [] ∧ refused = left ∧ cb' = cb := by
  cases ts <;> simp [run, eq_comm]

/-- A transition reads the clock once. -/
theorem run_transitionTo_eq_some {newState : CircuitState} {next : SectionCode} :
    (transitionTo newState next).run cb ts = some (refused, cb') ↔
      ∃ t ts', ts = t :: ts' ∧ next.run (cb.transitionTo newState t) ts' = some (refused, cb') := by
  cases ts with
  | nil => simp [transitionTo, run]
  | cons t ts =>
      have hrun : (transitionTo newState next).run cb (t :: ts)
          = next.run (cb.transitionTo newState t) ts := by
        cases newState <;> rfl
      simp [hrun]

theorem run_checkProbes : checkProbes.run cb ts = (leave false).run cb ts := by
  simp only [checkProbes, run_readState]
  split_ifs <;> rfl

/-- Where a section reads no clock, any time is as good. -/
theorem prologue_of_run (h : (prologue c).run cb ts = some (refused, cb')) (now : ℚ) :
    cb.prologue c (ts.head?.getD now) (ts.getLast?.getD now) = (!refused, cb') := by
  cases ts with
  | nil => cases h
  | cons t ts =>
      simp only [prologue, run_clock_cons, run_readState] at h
      by_cases hstate : cb.state = .opened
      · rw [if_pos hstate, run_readChangeTime] at h
        by_cases hlate : c.recoveryTimeSeconds ≤ t - cb.lastStateChangeTime
        · rw [if_pos hlate] at h
          obtain ⟨u, ts', rfl, hchecked⟩ := run_transitionTo_eq_some.mp h
          rw [run_checkProbes] at hchecked
          obtain ⟨rfl, rfl, rfl⟩ := run_leave_eq_some.mp hchecked
          simp [CircuitBreaker.prologue, hstate, hlate]
        · rw [if_neg hlate] at h
          obtain ⟨rfl, rfl, rfl⟩ := run_leave_eq_some.mp h
          simp [CircuitBreaker.prologue, hstate, hlate]
      · rw [if_neg hstate, run_checkProbes] at h
        obtain ⟨rfl, rfl, rfl⟩ := run_leave_eq_some.mp h
        simp [CircuitBreaker.prologue, hstate]

theorem onSuccess_of_run (h : (onSuccess c).run cb ts = some (refused, cb')) (now : ℚ) :
    cb.onSuccess c (ts.getLast?.getD now) = cb' := by
  simp only [onSuccess, run_readState] at h
  cases hstate : cb.state with
  | halfOpen =>
      rw [hstate, if_pos rfl, run_readSuccesses, run_writeSuccesses, run_readSuccesses] at h
      by_cases hprobes : c.halfOpenMaxProbes ≤ (cb.consecutiveHalfOpenSuccesses + 1 : ℕ)
      · rw [if_pos hprobes] at h
        obtain ⟨t, ts', rfl, hleft⟩ := run_transitionTo_eq_some.mp h
        obtain ⟨rfl, rfl, rfl⟩ := run_leave_eq_some.mp hleft
        simp only [CircuitBreaker.onSuccess, hstate, if_pos hprobes]
        rfl
      · rw [if_neg hprobes] at h
        obtain ⟨rfl, rfl, rfl⟩ := run_leave_eq_some.mp h
        simp only [CircuitBreaker.onSuccess, hstate, if_neg hprobes]
  | closed =>
      rw [hstate, if_neg nofun, run_readState, hstate, if_pos rfl, run_writeFailureCount] at h
      obtain ⟨rfl, rfl, rfl⟩ := run_leave_eq_some.mp h
      simp only [CircuitBreaker.onSuccess, hstate]
  | opened =>
      rw [hstate, if_neg nofun, run_readState, hstate, if_neg nofun] at h
      obtain ⟨rfl, rfl, rfl⟩ := run_leave_eq_some.mp h
      simp only [CircuitBreaker.onSuccess, hstate]

theorem onFailure_of_run (h : (onFailure c).run cb ts = some (refused, cb')) (now : ℚ) :
    cb.onFailure c (ts.getLast?.getD now) = cb' := by
  cases ts with
  | nil => cases h
  | cons t ts =>
      simp only [onFailure, run_clock_cons, run_readFailureCount, run_writeFailureCount,
        run_readState] at h
      cases hstate : cb.state with
      | halfOpen =>
          rw [hstate, if_pos rfl] at h
          obtain ⟨u, ts', rfl, hleft⟩ := run_transitionTo_eq_some.mp h
          obtain ⟨rfl, rfl, rfl⟩ := run_leave_eq_some.mp hleft
          simp only [CircuitBreaker.onFailure, hstate]
          rfl
      | closed =>
          simp only [hstate, reduceCtorEq, if_false, if_true, run_readState,
            run_readFailureCount] at h
          by_cases hthreshold : c.failureThreshold ≤ (cb.failureCount + 1 : ℕ)
          · rw [if_pos hthreshold] at h
            obtain ⟨u, ts', rfl, hleft⟩ := run_transitionTo_eq_some.mp h
            obtain ⟨rfl, rfl, rfl⟩ := run_leave_eq_some.mp hleft
            simp only [CircuitBreaker.onFailure, hstate, if_pos hthreshold]
            rfl
          · rw [if_neg hthreshold] at h
            obtain ⟨rfl, rfl, rfl⟩ := run_leave_eq_some.mp h
            simp only [CircuitBreaker.onFailure, hstate, if_neg hthreshold]
      | opened =>
          simp only [hstate, reduceCtorEq, if_false, run_readState] at h
          obtain ⟨rfl, rfl, rfl⟩ := run_leave_eq_some.mp h
          simp only [CircuitBreaker.onFailure, hstate]

theorem record_of_run {outcome : Outcome}
    (h : (record c outcome).run cb ts = some (refused, cb')) (now : ℚ) :
    cb.record c (ts.getLast?.getD now) outcome = cb' := by
  cases outcome with
  | success => exact onSuccess_of_run h now
  | failure => exact onFailure_of_run h now

end Run

end SectionCode

end Httpe.Breaker
