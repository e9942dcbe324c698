/-
Httpe.Breaker.Fsm — the circuit breaker's counters against the history
its state machine is documented over.

A `Period` is what the documented machine looks at: the outcomes recorded
since the current state was entered, and when that was. It is read off
the history of a run, not off the breaker. The breaker keeps two counters
instead, and resets each on some transitions only: `failure_count`
survives OPEN and HALF_OPEN, late outcomes still add to it while OPEN,
and the probe counter survives OPEN.

`FsmInv` says which counter means what in which state; where a counter is
stale it says nothing. `Similar` is the same idea between two breakers:
they differ in stale counters only, and nobody can tell them apart.
-/
import Httpe.Breaker.CircuitBreaker
import Mathlib.Data.List.DropRight

namespace Httpe.Breaker

variable {ι : Type*} {c : BreakerConfig}

/-! ## Trailing failures -/

/-- How many outcomes at the end of the list are failures. -/
def trailingFailures (outcomes : List Outcome) : ℕ :=
  (outcomes.rtakeWhile (· = .failure)).length

@[simp] theorem trailingFailures_nil : trailingFailures [] = 0 := by simp [trailingFailures]

@[simp] theorem trailingFailures_snoc_failure {outcomes : List Outcome} :
    trailingFailures (outcomes ++ [.failure]) = trailingFailures outcomes + 1 := by
  simp [trailingFailures]

@[simp] theorem trailingFailures_snoc_success {outcomes : List Outcome} :
    trailingFailures (outcomes ++ [.success]) = 0 := by
  simp [trailingFailures]

/-- The last `n` outcomes are all failures. -/
theorem replicate_failure_suffix_iff {n : ℕ} {outcomes : List Outcome} :
    List.replicate n .failure <:+ outcomes ↔ n ≤ trailingFailures outcomes := by
  induction outcomes using List.reverseRecOn generalizing n with
  | nil => simp
  | append_singleton outcomes o ih =>
      cases n with
      | zero => simp
      | succ n =>
          rw [List.replicate_succ', List.suffix_concat_iff]
          cases o <;> simp [ih]

/-! ## The history the machine looks at -/

structure Period where
  /-- The outcomes recorded since the state was entered. -/
  outcomes : List Outcome
  /-- When it was entered. -/
  since : ℚ
  deriving DecidableEq

def Period.step (p : Period) (t : BreakerTransition ι) : Period :=
  if t.post.breaker.state = t.pre.breaker.state then
    { p with outcomes := p.outcomes ++ t.event.op.outcome.toList }
  else ⟨[], t.event.later⟩

/-- The current period after the steps `tr` of a breaker made at `t₀`. -/
def period (t₀ : ℚ) (tr : List (BreakerTransition ι)) : Period :=
  tr.foldl Period.step ⟨[], t₀⟩

@[simp] theorem period_snoc {t₀ : ℚ} {tr : List (BreakerTransition ι)} {t : BreakerTransition ι} :
    period t₀ (tr ++ [t]) = (period t₀ tr).step t := by
  simp [period]

/-- The documented machine: the state after `e`, by what has been recorded
in the current period, `e` included. -/
def fsmNext (c : BreakerConfig) (state : CircuitState) (p : Period) (e : BreakerEvent ι) :
    CircuitState :=
  let outcomes := p.outcomes ++ e.op.outcome.toList
  match state with
  | .closed =>
      if List.replicate c.failureThreshold.toNat .failure <:+ outcomes then .opened else .closed
  | .opened =>
      if e.op = .prologue ∧ c.recoveryTimeSeconds ≤ e.time - p.since then .halfOpen else .opened
  | .halfOpen =>
      if .failure ∈ outcomes then .opened
      else if c.halfOpenMaxProbes ≤ outcomes.length then .closed
      else .halfOpen

/-! ## What the counters mean -/

/-- State by state. -/
structure FsmInv (c : BreakerConfig) (p : Period) (cb : CircuitBreaker) : Prop where
  since : cb.lastStateChangeTime = p.since
  closed : cb.state = .closed → cb.failureCount = trailingFailures p.outcomes ∧
    (cb.failureCount : ℤ) < c.failureThreshold
  halfOpen : cb.state = .halfOpen → cb.consecutiveHalfOpenSuccesses = p.outcomes.length ∧
    .failure ∉ p.outcomes ∧ (cb.consecutiveHalfOpenSuccesses : ℤ) < c.halfOpenMaxProbes

section Record

variable {cb : CircuitBreaker} {u : ℚ} {o : Outcome}

theorem record_closed_success (h : cb.state = .closed) :
    cb.record c u .success = { cb with failureCount := 0 } := by
  simp [CircuitBreaker.record, CircuitBreaker.onSuccess, h]

theorem record_closed_failure (h : cb.state = .closed) :
    cb.record c u .failure =
      if c.failureThreshold ≤ cb.failureCount + 1 then
        { cb with state := .opened, failureCount := cb.failureCount + 1, lastStateChangeTime := u }
      else { cb with failureCount := cb.failureCount + 1 } := by
  simp [CircuitBreaker.record, CircuitBreaker.onFailure, CircuitBreaker.transitionTo, h]

/-- While OPEN an outcome moves nothing but a counter. -/
theorem record_opened (h : cb.state = .opened) :
    (cb.record c u o).state = .opened ∧
      (cb.record c u o).lastStateChangeTime = cb.lastStateChangeTime := by
  cases o <;> simp [CircuitBreaker.record, CircuitBreaker.onSuccess, CircuitBreaker.onFailure, h]

theorem record_halfOpen_success (h : cb.state = .halfOpen) :
    cb.record c u .success =
      if c.halfOpenMaxProbes ≤ cb.consecutiveHalfOpenSuccesses + 1 then
        { cb with
          state := .closed
          failureCount := 0
          consecutiveHalfOpenSuccesses := 0
          lastStateChangeTime := u }
      else { cb with consecutiveHalfOpenSuccesses := cb.consecutiveHalfOpenSuccesses + 1 } := by
  simp [CircuitBreaker.record, CircuitBreaker.onSuccess, CircuitBreaker.transitionTo, h]

theorem record_halfOpen_failure (h : cb.state = .halfOpen) :
    cb.record c u .failure =
      { cb with
        state := .opened
        failureCount := cb.failureCount + 1
        lastStateChangeTime := u } := by
  simp [CircuitBreaker.record, CircuitBreaker.onFailure, CircuitBreaker.transitionTo, h]

end Record

variable [DecidableEq ι] {p : Period} {s s' : BreakerSystem ι} {e : BreakerEvent ι}

omit [DecidableEq ι] in
theorem Period.step_of_state_eq (h : s'.breaker.state = s.breaker.state) :
    p.step ⟨s, e, s'⟩ = { p with outcomes := p.outcomes ++ e.op.outcome.toList } := if_pos h

omit [DecidableEq ι] in
theorem Period.step_of_state_ne (h : s'.breaker.state ≠ s.breaker.state) :
    p.step ⟨s, e, s'⟩ = ⟨[], e.later⟩ := if_neg h

section Recorded

variable {o : Outcome} (h : FsmInv c p s.breaker) (hop : e.op = .record o)
  (hpost : s'.breaker = s.breaker.record c e.later o)
include h hop hpost

omit [DecidableEq ι] in
/-- An outcome recorded while CLOSED extends the run of failures, ends it
or trips the breaker. -/
theorem FsmInv.recorded_closed (hf : 1 ≤ c.failureThreshold)
    (hstate : s.breaker.state = .closed) : FsmInv c (p.step ⟨s, e, s'⟩) s'.breaker := by
  obtain ⟨hcount, hlt⟩ := h.closed hstate
  cases o with
  | success =>
      rw [record_closed_success hstate] at hpost
      rw [Period.step_of_state_eq (by rw [hpost]), hpost]
      exact ⟨h.since, fun _ => ⟨by simp [CallOp.outcome, hop], hf⟩,
        fun hhalf => by simp [hstate] at hhalf⟩
  | failure =>
      rw [record_closed_failure hstate] at hpost
      by_cases htrip : c.failureThreshold ≤ s.breaker.failureCount + 1
      · rw [if_pos htrip] at hpost
        rw [Period.step_of_state_ne (by simp [hpost, hstate]), hpost]
        exact ⟨rfl, nofun, nofun⟩
      · rw [if_neg htrip] at hpost
        rw [Period.step_of_state_eq (by rw [hpost]), hpost]
        refine ⟨h.since, fun _ => ⟨?_, ?_⟩, fun hhalf => by simp [hstate] at hhalf⟩
        · simp [CallOp.outcome, hop, hcount]
        · simpa using htrip

omit [DecidableEq ι] in
/-- An outcome recorded in HALF_OPEN is counted or ends the period. -/
theorem FsmInv.recorded_halfOpen (hf : 1 ≤ c.failureThreshold)
    (hstate : s.breaker.state = .halfOpen) : FsmInv c (p.step ⟨s, e, s'⟩) s'.breaker := by
  obtain ⟨hcount, hnone, hlt⟩ := h.halfOpen hstate
  cases o with
  | success =>
      rw [record_halfOpen_success hstate] at hpost
      by_cases hclose : c.halfOpenMaxProbes ≤ s.breaker.consecutiveHalfOpenSuccesses + 1
      · rw [if_pos hclose] at hpost
        rw [Period.step_of_state_ne (by simp [hpost, hstate]), hpost]
        exact ⟨rfl, fun _ => ⟨by simp, hf⟩, nofun⟩
      · rw [if_neg hclose] at hpost
        rw [Period.step_of_state_eq (by rw [hpost]), hpost]
        refine ⟨h.since, fun hclosed => by simp [hstate] at hclosed, fun _ => ⟨?_, ?_, ?_⟩⟩
        · simp [CallOp.outcome, hop, hcount]
        · simp [CallOp.outcome, hop, hnone]
        · simpa using hclose
  | failure =>
      rw [record_halfOpen_failure hstate] at hpost
      rw [Period.step_of_state_ne (by simp [hpost, hstate]), hpost]
      exact ⟨rfl, nofun, nofun⟩

end Recorded

theorem FsmInv.step (hf : 1 ≤ c.failureThreshold) (hp : 1 ≤ c.halfOpenMaxProbes)
    (h : FsmInv c p s.breaker) (hmove : BreakerMove c s e s') :
    FsmInv c (p.step ⟨s, e, s'⟩) s'.breaker := by
  cases hmove with
  | admitted | refused =>
      rw [Period.step_of_state_eq (by rfl)]
      simpa [CallOp.outcome] using h
  | @recovered i t u _ hstate _ =>
      rw [Period.step_of_state_ne (by simp [CircuitBreaker.transitionTo, hstate])]
      exact ⟨rfl, fun hclosed => by simp [CircuitBreaker.transitionTo] at hclosed,
        fun _ => ⟨rfl, List.not_mem_nil, hp⟩⟩
  | @recorded i o t u _ =>
      cases hstate : s.breaker.state with
      | closed => exact h.recorded_closed rfl rfl hf hstate
      | opened =>
          obtain ⟨hstill, hsince⟩ := record_opened (c := c) (u := u) (o := o) hstate
          rw [Period.step_of_state_eq (hstill.trans hstate.symm)]
          exact ⟨hsince.trans h.since, fun hclosed => by simp [hstill] at hclosed,
            fun hhalf => by simp [hstill] at hhalf⟩
      | halfOpen => exact h.recorded_halfOpen rfl rfl hf hstate

/-- The last `failure_threshold` outcomes are failures, by the counter. -/
theorem threshold_suffix_iff (hf : 1 ≤ c.failureThreshold) {outcomes : List Outcome} :
    List.replicate c.failureThreshold.toNat .failure <:+ outcomes ↔
      c.failureThreshold ≤ trailingFailures outcomes := by
  rw [replicate_failure_suffix_iff]
  omega

theorem state_eq_fsmNext (hf : 1 ≤ c.failureThreshold) (h : FsmInv c p s.breaker)
    (hmove : BreakerMove c s e s') : s'.breaker.state = fsmNext c s.breaker.state p e := by
  cases hmove with
  | admitted _ hstate =>
      cases hs : s.breaker.state with
      | closed =>
          obtain ⟨hcount, hlt⟩ := h.closed hs
          simp only [fsmNext, CallOp.outcome, Option.toList_none, List.append_nil,
            threshold_suffix_iff hf]
          rw [if_neg (by omega)]
      | opened => exact absurd hs hstate
      | halfOpen =>
          obtain ⟨hcount, hnone, hlt⟩ := h.halfOpen hs
          simp only [fsmNext, CallOp.outcome, Option.toList_none, List.append_nil]
          rw [if_neg hnone, if_neg (by omega)]
  | recovered _ hs hlate =>
      rw [h.since] at hlate
      simp [fsmNext, hs, hlate, CircuitBreaker.transitionTo]
  | refused _ hs hearly =>
      rw [h.since] at hearly
      simp [fsmNext, hs, hearly]
  | @recorded i o t u _ =>
      cases hs : s.breaker.state with
      | closed =>
          obtain ⟨hcount, hlt⟩ := h.closed hs
          cases o with
          | success =>
              simp only [record_closed_success hs, fsmNext, CallOp.outcome, Option.toList_some,
                threshold_suffix_iff hf, trailingFailures_snoc_success]
              rw [if_neg (by omega), hs]
          | failure =>
              simp only [record_closed_failure hs, fsmNext, CallOp.outcome, Option.toList_some,
                threshold_suffix_iff hf, trailingFailures_snoc_failure, ← hcount, Nat.cast_add,
                Nat.cast_one]
              split_ifs
              · rfl
              · exact hs
      | opened => simp [(record_opened hs).1, fsmNext]
      | halfOpen =>
          obtain ⟨hcount, hnone, hlt⟩ := h.halfOpen hs
          cases o with
          | success =>
              have hnone' : .failure ∉ p.outcomes ++ [.success] := by simp [hnone]
              simp only [record_halfOpen_success hs, fsmNext, CallOp.outcome, Option.toList_some,
                if_neg hnone', List.length_append, List.length_singleton, ← hcount, Nat.cast_add,
                Nat.cast_one]
              split_ifs
              · rfl
              · exact hs
          | failure => simp [record_halfOpen_failure hs, fsmNext, CallOp.outcome]

theorem fsmInv_of_run {t₀ : ℚ} {tr : List (BreakerTransition ι)} (hf : 1 ≤ c.failureThreshold)
    (hp : 1 ≤ c.halfOpenMaxProbes) (hrun : Run (breakerStep c) (.start t₀) tr s) :
    FsmInv c (period t₀ tr) s.breaker := by
  refine hrun.invariant (fun tr s => FsmInv c (period t₀ tr) s.breaker) ?_ ?_
  · exact ⟨rfl, fun _ => ⟨by simp [period, BreakerSystem.start], hf⟩, nofun⟩
  · intro tr s e s' _ ih hstep
    rw [period_snoc]
    exact ih.step hf hp (breakerMove_of_step hstep)

/-! ## Outcomes recorded while OPEN -/

/-- Two breakers that differ at most in counters their state does not read. -/
structure Similar (a b : CircuitBreaker) : Prop where
  state : a.state = b.state
  since : a.lastStateChangeTime = b.lastStateChangeTime
  closed : a.state = .closed → a.failureCount = b.failureCount
  halfOpen : a.state = .halfOpen →
    a.consecutiveHalfOpenSuccesses = b.consecutiveHalfOpenSuccesses

/-- One locked section, whichever it is: whether it admits a call, and
the breaker after it. -/
def CircuitBreaker.locked (c : BreakerConfig) (cb : CircuitBreaker) (time later : ℚ) :
    CallOp → Bool × CircuitBreaker
  | .prologue => cb.prologue c time later
  | .record outcome => (false, cb.record c later outcome)

/-- What a sequence of locked sections, each with its clock readings,
shows of the breaker: admissions, states, times of the last transition. -/
def observe (c : BreakerConfig) : CircuitBreaker → List (CallOp × ℚ × ℚ) →
    List (Bool × CircuitState × ℚ)
  | _, [] => []
  | cb, (op, time, later) :: rest =>
      let r := cb.locked c time later op
      (r.1, r.2.state, r.2.lastStateChangeTime) :: observe c r.2 rest

section Similar

variable {a b : CircuitBreaker} {time later : ℚ} {op : CallOp}

theorem similar_of_closed (ha : a.state = .closed) (hb : b.state = .closed)
    (hsince : a.lastStateChangeTime = b.lastStateChangeTime)
    (hcount : a.failureCount = b.failureCount) : Similar a b :=
  ⟨ha.trans hb.symm, hsince, fun _ => hcount, fun h => by simp [ha] at h⟩

theorem similar_of_opened (ha : a.state = .opened) (hb : b.state = .opened)
    (hsince : a.lastStateChangeTime = b.lastStateChangeTime) : Similar a b :=
  ⟨ha.trans hb.symm, hsince, fun h => by simp [ha] at h, fun h => by simp [ha] at h⟩

theorem similar_of_halfOpen (ha : a.state = .halfOpen) (hb : b.state = .halfOpen)
    (hsince : a.lastStateChangeTime = b.lastStateChangeTime)
    (hcount : a.consecutiveHalfOpenSuccesses = b.consecutiveHalfOpenSuccesses) : Similar a b :=
  ⟨ha.trans hb.symm, hsince, fun h => by simp [ha] at h, fun _ => hcount⟩

/-- Similar breakers admit the same calls and stay similar. -/
theorem Similar.locked (h : Similar a b) :
    (a.locked c time later op).1 = (b.locked c time later op).1 ∧
      Similar (a.locked c time later op).2 (b.locked c time later op).2 := by
  cases hs : a.state with
  | closed =>
      have hs' := h.state.symm.trans hs
      have hcount := h.closed hs
      rcases op with _ | _ | _
      · simp only [CircuitBreaker.locked, CircuitBreaker.prologue, hs, hs']
        exact ⟨rfl, h⟩
      · simp only [CircuitBreaker.locked, record_closed_success hs, record_closed_success hs']
        exact ⟨trivial, similar_of_closed hs hs' h.since rfl⟩
      · simp only [CircuitBreaker.locked, record_closed_failure hs, record_closed_failure hs',
          hcount]
        split_ifs
        · exact ⟨trivial, similar_of_opened rfl rfl rfl⟩
        · exact ⟨trivial, similar_of_closed hs hs' h.since rfl⟩
  | opened =>
      have hs' := h.state.symm.trans hs
      rcases op with _ | o
      · simp only [CircuitBreaker.locked, CircuitBreaker.prologue, hs, hs', h.since, if_true]
        split_ifs
        · exact ⟨rfl, similar_of_halfOpen rfl rfl rfl rfl⟩
        · exact ⟨rfl, h⟩
      · obtain ⟨hsa, hta⟩ := record_opened (c := c) (u := later) (o := o) hs
        obtain ⟨hsb, htb⟩ := record_opened (c := c) (u := later) (o := o) hs'
        exact ⟨rfl, similar_of_opened hsa hsb (hta.trans (h.since.trans htb.symm))⟩
  | halfOpen =>
      have hs' := h.state.symm.trans hs
      have hcount := h.halfOpen hs
      rcases op with _ | _ | _
      · simp only [CircuitBreaker.locked, CircuitBreaker.prologue, hs, hs']
        exact ⟨rfl, h⟩
      · simp only [CircuitBreaker.locked, record_halfOpen_success hs, record_halfOpen_success hs',
          hcount]
        split_ifs
        · exact ⟨trivial, similar_of_closed rfl rfl rfl rfl⟩
        · exact ⟨trivial, similar_of_halfOpen hs hs' h.since rfl⟩
      · simp only [CircuitBreaker.locked, record_halfOpen_failure hs, record_halfOpen_failure hs']
        exact ⟨trivial, similar_of_opened rfl rfl rfl⟩

theorem Similar.observe_eq (h : Similar a b) (ops : List (CallOp × ℚ × ℚ)) :
    observe c a ops = observe c b ops := by
  induction ops generalizing a b with
  | nil => rfl
  | cons op rest ih =>
      obtain ⟨op, time, later⟩ := op
      obtain ⟨hadm, hsim⟩ : (a.locked c time later op).1 = (b.locked c time later op).1 ∧
          Similar (a.locked c time later op).2 (b.locked c time later op).2 := h.locked
      simp only [observe, hadm, hsim.state, hsim.since, ih hsim]

theorem similar_record_opened {o : Outcome} (h : a.state = .opened) :
    Similar (a.record c later o) a := by
  obtain ⟨hstate, hsince⟩ := record_opened (c := c) (u := later) (o := o) h
  exact similar_of_opened hstate h hsince

end Similar

/-! ## The documented machine -/

theorem BreakerMove.refused_of_early (hmove : BreakerMove c s e s')
    (hs : s.breaker.state = .opened) (hop : e.op = .prologue)
    (hearly : e.time - s.breaker.lastStateChangeTime < c.recoveryTimeSeconds) :
    s.pc e.call = .entry ∧ s'.pc e.call = .done c.handleOpenCircuit := by
  cases hmove with
  | admitted _ hstate => exact absurd hs hstate
  | recovered _ _ hlate => exact absurd hlate (not_le.mpr hearly)
  | refused hpc _ _ => exact ⟨hpc, Function.update_self ..⟩
  | recorded _ => cases hop

theorem BreakerMove.breaker_of_record (hmove : BreakerMove c s e s') {o : Outcome}
    (hop : e.op = .record o) : s'.breaker = s.breaker.record c e.later o := by
  cases hmove with
  | admitted | recovered | refused => cases hop
  | recorded _ => cases hop; rfl

omit [DecidableEq ι] in
/-- The ways out of HALF_OPEN, where only successes have been recorded. -/
theorem FsmInv.leaves_halfOpen (h : FsmInv c p s.breaker) (hs : s.breaker.state = .halfOpen)
    (hnext : s'.breaker.state = fsmNext c .halfOpen p e) :
    (s'.breaker.state = .opened ↔ e.op = .record .failure) ∧
    (s'.breaker.state = .closed ↔ e.op = .record .success ∧
      ((p.outcomes ++ e.op.outcome.toList).length : ℤ) = c.halfOpenMaxProbes) ∧
    (s'.breaker.state ≠ .opened → s'.breaker.state ≠ .closed →
      s'.breaker.state = .halfOpen) := by
  obtain ⟨hcount, hnone, hlt⟩ := h.halfOpen hs
  rcases hop : e.op with _ | _ | _
  · -- an admission records nothing
    have hstays : s'.breaker.state = .halfOpen := by
      simp only [hnext, fsmNext, hop, CallOp.outcome, Option.toList_none, List.append_nil]
      rw [if_neg hnone, if_neg (by omega)]
    simp [hstays]
  · have hnone' : .failure ∉ p.outcomes ++ [.success] := by simp [hnone]
    have hlength : ((p.outcomes ++ [Outcome.success]).length : ℤ) = p.outcomes.length + 1 := by
      simp
    have hstate : s'.breaker.state
        = if c.halfOpenMaxProbes ≤ (p.outcomes ++ [Outcome.success]).length then .closed
          else .halfOpen := by
      simp only [hnext, fsmNext, hop, CallOp.outcome, Option.toList_some]
      rw [if_neg hnone']
    simp only [CallOp.outcome, Option.toList_some]
    rw [hstate, hlength]
    split_ifs with hclose
    · exact ⟨by simp, by simp; omega, by simp⟩
    · exact ⟨by simp, by simp; omega, by simp⟩
  · have htrips : s'.breaker.state = .opened := by
      simp [hnext, fsmNext, hop, CallOp.outcome]
    simp [htrips]

/-- **The breaker refines its documented state machine.** At every step
of every interleaving, with `p` the period read off the history so far:
from CLOSED it goes to OPEN exactly if the last `failure_threshold`
outcomes of the period are failures; from OPEN to HALF_OPEN exactly at an
admission that comes `recovery_time_seconds` after the period began, and
an earlier one is refused; from HALF_OPEN to OPEN exactly at the first
failure, and to CLOSED exactly at the `half_open_max_probes`-th success;
it moves in no other way. What is recorded while OPEN shows in no later
admission or transition. -/
theorem breaker_refines_fsm (hf : 1 ≤ c.failureThreshold) (hp : 1 ≤ c.halfOpenMaxProbes)
    {t₀ : ℚ} {l r : List (BreakerTransition ι)} {t : BreakerTransition ι}
    (hrun : Run (breakerStep c) (.start t₀) (l ++ t :: r) s) :
    let p := period t₀ l
    let outcomes := p.outcomes ++ t.event.op.outcome.toList
    (t.pre.breaker.state = .closed →
      (t.post.breaker.state = .opened ↔
        List.replicate c.failureThreshold.toNat .failure <:+ outcomes) ∧
      (t.post.breaker.state ≠ .opened → t.post.breaker.state = .closed)) ∧
    (t.pre.breaker.state = .opened →
      (t.post.breaker.state = .halfOpen ↔
        t.event.op = .prologue ∧ c.recoveryTimeSeconds ≤ t.event.time - p.since) ∧
      (t.post.breaker.state ≠ .halfOpen → t.post.breaker.state = .opened) ∧
      (t.event.op = .prologue → t.event.time - p.since < c.recoveryTimeSeconds →
        t.pre.pc t.event.call = .entry ∧ t.post.pc t.event.call = .done c.handleOpenCircuit) ∧
      (∀ o, t.event.op = .record o → t.post.breaker.state = .opened ∧
        t.post.breaker.lastStateChangeTime = t.pre.breaker.lastStateChangeTime ∧
        ∀ ops, observe c t.post.breaker ops = observe c t.pre.breaker ops)) ∧
    (t.pre.breaker.state = .halfOpen →
      .failure ∉ p.outcomes ∧
      (t.post.breaker.state = .opened ↔ t.event.op = .record .failure) ∧
      (t.post.breaker.state = .closed ↔
        t.event.op = .record .success ∧ (outcomes.length : ℤ) = c.halfOpenMaxProbes) ∧
      (t.post.breaker.state ≠ .opened → t.post.breaker.state ≠ .closed →
        t.post.breaker.state = .halfOpen)) := by
  intro p outcomes
  obtain ⟨hl, hstep, -⟩ := hrun.split
  have hinv : FsmInv c p t.pre.breaker := fsmInv_of_run hf hp hl
  have hmove := breakerMove_of_step hstep
  have hnext := state_eq_fsmNext hf hinv hmove
  refine ⟨fun hs => ?_, fun hs => ⟨?_, ?_, fun hop hearly => ?_, fun o hop => ?_⟩, fun hs => ?_⟩
  · rw [hs] at hnext
    rw [hnext, fsmNext]
    split_ifs with htrip <;> simp [outcomes, htrip]
  · rw [hs] at hnext
    rw [hnext, fsmNext]
    split_ifs with hadm <;> simp [hadm]
  · rw [hs] at hnext
    rw [hnext, fsmNext]
    split_ifs <;> simp
  · rw [← hinv.since] at hearly
    exact hmove.refused_of_early hs hop hearly
  · rw [hmove.breaker_of_record hop]
    obtain ⟨hstate, hsince⟩ := record_opened (c := c) (u := t.event.later) (o := o) hs
    exact ⟨hstate, hsince, (similar_record_opened hs).observe_eq⟩
  · rw [hs] at hnext
    exact ⟨(hinv.halfOpen hs).2.1, hinv.leaves_halfOpen hs hnext⟩

/-- The self-test: three failures trip the breaker, a call is refused,
and two probes after the cooldown close it. -/
theorem breaker_refines_fsm_selfTest :
    let c : BreakerConfig :=
      { name := "CB-FRAUD", recoveryTimeSeconds := 1 / 2, fallback := true }
    let run := exec (breakerStep (ι := Fin 6) c) (.start 0)
      [⟨0, .prologue, 0, 0⟩, ⟨0, .record .failure, 0, 0⟩, ⟨1, .prologue, 0, 0⟩,
       ⟨1, .record .failure, 0, 0⟩, ⟨2, .prologue, 0, 0⟩, ⟨2, .record .failure, 0, 0⟩,
       ⟨3, .prologue, 0, 0⟩, ⟨4, .prologue, 3 / 5, 3 / 5⟩, ⟨4, .record .success, 3 / 5, 3 / 5⟩,
       ⟨5, .prologue, 3 / 5, 3 / 5⟩, ⟨5, .record .success, 3 / 5, 3 / 5⟩]
    run.2.breaker.state = .closed ∧ run.2.pc 3 = .done .fallback ∧
      ∀ l t r, run.1 = l ++ t :: r → t.pre.breaker.state = .closed →
        (t.post.breaker.state = .opened ↔
          List.replicate 3 .failure <:+ (period 0 l).outcomes ++ t.event.op.outcome.toList) := by
  intro c run
  refine ⟨by decide +kernel, by decide +kernel, fun l t r htr hs => ?_⟩
  have hrun : Run (breakerStep c) (.start 0) (l ++ t :: r) run.2 := htr ▸ run_exec _ _ _
  exact ((breaker_refines_fsm (by decide) (by decide) hrun).1 hs).1

end Httpe.Breaker
