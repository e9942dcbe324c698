/-
Httpe.Breaker.Recovery — the breaker heals.

From some moment of a run on, whatever state the breaker is in and
however calls overlap, no action that ends raises any more. What has been
recorded until then does not matter, nor do the counters it has left
behind: `Healing` says what the breaker can still look like. It refuses
until its recovery time is over and not afterwards, and the first call
that arrives then is the last thing it waits for but the successes of
`half_open_max_probes` calls.
-/
import Httpe.Breaker.Probes

namespace Httpe.Breaker

variable {ι : Type*}

/-- The dependency is well: an action that ends has returned. -/
def OnlySuccesses (t : BreakerTransition ι) : Prop := recorded t ≠ some .failure

/-- A call arrives when the recovery time, counted from the breaker's last
transition, is over. -/
def Due (c : BreakerConfig) (cb : CircuitBreaker) (t : BreakerTransition ι) : Prop :=
  arrives t = true ∧ c.recoveryTimeSeconds ≤ t.event.time - cb.lastStateChangeTime

/-- How many outcomes the steps record. -/
def recordings (tr : List (BreakerTransition ι)) : ℕ := tr.countP fun t => (recorded t).isSome

/-- What a breaker that was `cb₀` has become, by the steps since. -/
structure Healing (c : BreakerConfig) (cb₀ : CircuitBreaker) (tr : List (BreakerTransition ι))
    (cb : CircuitBreaker) : Prop where
  keeps : cb₀.state = .closed → cb.state = .closed
  closed : cb.state = .closed → 0 < recordings tr → cb.failureCount = 0
  opened : cb.state = .opened → cb₀.state = .opened ∧
    cb.lastStateChangeTime = cb₀.lastStateChangeTime ∧ ∀ t ∈ tr, ¬ Due c cb₀ t
  halfOpen : cb.state = .halfOpen →
    (cb.consecutiveHalfOpenSuccesses : ℤ) < c.halfOpenMaxProbes ∧
    ∀ l t r, tr = l ++ t :: r → Due c cb₀ t → recordings r ≤ cb.consecutiveHalfOpenSuccesses

variable {c : BreakerConfig} {cb₀ cb : CircuitBreaker} {tr : List (BreakerTransition ι)}
  {t : BreakerTransition ι}

theorem recordings_snoc :
    recordings (tr ++ [t]) = recordings tr + if (recorded t).isSome then 1 else 0 := by
  simp [recordings, List.countP_append, List.countP_singleton]

theorem not_due_of_record {o : Outcome} (h : t.event.op = .record o) : ¬ Due c cb t := by
  simp [Due, arrives, h]

/-- What has been recorded since a due call, with one more step. -/
theorem recordings_cut_snoc {n n' : ℕ}
    (h : ∀ l u r, tr = l ++ u :: r → Due c cb₀ u → recordings r ≤ n)
    (hn : n + (if (recorded t).isSome then 1 else 0) ≤ n') :
    ∀ l u r, tr ++ [t] = l ++ u :: r → Due c cb₀ u → recordings r ≤ n' := by
  intro l u r hcut hdue
  rcases snoc_eq_append_cons hcut with ⟨-, -, rfl⟩ | ⟨r', rfl, hbefore⟩
  · exact Nat.zero_le _
  · have hle := h l u r' hbefore hdue
    rw [recordings_snoc]
    omega

theorem recordings_prologue (hop : t.event.op = .prologue) :
    recordings (tr ++ [t]) = recordings tr := by
  simp [recordings_snoc, recorded, CallOp.outcome, hop]

section Prologue

variable (h : Healing c cb₀ tr cb) (hop : t.event.op = .prologue)
include h hop

/-- A call admitted without a transition. -/
theorem Healing.admitted (hstate : cb.state ≠ .opened) : Healing c cb₀ (tr ++ [t]) cb := by
  constructor
  · exact h.keeps
  · rw [recordings_prologue hop]
    exact h.closed
  · exact fun hopened => absurd hopened hstate
  · intro hhalf
    obtain ⟨hlt, hcuts⟩ := h.halfOpen hhalf
    exact ⟨hlt, recordings_cut_snoc hcuts (by simp [recorded, CallOp.outcome, hop])⟩

/-- A call refused before the recovery time is over. -/
theorem Healing.refused (hstate : cb.state = .opened)
    (hearly : t.event.time - cb.lastStateChangeTime < c.recoveryTimeSeconds) :
    Healing c cb₀ (tr ++ [t]) cb := by
  obtain ⟨hopened, hsince, hnone⟩ := h.opened hstate
  constructor
  · exact h.keeps
  · rw [recordings_prologue hop]
    exact h.closed
  · refine fun _ => ⟨hopened, hsince, forall_mem_snoc hnone fun hdue => ?_⟩
    rw [hsince] at hearly
    exact absurd hdue.2 (not_le.mpr hearly)
  · intro hhalf
    rw [hstate] at hhalf
    cases hhalf

/-- The first due call moves the breaker to HALF_OPEN. -/
theorem Healing.recovered (hp : 1 ≤ c.halfOpenMaxProbes) (hstate : cb.state = .opened) {u : ℚ} :
    Healing c cb₀ (tr ++ [t]) (cb.transitionTo .halfOpen u) := by
  obtain ⟨hopened, -, hnone⟩ := h.opened hstate
  constructor
  · intro hclosed
    rw [hclosed] at hopened
    cases hopened
  · intro hopened
    cases hopened
  · intro hhalf
    cases hhalf
  · refine fun _ => ⟨hp, recordings_cut_snoc (n := 0) ?_ ?_⟩
    · rintro l u r rfl hdue
      exact absurd hdue (hnone u (by simp))
    · simp [recorded, CallOp.outcome, hop]

end Prologue

/-- A success is recorded. -/
theorem Healing.succeeded (h : Healing c cb₀ tr cb) (hop : t.event.op = .record .success) {u : ℚ} :
    Healing c cb₀ (tr ++ [t]) (cb.record c u .success) := by
  cases hstate : cb.state with
  | closed =>
      rw [record_closed_success hstate]
      constructor
      · exact fun _ => hstate
      · exact fun _ _ => rfl
      · intro hopened
        rw [hstate] at hopened
        cases hopened
      · intro hhalf
        rw [hstate] at hhalf
        cases hhalf
  | opened =>
      obtain ⟨hopened, hsince, hnone⟩ := h.opened hstate
      show Healing c cb₀ (tr ++ [t]) (cb.onSuccess c u)
      simp only [CircuitBreaker.onSuccess, hstate]
      constructor
      · exact h.keeps
      · intro hclosed
        rw [hstate] at hclosed
        cases hclosed
      · exact fun _ => ⟨hopened, hsince, forall_mem_snoc hnone (not_due_of_record hop)⟩
      · intro hhalf
        rw [hstate] at hhalf
        cases hhalf
  | halfOpen =>
      obtain ⟨hlt, hcuts⟩ := h.halfOpen hstate
      have hkeeps : cb₀.state ≠ .closed := fun hclosed => by
        have hsame := h.keeps hclosed
        rw [hstate] at hsame
        cases hsame
      rw [record_halfOpen_success hstate]
      split_ifs with hclose
      · constructor
        · exact fun _ => rfl
        · exact fun _ _ => rfl
        · intro hopened
          cases hopened
        · intro hhalf
          cases hhalf
      · constructor
        · exact fun hclosed => absurd hclosed hkeeps
        · intro hclosed
          rw [hstate] at hclosed
          cases hclosed
        · intro hopened
          rw [hstate] at hopened
          cases hopened
        · refine fun _ => ⟨by push_cast; omega, recordings_cut_snoc hcuts ?_⟩
          simp [recorded, CallOp.outcome, hop]

variable [DecidableEq ι] {s s' : BreakerSystem ι} {e : BreakerEvent ι} {t₀ : ℚ}

theorem Healing.step (h : Healing c cb₀ tr s.breaker) (hp : 1 ≤ c.halfOpenMaxProbes)
    (hmove : BreakerMove c s e s') (hhealthy : OnlySuccesses (⟨s, e, s'⟩ : BreakerTransition ι)) :
    Healing c cb₀ (tr ++ [⟨s, e, s'⟩]) s'.breaker := by
  cases hmove with
  | admitted hpc hstate => exact h.admitted rfl hstate
  | recovered hpc hstate hlate => exact h.recovered rfl hp hstate
  | refused hpc hstate hearly => exact h.refused rfl hstate hearly
  | @recorded i o t u hpc =>
      cases o with
      | success => exact h.succeeded rfl
      | failure => exact absurd rfl hhealthy

theorem healing_of_run {before : List (BreakerTransition ι)} (hf : 1 ≤ c.failureThreshold)
    (hp : 1 ≤ c.halfOpenMaxProbes) (hbefore : Run (breakerStep c) (.start t₀) before s)
    (hrun : Run (breakerStep c) s tr s') (hhealthy : ∀ t ∈ tr, OnlySuccesses t) :
    Healing c s.breaker tr s'.breaker := by
  refine hrun.invariant_of_forall OnlySuccesses (fun tr s' => Healing c s.breaker tr s'.breaker)
    ?_ (fun _ _ _ _ _ ih hstep => ih.step hp (breakerMove_of_step hstep)) hhealthy
  constructor
  · exact id
  · intro _ hpos
    simp [recordings] at hpos
  · exact fun hopened => ⟨hopened, rfl, by simp⟩
  · intro hhalf
    refine ⟨((fsmInv_of_run hf hp hbefore).halfOpen hhalf).2.2, fun l t r hcut => ?_⟩
    simp at hcut

/-- A call that arrives and is not admitted found the breaker OPEN, its
recovery time not over. -/
theorem opened_of_refused (h : BreakerMove c t.pre t.event t.post) (harrives : arrives t = true)
    (hrefused : admitted t = false) :
    t.pre.breaker.state = .opened ∧
      t.event.time - t.pre.breaker.lastStateChangeTime < c.recoveryTimeSeconds := by
  obtain ⟨s, e, s'⟩ := t
  replace h : BreakerMove c s e s' := h
  cases h with
  | admitted hpc hstate => simp [admitted, arrives] at hrefused
  | recovered hpc hstate hlate => simp [admitted, arrives] at hrefused
  | refused hpc hstate hearly => exact ⟨hstate, hearly⟩
  | recorded hpc => simp [arrives] at harrives

/-- **The breaker heals.** Take any run up to the moment from which on no
action raises, and any interleaving of calls from there, those admitted
earlier included. A CLOSED breaker stays CLOSED. A call is refused only
if the breaker was OPEN at that moment, and before its recovery time is
over. And once a call has arrived after the recovery time and
`half_open_max_probes` outcomes have been recorded since, the breaker is
CLOSED, with no failure counted. -/
theorem breaker_heals {before : List (BreakerTransition ι)} (hf : 1 ≤ c.failureThreshold)
    (hp : 1 ≤ c.halfOpenMaxProbes) (hbefore : Run (breakerStep c) (.start t₀) before s)
    (hrun : Run (breakerStep c) s tr s') (hhealthy : ∀ t ∈ tr, OnlySuccesses t) :
    (s.breaker.state = .closed → s'.breaker.state = .closed) ∧
    (∀ t ∈ tr, arrives t = true → admitted t = false → s.breaker.state = .opened ∧
      t.event.time - s.breaker.lastStateChangeTime < c.recoveryTimeSeconds) ∧
    ∀ l t r, tr = l ++ t :: r → Due c s.breaker t → c.halfOpenMaxProbes ≤ recordings r →
      s'.breaker.state = .closed ∧ s'.breaker.failureCount = 0 := by
  refine ⟨?_, fun t ht harrives hrefused => ?_, ?_⟩
  · exact (healing_of_run hf hp hbefore hrun hhealthy).keeps
  · obtain ⟨l, r, rfl⟩ := List.append_of_mem ht
    obtain ⟨hl, hstep, -⟩ := hrun.split
    obtain ⟨hopened, hearly⟩ := opened_of_refused (breakerMove_of_step hstep) harrives hrefused
    have hhealing := healing_of_run hf hp hbefore hl fun u hu => hhealthy u (by simp [hu])
    obtain ⟨hopened₀, hsince, -⟩ := hhealing.opened hopened
    rw [hsince] at hearly
    exact ⟨hopened₀, hearly⟩
  · rintro l t r rfl hdue hprobes
    have hhealing := healing_of_run hf hp hbefore hrun hhealthy
    cases hstate : s'.breaker.state with
    | closed =>
        have hsub : recordings r ≤ recordings (l ++ t :: r) :=
          List.Sublist.countP_le (by simp)
        exact ⟨rfl, hhealing.closed hstate (by omega)⟩
    | opened => exact absurd hdue ((hhealing.opened hstate).2.2 t (by simp))
    | halfOpen =>
        obtain ⟨hlt, hcuts⟩ := hhealing.halfOpen hstate
        have hle := hcuts l t r rfl hdue
        omega

/-- The self-test's breaker after its three failures: one call is refused,
and two probes that overlap close it. -/
theorem breaker_heals_selfTest :
    let c : BreakerConfig :=
      { name := "CB-FRAUD", recoveryTimeSeconds := 1 / 2, fallback := true }
    let tripped := exec (breakerStep (ι := Fin 6) c) (.start 0)
      [⟨0, .prologue, 0, 0⟩, ⟨0, .record .failure, 0, 0⟩, ⟨1, .prologue, 0, 0⟩,
       ⟨1, .record .failure, 0, 0⟩, ⟨2, .prologue, 0, 0⟩, ⟨2, .record .failure, 0, 0⟩]
    let healed := exec (breakerStep c) tripped.2
      [⟨3, .prologue, 1 / 4, 1 / 4⟩, ⟨4, .prologue, 3 / 5, 3 / 5⟩, ⟨5, .prologue, 3 / 5, 3 / 5⟩,
       ⟨5, .record .success, 7 / 10, 7 / 10⟩, ⟨4, .record .success, 4 / 5, 4 / 5⟩]
    tripped.2.breaker.state = .opened ∧ healed.2.breaker.state = .closed := by
  intro c tripped healed
  have hbefore : Run (breakerStep c) (.start 0) tripped.1 tripped.2 := run_exec _ _ _
  have hrun : Run (breakerStep c) tripped.2 healed.1 healed.2 := run_exec _ _ _
  have hhealthy : ∀ t ∈ healed.1, OnlySuccesses t := by
    unfold OnlySuccesses
    decide +kernel
  have hlength : 1 < healed.1.length := by decide +kernel
  have hcut : healed.1 = healed.1.take 1 ++ healed.1[1] :: healed.1.drop 2 := by
    rw [List.getElem_cons_drop, List.take_append_drop]
  have hdue : ∀ h : 1 < healed.1.length, Due c tripped.2.breaker healed.1[1] := by
    unfold Due
    decide +kernel
  have hheals := breaker_heals (by decide) (by decide) hbefore hrun hhealthy
  exact ⟨by decide +kernel, (hheals.2.2 _ _ _ hcut (hdue hlength) (by decide +kernel)).1⟩

end Httpe.Breaker
