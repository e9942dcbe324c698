/-
Httpe.Breaker.DeadDependency — the load a breaker lets through to a
dependency that always fails.

Calls come one after another and every action raises. The first
`failure_threshold` of them run, and from then on each admission is a
probe after a full recovery time: the breaker re-opens with its failure,
and neither refused calls nor their fallbacks touch the timer.
`DeadInv` says so along a run: all admissions but the first
`failure_threshold - 1` are spaced by the recovery time. What that means
for a window of time is `countP_window_le`.
-/
import Httpe.Breaker.Probes
import Httpe.Lib.Spacing
import Mathlib.Data.Rat.Floor

namespace Httpe.Breaker

variable {ι : Type*}

/-- The clock readings of the calls that ran their action. -/
def admissions (tr : List (BreakerTransition ι)) : List ℚ :=
  (tr.filter admitted).map fun t => t.event.time

/-- No call arrives while another one is running. -/
def OneAtATime (t : BreakerTransition ι) : Prop :=
  arrives t = true → ∀ i, t.pre.pc i ≠ .running

/-- The dependency is dead: an action that ends has raised. -/
def OnlyFailures (t : BreakerTransition ι) : Prop := recorded t ≠ some .success

theorem admissions_snoc {tr : List (BreakerTransition ι)} {t : BreakerTransition ι} :
    admissions (tr ++ [t]) = admissions tr ++ if admitted t then [t.event.time] else [] := by
  rw [admissions, List.filter_append, List.map_append, ← admissions]
  by_cases h : admitted t = true
  · simp [h]
  · simp [h]

/-- What a breaker on a dead dependency has let through. -/
structure DeadInv (c : BreakerConfig) (tr : List (BreakerTransition ι)) (s : BreakerSystem ι) :
    Prop where
  past : ∀ a ∈ admissions tr, a ≤ s.now
  spaced : Spaced c.recoveryTimeSeconds ((admissions tr).drop (c.failureThreshold - 1).toNat)
  single : ∀ i j, s.pc i = .running → s.pc j = .running → i = j
  closed : s.breaker.state = .closed → (s.breaker.failureCount : ℤ) < c.failureThreshold ∧
    ((∀ i, s.pc i ≠ .running) → (admissions tr).length = s.breaker.failureCount) ∧
    ((∃ i, s.pc i = .running) → (admissions tr).length = s.breaker.failureCount + 1)
  opened : s.breaker.state = .opened →
    (∀ i, s.pc i ≠ .running) ∧ ∀ a ∈ admissions tr, a ≤ s.breaker.lastStateChangeTime
  halfOpen : s.breaker.state = .halfOpen → ∃ i, s.pc i = .running

variable [DecidableEq ι] {c : BreakerConfig} {s s' : BreakerSystem ι} {e : BreakerEvent ι}
  {tr : List (BreakerTransition ι)} {i : ι} {t u : ℚ}

theorem time_le_of_step (h : breakerStep c s e = some s') :
    s.now ≤ e.time ∧ e.time ≤ e.later ∧ s'.now = e.later := by
  have htime : s.now ≤ e.time ∧ e.time ≤ e.later := by
    unfold breakerStep at h
    split_ifs at h with htime
    exact htime
  refine ⟨htime.1, htime.2, ?_⟩
  cases breakerMove_of_step h with
  | admitted => rfl
  | recovered => rfl
  | refused => rfl
  | recorded => rfl

/-- If no other call is running, none is once this one is through. -/
theorem idle_of_done (h : ∀ j, j ≠ i → s.pc j ≠ .running) (answer : CallEnd) :
    ∀ j, Function.update s.pc i (.done answer) j ≠ .running := by
  intro j hj
  by_cases hij : j = i
  · rw [hij, Function.update_self] at hj
    cases hj
  · rw [Function.update_of_ne hij] at hj
    exact h j hij hj

/-- The only running call is the one just admitted. -/
theorem eq_of_running (hidle : ∀ j, s.pc j ≠ .running) {j : ι}
    (hj : Function.update s.pc i .running j = .running) : j = i := by
  by_contra hij
  rw [Function.update_of_ne hij] at hj
  exact hidle j hj

/-- A call admitted while CLOSED is one of the first `failure_threshold`. -/
theorem DeadInv.admitted (h : DeadInv c tr s) (hidle : ∀ j, s.pc j ≠ .running)
    (hstate : s.breaker.state ≠ .opened) (hnow : s.now ≤ t) (hle : t ≤ u)
    (hadm : admissions (tr ++ [⟨s, e, s'⟩]) = admissions tr ++ [t])
    (hpost : s' = ⟨s.breaker, u, Function.update s.pc i .running⟩) :
    DeadInv c (tr ++ [⟨s, e, s'⟩]) s' := by
  have hclosed : s.breaker.state = .closed := by
    cases hs : s.breaker.state with
    | closed => rfl
    | opened => exact absurd hs hstate
    | halfOpen =>
        obtain ⟨j, hj⟩ := h.halfOpen hs
        exact absurd hj (hidle j)
  obtain ⟨hlt, hlength, -⟩ := h.closed hclosed
  subst hpost
  constructor
  · rw [hadm]
    exact forall_mem_snoc (fun a ha => (h.past a ha).trans (hnow.trans hle)) hle
  · rw [hadm]
    exact Spaced.snoc_of_length_le (by have := hlength hidle; omega)
  · intro j k hj hk
    rw [eq_of_running hidle hj, eq_of_running hidle hk]
  · intro _
    refine ⟨hlt, fun hnone => absurd (Function.update_self ..) (hnone i), fun _ => ?_⟩
    rw [hadm, List.length_append, hlength hidle]
    rfl
  · intro hopened
    exact absurd hopened hstate
  · intro _
    exact ⟨i, Function.update_self ..⟩

/-- A probe comes a full recovery time after every earlier admission. -/
theorem DeadInv.recovered (h : DeadInv c tr s) (hstate : s.breaker.state = .opened)
    (hlate : c.recoveryTimeSeconds ≤ t - s.breaker.lastStateChangeTime) (hnow : s.now ≤ t)
    (hle : t ≤ u) (hadm : admissions (tr ++ [⟨s, e, s'⟩]) = admissions tr ++ [t])
    (hpost : s' = ⟨s.breaker.transitionTo .halfOpen u, u, Function.update s.pc i .running⟩) :
    DeadInv c (tr ++ [⟨s, e, s'⟩]) s' := by
  obtain ⟨hidle, hpast⟩ := h.opened hstate
  subst hpost
  constructor
  · rw [hadm]
    exact forall_mem_snoc (fun a ha => (h.past a ha).trans (hnow.trans hle)) hle
  · rw [hadm]
    refine h.spaced.snoc_drop fun a ha => ?_
    have ha' := hpast a ha
    linarith
  · intro j k hj hk
    rw [eq_of_running hidle hj, eq_of_running hidle hk]
  · exact nofun
  · exact nofun
  · intro _
    exact ⟨i, Function.update_self ..⟩

theorem DeadInv.refused (h : DeadInv c tr s) (hstate : s.breaker.state = .opened)
    (hnow : s.now ≤ u) (hadm : admissions (tr ++ [⟨s, e, s'⟩]) = admissions tr) {answer : CallEnd}
    (hpost : s' = ⟨s.breaker, u, Function.update s.pc i (.done answer)⟩) :
    DeadInv c (tr ++ [⟨s, e, s'⟩]) s' := by
  obtain ⟨hidle, hpast⟩ := h.opened hstate
  have hidle' := idle_of_done (fun j (_ : j ≠ i) => hidle j) answer
  subst hpost
  constructor
  · rw [hadm]
    exact fun a ha => (h.past a ha).trans hnow
  · rw [hadm]
    exact h.spaced
  · exact fun j k hj => absurd hj (hidle' j)
  · intro hclosed
    rw [hstate] at hclosed
    cases hclosed
  · intro _
    rw [hadm]
    exact ⟨hidle', hpast⟩
  · intro hhalf
    rw [hstate] at hhalf
    cases hhalf

omit [DecidableEq ι] in
/-- A failure trips the breaker, or is one of the first few. -/
theorem record_failure_cases (h : DeadInv c tr s) (hpc : s.pc i = .running) (u : ℚ) :
    ((s.breaker.record c u .failure).state = .opened ∧
      (s.breaker.record c u .failure).lastStateChangeTime = u) ∨
    (s.breaker.state = .closed ∧ (s.breaker.record c u .failure).state = .closed ∧
      (s.breaker.record c u .failure).failureCount = s.breaker.failureCount + 1 ∧
      (s.breaker.failureCount : ℤ) + 1 < c.failureThreshold) := by
  cases hs : s.breaker.state with
  | closed =>
      rw [record_closed_failure hs]
      split_ifs with htrip
      · exact .inl ⟨rfl, rfl⟩
      · exact .inr ⟨rfl, hs, rfl, not_le.mp htrip⟩
  | opened => exact absurd hpc ((h.opened hs).1 i)
  | halfOpen =>
      rw [record_halfOpen_failure hs]
      exact .inl ⟨rfl, rfl⟩

theorem DeadInv.recorded (h : DeadInv c tr s) (hpc : s.pc i = .running) (hnow : s.now ≤ u)
    (hadm : admissions (tr ++ [⟨s, e, s'⟩]) = admissions tr) {answer : CallEnd}
    (hpost : s' = ⟨s.breaker.record c u .failure, u, Function.update s.pc i (.done answer)⟩) :
    DeadInv c (tr ++ [⟨s, e, s'⟩]) s' := by
  have hidle' := idle_of_done (fun j hj hrunning => hj (h.single j i hrunning hpc)) answer
  have hpast : ∀ a ∈ admissions tr, a ≤ u := fun a ha => (h.past a ha).trans hnow
  have hcases := record_failure_cases h hpc u
  subst hpost
  constructor
  · rw [hadm]
    exact hpast
  · rw [hadm]
    exact h.spaced
  · exact fun j k hj => absurd hj (hidle' j)
  · intro hclosed
    rcases hcases with ⟨hopened, -⟩ | ⟨hbefore, -, hcount, hlt⟩
    · exact absurd (hclosed.symm.trans hopened) nofun
    · refine ⟨by rw [hcount]; push_cast; exact hlt, fun _ => ?_, ?_⟩
      · rw [hadm, hcount]
        exact (h.closed hbefore).2.2 ⟨i, hpc⟩
      · intro hrunning
        obtain ⟨j, hj⟩ := hrunning
        exact absurd hj (hidle' j)
  · intro hopened
    rcases hcases with ⟨-, hsince⟩ | ⟨-, hclosed, -⟩
    · refine ⟨hidle', ?_⟩
      rw [hadm, hsince]
      exact hpast
    · exact absurd (hopened.symm.trans hclosed) nofun
  · intro hhalf
    rcases hcases with ⟨hopened, -⟩ | ⟨-, hclosed, -⟩
    · exact absurd (hhalf.symm.trans hopened) nofun
    · exact absurd (hhalf.symm.trans hclosed) nofun

theorem DeadInv.step (h : DeadInv c tr s) (hstep : breakerStep c s e = some s')
    (hone : OneAtATime ⟨s, e, s'⟩) (hdead : OnlyFailures ⟨s, e, s'⟩) :
    DeadInv c (tr ++ [⟨s, e, s'⟩]) s' := by
  obtain ⟨hnow, hle, -⟩ := time_le_of_step hstep
  cases breakerMove_of_step hstep with
  | admitted hpc hstate =>
      exact h.admitted (hone rfl) hstate hnow hle
        (by simp [admissions_snoc, Breaker.admitted, arrives]) rfl
  | recovered hpc hstate hlate =>
      exact h.recovered hstate hlate hnow hle
        (by simp [admissions_snoc, Breaker.admitted, arrives]) rfl
  | refused hpc hstate hearly =>
      exact h.refused hstate (hnow.trans hle)
        (by simp [admissions_snoc, Breaker.admitted, arrives]) rfl
  | @recorded _ outcome _ _ hpc =>
      cases outcome with
      | success => exact absurd rfl hdead
      | failure =>
          exact h.recorded hpc (hnow.trans hle)
            (by simp [admissions_snoc, Breaker.admitted, arrives]) rfl

theorem deadInv_of_run {t₀ : ℚ} (hf : 1 ≤ c.failureThreshold)
    (hrun : Run (breakerStep c) (.start t₀) tr s)
    (hcalls : ∀ t ∈ tr, OneAtATime t ∧ OnlyFailures t) : DeadInv c tr s := by
  refine hrun.invariant_of_forall (fun t => OneAtATime t ∧ OnlyFailures t) (DeadInv c) ?_
    (fun tr s e s' _ ih hstep ht => ih.step hstep ht.1 ht.2) hcalls
  constructor
  · exact nofun
  · rw [admissions, List.filter_nil, List.map_nil, List.drop_nil]
    exact List.Pairwise.nil
  · exact fun i j hi => nomatch hi
  · intro _
    refine ⟨by exact_mod_cast hf, fun _ => rfl, ?_⟩
    exact fun hrunning => nomatch hrunning.choose_spec
  · exact nofun
  · exact nofun

/-- **Bounded load on a dead dependency.** However many calls are made
one after another, if every action that ends has raised, a closed window
of length `T` holds at most `failure_threshold + ⌊T / recovery_time⌋`
calls that ran their action. -/
theorem bounded_load {t₀ : ℚ} (hf : 1 ≤ c.failureThreshold) (hR : 0 < c.recoveryTimeSeconds)
    (hrun : Run (breakerStep c) (.start t₀) tr s) (hone : ∀ t ∈ tr, OneAtATime t)
    (hdead : ∀ t ∈ tr, OnlyFailures t) (x : ℚ) {T : ℚ} (hT : 0 ≤ T) :
    ((admissions tr).countP (inWindow x T) : ℤ)
      ≤ c.failureThreshold + ⌊T / c.recoveryTimeSeconds⌋ := by
  have hinv := deadInv_of_run hf hrun fun t ht => ⟨hone t ht, hdead t ht⟩
  have hwindow := countP_window_le (x := x) hinv.spaced hR hT
  omega

/-- Three failures trip the breaker; of the calls after that, the ones at
15 and 30 are probes. -/
def deadSchedule : List (BreakerEvent (Fin 7)) :=
  [⟨0, .prologue, 0, 0⟩, ⟨0, .record .failure, 0, 0⟩, ⟨1, .prologue, 0, 0⟩,
   ⟨1, .record .failure, 0, 0⟩, ⟨2, .prologue, 0, 0⟩, ⟨2, .record .failure, 0, 0⟩,
   ⟨3, .prologue, 14, 14⟩, ⟨4, .prologue, 15, 15⟩, ⟨4, .record .failure, 15, 15⟩,
   ⟨5, .prologue, 29, 29⟩, ⟨6, .prologue, 30, 30⟩, ⟨6, .record .failure, 30, 30⟩]

/-- The bound is reached. -/
theorem bounded_load_deadSchedule :
    let c : BreakerConfig := { name := "CB-FRAUD" }
    let run := exec (breakerStep c) (.start 0) deadSchedule
    (admissions run.1).countP (inWindow 0 30) = 5 ∧
    ((admissions run.1).countP (inWindow 0 30) : ℤ) ≤ 3 + ⌊(30 : ℚ) / 15⌋ := by
  intro c run
  have hrun : Run (breakerStep c) (.start 0) run.1 run.2 := run_exec _ _ _
  have hone : ∀ t ∈ run.1, arrives t = true → ∀ i, t.pre.pc i ≠ .running := by decide +kernel
  have hdead : ∀ t ∈ run.1, recorded t ≠ some .success := by decide +kernel
  exact ⟨by decide +kernel, bounded_load (c := c) (by decide) (by decide +kernel) hrun hone hdead 0
    (by decide +kernel)⟩

end Httpe.Breaker
